import RrWorkbench.RpcSyscall.Schedule

namespace RrWorkbench.RpcSyscall

open RrWorkbench.Data

/-! The rpc. -/

def Image.write (image : Image) : Call :=
  { nr := sysWrite, ebx := stdoutFileno, ecx := image.str, edx := Image.len }

structure Parent.Serving (image : Image) (p : Parent) : Prop where
  str : p.str = image.str
  len : p.len = Image.len
  request : p.regs.request = { image.rpc with nr := 0 }
  eip : p.regs.eip = .afterRpc
  callregs_eip : p.callregs.eip = .afterRpc

section Served

variable {image : Image} {Q : State → Prop} {rest : List Op} {p : Parent} {c : Child}

theorem Parent.Serving.current (serving : p.Serving image) :
    ({ c with regs := p.artificialCall }.toSyscall image).regs.current = image.write := by
  have hregs : p.artificialCall.request = image.write := by
    simp [Parent.artificialCall, Regs.request, Image.write, serving.str, serving.len]
  exact (Child.toSyscall_afterRpc image serving.callregs_eip).1.trans hregs

end Served

section Race

variable {image : Image} {Q : State → Prop} {rest : List Op} {p : Parent} {c : Child}

end Race

end RrWorkbench.RpcSyscall
