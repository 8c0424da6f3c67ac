import RrWorkbench.RpcSyscall

namespace RrWorkbench.RpcSyscall

open RrWorkbench.Data RrWorkbench.X86
open RrWorkbench.Regtrace (wifstopped wifexited wtermsig)

/-! Which of the two can move.  While the child is stopped or gone, only the parent can;
while the child runs, the parent is in `waitpid`. -/

namespace Child

def Halted (c : Child) : Prop :=
  match c.phase with
  | .stopped _ _ | .exited _ => True
  | _ => False

theorem Halted.move {c : Child} (halted : c.Halted) (image : Image) (event : Event) :
    c.move image event = none := by
  cases hphase : c.phase <;> cases event <;> simp_all [Halted, Child.move]

end Child

section Rules

variable {image : Image} {Q : State → Prop} {rest : List Op} {p : Parent} {c : Child}

end Rules

/-! The child when nobody changes its registers. -/

namespace Child

def Refused (c : Child) : Prop :=
  c.regs.eip = .afterRpc → c.regs.eax = enosys ∧ c.regs.origEax.msb = true

variable {image : Image} {c : Child}

theorem Refused.answered (refused : c.Refused) (result : Word) :
    (c.answered result).Refused := by
  intro heip
  obtain ⟨_, hmsb⟩ := refused heip
  exact ⟨by simp [Child.answered, hmsb], hmsb⟩

/-- The second `int $0x80` is made with the registers of the return from the first, and
`ret` is their `eax`. -/
theorem toSyscall_afterRpc (image : Image) (heip : c.regs.eip = .afterRpc) :
    (c.toSyscall image).regs.current = c.regs.request ∧
      (c.toSyscall image).regs.eip = .afterStub 0 ∧
      (c.toSyscall image).ret = c.regs.eax := by
  have hto : image.toSyscall c.regs c.ret =
      ({ image.between c.regs with eip := .afterStub 0 }, c.regs.eax) := by
    simp only [Image.toSyscall, heip]
  rw [← image.between_request c.regs, toSyscall, hto]
  exact ⟨rfl, rfl, rfl⟩

end Child

section Undisturbed

variable {image : Image} {Q : State → Prop} {rest : List Op} {p : Parent} {c : Child}

end Undisturbed

end RrWorkbench.RpcSyscall
