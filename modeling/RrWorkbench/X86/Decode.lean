import RrWorkbench.X86.Assembly

namespace RrWorkbench.X86

/-! Machine code of some of the instructions. -/

def Reg.ofNumber : Nat → Reg
  | 0 => .eax
  | 1 => .ecx
  | 2 => .edx
  | 3 => .ebx
  | 4 => .esp
  | 5 => .ebp
  | 6 => .esi
  | _ => .edi

def Byte.reg (b : Byte) : Reg := .ofNumber (b.toNat % 8)

def Byte.middleReg (b : Byte) : Reg := .ofNumber (b.toNat / 8 % 8)

def bytesOf (v : Word) : List Byte := [byteOf v 0, byteOf v 1, byteOf v 2, byteOf v 3]

def decodeOne {L : Type} : List Byte → Option (Stmt L × List Byte)
  | [] => none
  | op :: rest =>
      if op.toNat / 8 = 0x50 / 8 then some (.instr (.push (.reg op.reg)), rest)
      else if op.toNat / 8 = 0x58 / 8 then some (.instr (.pop op.reg), rest)
      else if op = 0x90 then some (.instr .nop, rest)
      else if op = 0xc3 then some (.ret, rest)
      else if op.toNat / 8 = 0xb8 / 8 then
        match rest with
        | b0 :: b1 :: b2 :: b3 :: rest =>
            some (.instr (.mov op.reg (.imm (ofBytes b0 b1 b2 b3))), rest)
        | _ => none
      else
        match rest with
        | [] => none
        | b :: rest =>
            -- ModR/M bytes of register operands only
            if op = 0x89 ∧ b.toNat / 64 = 3 then
              some (.instr (.mov b.reg (.reg b.middleReg)), rest)
            else if op = 0xff ∧ b.toNat / 8 = 0xe0 / 8 then some (.jmpReg b.reg, rest)
            else if op = 0xff ∧ b.toNat / 8 = 0xd0 / 8 then some (.callReg b.reg, rest)
            else if op = 0x0f ∧ b = 0x34 then some (.trap .sysenter, rest)
            else if op = 0xcd then some (.trap (.int b), rest)
            else none

/-- The instructions that make up the bytes, `fuel` of them at most. -/
def decode {L : Type} : Nat → List Byte → Option (List (Stmt L))
  | _, [] => some []
  | 0, _ => none
  | fuel + 1, bytes =>
      (decodeOne bytes).bind fun (stmt, rest) => (decode fuel rest).map (stmt :: ·)

end RrWorkbench.X86
