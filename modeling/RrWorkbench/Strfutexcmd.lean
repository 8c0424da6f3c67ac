import RrWorkbench.Data.CNumber
import RrWorkbench.HistogramTrace

namespace RrWorkbench.Strfutexcmd

open RrWorkbench.Data
open RrWorkbench.HistogramTrace (Text Exn stringifyFutex lookupName futexNames)

/-! `strfutexcmd.c`: names the futex operations that it is given as numbers.  It keeps a
table of its own beside the one of `histogram-trace`. -/

def futexPrivateFlag : BitVec 32 := 128

def futexClockRealtime : BitVec 32 := 256

def futexCmdMask : BitVec 32 := ~~~(futexPrivateFlag ||| futexClockRealtime)

def strfutex (cmd : BitVec 32) : String :=
  match cmd.toNat with
  | 0 => "WAIT"
  | 1 => "WAKE"
  | 2 => "FD"
  | 3 => "REQUEUE"
  | 4 => "CMP_REQUEUE"
  | 5 => "WAKE_OP"
  | 6 => "LOCK_PI"
  | 7 => "UNLOCK_PI"
  | 8 => "TRYLOCK_PI"
  | 9 => "WAIT_BITSET"
  | 10 => "WAKE_BITSET"
  | 11 => "WAIT_REQUEUE_PI"
  | 12 => "CMP_REQUEUE_PI"
  | _ => "???"

def privateWords (cmd : BitVec 32) : String :=
  if cmd &&& futexPrivateFlag ≠ 0 then " (private)" else ""

def clockWords (cmd : BitVec 32) : String :=
  if cmd &&& futexClockRealtime ≠ 0 then " (clock_realtime)" else ""

def line (cmd : BitVec 32) : Text :=
  NumberForm.hexadecimal.write cmd.toNat ++ " = ".toList ++
    (strfutex (cmd &&& futexCmdMask) ++ privateWords cmd ++ clockWords cmd ++ "\n").toList

def main (argv : List Text) : Text :=
  argv.flatMap fun arg => line (BitVec.ofNat 32 (strtoul 32 arg))

/-! The two programs look at the same bits. -/

theorem land_flag (cmd flag : BitVec 32) :
    Int.land cmd.toNat flag.toNat = ((cmd &&& flag).toNat : Int) := by
  rw [BitVec.toNat_and]
  rfl

theorem land_flag_ne_zero_iff (cmd flag : BitVec 32) :
    Int.land cmd.toNat flag.toNat ≠ 0 ↔ cmd &&& flag ≠ 0 := by
  rw [land_flag, ne_eq, ne_eq, Int.natCast_eq_zero, ← BitVec.toNat_inj]
  rfl

theorem land_cmdMask (cmd : BitVec 32) :
    Int.land cmd.toNat HistogramTrace.futexCmdMask =
      ((cmd &&& futexCmdMask).toNat : Int) := by
  have hmask : HistogramTrace.futexCmdMask = Int.negSucc 384 := by decide +kernel
  rw [hmask]
  show ((Nat.ldiff cmd.toNat 384 : Nat) : Int) = _
  congr 1
  apply Nat.eq_of_testBit_eq
  intro i
  have hflags : futexPrivateFlag ||| futexClockRealtime = BitVec.ofNat 32 384 := by decide
  rw [Nat.testBit_ldiff, BitVec.testBit_toNat, BitVec.testBit_toNat, BitVec.getLsbD_and,
    futexCmdMask, hflags, BitVec.getLsbD_not, BitVec.getLsbD_ofNat]
  by_cases hi : i < 32
  · simp [hi]
  · simp [hi, BitVec.getLsbD_of_ge cmd i (Nat.le_of_not_lt hi)]

theorem names_agree (cmd : BitVec 32) :
    (strfutex cmd = "???" ∧
        lookupName futexNames cmd.toNat = .error (.keyError cmd.toNat)) ∨
      (strfutex cmd ≠ "???" ∧
        lookupName futexNames cmd.toNat = .ok ("FUTEX_" ++ strfutex cmd)) := by
  by_cases hcmd : cmd.toNat ≤ 12
  · right
    have hnamed : ∀ n ≤ 12, strfutex (BitVec.ofNat 32 n) ≠ "???" ∧
        lookupName futexNames n = .ok ("FUTEX_" ++ strfutex (BitVec.ofNat 32 n)) := by
      decide +kernel
    have hcmd' := hnamed cmd.toNat hcmd
    rwa [BitVec.ofNat_toNat, BitVec.setWidth_eq] at hcmd'
  · left
    constructor
    · unfold strfutex
      split <;> first | omega | rfl
    · have hnone : futexNames.lookup (cmd.toNat : Int) = none := by
        rw [List.lookup_eq_none_iff]
        intro entry hentry
        have hkey : entry.1 ≤ 12 := by
          have hkeys : ∀ e ∈ futexNames, e.1 ≤ 12 := by decide +kernel
          exact hkeys entry hentry
        rw [bne_iff_ne]
        omega
      rw [lookupName, hnone]
      rfl

/-- For every command `strfutexcmd` has a name exactly if `histogram-trace` does not
raise, and then it is the same name behind `FUTEX_`, with the same two flags.  The
numbers of the commands are read in each form in which they are written. -/
theorem main_names_as_histogram (cmds : List (BitVec 32 × NumberForm)) :
    main (cmds.map fun entry => entry.2.write entry.1.toNat) =
        cmds.flatMap (fun entry => line entry.1) ∧
      ∀ entry ∈ cmds,
        (strfutex (entry.1 &&& futexCmdMask) = "???" ∧
          stringifyFutex entry.1.toNat =
            .error (.keyError (entry.1 &&& futexCmdMask).toNat)) ∨
        (strfutex (entry.1 &&& futexCmdMask) ≠ "???" ∧
          stringifyFutex entry.1.toNat =
            .ok ("FUTEX_" ++ strfutex (entry.1 &&& futexCmdMask) ++ privateWords entry.1 ++
              if clockWords entry.1 = "" then "" else " (rt)")) := by
  constructor
  · rw [main, List.flatMap_map]
    congr 1
    funext entry
    rw [strtoul_write entry.1.isLt entry.2, BitVec.ofNat_toNat, BitVec.setWidth_eq]
  · intro entry _
    obtain ⟨cmd, _⟩ := entry
    have hpriv : (if Int.land cmd.toNat HistogramTrace.futexPrivateFlag ≠ 0 then
        " (private)" else "") = privateWords cmd := by
      rw [privateWords]
      exact if_congr (land_flag_ne_zero_iff cmd futexPrivateFlag) rfl rfl
    have hclock : (if Int.land cmd.toNat HistogramTrace.futexClockRealtime ≠ 0 then
        " (rt)" else "") = if clockWords cmd = "" then "" else " (rt)" := by
      have hiff : Int.land cmd.toNat HistogramTrace.futexClockRealtime ≠ 0 ↔
          cmd &&& futexClockRealtime ≠ 0 := land_flag_ne_zero_iff cmd futexClockRealtime
      rw [clockWords, if_congr hiff rfl rfl]
      by_cases hflag : cmd &&& futexClockRealtime ≠ 0
      · rw [if_pos hflag, if_pos hflag]
        rfl
      · rw [if_neg hflag, if_neg hflag]
        rfl
    simp only [stringifyFutex, land_cmdMask]
    rw [hpriv, hclock]
    rcases names_agree (cmd &&& futexCmdMask) with ⟨hunnamed, hlookup⟩ | ⟨hnamed, hlookup⟩
    · exact .inl ⟨hunnamed, by rw [hlookup]; rfl⟩
    · exact .inr ⟨hnamed, by rw [hlookup]; rfl⟩

example : main ["0x81".toList, "393".toList] =
    ("0x81 = WAKE (private)\n" ++ "0x189 = WAIT_BITSET (private) (clock_realtime)\n").toList := by
  decide +kernel

end RrWorkbench.Strfutexcmd
