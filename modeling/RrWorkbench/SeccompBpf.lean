import Mathlib.Algebra.Group.Nat.Defs
import Mathlib.Algebra.GroupWithZero.Nat
import RrWorkbench.Bpf

namespace RrWorkbench.SeccompBpf

open RrWorkbench.Bpf

/-! `seccomp-bpf.h`: macros out of which the filters for system calls are put together,
in the 32-bit build.  Each macro stands for a few instructions with relative jumps; a
filter is the instructions of its macros, one behind the other. -/

def seccompRetKill : Word := 0x00000000

def seccompRetAllow : Word := 0x7fff0000

def seccompRetTrace : Word := 0x7ff00000

structure SeccompData where
  nr : BitVec 32
  arch : BitVec 32
  instructionPointer : BitVec 64
  args : Fin 6 → BitVec 64

namespace SeccompData

/-- The structure in memory, word by word; of a field of 64 bits the low word comes
first. -/
def words (d : SeccompData) : List Word :=
  [d.nr, d.arch] ++ (d.instructionPointer :: List.ofFn d.args).flatMap
    fun field : BitVec 64 => [field.setWidth 32, (field >>> 32).setWidth 32]

/-- What a filter can load: an aligned word of the structure. -/
def load (d : SeccompData) (offset : Word) : Option Word :=
  if offset.toNat % 4 = 0 then d.words[offset.toNat / 4]? else none

end SeccompData

/-! The offsets of the fields. -/

def syscallNr : Word := 0

def instPtr : Word := 8

def args (i : Fin 6) : Word := BitVec.ofNat 32 (16 + 8 * i)

theorem load_syscallNr (d : SeccompData) : d.load syscallNr = some d.nr := rfl

theorem load_instPtr (d : SeccompData) :
    d.load instPtr = some (d.instructionPointer.setWidth 32) := rfl

theorem load_args (d : SeccompData) (i : Fin 6) :
    d.load (args i) = some ((d.args i).setWidth 32) := by
  match i with
  | 0 | 1 | 2 | 3 | 4 | 5 => rfl

/-! The macros. -/

def examineSyscall : List SockFilter :=
  [bpfStmt (bpfLd + bpfW + bpfAbs) syscallNr]

/-- The three macros that end a filter, with what they return. -/
def returnProcess (action : Word) : List SockFilter :=
  [bpfStmt (bpfRet + bpfK) action]

def killProcess : List SockFilter := returnProcess seccompRetKill

def allowProcess : List SockFilter := returnProcess seccompRetAllow

def traceProcess : List SockFilter := returnProcess seccompRetTrace

def allowSyscallsFromCallsite (callsite : Word) : List SockFilter :=
  [bpfStmt (bpfLd + bpfW + bpfAbs) instPtr,
    bpfJump (bpfJmp + bpfJeq + bpfK) callsite 0 1] ++ allowProcess

/-- The three macros for one system call, with what they return for it. -/
def returnSyscall (action name : Word) : List SockFilter :=
  [bpfJump (bpfJmp + bpfJeq + bpfK) name 0 1,
    bpfStmt (bpfRet + bpfK) action]

def allowSyscall (name : Word) : List SockFilter := returnSyscall seccompRetAllow name

def killSyscall (name : Word) : List SockFilter := returnSyscall seccompRetKill name

def traceSyscall (name : Word) : List SockFilter := returnSyscall seccompRetTrace name

def nrSocketcall : Word := 102

def sysAccept : Word := 5

def sysRecv : Word := 10

def allowSocketcall : List SockFilter :=
  [bpfJump (bpfJmp + bpfJeq + bpfK) nrSocketcall 0 5,
    bpfStmt (bpfLd + bpfW + bpfAbs) (args 0),
    bpfJump (bpfJmp + bpfJeq + bpfK) sysRecv 2 0,
    bpfJump (bpfJmp + bpfJeq + bpfK) sysAccept 1 0,
    bpfStmt (bpfRet + bpfK) seccompRetAllow,
    bpfStmt (bpfRet + bpfK) seccompRetTrace]

inductive Rule
  | allowSyscall (name : Word)
  | killSyscall (name : Word)
  | traceSyscall (name : Word)
  | allowSocketcall
  deriving DecidableEq, Repr

def Rule.code : Rule → List SockFilter
  | .allowSyscall name => SeccompBpf.allowSyscall name
  | .killSyscall name => SeccompBpf.killSyscall name
  | .traceSyscall name => SeccompBpf.traceSyscall name
  | .allowSocketcall => SeccompBpf.allowSocketcall

inductive Final
  | allowProcess
  | killProcess
  | traceProcess
  deriving DecidableEq, Repr

def Final.code : Final → List SockFilter
  | .allowProcess => SeccompBpf.allowProcess
  | .killProcess => SeccompBpf.killProcess
  | .traceProcess => SeccompBpf.traceProcess

def filter (callsites : List Word) (rules : List Rule) (final : Final) : List SockFilter :=
  callsites.flatMap allowSyscallsFromCallsite ++ examineSyscall ++
    rules.flatMap Rule.code ++ final.code

/-! What a filter is for: the first rule that applies decides. -/

def Rule.verdict (d : SeccompData) : Rule → Option Word
  | .allowSyscall name => if d.nr = name then some seccompRetAllow else none
  | .killSyscall name => if d.nr = name then some seccompRetKill else none
  | .traceSyscall name => if d.nr = name then some seccompRetTrace else none
  | .allowSocketcall =>
      if d.nr = nrSocketcall then
        some (if (d.args 0).setWidth 32 = sysRecv ∨ (d.args 0).setWidth 32 = sysAccept then
          seccompRetTrace else seccompRetAllow)
      else none

def Final.verdict : Final → Word
  | .allowProcess => seccompRetAllow
  | .killProcess => seccompRetKill
  | .traceProcess => seccompRetTrace

def firstMatch (callsites : List Word) (rules : List Rule) (final : Final)
    (d : SeccompData) : Word :=
  if d.instructionPointer ∈ callsites.map (BitVec.setWidth 64) then seccompRetAllow
  else (rules.findSome? (Rule.verdict d)).getD final.verdict

/-! Every macro decides as it should, wherever it stands.  From `EXAMINE_SYSCALL` on the
accumulator has the number of the system call. -/

section Macros

variable {d : SeccompData}

theorem decides_returnSyscall (action name : Word) :
    Decides d.load (· = d.nr) (returnSyscall action name)
      (if d.nr = name then some action else none) (· = d.nr) :=
  decides_jumpOver rfl fun _ => decides_ret _ _ _ action

theorem decides_operation (operation : Word) (post : Word → Prop) :
    Decides d.load (· = operation)
      [bpfJump (bpfJmp + bpfJeq + bpfK) sysRecv 2 0,
        bpfJump (bpfJmp + bpfJeq + bpfK) sysAccept 1 0,
        bpfStmt (bpfRet + bpfK) seccompRetAllow,
        bpfStmt (bpfRet + bpfK) seccompRetTrace]
      (some (if operation = sysRecv ∨ operation = sysAccept then
        seccompRetTrace else seccompRetAllow)) post := by
  rintro acc rfl rest
  simp only [List.cons_append, List.nil_append]
  rw [eval_jumpIfEq (decode_jumpIfEq sysRecv 2 0)]
  by_cases hrecv : acc = sysRecv
  · rw [if_pos hrecv, if_pos (.inl hrecv), eval_skip]
    exact eval_ret (decode_ret _)
  · have hfalls : (0 : BitVec 8).toNat = 0 := rfl
    rw [if_neg hrecv, hfalls, eval_jumpIfEq (decode_jumpIfEq sysAccept 1 0)]
    by_cases haccept : acc = sysAccept
    · rw [if_pos haccept, if_pos (.inr haccept), eval_skip]
      exact eval_ret (decode_ret _)
    · rw [if_neg haccept, hfalls, if_neg (not_or.mpr ⟨hrecv, haccept⟩)]
      exact eval_ret (decode_ret _)

theorem decides_allowSocketcall :
    Decides d.load (· = d.nr) allowSocketcall (Rule.verdict d .allowSocketcall) (· = d.nr) :=
  decides_jumpOver rfl fun _ =>
    (decides_load (load_args d 0) _).append (decides_operation _ _)

theorem decides_rule (rule : Rule) :
    Decides d.load (· = d.nr) rule.code (rule.verdict d) (· = d.nr) := by
  cases rule with
  | allowSyscall name => exact decides_returnSyscall seccompRetAllow name
  | killSyscall name => exact decides_returnSyscall seccompRetKill name
  | traceSyscall name => exact decides_returnSyscall seccompRetTrace name
  | allowSocketcall => exact decides_allowSocketcall

theorem decides_final (final : Final) (pre post : Word → Prop) :
    Decides d.load pre final.code (some final.verdict) post := by
  cases final with
  | allowProcess => exact decides_ret _ _ _ seccompRetAllow
  | killProcess => exact decides_ret _ _ _ seccompRetKill
  | traceProcess => exact decides_ret _ _ _ seccompRetTrace

theorem decides_callsite (callsite : Word) :
    Decides d.load (fun _ => True) (allowSyscallsFromCallsite callsite)
      (if d.instructionPointer.setWidth 32 = callsite then some seccompRetAllow else none)
      (fun _ => True) := by
  have hjump : Decides d.load (· = d.instructionPointer.setWidth 32)
      (bpfJump (bpfJmp + bpfJeq + bpfK) callsite 0 1 :: allowProcess)
      (if d.instructionPointer.setWidth 32 = callsite then some seccompRetAllow else none)
      (· = d.instructionPointer.setWidth 32) :=
    decides_jumpOver rfl fun _ => decides_ret _ _ _ seccompRetAllow
  exact ((decides_load (load_instPtr d) _).append hjump).weaken fun _ _ => trivial

theorem findSome?_callsites (ip : Word) (action : Word) (callsites : List Word) :
    callsites.findSome? (fun callsite => if ip = callsite then some action else none) =
      if ip ∈ callsites then some action else none := by
  induction callsites with
  | nil => rfl
  | cons callsite rest ih =>
      rw [List.findSome?_cons, ih]
      by_cases hip : ip = callsite
      · simp [hip]
      · simp [hip]

end Macros

/-- With 32 bits the low word tells the instruction pointer. -/
theorem mem_callsites_iff {ip : BitVec 64} (hip : ip.toNat < 2 ^ 32) (callsites : List Word) :
    ip.setWidth 32 ∈ callsites ↔ ip ∈ callsites.map (BitVec.setWidth 64) := by
  have hwide : ∀ callsite : Word, ip.setWidth 32 = callsite ↔ callsite.setWidth 64 = ip := by
    intro callsite
    rw [← BitVec.toNat_inj, ← BitVec.toNat_inj, BitVec.toNat_setWidth, BitVec.toNat_setWidth]
    have hlt := callsite.isLt
    omega
  rw [List.mem_map]
  constructor
  · intro hmem
    exact ⟨_, hmem, (hwide _).mp rfl⟩
  · rintro ⟨callsite, hmem, hcallsite⟩
    rw [(hwide callsite).mpr hcallsite]
    exact hmem

theorem decides_filter (callsites : List Word) (rules : List Rule) (final : Final)
    {d : SeccompData} (hip : d.instructionPointer.toNat < 2 ^ 32) :
    Decides d.load (fun _ => True) (filter callsites rules final)
      (some (firstMatch callsites rules final d)) (fun _ => True) := by
  have hcallsites := Decides.flatMap callsites fun callsite _ =>
    decides_callsite (d := d) callsite
  have hrules := Decides.flatMap rules fun rule _ => decides_rule (d := d) rule
  have hfilter := ((hcallsites.append (decides_load (load_syscallNr d) _)).append
    hrules).append (decides_final final (· = d.nr) fun _ => True)
  have hverdict : (((if d.instructionPointer.setWidth 32 ∈ callsites then
      some seccompRetAllow else none).or none).or (rules.findSome? (Rule.verdict d))).or
        (some final.verdict) = some (firstMatch callsites rules final d) := by
    have hiff := mem_callsites_iff hip callsites
    rw [firstMatch]
    by_cases hmem : d.instructionPointer.setWidth 32 ∈ callsites
    · rw [if_pos hmem, if_pos (hiff.mp hmem)]
      rfl
    · rw [if_neg hmem, if_neg (mt hiff.mpr hmem)]
      cases rules.findSome? (Rule.verdict d) <;> rfl
  rw [findSome?_callsites, hverdict] at hfilter
  exact hfilter

/-- A filter returns what the first rule that applies says: no jump of a macro leads
into another rule or past the end. -/
theorem filter_returns_firstMatch (callsites : List Word) (rules : List Rule)
    (final : Final) (d : SeccompData) (hip : d.instructionPointer.toNat < 2 ^ 32)
    {fuel : Nat} (hfuel : (filter callsites rules final).length < fuel) :
    run (filter callsites rules final) d.load fuel ⟨0, 0⟩ =
      some (.returned (firstMatch callsites rules final d)) :=
  (decides_filter callsites rules final hip).run_returns trivial hfuel

def acceptCall : SeccompData where
  nr := nrSocketcall
  arch := 0x40000003
  instructionPointer := 0x08048000
  args i := if i = 0 then 5 else 0

theorem filter_returns_firstMatch_acceptCall :
    acceptCall.instructionPointer.toNat < 2 ^ 32 ∧
      (filter [0x70000010, 0x70000020] [.killSyscall 1, .allowSocketcall, .allowSyscall 102]
        .killProcess).length < 30 ∧
      run (filter [0x70000010, 0x70000020] [.killSyscall 1, .allowSocketcall,
        .allowSyscall 102] .killProcess) acceptCall.load 30 ⟨0, 0⟩ =
        some (.returned seccompRetTrace) :=
  ⟨by decide, by decide,
    (filter_returns_firstMatch [0x70000010, 0x70000020]
      [.killSyscall 1, .allowSocketcall, .allowSyscall 102] .killProcess acceptCall
      (by decide) (by decide)).trans (by decide)⟩

/-! Installing a filter.  `prog.len` is an `unsigned short`, and the kernel takes that
many instructions, checks them, and only then lets the filter decide. -/

def bpfMaxinsns : Nat := 4096

def loadable (offset : Word) : Bool :=
  decide (offset.toNat % 4 = 0) && decide (offset.toNat < 64)

def installFilter (filter : List SockFilter) : Option (List SockFilter) :=
  let prog := filter.take (filter.length % 2 ^ 16)
  if accepts loadable bpfMaxinsns prog then some prog else none

/-! Every macro passes the check, wherever another instruction follows it. -/

theorem check_callsite (callsite : Word) :
    check loadable 1 (allowSyscallsFromCallsite callsite) = true := rfl

theorem check_rule (rule : Rule) : check loadable 1 rule.code = true := by
  cases rule <;> rfl

theorem check_final (final : Final) : check loadable 0 final.code = true := by
  cases final <;> rfl

theorem length_final (final : Final) : final.code.length = 1 := by
  cases final <;> rfl

theorem check_filter (callsites : List Word) (rules : List Rule) (final : Final) :
    check loadable 0 (filter callsites rules final) = true := by
  have hcallsites := check_flatMap callsites fun callsite _ => check_callsite callsite
  have hrules := check_flatMap rules fun rule _ => check_rule rule
  have hfinal := length_final final
  rw [filter, check_append, check_append, check_append, check_final, Bool.and_true,
    Bool.and_eq_true, Bool.and_eq_true]
  exact ⟨⟨check_mono (by omega) hcallsites, rfl⟩, check_mono (by omega) hrules⟩

theorem getLast?_filter (callsites : List Word) (rules : List Rule) (final : Final) :
    (filter callsites rules final).getLast?.any SockFilter.isRet = true := by
  rw [filter, List.getLast?_append]
  cases final <;> rfl

def Rule.size : Rule → Nat
  | .allowSocketcall => 6
  | _ => 2

theorem length_rule (rule : Rule) : rule.code.length = rule.size := by
  cases rule <;> rfl

theorem length_filter (callsites : List Word) (rules : List Rule) (final : Final) :
    (filter callsites rules final).length =
      3 * callsites.length + (rules.map Rule.size).sum + 2 := by
  have hcallsites :
      (callsites.flatMap allowSyscallsFromCallsite).length = 3 * callsites.length := by
    induction callsites with
    | nil => rfl
    | cons callsite rest ih =>
        have hcallsite : (allowSyscallsFromCallsite callsite).length = 3 := rfl
        rw [List.flatMap_cons, List.length_append, ih, hcallsite, List.length_cons]
        omega
  have hrules : (rules.flatMap Rule.code).length = (rules.map Rule.size).sum := by
    rw [List.length_flatMap]
    exact congrArg List.sum (List.map_congr_left fun rule _ => length_rule rule)
  have hexamine : examineSyscall.length = 1 := rfl
  rw [filter, List.length_append, List.length_append, List.length_append, hcallsites,
    hrules, hexamine, length_final]
  omega

theorem installFilter_filter (callsites : List Word) (rules : List Rule) (final : Final)
    (hlen : (filter callsites rules final).length < 2 ^ 16) :
    installFilter (filter callsites rules final) =
      if (filter callsites rules final).length ≤ bpfMaxinsns then
        some (filter callsites rules final) else none := by
  rw [installFilter, Nat.mod_eq_of_lt hlen, List.take_length, accepts, check_filter,
    getLast?_filter, Bool.and_true, Bool.and_true]
  simp only [decide_eq_true_eq]

/-- A filter of macros whose length fits `prog.len` is installed unless it is too long,
and once installed it decides every system call by the first rule that applies. -/
theorem filter_installed_decides (callsites : List Word) (rules : List Rule)
    (final : Final)
    (hlen : 3 * callsites.length + (rules.map Rule.size).sum + 2 < 2 ^ 16) :
    ((installFilter (filter callsites rules final)).isSome = true ↔
        3 * callsites.length + (rules.map Rule.size).sum + 2 ≤ bpfMaxinsns) ∧
      ∀ installed, installFilter (filter callsites rules final) = some installed →
        ∀ d : SeccompData, d.instructionPointer.toNat < 2 ^ 32 →
          run installed d.load (installed.length + 1) ⟨0, 0⟩ =
            some (.returned (firstMatch callsites rules final d)) := by
  rw [← length_filter callsites rules final] at hlen ⊢
  rw [installFilter_filter callsites rules final hlen]
  by_cases hmax : (filter callsites rules final).length ≤ bpfMaxinsns
  · rw [if_pos hmax]
    refine ⟨⟨fun _ => hmax, fun _ => rfl⟩, ?_⟩
    rintro _ ⟨⟩ d hip
    exact (decides_filter callsites rules final hip).run_returns trivial
      (Nat.lt_succ_self _)
  · rw [if_neg hmax]
    refine ⟨⟨fun h => absurd h Bool.false_ne_true, fun h => absurd h hmax⟩, ?_⟩
    intro installed h
    contradiction

theorem filter_installed_decides_acceptCall :
    3 * [(0x70000010 : Word)].length + ([Rule.allowSocketcall].map Rule.size).sum + 2 <
        2 ^ 16 ∧
      run (filter [0x70000010] [.allowSocketcall] .killProcess) acceptCall.load 12 ⟨0, 0⟩ =
        some (.returned seccompRetTrace) :=
  ⟨by decide,
    ((filter_installed_decides [0x70000010] [.allowSocketcall] .killProcess
      (by decide)).2 _ rfl acceptCall (by decide)).trans (by decide)⟩

end RrWorkbench.SeccompBpf
