import RrWorkbench.PathLogging.LlvmFunction

namespace RrWorkbench.PathLogging

/-! Execution of an instrumented function: what the inserted instructions compute
and which path numbers they pass to `llvm_increment_path_count`. -/

structure Env where
  phi : BlockId → BitVec 32
  add : Nat → BitVec 32

namespace Value

def eval (env : Env) : Value → BitVec 32
  | .const value => value
  | .phi block => env.phi block
  | .add inst => env.add inst

end Value

def execInsts (env : Env) : List Inst → Env × List (BitVec 32)
  | [] => (env, [])
  | .add inst lhs rhs :: rest =>
      execInsts
        { env with add := Function.update env.add inst (lhs.eval env + rhs) } rest
  | .incrementPathCount path :: rest =>
      let result := execInsts env rest
      (result.1, path.eval env :: result.2)

namespace LlvmFunction

/-- Control goes from block `source` to block `target`: the PHI of `target` takes
the value for `source`; `none` if it has none. -/
def enterBlock (F : LlvmFunction) (env : Env) (source target : BlockId) :
    Option Env :=
  match (F.block target).pathPHI with
  | none => some env
  | some entries =>
      (Incoming.lookup entries source).map fun value =>
        { env with phi := Function.update env.phi target (value.eval env) }

/-- The path numbers logged from `block` on.  `choices` are the numbers of the
successors that control takes at the blocks below `original`; the other blocks,
which have been put on an edge, are left by their only successor.  The result is
`none` if the choices do not lead to the end of the function. -/
def run (F : LlvmFunction) (original : Nat) :
    Nat → BlockId → Env → List Nat → Option (List (BitVec 32))
  | 0, _, _, _ => none
  | fuel + 1, block, env, choices =>
      let body := F.block block
      let (env, log) := execInsts env (body.front ++ body.back)
      if body.terminator.leavesFunction then
        if choices = [] then some log else none
      else
        match if block < original then choices else 0 :: choices with
        | [] => none
        | succNum :: choices => do
            let next ← body.successors[succNum]?
            let env ← F.enterBlock env block next
            let rest ← F.run original fuel next env choices
            some (log ++ rest)

theorem run_mono (F : LlvmFunction) (original : Nat) {fuel fuel' : Nat}
    (hfuel : fuel ≤ fuel') {block : BlockId} {env : Env} {choices : List Nat}
    {log : List (BitVec 32)} (hrun : F.run original fuel block env choices = some log) :
    F.run original fuel' block env choices = some log := by
  induction fuel generalizing fuel' block env choices log with
  | zero => contradiction
  | succ fuel ih =>
      obtain ⟨fuel', rfl⟩ := Nat.exists_eq_add_one_of_ne_zero
        (Nat.ne_zero_of_lt hfuel)
      rw [run] at hrun ⊢
      dsimp only at hrun ⊢
      split
      · rwa [if_pos ‹_›] at hrun
      · rw [if_neg ‹_›] at hrun
        split at hrun
        · contradiction
        · obtain ⟨next, hnext, hrun⟩ := Option.bind_eq_some_iff.mp hrun
          obtain ⟨entered, hentered, hrun⟩ := Option.bind_eq_some_iff.mp hrun
          obtain ⟨rest, hrest, hlog⟩ := Option.bind_eq_some_iff.mp hrun
          have hrest' := ih (Nat.le_of_succ_le_succ hfuel) hrest
          simp only [hnext, hentered, hrest', Option.bind_eq_bind, Option.bind_some]
          exact hlog

/-- A walk from block `b` to the end of the function, over edges for which `allowed`
holds, given by the numbers of the successors it takes. -/
def WalkOver (F : LlvmFunction) (allowed : BlockId → BlockId → Prop) :
    BlockId → List Nat → Prop
  | b, [] => (F.block b).terminator.leavesFunction = true
  | b, succNum :: choices =>
      (F.block b).terminator.leavesFunction = false ∧
        ∃ next, (F.successors b)[succNum]? = some next ∧ allowed b next ∧
          F.WalkOver allowed next choices

def IsWalk (F : LlvmFunction) : BlockId → List Nat → Prop :=
  F.WalkOver fun _ _ => True

/-- Not a critical edge that LLVM refuses to split. -/
def Instrumentable (F : LlvmFunction) (source target : BlockId) : Prop :=
  F.isCriticalEdge source target →
    (F.block source).terminator ≠ .indirectbr ∧
      (F.block target).isLandingPad = false

theorem WalkOver.mono {F : LlvmFunction} {allowed allowed' : BlockId → BlockId → Prop}
    (h : ∀ source target, target ∈ F.successors source → allowed source target →
      allowed' source target) :
    ∀ {b : BlockId} {choices : List Nat}, F.WalkOver allowed b choices →
      F.WalkOver allowed' b choices
  | _, [], walk => walk
  | _, _ :: _, ⟨hstays, next, hnext, hallowed, walk⟩ =>
      ⟨hstays, next, hnext, h _ _ (List.mem_of_getElem? hnext) hallowed, walk.mono h⟩

instance WalkOver.decidable (F : LlvmFunction) (allowed : BlockId → BlockId → Prop)
    [∀ source target, Decidable (allowed source target)] :
    ∀ (b : BlockId) (choices : List Nat), Decidable (F.WalkOver allowed b choices)
  | _, [] => inferInstanceAs (Decidable (_ = _))
  | b, succNum :: choices =>
      match h : (F.successors b)[succNum]? with
      | none => .isFalse fun walk => by
          obtain ⟨_, _, hnext, _⟩ := walk
          rw [h] at hnext
          contradiction
      | some next =>
          have := WalkOver.decidable F allowed next choices
          decidable_of_iff ((F.block b).terminator.leavesFunction = false ∧
              allowed b next ∧ F.WalkOver allowed next choices) (by
            constructor
            · rintro ⟨hstays, hallowed, walk⟩
              exact ⟨hstays, next, h, hallowed, walk⟩
            · rintro ⟨hstays, next', hnext, hallowed, walk⟩
              obtain rfl : next = next' := Option.some.inj (h.symm.trans hnext)
              exact ⟨hstays, hallowed, walk⟩)

instance IsWalk.decidable (F : LlvmFunction) (b : BlockId) (choices : List Nat) :
    Decidable (F.IsWalk b choices) :=
  WalkOver.decidable F (fun _ _ => True) b choices

end LlvmFunction

theorem execInsts_append (env : Env) (first second : List Inst) :
    execInsts env (first ++ second) =
      ((execInsts (execInsts env first).1 second).1,
        (execInsts env first).2 ++ (execInsts (execInsts env first).1 second).2) := by
  induction first generalizing env with
  | nil => rfl
  | cons inst rest ih =>
      cases inst with
      | add inst lhs rhs => exact ih _
      | incrementPathCount path =>
          simp only [List.cons_append, execInsts, ih]

end RrWorkbench.PathLogging
