import Mathlib.Data.List.Induction

namespace RrWorkbench.Data

/-! Runs of a system that takes one labelled step after the other.  A step that is not
possible has no result. -/

def run {S : Type u} {E : Type v} (step : S → E → Option S) : S → List E → Option S
  | s, [] => some s
  | s, e :: rest => (step s e).bind fun next => run step next rest

def Along {S : Type u} {E : Type v} (step : S → E → Option S)
    (allowed : S → E → Prop) : S → List E → Prop
  | _, [] => True
  | s, e :: rest =>
      allowed s e ∧ ∀ next, step s e = some next → Along step allowed next rest

instance Along.decidable {S : Type u} {E : Type v} (step : S → E → Option S)
    (allowed : S → E → Prop) [∀ s e, Decidable (allowed s e)] :
    ∀ (events : List E) (s : S), Decidable (Along step allowed s events)
  | [], _ => .isTrue True.intro
  | e :: rest, s =>
      match h : step s e with
      | none => decidable_of_iff (allowed s e)
          ⟨fun hallowed => ⟨hallowed, fun _ hnext => nomatch h.symm.trans hnext⟩,
            And.left⟩
      | some next =>
          have := Along.decidable step allowed rest next
          decidable_of_iff (allowed s e ∧ Along step allowed next rest)
            ⟨fun along => ⟨along.1, fun _ hnext =>
                Option.some.inj (h.symm.trans hnext) ▸ along.2⟩,
              fun along => ⟨along.1, along.2 next h⟩⟩

section Run

variable {S : Type u} {E : Type v} {step : S → E → Option S}
  {allowed : S → E → Prop} {s s' : S} {e : E} {events rest : List E}

theorem run_cons :
    run step s (e :: rest) = some s' ↔
      ∃ next, step s e = some next ∧ run step next rest = some s' :=
  Option.bind_eq_some_iff

theorem run_append :
    run step s (events ++ rest) = some s' ↔
      ∃ middle, run step s events = some middle ∧ run step middle rest = some s' := by
  induction events generalizing s with
  | nil => simp [run]
  | cons e events ih =>
      rw [List.cons_append, run_cons]
      constructor
      · rintro ⟨next, hnext, hrest⟩
        obtain ⟨middle, hmiddle, hrest⟩ := ih.mp hrest
        exact ⟨middle, run_cons.mpr ⟨next, hnext, hmiddle⟩, hrest⟩
      · rintro ⟨middle, hmiddle, hrest⟩
        obtain ⟨next, hnext, hmiddle⟩ := run_cons.mp hmiddle
        exact ⟨next, hnext, ih.mpr ⟨middle, hmiddle, hrest⟩⟩

theorem run_concat :
    run step s (events ++ [e]) = some s' ↔
      ∃ middle, run step s events = some middle ∧ step middle e = some s' := by
  rw [run_append]
  simp [run]

theorem Along.append (along : Along step allowed s (events ++ rest)) :
    Along step allowed s events ∧
      ∀ middle, run step s events = some middle → Along step allowed middle rest := by
  induction events generalizing s with
  | nil =>
      refine ⟨trivial, fun middle hmiddle => ?_⟩
      cases hmiddle
      exact along
  | cons e events ih =>
      obtain ⟨hallowed, hnext⟩ := along
      refine ⟨⟨hallowed, fun next hstep => (ih (hnext next hstep)).1⟩, ?_⟩
      intro middle hmiddle
      obtain ⟨next, hstep, hrun⟩ := run_cons.mp hmiddle
      exact (ih (hnext next hstep)).2 middle hrun

/-- What holds at the start and is kept by every admitted step holds after every run
of such steps. -/
theorem Along.invariant {P : List E → S → Prop}
    (along : Along step allowed s events) (hrun : run step s events = some s')
    (start : P [] s)
    (keep : ∀ before middle e next, run step s before = some middle →
      P before middle → allowed middle e → step middle e = some next →
      P (before ++ [e]) next) :
    P events s' := by
  induction events using List.reverseRecOn generalizing s' with
  | nil =>
      cases hrun
      exact start
  | append_singleton before e ih =>
      obtain ⟨middle, hmiddle, hstep⟩ := run_concat.mp hrun
      obtain ⟨hbefore, hlast⟩ := along.append
      exact keep before middle e s' hmiddle (ih hbefore hmiddle)
        (hlast middle hmiddle).1 hstep

theorem Along.trivial : ∀ (events : List E) (s : S),
    Along step (fun _ _ => True) s events
  | [], _ => True.intro
  | _ :: rest, _ => ⟨True.intro, fun next _ => Along.trivial rest next⟩

theorem run_invariant {P : List E → S → Prop} (hrun : run step s events = some s')
    (start : P [] s)
    (keep : ∀ before middle e next, run step s before = some middle →
      P before middle → step middle e = some next → P (before ++ [e]) next) :
    P events s' :=
  (Along.trivial events s).invariant hrun start
    fun before middle e next hbefore hP _ hstep =>
      keep before middle e next hbefore hP hstep

end Run

/-! Systems whose runs all end. -/

def Settled {S : Type u} {E : Type v} (step : S → E → Option S) (s : S) : Prop :=
  ∀ e, step s e = none

/-- No run from `s` goes on for ever, and one that cannot be continued is in a state
of `Q`. -/
def Ends {S : Type u} {E : Type v} (step : S → E → Option S) (Q : S → Prop) (s : S) :
    Prop :=
  Acc (fun next s => ∃ e, step s e = some next) s ∧
    ∀ events final, run step s events = some final → Settled step final → Q final

section Ends

variable {S : Type u} {E : Type v} {step : S → E → Option S} {Q : S → Prop} {s next : S}
  {e : E}

end Ends

end RrWorkbench.Data
