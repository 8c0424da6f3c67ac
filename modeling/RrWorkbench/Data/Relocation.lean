import Mathlib.Algebra.BigOperators.Group.List.Basic
import Mathlib.Data.List.Chain
import Mathlib.Logic.Function.Basic
import Mathlib.Logic.Relation

namespace RrWorkbench.Data

/-! Moving a marked amount through a forest.  Every position carries an amount
and a mark.  A position that may be left hands its amount and its mark to all of
its children and is cleared afterwards; a position that may not be left keeps
what it has received. -/

abbrev Marks (E : Type u) (M : Type v) := E → M × Bool

namespace Relocation

variable {E : Type u} {M : Type v}

/-- `next e` is `none` when `e` has to be kept and lists the children of `e`
otherwise.  The amount of `e` is read again for every child. -/
def relocate [DecidableEq E] [AddCommMonoid M] (next : E → Option (List E)) :
    Nat → Marks E M → E → Option (Marks E M)
  | 0, _, _ => none
  | fuel + 1, marks, e =>
      match next e with
      | none => some marks
      | some children => do
          let moved ← children.foldlM
            (fun marks child =>
              relocate next fuel
                (Function.update marks child
                  ((marks child).1 + (marks e).1, true)) child)
            marks
          some (Function.update moved e (0, false))

def Child (next : E → Option (List E)) (e child : E) : Prop :=
  ∃ children, next e = some children ∧ child ∈ children

abbrev Below (next : E → Option (List E)) : E → E → Prop :=
  Relation.ReflTransGen (Child next)

structure Forest (next : E → Option (List E)) (height : E → Nat) : Prop where
  nodup : ∀ {e children}, next e = some children → children.Nodup
  parent_unique : ∀ {e e' child},
    Child next e child → Child next e' child → e = e'
  descend : ∀ {e child}, Child next e child → height child < height e

/-- `Carried next marks start amount f total`: an amount released at `start`
arrives at `f` having picked up what lay on the way, `total` altogether. -/
inductive Carried [AddCommMonoid M] (next : E → Option (List E)) (marks : Marks E M)
    (start : E) (amount : M) : E → M → Prop
  | start : Carried next marks start amount start amount
  | child {e child : E} {total : M}
      (before : Carried next marks start amount e total)
      (step : Child next e child) :
      Carried next marks start amount child ((marks child).1 + total)

def settled [AddCommMonoid M] (next : E → Option (List E)) (f : E)
    (total : M) : M × Bool :=
  if (next f).isNone then (total, true) else (0, false)

variable {next : E → Option (List E)} {height : E → Nat}

theorem Forest.height_le (forest : Forest next height) {e f : E}
    (below : Below next e f) : height f ≤ height e := by
  induction below with
  | refl => exact Nat.le_refl _
  | tail _ step ih => exact Nat.le_trans (Nat.le_of_lt (forest.descend step)) ih

theorem Forest.not_below_parent (forest : Forest next height) {e child : E}
    (step : Child next e child) : ¬ Below next child e := by
  intro below
  have hle := forest.height_le below
  have hlt := forest.descend step
  omega

theorem Forest.sibling_unique (forest : Forest next height)
    {e first second f : E}
    (hfirst : Child next e first) (hsecond : Child next e second)
    (belowFirst : Below next first f) (belowSecond : Below next second f) :
    first = second := by
  induction belowFirst with
  | refl =>
      rcases belowSecond.cases_tail with heq | ⟨parent, hparent, step⟩
      · exact heq
      · have : parent = e := forest.parent_unique step hfirst
        subst parent
        exact absurd hparent (forest.not_below_parent hsecond)
  | tail before step ih =>
      rcases belowSecond.cases_tail with heq | ⟨parent, hparent, step'⟩
      · subst heq
        have : _ = e := forest.parent_unique step hsecond
        subst this
        exact absurd before (forest.not_below_parent hfirst)
      · have := forest.parent_unique step step'
        subst this
        exact ih hparent

section

variable [AddCommMonoid M]

theorem Carried.reaches {marks : Marks E M} {start f : E} {amount total : M}
    (carried : Carried next marks start amount f total) :
    Below next start f := by
  induction carried with
  | start => exact Relation.ReflTransGen.refl
  | child before step ih => exact ih.tail step

theorem Carried.of_below (marks : Marks E M) {start f : E} (amount : M)
    (below : Below next start f) :
    ∃ total, Carried next marks start amount f total := by
  induction below with
  | refl => exact ⟨amount, .start⟩
  | tail _ step ih =>
      obtain ⟨total, carried⟩ := ih
      exact ⟨_, .child carried step⟩

theorem Carried.of_agree {marks marks' : Marks E M} {start f : E}
    {amount total : M} (forest : Forest next height)
    (agree : ∀ g, Below next start g → g ≠ start → marks' g = marks g)
    (carried : Carried next marks start amount f total) :
    Carried next marks' start amount f total := by
  induction carried with
  | start => exact .start
  | @child e child total before step ih =>
      have hne : child ≠ start := by
        intro heq
        subst heq
        exact forest.not_below_parent step before.reaches
      rw [← agree child (before.reaches.tail step) hne]
      exact .child ih step

theorem Carried.cases_head {marks : Marks E M} {start f : E}
    {amount total : M} (carried : Carried next marks start amount f total) :
    (f = start ∧ total = amount) ∨
      ∃ child, Child next start child ∧
        Carried next marks child ((marks child).1 + amount) f total := by
  induction carried with
  | start => exact .inl ⟨rfl, rfl⟩
  | @child e child total before step ih =>
      right
      rcases ih with ⟨rfl, rfl⟩ | ⟨first, hfirst, rest⟩
      · exact ⟨child, step, .start⟩
      · exact ⟨first, hfirst, .child rest step⟩

/-- The outcome of a relocation from `start`: every position below it ends
settled with what was carried there, and no other position changes. -/
structure Relocated (next : E → Option (List E)) (marks : Marks E M)
    (start : E) (amount : M) (moved : Marks E M) : Prop where
  settled : ∀ f total, Carried next marks start amount f total →
    moved f = settled next f total
  other : ∀ f, ¬ Below next start f → moved f = marks f

theorem Relocated.kept {marks moved : Marks E M} {start f : E} {amount : M}
    (relocated : Relocated next marks start amount moved)
    (below : Below next start f) (hnext : next f = none) :
    ∃ total, moved f = (total, true) := by
  obtain ⟨total, carried⟩ := Carried.of_below marks amount below
  refine ⟨total, ?_⟩
  rw [relocated.settled f total carried]
  simp [Relocation.settled, hnext]

theorem Relocated.cleared {marks moved : Marks E M} {start f : E} {amount : M}
    (relocated : Relocated next marks start amount moved)
    (below : Below next start f) (hnext : (next f).isSome) :
    moved f = (0, false) := by
  obtain ⟨total, carried⟩ := Carried.of_below marks amount below
  rw [relocated.settled f total carried]
  obtain ⟨children, hchildren⟩ := Option.isSome_iff_exists.mp hnext
  simp [Relocation.settled, hchildren]

section

variable [DecidableEq E]

private structure Progress (next : E → Option (List E)) (marks : Marks E M)
    (e : E) (amount : M) (done : List E) (current : Marks E M) : Prop where
  self : current e = (amount, true)
  reached : ∀ child ∈ done, ∀ f total,
    Carried next marks child ((marks child).1 + amount) f total →
      current f = settled next f total
  other : ∀ f, (∀ child ∈ done, ¬ Below next child f) → current f = marks f

/-- One iteration of the loop: `child` receives the amount and is settled. -/
private theorem Progress.step (forest : Forest next height)
    {marks current : Marks E M} {e child : E} {amount : M}
    {children done rest : List E} {fuel : Nat}
    (hnext : next e = some children)
    (hsplit : children = done ++ child :: rest)
    (progress : Progress next marks e amount done current)
    (recurse : ∀ marks : Marks E M,
      marks child = ((marks child).1, true) →
        ∃ moved, relocate next fuel marks child = some moved ∧
          Relocated next marks child (marks child).1 moved) :
    ∃ moved,
      relocate next fuel
          (Function.update current child
            ((current child).1 + (current e).1, true)) child = some moved ∧
        Progress next marks e amount (done ++ [child]) moved := by
  have childOf : ∀ child ∈ children, Child next e child :=
    fun child member => ⟨children, hnext, member⟩
  have hchild : Child next e child := childOf child (by rw [hsplit]; simp)
  have fresh : ∀ f, Below next child f →
      ∀ sibling ∈ done, ¬ Below next sibling f := by
    intro f below sibling hsibling belowSibling
    have siblingMember : sibling ∈ children := by
      rw [hsplit]
      exact List.mem_append_left _ hsibling
    have heq := forest.sibling_unique hchild
      (childOf sibling siblingMember) below belowSibling
    subst heq
    have hnodup := forest.nodup hnext
    rw [hsplit, List.nodup_append] at hnodup
    exact hnodup.2.2 child hsibling child (by simp) rfl
  have untouched : ∀ f, Below next child f → current f = marks f :=
    fun f below => progress.other f (fresh f below)
  have hne : e ≠ child := by
    intro heq
    have hlt := forest.descend hchild
    rw [heq] at hlt
    omega
  have hreceived : (current child).1 + (current e).1 =
      (marks child).1 + amount := by
    rw [untouched child Relation.ReflTransGen.refl, progress.self]
  obtain ⟨moved, hmoved, hsettled, hother⟩ := recurse
    (Function.update current child ((current child).1 + (current e).1, true))
    (by simp)
  simp only [Function.update_self, hreceived] at hmoved hsettled hother
  rw [hreceived]
  refine ⟨moved, hmoved, ?_, ?_, ?_⟩
  · rw [hother e (forest.not_below_parent hchild), Function.update_of_ne hne]
    exact progress.self
  · intro sibling hsibling f total carried
    rcases List.mem_append.mp hsibling with hold | hnew
    · have notBelow : ¬ Below next child f :=
        fun below => fresh f below sibling hold carried.reaches
      have hf : f ≠ child := by
        rintro rfl
        exact notBelow Relation.ReflTransGen.refl
      rw [hother f notBelow, Function.update_of_ne hf]
      exact progress.reached sibling hold f total carried
    · rw [List.mem_singleton] at hnew
      subst hnew
      apply hsettled
      apply carried.of_agree forest
      intro g below hg
      rw [Function.update_of_ne hg]
      exact untouched g below
  · intro f notBelow
    have hnot : ¬ Below next child f := notBelow child (by simp)
    have hf : f ≠ child := by
      rintro rfl
      exact hnot Relation.ReflTransGen.refl
    rw [hother f hnot, Function.update_of_ne hf]
    apply progress.other
    intro sibling hsibling
    exact notBelow sibling (List.mem_append_left _ hsibling)

private theorem Progress.loop (forest : Forest next height)
    {marks : Marks E M} {e : E} {amount : M} {children : List E} {fuel : Nat}
    (hnext : next e = some children)
    (recurse : ∀ child ∈ children, ∀ marks : Marks E M,
      marks child = ((marks child).1, true) →
        ∃ moved, relocate next fuel marks child = some moved ∧
          Relocated next marks child (marks child).1 moved) :
    ∀ (todo done : List E) (current : Marks E M),
      children = done ++ todo →
      Progress next marks e amount done current →
      ∃ final,
        todo.foldlM
            (fun marks child =>
              relocate next fuel
                (Function.update marks child
                  ((marks child).1 + (marks e).1, true)) child)
            current = some final ∧
          Progress next marks e amount children final
  | [], done, current, hsplit, progress => by
      rw [List.append_nil] at hsplit
      subst hsplit
      exact ⟨current, rfl, progress⟩
  | child :: rest, done, current, hsplit, progress => by
      obtain ⟨moved, hmoved, progress'⟩ :=
        progress.step forest hnext hsplit
          (recurse child (by rw [hsplit]; simp))
      obtain ⟨final, hfinal, hprogress⟩ :=
        Progress.loop forest hnext recurse rest (done ++ [child]) moved
          (by simp [hsplit]) progress'
      refine ⟨final, ?_, hprogress⟩
      simp only [List.foldlM_cons, hmoved]
      exact hfinal

theorem relocate_spec (forest : Forest next height)
    (fuel : Nat) (marks : Marks E M) (e : E) (amount : M)
    (hfuel : height e < fuel) (hmarks : marks e = (amount, true)) :
    ∃ moved, relocate next fuel marks e = some moved ∧
      Relocated next marks e amount moved := by
  induction fuel generalizing marks e amount with
  | zero => omega
  | succ fuel ih =>
      cases hnext : next e with
      | none =>
          refine ⟨marks, by simp [relocate, hnext], ?_, fun f _ => rfl⟩
          intro f total carried
          rcases carried.cases_head with ⟨rfl, rfl⟩ | ⟨child, ⟨_, hchild, _⟩, _⟩
          · simp [settled, hnext, hmarks]
          · rw [hnext] at hchild
            contradiction
      | some children =>
          have childOf : ∀ child ∈ children, Child next e child :=
            fun child member => ⟨children, hnext, member⟩
          obtain ⟨final, hfinal, progress⟩ := Progress.loop forest hnext
            (fun child member marks hmarks =>
              ih marks child _
                (by have := forest.descend (childOf child member); omega)
                hmarks)
            children [] marks rfl {
              self := hmarks
              reached := fun child member =>
                absurd member (List.not_mem_nil)
              other := fun f _ => rfl }
          refine ⟨Function.update final e (0, false), ?_, ?_, ?_⟩
          · simp only [relocate, hnext, hfinal]
            rfl
          · intro f total carried
            rcases carried.cases_head with ⟨rfl, rfl⟩ | ⟨child, hchild, rest⟩
            · simp [settled, hnext]
            · have hne : f ≠ e := by
                rintro rfl
                exact forest.not_below_parent hchild rest.reaches
              obtain ⟨children', hchildren, member⟩ := hchild
              rw [hnext] at hchildren
              cases hchildren
              rw [Function.update_of_ne hne]
              exact progress.reached child member f total rest
          · intro f notBelow
            have hne : f ≠ e := by
              rintro rfl
              exact notBelow Relation.ReflTransGen.refl
            rw [Function.update_of_ne hne]
            apply progress.other
            intro child member below
            exact notBelow (below.head (childOf child member))

end

/-! Reading the outcome along a line of positions that starts where the amount
is released. -/

/-- `h` is next after `g` on a line: it is a child of `g` if `g` may be left, and
it is a child of nothing else. -/
def Follows (next : E → Option (List E)) (g h : E) : Prop :=
  (∀ children, next g = some children → h ∈ children) ∧
    ∀ parent, Child next parent h → parent = g

private theorem not_below_of_follows {start g : E} :
    ∀ {line : List E},
      List.IsChain (Follows next) (g :: line) →
      ¬ (Below next start g ∧ (next g).isSome) →
      start ∉ line →
      ∀ f ∈ line, ¬ Below next start f
  | [], _, _, _, f, member => absurd member (List.not_mem_nil)
  | h :: rest, chain, stopped, fresh, f, member => by
      rw [List.isChain_cons_cons] at chain
      have notBelow : ¬ Below next start h := by
        intro below
        rcases below.cases_tail with heq | ⟨parent, hparent, step⟩
        · exact fresh (by simp [heq])
        · have heq := chain.1.2 parent step
          subst heq
          obtain ⟨children, hchildren, _⟩ := step
          exact stopped ⟨hparent, by simp [hchildren]⟩
      rcases List.mem_cons.mp member with rfl | hrest
      · exact notBelow
      · exact not_below_of_follows chain.2 (fun h => notBelow h.1)
          (fun hmem => fresh (List.mem_cons_of_mem _ hmem)) f hrest

/-- Along a line the amount is collected up to the first position that is kept;
before that position the line is cleared, after it nothing changes. -/
theorem Relocated.line {marks moved : Marks E M} {start : E} {amount : M}
    (relocated : Relocated next marks start amount moved) :
    ∀ {line : List E} {g : E} {total : M},
      Carried next marks start amount g total →
      (next g).isSome →
      List.IsChain (Follows next) (g :: line) →
      start ∉ line →
      (∃ f ∈ line, next f = none) →
      ∃ before f after,
        line = before ++ f :: after ∧
        next f = none ∧
        (∀ h ∈ before, (next h).isSome ∧ moved h = (0, false)) ∧
        moved f =
          (total + (before.map fun h => (marks h).1).sum + (marks f).1, true) ∧
        ∀ h ∈ after, moved h = marks h
  | [], g, total, _, _, _, _, ⟨f, member, _⟩ =>
      absurd member (List.not_mem_nil)
  | h :: rest, g, total, carried, hsome, chain, fresh, kept => by
      rw [List.isChain_cons_cons] at chain
      obtain ⟨children, hchildren⟩ := Option.isSome_iff_exists.mp hsome
      have step : Child next g h := ⟨children, hchildren, chain.1.1 _ hchildren⟩
      have carried' := Carried.child carried step
      have freshRest : start ∉ rest :=
        fun hmem => fresh (List.mem_cons_of_mem _ hmem)
      cases hnext : next h with
      | none =>
          refine ⟨[], h, rest, rfl, hnext, by simp, ?_, ?_⟩
          · rw [relocated.settled h _ carried']
            simp [Relocation.settled, hnext, add_comm]
          · intro f member
            exact relocated.other f
              (not_below_of_follows chain.2 (by simp [hnext]) freshRest f member)
      | some _ =>
          have hkept : ∃ f ∈ rest, next f = none := by
            obtain ⟨f, member, hf⟩ := kept
            rcases List.mem_cons.mp member with rfl | hrest
            · rw [hnext] at hf
              contradiction
            · exact ⟨f, hrest, hf⟩
          obtain ⟨before, f, after, hline, hf, hbefore, hmoved, hafter⟩ :=
            Relocated.line relocated carried' (by simp [hnext]) chain.2
              freshRest hkept
          refine ⟨h :: before, f, after, by simp [hline], hf, ?_, ?_, hafter⟩
          · intro k member
            rcases List.mem_cons.mp member with rfl | hbefore'
            · refine ⟨by simp [hnext], ?_⟩
              rw [relocated.settled _ _ carried']
              simp [Relocation.settled, hnext]
            · exact hbefore k hbefore'
          · rw [hmoved]
            simp [add_comm, add_left_comm, add_assoc]

end

end Relocation

end RrWorkbench.Data
