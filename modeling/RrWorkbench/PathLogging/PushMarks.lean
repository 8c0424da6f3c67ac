import RrWorkbench.Data.Relocation
import RrWorkbench.PathLogging.Dag
import Mathlib.Algebra.Ring.Int.Defs
import Mathlib.Data.Finset.Lattice.Fold
import Mathlib.Order.Lattice.Nat
import Mathlib.Tactic.Ring

namespace RrWorkbench.PathLogging

open RrWorkbench.Data
open RrWorkbench.Data.Relocation

/-! `pushInitialization` and `pushCounters`.  The recursions of the source have no
bound of their own, so the model gives them fuel; `none` is a recursion that did
not come to an end. -/

namespace Dag

def pushInitializationFromEdge : Nat → Dag → EdgeId → Option Dag
  | 0, _, _ => none
  | fuel + 1, D, e =>
      let target := D.target e
      if 1 < D.getNumberPredEdges target ∨ target = D.exit then
        some D
      else do
        let pushed ← (D.succEdges target).foldlM
          (fun D intoEdge =>
            -- Skip split edges
            if D.type intoEdge = .splitedge then some D
            else
              pushInitializationFromEdge fuel
                (D.modifyEdge intoEdge fun edge =>
                  { edge with
                    increment := edge.increment + D.increment e
                    isInitialization := true })
                intoEdge)
          D
        some (pushed.modifyEdge e fun edge =>
          { edge with increment := 0, isInitialization := false })

def pushCountersFromEdge : Nat → Dag → EdgeId → Option Dag
  | 0, _, _ => none
  | fuel + 1, D, e =>
      let source := D.source e
      if 1 < D.getNumberSuccEdges source ∨ source = D.root ∨
          (D.edge e).isInitialization = true then
        some D
      else do
        let pushed ← (D.predEdges source).foldlM
          (fun D fromEdge =>
            -- Skip split edges
            if D.type fromEdge = .splitedge then some D
            else
              pushCountersFromEdge fuel
                (D.modifyEdge fromEdge fun edge =>
                  { edge with
                    increment := edge.increment + D.increment e
                    isCounterIncrement := true })
                fromEdge)
          D
        some (pushed.modifyEdge e fun edge =>
          { edge with increment := 0, isCounterIncrement := false })

def pushInitialization (fuel : Nat) (D : Dag) : Option Dag := do
  let exitRootEdge ← D.getExitRootEdge
  pushInitializationFromEdge fuel
    (D.modifyEdge exitRootEdge fun edge =>
      { edge with isInitialization := true })
    exitRootEdge

def pushCounters (fuel : Nat) (D : Dag) : Option Dag := do
  let exitRootEdge ← D.getExitRootEdge
  pushCountersFromEdge fuel
    (D.modifyEdge exitRootEdge fun edge =>
      { edge with isCounterIncrement := true })
    exitRootEdge

/-! Both recursions are relocations of a mark together with an increment.  They differ in
the mark, in the edges at which they stop and in the edges with which they go on. -/

def putMarks (put : Int × Bool → Edge → Edge) (D : Dag) (marks : Marks EdgeId Int) :
    Dag :=
  { D with edge := fun e => put (marks e) (D.edge e) }

def next (D : Dag) (stops : EdgeId → Prop) [DecidablePred stops]
    (neighbours : EdgeId → List EdgeId) (e : EdgeId) : Option (List EdgeId) :=
  if D.numEdges ≤ e ∨ stops e then none
  else some ((neighbours e).filter (D.type · ≠ .splitedge))

def initializationMarks (D : Dag) : Marks EdgeId Int :=
  fun e => (D.increment e, (D.edge e).isInitialization)

def putInitialization (mark : Int × Bool) (edge : Edge) : Edge :=
  { edge with increment := mark.1, isInitialization := mark.2 }

def withInitializationMarks (D : Dag) (marks : Marks EdgeId Int) : Dag :=
  D.putMarks putInitialization marks

def counterMarks (D : Dag) : Marks EdgeId Int :=
  fun e => (D.increment e, (D.edge e).isCounterIncrement)

def putCounter (mark : Int × Bool) (edge : Edge) : Edge :=
  { edge with increment := mark.1, isCounterIncrement := mark.2 }

def withCounterMarks (D : Dag) (marks : Marks EdgeId Int) : Dag :=
  D.putMarks putCounter marks

def nextInitialization (D : Dag) : EdgeId → Option (List EdgeId) :=
  D.next
    (fun e => 1 < D.getNumberPredEdges (D.target e) ∨ D.target e = D.exit)
    (fun e => D.succEdges (D.target e))

def nextCounter (D : Dag) : EdgeId → Option (List EdgeId) :=
  D.next
    (fun e => 1 < D.getNumberSuccEdges (D.source e) ∨ D.source e = D.root ∨
      (D.edge e).isInitialization = true)
    (fun e => D.predEdges (D.source e))

structure PutsMark (put : Int × Bool → Edge → Edge) : Prop where
  overwrite : ∀ mark mark' edge, put mark' (put mark edge) = put mark' edge
  increment : ∀ mark edge, (put mark edge).increment = mark.1
  type : ∀ mark edge, (put mark edge).type = edge.type

theorem putsMark_putInitialization : PutsMark putInitialization :=
  ⟨fun _ _ _ => rfl, fun _ _ => rfl, fun _ _ => rfl⟩

theorem putsMark_putCounter : PutsMark putCounter :=
  ⟨fun _ _ _ => rfl, fun _ _ => rfl, fun _ _ => rfl⟩

theorem PutsMark.putMarks_update {put : Int × Bool → Edge → Edge} (puts : PutsMark put)
    (D : Dag) (marks : Marks EdgeId Int) (e : EdgeId) (mark : Int × Bool) :
    D.putMarks put (Function.update marks e mark) =
      (D.putMarks put marks).modifyEdge e (put mark) := by
  simp only [putMarks, modifyEdge]
  congr 1
  funext f
  by_cases hf : f = e
  · subst hf
    simp [puts.overwrite]
  · simp [Function.update_of_ne hf]

end Dag

/-- A loop body that mirrors another through `view` gives a loop that does. -/
theorem foldlM_view {m : Type → Type} [Monad m] [LawfulMonad m] {α β γ : Type}
    (view : α → β) (step : α → γ → m α) (mirror : β → γ → m β) :
    ∀ (items : List γ),
      (∀ item ∈ items, ∀ a, mirror (view a) item = view <$> step a item) →
      ∀ a, items.foldlM mirror (view a) = view <$> items.foldlM step a
  | [], _, a => by
      rw [List.foldlM_nil, List.foldlM_nil, map_pure]
  | item :: rest, agree, a => by
      rw [List.foldlM_cons, List.foldlM_cons, agree item (by simp), bind_map_left,
        map_bind]
      refine bind_congr fun next => ?_
      exact foldlM_view view step mirror rest
        (fun item member => agree item (by simp [member])) next

theorem bind_view {α β : Type} (view : α → β) (after : α → α) (mirror : β → β)
    (agree : ∀ a, mirror (view a) = view (after a)) (result : Option α) :
    (result.map view >>= fun b => some (mirror b)) =
      (result >>= fun a => some (after a)).map view := by
  cases result with
  | none => rfl
  | some a => exact congrArg some (agree a)

namespace Dag

section Next

variable {D : Dag} {stops : EdgeId → Prop} [DecidablePred stops]
  {neighbours : EdgeId → List EdgeId}

theorem next_isSome_iff {e : EdgeId} :
    (D.next stops neighbours e).isSome ↔ e < D.numEdges ∧ ¬ stops e := by
  by_cases hstop : D.numEdges ≤ e ∨ stops e
  · simp only [next, if_pos hstop, Option.isSome_none, Bool.false_eq_true, false_iff]
    rintro ⟨hlt, hgoes⟩
    exact hstop.elim (Nat.not_le.mpr hlt) hgoes
  · simp only [next, if_neg hstop, Option.isSome_some, true_iff]
    obtain ⟨hlt, hgoes⟩ := not_or.mp hstop
    exact ⟨Nat.not_le.mp hlt, hgoes⟩

theorem next_eq_some {e : EdgeId} (hsome : (D.next stops neighbours e).isSome) :
    D.next stops neighbours e =
      some ((neighbours e).filter (D.type · ≠ .splitedge)) := by
  obtain ⟨hlt, hgoes⟩ := next_isSome_iff.mp hsome
  exact if_neg (not_or.mpr ⟨Nat.not_le.mpr hlt, hgoes⟩)

theorem child_next_iff {e child : EdgeId} :
    Child (D.next stops neighbours) e child ↔
      (D.next stops neighbours e).isSome ∧ child ∈ neighbours e ∧
        D.type child ≠ .splitedge := by
  constructor
  · rintro ⟨children, hnext, member⟩
    have hsome : (D.next stops neighbours e).isSome := by simp [hnext]
    rw [next_eq_some hsome] at hnext
    cases hnext
    exact ⟨hsome, by simpa using member⟩
  · rintro ⟨hsome, member⟩
    exact ⟨_, next_eq_some hsome, by simpa using member⟩

theorem follows_next {g h : EdgeId} (member : h ∈ neighbours g)
    (hsplit : D.type h ≠ .splitedge)
    (unique : ∀ parent, (D.next stops neighbours parent).isSome →
      h ∈ neighbours parent → parent = g) :
    Follows (D.next stops neighbours) g h := by
  constructor
  · intro children hnext
    rw [next_eq_some (by simp [hnext])] at hnext
    cases hnext
    simpa using ⟨member, hsplit⟩
  · intro parent hparent
    obtain ⟨hsome, hmem, _⟩ := child_next_iff.mp hparent
    exact unique parent hsome hmem

theorem next_forest (weight : EdgeId → Nat) (nodup : ∀ e, (neighbours e).Nodup)
    (unique : ∀ {e e' f}, (D.next stops neighbours e).isSome →
      (D.next stops neighbours e').isSome → f ∈ neighbours e → f ∈ neighbours e' → e = e')
    (falls : ∀ {e f}, (D.next stops neighbours e).isSome →
      (D.next stops neighbours f).isSome → f ∈ neighbours e → weight f < weight e) :
    Forest (D.next stops neighbours) fun e =>
      if (D.next stops neighbours e).isSome then weight e + 1 else 0 := by
  constructor
  · intro e children hnext
    rw [next_eq_some (by simp [hnext])] at hnext
    cases hnext
    exact (nodup e).filter _
  · intro e e' child hchild hchild'
    obtain ⟨hsome, member, _⟩ := child_next_iff.mp hchild
    obtain ⟨hsome', member', _⟩ := child_next_iff.mp hchild'
    exact unique hsome hsome' member member'
  · intro e child hchild
    obtain ⟨hsome, member, _⟩ := child_next_iff.mp hchild
    simp only [hsome, if_true]
    split
    · rename_i hsome'
      exact Nat.succ_lt_succ (falls hsome hsome' member)
    · exact Nat.succ_pos _

end Next

/-- `push` hands the mark and the increment of an edge to its neighbours and goes on with
them, up to the edges at which it stops. -/
structure PushesMark (push : Nat → Dag → EdgeId → Option Dag)
    (put : Int × Bool → Edge → Edge) (D : Dag) (stops : EdgeId → Prop)
    [DecidablePred stops] (neighbours : EdgeId → List EdgeId) : Prop where
  puts : PutsMark put
  neighbours_lt : ∀ e f, f ∈ neighbours e → f < D.numEdges
  zero : ∀ marks e, push 0 (D.putMarks put marks) e = none
  stop : ∀ fuel marks e, stops e →
    push (fuel + 1) (D.putMarks put marks) e = some (D.putMarks put marks)
  go : ∀ fuel marks e, ¬ stops e →
    push (fuel + 1) (D.putMarks put marks) e = do
      let pushed ← (neighbours e).foldlM
        (fun D f =>
          if D.type f = .splitedge then some D
          else
            push fuel
              (D.modifyEdge f fun edge => put (edge.increment + D.increment e, true) edge)
              f)
        (D.putMarks put marks)
      some (pushed.modifyEdge e (put (0, false)))

namespace PushesMark

variable {push : Nat → Dag → EdgeId → Option Dag} {put : Int × Bool → Edge → Edge}
  {D : Dag} {stops : EdgeId → Prop} [DecidablePred stops]
  {neighbours : EdgeId → List EdgeId}

theorem eq_relocate (pushes : PushesMark push put D stops neighbours) (fuel : Nat)
    (marks : Marks EdgeId Int) (e : EdgeId) (he : e < D.numEdges) :
    push fuel (D.putMarks put marks) e =
      (relocate (D.next stops neighbours) fuel marks e).map (D.putMarks put) := by
  induction fuel generalizing marks e with
  | zero => exact pushes.zero marks e
  | succ fuel ih =>
      by_cases stop : stops e
      · have hnext : D.next stops neighbours e = none := if_pos (.inr stop)
        rw [relocate, hnext, pushes.stop fuel marks e stop]
        rfl
      · rw [relocate, next_eq_some (next_isSome_iff.mpr ⟨he, stop⟩),
          pushes.go fuel marks e stop]
        dsimp only
        rw [List.foldlM_filter]
        refine Eq.trans ?_ (bind_view (D.putMarks put) _
          (fun pushed => pushed.modifyEdge e (put (0, false)))
          (fun moved => (pushes.puts.putMarks_update D moved e (0, false)).symm) _)
        refine congrArg (· >>= _) (foldlM_view (D.putMarks put) _ _ _ ?_ marks)
        intro child member marks
        have htype : (D.putMarks put marks).type child = D.type child :=
          pushes.puts.type _ _
        have hincrement (f : EdgeId) : (D.putMarks put marks).increment f = (marks f).1 :=
          pushes.puts.increment _ _
        by_cases hsplit : D.type child = .splitedge
        · rw [if_pos (htype.trans hsplit), if_neg (by simp [hsplit])]
          rfl
        · rw [if_neg (fun h => hsplit (htype.symm.trans h)), if_pos (by simp [hsplit]),
            Option.map_eq_map, ← ih _ child (pushes.neighbours_lt _ _ member),
            pushes.puts.putMarks_update, hincrement e, ← hincrement child]
          rfl

theorem relocated (pushes : PushesMark push put D stops neighbours)
    {height : EdgeId → Nat} (forest : Forest (D.next stops neighbours) height)
    (marks : Marks EdgeId Int) (hmarks : D.putMarks put marks = D) {e : EdgeId}
    (he : e < D.numEdges) {fuel : Nat} (hfuel : height e < fuel) :
    ∃ moved,
      push fuel (D.modifyEdge e (put ((marks e).1, true))) e =
        some (D.putMarks put moved) ∧
      Relocated (D.next stops neighbours)
        (Function.update marks e ((marks e).1, true)) e (marks e).1 moved := by
  obtain ⟨moved, hmoved, relocated⟩ := relocate_spec forest fuel
    (Function.update marks e ((marks e).1, true)) e (marks e).1 hfuel (by simp)
  refine ⟨moved, ?_, relocated⟩
  have hstart := pushes.puts.putMarks_update D marks e ((marks e).1, true)
  rw [hmarks] at hstart
  rw [← hstart, pushes.eq_relocate fuel _ e he, hmoved]
  rfl

end PushesMark

theorem pushesMark_initialization (D : Dag)
    (succ_lt : ∀ x e, e ∈ D.succEdges x → e < D.numEdges) :
    PushesMark pushInitializationFromEdge putInitialization D
      (fun e => 1 < D.getNumberPredEdges (D.target e) ∨ D.target e = D.exit)
      (fun e => D.succEdges (D.target e)) where
  puts := putsMark_putInitialization
  neighbours_lt _ := succ_lt _
  zero _ _ := rfl
  stop _ _ _ stop := if_pos stop
  go _ _ _ stop := if_neg stop

theorem pushesMark_counter (D : Dag)
    (pred_lt : ∀ x e, e ∈ D.predEdges x → e < D.numEdges) :
    PushesMark pushCountersFromEdge putCounter D
      (fun e => 1 < D.getNumberSuccEdges (D.source e) ∨ D.source e = D.root ∨
        (D.edge e).isInitialization = true)
      (fun e => D.predEdges (D.source e)) where
  puts := putsMark_putCounter
  neighbours_lt _ := pred_lt _
  zero _ _ := rfl
  stop _ _ _ stop := if_pos stop
  go _ _ _ stop := if_neg stop

/-! In a Ball-Larus DAG both recursions run over a forest. -/

variable {D : Dag}

theorem nextInitialization_isSome_iff {e : EdgeId} :
    (D.nextInitialization e).isSome ↔
      e < D.numEdges ∧ ¬ 1 < D.getNumberPredEdges (D.target e) ∧
        D.target e ≠ D.exit := by
  rw [nextInitialization, next_isSome_iff, not_or]

theorem child_nextInitialization_iff {e child : EdgeId} :
    Child D.nextInitialization e child ↔
      (D.nextInitialization e).isSome ∧ child ∈ D.succEdges (D.target e) ∧
        D.type child ≠ .splitedge :=
  child_next_iff

theorem nextCounter_isSome_iff {e : EdgeId} :
    (D.nextCounter e).isSome ↔
      e < D.numEdges ∧ ¬ 1 < D.getNumberSuccEdges (D.source e) ∧
        D.source e ≠ D.root ∧ (D.edge e).isInitialization = false := by
  rw [nextCounter, next_isSome_iff, not_or, not_or, Bool.not_eq_true]

theorem child_nextCounter_iff {e child : EdgeId} :
    Child D.nextCounter e child ↔
      (D.nextCounter e).isSome ∧ child ∈ D.predEdges (D.source e) ∧
        D.type child ≠ .splitedge :=
  child_next_iff

theorem isCut_eq_false_of_nextInitialization (shape : D.BallLarus) {e : EdgeId}
    (hsome : (D.nextInitialization e).isSome) : (D.type e).isCut = false := by
  obtain ⟨he, hpred, _⟩ := nextInitialization_isSome_iff.mp hsome
  by_contra hcut
  exact hpred (shape.two_le_pred_of_cut he (Bool.not_eq_false _ ▸ hcut))

theorem isCut_eq_false_of_nextCounter (shape : D.BallLarus) {e : EdgeId}
    (hsome : (D.nextCounter e).isSome) : (D.type e).isCut = false := by
  obtain ⟨he, hsucc, _⟩ := nextCounter_isSome_iff.mp hsome
  by_contra hcut
  exact hsucc (shape.two_le_succ_of_cut he (Bool.not_eq_false _ ▸ hcut))

theorem BallLarus.initialization_parent_unique (shape : D.BallLarus) {e e' f : EdgeId}
    (hsome : (D.nextInitialization e).isSome) (he' : e' < D.numEdges)
    (member : f ∈ D.succEdges (D.target e)) (meet : D.target e' = D.source f) :
    e = e' := by
  obtain ⟨he, hpred, _⟩ := nextInitialization_isSome_iff.mp hsome
  have hsource := ((shape.mem_succEdges _ _).mp member).2
  exact shape.pred_unique hpred he he' rfl (meet.trans hsource)

theorem BallLarus.counter_parent_unique (shape : D.BallLarus) {e e' f : EdgeId}
    (hsome : (D.nextCounter e).isSome) (he' : e' < D.numEdges)
    (member : f ∈ D.predEdges (D.source e)) (meet : D.source e' = D.target f) :
    e = e' := by
  obtain ⟨he, hsucc, _⟩ := nextCounter_isSome_iff.mp hsome
  have htarget := ((shape.mem_predEdges _ _).mp member).2
  exact shape.succ_unique hsucc he he' rfl (meet.trans htarget)

/-- Initialization moves down over nodes with one predecessor: the rank of the
node it passes falls, and a back edge is never passed. -/
theorem BallLarus.initializationForest (shape : D.BallLarus) :
    ∃ height, Forest D.nextInitialization height := by
  obtain ⟨rank, hrank⟩ := shape.acyclic
  refine ⟨_, next_forest (fun e => rank (D.target e))
    (fun e => shape.nodup_succEdges _) ?_ ?_⟩
  · intro e e' f hsome hsome' member member'
    exact shape.initialization_parent_unique hsome
      (nextInitialization_isSome_iff.mp hsome').1 member
      ((shape.mem_succEdges _ _).mp member').2.symm
  · intro e f hsome hsome' member
    obtain ⟨_, _, hexit⟩ := nextInitialization_isSome_iff.mp hsome
    obtain ⟨hlt, hsource⟩ := (shape.mem_succEdges _ _).mp member
    have hdag : D.IsDagEdge f :=
      ⟨hlt, isCut_eq_false_of_nextInitialization shape hsome',
        by rw [hsource]; exact hexit⟩
    have hlower := hrank f hdag
    rwa [hsource] at hlower

/-- Counters move up over nodes with one successor; the rank rises, up to the
largest rank of the DAG. -/
theorem BallLarus.counterForest (shape : D.BallLarus) {rank : NodeId → Nat}
    (hrank : ∀ e, D.IsDagEdge e → rank (D.target e) < rank (D.source e)) :
    ∃ height, Forest D.nextCounter height ∧
      ∀ e, height e ≤ (Finset.range D.numNodes).sup rank + 1 := by
  obtain ⟨exitRoot, hexitRoot⟩ := shape.exists_exitRootEdge
  let top := (Finset.range D.numNodes).sup rank
  refine ⟨_, next_forest (fun e => top - rank (D.source e))
    (fun e => shape.nodup_predEdges _) ?_ ?_, fun e => by split <;> omega⟩
  · intro e e' f hsome hsome' member member'
    exact shape.counter_parent_unique hsome (nextCounter_isSome_iff.mp hsome').1 member
      ((shape.mem_predEdges _ _).mp member').2.symm
  · intro e f hsome hsome' member
    obtain ⟨_, _, hroot, _⟩ := nextCounter_isSome_iff.mp hsome
    obtain ⟨hlt, htarget⟩ := (shape.mem_predEdges _ _).mp member
    have hexit : D.source f ≠ D.exit := by
      intro hsource
      have heq := hexitRoot.of_source f hlt hsource
      subst heq
      exact hroot (htarget.symm.trans hexitRoot.target)
    have hlower := hrank f ⟨hlt, isCut_eq_false_of_nextCounter shape hsome', hexit⟩
    rw [htarget] at hlower
    have hupper : rank (D.source f) ≤ top :=
      Finset.le_sup (Finset.mem_range.mpr (shape.source_lt f hlt))
    omega

theorem BallLarus.withInitializationMarks (shape : D.BallLarus)
    (marks : Marks EdgeId Int) : (D.withInitializationMarks marks).BallLarus where
  root_lt := shape.root_lt
  exit_lt := shape.exit_lt
  root_ne_exit := shape.root_ne_exit
  source_lt := shape.source_lt
  target_lt := shape.target_lt
  mem_succEdges := shape.mem_succEdges
  mem_predEdges := shape.mem_predEdges
  nodup_succEdges := shape.nodup_succEdges
  nodup_predEdges := shape.nodup_predEdges
  exitRoot := shape.exitRoot
  cut_target := shape.cut_target
  phonyRoot := shape.phonyRoot
  phonyExit := shape.phonyExit
  phony_target := shape.phony_target
  no_callPhony := shape.no_callPhony
  acyclic := shape.acyclic
  from_root := shape.from_root
  to_exit := shape.to_exit
  backedge_loop := shape.backedge_loop
  numberOfPaths_pos := shape.numberOfPaths_pos

theorem IsExitRootEdge.withInitializationMarks {e : EdgeId}
    (exitRoot : D.IsExitRootEdge e) (marks : Marks EdgeId Int) :
    (D.withInitializationMarks marks).IsExitRootEdge e where
  lt := exitRoot.lt
  head := exitRoot.head
  source := exitRoot.source
  target := exitRoot.target
  normal := exitRoot.normal
  of_source := exitRoot.of_source
  of_target := exitRoot.of_target

theorem BallLarus.pushInitialization_relocated (shape : D.BallLarus)
    {e : EdgeId} (exitRoot : D.IsExitRootEdge e) :
    ∃ bound, ∀ fuel, bound ≤ fuel → ∃ moved,
      D.pushInitialization fuel = some (D.withInitializationMarks moved) ∧
        Relocated D.nextInitialization
          (Function.update D.initializationMarks e (D.increment e, true))
          e (D.increment e) moved := by
  obtain ⟨height, forest⟩ := shape.initializationForest
  refine ⟨height e + 1, fun fuel hfuel => ?_⟩
  rw [pushInitialization, exitRoot.head]
  exact (D.pushesMark_initialization
    fun x e member => ((shape.mem_succEdges x e).mp member).1).relocated forest
      D.initializationMarks rfl exitRoot.lt hfuel

theorem BallLarus.pushCounters_relocated (shape : D.BallLarus)
    {e : EdgeId} (exitRoot : D.IsExitRootEdge e) {rank : NodeId → Nat}
    (hrank : ∀ e, D.IsDagEdge e → rank (D.target e) < rank (D.source e))
    {fuel : Nat} (hfuel : (Finset.range D.numNodes).sup rank + 1 < fuel) :
    ∃ moved, D.pushCounters fuel = some (D.withCounterMarks moved) ∧
      Relocated D.nextCounter
        (Function.update D.counterMarks e (D.increment e, true))
        e (D.increment e) moved := by
  obtain ⟨height, forest, hheight⟩ := shape.counterForest hrank
  rw [pushCounters, exitRoot.head]
  exact (D.pushesMark_counter
    fun x e member => ((shape.mem_predEdges x e).mp member).1).relocated forest
      D.counterMarks rfl exitRoot.lt (Nat.lt_of_le_of_lt (hheight e) hfuel)

/-! The marks along a path. -/

theorem follows_nextInitialization (shape : D.BallLarus) {g h : EdgeId}
    (hg : g < D.numEdges) (hh : D.IsDagEdge h)
    (meet : D.target g = D.source h) : Follows D.nextInitialization g h :=
  follows_next ((shape.mem_succEdges _ _).mpr ⟨hh.1, meet.symm⟩) hh.ne_splitedge
    fun _ hsome member => shape.initialization_parent_unique hsome hg member meet

theorem follows_nextCounter (shape : D.BallLarus) {g h : EdgeId}
    (hg : g < D.numEdges) (hh : D.IsDagEdge h)
    (meet : D.target h = D.source g) : Follows D.nextCounter g h :=
  follows_next ((shape.mem_predEdges _ _).mpr ⟨hh.1, meet⟩) hh.ne_splitedge
    fun _ hsome member => shape.counter_parent_unique hsome hg member meet.symm

theorem RootExitPath.ne_nil (shape : D.BallLarus) {path : List EdgeId}
    (hpath : D.RootExitPath path) : path ≠ [] := by
  rintro rfl
  exact shape.root_ne_exit (EdgePath.nil_iff.mp hpath)

theorem RootExitPath.exitRoot_notMem {path : List EdgeId} {e : EdgeId}
    (exitRoot : D.IsExitRootEdge e) (hpath : D.RootExitPath path) :
    e ∉ path :=
  fun member => (hpath.allowed_of_mem e member).2.2 exitRoot.source

theorem RootExitPath.chain_initialization (shape : D.BallLarus)
    {path : List EdgeId} {e : EdgeId} (exitRoot : D.IsExitRootEdge e)
    (hpath : D.RootExitPath path) :
    List.IsChain (Follows D.nextInitialization) (e :: path) := by
  cases path with
  | nil => exact .singleton e
  | cons f rest =>
      obtain ⟨hf, hsource, _⟩ := EdgePath.cons_iff.mp hpath
      refine List.isChain_cons_cons.mpr
        ⟨follows_nextInitialization shape exitRoot.lt hf ?_, ?_⟩
      · rw [exitRoot.target, hsource]
      · refine (hpath.isChain).imp fun g h hstep => ?_
        exact follows_nextInitialization shape hstep.2.1.1 hstep.2.2 hstep.1

theorem RootExitPath.chain_counter (shape : D.BallLarus)
    {path : List EdgeId} {e : EdgeId} (exitRoot : D.IsExitRootEdge e)
    (hpath : D.RootExitPath path) :
    List.IsChain (Follows D.nextCounter) (e :: path.reverse) := by
  have hne := RootExitPath.ne_nil shape hpath
  have hlast := hpath.target_getLast hne
  have dagEdge := hpath.allowed_of_mem
  have backwards : List.IsChain (Follows D.nextCounter) path.reverse := by
    rw [List.isChain_reverse]
    refine (hpath.isChain).imp fun g h hstep => ?_
    exact follows_nextCounter shape hstep.2.2.1 hstep.2.1 hstep.1
  obtain ⟨last, rest, hreverse⟩ := List.exists_cons_of_ne_nil
    (List.reverse_ne_nil_iff.mpr hne)
  have hlastEq : path.getLast hne = last := by
    rw [List.getLast_eq_head_reverse]
    simp [hreverse]
  rw [hreverse] at backwards ⊢
  rw [List.isChain_cons_cons]
  refine ⟨follows_nextCounter shape exitRoot.lt (dagEdge last ?_) ?_, backwards⟩
  · rw [← hlastEq]
    exact List.getLast_mem hne
  · rw [← hlastEq, hlast, exitRoot.source]

theorem update_of_mem_path {path : List EdgeId} {e : EdgeId}
    (fresh : e ∉ path) (marks : Marks EdgeId Int) (mark : Int × Bool) :
    ∀ f ∈ path, Function.update marks e mark f = marks f := by
  intro f member
  apply Function.update_of_ne
  rintro rfl
  exact fresh member

theorem BallLarus.nextInitialization_exitRoot (shape : D.BallLarus)
    {e : EdgeId} (exitRoot : D.IsExitRootEdge e) :
    (D.nextInitialization e).isSome := by
  rw [nextInitialization_isSome_iff, exitRoot.target]
  refine ⟨exitRoot.lt, ?_, shape.root_ne_exit⟩
  obtain ⟨_, _, hpred, _⟩ := shape.exitRoot
  simp [getNumberPredEdges, hpred]

theorem BallLarus.nextCounter_exitRoot (shape : D.BallLarus)
    {e : EdgeId} (exitRoot : D.IsExitRootEdge e)
    (notInitialization : (D.edge e).isInitialization = false) :
    (D.nextCounter e).isSome := by
  rw [nextCounter_isSome_iff, exitRoot.source]
  refine ⟨exitRoot.lt, ?_, shape.root_ne_exit.symm, notInitialization⟩
  obtain ⟨_, hsucc, _, _⟩ := shape.exitRoot
  simp [getNumberSuccEdges, hsucc]

/-- After `pushInitialization`, on a path: nothing up to the initialization edge,
there everything collected so far, and the old increments behind it. -/
theorem RootExitPath.initialization (shape : D.BallLarus)
    {path : List EdgeId} {e : EdgeId} {moved : Marks EdgeId Int}
    (exitRoot : D.IsExitRootEdge e) (hpath : D.RootExitPath path)
    (relocated : Relocated D.nextInitialization
      (Function.update D.initializationMarks e (D.increment e, true))
      e (D.increment e) moved) :
    ∃ before first after, path = before ++ first :: after ∧
      (∀ f ∈ before, moved f = (0, false)) ∧
      moved first =
        (D.increment e + (before.map D.increment).sum + D.increment first,
          true) ∧
      ∀ f ∈ after, moved f = D.initializationMarks f := by
  have fresh := RootExitPath.exitRoot_notMem exitRoot hpath
  have hne := RootExitPath.ne_nil shape hpath
  have hstart := shape.nextInitialization_exitRoot exitRoot
  have hkept : ∃ f ∈ path, D.nextInitialization f = none := by
    refine ⟨path.getLast hne, List.getLast_mem hne, ?_⟩
    rw [← Option.not_isSome_iff_eq_none, nextInitialization_isSome_iff]
    exact fun h => h.2.2 (hpath.target_getLast hne)
  obtain ⟨before, first, after, hsplit, _, hbefore, hfirst, hafter⟩ :=
    relocated.line .start hstart
      (RootExitPath.chain_initialization shape exitRoot hpath) fresh hkept
  have old := update_of_mem_path fresh D.initializationMarks
    (D.increment e, true)
  refine ⟨before, first, after, hsplit, fun f hf => (hbefore f hf).2, ?_, ?_⟩
  · rw [hfirst, old first (by simp [hsplit]),
      List.map_congr_left fun f hf => congrArg Prod.fst
        (old f (by simp [hsplit, hf]))]
    rfl
  · intro f hf
    rw [hafter f hf, old f (by simp [hsplit, hf])]

/-- After `pushCounters`, on a path: the old increments up to the counter edge,
there everything from its own increment on, and nothing behind it. -/
theorem RootExitPath.counter (shape : D.BallLarus)
    {path : List EdgeId} {e : EdgeId} {moved : Marks EdgeId Int}
    (exitRoot : D.IsExitRootEdge e) (hpath : D.RootExitPath path)
    (notInitialization : (D.edge e).isInitialization = false)
    (relocated : Relocated D.nextCounter
      (Function.update D.counterMarks e (D.increment e, true))
      e (D.increment e) moved) :
    ∃ before last after, path = before ++ last :: after ∧
      (∀ f ∈ before, moved f = D.counterMarks f) ∧
      moved last =
        (D.increment e + (after.map D.increment).sum + D.increment last,
          true) ∧
      ∀ f ∈ after,
        moved f = (0, false) ∧ (D.edge f).isInitialization = false := by
  have fresh := RootExitPath.exitRoot_notMem exitRoot hpath
  have hne := RootExitPath.ne_nil shape hpath
  have hstart := shape.nextCounter_exitRoot exitRoot notInitialization
  have hkept : ∃ f ∈ path.reverse, D.nextCounter f = none := by
    obtain ⟨first, rest, rfl⟩ := List.exists_cons_of_ne_nil hne
    obtain ⟨_, hsource, _⟩ := EdgePath.cons_iff.mp hpath
    refine ⟨first, by simp, ?_⟩
    rw [← Option.not_isSome_iff_eq_none, nextCounter_isSome_iff]
    exact fun h => h.2.2.1 hsource
  have freshReverse : e ∉ path.reverse := by simpa using fresh
  obtain ⟨after, last, before, hsplit, _, hafter, hlast, hbefore⟩ :=
    relocated.line .start hstart
      (RootExitPath.chain_counter shape exitRoot hpath) freshReverse hkept
  have old := update_of_mem_path freshReverse D.counterMarks
    (D.increment e, true)
  have hpathEq : path = before.reverse ++ last :: after.reverse := by
    rw [← List.reverse_reverse path, hsplit]
    simp
  refine ⟨before.reverse, last, after.reverse, hpathEq, ?_, ?_, ?_⟩
  · intro f hf
    rw [List.mem_reverse] at hf
    rw [hbefore f hf, old f (by simp [hsplit, hf])]
  · rw [hlast, old last (by simp [hsplit]),
      List.map_congr_left fun f hf => congrArg Prod.fst
        (old f (by simp [hsplit, hf])),
      List.map_reverse, List.sum_reverse]
    rfl
  · intro f hf
    rw [List.mem_reverse] at hf
    obtain ⟨hsome, hmoved⟩ := hafter f hf
    exact ⟨hmoved, (nextCounter_isSome_iff.mp hsome).2.2.2⟩

structure Unmarked (D : Dag) : Prop where
  isInitialization : ∀ f, f < D.numEdges →
    (D.edge f).isInitialization = false
  isCounterIncrement : ∀ f, f < D.numEdges →
    (D.edge f).isCounterIncrement = false

/-- What the marks and increments of `D'` do on a path of `D`. -/
structure MarkedPath (D D' : Dag) (exitRoot : EdgeId) (path : List EdgeId)
    (before middle after : List EdgeId) (first last : EdgeId) : Prop where
  split : path = before ++ middle ++ after
  head : middle.head? = some first
  getLast : middle.getLast? = some last
  initialization :
    path.filter (fun e => (D'.edge e).isInitialization) = [first]
  counter : path.filter (fun e => (D'.edge e).isCounterIncrement) = [last]
  before_zero : ∀ e ∈ before, D'.increment e = 0
  after_zero : ∀ e ∈ after, D'.increment e = 0
  sum : (middle.map D'.increment).sum =
    D.increment exitRoot + (path.map D.increment).sum

theorem filter_eq_singleton {α : Type} (p : α → Bool) {before after : List α}
    {item : α} (hbefore : ∀ a ∈ before, p a = false) (hitem : p item = true)
    (hafter : ∀ a ∈ after, p a = false) :
    (before ++ item :: after).filter p = [item] := by
  have hnil : ∀ {items : List α}, (∀ a ∈ items, p a = false) →
      items.filter p = [] := by
    intro items hitems
    simpa [List.filter_eq_nil_iff] using hitems
  rw [List.filter_append, List.filter_cons_of_pos hitem, hnil hbefore,
    hnil hafter, List.nil_append]

theorem split_between {path before after before' after' : List EdgeId}
    {first last : EdgeId} (hfirst : path = before ++ first :: after)
    (hlast : path = before' ++ last :: after') (hnot : first ∉ after') :
    ∃ between, before' = before ++ between ∧
      first :: after = between ++ last :: after' := by
  rcases List.append_eq_append_iff.mp (hfirst.symm.trans hlast) with
    ⟨between, hbefore, hrest⟩ | ⟨between, hbefore, hrest⟩
  · exact ⟨between, hbefore, hrest⟩
  · cases between with
    | nil => exact ⟨[], by simpa using hbefore.symm, hrest.symm⟩
    | cons head tail =>
        have hmem : first ∈ after' := by
          rw [(List.cons.inj hrest).2]
          simp
        exact absurd hmem hnot

/-- The initialization edge has the increments up to it, the counter edge those behind
it: the edges from one to the other have the increments of the path. -/
theorem sum_between {increments initialized counted : EdgeId → Int} {start rest : Int}
    {before between after after' : List EdgeId} {first last : EdgeId}
    (hrest : first :: after = between ++ last :: after')
    (hfirst : initialized first =
      start + (before.map increments).sum + increments first)
    (hafter : ∀ f ∈ after, initialized f = increments f)
    (hbetween : ∀ f ∈ between, counted f = initialized f)
    (hlast : counted last = rest + (after'.map initialized).sum + initialized last)
    (hzero : rest = 0) :
    ((between ++ [last]).map counted).sum =
      start + ((before ++ first :: after).map increments).sum := by
  have hcollected : initialized first + (after.map initialized).sum =
      (between.map initialized).sum +
        (initialized last + (after'.map initialized).sum) := by
    simpa using congrArg (fun items => (items.map initialized).sum) hrest
  calc
    ((between ++ [last]).map counted).sum
        = (between.map initialized).sum + counted last := by
      rw [List.map_append, List.sum_append, List.map_congr_left hbetween,
        List.map_singleton, List.sum_singleton]
    _ = initialized first + (after.map initialized).sum := by
      rw [hcollected, hlast, hzero]
      ring
    _ = start + ((before ++ first :: after).map increments).sum := by
      rw [hfirst, List.map_congr_left hafter, List.map_append, List.sum_append,
        List.map_cons, List.sum_cons]
      ring

theorem RootExitPath.marked (shape : D.BallLarus)
    {path : List EdgeId} {e : EdgeId} {init counter : Marks EdgeId Int}
    (exitRoot : D.IsExitRootEdge e) (hpath : D.RootExitPath path)
    (unmarked : D.Unmarked)
    (initialized : Relocated D.nextInitialization
      (Function.update D.initializationMarks e (D.increment e, true))
      e (D.increment e) init)
    (counted : Relocated (D.withInitializationMarks init).nextCounter
      (Function.update (D.withInitializationMarks init).counterMarks e
        ((init e).1, true)) e (init e).1 counter)
    (cleared : init e = (0, false)) :
    ∃ before middle after first last,
      MarkedPath D ((D.withInitializationMarks init).withCounterMarks counter)
        e path before middle after first last := by
  obtain ⟨before, first, after, hfirst, hbefore, hinit, hafter⟩ :=
    RootExitPath.initialization shape exitRoot hpath initialized
  obtain ⟨before', last, after', hlast, hbefore', hcounter, hafter'⟩ :=
    RootExitPath.counter (shape.withInitializationMarks init)
      (exitRoot.withInitializationMarks init) hpath
      (congrArg Prod.snd cleared) counted
  have edge_lt : ∀ f ∈ path, f < D.numEdges :=
    fun f member => (hpath.allowed_of_mem f member).1
  have hnot : first ∉ after' := by
    intro member
    have := (hafter' first member).2
    change (init first).2 = false at this
    rw [hinit] at this
    contradiction
  obtain ⟨between, hbetween, hrest⟩ := split_between hfirst hlast hnot
  refine ⟨before, between ++ [last], after', first, last, {
    split := ?_
    head := ?_
    getLast := by simp
    initialization := ?_
    counter := ?_
    before_zero := ?_
    after_zero := ?_
    sum := ?_ }⟩
  · rw [hfirst, hrest]
    simp
  · cases between with
    | nil => simpa using (List.cons.inj hrest).1.symm
    | cons head tail => simpa using (List.cons.inj hrest).1.symm
  · rw [hfirst]
    apply filter_eq_singleton
    · intro f hf
      exact congrArg Prod.snd (hbefore f hf)
    · exact congrArg Prod.snd hinit
    · intro f hf
      exact (congrArg Prod.snd (hafter f hf)).trans
        (unmarked.isInitialization f (edge_lt f (by simp [hfirst, hf])))
  · rw [hlast]
    apply filter_eq_singleton
    · intro f hf
      exact (congrArg Prod.snd (hbefore' f hf)).trans
        (unmarked.isCounterIncrement f (edge_lt f (by simp [hlast, hf])))
    · exact congrArg Prod.snd hcounter
    · intro f hf
      exact congrArg Prod.snd (hafter' f hf).1
  · intro f hf
    have hunchanged := hbefore' f (by simp [hbetween, hf])
    exact (congrArg Prod.fst hunchanged).trans
      (congrArg Prod.fst (hbefore f hf))
  · intro f hf
    exact congrArg Prod.fst (hafter' f hf).1
  · rw [hfirst]
    exact sum_between hrest (congrArg Prod.fst hinit)
      (fun f hf => congrArg Prod.fst (hafter f hf))
      (fun f hf => (congrArg Prod.fst (hbefore' f (by simp [hbetween, hf]))).trans rfl)
      (congrArg Prod.fst hcounter) (congrArg Prod.fst cleared)

structure Pushed (D : Dag) (e : EdgeId) (init counter : Marks EdgeId Int) :
    Prop where
  exitRoot : D.IsExitRootEdge e
  initialized : Relocated D.nextInitialization
    (Function.update D.initializationMarks e (D.increment e, true))
    e (D.increment e) init
  counted : Relocated (D.withInitializationMarks init).nextCounter
    (Function.update (D.withInitializationMarks init).counterMarks e
      ((init e).1, true)) e (init e).1 counter
  cleared_init : init e = (0, false)
  cleared_counter : counter e = (0, false)

theorem BallLarus.push_relocated (shape : D.BallLarus) :
    ∃ bound exitRoot, D.IsExitRootEdge exitRoot ∧
      ∀ fuel, bound ≤ fuel → ∃ init counter,
        D.pushInitialization fuel = some (D.withInitializationMarks init) ∧
        (D.withInitializationMarks init).pushCounters fuel =
          some ((D.withInitializationMarks init).withCounterMarks counter) ∧
        Pushed D exitRoot init counter := by
  obtain ⟨rank, hrank⟩ := shape.acyclic
  obtain ⟨e, exitRoot⟩ := shape.exists_exitRootEdge
  obtain ⟨bound, hbound⟩ := shape.pushInitialization_relocated exitRoot
  refine ⟨max bound ((Finset.range D.numNodes).sup rank + 2), e, exitRoot,
    fun fuel hfuel => ?_⟩
  obtain ⟨init, hinit, initialized⟩ := hbound fuel (by omega)
  have cleared : init e = (0, false) :=
    initialized.cleared Relation.ReflTransGen.refl
      (shape.nextInitialization_exitRoot exitRoot)
  have shape' := shape.withInitializationMarks init
  have exitRoot' := exitRoot.withInitializationMarks init
  have hfuel' : (Finset.range D.numNodes).sup rank + 1 < fuel := by omega
  obtain ⟨counter, hcounter, counted⟩ :=
    shape'.pushCounters_relocated exitRoot' hrank hfuel'
  have cleared' : counter e = (0, false) :=
    counted.cleared Relation.ReflTransGen.refl
      (shape'.nextCounter_exitRoot exitRoot' (congrArg Prod.snd cleared))
  exact ⟨init, counter, hinit, hcounter, exitRoot, initialized, counted, cleared,
    cleared'⟩

/-- Both passes end, and on every path they leave one initialization and, not in
front of it, one counter increment; between them lies the whole sum of the path
and of the edge from exit to root, outside nothing. -/
theorem push_marks_relocate (shape : D.BallLarus)
    (unmarked : D.Unmarked) :
    ∃ bound exitRoot, D.getExitRootEdge = some exitRoot ∧
      ∀ fuel, bound ≤ fuel → ∃ D₁ D₂,
        D.pushInitialization fuel = some D₁ ∧
        D₁.pushCounters fuel = some D₂ ∧
        (∀ path, D.RootExitPath path →
          ∃ before middle after first last,
            MarkedPath D D₂ exitRoot path before middle after first last) ∧
        D₂.increment exitRoot = 0 ∧
        (D₂.edge exitRoot).isInitialization = false ∧
        (D₂.edge exitRoot).isCounterIncrement = false := by
  obtain ⟨bound, e, exitRoot, hbound⟩ := shape.push_relocated
  refine ⟨bound, e, exitRoot.head, fun fuel hfuel => ?_⟩
  obtain ⟨init, counter, hinit, hcounter, pushed⟩ := hbound fuel hfuel
  refine ⟨_, _, hinit, hcounter, ?_, congrArg Prod.fst pushed.cleared_counter,
    congrArg Prod.snd pushed.cleared_init,
    congrArg Prod.snd pushed.cleared_counter⟩
  intro path hpath
  exact RootExitPath.marked shape exitRoot hpath unmarked pushed.initialized
    pushed.counted pushed.cleared_init

theorem push_marks_relocate_whileLoop :
    ∃ bound exitRoot, whileLoop.getExitRootEdge = some exitRoot ∧
      ∀ fuel, bound ≤ fuel → ∃ D₁ D₂,
        whileLoop.pushInitialization fuel = some D₁ ∧
        D₁.pushCounters fuel = some D₂ ∧
        (∀ path, whileLoop.RootExitPath path →
          ∃ before middle after first last,
            MarkedPath whileLoop D₂ exitRoot path before middle after
              first last) ∧
        D₂.increment exitRoot = 0 ∧
        (D₂.edge exitRoot).isInitialization = false ∧
        (D₂.edge exitRoot).isCounterIncrement = false :=
  push_marks_relocate whileLoop_ballLarus ⟨by decide, by decide⟩

end Dag

end RrWorkbench.PathLogging
