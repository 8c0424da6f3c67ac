import RrWorkbench.PathLogging.Unlink

namespace RrWorkbench.PathLogging

open RrWorkbench.Data

/-! A walk through the function is cut at its back and split edges into paths of
the DAG; each of them is counted once, with its number. -/

namespace Dag

/-- The paths of the DAG along a walk.  A back or split edge ends one with its phony
exit edge and begins one with its phony root edge. -/
def segments (D : Dag) : List EdgeId → List (List EdgeId)
  | [] => [[]]
  | e :: path =>
      if (D.type e).isCut then
        (D.edge e).phonyExit.toList ::
          (D.segments path).modifyHead ((D.edge e).phonyRoot.toList ++ ·)
      else (D.segments path).modifyHead (e :: ·)

theorem segments_congr {D D' : Dag} (htype : D.type = D'.type)
    (hroot : ∀ e, (D.edge e).phonyRoot = (D'.edge e).phonyRoot)
    (hexit : ∀ e, (D.edge e).phonyExit = (D'.edge e).phonyExit)
    {path : List EdgeId} : D.segments path = D'.segments path := by
  induction path with
  | nil => rfl
  | cons e path ih => simp only [segments, htype, hroot, hexit, ih]

def pathNumber (D : Dag) (path : List EdgeId) : Int :=
  (path.map D.weight).sum

def follow (D : Dag) : Option Int → List EdgeId → Option Int × List Int
  | register, [] => (register, [])
  | register, e :: path =>
      let first := (D.edge e).traverse register
      let rest := D.follow first.1 path
      (rest.1, first.2 ++ rest.2)

theorem follow_append (D : Dag) (register : Option Int)
    (first second : List EdgeId) :
    D.follow register (first ++ second) =
      ((D.follow (D.follow register first).1 second).1,
        (D.follow register first).2 ++
          (D.follow (D.follow register first).1 second).2) := by
  induction first generalizing register with
  | nil => rfl
  | cons e rest ih => simp [follow, ih]

theorem follow_none (D : Dag) {path : List EdgeId}
    (hinits : D.initializations path = 0) : D.follow none path = (none, []) := by
  induction path with
  | nil => rfl
  | cons e rest ih =>
      rw [initializations_cons, Nat.add_eq_zero_iff] at hinits
      have hinit : (D.edge e).isInitialization = false := by
        cases h : (D.edge e).isInitialization with
        | false => rfl
        | true => simp [h] at hinits
      have hedge : (D.edge e).traverse none = (none, []) := by
        simp [Edge.traverse, hinit]
      simp only [follow, hedge, ih hinits.1, List.append_nil]

theorem follow_plain (D : Dag) {path : List EdgeId}
    (hinits : D.initializations path = 0) (hcounters : D.counters path = 0)
    (register : Option Int) :
    D.follow register path =
      (register.map (· + (path.map D.increment).sum), []) := by
  induction path generalizing register with
  | nil => cases register <;> simp [follow]
  | cons e rest ih =>
      rw [initializations_cons, Nat.add_eq_zero_iff] at hinits
      rw [counters_cons, Nat.add_eq_zero_iff] at hcounters
      have hinit : (D.edge e).isInitialization = false := by
        cases h : (D.edge e).isInitialization with
        | false => rfl
        | true => simp [h] at hinits
      have hcounter : (D.edge e).isCounterIncrement = false := by
        cases h : (D.edge e).isCounterIncrement with
        | false => rfl
        | true => simp [h] at hcounters
      have hedge : (D.edge e).traverse register =
          (register.map (· + D.increment e), []) := by
        simp [Edge.traverse, hinit, hcounter, increment]
      simp only [follow, hedge, ih hinits.1 hcounters.1, List.append_nil]
      cases register with
      | none => rfl
      | some number =>
          simp [add_assoc]

/-- Between the initialization and the counter increment the increments are added up,
and the sum is counted. -/
theorem follow_marked (D : Dag) {path : List EdgeId} {first last : EdgeId}
    (hhead : path.head? = some first) (hgetLast : path.getLast? = some last)
    (hfirst : (D.edge first).isInitialization = true)
    (hlast : (D.edge last).isCounterIncrement = true)
    (hinits : D.initializations path = 1) (hcounters : D.counters path = 1) :
    D.follow none path = (none, [(path.map D.increment).sum]) := by
  obtain ⟨front, rfl⟩ := List.getLast?_eq_some_iff.mp hgetLast
  cases front with
  | nil =>
      obtain rfl : last = first := by simpa using hhead
      simp [follow, Edge.traverse, hfirst, hlast, increment]
  | cons f front =>
      obtain rfl : f = first := by simpa using hhead
      rw [List.cons_append, initializations_cons, initializations_append,
        initializations_cons, if_pos hfirst] at hinits
      rw [List.cons_append, counters_cons, counters_append, counters_cons,
        if_pos hlast] at hcounters
      have hfirstCounter : (D.edge f).isCounterIncrement = false := by
        cases h : (D.edge f).isCounterIncrement with
        | false => rfl
        | true => simp [h] at hcounters
      have hlastInit : (D.edge last).isInitialization = false := by
        cases h : (D.edge last).isInitialization with
        | false => rfl
        | true => simp [h] at hinits
      have hplain := D.follow_plain (show D.initializations front = 0 by omega)
        (show D.counters front = 0 by omega)
      have hfront : D.follow none (f :: front) =
          (some (D.increment f + (front.map D.increment).sum), []) := by
        simp [follow, Edge.traverse, hfirst, hfirstCounter,
          hplain, increment]
      rw [D.follow_append, hfront]
      simp [follow, Edge.traverse, hlastInit, hlast, increment, add_assoc]

theorem MarkedPath.follow {D D' : Dag} {exitRoot first last : EdgeId}
    {path before middle after : List EdgeId}
    (marked : MarkedPath D D' exitRoot path before middle after first last) :
    D'.follow none path =
      (none, [D.increment exitRoot + (path.map D.increment).sum]) := by
  have hinits := marked.initializations
  have hcounters := marked.counters
  rw [marked.split, initializations_append, initializations_append] at hinits
  rw [marked.split, counters_append, counters_append] at hcounters
  have hfirst : 0 < D'.initializations middle :=
    initializations_pos_of_mem (List.mem_of_mem_head? marked.head) marked.first_mark
  have hlast : 0 < D'.counters middle :=
    counters_pos_of_mem (List.mem_of_mem_getLast? marked.getLast) marked.last_mark
  have hmiddle := D'.follow_marked marked.head marked.getLast marked.first_mark
    marked.last_mark (by omega) (by omega)
  rw [← marked.sum, marked.split, D'.follow_append, D'.follow_append,
    D'.follow_none (show D'.initializations before = 0 by omega)]
  simp only [hmiddle, D'.follow_none (show D'.initializations after = 0 by omega),
    List.nil_append, List.append_nil]

section Walk

variable {D : Dag} {exitRoot : EdgeId} {init counter : Marks EdgeId Int}

/-- The first segment of a walk begins where the walk does, the others at root; the
register passes through them one by one. -/
theorem Placed.exists_segments
    (placed : Placed D (D.withMarks init counter) exitRoot)
    (shape : D.BallLarus) {path : List EdgeId} {x : NodeId}
    (hpath : D.Path D.IsRealEdge x path D.exit) :
    ∃ segment rest, D.segments path = segment :: rest ∧
      D.Path D.IsDagEdge x segment D.exit ∧
      (∀ other ∈ rest, D.RootExitPath other) ∧
      ∀ register, (D.withMarks init counter).unlinked.trace register path =
        ((D.withMarks init counter).follow register segment).2 ++
          rest.flatMap fun other =>
            ((D.withMarks init counter).follow none other).2 := by
  induction path generalizing x with
  | nil =>
      refine ⟨[], [], rfl, ?_, by simp, fun _ => rfl⟩
      rw [EdgePath.nil_iff.mp hpath]
      exact .nil _
  | cons e path ih =>
      obtain ⟨he, rfl, htail⟩ := EdgePath.cons_iff.mp hpath
      obtain ⟨segment, rest, hsegments, hsegment, hrest, htrace⟩ := ih htail
      cases hcut : (D.type e).isCut with
      | false =>
          refine ⟨e :: segment, rest, ?_, .cons (he.isDagEdge hcut) hsegment, hrest,
            fun register => ?_⟩
          · simp [segments, hcut, hsegments]
          · have hedge : (D.withMarks init counter).unlinked.traverse e register =
                ((D.withMarks init counter).edge e).traverse register := by
              rw [traverse, if_neg]
              · rfl
              · exact ne_of_eq_of_ne hcut Bool.false_ne_true
            rw [trace, htrace, hedge, follow, List.append_assoc]
      | true =>
          obtain ⟨top, htop, htopLt, htopPhony, htopSource, htopTarget⟩ :=
            shape.phonyRoot e he.1 hcut
          obtain ⟨bottom, hbottom, hbottomLt, hbottomPhony, hbottomSource,
            hbottomTarget⟩ := shape.phonyExit e he.1 hcut
          refine ⟨[bottom], (top :: segment) :: rest, ?_, ?_, ?_,
            fun register => ?_⟩
          · simp [segments, hcut, hsegments, htop, hbottom]
          · rw [← hbottomSource, ← hbottomTarget]
            refine .cons ⟨hbottomLt, EdgeType.isCut_of_isPhony hbottomPhony, ?_⟩
              (.nil _)
            exact hbottomSource ▸ he.2.2
          · intro other hother
            rcases List.mem_cons.mp hother with rfl | hother
            · rw [RootExitPath, ← htopSource]
              refine .cons ⟨htopLt, EdgeType.isCut_of_isPhony htopPhony, ?_⟩
                (htopTarget ▸ hsegment)
              exact htopSource ▸ shape.root_ne_exit
            · exact hrest other hother
          · have hedge : (D.withMarks init counter).unlinked.traverse e register =
                traverseCut ((D.withMarks init counter).edge top)
                  ((D.withMarks init counter).edge bottom) register := by
              have htop' : ((D.withMarks init counter).unlinked.edge e).phonyRoot =
                  some top := htop
              have hbottom' :
                  ((D.withMarks init counter).unlinked.edge e).phonyExit =
                    some bottom := hbottom
              rw [traverse, if_pos, htop', hbottom']
              · rfl
              · exact hcut
            have hdead : (((D.withMarks init counter).edge bottom).traverse
                register).1 = none := by
              have := placed.bottom e bottom he.1 hcut hbottom
              simp only [Edge.traverse, this, if_true]
            rw [trace, htrace, hedge]
            simp only [traverseCut, follow, hdead, List.append_nil,
              List.flatMap_cons, List.append_assoc]

theorem Placed.trace_eq (placed : Placed D (D.withMarks init counter) exitRoot)
    (shape : D.BallLarus) {number : List EdgeId → Int}
    (hnumber : ∀ segment, D.RootExitPath segment →
      D.increment exitRoot + (segment.map D.increment).sum = number segment)
    {path : List EdgeId} (hpath : D.Path D.IsRealEdge D.root path D.exit) :
    (D.withMarks init counter).unlinked.trace none path =
      (D.segments path).map number := by
  obtain ⟨segment, rest, hsegments, hsegment, hrest, htrace⟩ :=
    placed.exists_segments shape hpath
  have hfollow : ∀ other, D.RootExitPath other →
      ((D.withMarks init counter).follow none other).2 = [number other] := by
    intro other hother
    obtain ⟨_, _, _, _, _, marked⟩ := placed.marked other hother
    rw [marked.follow, hnumber other hother]
  rw [htrace, hsegments, hfollow segment hsegment, List.map_cons,
    List.singleton_append, List.map_eq_flatMap]
  congr 1
  exact List.flatMap_congr fun other hother => hfollow other (hrest other hother)

end Walk

end Dag

end RrWorkbench.PathLogging
