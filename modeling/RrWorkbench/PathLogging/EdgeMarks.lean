import RrWorkbench.PathLogging.EdgeCode
import RrWorkbench.PathLogging.PathPHI

namespace RrWorkbench.PathLogging

/-! Marks that fit together: at each node the path register is either live or not,
on whatever edge control arrives. -/

structure Dag.IsPlain (D : Dag) (e : EdgeId) : Prop where
  isCut : (D.type e).isCut = false
  isInitialization : (D.edge e).isInitialization = false
  isCounterIncrement : (D.edge e).isCounterIncrement = false
  increment : (D.edge e).increment = 0

/-- The marks of a normal edge: it initializes a register that is not live, changes
and counts one that is.  An initialization that cannot be moved further down
ends where several edges join, or in front of plain edges only. -/
structure NormalMarks (live : NodeId → Bool) (D : Dag) (e : EdgeId) : Prop where
  increment : (D.edge e).isInitialization = false →
    (D.edge e).increment ≠ 0 → live (D.source e) = true
  count : (D.edge e).isCounterIncrement = true →
    (D.edge e).isInitialization = true ∨ live (D.source e) = true
  target : live (D.target e) =
    (((D.edge e).isInitialization || live (D.source e)) &&
      !(D.edge e).isCounterIncrement)
  join : (D.edge e).isInitialization = true → D.target e ≠ D.exit →
    1 < D.getNumberPredEdges (D.target e) ∨
      ∀ f ∈ D.succEdges (D.target e), D.IsPlain f

structure CutMarks (live : NodeId → Bool) (D : Dag) (e top bottom : EdgeId) :
    Prop where
  phonyRoot : (D.edge e).phonyRoot = some top
  phonyExit : (D.edge e).phonyExit = some bottom
  top_lt : top < D.numEdges
  bottom_lt : bottom < D.numEdges
  top_phony : (D.type top).isPhony = true
  bottom_phony : (D.type bottom).isPhony = true
  top_initialization : (D.edge top).isInitialization = true
  bottom_counter : (D.edge bottom).isCounterIncrement = true
  bottom_initialization :
    (D.edge bottom).isInitialization = !live (D.source e)
  target : live (D.target e) = !(D.edge top).isCounterIncrement
  isInitialization : (D.edge e).isInitialization = false
  isCounterIncrement : (D.edge e).isCounterIncrement = false
  increment : (D.edge e).increment = 0

structure EdgeMarks (live : NodeId → Bool) (D : Dag) (e : EdgeId) : Prop where
  normal : (D.type e).isCut = false → NormalMarks live D e
  cut : (D.type e).isCut = true → ∃ top bottom, CutMarks live D e top bottom

theorem Edge.traverse_congr {first second : Edge}
    (hinit : first.isInitialization = second.isInitialization)
    (hcounter : first.isCounterIncrement = second.isCounterIncrement)
    (hincrement : first.increment = second.increment) :
    first.traverse = second.traverse := by
  funext register
  simp only [Edge.traverse, hinit, hcounter, hincrement]

theorem Dag.IsPlain.traverse {D : Dag} {e : EdgeId} (plain : D.IsPlain e)
    (register : Option Int) : D.traverse e register = (register, []) := by
  simp [Dag.traverse, Edge.traverse, plain.isCut, plain.isInitialization,
    plain.isCounterIncrement, plain.increment]

theorem Dag.IsPlain.normalMarks {live : NodeId → Bool} {D : Dag} {e : EdgeId}
    (plain : D.IsPlain e)
    (hlive : live (D.target e) = live (D.source e)) : NormalMarks live D e where
  increment _ hne := absurd plain.increment hne
  count hcount := by simp [plain.isCounterIncrement] at hcount
  target := by
    simp [hlive, plain.isInitialization, plain.isCounterIncrement]
  join hinit := by simp [plain.isInitialization] at hinit

section Split

variable {D : Dag} {F : LlvmFunction} {exitRoot e f : EdgeId} {b : BlockId}
  {live : NodeId → Bool}

/-- The new node is live as the edge with the marks requires: that one is the first
half of a normal edge, and the second half of a back or split edge. -/
def splitLive (live : NodeId → Bool) (D : Dag) (e : EdgeId) : NodeId → Bool :=
  Function.update live D.numNodes
    (if (D.type e).isCut then live (D.source e) else live (D.target e))

theorem splitLive_of_lt {x : NodeId} (hx : x < D.numNodes) :
    splitLive live D e x = live x :=
  Function.update_of_ne (Nat.ne_of_lt hx) _ _

theorem formerEdge_marks (D : Dag) (e : EdgeId) :
    (D.formerEdge e).isInitialization = (D.edge e).isInitialization ∧
      (D.formerEdge e).isCounterIncrement = (D.edge e).isCounterIncrement ∧
      (D.formerEdge e).increment = (D.edge e).increment := by
  unfold Dag.formerEdge
  split
  all_goals exact ⟨rfl, rfl, rfl⟩

theorem formerEdge_hasInstrumentation (D : Dag) (e : EdgeId) :
    (D.formerEdge e).hasInstrumentation = (D.edge e).hasInstrumentation := by
  unfold Dag.formerEdge
  split
  all_goals rfl

theorem formerEdge_isCut (D : Dag) (e : EdgeId) :
    (D.formerEdge e).type.isCut = false := by
  unfold Dag.formerEdge
  split
  · rfl
  · rename_i hcut
    exact Bool.eq_false_iff.mpr hcut

theorem newEdge_marks (D : Dag) (e : EdgeId) :
    (D.newEdge e).isInitialization = false ∧
      (D.newEdge e).isCounterIncrement = false ∧
      (D.newEdge e).increment = 0 ∧
      (D.newEdge e).type.isCut = (D.type e).isCut := by
  unfold Dag.newEdge
  split
  · exact ⟨rfl, rfl, rfl, rfl⟩
  · rename_i hcut
    exact ⟨rfl, rfl, rfl, (Bool.eq_false_iff.mpr hcut).symm⟩

theorem Dag.IsPlain.split (hlinked : D.Linked e) (hf : f < D.numEdges)
    (plain : D.IsPlain f) : (D.splitUpdate e b).IsPlain f := by
  by_cases hfe : f = e
  · subst hfe
    obtain ⟨hinit, hcounter, hincrement⟩ := formerEdge_marks D f
    have hedge := Dag.splitUpdate_edge_former (b := b) hf
    refine ⟨?_, ?_, ?_, ?_⟩
    · rw [Dag.type, hedge]
      exact formerEdge_isCut D f
    · rw [hedge, hinit]
      exact plain.isInitialization
    · rw [hedge, hcounter]
      exact plain.isCounterIncrement
    · rw [hedge, hincrement]
      exact plain.increment
  · have hedge := Dag.splitUpdate_edge_of_ne (b := b) hf hfe
    refine ⟨?_, ?_, ?_, ?_⟩
    · rw [Dag.type, hedge]
      exact plain.isCut
    · rw [hedge]
      exact plain.isInitialization
    · rw [hedge]
      exact plain.isCounterIncrement
    · rw [hedge]
      exact plain.increment

theorem splitUpdate_edge_phony (hlinked : D.Linked e) {phony : EdgeId}
    (hlt : phony < D.numEdges) (hphony : (D.type phony).isPhony = true) :
    (D.splitUpdate e b).edge phony = D.edge phony := by
  refine Dag.splitUpdate_edge_of_ne hlt ?_
  rintro rfl
  rw [hlinked.2] at hphony
  contradiction

/-- The phony edges of `f` serve an edge `g` after the split that takes them over. -/
theorem CutMarks.split {g top bottom : EdgeId} (hlinked : D.Linked e)
    (cut : CutMarks live D f top bottom)
    (hroot : ((D.splitUpdate e b).edge g).phonyRoot = (D.edge f).phonyRoot)
    (hexit : ((D.splitUpdate e b).edge g).phonyExit = (D.edge f).phonyExit)
    (hsource : splitLive live D e ((D.splitUpdate e b).source g) =
      live (D.source f))
    (htarget : splitLive live D e ((D.splitUpdate e b).target g) =
      live (D.target f))
    (hinit : ((D.splitUpdate e b).edge g).isInitialization = false)
    (hcounter : ((D.splitUpdate e b).edge g).isCounterIncrement = false)
    (hincrement : ((D.splitUpdate e b).edge g).increment = 0) :
    CutMarks (splitLive live D e) (D.splitUpdate e b) g top bottom := by
  have htop := splitUpdate_edge_phony (b := b) hlinked cut.top_lt cut.top_phony
  have hbottom :=
    splitUpdate_edge_phony (b := b) hlinked cut.bottom_lt cut.bottom_phony
  refine {
    phonyRoot := hroot.trans cut.phonyRoot
    phonyExit := hexit.trans cut.phonyExit
    top_lt := ?_, bottom_lt := ?_, top_phony := ?_, bottom_phony := ?_
    top_initialization := ?_, bottom_counter := ?_
    bottom_initialization := ?_, target := ?_
    isInitialization := hinit
    isCounterIncrement := hcounter
    increment := hincrement }
  · rw [Dag.splitUpdate_numEdges]
    exact Nat.lt_succ_of_lt cut.top_lt
  · rw [Dag.splitUpdate_numEdges]
    exact Nat.lt_succ_of_lt cut.bottom_lt
  · rw [Dag.type, htop]
    exact cut.top_phony
  · rw [Dag.type, hbottom]
    exact cut.bottom_phony
  · rw [htop]
    exact cut.top_initialization
  · rw [hbottom]
    exact cut.bottom_counter
  · rw [hbottom, hsource]
    exact cut.bottom_initialization
  · rw [htop, htarget]
    exact cut.target

theorem EdgeMarks.split_new (layout : Layout D F exitRoot)
    (hlinked : D.Linked e) (marks : EdgeMarks live D e) :
    EdgeMarks (splitLive live D e) (D.splitUpdate e b) D.numEdges := by
  have he := hlinked.1
  have hw := layout.target_lt e hlinked
  obtain ⟨hinit, hcounter, hincrement, hcut⟩ := newEdge_marks D e
  have hedge := Dag.splitUpdate_edge_new (b := b) he
  have hsource := Dag.splitUpdate_source (b := b) he D.numEdges
  have htarget := Dag.splitUpdate_target (b := b) he D.numEdges
  rw [if_pos rfl] at hsource htarget
  have htype : ((D.splitUpdate e b).type D.numEdges).isCut =
      (D.type e).isCut := by
    rw [Dag.type, hedge, hcut]
  refine ⟨fun hnormal => ?_, fun hcutNew => ?_⟩
  · refine Dag.IsPlain.normalMarks ⟨hnormal, ?_, ?_, ?_⟩ ?_
    · rw [hedge, hinit]
    · rw [hedge, hcounter]
    · rw [hedge, hincrement]
    · rw [htype] at hnormal
      rw [htarget, hsource, splitLive_of_lt hw, splitLive,
        Function.update_self, hnormal]
      simp
  · rw [htype] at hcutNew
    obtain ⟨top, bottom, cut⟩ := marks.cut hcutNew
    refine ⟨top, bottom, cut.split hlinked ?_ ?_ ?_ ?_ ?_ ?_ ?_⟩
    · rw [hedge, Dag.newEdge, if_pos hcutNew]
    · rw [hedge, Dag.newEdge, if_pos hcutNew]
    · rw [hsource, splitLive, Function.update_self, if_pos hcutNew]
    · rw [htarget, splitLive_of_lt hw]
    · rw [hedge, hinit]
    · rw [hedge, hcounter]
    · rw [hedge, hincrement]

theorem newEdge_isPlain (he : e < D.numEdges) (hcut : (D.type e).isCut = false) :
    (D.splitUpdate e b).IsPlain D.numEdges := by
  obtain ⟨hinit, hcounter, hincrement, hcut'⟩ := newEdge_marks D e
  have hedge := Dag.splitUpdate_edge_new (b := b) he
  refine ⟨?_, ?_, ?_, ?_⟩
  · rw [Dag.type, hedge, hcut', hcut]
  · rw [hedge, hinit]
  · rw [hedge, hcounter]
  · rw [hedge, hincrement]

theorem EdgeMarks.split_former (layout : Layout D F exitRoot)
    (hlinked : D.Linked e) (marks : EdgeMarks live D e) :
    EdgeMarks (splitLive live D e) (D.splitUpdate e b) e := by
  have he := hlinked.1
  have hw := layout.target_lt e hlinked
  have hx := layout.source_lt e hlinked
  obtain ⟨hinit, hcounter, hincrement⟩ := formerEdge_marks D e
  have hedge := Dag.splitUpdate_edge_former (b := b) he
  have hsource := Dag.splitUpdate_source (b := b) he e
  have htarget := Dag.splitUpdate_target (b := b) he e
  rw [if_neg (Nat.ne_of_lt he)] at hsource htarget
  rw [if_pos rfl] at htarget
  have hnormal : ((D.splitUpdate e b).type e).isCut = false := by
    rw [Dag.type, hedge]
    exact formerEdge_isCut D e
  refine ⟨fun _ => ?_, fun hcut => ?_⟩
  · cases hcut : (D.type e).isCut with
    | true =>
        obtain ⟨top, bottom, cut⟩ := marks.cut hcut
        refine Dag.IsPlain.normalMarks ⟨hnormal, ?_, ?_, ?_⟩ ?_
        · rw [hedge, hinit]
          exact cut.isInitialization
        · rw [hedge, hcounter]
          exact cut.isCounterIncrement
        · rw [hedge, hincrement]
          exact cut.increment
        · rw [htarget, hsource, splitLive_of_lt hx, splitLive,
            Function.update_self, if_pos hcut]
    | false =>
        have normal := marks.normal hcut
        refine { increment := ?_, count := ?_, target := ?_, join := ?_ }
        · rw [hedge, hinit, hincrement, hsource, splitLive_of_lt hx]
          exact normal.increment
        · rw [hedge, hinit, hcounter, hsource, splitLive_of_lt hx]
          exact normal.count
        · rw [hedge, hinit, hcounter, hsource, htarget, splitLive_of_lt hx,
            splitLive, Function.update_self, hcut]
          exact normal.target
        · intro _ _
          refine .inr fun f hf => ?_
          rw [htarget, Dag.splitUpdate_succEdges hw, if_pos rfl,
            List.mem_singleton] at hf
          subst hf
          exact newEdge_isPlain he hcut
  · rw [hnormal] at hcut
    contradiction

theorem EdgeMarks.split_other (layout : Layout D F exitRoot)
    (hlinked : D.Linked e) (hf : D.Linked f) (hne : f ≠ e)
    (marks : EdgeMarks live D f) :
    EdgeMarks (splitLive live D e) (D.splitUpdate e b) f := by
  have he := hlinked.1
  have hw := layout.target_lt e hlinked
  have hsourceLt := layout.source_lt f hf
  have htargetLt := layout.target_lt f hf
  have hedge := Dag.splitUpdate_edge_of_ne (b := b) hf.1 hne
  have hsource := Dag.splitUpdate_source (b := b) he f
  have htarget := Dag.splitUpdate_target (b := b) he f
  rw [if_neg (Nat.ne_of_lt hf.1)] at hsource htarget
  rw [if_neg hne] at htarget
  have htype : (D.splitUpdate e b).type f = D.type f := congrArg Edge.type hedge
  refine ⟨fun hnormal => ?_, fun hcut => ?_⟩
  · rw [htype] at hnormal
    have normal := marks.normal hnormal
    refine { increment := ?_, count := ?_, target := ?_, join := ?_ }
    · rw [hedge, hsource, splitLive_of_lt hsourceLt]
      exact normal.increment
    · rw [hedge, hsource, splitLive_of_lt hsourceLt]
      exact normal.count
    · rw [hedge, hsource, htarget, splitLive_of_lt hsourceLt,
        splitLive_of_lt htargetLt]
      exact normal.target
    · intro hinit hexit
      rw [hedge] at hinit
      rw [htarget, Dag.splitUpdate_exit] at hexit
      rw [htarget, layout.links.getNumberPredEdges_split hlinked htargetLt,
        Dag.splitUpdate_succEdges hw, if_neg (Nat.ne_of_lt htargetLt)]
      rcases normal.join hinit hexit with hjoin | hplain
      · exact .inl hjoin
      · refine .inr fun g hg => ?_
        exact (hplain g hg).split hlinked
          ((layout.mem_succEdges _ g).mp hg).1.1
  · rw [htype] at hcut
    obtain ⟨top, bottom, cut⟩ := marks.cut hcut
    refine ⟨top, bottom, cut.split hlinked ?_ ?_ ?_ ?_ ?_ ?_ ?_⟩
    · rw [hedge]
    · rw [hedge]
    · rw [hsource, splitLive_of_lt hsourceLt]
    · rw [htarget, splitLive_of_lt htargetLt]
    · rw [hedge]
      exact cut.isInitialization
    · rw [hedge]
      exact cut.isCounterIncrement
    · rw [hedge]
      exact cut.increment

theorem EdgeMarks.traverse_split (hlinked : D.Linked e) (hf : D.Linked f)
    (hne : f ≠ e) (marks : EdgeMarks live D f) :
    (D.splitUpdate e b).traverse f = D.traverse f := by
  have hedge := Dag.splitUpdate_edge_of_ne (b := b) hf.1 hne
  have htype : (D.splitUpdate e b).type f = D.type f := congrArg Edge.type hedge
  funext register
  unfold Dag.traverse
  rw [htype, hedge]
  cases hcut : (D.type f).isCut with
  | false => rfl
  | true =>
      obtain ⟨top, bottom, cut⟩ := marks.cut hcut
      simp only [cut.phonyRoot, cut.phonyExit,
        splitUpdate_edge_phony hlinked cut.top_lt cut.top_phony,
        splitUpdate_edge_phony hlinked cut.bottom_lt cut.bottom_phony]

/-- The two halves together do what the edge did. -/
theorem EdgeMarks.traverse_halves (hlinked : D.Linked e)
    (marks : EdgeMarks live D e) (register : Option Int) :
    let first := (D.splitUpdate e b).traverse e register
    let second := (D.splitUpdate e b).traverse D.numEdges first.1
    D.traverse e register = (second.1, first.2 ++ second.2) := by
  have he := hlinked.1
  have hformer := Dag.splitUpdate_edge_former (b := b) he
  have hnew := Dag.splitUpdate_edge_new (b := b) he
  obtain ⟨hinit, hcounter, hincrement⟩ := formerEdge_marks D e
  have hcutFormer : ((D.splitUpdate e b).type e).isCut = false := by
    rw [Dag.type, hformer]
    exact formerEdge_isCut D e
  have hfirst : (D.splitUpdate e b).traverse e =
      (D.edge e).traverse := by
    funext register
    simp only [Dag.traverse, hcutFormer, Bool.false_eq_true, if_false]
    rw [hformer, Edge.traverse_congr hinit hcounter hincrement]
  cases hcut : (D.type e).isCut with
  | false =>
      simp only [hfirst, (newEdge_isPlain he hcut).traverse]
      simp [Dag.traverse, hcut]
  | true =>
      obtain ⟨top, bottom, cut⟩ := marks.cut hcut
      have hplain : (D.edge e).traverse register = (register, []) := by
        simp [Edge.traverse, cut.isInitialization, cut.isCounterIncrement,
          cut.increment]
      have hcutNew : ((D.splitUpdate e b).type D.numEdges).isCut = true := by
        rw [Dag.type, hnew, (newEdge_marks D e).2.2.2, hcut]
      have hroot : (D.newEdge e).phonyRoot = some top := by
        rw [Dag.newEdge, if_pos hcut]
        exact cut.phonyRoot
      have hexit : (D.newEdge e).phonyExit = some bottom := by
        rw [Dag.newEdge, if_pos hcut]
        exact cut.phonyExit
      simp only [hfirst, hplain, List.nil_append]
      simp only [Dag.traverse, hcut, hcutNew, if_true, hnew, hroot, hexit,
        cut.phonyRoot, cut.phonyExit,
        splitUpdate_edge_phony hlinked cut.top_lt cut.top_phony,
        splitUpdate_edge_phony hlinked cut.bottom_lt cut.bottom_phony]

end Split

end RrWorkbench.PathLogging
