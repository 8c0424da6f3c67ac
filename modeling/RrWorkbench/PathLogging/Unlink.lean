import RrWorkbench.PathLogging.InstrumentedRun
import RrWorkbench.PathLogging.Liveness

namespace RrWorkbench.PathLogging

/-! The unlinked DAG on the function: the state in which the emission begins. -/

namespace Dag

def realSuccEdges (D : Dag) (x : NodeId) : List EdgeId :=
  (D.succEdges x).filter fun e => !(D.type e).isPhony

/-- `D` is the DAG that `BallLarusDag` builds for `F`: every node but exit has a
block of its own, its real edges are in order those of the block's terminator,
and a block that leaves the function has one edge, to exit. -/
structure Represents (D : Dag) (F : LlvmFunction) : Prop where
  block_exit : D.getBlock D.exit = none
  block : ∀ x, x < D.numNodes → x ≠ D.exit →
    ∃ b, b < F.numBlocks ∧ D.getBlock x = some b
  block_injective : ∀ x y b, x < D.numNodes → y < D.numNodes →
    D.getBlock x = some b → D.getBlock y = some b → x = y
  entry : D.getBlock D.root = some F.entry
  successors : ∀ x b, x < D.numNodes → D.getBlock x = some b →
    F.successors b =
      (D.realSuccEdges x).filterMap fun e => D.getBlock (D.target e)
  leaves : ∀ x b, x < D.numNodes → D.getBlock x = some b →
    ((F.block b).terminator.leavesFunction = true ↔
      ∃ e ∈ D.realSuccEdges x, D.target e = D.exit)
  exit_alone : ∀ x e, e ∈ D.realSuccEdges x → D.target e = D.exit →
    D.realSuccEdges x = [e]

variable {D : Dag}

theorem BallLarus.mem_realSuccEdges (shape : D.BallLarus) {x : NodeId}
    {e : EdgeId} : e ∈ D.realSuccEdges x ↔ D.Linked e ∧ D.source e = x :=
  shape.links.unlinked.mem_succEdges x e

theorem Represents.layout {F : LlvmFunction} {exitRoot : EdgeId}
    (represents : D.Represents F) (shape : D.BallLarus)
    (hexitRoot : D.IsExitRootEdge exitRoot) : Layout D.unlinked F exitRoot where
  root_lt := shape.root_lt
  exit_lt := shape.exit_lt
  source_lt := shape.links.unlinked.source_lt
  target_lt := shape.links.unlinked.target_lt
  mem_succEdges := shape.links.unlinked.mem_succEdges
  mem_predEdges := shape.links.unlinked.mem_predEdges
  nodup_succEdges := shape.links.unlinked.nodup_succEdges
  nodup_predEdges := shape.links.unlinked.nodup_predEdges
  block_exit := represents.block_exit
  block := represents.block
  block_injective := represents.block_injective
  successors := represents.successors
  exit_alone e he htarget := represents.exit_alone (D.source e) e
    (shape.mem_realSuccEdges.mpr ⟨he, rfl⟩) htarget
  exitRoot_linked := ⟨hexitRoot.lt, by
    change (D.type exitRoot).isPhony = false
    rw [hexitRoot.normal]
    rfl⟩
  exitRoot_source := hexitRoot.source
  exitRoot_target := hexitRoot.target
  of_source e he := hexitRoot.of_source e he.1
  of_target e he := hexitRoot.of_target e he.1
  root_ne_exit := shape.root_ne_exit

theorem Represents.leavesAtExit {F : LlvmFunction} (represents : D.Represents F)
    (shape : D.BallLarus) : LeavesAtExit D.unlinked F := by
  intro x b hx hb
  rw [represents.leaves x b hx hb]
  constructor
  · rintro ⟨e, he, htarget⟩
    obtain ⟨hlinked, hsource⟩ := shape.mem_realSuccEdges.mp he
    exact ⟨e, hlinked, hsource, htarget⟩
  · rintro ⟨e, hlinked, hsource, htarget⟩
    exact ⟨e, shape.mem_realSuccEdges.mpr ⟨hlinked, hsource⟩, htarget⟩

/-- Phony edges do not stand alone for the edges into a node. -/
theorem BallLarus.one_lt_predEdges_unlinked (shape : D.BallLarus) {e : EdgeId}
    (he : D.Linked e) (hcut : (D.type e).isCut = false)
    (hexit : D.target e ≠ D.exit)
    (hpred : 1 < D.getNumberPredEdges (D.target e)) :
    1 < D.unlinked.getNumberPredEdges (D.target e) := by
  have hmem : ∀ {f}, f < D.numEdges → (D.type f).isPhony = false →
      D.target f = D.target e → f ∈ D.unlinked.predEdges (D.target e) := by
    intro f hf hphony htarget
    exact List.mem_filter.mpr
      ⟨(shape.mem_predEdges _ f).mpr ⟨hf, htarget⟩, by simp [hphony]⟩
  obtain ⟨f, hf, hne⟩ := exists_ne_of_one_lt_length
    (shape.nodup_predEdges _) hpred e
  obtain ⟨hflt, hftarget⟩ := (shape.mem_predEdges _ f).mp hf
  cases hphony : (D.type f).isPhony with
  | false =>
      exact two_le_length_of_mem (hmem hflt hphony hftarget) (hmem he.1 he.2 rfl) hne
  | true =>
      -- the back or split edge of a phony edge enters the same node
      obtain ⟨g, hg, hgcut, hgroot⟩ :=
        shape.phony_target f hflt hphony (hftarget ▸ hexit)
      obtain ⟨r, hr, _, _, _, htarget⟩ := shape.phonyRoot g hg hgcut
      obtain rfl : r = f := Option.some.inj (hr.symm.trans hgroot)
      have hgphony : (D.type g).isPhony = false := by
        rcases cut_cases hgcut with h | h <;> rw [h] <;> rfl
      refine two_le_length_of_mem
        (hmem hg hgphony (htarget.symm.trans hftarget)) (hmem he.1 he.2 rfl) ?_
      rintro rfl
      rw [hcut] at hgcut
      contradiction

section Marks

variable {exitRoot e : EdgeId} {init counter : Data.Marks EdgeId Int}

abbrev withMarks (D : Dag) (init counter : Data.Marks EdgeId Int) : Dag :=
  (D.withInitializationMarks init).withCounterMarks counter

theorem BallLarus.withMarks (shape : D.BallLarus) : (D.withMarks init counter).BallLarus :=
  { shape.withInitializationMarks init with }

theorem IsExitRootEdge.withMarks (hexitRoot : D.IsExitRootEdge exitRoot) :
    (D.withMarks init counter).IsExitRootEdge exitRoot :=
  { hexitRoot.withInitializationMarks init with }

theorem Represents.withMarks {F : LlvmFunction} (represents : D.Represents F) :
    (D.withMarks init counter).Represents F :=
  { represents with }

theorem Placed.normalMarks (placed : Placed D (D.withMarks init counter) exitRoot)
    (shape : D.BallLarus) (hlinked : D.Linked e) (hdag : D.IsDagEdge e) :
    NormalMarks (live D (D.withMarks init counter))
      (D.withMarks init counter).unlinked e where
  increment hinit hincrement :=
    placed.live_of_increment shape hdag hinit hincrement
  count := (placed.live_target shape hdag).1
  target := (placed.live_target shape hdag).2
  join hinit hexit := by
    refine .inl (shape.one_lt_predEdges_unlinked hlinked hdag.2.1 hexit ?_)
    exact (placed.join e hlinked.1 hinit).resolve_right hexit

theorem Placed.cutMarks (placed : Placed D (D.withMarks init counter) exitRoot)
    (shape : D.BallLarus) (hexitRoot : D.IsExitRootEdge exitRoot)
    (he : e < D.numEdges) (hcut : (D.type e).isCut = true)
    (hincrement : D.increment e = 0) :
    ∃ top bottom, CutMarks (live D (D.withMarks init counter))
      (D.withMarks init counter).unlinked e top bottom := by
  obtain ⟨top, htop, htopLt, htopPhony, htopSource, htopTarget⟩ :=
    shape.phonyRoot e he hcut
  obtain ⟨bottom, hbottom, hbottomLt, hbottomPhony, hbottomSource,
    hbottomTarget⟩ := shape.phonyExit e he hcut
  obtain ⟨hinit, hcounter, hsame⟩ := placed.cut e he hcut
  have hsourceExit : D.source e ≠ D.exit := by
    intro h
    rw [hexitRoot.of_source e he h, hexitRoot.normal] at hcut
    contradiction
  have htopDag : D.IsDagEdge top :=
    ⟨htopLt, EdgeType.isCut_of_isPhony htopPhony, htopSource ▸ shape.root_ne_exit⟩
  have hbottomDag : D.IsDagEdge bottom :=
    ⟨hbottomLt, EdgeType.isCut_of_isPhony hbottomPhony, hbottomSource ▸ hsourceExit⟩
  have htopInit := placed.top e top he hcut htop
  have hbottomCounter := placed.bottom e bottom he hcut hbottom
  refine ⟨top, bottom,
    { phonyRoot := htop
      phonyExit := hbottom
      top_lt := htopLt
      bottom_lt := hbottomLt
      top_phony := htopPhony
      bottom_phony := hbottomPhony
      top_initialization := htopInit
      bottom_counter := hbottomCounter
      bottom_initialization := ?_
      target := ?_
      isInitialization := hinit
      isCounterIncrement := hcounter
      increment := hsame.trans hincrement }⟩
  · change (init bottom).2 = !live D (D.withMarks init counter) (D.source e)
    rw [← hbottomSource]
    cases hbottomInit : (init bottom).2 with
    | true => rw [placed.dead_of_initialization shape hbottomDag hbottomInit]; rfl
    | false =>
        have hlive := ((placed.live_target shape hbottomDag).1
          hbottomCounter).resolve_left (ne_of_eq_of_ne hbottomInit (by decide))
        rw [hlive]
        rfl
  · have htarget := (placed.live_target shape htopDag).2
    rw [htopTarget, htopInit, Bool.true_or, Bool.true_and] at htarget
    exact htarget

theorem Placed.edgeMarks (placed : Placed D (D.withMarks init counter) exitRoot)
    (shape : D.BallLarus) (hexitRoot : D.IsExitRootEdge exitRoot)
    (hlinked : D.Linked e) (hne : e ≠ exitRoot)
    (hincrement : (D.type e).isCut = true → D.increment e = 0) :
    EdgeMarks (live D (D.withMarks init counter))
      (D.withMarks init counter).unlinked e where
  normal hcut := placed.normalMarks shape hlinked
    ⟨hlinked.1, hcut, fun h => hne (hexitRoot.of_source e hlinked.1 h)⟩
  cut hcut := placed.cutMarks shape hexitRoot hlinked.1 hcut (hincrement hcut)

end Marks

end Dag

end RrWorkbench.PathLogging
