import RrWorkbench.PathLogging.EmissionStep

namespace RrWorkbench.PathLogging

/-! The two places for the instructions of an edge: the end of an unbranched source
and the beginning of a target with one predecessor. -/

theorem orError_some {α : Type} (a : α) (error : EmitError) :
    orError (some a) error = .ok a := rfl

/-- The instructions of an edge with fitting marks compute its traversal. -/
theorem EdgeMarks.instrumentCursor_spec {live : NodeId → Bool} {D : Dag}
    {e : EdgeId} (marks : EdgeMarks live D e) (hpaths : 0 < D.numberOfPaths)
    (cursor : Cursor) (hcode : cursor.code = []) (hlate : cursor.late = [])
    (hending : cursor.ending.isSome = live (D.source e))
    (hstarting : live (D.source e) = true →
      cursor.starting = cursor.ending ∨ D.IsPlain e)
    (atBeginning : Bool) :
    ∃ result, Emission.instrumentCursor D e cursor atBeginning = .ok result ∧
      Computes (result.code ++ result.late) cursor.ending result.ending
        (D.traverse e) ∧
      result.ending.isSome = live (D.target e) ∧
      (atBeginning = true → cursor.starting = cursor.ending →
        live (D.target e) = true →
        result.starting = result.ending ∨
          ((D.type e).isCut = false ∧ (D.edge e).isInitialization = true)) := by
  cases hcut : (D.type e).isCut with
  | true =>
      obtain ⟨top, bottom, cut⟩ := marks.cut hcut
      have hadd : cursor.ending.isSome → cursor.starting = cursor.ending := by
        intro hsome
        rw [hending] at hsome
        refine (hstarting hsome).resolve_right fun plain => ?_
        rw [plain.isCut] at hcut
        contradiction
      obtain ⟨result, hresult, hcomputes, hsome, hsame⟩ :=
        Cursor.instrumentCutEdge_spec atBeginning hpaths hcode hlate
          cut.top_initialization cut.bottom_counter
          (by rw [hending]; exact cut.bottom_initialization) hadd
      refine ⟨result, ?_, ?_, hsome.trans cut.target.symm, ?_⟩
      · simp only [Emission.instrumentCursor, hcut, if_true, cut.phonyRoot,
          cut.phonyExit, orError_some, ok_bind]
        exact hresult
      · have htraverse : D.traverse e =
            traverseCut (D.edge top) (D.edge bottom) := by
          funext register
          simp only [Dag.traverse, hcut, if_true, cut.phonyRoot, cut.phonyExit]
        rw [htraverse]
        exact hcomputes
      · intro hbeginning _ hlive
        exact .inl (hsame hbeginning
          (hsome.trans (cut.target.symm.trans hlive)))
  | false =>
      have normal := marks.normal hcut
      have hadd : (D.edge e).isInitialization = false →
          (D.edge e).increment ≠ 0 →
          cursor.ending.isSome ∧ cursor.starting = cursor.ending := by
        intro hinit hne
        have hlive := normal.increment hinit hne
        refine ⟨hending.trans hlive, ?_⟩
        refine (hstarting hlive).resolve_right fun plain => hne plain.increment
      have hcount : (D.edge e).isCounterIncrement = true →
          (D.edge e).isInitialization = true ∨ cursor.ending.isSome := by
        rw [hending]
        exact normal.count
      obtain ⟨result, hresult, hresultLate, hcomputes, hsome, hsame⟩ :=
        Cursor.instrumentNormalEdge_spec atBeginning hpaths hcode hlate hadd
          hcount
      refine ⟨result, ?_, ?_, ?_, ?_⟩
      · simp only [Emission.instrumentCursor, hcut, Bool.false_eq_true, if_false]
        exact hresult
      · have htraverse : D.traverse e = (D.edge e).traverse := by
          funext register
          simp only [Dag.traverse, hcut, Bool.false_eq_true, if_false]
        rw [htraverse, hresultLate, List.append_nil]
        exact hcomputes
      · rw [hsome, hending]
        exact normal.target.symm
      · intro hbeginning hsameStart hlive
        by_cases hinit : (D.edge e).isInitialization = true
        · exact .inr ⟨rfl, hinit⟩
        · have hcounter : (D.edge e).isCounterIncrement = false := by
            rw [normal.target] at hlive
            simp only [Bool.and_eq_true, Bool.not_eq_true'] at hlive
            exact hlive.2
          exact .inl (hsame hbeginning (by simpa using hinit) hcounter hsameStart)

/-! The functions of the emission, on path numbers and instructions. -/

theorem Dag.withNumbers_setPathNumbers (D : Dag) (numbers : NodeId → Numbers)
    (x : NodeId) (starting ending : Option Value) :
    (D.withNumbers numbers).setPathNumbers x starting ending =
      D.withNumbers (Function.update numbers x
        ⟨starting, ending, (numbers x).phi⟩) := by
  simp only [Dag.setPathNumbers, Dag.modifyNode, Dag.withNumbers]
  congr 1
  funext y
  by_cases hy : y = x
  · subst hy
    simp
  · simp [Function.update_of_ne hy]

theorem Dag.setPathNumbers_eq (D : Dag) (x : NodeId)
    (starting ending : Option Value) :
    D.setPathNumbers x starting ending =
      D.withNumbers (Function.update D.numbers x
        ⟨starting, ending, (D.node x).pathPHI⟩) :=
  D.withNumbers_setPathNumbers D.numbers x starting ending

theorem LlvmFunction.withCode_modifyBlock (F : LlvmFunction)
    (code : BlockId → Code) (nextInst : Nat) (b : BlockId)
    (change : Block → Block) (changed : Code)
    (hchange : change ((F.withCode code nextInst).block b) =
      { F.block b with
        pathPHI := changed.pathPHI
        front := changed.front
        back := changed.back }) :
    (F.withCode code nextInst).modifyBlock b change =
      F.withCode (Function.update code b changed) nextInst := by
  simp only [LlvmFunction.modifyBlock, LlvmFunction.withCode] at hchange ⊢
  congr 1
  funext c
  by_cases hc : c = b
  · subst hc
    simp [hchange]
  · simp [Function.update_of_ne hc]

theorem LlvmFunction.PhiOk.withCode {F : LlvmFunction} (phis : F.PhiOk)
    {code : BlockId → Code} (nextInst : Nat)
    (hphi : ∀ b, (code b).pathPHI = (F.block b).pathPHI) :
    (F.withCode code nextInst).PhiOk := by
  intro b hlt entries hentries
  exact phis b hlt entries ((hphi b).symm.trans hentries)

theorem insertAt_beginning (D : Dag) (F : LlvmFunction)
    (numbers : NodeId → Numbers) (x : NodeId) (b : BlockId) (cursor : Cursor) :
    Emission.insertAt ⟨D.withNumbers numbers, F⟩ x b true cursor =
      ⟨D.withNumbers (Function.update numbers x
          ⟨cursor.starting, cursor.ending, (numbers x).phi⟩),
        F.withCode (Function.update F.code b
          ⟨(F.block b).pathPHI, cursor.code ++ (F.block b).front,
            (F.block b).back ++ cursor.late⟩) cursor.nextInst⟩ := by
  have hblock := F.withCode_modifyBlock F.code F.nextInst b
    (fun body => { body with
      front := cursor.code ++ body.front
      back := body.back ++ cursor.late })
    ⟨(F.block b).pathPHI, cursor.code ++ (F.block b).front,
      (F.block b).back ++ cursor.late⟩ rfl
  rw [LlvmFunction.withCode_self] at hblock
  simp only [Emission.insertAt, D.withNumbers_setPathNumbers, if_true]
  rw [hblock]
  rfl

theorem insertAt_end (D : Dag) (F : LlvmFunction) (x : NodeId) (b : BlockId)
    (cursor : Cursor) :
    Emission.insertAt ⟨D, F⟩ x b false cursor =
      ⟨D.withNumbers (Function.update D.numbers x
          ⟨cursor.starting, cursor.ending, (D.node x).pathPHI⟩),
        F.withCode (Function.update F.code b
          ⟨(F.block b).pathPHI, (F.block b).front,
            (F.block b).back ++ (cursor.code ++ cursor.late)⟩)
          cursor.nextInst⟩ := by
  have hblock := F.withCode_modifyBlock F.code F.nextInst b
    (fun body => { body with back := body.back ++ cursor.code ++ cursor.late })
    ⟨(F.block b).pathPHI, (F.block b).front,
      (F.block b).back ++ (cursor.code ++ cursor.late)⟩
    (by rw [← List.append_assoc]; rfl)
  rw [LlvmFunction.withCode_self] at hblock
  simp only [Emission.insertAt, D.setPathNumbers_eq, Bool.false_eq_true,
    if_false]
  rw [hblock]
  rfl

theorem instrumentEdge_eq {st : Emission} {e : EdgeId} {x : NodeId}
    {atBeginning : Bool} (b : BlockId) (cursor : Cursor)
    (hb : st.dag.getBlock x = some b)
    (hcursor : Emission.instrumentCursor st.dag e (st.cursorAt x) atBeginning =
      .ok cursor) :
    st.instrumentEdge e x atBeginning =
      .ok (st.insertAt x b atBeginning cursor) := by
  simp only [Emission.instrumentEdge, hb, orError_some, ok_bind, hcursor]

/-! What `instrumentEdge` stores: the ends of its cursor in the node, and the
instructions in the block. -/

def Dag.cursorNumbers (D : Dag) (x : NodeId) (cursor : Cursor) : NodeId → Numbers :=
  Function.update D.numbers x
    ⟨cursor.starting, cursor.ending, (D.node x).pathPHI⟩

def LlvmFunction.beginCode (F : LlvmFunction) (b : BlockId) (cursor : Cursor) :
    BlockId → Code :=
  Function.update F.code b
    ⟨(F.block b).pathPHI, cursor.code ++ (F.block b).front,
      (F.block b).back ++ cursor.late⟩

section BeginCode

variable {D : Dag} {F : LlvmFunction} {x y : NodeId} {b c : BlockId} {cursor : Cursor}

theorem Dag.cursorNumbers_phi : (D.cursorNumbers x cursor y).phi = (D.node y).pathPHI := by
  by_cases hy : y = x
  · subst hy
    simp [Dag.cursorNumbers]
  · simp [Dag.cursorNumbers, Function.update_of_ne hy, Dag.numbers]

theorem Dag.cursorNumbers_of_ne (hy : y ≠ x) : D.cursorNumbers x cursor y = D.numbers y :=
  Function.update_of_ne hy _ _

theorem Dag.cursorNumbers_ending : (D.cursorNumbers x cursor x).ending = cursor.ending := by
  simp [Dag.cursorNumbers]

theorem LlvmFunction.beginCode_of_ne (hc : c ≠ b) : F.beginCode b cursor c = F.code c :=
  Function.update_of_ne hc _ _

theorem LlvmFunction.beginCode_pathPHI :
    (F.beginCode b cursor c).pathPHI = (F.block c).pathPHI := by
  by_cases hc : c = b
  · subst hc
    simp [LlvmFunction.beginCode]
  · rw [LlvmFunction.beginCode_of_ne hc]
    rfl

end BeginCode

structure EdgeSite (G : Ghost) (D : Dag) (F : LlvmFunction)
    (exitRoot e : EdgeId) : Prop where
  invariant : EmissionInvariant G D F exitRoot
  linked : D.Linked e
  ne : e ≠ exitRoot
  undone : ¬ G.done e
  source_arrived : G.arrived (D.source e)

namespace EdgeSite

variable {G : Ghost} {D : Dag} {F : LlvmFunction} {exitRoot e : EdgeId}
  (site : EdgeSite G D F exitRoot e)

include site

theorem source_lt : D.source e < D.numNodes :=
  site.invariant.layout.source_lt e site.linked

theorem target_lt : D.target e < D.numNodes :=
  site.invariant.layout.target_lt e site.linked

theorem pathNumbers : PathNumbers G D e :=
  site.invariant.pathNumbers e site.linked site.undone site.source_arrived

theorem marks : EdgeMarks G.live D e :=
  site.invariant.marks e site.linked site.ne

theorem not_arrived (hpred : D.getNumberPredEdges (D.target e) ≤ 1) :
    ¬ G.arrived (D.target e) := by
  intro harrived
  have layout := site.invariant.layout
  obtain ⟨f, hdone, _, htarget⟩ := site.invariant.arrived_over _ harrived
    (layout.target_ne_root site.linked site.ne)
  have heq : f = e := Dag.eq_of_mem_of_length_le_one hpred
    ((layout.mem_predEdges _ f).mpr
      ⟨site.invariant.done_linked f hdone, htarget⟩)
    ((layout.mem_predEdges _ e).mpr ⟨site.linked, rfl⟩)
  exact site.undone (heq ▸ hdone)

theorem target_ne_source (hnot : ¬ G.arrived (D.target e)) :
    D.target e ≠ D.source e := by
  intro heq
  rw [heq] at hnot
  exact hnot site.source_arrived

end EdgeSite

def Ghost.atTarget (G : Ghost) (D : Dag) (e : EdgeId) (holder : Option Value)
    (inBack : List Inst) : Ghost :=
  { G with
    arrived := fun x => G.arrived x ∨ x = D.target e
    done := fun f => G.done f ∨ f = e
    holder := Function.update G.holder (D.target e) holder
    inBack := Function.update G.inBack (D.target e) inBack }

namespace EdgeSite

variable {G : Ghost} {D : Dag} {F : LlvmFunction} {exitRoot e : EdgeId}
  (site : EdgeSite G D F exitRoot e)

include site

variable {b : BlockId} {cursor : Cursor}

theorem instrumentTarget_eq (hb : D.getBlock (D.target e) = some b)
    (hpred : D.getNumberPredEdges (D.target e) ≤ 1)
    (hcursor : Emission.instrumentCursor D e
      ⟨D.endingPathNumber (D.source e), D.endingPathNumber (D.source e), F.nextInst, [], []⟩
      true = .ok cursor) :
    Emission.instrumentTarget ⟨D, F⟩ e (D.source e) (D.target e) =
      .ok ⟨D.withNumbers (D.cursorNumbers (D.target e) cursor),
        F.withCode (F.beginCode b cursor) cursor.nextInst⟩ := by
  have fresh := site.invariant.fresh _ site.target_lt (site.not_arrived hpred)
  let held := D.endingPathNumber (D.source e)
  let numbers := Function.update D.numbers (D.target e)
    ⟨held, held, (D.node (D.target e)).pathPHI⟩
  have hpush : Emission.pushValueIntoNode ⟨D, F⟩ (D.source e) (D.target e) =
      .ok ⟨D.withNumbers numbers, F⟩ := by
    simp only [Emission.pushValueIntoNode, hb, reduceCtorEq, if_false, hpred,
      if_true, fresh.starting, ne_eq, not_true_eq_false]
    exact congrArg (fun dag => Except.ok (Emission.mk dag F))
      (D.setPathNumbers_eq (D.target e) held held)
  have hat : Emission.cursorAt ⟨D.withNumbers numbers, F⟩ (D.target e) =
      ⟨held, held, F.nextInst, [], []⟩ := by
    simp [numbers, Emission.cursorAt, Dag.startingPathNumber, Dag.endingPathNumber,
      Dag.withNumbers]
  rw [Emission.instrumentTarget, hpush, ok_bind,
    instrumentEdge_eq b cursor hb (by rw [hat]; exact hcursor), insertAt_beginning]
  simp [numbers, Dag.cursorNumbers, LlvmFunction.beginCode]

/-- All instructions of the edge stand in its target. -/
theorem correct_atTarget (hb : D.getBlock (D.target e) = some b)
    (hsucc : 1 < D.getNumberSuccEdges (D.source e))
    (hpred : D.getNumberPredEdges (D.target e) ≤ 1)
    (hcomputes : Computes (cursor.code ++ cursor.late) (G.holder (D.source e))
      cursor.ending (D.traverse e)) :
    ((G.atTarget D e cursor.ending cursor.late).crossing
      (D.withNumbers (D.cursorNumbers (D.target e) cursor))
      (F.withCode (F.beginCode b cursor) cursor.nextInst) e).Correct (D.traverse e) := by
  have hnot := site.not_arrived hpred
  obtain ⟨hphi, hfront⟩ := (site.invariant.fresh _ site.target_lt hnot).block b hb
  refine Crossing.Correct.of_inCode ?_ ?_ ?_
  · exact site.invariant.outBack_branch _ hsucc
  · refine incomingValue_none fun c hc => ?_
    have hc' : D.getBlock (D.target e) = some c := hc
    cases hb.symm.trans hc'
    exact LlvmFunction.beginCode_pathPHI.trans hphi
  · have hbefore : (G.atTarget D e cursor.ending cursor.late).holder (D.source e) =
        G.holder (D.source e) :=
      Function.update_of_ne (site.target_ne_source hnot).symm _ _
    have hafter : (G.atTarget D e cursor.ending cursor.late).holder (D.target e) =
        cursor.ending := Function.update_self ..
    have hin : (G.atTarget D e cursor.ending cursor.late).inBack (D.target e) =
        cursor.late := Function.update_self ..
    rw [crossing_inCode hb, LlvmFunction.beginCode, Function.update_self, hin, hfront,
      List.append_nil]
    change Computes _
      ((G.atTarget D e cursor.ending cursor.late).holder (D.source e))
      ((G.atTarget D e cursor.ending cursor.late).holder (D.target e)) _
    rw [hbefore, hafter]
    exact hcomputes

theorem back_atTarget (hb : D.getBlock (D.target e) = some b)
    (hpred : D.getNumberPredEdges (D.target e) ≤ 1) {x : NodeId} {c : BlockId}
    (hx : x < D.numNodes) (hc : D.getBlock x = some c) :
    (F.beginCode b cursor c).back =
      (G.atTarget D e cursor.ending cursor.late).inBack x ++ G.outBack x := by
  have inv := site.invariant
  by_cases htarget : x = D.target e
  · subst htarget
    cases hb.symm.trans hc
    have fresh := inv.fresh _ site.target_lt (site.not_arrived hpred)
    have hback : (F.block b).back = [] := by
      rw [inv.back _ b site.target_lt hb, fresh.inBack, fresh.outBack]
      rfl
    simp [Ghost.atTarget, LlvmFunction.beginCode, hback, fresh.outBack]
  · have hne : c ≠ b := by
      rintro rfl
      exact htarget (inv.layout.block_injective _ _ _ hx site.target_lt hc hb)
    rw [LlvmFunction.beginCode_of_ne hne]
    simp only [Ghost.atTarget, Function.update_of_ne htarget]
    exact inv.back x c hx hc

theorem extension_atTarget (hb : D.getBlock (D.target e) = some b)
    (hsucc : 1 < D.getNumberSuccEdges (D.source e))
    (hpred : D.getNumberPredEdges (D.target e) ≤ 1)
    (hcomputes : Computes (cursor.code ++ cursor.late) (G.holder (D.source e))
      cursor.ending (D.traverse e))
    (hending : cursor.ending.isSome = G.live (D.target e))
    (hstarting : G.live (D.target e) = true → cursor.starting = cursor.ending ∨
      ∀ f ∈ D.succEdges (D.target e), D.IsPlain f) :
    Extension G (G.atTarget D e cursor.ending cursor.late) D F exitRoot e
      (D.cursorNumbers (D.target e) cursor) (F.beginCode b cursor) cursor.nextInst := by
  have inv := site.invariant
  have hnot := site.not_arrived hpred
  have hold : ∀ x, x ≠ D.target e ∨ G.arrived x → x ≠ D.target e := by
    rintro x (hx | hx) rfl
    · exact hx rfl
    · exact hnot hx
  have hother : ∀ c, D.getBlock (D.target e) ≠ some c → c ≠ b := by
    rintro c hc rfl
    exact hc hb
  have hafter : (G.atTarget D e cursor.ending cursor.late).holder (D.target e) =
      cursor.ending := Function.update_self ..
  exact
    { invariant := inv
      linked := site.linked
      ne := site.ne
      undone := site.undone
      source_arrived := site.source_arrived
      noncritical := .inr hpred
      live := rfl
      done := fun _ => Iff.rfl
      arrived := fun _ => Iff.rfl
      holder_old := fun x hx => Function.update_of_ne (hold x (.inr hx)) _ _
      holder_target := by rw [hafter]; exact hending
      phis := inv.phis.withCode _ fun _ => LlvmFunction.beginCode_pathPHI
      inBack_old := fun x hx => Function.update_of_ne (hold x hx) _ _
      front_old := fun c hc => by
        rw [LlvmFunction.beginCode_of_ne (hother c (hc.resolve_right hnot))]
        rfl
      outBack_old := fun _ _ => rfl
      back := fun x c hx hc => site.back_atTarget hb hpred hx hc
      phi_old := fun _ _ => LlvmFunction.beginCode_pathPHI
      phi_lookup := fun _ _ _ harrived => absurd harrived hnot
      nodePHI_old := fun _ _ => Dag.cursorNumbers_phi
      numbers_old := fun x _ hx => by
        rw [Dag.cursorNumbers_of_ne (hold x hx)]
        exact ⟨rfl, rfl⟩
      target_ending := fun _ => by
        rw [hafter]
        exact Dag.cursorNumbers_ending
      target_starting := fun _ hlive => by
        rw [hafter, Dag.cursorNumbers, Function.update_self]
        exact hstarting hlive
      join := fun _ _ hjoin => absurd hjoin (Nat.not_lt.mpr hpred)
      single := fun c hc _ => LlvmFunction.beginCode_pathPHI.trans
        ((inv.fresh _ site.target_lt hnot).block c hc).1
      correct := site.correct_atTarget hb hsucc hpred hcomputes }

theorem atTarget (hb : D.getBlock (D.target e) = some b)
    (hsucc : 1 < D.getNumberSuccEdges (D.source e))
    (hpred : D.getNumberPredEdges (D.target e) = 1) :
    ∃ numbers code nextInst G',
      Emission.instrumentTarget ⟨D, F⟩ e (D.source e) (D.target e) =
        .ok ⟨D.withNumbers numbers, F.withCode code nextInst⟩ ∧
      Extension G G' D F exitRoot e numbers code nextInst := by
  have hpred' : D.getNumberPredEdges (D.target e) ≤ 1 := Nat.le_of_eq hpred
  have inv := site.invariant
  have hheld := site.pathNumbers.ending
  obtain ⟨cursor, hcursor, hcomputes, hending, hsame⟩ :=
    site.marks.instrumentCursor_spec inv.paths
      ⟨D.endingPathNumber (D.source e), D.endingPathNumber (D.source e), F.nextInst, [], []⟩
      rfl rfl (by rw [hheld]; exact inv.holder_live _ site.source_arrived)
      (fun _ => .inl rfl) true
  have hcomputes' : Computes (cursor.code ++ cursor.late) (G.holder (D.source e))
      cursor.ending (D.traverse e) := by
    rw [← hheld]
    exact hcomputes
  refine ⟨_, _, _, _, site.instrumentTarget_eq hb hpred' hcursor,
    site.extension_atTarget hb hsucc hpred' hcomputes' hending fun hlive => ?_⟩
  -- after an initialization at the beginning no edge out of the target adds
  rcases hsame rfl rfl hlive with hequal | ⟨hcut, hinit⟩
  · exact .inl hequal
  · have hexit := inv.layout.target_ne_exit hsucc
      ((inv.layout.mem_succEdges _ e).mpr ⟨site.linked, rfl⟩)
    exact .inr (((site.marks.normal hcut).join hinit hexit).resolve_left
      (Nat.not_lt.mpr hpred'))

end EdgeSite

end RrWorkbench.PathLogging
