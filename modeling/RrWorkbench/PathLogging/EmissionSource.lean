import RrWorkbench.PathLogging.EmissionEdge

namespace RrWorkbench.PathLogging

/-! Instructions at the end of an unbranched source.  The register reaches the
target in the value that the source ends with, or through the PHI of the target. -/

def Ghost.atSource (G : Ghost) (D : Dag) (e : EdgeId) (holder : Option Value)
    (outBack : List Inst) : Ghost :=
  { G with
    arrived := fun x => G.arrived x ∨ x = D.target e
    done := fun f => G.done f ∨ f = e
    holder := Function.update G.holder (D.target e) holder
    outBack := Function.update G.outBack (D.source e) outBack }

/-- Without a PHI the register goes where the source leaves it; with one, the PHI
takes over what the source leaves. -/
def Handover (G : Ghost) (D D' : Dag) (F' : LlvmFunction) (e : EdgeId)
    (holder : Option Value) (outBack : List Inst) : Prop :=
  (incomingValue D' F' e = none ∧
    Computes outBack (G.holder (D.source e)) holder (D.traverse e)) ∨
  ∃ value b, incomingValue D' F' e = some (some value) ∧
    D.getBlock (D.target e) = some b ∧ holder = some (.phi b) ∧
    Computes outBack (G.holder (D.source e)) (some value) (D.traverse e)

structure AtSource (G : Ghost) (D : Dag) (F : LlvmFunction) (e : EdgeId)
    (source : BlockId) (holder : Option Value) (outBack : List Inst)
    (numbers : NodeId → Numbers) (code : BlockId → Code) (nextInst : Nat) :
    Prop where
  holder_old : G.arrived (D.target e) → holder = G.holder (D.target e)
  holder_live : holder.isSome = G.live (D.target e)
  phis : (F.withCode code nextInst).PhiOk
  front : ∀ b, (code b).front = (F.block b).front
  back : ∀ b, (code b).back =
    if b = source then (F.block b).back ++ outBack else (F.block b).back
  phi_old : ∀ b, D.getBlock (D.target e) ≠ some b →
    (code b).pathPHI = (F.block b).pathPHI
  phi_lookup : ∀ b p, D.getBlock (D.target e) = some b →
    G.arrived (D.target e) → D.getBlock (D.source e) ≠ some p →
    (code b).pathPHI.map (Incoming.lookup · p) =
      (F.block b).pathPHI.map (Incoming.lookup · p)
  nodePHI_old : ∀ x, x ≠ D.target e → (numbers x).phi = (D.node x).pathPHI
  numbers_old : ∀ x, x ≠ D.source e → x ≠ D.target e ∨ G.arrived x →
    (numbers x).starting = D.startingPathNumber x ∧
      (numbers x).ending = D.endingPathNumber x
  target_numbers : ¬ G.arrived (D.target e) →
    (numbers (D.target e)).starting = holder ∧
      (numbers (D.target e)).ending = holder
  live : ∀ b, D.getBlock (D.target e) = some b →
    1 < D.getNumberPredEdges (D.target e) → G.live (D.target e) = true →
    holder = some (.phi b) ∧ (code b).pathPHI.isSome ∧
      (numbers (D.target e)).phi = some b
  dead : ∀ b, D.getBlock (D.target e) = some b →
    1 < D.getNumberPredEdges (D.target e) → G.live (D.target e) = false →
    (code b).pathPHI = none ∧ (numbers (D.target e)).phi = none
  single : ∀ b, D.getBlock (D.target e) = some b →
    D.getNumberPredEdges (D.target e) ≤ 1 → (code b).pathPHI = none
  handover : Handover G D (D.withNumbers numbers) (F.withCode code nextInst) e
    holder outBack

theorem AtSource.holder_eq {G : Ghost} {D : Dag} {F : LlvmFunction} {e : EdgeId}
    {source : BlockId} {holder : Option Value} {outBack : List Inst}
    {numbers : NodeId → Numbers} {code : BlockId → Code} {nextInst : Nat}
    (at_ : AtSource G D F e source holder outBack numbers code nextInst) {x : NodeId}
    (hx : G.arrived x) : (G.atSource D e holder outBack).holder x = G.holder x := by
  by_cases htarget : x = D.target e
  · subst htarget
    exact (Function.update_self ..).trans (at_.holder_old hx)
  · exact Function.update_of_ne htarget _ _

namespace EdgeSite

variable {G : Ghost} {D : Dag} {F : LlvmFunction} {exitRoot e : EdgeId}
  (site : EdgeSite G D F exitRoot e)

include site

/-- A node that is about to be reached from the end of its predecessor has no
instructions of its own. -/
theorem inCode_target {b : BlockId} (hb : D.getBlock (D.target e) = some b) :
    (F.block b).front = [] ∧ G.inBack (D.target e) = [] := by
  have inv := site.invariant
  by_cases hjoin : 1 < D.getNumberPredEdges (D.target e)
  · have join := inv.join _ b site.target_lt hb hjoin
    exact ⟨join.front, join.inBack⟩
  · have fresh := inv.fresh _ site.target_lt
      (site.not_arrived (Nat.not_lt.mp hjoin))
    exact ⟨(fresh.block b hb).2, fresh.inBack⟩

variable {source : BlockId} {holder : Option Value} {outBack : List Inst}
  {numbers : NodeId → Numbers} {code : BlockId → Code} {nextInst : Nat}

theorem back_atSource (hsource : D.getBlock (D.source e) = some source)
    (at_ : AtSource G D F e source holder outBack numbers code nextInst) {x : NodeId}
    {b : BlockId} (hx : x < D.numNodes) (hb : D.getBlock x = some b) :
    (code b).back = G.inBack x ++ (G.atSource D e holder outBack).outBack x := by
  have inv := site.invariant
  have hformer := inv.back x b hx hb
  rw [at_.back b]
  by_cases hxs : x = D.source e
  · subst hxs
    cases hsource.symm.trans hb
    have hout : (G.atSource D e holder outBack).outBack (D.source e) = outBack :=
      Function.update_self ..
    rw [if_pos rfl, hformer, inv.outBack_undone e site.linked site.undone, hout,
      List.append_nil]
  · have hne : b ≠ source := by
      rintro rfl
      exact hxs (inv.layout.block_injective _ _ _ hx site.source_lt hb hsource)
    rw [if_neg hne, hformer]
    exact congrArg (_ ++ ·) (Function.update_of_ne hxs _ _).symm

theorem correct_atSource
    (at_ : AtSource G D F e source holder outBack numbers code nextInst) :
    ((G.atSource D e holder outBack).crossing (D.withNumbers numbers)
      (F.withCode code nextInst) e).Correct (D.traverse e) := by
  have hin : ((G.atSource D e holder outBack).crossing (D.withNumbers numbers)
      (F.withCode code nextInst) e).inCode = [] := by
    cases hb : D.getBlock (D.target e) with
    | some b =>
        obtain ⟨hfront, hinBack⟩ := site.inCode_target hb
        rw [crossing_inCode hb, at_.front b, hfront]
        exact hinBack
    | none => exact Ghost.inCode_none hb
  have hbefore := at_.holder_eq site.source_arrived
  have hafter : (G.atSource D e holder outBack).holder (D.target e) = holder :=
    Function.update_self ..
  have hout : (G.atSource D e holder outBack).outBack (D.source e) = outBack :=
    Function.update_self ..
  rcases at_.handover with ⟨hincoming, hcomputes⟩ |
    ⟨value, b, hincoming, hb, hholder, hcomputes⟩
  · refine Crossing.Correct.of_outCode hin hincoming ?_
    change Computes ((G.atSource D e holder outBack).outBack (D.source e))
      ((G.atSource D e holder outBack).holder (D.source e))
      ((G.atSource D e holder outBack).holder (D.target e)) _
    rw [hout, hbefore, hafter]
    exact hcomputes
  · refine Crossing.Correct.of_phi hin hincoming hb (hafter.trans hholder) ?_
    change Computes ((G.atSource D e holder outBack).outBack (D.source e))
      ((G.atSource D e holder outBack).holder (D.source e)) _ _
    rw [hout, hbefore]
    exact hcomputes

theorem extension_of_atSource
    (hsource : D.getBlock (D.source e) = some source)
    (hsucc : D.getNumberSuccEdges (D.source e) ≤ 1)
    (at_ : AtSource G D F e source holder outBack numbers code nextInst) :
    Extension G (G.atSource D e holder outBack) D F exitRoot e numbers code
      nextInst := by
  have inv := site.invariant
  have hbranch : ∀ x, x ≠ D.source e ∨ 1 < D.getNumberSuccEdges x →
      x ≠ D.source e := by
    rintro x (hx | hx) rfl
    · exact hx rfl
    · exact absurd hx (Nat.not_lt.mpr hsucc)
  have hafter : (G.atSource D e holder outBack).holder (D.target e) = holder :=
    Function.update_self ..
  refine
    { invariant := inv
      linked := site.linked
      ne := site.ne
      undone := site.undone
      source_arrived := site.source_arrived
      noncritical := .inl hsucc
      live := rfl
      done := fun _ => Iff.rfl
      arrived := fun _ => Iff.rfl
      holder_old := fun _ => at_.holder_eq
      holder_target := by rw [hafter]; exact at_.holder_live
      phis := at_.phis
      inBack_old := fun _ _ => rfl
      front_old := fun b _ => at_.front b
      outBack_old := fun x hx => Function.update_of_ne (hbranch x hx) _ _
      back := fun _ _ => site.back_atSource hsource at_
      phi_old := at_.phi_old
      phi_lookup := at_.phi_lookup
      nodePHI_old := at_.nodePHI_old
      numbers_old := fun x hx => at_.numbers_old x (hbranch x hx)
      target_ending := fun hnot => by
        rw [hafter]
        exact (at_.target_numbers hnot).2
      target_starting := fun hnot _ => by
        rw [hafter]
        exact .inl (at_.target_numbers hnot).1
      join := ?_
      single := at_.single
      correct := site.correct_atSource at_ }
  intro b hb hjoin
  have join := inv.join _ b site.target_lt hb hjoin
  refine ⟨(at_.front b).trans join.front, join.inBack, fun _ hlive => ?_,
    fun _ hdead => at_.dead b hb hjoin hdead⟩
  rw [hafter]
  exact at_.live b hb hjoin hlive

end EdgeSite

/-! What `instrumentEdge` stores at the end of the source. -/

def LlvmFunction.endCode (F : LlvmFunction) (b : BlockId) (insts : List Inst) :
    BlockId → Code :=
  Function.update F.code b
    ⟨(F.block b).pathPHI, (F.block b).front, (F.block b).back ++ insts⟩

section EndCode

variable {F : LlvmFunction} {b c : BlockId} {insts : List Inst}

theorem LlvmFunction.endCode_pathPHI :
    (F.endCode b insts c).pathPHI = (F.block c).pathPHI := by
  by_cases hc : c = b
  · subst hc
    simp [LlvmFunction.endCode]
  · simp [LlvmFunction.endCode, Function.update_of_ne hc, LlvmFunction.code]

theorem LlvmFunction.endCode_front :
    (F.endCode b insts c).front = (F.block c).front := by
  by_cases hc : c = b
  · subst hc
    simp [LlvmFunction.endCode]
  · simp [LlvmFunction.endCode, Function.update_of_ne hc, LlvmFunction.code]

theorem LlvmFunction.endCode_back :
    (F.endCode b insts c).back =
      if c = b then (F.block c).back ++ insts else (F.block c).back := by
  by_cases hc : c = b
  · subst hc
    simp [LlvmFunction.endCode]
  · simp [LlvmFunction.endCode, LlvmFunction.code, hc]

end EndCode

/-! Pushing a value into a PHI. -/

def phiCode (code : BlockId → Code) (b : BlockId)
    (entries : List (Value × BlockId)) : BlockId → Code :=
  Function.update code b { code b with pathPHI := some entries }

section Push

variable {D : Dag} {F : LlvmFunction} {numbers : NodeId → Numbers}
  {code : BlockId → Code} {nextInst : Nat} {x y : NodeId} {b source : BlockId}
  {entries removed : List (Value × BlockId)} {value : Value}

theorem withCode_phiCode :
    (F.withCode code nextInst).modifyBlock b
        (fun body => { body with pathPHI := some entries }) =
      F.withCode (phiCode code b entries) nextInst :=
  F.withCode_modifyBlock code nextInst b _
    { code b with pathPHI := some entries } rfl

theorem phiCode_phiCode (code : BlockId → Code) (b : BlockId)
    (first second : List (Value × BlockId)) :
    phiCode (phiCode code b first) b second = phiCode code b second := by
  simp [phiCode]

theorem phiCode_self : (phiCode code b entries b).pathPHI = some entries := by
  rw [phiCode, Function.update_self]

theorem phiCode_of_ne {c : BlockId} (hc : c ≠ b) : phiCode code b entries c = code c :=
  Function.update_of_ne hc _ _

theorem phiCode_front {c : BlockId} : (phiCode code b entries c).front = (code c).front := by
  by_cases hc : c = b
  · subst hc
    rw [phiCode, Function.update_self]
  · rw [phiCode_of_ne hc]

theorem phiCode_back {c : BlockId} : (phiCode code b entries c).back = (code c).back := by
  by_cases hc : c = b
  · subst hc
    rw [phiCode, Function.update_self]
  · rw [phiCode_of_ne hc]

theorem preparePHI_eq (hb : D.getBlock y = some b) :
    Emission.preparePHI ⟨D.withNumbers numbers, F.withCode code nextInst⟩ y =
      .ok ⟨D.withNumbers (Function.update numbers y
            ⟨some (.phi b), some (.phi b), some b⟩),
          F.withCode (phiCode code b ((F.predecessors b).map
            fun pred => (.const (createIncrementConstant (-1)), pred)))
            nextInst⟩ := by
  have hb' : (D.withNumbers numbers).getBlock y = some b := hb
  simp only [Emission.preparePHI, hb', orError_some, ok_bind]
  rw [withCode_phiCode]
  refine congrArg (fun dag => Except.ok (Emission.mk dag _)) ?_
  simp only [Dag.modifyNode, Dag.withNumbers]
  congr 1
  funext z
  by_cases hz : z = y
  · subst hz
    simp
  · simp [Function.update_of_ne hz]

theorem pushValueIntoPHI_eq (hphi : (numbers y).phi = some b)
    (hentries : (code b).pathPHI = some entries)
    (hsource : D.getBlock x = some source)
    (hremoved : Incoming.remove entries source = some removed)
    (hvalue : (numbers x).ending = some value) :
    Emission.pushValueIntoPHI ⟨D.withNumbers numbers, F.withCode code nextInst⟩
        y x =
      .ok ⟨D.withNumbers numbers,
        F.withCode (phiCode code b (removed ++ [(value, source)])) nextInst⟩ := by
  have hphi' : ((D.withNumbers numbers).node y).pathPHI = some b := hphi
  have hentries' : ((F.withCode code nextInst).block b).pathPHI = some entries :=
    hentries
  have hsource' : (D.withNumbers numbers).getBlock x = some source := hsource
  have hvalue' : (D.withNumbers numbers).endingPathNumber x = some value := hvalue
  simp only [Emission.pushValueIntoPHI, hphi', hentries', hsource', hvalue',
    hremoved, orError_some, ok_bind]
  rw [withCode_phiCode]

end Push

theorem LlvmFunction.PhiOk.withPhiCode {F : LlvmFunction} (phis : F.PhiOk)
    {b source : BlockId} {insts : List Inst} {entries : List (Value × BlockId)}
    (complete : F.Complete b entries) (nextInst : Nat) :
    (F.withCode (phiCode (F.endCode source insts) b entries) nextInst).PhiOk := by
  intro c hlt entries' hentries'
  change (phiCode (F.endCode source insts) b entries c).pathPHI = _ at hentries'
  by_cases hc : c = b
  · subst hc
    rw [phiCode_self, Option.some.injEq] at hentries'
    subst hentries'
    exact complete
  · rw [phiCode_of_ne hc, LlvmFunction.endCode_pathPHI] at hentries'
    exact phis c hlt entries' hentries'

/-- In the PHI of block `b`, with the incoming values `entries`, `value` takes the place
of what came from `source`.  The PHI is there from the first time on that the target is
reached. -/
structure PhiPush (G : Ghost) (D : Dag) (F : LlvmFunction) (e : EdgeId)
    (source b : BlockId) (value : Value) (cursor : Cursor)
    (entries removed : List (Value × BlockId)) (numbers : NodeId → Numbers) : Prop where
  complete : F.Complete b entries
  remove_eq : Incoming.remove entries source = some removed
  lookup : Incoming.lookup (removed ++ [(value, source)]) source = some value
  entries_old : G.arrived (D.target e) → (F.block b).pathPHI = some entries
  numbers_old : G.arrived (D.target e) →
    numbers = D.cursorNumbers (D.source e) cursor
  numbers_new : ¬ G.arrived (D.target e) →
    numbers = Function.update (D.cursorNumbers (D.source e) cursor) (D.target e)
      ⟨some (.phi b), some (.phi b), some b⟩

theorem PhiPush.numbers_eq {G : Ghost} {D : Dag} {F : LlvmFunction} {e : EdgeId}
    {source b : BlockId} {value : Value} {cursor : Cursor}
    {entries removed : List (Value × BlockId)} {numbers : NodeId → Numbers}
    (push : PhiPush G D F e source b value cursor entries removed numbers) {x : NodeId}
    (hx : x ≠ D.target e ∨ G.arrived x) :
    numbers x = D.cursorNumbers (D.source e) cursor x := by
  by_cases harrived : G.arrived (D.target e)
  · rw [push.numbers_old harrived]
  · have hne : x ≠ D.target e := by
      rintro rfl
      exact hx.elim (fun h => h rfl) harrived
    rw [push.numbers_new harrived, Function.update_of_ne hne]

namespace EdgeSite

variable {G : Ghost} {D : Dag} {F : LlvmFunction} {exitRoot e : EdgeId}
  (site : EdgeSite G D F exitRoot e)

include site

variable {source : BlockId} {cursor : Cursor} {insts : List Inst}

/-- The register is dead at the target: nothing is pushed. -/
theorem atSource_dead (hdead : G.live (D.target e) = false)
    (hcomputes : Computes insts (G.holder (D.source e)) none (D.traverse e)) :
    AtSource G D F e source none insts (D.cursorNumbers (D.source e) cursor)
      (F.endCode source insts) cursor.nextInst := by
  have inv := site.invariant
  have hnone : ∀ b, D.getBlock (D.target e) = some b →
      (F.block b).pathPHI = none := by
    intro b hb
    by_cases harrived : G.arrived (D.target e)
    · by_cases hjoin : 1 < D.getNumberPredEdges (D.target e)
      · exact ((inv.join _ b site.target_lt hb hjoin).dead harrived hdead).1
      · exact inv.single _ b site.target_lt hb (Nat.not_lt.mp hjoin)
    · exact ((inv.fresh _ site.target_lt harrived).block b hb).1
  refine
    { holder_old := ?_
      holder_live := hdead.symm
      phis := inv.phis.withCode _ fun _ => LlvmFunction.endCode_pathPHI
      front := fun _ => LlvmFunction.endCode_front
      back := fun _ => LlvmFunction.endCode_back
      phi_old := fun _ _ => LlvmFunction.endCode_pathPHI
      phi_lookup := fun b p _ _ _ => by rw [LlvmFunction.endCode_pathPHI]
      nodePHI_old := fun _ _ => Dag.cursorNumbers_phi
      numbers_old := fun x hx _ => by
        rw [Dag.cursorNumbers_of_ne hx]
        exact ⟨rfl, rfl⟩
      target_numbers := ?_
      live := fun _ _ _ hlive => by simp [hdead] at hlive
      dead := ?_
      single := fun b hb _ => LlvmFunction.endCode_pathPHI.trans (hnone b hb)
      handover := .inl ⟨incomingValue_none fun b hb =>
        LlvmFunction.endCode_pathPHI.trans (hnone b hb), hcomputes⟩ }
  · intro harrived
    have hsome := inv.holder_live _ harrived
    rw [hdead] at hsome
    exact (Option.not_isSome_iff_eq_none.mp (by simp [hsome])).symm
  · intro hnot
    have fresh := inv.fresh _ site.target_lt hnot
    rw [Dag.cursorNumbers_of_ne (site.target_ne_source hnot)]
    exact ⟨fresh.starting, fresh.ending⟩
  · intro b hb hjoin _
    refine ⟨LlvmFunction.endCode_pathPHI.trans (hnone b hb),
      Dag.cursorNumbers_phi.trans ?_⟩
    by_cases harrived : G.arrived (D.target e)
    · exact ((inv.join _ b site.target_lt hb hjoin).dead harrived hdead).2
    · exact (inv.fresh _ site.target_lt harrived).nodePHI

/-- Only `e` enters the target, which takes the value of the source. -/
theorem atSource_single (hpred : D.getNumberPredEdges (D.target e) ≤ 1)
    {value : Value} (hlive : G.live (D.target e) = true)
    (hcomputes : Computes insts (G.holder (D.source e)) (some value)
      (D.traverse e)) :
    AtSource G D F e source (some value) insts
      (Function.update (D.cursorNumbers (D.source e) cursor) (D.target e)
        ⟨some value, some value, (D.node (D.target e)).pathPHI⟩)
      (F.endCode source insts) cursor.nextInst := by
  have inv := site.invariant
  have hnot := site.not_arrived hpred
  have hnone : ∀ b, D.getBlock (D.target e) = some b →
      (F.endCode source insts b).pathPHI = none := fun b hb =>
    LlvmFunction.endCode_pathPHI.trans
      ((inv.fresh _ site.target_lt hnot).block b hb).1
  refine
    { holder_old := fun harrived => absurd harrived hnot
      holder_live := hlive.symm
      phis := inv.phis.withCode _ fun _ => LlvmFunction.endCode_pathPHI
      front := fun _ => LlvmFunction.endCode_front
      back := fun _ => LlvmFunction.endCode_back
      phi_old := fun _ _ => LlvmFunction.endCode_pathPHI
      phi_lookup := fun b p _ _ _ => by rw [LlvmFunction.endCode_pathPHI]
      nodePHI_old := fun x hx => by
        rw [Function.update_of_ne hx]
        exact Dag.cursorNumbers_phi
      numbers_old := ?_
      target_numbers := fun _ => by
        rw [Function.update_self]
        exact ⟨rfl, rfl⟩
      live := fun _ _ hjoin => absurd hjoin (Nat.not_lt.mpr hpred)
      dead := fun _ _ hjoin => absurd hjoin (Nat.not_lt.mpr hpred)
      single := fun b hb _ => hnone b hb
      handover := .inl ⟨incomingValue_none hnone, hcomputes⟩ }
  intro x hx htarget
  have hne : x ≠ D.target e := by
    rintro rfl
    rcases htarget with htarget | htarget
    · exact htarget rfl
    · exact hnot htarget
  rw [Function.update_of_ne hne, Dag.cursorNumbers_of_ne hx]
  exact ⟨rfl, rfl⟩

variable (insts)

/-- Several edges enter the target: its PHI takes the value of the source. -/
theorem atSource_join (hsource : D.getBlock (D.source e) = some source)
    {b : BlockId} (hb : D.getBlock (D.target e) = some b)
    (hjoin : 1 < D.getNumberPredEdges (D.target e)) {value : Value}
    {entries removed : List (Value × BlockId)} {numbers : NodeId → Numbers}
    (hlive : G.live (D.target e) = true)
    (push : PhiPush G D F e source b value cursor entries removed numbers)
    (hcomputes : Computes insts (G.holder (D.source e)) (some value)
      (D.traverse e)) :
    AtSource G D F e source (some (.phi b)) insts numbers
      (phiCode (F.endCode source insts) b (removed ++ [(value, source)]))
      cursor.nextInst := by
  have inv := site.invariant
  have join := inv.join _ b site.target_lt hb hjoin
  refine
    { holder_old := fun harrived => (join.live harrived hlive).1.symm
      holder_live := hlive.symm
      phis := inv.phis.withPhiCode (push.complete.replace push.remove_eq value) _
      front := fun _ => phiCode_front.trans LlvmFunction.endCode_front
      back := fun _ => phiCode_back.trans LlvmFunction.endCode_back
      phi_old := ?_
      phi_lookup := ?_
      nodePHI_old := fun x hx => by
        rw [push.numbers_eq (.inl hx)]
        exact Dag.cursorNumbers_phi
      numbers_old := fun x hx hold => by
        rw [push.numbers_eq hold, Dag.cursorNumbers_of_ne hx]
        exact ⟨rfl, rfl⟩
      target_numbers := fun hnot => by
        rw [push.numbers_new hnot, Function.update_self]
        exact ⟨rfl, rfl⟩
      live := ?_
      dead := fun _ _ _ hdead => by simp [hlive] at hdead
      single := fun _ _ hpred => absurd hjoin (Nat.not_lt.mpr hpred)
      handover := .inr ⟨value, b, ?_, hb, rfl, hcomputes⟩ }
  · intro c hc
    have hne : c ≠ b := by
      rintro rfl
      exact hc hb
    rw [phiCode_of_ne hne]
    exact LlvmFunction.endCode_pathPHI
  · intro c p hc harrived hp
    cases hb.symm.trans hc
    have hne : p ≠ source := by
      rintro rfl
      exact hp hsource
    rw [phiCode_self, push.entries_old harrived, Option.map_some, Option.map_some,
      Incoming.lookup_append_of_ne hne, Incoming.lookup_remove_of_ne push.remove_eq hne]
  · intro c hc _ _
    cases hb.symm.trans hc
    refine ⟨rfl, by rw [phiCode_self]; rfl, ?_⟩
    by_cases harrived : G.arrived (D.target e)
    · rw [push.numbers_old harrived, Dag.cursorNumbers_phi]
      exact (join.live harrived hlive).2.2
    · rw [push.numbers_new harrived, Function.update_self]
  · have hvalue : incomingValue (D.withNumbers numbers) (F.withCode (phiCode
        (F.endCode source insts) b (removed ++ [(value, source)]))
        cursor.nextInst) e = (phiCode (F.endCode source insts) b
          (removed ++ [(value, source)]) b).pathPHI.map
            (Incoming.lookup · source) :=
      incomingValue_eq hsource hb
    rw [hvalue, phiCode_self, Option.map_some, push.lookup]

theorem count_successors (hsource : D.getBlock (D.source e) = some source)
    {b : BlockId} (hb : D.getBlock (D.target e) = some b)
    (hsucc : D.getNumberSuccEdges (D.source e) ≤ 1) :
    (F.successors source).count b = 1 := by
  have layout := site.invariant.layout
  refine Nat.le_antisymm ?_ (layout.count_successors_pos site.linked hsource hb)
  calc (F.successors source).count b
      ≤ (F.successors source).length := List.count_le_length
    _ ≤ (D.succEdges (D.source e)).length := by
        rw [layout.successors _ _ site.source_lt hsource]
        exact List.length_filterMap_le ..
    _ ≤ 1 := hsucc

theorem pushValueIntoNode_join (hsource : D.getBlock (D.source e) = some source)
    {b : BlockId} (hb : D.getBlock (D.target e) = some b)
    (hsucc : D.getNumberSuccEdges (D.source e) ≤ 1)
    (hjoin : 1 < D.getNumberPredEdges (D.target e))
    (hlive : G.live (D.target e) = true) {value : Value}
    (hvalue : cursor.ending = some value) :
    ∃ entries removed numbers,
      PhiPush G D F e source b value cursor entries removed numbers ∧
      Emission.pushValueIntoNode
          ⟨D.withNumbers (D.cursorNumbers (D.source e) cursor),
            F.withCode (F.endCode source insts) cursor.nextInst⟩
          (D.source e) (D.target e) =
        .ok ⟨D.withNumbers numbers,
          F.withCode (phiCode (F.endCode source insts) b
            (removed ++ [(value, source)])) cursor.nextInst⟩ := by
  have inv := site.invariant
  have hlt := inv.layout.block_lt site.source_lt hsource
  have hcount := site.count_successors hsource hb hsucc
  have hending : (D.cursorNumbers (D.source e) cursor (D.source e)).ending =
      some value := Dag.cursorNumbers_ending.trans hvalue
  have hb' : (D.withNumbers (D.cursorNumbers (D.source e) cursor)).getBlock
      (D.target e) = some b := hb
  have hpred' : ¬ (D.withNumbers (D.cursorNumbers (D.source e)
      cursor)).getNumberPredEdges (D.target e) ≤ 1 := Nat.not_le.mpr hjoin
  simp only [Emission.pushValueIntoNode, hb', hpred', reduceCtorEq, if_false]
  by_cases harrived : G.arrived (D.target e)
  · have join := inv.join _ b site.target_lt hb hjoin
    obtain ⟨_, hsome, hnode⟩ := join.live harrived hlive
    obtain ⟨entries, hentries⟩ := Option.isSome_iff_exists.mp hsome
    have complete := inv.phis b (inv.layout.block_lt site.target_lt hb) entries
      hentries
    obtain ⟨removed, hremoved, hlookup⟩ :=
      complete.exists_replace hlt hcount value
    refine ⟨entries, removed, _, ⟨complete, hremoved, hlookup, fun _ => hentries,
      fun _ => rfl, fun hnot => absurd harrived hnot⟩, ?_⟩
    have hphi : (D.cursorNumbers (D.source e) cursor (D.target e)).phi = some b :=
      Dag.cursorNumbers_phi.trans hnode
    have hphi' : ((D.withNumbers (D.cursorNumbers (D.source e) cursor)).node
        (D.target e)).pathPHI ≠ none := by
      rw [show ((D.withNumbers (D.cursorNumbers (D.source e) cursor)).node
        (D.target e)).pathPHI = some b from hphi]
      exact Option.some_ne_none b
    rw [if_neg hphi', ok_bind]
    exact pushValueIntoPHI_eq hphi
      (LlvmFunction.endCode_pathPHI.trans hentries) hsource hremoved hending
  · have fresh := inv.fresh _ site.target_lt harrived
    have hphi : ((D.withNumbers (D.cursorNumbers (D.source e) cursor)).node
        (D.target e)).pathPHI = none :=
      (Dag.cursorNumbers_phi (D := D) (x := D.source e)).trans fresh.nodePHI
    have complete := F.complete_predecessors b
      (.const (createIncrementConstant (-1)))
    obtain ⟨removed, hremoved, hlookup⟩ :=
      complete.exists_replace hlt hcount value
    refine ⟨_, removed, _, ⟨complete, hremoved, hlookup,
      fun h => absurd h harrived, fun h => absurd h harrived, fun _ => rfl⟩, ?_⟩
    rw [if_pos hphi, preparePHI_eq hb, ok_bind,
      pushValueIntoPHI_eq (b := b) _ _ hsource hremoved, phiCode_phiCode]
    · rw [Function.update_of_ne (site.target_ne_source harrived).symm]
      exact hending
    · rw [Function.update_self]
    · simp [phiCode]

theorem pushValueIntoNode_single {b : BlockId}
    (hb : D.getBlock (D.target e) = some b)
    (hpred : D.getNumberPredEdges (D.target e) ≤ 1) {value : Value}
    (hvalue : cursor.ending = some value) (func : LlvmFunction) :
    Emission.pushValueIntoNode
        ⟨D.withNumbers (D.cursorNumbers (D.source e) cursor), func⟩
        (D.source e) (D.target e) =
      .ok ⟨D.withNumbers (Function.update (D.cursorNumbers (D.source e) cursor)
          (D.target e)
          ⟨some value, some value, (D.node (D.target e)).pathPHI⟩), func⟩ := by
  have hnot := site.not_arrived hpred
  have fresh := site.invariant.fresh _ site.target_lt hnot
  have hb' : (D.withNumbers (D.cursorNumbers (D.source e) cursor)).getBlock
      (D.target e) = some b := hb
  have hpred' : (D.withNumbers (D.cursorNumbers (D.source e)
      cursor)).getNumberPredEdges (D.target e) ≤ 1 := hpred
  have hstarting : (D.withNumbers (D.cursorNumbers (D.source e)
      cursor)).startingPathNumber (D.target e) = none := by
    refine (congrArg Numbers.starting
      (Dag.cursorNumbers_of_ne (site.target_ne_source hnot))).trans ?_
    exact fresh.starting
  have hending : (D.withNumbers (D.cursorNumbers (D.source e)
      cursor)).endingPathNumber (D.source e) = some value :=
    Dag.cursorNumbers_ending.trans hvalue
  simp only [Emission.pushValueIntoNode, hb', hpred', hstarting, hending,
    reduceCtorEq, if_false, if_true, ne_eq, not_true_eq_false]
  rw [Dag.withNumbers_setPathNumbers, Dag.cursorNumbers_phi]

theorem atSource (hsource : D.getBlock (D.source e) = some source)
    (hsucc : D.getNumberSuccEdges (D.source e) ≤ 1) :
    ∃ numbers code nextInst G',
      Emission.instrumentSource ⟨D, F⟩ e (D.source e) (D.target e) =
        .ok ⟨D.withNumbers numbers, F.withCode code nextInst⟩ ∧
      Extension G G' D F exitRoot e numbers code nextInst := by
  have inv := site.invariant
  have numbers := site.pathNumbers
  obtain ⟨result, hresult, hcomputes, hsome, _⟩ :=
    site.marks.instrumentCursor_spec inv.paths
      (Emission.cursorAt ⟨D, F⟩ (D.source e)) rfl rfl
      ((congrArg Option.isSome numbers.ending).trans
        (inv.holder_live _ site.source_arrived))
      (fun hlive => (numbers.starting hlive).imp
        (fun h => h.trans numbers.ending.symm) id) false
  have hedge : Emission.instrumentEdge ⟨D, F⟩ e (D.source e) false =
      .ok ⟨D.withNumbers (D.cursorNumbers (D.source e) result),
        F.withCode (F.endCode source (result.code ++ result.late))
          result.nextInst⟩ := by
    rw [instrumentEdge_eq source result hsource hresult, insertAt_end]
    rfl
  have hending : (D.withNumbers (D.cursorNumbers (D.source e)
      result)).endingPathNumber (D.source e) = result.ending :=
    Dag.cursorNumbers_ending
  have hcomputes' : Computes (result.code ++ result.late)
      (G.holder (D.source e)) result.ending (D.traverse e) := by
    rw [← numbers.ending]
    exact hcomputes
  rw [Emission.instrumentSource, hedge, ok_bind]
  simp only [hending]
  cases hvalue : result.ending with
  | none =>
      rw [hvalue] at hsome hcomputes'
      have at_ : AtSource G D F e source none (result.code ++ result.late)
          (D.cursorNumbers (D.source e) result)
          (F.endCode source (result.code ++ result.late)) result.nextInst :=
        site.atSource_dead hsome.symm hcomputes'
      exact ⟨_, _, _, _, rfl, site.extension_of_atSource hsource hsucc at_⟩
  | some value =>
      rw [hvalue] at hsome hcomputes'
      have hlive : G.live (D.target e) = true := hsome.symm
      have hexit : D.target e ≠ D.exit := by
        intro hexit
        rw [hexit, inv.exit_dead] at hlive
        contradiction
      obtain ⟨b, _, hb⟩ := inv.layout.block_target site.linked hexit
      rw [if_pos (Option.some_ne_none value)]
      by_cases hjoin : 1 < D.getNumberPredEdges (D.target e)
      · obtain ⟨entries, removed, numbers', push, hpush⟩ := site.pushValueIntoNode_join
          (result.code ++ result.late) hsource hb hsucc hjoin hlive hvalue
        have at_ := site.atSource_join _ hsource hb hjoin hlive push hcomputes'
        exact ⟨_, _, _, _, hpush,
          site.extension_of_atSource hsource hsucc at_⟩
      · have hpred := Nat.not_lt.mp hjoin
        have at_ : AtSource G D F e source (some value)
            (result.code ++ result.late)
            (Function.update (D.cursorNumbers (D.source e) result) (D.target e)
              ⟨some value, some value, (D.node (D.target e)).pathPHI⟩)
            (F.endCode source (result.code ++ result.late)) result.nextInst :=
          site.atSource_single hpred hlive hcomputes'
        exact ⟨_, _, _, _, site.pushValueIntoNode_single hb hpred hvalue _,
          site.extension_of_atSource hsource hsucc at_⟩

end EdgeSite

end RrWorkbench.PathLogging
