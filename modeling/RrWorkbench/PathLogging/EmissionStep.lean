import RrWorkbench.PathLogging.EmissionInvariant

namespace RrWorkbench.PathLogging

/-! One edge is instrumented: what the emission changes, seen as new path numbers
of nodes and new instructions of blocks, keeps the invariant. -/

structure Numbers where
  starting : Option Value
  ending : Option Value
  phi : Option BlockId

structure Code where
  pathPHI : Option (List (Value × BlockId))
  front : List Inst
  back : List Inst

def Dag.numbers (D : Dag) (x : NodeId) : Numbers where
  starting := (D.node x).startingPathNumber
  ending := (D.node x).endingPathNumber
  phi := (D.node x).pathPHI

def Dag.withNumbers (D : Dag) (numbers : NodeId → Numbers) : Dag :=
  { D with
    node := fun x =>
      { D.node x with
        startingPathNumber := (numbers x).starting
        endingPathNumber := (numbers x).ending
        pathPHI := (numbers x).phi } }

def LlvmFunction.code (F : LlvmFunction) (b : BlockId) : Code where
  pathPHI := (F.block b).pathPHI
  front := (F.block b).front
  back := (F.block b).back

def LlvmFunction.withCode (F : LlvmFunction) (code : BlockId → Code)
    (nextInst : Nat) : LlvmFunction :=
  { F with
    block := fun b =>
      { F.block b with
        pathPHI := (code b).pathPHI
        front := (code b).front
        back := (code b).back }
    nextInst := nextInst }

@[simp] theorem Dag.withNumbers_self (D : Dag) : D.withNumbers D.numbers = D := rfl

@[simp] theorem LlvmFunction.withCode_self (F : LlvmFunction) :
    F.withCode F.code F.nextInst = F := rfl

theorem crossing_inCode {G : Ghost} {D : Dag} {F : LlvmFunction} {e : EdgeId}
    {numbers : NodeId → Numbers} {code : BlockId → Code} {nextInst : Nat}
    {b : BlockId} (hb : D.getBlock (D.target e) = some b) :
    (G.crossing (D.withNumbers numbers) (F.withCode code nextInst) e).inCode =
      (code b).front ++ G.inBack (D.target e) := by
  have hb' : (D.withNumbers numbers).getBlock (D.target e) = some b := hb
  exact Ghost.inCode_eq hb'

structure Extension (G G' : Ghost) (D : Dag) (F : LlvmFunction)
    (exitRoot e : EdgeId) (numbers : NodeId → Numbers) (code : BlockId → Code)
    (nextInst : Nat) : Prop where
  invariant : EmissionInvariant G D F exitRoot
  linked : D.Linked e
  ne : e ≠ exitRoot
  undone : ¬ G.done e
  source_arrived : G.arrived (D.source e)
  noncritical : D.Noncritical e
  live : G'.live = G.live
  done : ∀ f, G'.done f ↔ G.done f ∨ f = e
  arrived : ∀ x, G'.arrived x ↔ G.arrived x ∨ x = D.target e
  holder_old : ∀ x, G.arrived x → G'.holder x = G.holder x
  holder_target : (G'.holder (D.target e)).isSome = G.live (D.target e)
  phis : (F.withCode code nextInst).PhiOk
  inBack_old : ∀ x, x ≠ D.target e ∨ G.arrived x → G'.inBack x = G.inBack x
  front_old : ∀ b, D.getBlock (D.target e) ≠ some b ∨ G.arrived (D.target e) →
    (code b).front = (F.block b).front
  outBack_old : ∀ x, x ≠ D.source e ∨ 1 < D.getNumberSuccEdges x →
    G'.outBack x = G.outBack x
  back : ∀ x b, x < D.numNodes → D.getBlock x = some b →
    (code b).back = G'.inBack x ++ G'.outBack x
  phi_old : ∀ b, D.getBlock (D.target e) ≠ some b →
    (code b).pathPHI = (F.block b).pathPHI
  phi_lookup : ∀ b p, D.getBlock (D.target e) = some b →
    G.arrived (D.target e) → D.getBlock (D.source e) ≠ some p →
    (code b).pathPHI.map (Incoming.lookup · p) =
      (F.block b).pathPHI.map (Incoming.lookup · p)
  nodePHI_old : ∀ x, x ≠ D.target e → (numbers x).phi = (D.node x).pathPHI
  numbers_old : ∀ x, x ≠ D.source e ∨ 1 < D.getNumberSuccEdges x →
    x ≠ D.target e ∨ G.arrived x →
    (numbers x).starting = D.startingPathNumber x ∧
      (numbers x).ending = D.endingPathNumber x
  target_ending : ¬ G.arrived (D.target e) →
    (numbers (D.target e)).ending = G'.holder (D.target e)
  target_starting : ¬ G.arrived (D.target e) → G.live (D.target e) = true →
    (numbers (D.target e)).starting = G'.holder (D.target e) ∨
      ∀ f ∈ D.succEdges (D.target e), D.IsPlain f
  join : ∀ b, D.getBlock (D.target e) = some b →
    1 < D.getNumberPredEdges (D.target e) →
    JoinNode G' (D.withNumbers numbers) (F.withCode code nextInst)
      (D.target e) b
  single : ∀ b, D.getBlock (D.target e) = some b →
    D.getNumberPredEdges (D.target e) ≤ 1 → (code b).pathPHI = none
  correct : (G'.crossing (D.withNumbers numbers) (F.withCode code nextInst)
    e).Correct (D.traverse e)

namespace Extension

variable {G G' : Ghost} {D : Dag} {F : LlvmFunction} {exitRoot e : EdgeId}
  {numbers : NodeId → Numbers} {code : BlockId → Code} {nextInst : Nat}
  (extension : Extension G G' D F exitRoot e numbers code nextInst)

include extension

theorem source_lt : D.source e < D.numNodes :=
  extension.invariant.layout.source_lt e extension.linked

theorem target_lt : D.target e < D.numNodes :=
  extension.invariant.layout.target_lt e extension.linked

theorem branch_of_source {f : EdgeId} (hf : D.Linked f) (hne : f ≠ e)
    (hsource : D.source f = D.source e) :
    1 < D.getNumberSuccEdges (D.source e) := by
  have layout := extension.invariant.layout
  exact Dag.two_le_length_of_mem
    ((layout.mem_succEdges _ f).mpr ⟨hf, hsource⟩)
    ((layout.mem_succEdges _ e).mpr ⟨extension.linked, rfl⟩) hne

theorem source_cases {f : EdgeId} (hf : D.Linked f) (hne : f ≠ e) :
    D.source f ≠ D.source e ∨ 1 < D.getNumberSuccEdges (D.source f) := by
  by_cases hsource : D.source f = D.source e
  · right
    rw [hsource]
    exact extension.branch_of_source hf hne hsource
  · exact .inl hsource

/-- An unbranched source of `e` has no other edge, so no other instrumented edge
starts there. -/
theorem outBack_source {f : EdgeId} (hf : D.Linked f) (hne : f ≠ e) :
    G'.outBack (D.source f) = G.outBack (D.source f) :=
  extension.outBack_old _ (extension.source_cases hf hne)

theorem ne_of_done {f : EdgeId} (hf : G.done f) : f ≠ e := by
  rintro rfl
  exact extension.undone hf

theorem layout :
    Layout (D.withNumbers numbers) (F.withCode code nextInst) exitRoot :=
  { extension.invariant.layout with }

theorem marks {f : EdgeId} (hf : D.Linked f) (hne : f ≠ exitRoot) :
    EdgeMarks G'.live (D.withNumbers numbers) f := by
  rw [extension.live]
  have marks := extension.invariant.marks f hf hne
  exact ⟨fun h => { marks.normal h with
      join := fun hinit hexit => ((marks.normal h).join hinit hexit).imp id
        fun hplain g hg => { hplain g hg with } },
    fun h => by
      obtain ⟨top, bottom, cut⟩ := marks.cut h
      exact ⟨top, bottom, { cut with }⟩⟩

theorem block_ne {x : NodeId} {b : BlockId} (hx : x < D.numNodes)
    (hne : x ≠ D.target e) (hb : D.getBlock x = some b) :
    D.getBlock (D.target e) ≠ some b := by
  intro htarget
  exact hne (extension.invariant.layout.block_injective _ _ _ hx
    extension.target_lt hb htarget)

theorem fresh {x : NodeId} (hx : x < D.numNodes) (hnot : ¬ G'.arrived x) :
    FreshNode G' (D.withNumbers numbers) (F.withCode code nextInst) x := by
  rw [extension.arrived, not_or] at hnot
  obtain ⟨hnot, htarget⟩ := hnot
  have hsource : x ≠ D.source e := by
    rintro rfl
    exact hnot extension.source_arrived
  have fresh := extension.invariant.fresh x hx hnot
  obtain ⟨hstarting, hending⟩ :=
    extension.numbers_old x (.inl hsource) (.inl htarget)
  refine ⟨hstarting.trans fresh.starting, hending.trans fresh.ending,
    (extension.nodePHI_old x htarget).trans fresh.nodePHI,
    (extension.inBack_old x (.inl htarget)).trans fresh.inBack,
    (extension.outBack_old x (.inl hsource)).trans fresh.outBack, ?_⟩
  intro b hb
  have hblock := extension.block_ne hx htarget hb
  obtain ⟨hphi, hfront⟩ := fresh.block b hb
  exact ⟨(extension.phi_old b hblock).trans hphi,
    (extension.front_old b (.inl hblock)).trans hfront⟩

theorem join_node {x : NodeId} {b : BlockId} (hx : x < D.numNodes)
    (hb : D.getBlock x = some b) (hpred : 1 < D.getNumberPredEdges x) :
    JoinNode G' (D.withNumbers numbers) (F.withCode code nextInst) x b := by
  by_cases htarget : x = D.target e
  · subst htarget
    exact extension.join b hb hpred
  · have join := extension.invariant.join x b hx hb hpred
    have hblock := extension.block_ne hx htarget hb
    have hphi := extension.phi_old b hblock
    have hnode := extension.nodePHI_old x htarget
    have harrived : G'.arrived x → G.arrived x := by
      intro h
      exact ((extension.arrived x).mp h).resolve_right htarget
    refine ⟨(extension.front_old b (.inl hblock)).trans join.front,
      (extension.inBack_old x (.inl htarget)).trans join.inBack, ?_, ?_⟩
    · intro h hlive
      rw [extension.live] at hlive
      obtain ⟨hholder, hsome, hnode'⟩ := join.live (harrived h) hlive
      refine ⟨(extension.holder_old x (harrived h)).trans hholder, ?_,
        hnode.trans hnode'⟩
      exact (congrArg Option.isSome hphi).trans hsome
    · intro h hdead
      rw [extension.live] at hdead
      obtain ⟨hnone, hnode'⟩ := join.dead (harrived h) hdead
      exact ⟨hphi.trans hnone, hnode.trans hnode'⟩

theorem pathNumbers {f : EdgeId} (hf : D.Linked f) (hundone : ¬ G'.done f)
    (harrived : G'.arrived (D.source f)) :
    PathNumbers G' (D.withNumbers numbers) f := by
  rw [extension.done, not_or] at hundone
  obtain ⟨hundone, hfe⟩ := hundone
  by_cases hold : G.arrived (D.source f)
  · obtain ⟨hstarting, hending⟩ := extension.numbers_old (D.source f)
      (extension.source_cases hf hfe) (.inr hold)
    have numbers' := extension.invariant.pathNumbers f hf hundone hold
    have hholder := extension.holder_old (D.source f) hold
    refine ⟨(hending.trans numbers'.ending).trans hholder.symm, ?_⟩
    intro hlive
    rw [extension.live] at hlive
    rcases numbers'.starting hlive with hsame | plain
    · exact .inl ((hstarting.trans hsame).trans hholder.symm)
    · exact .inr { plain with }
  · have hsource : D.source f = D.target e :=
      ((extension.arrived _).mp harrived).resolve_left hold
    rw [hsource] at hold
    refine ⟨?_, ?_⟩
    · have hending := extension.target_ending hold
      rw [← hsource] at hending
      exact hending
    · intro hlive
      rw [extension.live] at hlive
      have hlive' : G.live (D.target e) = true := hsource ▸ hlive
      rcases extension.target_starting hold hlive' with hsame | hplain
      · rw [← hsource] at hsame
        exact .inl hsame
      · refine .inr { hplain f ?_ with }
        exact (extension.invariant.layout.mem_succEdges _ f).mpr ⟨hf, hsource⟩

theorem incomingValue_old {f : EdgeId} (hf : D.Linked f) (hne : f ≠ e)
    (harrived : G.arrived (D.target f)) (noncritical : D.Noncritical f) :
    incomingValue (D.withNumbers numbers) (F.withCode code nextInst) f =
      incomingValue D F f := by
  have layout := extension.invariant.layout
  have hblock : (D.withNumbers numbers).getBlock ((D.withNumbers numbers).source f) =
      D.getBlock (D.source f) := rfl
  have hblock' : (D.withNumbers numbers).getBlock ((D.withNumbers numbers).target f) =
      D.getBlock (D.target f) := rfl
  cases hs : D.getBlock (D.source f) with
  | none => rw [incomingValue, incomingValue, hblock, hs]
  | some s =>
      cases ht : D.getBlock (D.target f) with
      | none => rw [incomingValue, incomingValue, hblock, hblock', hs, ht]
      | some t =>
          rw [incomingValue_eq hs ht, incomingValue_eq (hblock.trans hs) (hblock'.trans ht)]
          by_cases htarget : D.target f = D.target e
          · refine extension.phi_lookup t s (htarget ▸ ht)
              (htarget ▸ harrived) ?_
            intro hsource
            have hsame := layout.block_injective _ _ _ (layout.source_lt f hf)
              extension.source_lt hs hsource
            -- two parallel edges are critical
            have hsucc := extension.branch_of_source hf hne hsame
            rcases noncritical with h | h
            · rw [hsame] at h
              exact absurd hsucc (Nat.not_lt.mpr h)
            · have hpred := Dag.two_le_length_of_mem
                ((layout.mem_predEdges _ f).mpr ⟨hf, rfl⟩)
                ((layout.mem_predEdges _ e).mpr
                  ⟨extension.linked, htarget.symm⟩) hne
              exact absurd hpred (Nat.not_lt.mpr h)
          · exact congrArg (Option.map _) (extension.phi_old t
              (extension.block_ne (layout.target_lt f hf) htarget ht))

theorem inCode_old {x : NodeId} (hx : G.arrived x) :
    G'.inCode (D.withNumbers numbers) (F.withCode code nextInst) x =
      G.inCode D F x := by
  have hblock : (D.withNumbers numbers).getBlock x = D.getBlock x := rfl
  cases hb : D.getBlock x with
  | none => rw [Ghost.inCode_none hb, Ghost.inCode_none (hblock.trans hb)]
  | some b =>
      rw [Ghost.inCode_eq hb, Ghost.inCode_eq (hblock.trans hb)]
      refine congrArg₂ (· ++ ·) (extension.front_old b ?_)
        (extension.inBack_old x (.inr hx))
      by_cases htarget : x = D.target e
      · exact .inr (htarget ▸ hx)
      · exact .inl (extension.block_ne (extension.invariant.arrived_lt x hx)
          htarget hb)

theorem coded_old {f : EdgeId} (hdone : G.done f) (coded : Coded G D F f) :
    Coded G' (D.withNumbers numbers) (F.withCode code nextInst) f := by
  have hf := extension.invariant.done_linked f hdone
  have hne := extension.ne_of_done hdone
  have hs := coded.source_arrived
  have ht := coded.target_arrived
  refine ⟨coded.noncritical, (extension.arrived _).mpr (.inl hs),
    (extension.arrived _).mpr (.inl ht), ?_⟩
  have hcrossing : G'.crossing (D.withNumbers numbers)
      (F.withCode code nextInst) f = G.crossing D F f := by
    have hincoming :=
      extension.incomingValue_old hf hne ht coded.noncritical
    unfold Ghost.crossing
    rw [hincoming]
    congr 1
    · exact extension.holder_old _ hs
    · exact extension.outBack_source hf hne
    · exact extension.inCode_old ht
    · exact extension.holder_old _ ht
  rw [hcrossing]
  exact coded.correct

/-- Instrumenting an edge keeps the invariant. -/
theorem step :
    EmissionInvariant G' (D.withNumbers numbers) (F.withCode code nextInst)
      exitRoot := by
  have inv := extension.invariant
  refine
    { layout := extension.layout
      phis := extension.phis
      paths := inv.paths
      marks := fun f hf hne => extension.marks hf hne
      root_arrived := (extension.arrived _).mpr (.inl inv.root_arrived)
      root_dead := by rw [extension.live]; exact inv.root_dead
      exit_dead := by rw [extension.live]; exact inv.exit_dead
      root_code := ?_
      arrived_lt := ?_
      arrived_over := ?_
      exitRoot_done := (extension.done _).mpr (.inl inv.exitRoot_done)
      done_linked := ?_
      fresh := fun x hx hnot => extension.fresh hx hnot
      back := extension.back
      outBack_undone := ?_
      outBack_branch := ?_
      pathNumbers := fun f hf hundone harrived =>
        extension.pathNumbers hf hundone harrived
      holder_live := ?_
      join := fun x b hx hb hpred => extension.join_node hx hb hpred
      single := ?_
      coded := ?_ }
  · exact (extension.inCode_old inv.root_arrived).trans inv.root_code
  · intro x hx
    rcases (extension.arrived x).mp hx with hx | rfl
    · exact inv.arrived_lt x hx
    · exact extension.target_lt
  · intro x hx hroot
    rcases (extension.arrived x).mp hx with hx | rfl
    · obtain ⟨f, hdone, hne, htarget⟩ := inv.arrived_over x hx hroot
      exact ⟨f, (extension.done f).mpr (.inl hdone), hne, htarget⟩
    · exact ⟨e, (extension.done e).mpr (.inr rfl), extension.ne, rfl⟩
  · intro f hdone
    rcases (extension.done f).mp hdone with hdone | rfl
    · exact inv.done_linked f hdone
    · exact extension.linked
  · intro f hf hundone
    rw [extension.done, not_or] at hundone
    exact (extension.outBack_source hf hundone.2).trans
      (inv.outBack_undone f hf hundone.1)
  · intro x hsucc
    exact (extension.outBack_old x (.inr hsucc)).trans
      (inv.outBack_branch x hsucc)
  · intro x hx
    rw [extension.live]
    by_cases hold : G.arrived x
    · rw [extension.holder_old x hold]
      exact inv.holder_live x hold
    · have heq := ((extension.arrived x).mp hx).resolve_left hold
      subst heq
      exact extension.holder_target
  · intro x b hx hb hpred
    by_cases htarget : x = D.target e
    · subst htarget
      exact extension.single b hb hpred
    · exact (extension.phi_old b (extension.block_ne hx htarget hb)).trans
        (inv.single x b hx hb hpred)
  · intro f hdone hne
    rcases (extension.done f).mp hdone with hdone | rfl
    · rcases inv.coded f hdone hne with coded | unsplittable
      · exact .inl (extension.coded_old hdone coded)
      · exact .inr unsplittable
    · exact .inl ⟨extension.noncritical,
        (extension.arrived _).mpr (.inl extension.source_arrived),
        (extension.arrived _).mpr (.inr rfl), extension.correct⟩

end Extension

end RrWorkbench.PathLogging
