import RrWorkbench.PathLogging.Instrument

namespace RrWorkbench.PathLogging

/-! The lists of edges that the nodes keep: every edge in them belongs there, and in
no other list.  `unlinkPhony` takes the phony edges out of the lists, `splitUpdate`
makes two edges out of one. -/

namespace Dag

def Linked (D : Dag) (e : EdgeId) : Prop :=
  e < D.numEdges ∧ (D.type e).isPhony = false

instance (D : Dag) : DecidablePred D.Linked :=
  fun e => inferInstanceAs (Decidable (e < D.numEdges ∧ _))

def formerEdge (D : Dag) (e : EdgeId) : Edge :=
  if (D.type e).isCut then
    { D.edge e with
      target := D.numNodes, type := .normal
      phonyRoot := none, phonyExit := none }
  else { D.edge e with target := D.numNodes }

def newEdge (D : Dag) (e : EdgeId) : Edge :=
  if (D.type e).isCut then
    { source := D.numNodes, target := D.target e, type := D.type e
      phonyRoot := (D.edge e).phonyRoot, phonyExit := (D.edge e).phonyExit }
  else { source := D.numNodes, target := D.target e }

section SplitUpdate

variable {D : Dag} {e : EdgeId} {b : BlockId}

theorem splitUpdate_edge_new (he : e < D.numEdges) :
    (D.splitUpdate e b).edge D.numEdges = D.newEdge e := by
  have hne : D.numEdges ≠ e := Nat.ne_of_gt he
  unfold splitUpdate newEdge Dag.type
  cases cut : (D.edge e).type.isCut
  all_goals
    simp only [cut, if_true, if_false, Bool.false_eq_true, modifyEdge, addEdge, addSuccEdge,
      addPredEdge, removePredEdge, modifyNode, addNode]
    simp [hne]

theorem splitUpdate_edge_old {f : EdgeId} (hf : f ≠ D.numEdges) :
    (D.splitUpdate e b).edge f = if f = e then D.formerEdge e else D.edge f := by
  unfold splitUpdate formerEdge Dag.type
  cases cut : (D.edge e).type.isCut
  all_goals
    simp only [cut, if_true, if_false, Bool.false_eq_true, modifyEdge, addEdge, addSuccEdge,
      addPredEdge, removePredEdge, modifyNode, addNode]
    by_cases hfe : f = e
    · subst hfe
      simp [hf]
    · simp [hf, hfe]

theorem splitUpdate_edge (he : e < D.numEdges) (f : EdgeId) :
    (D.splitUpdate e b).edge f =
      if f = D.numEdges then D.newEdge e
      else if f = e then D.formerEdge e
      else D.edge f := by
  by_cases hf : f = D.numEdges
  · rw [hf, splitUpdate_edge_new he, if_pos rfl]
  · rw [splitUpdate_edge_old hf, if_neg hf]

theorem splitUpdate_edge_of_ne {f : EdgeId} (hf : f < D.numEdges) (hne : f ≠ e) :
    (D.splitUpdate e b).edge f = D.edge f := by
  rw [splitUpdate_edge_old (Nat.ne_of_lt hf), if_neg hne]

theorem splitUpdate_edge_former (he : e < D.numEdges) :
    (D.splitUpdate e b).edge e = D.formerEdge e := by
  rw [splitUpdate_edge_old (Nat.ne_of_lt he), if_pos rfl]

theorem splitUpdate_node (hw : D.target e < D.numNodes) (x : NodeId) :
    (D.splitUpdate e b).node x =
      if x = D.numNodes then
        { block := some b, predEdges := [e], succEdges := [D.numEdges] }
      else if x = D.target e then
        { D.node x with
          predEdges := (D.predEdges x).erase e ++ [D.numEdges] }
      else D.node x := by
  have hne : D.target e ≠ D.numNodes := Nat.ne_of_lt hw
  unfold splitUpdate
  cases hcut : (D.edge e).type.isCut
  all_goals
    simp only [hcut, Bool.false_eq_true, if_true, if_false, modifyEdge, addEdge,
      addSuccEdge, addPredEdge, removePredEdge, modifyNode, addNode]
    by_cases hx : x = D.numNodes
    · subst hx
      simp [hne.symm]
    · by_cases hx' : x = D.target e
      · subst hx'
        simp [hne, predEdges]
      · simp [hx, hx']

theorem splitUpdate_scalars :
    (D.splitUpdate e b).numNodes = D.numNodes + 1 ∧
      (D.splitUpdate e b).numEdges = D.numEdges + 1 ∧
      (D.splitUpdate e b).root = D.root ∧ (D.splitUpdate e b).exit = D.exit ∧
      (D.splitUpdate e b).numberOfPaths = D.numberOfPaths := by
  cases hcut : (D.edge e).type.isCut
  all_goals simp [splitUpdate, hcut, addNode, addEdge, modifyEdge, modifyNode,
    addSuccEdge, addPredEdge, removePredEdge]

theorem splitUpdate_numNodes : (D.splitUpdate e b).numNodes = D.numNodes + 1 :=
  splitUpdate_scalars.1

theorem splitUpdate_numEdges : (D.splitUpdate e b).numEdges = D.numEdges + 1 :=
  splitUpdate_scalars.2.1

theorem splitUpdate_root : (D.splitUpdate e b).root = D.root :=
  splitUpdate_scalars.2.2.1

theorem splitUpdate_exit : (D.splitUpdate e b).exit = D.exit :=
  splitUpdate_scalars.2.2.2.1

theorem splitUpdate_numberOfPaths : (D.splitUpdate e b).numberOfPaths = D.numberOfPaths :=
  splitUpdate_scalars.2.2.2.2

variable (he : e < D.numEdges) (hw : D.target e < D.numNodes)

include he in
theorem splitUpdate_source (f : EdgeId) :
    (D.splitUpdate e b).source f =
      if f = D.numEdges then D.numNodes else D.source f := by
  simp only [source, splitUpdate_edge he]
  by_cases hnew : f = D.numEdges
  · simp only [hnew, if_true, newEdge]
    split
    all_goals rfl
  · by_cases hf : f = e
    · simp only [hf, Nat.ne_of_lt he, if_false, if_true, formerEdge]
      split
      all_goals rfl
    · simp only [hnew, hf, if_false]

include he in
theorem splitUpdate_target (f : EdgeId) :
    (D.splitUpdate e b).target f =
      if f = D.numEdges then D.target e
      else if f = e then D.numNodes
      else D.target f := by
  simp only [target, splitUpdate_edge he]
  by_cases hnew : f = D.numEdges
  · simp only [hnew, if_true, newEdge]
    split
    all_goals rfl
  · by_cases hf : f = e
    · simp only [hf, Nat.ne_of_lt he, if_false, if_true, formerEdge]
      split
      all_goals rfl
    · simp only [hnew, hf, if_false]

include he in
theorem splitUpdate_linked (hlinked : D.Linked e) (f : EdgeId) :
    (D.splitUpdate e b).Linked f ↔ f = D.numEdges ∨ D.Linked f := by
  simp only [Linked, type, splitUpdate_numEdges, splitUpdate_edge he]
  by_cases hnew : f = D.numEdges
  · simp only [hnew, if_true, newEdge, true_or, iff_true]
    refine ⟨Nat.lt_succ_self _, ?_⟩
    split
    · exact hlinked.2
    · rfl
  · by_cases hf : f = e
    · simp only [hf, Nat.ne_of_lt he, if_false, if_true, formerEdge, false_or]
      have hlt : e < D.numEdges + 1 := Nat.lt_succ_of_lt he
      have hphony : (D.edge e).type.isPhony = false := hlinked.2
      refine iff_of_true ⟨hlt, ?_⟩ ⟨he, hphony⟩
      split
      · rfl
      · exact hphony
    · simp only [hnew, hf, if_false, false_or]
      refine and_congr_left fun _ => ⟨fun hlt => ?_, Nat.lt_succ_of_lt⟩
      exact Nat.lt_of_le_of_ne (Nat.le_of_lt_succ hlt) hnew

include hw in
theorem splitUpdate_succEdges (x : NodeId) :
    (D.splitUpdate e b).succEdges x =
      if x = D.numNodes then [D.numEdges] else D.succEdges x := by
  simp only [succEdges, splitUpdate_node hw]
  by_cases hx : x = D.numNodes
  · simp only [hx, if_true]
  · by_cases hx' : x = D.target e
    · simp only [hx', if_false, if_true, Nat.ne_of_lt hw]
    · simp only [hx, hx', if_false]

include hw in
theorem splitUpdate_predEdges (x : NodeId) :
    (D.splitUpdate e b).predEdges x =
      if x = D.numNodes then [e]
      else if x = D.target e then (D.predEdges x).erase e ++ [D.numEdges]
      else D.predEdges x := by
  simp only [predEdges, splitUpdate_node hw]
  split
  · rfl
  · split
    all_goals rfl

include hw in
theorem splitUpdate_getBlock (x : NodeId) :
    (D.splitUpdate e b).getBlock x =
      if x = D.numNodes then some b else D.getBlock x := by
  simp only [getBlock, splitUpdate_node hw]
  by_cases hx : x = D.numNodes
  · simp only [hx, if_true]
  · by_cases hx' : x = D.target e
    · simp only [hx', if_false, if_true, Nat.ne_of_lt hw]
    · simp only [hx, hx', if_false]

end SplitUpdate

/-- Every edge that `linked` tells occurs once among the successors of its source and
once among the predecessors of its target, and nowhere else; no other edge occurs. -/
structure Links (D : Dag) (linked : EdgeId → Prop) : Prop where
  source_lt : ∀ e, linked e → D.source e < D.numNodes
  target_lt : ∀ e, linked e → D.target e < D.numNodes
  mem_succEdges : ∀ x e, e ∈ D.succEdges x ↔ linked e ∧ D.source e = x
  mem_predEdges : ∀ x e, e ∈ D.predEdges x ↔ linked e ∧ D.target e = x
  nodup_succEdges : ∀ x, (D.succEdges x).Nodup
  nodup_predEdges : ∀ x, (D.predEdges x).Nodup

theorem BallLarus.links {D : Dag} (shape : D.BallLarus) : D.Links (· < D.numEdges) :=
  { shape with }

namespace Links

variable {D : Dag} {e : EdgeId} {b : BlockId}

theorem mem_predEdges_split (links : D.Links D.Linked)
    (hlinked : D.Linked e) (x : NodeId) (f : EdgeId) :
    (f ∈ if x = D.numNodes then [e]
      else if x = D.target e then (D.predEdges x).erase e ++ [D.numEdges]
      else D.predEdges x) ↔
      (f = D.numEdges ∨ D.Linked f) ∧
        (if f = D.numEdges then D.target e
          else if f = e then D.numNodes
          else D.target f) = x := by
  have hw := links.target_lt e hlinked
  by_cases hx : x = D.numNodes
  · subst hx
    rw [if_pos rfl, List.mem_singleton]
    constructor
    · rintro rfl
      rw [if_neg (Nat.ne_of_lt hlinked.1), if_pos rfl]
      exact ⟨.inr hlinked, rfl⟩
    · rintro ⟨rfl | hf, htarget⟩
      · rw [if_pos rfl] at htarget
        exact absurd htarget (Nat.ne_of_lt hw)
      · rw [if_neg (Nat.ne_of_lt hf.1)] at htarget
        by_contra hne
        rw [if_neg hne] at htarget
        exact Nat.ne_of_lt (links.target_lt f hf) htarget
  · rw [if_neg hx]
    by_cases hfnew : f = D.numEdges
    · subst hfnew
      have hnot : ∀ x, D.numEdges ∉ D.predEdges x := by
        intro x hmem
        exact Nat.lt_irrefl _ ((links.mem_predEdges x _).mp hmem).1.1
      rw [if_pos rfl]
      by_cases hxw : x = D.target e
      · simp [hxw]
      · rw [if_neg hxw]
        exact iff_of_false (hnot x) fun h => hxw h.2.symm
    · rw [if_neg hfnew]
      by_cases hfe : f = e
      · subst hfe
        rw [if_pos rfl]
        have hright : ¬ ((f = D.numEdges ∨ D.Linked f) ∧ D.numNodes = x) :=
          fun h => hx h.2.symm
        refine iff_of_false ?_ hright
        split
        · simp [(links.nodup_predEdges x).not_mem_erase, hfnew]
        · intro hmem
          exact absurd ((links.mem_predEdges x f).mp hmem).2.symm ‹_›
      · rw [if_neg hfe]
        have hmem : (f ∈ if x = D.target e then
              (D.predEdges x).erase e ++ [D.numEdges]
            else D.predEdges x) ↔ f ∈ D.predEdges x := by
          split
          · simp [List.mem_erase_of_ne hfe, hfnew]
          · rfl
        rw [hmem, links.mem_predEdges]
        simp [hfnew]

theorem mem_succEdges_split (links : D.Links D.Linked) (x : NodeId) (f : EdgeId) :
    f ∈ (if x = D.numNodes then [D.numEdges] else D.succEdges x) ↔
      (f = D.numEdges ∨ D.Linked f) ∧
        (if f = D.numEdges then D.numNodes else D.source f) = x := by
  have hold : ∀ g, D.Linked g → g ≠ D.numEdges := fun g hg => Nat.ne_of_lt hg.1
  by_cases hx : x = D.numNodes
  · subst hx
    rw [if_pos rfl, List.mem_singleton]
    constructor
    · rintro rfl
      exact ⟨.inl rfl, if_pos rfl⟩
    · rintro ⟨rfl | hf, hsource⟩
      · rfl
      · rw [if_neg (hold f hf)] at hsource
        exact absurd hsource (Nat.ne_of_lt (links.source_lt f hf))
  · rw [if_neg hx, links.mem_succEdges]
    constructor
    · rintro ⟨hf, hsource⟩
      exact ⟨.inr hf, (if_neg (hold f hf)).trans hsource⟩
    · rintro ⟨rfl | hf, hsource⟩
      · rw [if_pos rfl] at hsource
        exact absurd hsource.symm hx
      · rw [if_neg (hold f hf)] at hsource
        exact ⟨hf, hsource⟩

theorem nodup_predEdges_split (links : D.Links D.Linked) (x : NodeId) :
    (if x = D.numNodes then [e]
      else if x = D.target e then (D.predEdges x).erase e ++ [D.numEdges]
      else D.predEdges x).Nodup := by
  split
  · exact List.nodup_singleton e
  · split
    · refine ((links.nodup_predEdges x).erase e).append (List.nodup_singleton _) ?_
      intro f hf hnew
      rw [List.mem_singleton] at hnew
      subst hnew
      have hlinked := ((links.mem_predEdges x _).mp (List.mem_of_mem_erase hf)).1
      exact absurd hlinked.1 (Nat.lt_irrefl _)
    · exact links.nodup_predEdges x

theorem split (links : D.Links D.Linked) (hlinked : D.Linked e) :
    (D.splitUpdate e b).Links (D.splitUpdate e b).Linked := by
  have he := hlinked.1
  have hw := links.target_lt e hlinked
  have hlinked' := splitUpdate_linked (b := b) he hlinked
  have hsource' := splitUpdate_source (D := D) (b := b) he
  have htarget' := splitUpdate_target (D := D) (b := b) he
  have hsucc' := splitUpdate_succEdges (D := D) (b := b) hw
  have hpred' := splitUpdate_predEdges (D := D) (b := b) hw
  refine
    { source_lt := ?_, target_lt := ?_, mem_succEdges := ?_, mem_predEdges := ?_,
      nodup_succEdges := ?_, nodup_predEdges := ?_ }
  · intro f hf
    rw [hsource', splitUpdate_numNodes]
    rcases (hlinked' f).mp hf with rfl | hf
    · simp
    · rw [if_neg (Nat.ne_of_lt hf.1)]
      exact Nat.lt_succ_of_lt (links.source_lt f hf)
  · intro f hf
    rw [htarget', splitUpdate_numNodes]
    rcases (hlinked' f).mp hf with rfl | hf
    · rw [if_pos rfl]
      exact Nat.lt_succ_of_lt hw
    · rw [if_neg (Nat.ne_of_lt hf.1)]
      split
      · exact Nat.lt_succ_self _
      · exact Nat.lt_succ_of_lt (links.target_lt f hf)
  · intro x f
    rw [hsucc', hlinked', hsource']
    exact links.mem_succEdges_split x f
  · intro x f
    rw [hpred', hlinked', htarget']
    exact links.mem_predEdges_split hlinked x f
  · intro x
    rw [hsucc']
    split
    · exact List.nodup_singleton _
    · exact links.nodup_succEdges x
  · intro x
    rw [hpred']
    exact links.nodup_predEdges_split x

theorem getNumberPredEdges_split (links : D.Links D.Linked) (hlinked : D.Linked e)
    {x : NodeId} (hx : x < D.numNodes) :
    (D.splitUpdate e b).getNumberPredEdges x = D.getNumberPredEdges x := by
  have hw := links.target_lt e hlinked
  simp only [Dag.getNumberPredEdges, Dag.splitUpdate_predEdges hw,
    if_neg (Nat.ne_of_lt hx)]
  split
  · subst x
    have hmem : e ∈ D.predEdges (D.target e) :=
      (links.mem_predEdges _ _).mpr ⟨hlinked, rfl⟩
    have hpos := List.length_pos_of_mem hmem
    rw [List.length_append, List.length_erase_of_mem hmem,
      List.length_singleton, Nat.sub_add_cancel hpos]
  · rfl

end Links

def withLinks (D : Dag) (succ pred : NodeId → List EdgeId) : Dag :=
  { D with
    node := fun x =>
      { D.node x with succEdges := succ x, predEdges := pred x } }

def without (D : Dag) (removed : EdgeId → Bool) : Dag :=
  D.withLinks (fun x => (D.succEdges x).filter fun e => !removed e)
    fun x => (D.predEdges x).filter fun e => !removed e

theorem removeSuccEdge_withLinks (D : Dag) (succ pred : NodeId → List EdgeId)
    (x : NodeId) (e : EdgeId) :
    (D.withLinks succ pred).removeSuccEdge x e =
      D.withLinks (Function.update succ x ((succ x).erase e)) pred := by
  simp only [removeSuccEdge, modifyNode, withLinks]
  congr 1
  funext y
  by_cases hy : y = x
  · subst hy
    simp
  · simp [Function.update_of_ne hy]

theorem removePredEdge_withLinks (D : Dag) (succ pred : NodeId → List EdgeId)
    (x : NodeId) (e : EdgeId) :
    (D.withLinks succ pred).removePredEdge x e =
      D.withLinks succ (Function.update pred x ((pred x).erase e)) := by
  simp only [removePredEdge, modifyNode, withLinks]
  congr 1
  funext y
  by_cases hy : y = x
  · subst hy
    simp
  · simp [Function.update_of_ne hy]

theorem update_erase_filter (edges : NodeId → List EdgeId)
    (nodup : ∀ x, (edges x).Nodup) (removed : EdgeId → Bool) {x : NodeId}
    {e : EdgeId} (honly : ∀ y, e ∈ edges y → y = x) :
    (Function.update (fun y => (edges y).filter fun f => !removed f) x
        (((edges x).filter fun f => !removed f).erase e)) =
      fun y => (edges y).filter fun f => !Function.update removed e true f := by
  funext y
  by_cases hy : y = x
  · subst hy
    rw [Function.update_self, ((nodup y).filter _).erase_eq_filter,
      List.filter_filter]
    refine List.filter_congr fun f _ => ?_
    by_cases hf : f = e
    · simp [hf]
    · simp [hf]
  · rw [Function.update_of_ne hy]
    refine List.filter_congr fun f hf => ?_
    have hne : f ≠ e := by
      rintro rfl
      exact hy (honly y hf)
    rw [Function.update_of_ne hne]

variable {D : Dag}

theorem Links.unlinkEdge_without (links : D.Links (· < D.numEdges))
    (removed : EdgeId → Bool) (e : EdgeId) :
    (D.without removed).unlinkEdge e =
      D.without (Function.update removed e true) := by
  rw [unlinkEdge, without, removeSuccEdge_withLinks, removePredEdge_withLinks,
    without]
  congr 1
  · exact update_erase_filter D.succEdges links.nodup_succEdges removed
      fun y hy => ((links.mem_succEdges y e).mp hy).2.symm
  · exact update_erase_filter D.predEdges links.nodup_predEdges removed
      fun y hy => ((links.mem_predEdges y e).mp hy).2.symm

theorem Links.foldl_unlinkEdge (links : D.Links (· < D.numEdges)) (edges : List EdgeId)
    (removed : EdgeId → Bool) :
    edges.foldl (fun D e => if (D.type e).isPhony then D.unlinkEdge e else D)
        (D.without removed) =
      D.without fun e => removed e || (decide (e ∈ edges) && (D.type e).isPhony) := by
  induction edges generalizing removed with
  | nil => simp
  | cons f rest ih =>
      have hstep : (if ((D.without removed).type f).isPhony then
            (D.without removed).unlinkEdge f else D.without removed) =
          D.without fun e => removed e || (decide (e = f) && (D.type e).isPhony) := by
        cases hphony : (D.type f).isPhony with
        | true =>
            rw [if_pos (show ((D.without removed).type f).isPhony = true from hphony),
              links.unlinkEdge_without]
            congr 1
            funext e
            by_cases he : e = f
            · simp [he, hphony]
            · simp [he]
        | false =>
            rw [if_neg (by
              rw [show ((D.without removed).type f).isPhony = false from hphony]
              exact Bool.false_ne_true)]
            congr 1
            funext e
            by_cases he : e = f
            · simp [he, hphony]
            · simp [he]
      rw [List.foldl_cons, hstep, ih]
      congr 1
      funext e
      by_cases he : e = f
      · cases hphony : (D.type f).isPhony <;> simp [he, hphony]
      · simp [he]

def unlinked (D : Dag) : Dag := D.without fun e => (D.type e).isPhony

/-- The edges that stay linked are those that are not phony. -/
theorem Links.unlinkPhony_eq (links : D.Links (· < D.numEdges)) :
    D.unlinkPhony = D.unlinked := by
  have hnone : D = D.without fun _ => false := by
    simp [without, withLinks, succEdges, predEdges]
  have hfold := links.foldl_unlinkEdge (List.range D.numEdges) fun _ => false
  rw [← hnone] at hfold
  rw [unlinkPhony, hfold, unlinked, without, without]
  have hfilter : ∀ edges : List EdgeId, (∀ e ∈ edges, e < D.numEdges) →
      (edges.filter fun e => !(false ||
        (decide (e ∈ List.range D.numEdges) && (D.type e).isPhony))) =
        edges.filter fun e => !(D.type e).isPhony := by
    intro edges hedges
    refine List.filter_congr fun e he => ?_
    simp [hedges e he]
  congr 1
  · funext x
    exact hfilter _ fun e he => ((links.mem_succEdges x e).mp he).1
  · funext x
    exact hfilter _ fun e he => ((links.mem_predEdges x e).mp he).1

theorem Links.unlinked (links : D.Links (· < D.numEdges)) :
    D.unlinked.Links D.unlinked.Linked where
  source_lt e he := links.source_lt e he.1
  target_lt e he := links.target_lt e he.1
  mem_succEdges x e := by
    change e ∈ (D.succEdges x).filter _ ↔ D.Linked e ∧ D.source e = x
    rw [List.mem_filter, links.mem_succEdges]
    simp only [Linked, Bool.not_eq_true']
    tauto
  mem_predEdges x e := by
    change e ∈ (D.predEdges x).filter _ ↔ D.Linked e ∧ D.target e = x
    rw [List.mem_filter, links.mem_predEdges]
    simp only [Linked, Bool.not_eq_true']
    tauto
  nodup_succEdges x := (links.nodup_succEdges x).filter _
  nodup_predEdges x := (links.nodup_predEdges x).filter _

end Dag

end RrWorkbench.PathLogging
