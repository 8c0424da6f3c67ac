import RrWorkbench.PathLogging.Links

namespace RrWorkbench.PathLogging

/-! How the DAG lies on the function while edges are being split. -/

namespace LlvmFunction

variable {F : LlvmFunction} {source target : BlockId} {succNum : Nat}

theorem withSplitEdge_successors (hsource : source < F.numBlocks)
    (htarget : target < F.numBlocks) (b : BlockId) :
    (F.withSplitEdge source succNum target).successors b =
      if b = F.numBlocks then [target]
      else if b = source then (F.successors source).set succNum F.numBlocks
      else F.successors b := by
  simp only [withSplitEdge, successors, modifyBlock]
  by_cases hnew : b = F.numBlocks
  · subst hnew
    simp
  · by_cases hb : b = target
    · subst hb
      by_cases hs : b = source
      · subst hs
        simp [hnew]
      · simp [hnew, hs]
    · by_cases hs : b = source
      · subst hs
        simp [hnew, hb]
      · simp [hnew, hs, hb]

theorem withSplitEdge_pathPHI (hsource : source < F.numBlocks)
    (htarget : target < F.numBlocks) (b : BlockId) :
    ((F.withSplitEdge source succNum target).block b).pathPHI =
      if b = F.numBlocks then none
      else if b = target then
        (F.block b).pathPHI.map (Incoming.revector · source F.numBlocks)
      else (F.block b).pathPHI := by
  simp only [withSplitEdge, modifyBlock]
  by_cases hnew : b = F.numBlocks
  · subst hnew
    simp
  · by_cases hb : b = target
    · subst hb
      by_cases hs : b = source
      · subst hs
        simp [hnew]
      · simp [hnew, hs]
    · by_cases hs : b = source
      · subst hs
        simp [hnew, hb]
      · simp [hnew, hs, hb]

theorem withSplitEdge_block_of_ne {b : BlockId} (hnew : b ≠ F.numBlocks) :
    let block := (F.withSplitEdge source succNum target).block b
    block.terminator = (F.block b).terminator ∧
      block.isLandingPad = (F.block b).isLandingPad ∧
      block.front = (F.block b).front ∧ block.back = (F.block b).back := by
  simp only [withSplitEdge, modifyBlock, Function.update_of_ne hnew]
  by_cases hb : b = target
  · subst hb
    by_cases hs : b = source
    · subst hs
      simp
    · simp [hs]
  · by_cases hs : b = source
    · subst hs
      simp [hb]
    · simp [hs, hb]

theorem withSplitEdge_block_new :
    (F.withSplitEdge source succNum target).block F.numBlocks =
      { terminator := .br, successors := [target] } := by
  simp [withSplitEdge]

end LlvmFunction

/-- The DAG lies on the function: every node but exit has a block of its own, and
the linked edges out of a node are, in order, the successors of its block; a node
with an edge to exit has no other. -/
structure Layout (D : Dag) (F : LlvmFunction) (exitRoot : EdgeId) : Prop where
  root_lt : D.root < D.numNodes
  exit_lt : D.exit < D.numNodes
  source_lt : ∀ e, D.Linked e → D.source e < D.numNodes
  target_lt : ∀ e, D.Linked e → D.target e < D.numNodes
  mem_succEdges : ∀ x e, e ∈ D.succEdges x ↔ D.Linked e ∧ D.source e = x
  mem_predEdges : ∀ x e, e ∈ D.predEdges x ↔ D.Linked e ∧ D.target e = x
  nodup_succEdges : ∀ x, (D.succEdges x).Nodup
  nodup_predEdges : ∀ x, (D.predEdges x).Nodup
  block_exit : D.getBlock D.exit = none
  block : ∀ x, x < D.numNodes → x ≠ D.exit →
    ∃ b, b < F.numBlocks ∧ D.getBlock x = some b
  block_injective : ∀ x y b, x < D.numNodes → y < D.numNodes →
    D.getBlock x = some b → D.getBlock y = some b → x = y
  successors : ∀ x b, x < D.numNodes → D.getBlock x = some b →
    F.successors b = (D.succEdges x).filterMap fun e => D.getBlock (D.target e)
  exit_alone : ∀ e, D.Linked e → D.target e = D.exit →
    D.succEdges (D.source e) = [e]
  exitRoot_linked : D.Linked exitRoot
  exitRoot_source : D.source exitRoot = D.exit
  exitRoot_target : D.target exitRoot = D.root
  of_source : ∀ e, D.Linked e → D.source e = D.exit → e = exitRoot
  of_target : ∀ e, D.Linked e → D.target e = D.root → e = exitRoot
  root_ne_exit : D.root ≠ D.exit

theorem filterMap_update {α β : Type} [DecidableEq α] {g g' : α → Option β}
    {c : β} {e : α} :
    ∀ {items : List α} {i : Nat}, items.Nodup → (∀ f ∈ items, (g f).isSome) →
      items[i]? = some e → g' e = some c → (∀ f, f ≠ e → g' f = g f) →
      items.filterMap g' = (items.filterMap g).set i c
  | [], _, _, _, hi, _, _ => by simp at hi
  | head :: rest, i, nodup, some_, hi, he, hne => by
      obtain ⟨hhead, hrest⟩ := List.nodup_cons.mp nodup
      obtain ⟨b, hb⟩ := Option.isSome_iff_exists.mp (some_ head (by simp))
      cases i with
      | zero =>
          have heq : head = e := by simpa using hi
          subst heq
          have hsame : rest.filterMap g' = rest.filterMap g := by
            refine List.filterMap_congr fun f hf => hne f ?_
            rintro rfl
            exact hhead hf
          rw [List.filterMap_cons_some he, List.filterMap_cons_some hb, hsame,
            List.set_cons_zero]
      | succ i =>
          have hi' : rest[i]? = some e := by simpa using hi
          have hdiff : head ≠ e := by
            rintro rfl
            exact hhead (List.mem_of_getElem? hi')
          rw [List.filterMap_cons_some ((hne head hdiff).trans hb),
            List.filterMap_cons_some hb, List.set_cons_succ,
            filterMap_update hrest (fun f hf => some_ f (by simp [hf])) hi' he
              hne]

theorem getElem?_filterMap_of_isSome {α β : Type} {g : α → Option β} :
    ∀ {items : List α}, (∀ f ∈ items, (g f).isSome) → ∀ i : Nat,
      (items.filterMap g)[i]? = items[i]?.bind g
  | [], _, i => by simp
  | head :: rest, some_, i => by
      obtain ⟨b, hb⟩ := Option.isSome_iff_exists.mp (some_ head (by simp))
      rw [List.filterMap_cons_some hb]
      cases i with
      | zero => simp [hb]
      | succ i =>
          simpa using getElem?_filterMap_of_isSome
            (fun f hf => some_ f (by simp [hf])) i

namespace Layout

variable {D : Dag} {F : LlvmFunction} {exitRoot : EdgeId}

theorem links (layout : Layout D F exitRoot) : D.Links D.Linked :=
  { layout with }

theorem block_lt (layout : Layout D F exitRoot) {x : NodeId} {b : BlockId}
    (hx : x < D.numNodes) (hb : D.getBlock x = some b) : b < F.numBlocks := by
  have hexit : x ≠ D.exit := by
    rintro rfl
    rw [layout.block_exit] at hb
    contradiction
  obtain ⟨b', hlt, hb'⟩ := layout.block x hx hexit
  exact Option.some.inj (hb.symm.trans hb') ▸ hlt

theorem target_ne_exit (layout : Layout D F exitRoot) {x : NodeId} {f : EdgeId}
    (hsucc : 1 < D.getNumberSuccEdges x) (hf : f ∈ D.succEdges x) :
    D.target f ≠ D.exit := by
  intro hexit
  obtain ⟨hlinked, hsource⟩ := (layout.mem_succEdges x f).mp hf
  have hsingle := layout.exit_alone f hlinked hexit
  rw [hsource] at hsingle
  simp [Dag.getNumberSuccEdges, hsingle] at hsucc

theorem block_target (layout : Layout D F exitRoot) {f : EdgeId}
    (hf : D.Linked f) (hexit : D.target f ≠ D.exit) :
    ∃ b, b < F.numBlocks ∧ D.getBlock (D.target f) = some b :=
  layout.block _ (layout.target_lt f hf) hexit

theorem getElem?_successors (layout : Layout D F exitRoot) {x : NodeId}
    {b : BlockId} (hx : x < D.numNodes) (hb : D.getBlock x = some b)
    (hexit : ∀ f ∈ D.succEdges x, D.target f ≠ D.exit) (i : Nat) :
    (F.successors b)[i]? =
      (D.succEdges x)[i]?.bind fun f => D.getBlock (D.target f) := by
  rw [layout.successors x b hx hb]
  refine getElem?_filterMap_of_isSome (fun f hf => ?_) i
  obtain ⟨b, _, hb⟩ := layout.block_target
    ((layout.mem_succEdges x f).mp hf).1 (hexit f hf)
  simp [hb]

section Split

variable {e : EdgeId} {source target : BlockId} {succNum : Nat}

theorem block_injective_split (layout : Layout D F exitRoot) {x y : NodeId}
    {b : BlockId} (hx : x < D.numNodes + 1) (hy : y < D.numNodes + 1)
    (hbx : (if x = D.numNodes then some F.numBlocks else D.getBlock x) = some b)
    (hby : (if y = D.numNodes then some F.numBlocks else D.getBlock y) = some b) :
    x = y := by
  have hlt : ∀ z, z < D.numNodes + 1 → z ≠ D.numNodes → z < D.numNodes :=
    fun z hz hne => Nat.lt_of_le_of_ne (Nat.le_of_lt_succ hz) hne
  split at hbx
  · split at hby
    · simp_all
    · have hb := layout.block_lt (hlt y hy ‹_›) hby
      cases hbx
      exact absurd hb (Nat.lt_irrefl _)
  · split at hby
    · have hb := layout.block_lt (hlt x hx ‹_›) hbx
      cases hby
      exact absurd hb (Nat.lt_irrefl _)
    · exact layout.block_injective x y b (hlt x hx ‹_›) (hlt y hy ‹_›) hbx hby

theorem successors_split (layout : Layout D F exitRoot) (hlinked : D.Linked e)
    (hsource : D.getBlock (D.source e) = some source)
    (htarget : D.getBlock (D.target e) = some target)
    (hsucc : 1 < D.getNumberSuccEdges (D.source e))
    (hi : (D.succEdges (D.source e))[succNum]? = some e)
    {x : NodeId} {b : BlockId} (hx : x < D.numNodes + 1)
    (hb : (if x = D.numNodes then some F.numBlocks else D.getBlock x) = some b) :
    (if b = F.numBlocks then [target]
      else if b = source then (F.successors source).set succNum F.numBlocks
      else F.successors b) =
      (if x = D.numNodes then [D.numEdges] else D.succEdges x).filterMap fun f =>
        if (if f = D.numEdges then D.target e
            else if f = e then D.numNodes
            else D.target f) = D.numNodes then some F.numBlocks
        else D.getBlock (if f = D.numEdges then D.target e
          else if f = e then D.numNodes
          else D.target f) := by
  have hw := Nat.ne_of_lt (layout.target_lt e hlinked)
  by_cases hxnew : x = D.numNodes
  · rw [if_pos hxnew] at hb ⊢
    cases hb
    simp [hw, htarget]
  · rw [if_neg hxnew] at hb ⊢
    have hxlt : x < D.numNodes :=
      Nat.lt_of_le_of_ne (Nat.le_of_lt_succ hx) hxnew
    rw [if_neg (Nat.ne_of_lt (layout.block_lt hxlt hb))]
    -- on old edges other than `e` the two successor functions agree
    have hold : ∀ f, D.Linked f → f ≠ e →
        (if (if f = D.numEdges then D.target e
            else if f = e then D.numNodes
            else D.target f) = D.numNodes then some F.numBlocks
        else D.getBlock (if f = D.numEdges then D.target e
          else if f = e then D.numNodes
          else D.target f)) = D.getBlock (D.target f) := by
      intro f hf hfe
      rw [if_neg (Nat.ne_of_lt hf.1), if_neg hfe,
        if_neg (Nat.ne_of_lt (layout.target_lt f hf))]
    by_cases hxe : x = D.source e
    · subst hxe
      cases hb.symm.trans hsource
      rw [if_pos rfl, layout.successors _ _ hxlt hsource]
      refine Eq.symm ((List.filterMap_congr (g := fun f =>
        if f = e then some F.numBlocks else D.getBlock (D.target f)) ?_).trans
          (filterMap_update (layout.nodup_succEdges _) ?_ hi (if_pos rfl)
            fun f hf => if_neg hf))
      · intro f hf
        by_cases hfe : f = e
        · subst hfe
          simp [Nat.ne_of_lt hlinked.1]
        · exact (hold f ((layout.mem_succEdges _ f).mp hf).1 hfe).trans
            (if_neg hfe).symm
      · intro f hf
        obtain ⟨b, _, hb⟩ := layout.block_target
          ((layout.mem_succEdges _ f).mp hf).1 (layout.target_ne_exit hsucc hf)
        simp [hb]
    · have hbs : b ≠ source := by
        rintro rfl
        exact hxe (layout.block_injective _ _ _ hxlt
          (layout.source_lt e hlinked) hb hsource)
      rw [if_neg hbs, layout.successors x b hxlt hb]
      refine List.filterMap_congr fun f hf => ?_
      obtain ⟨hf, hfsource⟩ := (layout.mem_succEdges x f).mp hf
      refine (hold f hf ?_).symm
      rintro rfl
      exact hxe hfsource.symm

/-- Splitting a critical edge keeps the DAG on the function. -/
theorem split (layout : Layout D F exitRoot) (hlinked : D.Linked e)
    (hne : e ≠ exitRoot) (hsource : D.getBlock (D.source e) = some source)
    (htarget : D.getBlock (D.target e) = some target)
    (hsucc : 1 < D.getNumberSuccEdges (D.source e))
    (hi : (D.succEdges (D.source e))[succNum]? = some e) :
    Layout (D.splitUpdate e F.numBlocks)
      (F.withSplitEdge source succNum target) exitRoot := by
  have he := hlinked.1
  have hw := layout.target_lt e hlinked
  have hsourceLt := layout.block_lt (layout.source_lt e hlinked) hsource
  have htargetLt := layout.block_lt hw htarget
  have hlinked' := Dag.splitUpdate_linked (b := F.numBlocks) he hlinked
  have hnew : ∀ f, D.Linked f → f ≠ D.numEdges := fun f hf => Nat.ne_of_lt hf.1
  have hnode : ∀ x, x < D.numNodes → x ≠ D.numNodes := fun x => Nat.ne_of_lt
  have hsource' := Dag.splitUpdate_source (D := D) (b := F.numBlocks) he
  have htarget' := Dag.splitUpdate_target (D := D) (b := F.numBlocks) he
  have hsucc' := Dag.splitUpdate_succEdges (D := D) (b := F.numBlocks) hw
  have hblock' := Dag.splitUpdate_getBlock (D := D) (b := F.numBlocks) hw
  refine
    { layout.links.split hlinked with
      root_lt := ?_, exit_lt := ?_, block_exit := ?_, block := ?_,
      block_injective := ?_, successors := ?_, exit_alone := ?_,
      exitRoot_linked := ?_, exitRoot_source := ?_, exitRoot_target := ?_,
      of_source := ?_, of_target := ?_, root_ne_exit := ?_ }
  · rw [Dag.splitUpdate_root, Dag.splitUpdate_numNodes]
    exact Nat.lt_succ_of_lt layout.root_lt
  · rw [Dag.splitUpdate_exit, Dag.splitUpdate_numNodes]
    exact Nat.lt_succ_of_lt layout.exit_lt
  · rw [Dag.splitUpdate_exit, hblock', if_neg (hnode _ layout.exit_lt)]
    exact layout.block_exit
  · intro x hx hexit
    rw [Dag.splitUpdate_numNodes] at hx
    rw [Dag.splitUpdate_exit] at hexit
    rw [hblock']
    by_cases hxnew : x = D.numNodes
    · rw [if_pos hxnew]
      exact ⟨F.numBlocks, Nat.lt_succ_self _, rfl⟩
    · rw [if_neg hxnew]
      obtain ⟨b, hlt, hb⟩ := layout.block x
        (Nat.lt_of_le_of_ne (Nat.le_of_lt_succ hx) hxnew) hexit
      exact ⟨b, Nat.lt_succ_of_lt hlt, hb⟩
  · intro x y b hx hy hbx hby
    rw [Dag.splitUpdate_numNodes] at hx hy
    rw [hblock'] at hbx hby
    exact layout.block_injective_split hx hy hbx hby
  · intro x b hx hb
    rw [Dag.splitUpdate_numNodes] at hx
    rw [hblock'] at hb
    rw [hsucc', LlvmFunction.withSplitEdge_successors hsourceLt htargetLt]
    simp only [htarget', hblock']
    exact layout.successors_split hlinked hsource htarget hsucc hi hx hb
  · intro f hf hexit
    rw [Dag.splitUpdate_exit, htarget'] at hexit
    rw [hsource', hsucc']
    rcases (hlinked' f).mp hf with rfl | hf
    · rw [if_pos rfl] at hexit
      rw [hexit, layout.block_exit] at htarget
      contradiction
    · rw [if_neg (hnew f hf)] at hexit ⊢
      rw [if_neg (hnode _ (layout.source_lt f hf))]
      split at hexit
      · exact absurd hexit.symm (hnode _ layout.exit_lt)
      · exact layout.exit_alone f hf hexit
  · exact (hlinked' _).mpr (.inr layout.exitRoot_linked)
  · rw [Dag.splitUpdate_exit, hsource', if_neg (hnew _ layout.exitRoot_linked)]
    exact layout.exitRoot_source
  · rw [Dag.splitUpdate_root, htarget', if_neg (hnew _ layout.exitRoot_linked),
      if_neg hne.symm]
    exact layout.exitRoot_target
  · intro f hf hexit
    rw [Dag.splitUpdate_exit, hsource'] at hexit
    rcases (hlinked' f).mp hf with rfl | hf
    · rw [if_pos rfl] at hexit
      exact absurd hexit.symm (hnode _ layout.exit_lt)
    · rw [if_neg (hnew f hf)] at hexit
      exact layout.of_source f hf hexit
  · intro f hf hroot
    rw [Dag.splitUpdate_root, htarget'] at hroot
    rcases (hlinked' f).mp hf with rfl | hf
    · rw [if_pos rfl] at hroot
      exact absurd (layout.of_target e hlinked hroot) hne
    · rw [if_neg (hnew f hf)] at hroot
      split at hroot
      · exact absurd hroot.symm (hnode _ layout.root_lt)
      · exact layout.of_target f hf hroot
  · rw [Dag.splitUpdate_root, Dag.splitUpdate_exit]
    exact layout.root_ne_exit

end Split

end Layout

end RrWorkbench.PathLogging
