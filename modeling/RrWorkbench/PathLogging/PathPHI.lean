import RrWorkbench.PathLogging.Layout

namespace RrWorkbench.PathLogging

/-! The incoming values of `pathNumber` PHIs, which follow the predecessors of
their block while edges are split. -/

namespace Incoming

def blocks (entries : List (Value × BlockId)) : List BlockId :=
  entries.map Prod.snd

@[simp] theorem blocks_nil : blocks [] = [] := rfl

@[simp] theorem blocks_cons (entry : Value × BlockId)
    (rest : List (Value × BlockId)) :
    blocks (entry :: rest) = entry.2 :: blocks rest := rfl

@[simp] theorem blocks_append (first second : List (Value × BlockId)) :
    blocks (first ++ second) = blocks first ++ blocks second := by
  simp [blocks]

variable {entries removed : List (Value × BlockId)} {b other : BlockId}

theorem exists_remove (hcount : 0 < (blocks entries).count b) :
    ∃ removed, remove entries b = some removed := by
  induction entries with
  | nil => simp at hcount
  | cons entry rest ih =>
      by_cases hb : entry.2 = b
      · exact ⟨rest, if_pos hb⟩
      · have hrest : 0 < (blocks rest).count b := by
          simpa [List.count_cons_of_ne hb] using hcount
        obtain ⟨removed, hremoved⟩ := ih hrest
        exact ⟨entry :: removed, by simp [remove, hb, hremoved]⟩

theorem remove_cons_of_ne {entry : Value × BlockId}
    {rest : List (Value × BlockId)} (hb : entry.2 ≠ b)
    (hremoved : remove (entry :: rest) b = some removed) :
    ∃ removed', remove rest b = some removed' ∧ removed = entry :: removed' := by
  rw [remove, if_neg hb, Option.map_eq_some_iff] at hremoved
  obtain ⟨removed', hrest, heq⟩ := hremoved
  exact ⟨removed', hrest, heq.symm⟩

theorem count_remove (hremoved : remove entries b = some removed) (p : BlockId) :
    (blocks removed).count p + (if b = p then 1 else 0) =
      (blocks entries).count p := by
  induction entries generalizing removed with
  | nil => simp [remove] at hremoved
  | cons entry rest ih =>
      by_cases hb : entry.2 = b
      · rw [remove, if_pos hb] at hremoved
        cases hremoved
        simp [List.count_cons, hb]
      · obtain ⟨removed', hrest, rfl⟩ := remove_cons_of_ne hb hremoved
        have := ih hrest
        simp only [blocks_cons, List.count_cons]
        omega

theorem lookup_remove_of_ne (hremoved : remove entries b = some removed)
    (hne : other ≠ b) : lookup removed other = lookup entries other := by
  induction entries generalizing removed with
  | nil => simp [remove] at hremoved
  | cons entry rest ih =>
      by_cases hb : entry.2 = b
      · rw [remove, if_pos hb] at hremoved
        cases hremoved
        rw [lookup, if_neg]
        rw [hb]
        exact hne.symm
      · obtain ⟨removed', hrest, rfl⟩ := remove_cons_of_ne hb hremoved
        rw [lookup, lookup, ih hrest]

theorem lookup_eq_none (hcount : (blocks entries).count b = 0) :
    lookup entries b = none := by
  induction entries with
  | nil => rfl
  | cons entry rest ih =>
      rw [blocks_cons, List.count_cons] at hcount
      have hb : entry.2 ≠ b := by
        intro hb
        simp [hb] at hcount
      rw [lookup, if_neg hb]
      exact ih (by omega)

theorem lookup_append_of_none {value : Value}
    (hnone : lookup entries b = none) :
    lookup (entries ++ [(value, b)]) b = some value := by
  induction entries with
  | nil => simp [lookup]
  | cons entry rest ih =>
      rw [lookup] at hnone
      split at hnone
      · contradiction
      · rw [List.cons_append, lookup, if_neg ‹_›]
        exact ih hnone

theorem lookup_append_of_ne {value : Value} (hne : other ≠ b) :
    lookup (entries ++ [(value, b)]) other = lookup entries other := by
  induction entries with
  | nil => simp [lookup, hne.symm]
  | cons entry rest ih => rw [List.cons_append, lookup, lookup, ih]

theorem count_revector (other : BlockId)
    (hcount : 0 < (blocks entries).count b) (p : BlockId) :
    (blocks (revector entries b other)).count p + (if b = p then 1 else 0) =
      (blocks entries).count p + if other = p then 1 else 0 := by
  induction entries with
  | nil => simp at hcount
  | cons entry rest ih =>
      by_cases hb : entry.2 = b
      · rw [revector, if_pos hb]
        simp only [blocks_cons, List.count_cons, hb, beq_iff_eq]
        omega
      · have hrest : 0 < (blocks rest).count b := by
          simpa [List.count_cons_of_ne hb] using hcount
        have := ih hrest
        rw [revector, if_neg hb]
        simp only [blocks_cons, List.count_cons]
        omega

theorem lookup_revector {p : BlockId} (hformer : p ≠ b) (hnew : p ≠ other) :
    lookup (revector entries b other) p = lookup entries p := by
  induction entries with
  | nil => rfl
  | cons entry rest ih =>
      by_cases hb : entry.2 = b
      · rw [revector, if_pos hb, lookup, lookup, if_neg hnew.symm, if_neg]
        rw [hb]
        exact hformer.symm
      · rw [revector, if_neg hb, lookup, lookup, ih]

end Incoming

namespace LlvmFunction

theorem lt_succ_iff_of_ne {p n : Nat} (hne : p ≠ n) : p < n + 1 ↔ p < n := by
  omega

theorem count_predecessors (F : LlvmFunction) (b p : BlockId) :
    (F.predecessors b).count p =
      if p < F.numBlocks then (F.successors p).count b else 0 := by
  unfold predecessors
  generalize F.numBlocks = n
  induction n with
  | zero => simp
  | succ n ih =>
      rw [List.range_succ, List.flatMap_append, List.count_append, ih]
      simp only [List.flatMap_cons, List.flatMap_nil, List.append_nil,
        List.count_replicate, beq_iff_eq]
      by_cases hp : n = p
      · subst hp
        simp
      · simp only [hp, if_false, lt_succ_iff_of_ne (Ne.symm hp), Nat.add_zero]

def Complete (F : LlvmFunction) (b : BlockId) (entries : List (Value × BlockId)) :
    Prop :=
  ∀ p, (Incoming.blocks entries).count p =
    if p < F.numBlocks then (F.successors p).count b else 0

def PhiOk (F : LlvmFunction) : Prop :=
  ∀ b, b < F.numBlocks → ∀ entries, (F.block b).pathPHI = some entries →
    F.Complete b entries

theorem complete_predecessors (F : LlvmFunction) (b : BlockId) (value : Value) :
    F.Complete b ((F.predecessors b).map fun pred => (value, pred)) := by
  intro p
  have hblocks : Incoming.blocks
      ((F.predecessors b).map fun pred => (value, pred)) = F.predecessors b := by
    simp [Incoming.blocks]
  rw [hblocks]
  exact F.count_predecessors b p

section Replace

variable {F : LlvmFunction} {b source : BlockId}
  {entries removed : List (Value × BlockId)}

theorem Complete.replace (complete : F.Complete b entries)
    (hremoved : Incoming.remove entries source = some removed) (value : Value) :
    F.Complete b (removed ++ [(value, source)]) := by
  intro p
  rw [← complete p, ← Incoming.count_remove hremoved p]
  simp [List.count_cons]

/-- The value of a block that is followed by `b` only can be replaced, and it is then
the value that the PHI takes from this block. -/
theorem Complete.exists_replace (complete : F.Complete b entries)
    (hsource : source < F.numBlocks) (hcount : (F.successors source).count b = 1)
    (value : Value) :
    ∃ removed, Incoming.remove entries source = some removed ∧
      Incoming.lookup (removed ++ [(value, source)]) source = some value := by
  have hentries : (Incoming.blocks entries).count source = 1 := by
    rw [complete source, if_pos hsource, hcount]
  obtain ⟨removed, hremoved⟩ :=
    Incoming.exists_remove (Nat.lt_of_lt_of_eq Nat.zero_lt_one hentries.symm)
  refine ⟨removed, hremoved, Incoming.lookup_append_of_none
    (Incoming.lookup_eq_none ?_)⟩
  have := Incoming.count_remove hremoved source
  rw [if_pos rfl, hentries] at this
  exact Nat.succ_injective this

end Replace

theorem PhiOk.withSplitEdge {F : LlvmFunction} (phis : F.PhiOk)
    {source target : BlockId} {succNum : Nat} (hsource : source < F.numBlocks)
    (htarget : target < F.numBlocks)
    (hi : (F.successors source)[succNum]? = some target) :
    (F.withSplitEdge source succNum target).PhiOk := by
  obtain ⟨hlt, hget⟩ := List.getElem?_eq_some_iff.mp hi
  have hpos : 0 < (F.successors source).count target :=
    List.count_pos_iff.mpr (List.mem_of_getElem? hi)
  have hnum : (F.withSplitEdge source succNum target).numBlocks =
    F.numBlocks + 1 := rfl
  intro b hblt entries hentries p
  rw [withSplitEdge_pathPHI hsource htarget] at hentries
  rw [hnum, withSplitEdge_successors hsource htarget]
  split at hentries
  · contradiction
  rename_i hbnew
  by_cases hb : b = target
  · subst hb
    rw [if_pos rfl, Option.map_eq_some_iff] at hentries
    obtain ⟨former, hformer, rfl⟩ := hentries
    have hcount := phis b htarget former hformer
    have hpos' : 0 < (Incoming.blocks former).count source := by
      rw [hcount, if_pos hsource]
      exact hpos
    have hmoved := Incoming.count_revector F.numBlocks hpos' p
    rw [hcount p] at hmoved
    by_cases hpnew : p = F.numBlocks
    · subst hpnew
      have : ¬ source = F.numBlocks := Nat.ne_of_lt hsource
      simp [this] at hmoved ⊢
      exact hmoved
    · by_cases hps : p = source
      · subst hps
        have hlt' : p < F.numBlocks + 1 := Nat.lt_succ_of_lt hsource
        have hset := List.count_set (a := F.numBlocks) (b := b) hlt
        simp only [hget, beq_self_eq_true, if_true] at hset
        simp only [hsource, if_true, Ne.symm hpnew, if_false] at hmoved
        rw [if_pos hlt', if_neg hpnew, if_pos rfl, hset]
        simp only [beq_iff_eq, Ne.symm hbnew, if_false]
        omega
      · rw [if_neg (Ne.symm hps), if_neg (Ne.symm hpnew)] at hmoved
        rw [if_neg hpnew, if_neg hps]
        simpa [lt_succ_iff_of_ne hpnew] using hmoved
  · rw [if_neg hb] at hentries
    have hblt' := (lt_succ_iff_of_ne hbnew).mp hblt
    rw [phis b hblt' entries hentries p]
    by_cases hpnew : p = F.numBlocks
    · subst hpnew
      simp [Ne.symm hb]
    · rw [if_neg hpnew]
      simp only [lt_succ_iff_of_ne hpnew]
      by_cases hps : p = source
      · subst hps
        have hset := List.count_set (a := F.numBlocks) (b := b) hlt
        rw [if_pos rfl, hset]
        simp [hget, Ne.symm hb, Ne.symm hbnew]
      · rw [if_neg hps]

end LlvmFunction

/-! Critical edges of the DAG are critical edges of the function. -/

theorem exists_ne_of_one_lt_length {α : Type} [DecidableEq α] {items : List α}
    (nodup : items.Nodup) (hlength : 1 < items.length) (item : α) :
    ∃ other ∈ items, other ≠ item := by
  match items, nodup, hlength with
  | first :: second :: _, nodup, _ =>
      by_cases hfirst : first = item
      · refine ⟨second, by simp, ?_⟩
        rintro rfl
        simp [hfirst] at nodup
      · exact ⟨first, by simp, hfirst⟩

namespace Layout

variable {D : Dag} {F : LlvmFunction} {exitRoot e : EdgeId}
  {source target : BlockId}

theorem source_ne_exit (layout : Layout D F exitRoot) (hlinked : D.Linked e)
    (hne : e ≠ exitRoot) : D.source e ≠ D.exit :=
  fun h => hne (layout.of_source e hlinked h)

theorem target_ne_root (layout : Layout D F exitRoot) (hlinked : D.Linked e)
    (hne : e ≠ exitRoot) : D.target e ≠ D.root :=
  fun h => hne (layout.of_target e hlinked h)

theorem block_source (layout : Layout D F exitRoot) (hlinked : D.Linked e)
    (hne : e ≠ exitRoot) :
    ∃ b, b < F.numBlocks ∧ D.getBlock (D.source e) = some b :=
  layout.block _ (layout.source_lt e hlinked)
    (layout.source_ne_exit hlinked hne)

theorem count_successors_pos (layout : Layout D F exitRoot)
    (hlinked : D.Linked e) (hsource : D.getBlock (D.source e) = some source)
    (htarget : D.getBlock (D.target e) = some target) :
    0 < (F.successors source).count target := by
  rw [List.count_pos_iff,
    layout.successors _ _ (layout.source_lt e hlinked) hsource,
    List.mem_filterMap]
  exact ⟨e, (layout.mem_succEdges _ _).mpr ⟨hlinked, rfl⟩, htarget⟩

theorem two_le_count_successors (layout : Layout D F exitRoot) {f : EdgeId}
    (hlinked : D.Linked e) (hlinked' : D.Linked f) (hne : f ≠ e)
    (hsame : D.source f = D.source e)
    (hsource : D.getBlock (D.source e) = some source)
    (htarget : D.getBlock (D.target e) = some target)
    (htarget' : D.getBlock (D.target f) = some target) :
    2 ≤ (F.successors source).count target := by
  rw [layout.successors _ _ (layout.source_lt e hlinked) hsource,
    List.count_filterMap, List.countP_eq_length_filter]
  have hmem : ∀ g, D.Linked g → D.source g = D.source e →
      D.getBlock (D.target g) = some target →
      g ∈ (D.succEdges (D.source e)).filter
        fun g => D.getBlock (D.target g) == some target := by
    intro g hg hgsource hgtarget
    simp [(layout.mem_succEdges _ _).mpr ⟨hg, hgsource⟩, hgtarget]
  exact Dag.two_le_length_of_mem (hmem f hlinked' hsame htarget')
    (hmem e hlinked rfl htarget) hne

theorem length_successors (layout : Layout D F exitRoot) {x : NodeId}
    (hx : x < D.numNodes) (hsource : D.getBlock x = some source)
    (hsucc : 1 < D.getNumberSuccEdges x) :
    (F.successors source).length = D.getNumberSuccEdges x := by
  rw [layout.successors _ _ hx hsource, List.length_filterMap_eq_countP,
    Dag.getNumberSuccEdges, List.countP_eq_length]
  intro f hf
  obtain ⟨b, _, hb⟩ := layout.block_target
    ((layout.mem_succEdges _ f).mp hf).1 (layout.target_ne_exit hsucc hf)
  simp [hb]

theorem one_lt_length_predecessors (layout : Layout D F exitRoot)
    (hlinked : D.Linked e) (hne : e ≠ exitRoot)
    (hsource : D.getBlock (D.source e) = some source)
    (htarget : D.getBlock (D.target e) = some target)
    (hpred : 1 < D.getNumberPredEdges (D.target e)) :
    1 < (F.predecessors target).length := by
  obtain ⟨f, hf, hfe⟩ := exists_ne_of_one_lt_length
    (layout.nodup_predEdges _) hpred e
  obtain ⟨hflinked, hftarget⟩ := (layout.mem_predEdges _ f).mp hf
  have hfroot : f ≠ exitRoot := by
    rintro rfl
    exact layout.target_ne_root hlinked hne
      (hftarget.symm.trans layout.exitRoot_target)
  have htarget' : D.getBlock (D.target f) = some target := hftarget ▸ htarget
  have hcount : ∀ {g : EdgeId} {b : BlockId}, D.Linked g →
      D.getBlock (D.source g) = some b →
      (F.predecessors target).count b = (F.successors b).count target := by
    intro g b hg hb
    rw [F.count_predecessors,
      if_pos (layout.block_lt (layout.source_lt g hg) hb)]
  by_cases hsame : D.source f = D.source e
  · calc 1 < (F.successors source).count target :=
          layout.two_le_count_successors hlinked hflinked hfe hsame hsource
            htarget htarget'
      _ = (F.predecessors target).count source := (hcount hlinked hsource).symm
      _ ≤ (F.predecessors target).length := List.count_le_length
  · obtain ⟨b, _, hb⟩ := layout.block_source hflinked hfroot
    have hmem : ∀ {g : EdgeId} {b : BlockId}, D.Linked g →
        D.getBlock (D.source g) = some b →
        D.getBlock (D.target g) = some target →
        b ∈ F.predecessors target := by
      intro g b hg hb hgtarget
      rw [← List.count_pos_iff, hcount hg hb]
      exact layout.count_successors_pos hg hb hgtarget
    refine Dag.two_le_length_of_mem (hmem hflinked hb htarget')
      (hmem hlinked hsource htarget) ?_
    rintro rfl
    exact hsame (layout.block_injective _ _ _ (layout.source_lt f hflinked)
      (layout.source_lt e hlinked) hb hsource)

/-- The first successor with the target of `e` is `e` itself, if no earlier edge
has the same target. -/
theorem idxOf_successors (layout : Layout D F exitRoot)
    {before after : List EdgeId} (hlinked : D.Linked e)
    (hsource : D.getBlock (D.source e) = some source)
    (htarget : D.getBlock (D.target e) = some target)
    (hsucc : 1 < D.getNumberSuccEdges (D.source e))
    (hsplit : D.succEdges (D.source e) = before ++ e :: after)
    (hbefore : ∀ f ∈ before, D.target f ≠ D.target e) :
    (F.successors source).idxOf target = before.length := by
  have hlinked' : ∀ f ∈ before, D.Linked f := by
    intro f hf
    exact ((layout.mem_succEdges (D.source e) f).mp (by simp [hsplit, hf])).1
  rw [layout.successors _ _ (layout.source_lt e hlinked) hsource, hsplit,
    List.filterMap_append,
    List.filterMap_cons_some (f := fun f => D.getBlock (D.target f)) htarget,
    List.idxOf_append_of_notMem, List.idxOf_cons_self, Nat.add_zero,
    List.length_filterMap_eq_countP, List.countP_eq_length]
  · intro f hf
    obtain ⟨b, _, hb⟩ := layout.block_target (hlinked' f hf)
      (layout.target_ne_exit hsucc (by simp [hsplit, hf]))
    simp [hb]
  · rw [List.mem_filterMap]
    rintro ⟨f, hf, hblock⟩
    exact hbefore f hf (layout.block_injective _ _ _
      (layout.target_lt f (hlinked' f hf)) (layout.target_lt e hlinked)
      hblock htarget)

end Layout

end RrWorkbench.PathLogging
