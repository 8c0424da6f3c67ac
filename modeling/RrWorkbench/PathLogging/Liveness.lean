import RrWorkbench.PathLogging.EdgeMarks

namespace RrWorkbench.PathLogging

open RrWorkbench.Data
open RrWorkbench.Data.Relocation

/-! Where the register is live.  After the two passes every path from root to a node
has met as many initializations and counter increments as any other. -/

namespace Dag

def initializations (D : Dag) (path : List EdgeId) : Nat :=
  path.countP fun e => (D.edge e).isInitialization

def counters (D : Dag) (path : List EdgeId) : Nat :=
  path.countP fun e => (D.edge e).isCounterIncrement

section Counts

variable {D : Dag} {e : EdgeId} {first second : List EdgeId}

@[simp] theorem initializations_append :
    D.initializations (first ++ second) =
      D.initializations first + D.initializations second :=
  List.countP_append

@[simp] theorem counters_append :
    D.counters (first ++ second) = D.counters first + D.counters second :=
  List.countP_append

@[simp] theorem initializations_cons :
    D.initializations (e :: second) =
      D.initializations second +
        if (D.edge e).isInitialization then 1 else 0 :=
  List.countP_cons

@[simp] theorem counters_cons :
    D.counters (e :: second) =
      D.counters second + if (D.edge e).isCounterIncrement then 1 else 0 :=
  List.countP_cons

@[simp] theorem initializations_nil : D.initializations [] = 0 := rfl

@[simp] theorem counters_nil : D.counters [] = 0 := rfl

theorem initializations_pos_of_mem (hmem : e ∈ first)
    (hmark : (D.edge e).isInitialization = true) : 0 < D.initializations first :=
  List.countP_pos_iff.mpr ⟨e, hmem, hmark⟩

theorem counters_pos_of_mem (hmem : e ∈ first)
    (hmark : (D.edge e).isCounterIncrement = true) : 0 < D.counters first :=
  List.countP_pos_iff.mpr ⟨e, hmem, hmark⟩

end Counts

namespace MarkedPath

variable {D D' : Dag} {exitRoot first last e : EdgeId}
  {path before middle after head tail : List EdgeId}
  (marked : MarkedPath D D' exitRoot path before middle after first last)

include marked

theorem initializations : D'.initializations path = 1 := by
  rw [Dag.initializations, List.countP_eq_length_filter, marked.initialization]
  rfl

theorem counters : D'.counters path = 1 := by
  rw [Dag.counters, List.countP_eq_length_filter, marked.counter]
  rfl

theorem first_mark : (D'.edge first).isInitialization = true := by
  have hmem : first ∈ path.filter fun e => (D'.edge e).isInitialization := by
    rw [marked.initialization]
    simp
  exact (List.mem_filter.mp hmem).2

theorem last_mark : (D'.edge last).isCounterIncrement = true := by
  have hmem : last ∈ path.filter fun e => (D'.edge e).isCounterIncrement := by
    rw [marked.counter]
    simp
  exact (List.mem_filter.mp hmem).2

theorem counters_before : D'.counters before = 0 := by
  have htotal := marked.counters
  have hmiddle : 0 < D'.counters middle :=
    counters_pos_of_mem (List.mem_of_mem_getLast? marked.getLast) marked.last_mark
  rw [marked.split, counters_append, counters_append] at htotal
  omega

theorem counters_eq_zero (hpath : path = head ++ tail)
    (hinit : D'.initializations head = 0) : D'.counters head = 0 := by
  obtain ⟨rest, hrest⟩ := List.head?_eq_some_iff.mp marked.head
  have hsplit := marked.split
  rw [hpath, hrest, List.append_assoc, List.cons_append] at hsplit
  have hzero := marked.counters_before
  rcases List.append_eq_append_iff.mp hsplit with ⟨part, hbefore, _⟩ |
    ⟨part, hhead, hpart⟩
  · rw [hbefore, counters_append] at hzero
    omega
  · cases part with
    | nil =>
        rw [hhead, List.append_nil]
        exact hzero
    | cons f part =>
        obtain ⟨rfl, _⟩ := List.cons.inj hpart
        have hmem : first ∈ head := by simp [hhead]
        have := initializations_pos_of_mem hmem marked.first_mark
        omega

/-- An edge that adds something, but does not initialize, lies between the
initialization and the counter increment. -/
theorem counts_of_increment (hpath : path = head ++ e :: tail)
    (hincrement : D'.increment e ≠ 0)
    (hinit : (D'.edge e).isInitialization = false) :
    D'.initializations head = 1 ∧ D'.counters head = 0 := by
  have hbefore : e ∉ before := fun h => hincrement (marked.before_zero e h)
  have hafter : e ∉ after := fun h => hincrement (marked.after_zero e h)
  obtain ⟨rest, hrest⟩ := List.head?_eq_some_iff.mp marked.head
  have hsplit := marked.split
  rw [hpath, List.append_assoc] at hsplit
  obtain ⟨part, hhead, hpart⟩ : ∃ part, head = before ++ part ∧
      middle ++ after = part ++ e :: tail := by
    rcases List.append_eq_append_iff.mp hsplit with ⟨part, heq, hpart⟩ |
      ⟨part, heq, hpart⟩
    · cases part with
      | nil => exact ⟨[], by simpa using heq.symm, hpart.symm⟩
      | cons f part =>
          obtain ⟨rfl, _⟩ := List.cons.inj hpart
          exact absurd (by simp [heq]) hbefore
    · exact ⟨part, heq, hpart⟩
  obtain ⟨back, hmiddle⟩ : ∃ back, middle = part ++ e :: back := by
    rcases List.append_eq_append_iff.mp hpart with ⟨rest', heq, hrest'⟩ |
      ⟨rest', heq, hrest'⟩
    · exact absurd (by simp [hrest']) hafter
    · cases rest' with
      | nil => exact absurd (by simp [show after = e :: tail from hrest'.symm]) hafter
      | cons f back =>
          obtain ⟨rfl, _⟩ := List.cons.inj hrest'
          exact ⟨back, heq⟩
  have hfirst : first ∈ part := by
    cases part with
    | nil =>
        have heq : first = e := by
          rw [hrest] at hmiddle
          exact (List.cons.inj hmiddle).1
        rw [← heq, marked.first_mark] at hinit
        contradiction
    | cons f part =>
        have heq : first = f := by
          rw [hrest] at hmiddle
          exact (List.cons.inj hmiddle).1
        simp [heq]
  have hlast : last ∈ e :: back := by
    have := marked.getLast
    rw [hmiddle, List.getLast?_append_of_ne_nil _ (by simp)] at this
    exact List.mem_of_mem_getLast? this
  have hinits := marked.initializations
  have hcounters := marked.counters
  have hpos := initializations_pos_of_mem hfirst marked.first_mark
  have hpos' := counters_pos_of_mem hlast marked.last_mark
  rw [hpath, hhead] at hinits
  rw [marked.split, hmiddle, List.append_assoc, counters_append, counters_append,
    counters_append] at hcounters
  simp only [initializations_append] at hinits
  rw [hhead, initializations_append, counters_append]
  omega

end MarkedPath

/-! The marks away from the paths: what the recursions do not reach, and where they
have to stop. -/

variable {D : Dag}

/-- Initialization only moves through nodes that are entered once, and so is every
node from which one comes there. -/
theorem BallLarus.predEdges_of_initialization (shape : D.BallLarus)
    {exitRoot g : EdgeId} (hexitRoot : D.IsExitRootEdge exitRoot)
    (below : Below D.nextInitialization exitRoot g)
    (hsome : (D.nextInitialization g).isSome) {z : NodeId} {path : List EdgeId}
    (hpath : D.Path D.IsRealEdge z path (D.target g)) :
    ¬ 1 < D.getNumberPredEdges z := by
  induction below generalizing z path with
  | refl =>
      rcases hpath.cases_last with ⟨_, rfl⟩ | ⟨_, f, _, hf, htarget, _⟩
      · exact (nextInitialization_isSome_iff.mp hsome).2.1
      · rw [hexitRoot.target] at htarget
        rw [hexitRoot.of_target f hf.1 htarget] at hf
        exact absurd hexitRoot.source hf.2.2
  | @tail parent g below step ih =>
      obtain ⟨hparent, hmem, _⟩ := child_nextInitialization_iff.mp step
      obtain ⟨hlt, hpred, _⟩ := nextInitialization_isSome_iff.mp hsome
      rcases hpath.cases_last with ⟨_, rfl⟩ | ⟨rest, f, _, hf, htarget, hrest⟩
      · exact hpred
      · have heq := shape.pred_unique hpred hf.1 hlt htarget rfl
        subst heq
        rw [((shape.mem_succEdges _ _).mp hmem).2] at hrest
        exact ih hparent hrest

/-- The counter increment only moves through nodes that are left over one edge, and
so is every node to which one comes from there. -/
theorem BallLarus.succEdges_of_counter (shape : D.BallLarus)
    {exitRoot g : EdgeId} (hexitRoot : D.IsExitRootEdge exitRoot)
    (below : Below D.nextCounter exitRoot g)
    (hsome : (D.nextCounter g).isSome) {z : NodeId} {path : List EdgeId}
    (hpath : D.Path D.IsRealEdge (D.source g) path z) :
    ¬ 1 < D.getNumberSuccEdges z := by
  induction below generalizing z path with
  | refl =>
      cases path with
      | nil =>
          rw [← EdgePath.nil_iff.mp hpath]
          exact (nextCounter_isSome_iff.mp hsome).2.1
      | cons f path =>
          obtain ⟨hf, hsource, _⟩ := EdgePath.cons_iff.mp hpath
          rw [hexitRoot.source] at hsource
          exact absurd hsource hf.2.2
  | @tail parent g below step ih =>
      obtain ⟨hparent, hmem, _⟩ := child_nextCounter_iff.mp step
      obtain ⟨hlt, hsucc, _⟩ := nextCounter_isSome_iff.mp hsome
      cases path with
      | nil =>
          rw [← EdgePath.nil_iff.mp hpath]
          exact hsucc
      | cons f path =>
          obtain ⟨hf, hsource, hrest⟩ := EdgePath.cons_iff.mp hpath
          have heq := shape.succ_unique hsucc hf.1 hlt hsource rfl
          subst heq
          rw [((shape.mem_predEdges _ _).mp hmem).2] at hrest
          exact ih hparent hrest

theorem cut_cases {e : EdgeId} (hcut : (D.type e).isCut = true) :
    D.type e = .backedge ∨ D.type e = .splitedge := by
  cases htype : D.type e <;> simp_all [EdgeType.isCut]

theorem BallLarus.not_below_initialization (shape : D.BallLarus)
    {exitRoot e : EdgeId} (hexitRoot : D.IsExitRootEdge exitRoot)
    (he : e < D.numEdges) (hcut : (D.type e).isCut = true) :
    ¬ Below D.nextInitialization exitRoot e := by
  intro below
  rcases below.cases_tail with heq | ⟨g, hg, step⟩
  · rw [heq, hexitRoot.normal] at hcut
    contradiction
  · obtain ⟨hsome, hmem, hsplit⟩ := child_nextInitialization_iff.mp step
    have hback := (cut_cases hcut).resolve_right hsplit
    obtain ⟨path, hpath⟩ := shape.backedge_loop e he hback
    rw [((shape.mem_succEdges _ _).mp hmem).2] at hpath
    exact shape.predEdges_of_initialization hexitRoot hg hsome hpath
      (shape.two_le_pred_of_cut he hcut)

theorem BallLarus.not_below_counter (shape : D.BallLarus)
    {exitRoot e : EdgeId} (hexitRoot : D.IsExitRootEdge exitRoot)
    (he : e < D.numEdges) (hcut : (D.type e).isCut = true) :
    ¬ Below D.nextCounter exitRoot e := by
  intro below
  rcases below.cases_tail with heq | ⟨g, hg, step⟩
  · rw [heq, hexitRoot.normal] at hcut
    contradiction
  · obtain ⟨hsome, hmem, hsplit⟩ := child_nextCounter_iff.mp step
    have hback := (cut_cases hcut).resolve_right hsplit
    obtain ⟨path, hpath⟩ := shape.backedge_loop e he hback
    rw [((shape.mem_predEdges _ _).mp hmem).2] at hpath
    exact shape.succEdges_of_counter hexitRoot hg hsome hpath
      (shape.two_le_succ_of_cut he hcut)

structure Placed (D D' : Dag) (exitRoot : EdgeId) : Prop where
  marked : ∀ path, D.RootExitPath path →
    ∃ before middle after first last,
      MarkedPath D D' exitRoot path before middle after first last
  join : ∀ e, e < D.numEdges → (D'.edge e).isInitialization = true →
    1 < D.getNumberPredEdges (D.target e) ∨ D.target e = D.exit
  top : ∀ e r, e < D.numEdges → (D.type e).isCut = true →
    (D.edge e).phonyRoot = some r → (D'.edge r).isInitialization = true
  bottom : ∀ e q, e < D.numEdges → (D.type e).isCut = true →
    (D.edge e).phonyExit = some q → (D'.edge q).isCounterIncrement = true
  cut : ∀ e, e < D.numEdges → (D.type e).isCut = true →
    (D'.edge e).isInitialization = false ∧
      (D'.edge e).isCounterIncrement = false ∧
      (D'.edge e).increment = D.increment e
  exitRoot : (D'.edge exitRoot).isInitialization = false ∧
    (D'.edge exitRoot).isCounterIncrement = false ∧
    (D'.edge exitRoot).increment = 0

section Placed

variable {exitRoot : EdgeId} {init counter : Marks EdgeId Int}

theorem EdgeType.ne_splitedge_of_isPhony {type : EdgeType}
    (hphony : type.isPhony = true) : type ≠ .splitedge := by
  rintro rfl
  contradiction

theorem Pushed.join (pushed : Pushed D exitRoot init counter)
    (unmarked : D.Unmarked) {e : EdgeId} (he : e < D.numEdges)
    (hinit : (init e).2 = true) :
    1 < D.getNumberPredEdges (D.target e) ∨ D.target e = D.exit := by
  by_contra hnot
  rw [not_or] at hnot
  have hsome : (D.nextInitialization e).isSome :=
    nextInitialization_isSome_iff.mpr ⟨he, hnot⟩
  by_cases below : Below D.nextInitialization exitRoot e
  · rw [pushed.initialized.cleared below hsome] at hinit
    contradiction
  · have hne : e ≠ exitRoot := by
      rintro rfl
      exact below Relation.ReflTransGen.refl
    rw [pushed.initialized.other e below, Function.update_of_ne hne] at hinit
    rw [show (D.initializationMarks e).2 = (D.edge e).isInitialization from rfl,
      unmarked.isInitialization e he] at hinit
    contradiction

theorem Pushed.top (shape : D.BallLarus) (pushed : Pushed D exitRoot init counter)
    {e r : EdgeId} (he : e < D.numEdges) (hcut : (D.type e).isCut = true)
    (hphony : (D.edge e).phonyRoot = some r) : (init r).2 = true := by
  obtain ⟨r', hr', hlt, htype, hsource, htarget⟩ := shape.phonyRoot e he hcut
  obtain rfl : r' = r := Option.some.inj (hr'.symm.trans hphony)
  have below : Below D.nextInitialization exitRoot r' := by
    refine Relation.ReflTransGen.single (child_nextInitialization_iff.mpr
      ⟨shape.nextInitialization_exitRoot pushed.exitRoot, ?_,
        EdgeType.ne_splitedge_of_isPhony htype⟩)
    rw [pushed.exitRoot.target]
    exact (shape.mem_succEdges _ _).mpr ⟨hlt, hsource⟩
  have hnext : D.nextInitialization r' = none := by
    rw [← Option.not_isSome_iff_eq_none, nextInitialization_isSome_iff, htarget]
    exact fun h => h.2.1 (shape.two_le_pred_of_cut he hcut)
  obtain ⟨total, htotal⟩ := pushed.initialized.kept below hnext
  rw [htotal]

theorem Pushed.bottom (shape : D.BallLarus)
    (pushed : Pushed D exitRoot init counter) {e q : EdgeId}
    (he : e < D.numEdges) (hcut : (D.type e).isCut = true)
    (hphony : (D.edge e).phonyExit = some q) : (counter q).2 = true := by
  obtain ⟨q', hq', hlt, htype, hsource, htarget⟩ := shape.phonyExit e he hcut
  obtain rfl : q' = q := Option.some.inj (hq'.symm.trans hphony)
  have shape' := shape.withInitializationMarks init
  have exitRoot' := pushed.exitRoot.withInitializationMarks init
  have below : Below (D.withInitializationMarks init).nextCounter exitRoot q' := by
    refine Relation.ReflTransGen.single (child_nextCounter_iff.mpr
      ⟨shape'.nextCounter_exitRoot exitRoot'
        (congrArg Prod.snd pushed.cleared_init), ?_,
        EdgeType.ne_splitedge_of_isPhony htype⟩)
    rw [exitRoot'.source]
    exact (shape.mem_predEdges _ _).mpr ⟨hlt, htarget⟩
  have hnext : (D.withInitializationMarks init).nextCounter q' = none := by
    rw [← Option.not_isSome_iff_eq_none, nextCounter_isSome_iff]
    intro h
    have hsucc : ¬ 1 < D.getNumberSuccEdges (D.source q') := h.2.1
    rw [hsource] at hsucc
    exact hsucc (shape.two_le_succ_of_cut he hcut)
  obtain ⟨total, htotal⟩ := pushed.counted.kept below hnext
  rw [htotal]

theorem Pushed.placed (shape : D.BallLarus) (unmarked : D.Unmarked)
    (pushed : Pushed D exitRoot init counter) :
    Placed D ((D.withInitializationMarks init).withCounterMarks counter)
      exitRoot where
  marked path hpath := RootExitPath.marked shape pushed.exitRoot hpath unmarked
    pushed.initialized pushed.counted pushed.cleared_init
  join e he hinit := pushed.join unmarked he hinit
  top e r he hcut hphony := pushed.top shape he hcut hphony
  bottom e q he hcut hphony := pushed.bottom shape he hcut hphony
  cut := by
    intro e he hcut
    have hne : e ≠ exitRoot := by
      rintro rfl
      rw [pushed.exitRoot.normal] at hcut
      contradiction
    have hinit : init e = D.initializationMarks e := by
      rw [pushed.initialized.other e
        (shape.not_below_initialization pushed.exitRoot he hcut),
        Function.update_of_ne hne]
    have hcounter : counter e =
        (D.withInitializationMarks init).counterMarks e := by
      rw [pushed.counted.other e ((shape.withInitializationMarks
        init).not_below_counter (pushed.exitRoot.withInitializationMarks init) he
        hcut), Function.update_of_ne hne]
    exact ⟨(congrArg Prod.snd hinit).trans (unmarked.isInitialization e he),
      (congrArg Prod.snd hcounter).trans (unmarked.isCounterIncrement e he),
      (congrArg Prod.fst hcounter).trans (congrArg Prod.fst hinit)⟩
  exitRoot := ⟨congrArg Prod.snd pushed.cleared_init,
    congrArg Prod.snd pushed.cleared_counter,
    congrArg Prod.fst pushed.cleared_counter⟩

end Placed

/-! Liveness, and the marks of each edge. -/

section Live

variable {D' : Dag} {exitRoot e : EdgeId} {x y : NodeId} {path : List EdgeId}

theorem IsRealEdge.isDagEdge (he : D.IsRealEdge e)
    (hcut : (D.type e).isCut = false) : D.IsDagEdge e :=
  ⟨he.1, hcut, he.2.2⟩

/-- Over the phony edges from root every node is reached without a back edge. -/
theorem BallLarus.from_root_dag (shape : D.BallLarus) (hx : x < D.numNodes) :
    ∃ path, D.Path D.IsDagEdge D.root path x := by
  have extend : ∀ {y path z}, D.Path D.IsRealEdge y path z →
      (∃ path, D.Path D.IsDagEdge D.root path y) →
      ∃ path, D.Path D.IsDagEdge D.root path z := by
    intro y path z hpath
    induction hpath with
    | nil y => exact id
    | @cons f rest z hf _ ih =>
        rintro ⟨before, hbefore⟩
        apply ih
        cases hcut : (D.type f).isCut with
        | false =>
            exact ⟨before ++ [f],
              hbefore.append (.cons (hf.isDagEdge hcut) (.nil _))⟩
        | true =>
            obtain ⟨r, _, hlt, hphony, hsource, htarget⟩ :=
              shape.phonyRoot f hf.1 hcut
            have hdag : D.IsDagEdge r := by
              refine ⟨hlt, ?_, hsource ▸ shape.root_ne_exit⟩
              cases htype : D.type r <;> simp_all [EdgeType.isPhony, EdgeType.isCut]
            refine ⟨[r], EdgePath.cons_iff.mpr ⟨hdag, hsource, ?_⟩⟩
            rw [htarget]
            exact .nil _
  by_cases hexit : x = D.exit
  · exact hexit ▸ shape.to_exit D.root shape.root_lt
  · obtain ⟨path, hpath⟩ := shape.from_root x hx hexit
    exact extend hpath ⟨[], .nil _⟩

open Classical in
/-- On the way to `x` the register has been initialized and not yet counted. -/
noncomputable def live (D D' : Dag) (x : NodeId) : Bool :=
  decide (∃ path, D.Path D.IsDagEdge D.root path x ∧
    D'.initializations path = 1 ∧ D'.counters path = 0)

/-- The way to `x` does not matter. -/
theorem Placed.live_iff (placed : Placed D D' exitRoot) (shape : D.BallLarus)
    (hx : x < D.numNodes) (hpath : D.Path D.IsDagEdge D.root path x) :
    live D D' x = true ↔
      D'.initializations path = 1 ∧ D'.counters path = 0 := by
  simp only [live, decide_eq_true_eq]
  refine ⟨?_, fun h => ⟨path, hpath, h⟩⟩
  rintro ⟨other, hother, hinits, hcounters⟩
  obtain ⟨rest, hrest⟩ := shape.to_exit x hx
  have total : ∀ {way}, D.Path D.IsDagEdge D.root way x →
      D'.initializations way + D'.initializations rest = 1 ∧
        D'.counters way + D'.counters rest = 1 := by
    intro way hway
    obtain ⟨_, _, _, _, _, marked⟩ := placed.marked _ (hway.append hrest)
    rw [← initializations_append, ← counters_append]
    exact ⟨marked.initializations, marked.counters⟩
  have hfirst := total hpath
  have hsecond := total hother
  omega

theorem Placed.counts (placed : Placed D D' exitRoot) (shape : D.BallLarus)
    (hx : x < D.numNodes) (hpath : D.Path D.IsDagEdge D.root path x) :
    D'.counters path ≤ D'.initializations path ∧
      D'.initializations path ≤ 1 := by
  obtain ⟨rest, hrest⟩ := shape.to_exit x hx
  obtain ⟨_, _, _, _, _, marked⟩ := placed.marked _ (hpath.append hrest)
  have hinits := marked.initializations
  have hcounters := marked.counters
  have horder := marked.counters_eq_zero rfl
  rw [initializations_append] at hinits
  rw [counters_append] at hcounters
  omega

theorem Placed.root_dead (placed : Placed D D' exitRoot) (shape : D.BallLarus) :
    live D D' D.root = false := by
  rw [Bool.eq_false_iff]
  intro hlive
  have := (placed.live_iff shape shape.root_lt (.nil _)).mp hlive
  simp at this

theorem Placed.exit_dead (placed : Placed D D' exitRoot) (shape : D.BallLarus) :
    live D D' D.exit = false := by
  rw [Bool.eq_false_iff]
  intro hlive
  obtain ⟨path, hpath⟩ := shape.from_root_dag shape.exit_lt
  obtain ⟨_, _, _, _, _, marked⟩ := placed.marked path hpath
  have := (placed.live_iff shape shape.exit_lt hpath).mp hlive
  rw [marked.counters] at this
  exact absurd this.2 (by decide)

theorem Placed.live_target (placed : Placed D D' exitRoot) (shape : D.BallLarus)
    (he : D.IsDagEdge e) :
    ((D'.edge e).isCounterIncrement = true →
      (D'.edge e).isInitialization = true ∨ live D D' (D.source e) = true) ∧
    live D D' (D.target e) =
      (((D'.edge e).isInitialization || live D D' (D.source e)) &&
        !(D'.edge e).isCounterIncrement) := by
  have hs := shape.source_lt e he.1
  have ht := shape.target_lt e he.1
  obtain ⟨path, hpath⟩ := shape.from_root_dag hs
  have hpath' : D.Path D.IsDagEdge D.root (path ++ [e]) (D.target e) :=
    hpath.append (.cons he (.nil _))
  have hsource := placed.live_iff shape hs hpath
  have htarget := placed.live_iff shape ht hpath'
  have hcounts := placed.counts shape hs hpath
  have hcounts' := placed.counts shape ht hpath'
  simp only [initializations_append, counters_append, initializations_cons,
    counters_cons, initializations_nil, counters_nil, Nat.zero_add]
    at htarget hcounts'
  constructor
  · intro hcounter
    rw [hsource]
    rw [hcounter] at hcounts'
    cases hinit : (D'.edge e).isInitialization with
    | true => exact .inl rfl
    | false =>
        simp only [hinit, if_true, Bool.false_eq_true, if_false] at hcounts'
        exact .inr (by omega)
  · rw [Bool.eq_iff_iff, htarget]
    simp only [Bool.and_eq_true, Bool.or_eq_true, Bool.not_eq_true', hsource]
    cases hinit : (D'.edge e).isInitialization <;>
      cases hcounter : (D'.edge e).isCounterIncrement <;>
        simp only [hinit, hcounter, Bool.false_eq_true, Bool.true_eq_false,
          if_true, if_false, true_or, false_or, and_true, and_false, iff_true,
          iff_false] at hcounts' ⊢ <;> omega

theorem Placed.dead_of_initialization (placed : Placed D D' exitRoot)
    (shape : D.BallLarus) (he : D.IsDagEdge e)
    (hinit : (D'.edge e).isInitialization = true) :
    live D D' (D.source e) = false := by
  have hs := shape.source_lt e he.1
  obtain ⟨path, hpath⟩ := shape.from_root_dag hs
  have hcounts := placed.counts shape (shape.target_lt e he.1)
    (hpath.append (.cons he (.nil _)))
  simp only [initializations_append, initializations_cons, initializations_nil,
    hinit, if_true] at hcounts
  rw [Bool.eq_false_iff, ne_eq, placed.live_iff shape hs hpath]
  omega

theorem Placed.live_of_increment (placed : Placed D D' exitRoot)
    (shape : D.BallLarus) (he : D.IsDagEdge e)
    (hinit : (D'.edge e).isInitialization = false)
    (hincrement : (D'.edge e).increment ≠ 0) :
    live D D' (D.source e) = true := by
  have hs := shape.source_lt e he.1
  obtain ⟨path, hpath⟩ := shape.from_root_dag hs
  obtain ⟨rest, hrest⟩ := shape.to_exit _ (shape.target_lt e he.1)
  obtain ⟨_, _, _, _, _, marked⟩ :=
    placed.marked _ (hpath.append (.cons he hrest))
  exact (placed.live_iff shape hs hpath).mpr
    (marked.counts_of_increment rfl hincrement hinit)

end Live

end Dag

end RrWorkbench.PathLogging
