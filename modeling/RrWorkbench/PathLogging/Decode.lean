import RrWorkbench.Data.PathNumbering
import RrWorkbench.PathLogging.RunOnFunction

namespace RrWorkbench.PathLogging

open RrWorkbench.Data

/-! What the log is for: the numbers that an instrumented function logs say which way
control went through it. -/

namespace Dag

def dagSuccEdges (D : Dag) (x : NodeId) : List EdgeId :=
  (D.succEdges x).filter fun e => !(D.type e).isCut

/-- What LLVM's `calculatePathNumbers` leaves.  It gives each edge out of a node the
number of paths over the edges before it, where back and split edges do not count.  The
phony root edge of a back or split edge is not shared. -/
structure PathNumbers (D : Dag) (numPaths : NodeId → Nat) : Prop where
  exit : numPaths D.exit = 1
  tiles : ∀ x, x < D.numNodes → x ≠ D.exit →
    Tiles D.weight (fun e => numPaths (D.target e)) 0 (D.dagSuccEdges x) (numPaths x)
  numberOfPaths : D.numberOfPaths = numPaths D.root
  phonyRoot_injective : ∀ e, e < D.numEdges → ∀ f, f < D.numEdges →
    (D.type e).isCut = true → (D.type f).isCut = true →
    (D.edge e).phonyRoot = (D.edge f).phonyRoot → e = f

def segmentOfNumber (D : Dag) (number : BitVec 32) : Option (List EdgeId) :=
  pathOfNumber D.target D.exit D.dagSuccEdges D.weight D.numNodes D.root number.toNat

/-- The edge of the flow graph that an edge of a path stands for.  A phony root edge
stands for its back or split edge, a phony exit edge for none. -/
def realEdge (D : Dag) (e : EdgeId) : Option EdgeId :=
  if (D.type e).isPhony then
    (List.range D.numEdges).find? fun f =>
      (D.type f).isCut && (D.edge f).phonyRoot = some e
  else some e

def continues (D : Dag) (segment : List EdgeId) : Bool :=
  segment.any fun e => (D.type e).isPhony && D.target e ≠ D.exit

def suspends (D : Dag) (segment : List EdgeId) : Bool :=
  segment.any fun e => (D.type e).isPhony && D.target e = D.exit

def choicesOf (D : Dag) (path : List EdgeId) : List Nat :=
  path.dropLast.map fun e => (D.realSuccEdges (D.source e)).idxOf e

inductive Pieces (D : Dag) : Bool → List (List EdgeId) → Prop
  | last {arrives : Bool} {segment : List EdgeId} (path : D.RootExitPath segment)
      (continues : D.continues segment = arrives)
      (suspends : D.suspends segment = false) : Pieces D arrives [segment]
  | cons {arrives : Bool} {segment : List EdgeId} {rest : List (List EdgeId)}
      (path : D.RootExitPath segment) (continues : D.continues segment = arrives)
      (suspends : D.suspends segment = true) (tail : Pieces D true rest) :
      Pieces D arrives (segment :: rest)

variable {D : Dag}

theorem Pieces.rootExitPath {arrives : Bool} {segments : List (List EdgeId)}
    (pieces : D.Pieces arrives segments) :
    ∀ segment ∈ segments, D.RootExitPath segment := by
  induction pieces with
  | last path _ _ =>
      intro segment hsegment
      rw [List.mem_singleton.mp hsegment]
      exact path
  | cons path _ _ _ ih =>
      intro segment hsegment
      rcases List.mem_cons.mp hsegment with rfl | hsegment
      · exact path
      · exact ih segment hsegment

/-- Only the last segment of a walk ends without a back or split edge. -/
theorem Pieces.eq_of_isPrefix {arrives arrives' : Bool}
    {segments segments' : List (List EdgeId)} (pieces : D.Pieces arrives segments)
    (pieces' : D.Pieces arrives' segments') (hinitial : segments <+: segments') :
    segments = segments' := by
  induction pieces generalizing arrives' segments' with
  | last path _ hsuspends =>
      cases pieces' with
      | last _ _ _ => rw [(List.cons_prefix_cons.mp hinitial).1]
      | cons _ _ hsuspends' _ =>
          rw [← (List.cons_prefix_cons.mp hinitial).1, hsuspends] at hsuspends'
          contradiction
  | cons _ _ hsuspends _ ih =>
      cases pieces' with
      | last _ _ hsuspends' =>
          rw [← (List.cons_prefix_cons.mp hinitial).1, hsuspends] at hsuspends'
          contradiction
      | cons _ _ _ tail' =>
          obtain ⟨rfl, hrest⟩ := List.cons_prefix_cons.mp hinitial
          rw [ih tail' hrest]

section Segments

variable {e f : EdgeId} {segment : List EdgeId}

theorem realEdge_of_not_phony (hphony : (D.type e).isPhony = false) :
    D.realEdge e = some e := by
  simp [realEdge, hphony]

theorem continues_cons (e : EdgeId) (segment : List EdgeId) :
    D.continues (e :: segment) =
      ((D.type e).isPhony && decide (D.target e ≠ D.exit) || D.continues segment) := rfl

theorem suspends_cons (e : EdgeId) (segment : List EdgeId) :
    D.suspends (e :: segment) =
      ((D.type e).isPhony && decide (D.target e = D.exit) || D.suspends segment) := rfl

theorem PathNumbers.realEdge_phonyRoot {numPaths : NodeId → Nat}
    (numbers : D.PathNumbers numPaths) {r : EdgeId} (he : e < D.numEdges)
    (hcut : (D.type e).isCut = true) (hroot : (D.edge e).phonyRoot = some r)
    (hphony : (D.type r).isPhony = true) : D.realEdge r = some e := by
  rw [realEdge, if_pos hphony]
  cases hfind : (List.range D.numEdges).find? fun f =>
      (D.type f).isCut && decide ((D.edge f).phonyRoot = some r) with
  | none =>
      have := List.find?_eq_none.mp hfind e (List.mem_range.mpr he)
      simp [hcut, hroot] at this
  | some f =>
      have hf := List.find?_some hfind
      have hlt := List.mem_range.mp (List.mem_of_find?_eq_some hfind)
      rw [Bool.and_eq_true, decide_eq_true_eq] at hf
      rw [numbers.phonyRoot_injective e he f hlt hcut hf.1 (hroot.trans hf.2.symm)]

theorem BallLarus.realEdge_phonyExit (shape : D.BallLarus)
    (hphony : (D.type e).isPhony = true) (hexit : D.target e = D.exit) :
    D.realEdge e = none := by
  rw [realEdge, if_pos hphony, List.find?_eq_none]
  intro f hf
  rw [Bool.and_eq_true, decide_eq_true_eq]
  rintro ⟨hcut, hroot⟩
  obtain ⟨r, hr, _, _, _, htarget⟩ := shape.phonyRoot f (List.mem_range.mp hf) hcut
  obtain rfl : r = e := Option.some.inj (hr.symm.trans hroot)
  exact shape.cut_target f (List.mem_range.mp hf) hcut (htarget ▸ hexit)

structure Cut (D : Dag) (x : NodeId) (path segment : List EdgeId)
    (rest : List (List EdgeId)) : Prop where
  segments : D.segments path = segment :: rest
  first : D.Path D.IsDagEdge x segment D.exit
  begins : D.continues segment = false
  ends : D.suspends segment = false ∧ rest = [] ∨
    D.suspends segment = true ∧ D.Pieces true rest
  walk : (segment :: rest).flatMap (·.filterMap D.realEdge) = path

theorem Cut.pieces {x : NodeId} {path : List EdgeId} {rest : List (List EdgeId)}
    (cut : D.Cut x path segment rest) (front : List EdgeId)
    (hpath : D.RootExitPath (front ++ segment))
    {arrives : Bool} (hcontinues : D.continues (front ++ segment) = arrives)
    (hsuspends : D.suspends (front ++ segment) = D.suspends segment) :
    D.Pieces arrives ((front ++ segment) :: rest) := by
  rcases cut.ends with ⟨hends, rfl⟩ | ⟨hends, pieces⟩
  · exact .last hpath hcontinues (hsuspends.trans hends)
  · exact .cons hpath hcontinues (hsuspends.trans hends) pieces

theorem BallLarus.exists_cut (shape : D.BallLarus) {numPaths : NodeId → Nat}
    (numbers : D.PathNumbers numPaths) {x : NodeId} {path : List EdgeId}
    (hpath : D.Path D.IsRealEdge x path D.exit) :
    ∃ segment rest, D.Cut x path segment rest := by
  induction path generalizing x with
  | nil =>
      refine ⟨[], [], rfl, ?_, rfl, .inl ⟨rfl, rfl⟩, rfl⟩
      rw [EdgePath.nil_iff.mp hpath]
      exact .nil _
  | cons e path ih =>
      obtain ⟨he, rfl, htail⟩ := EdgePath.cons_iff.mp hpath
      obtain ⟨segment, rest, cut⟩ := ih htail
      cases hcut : (D.type e).isCut with
      | false =>
          refine ⟨e :: segment, rest, ?_, .cons (he.isDagEdge hcut) cut.first, ?_, ?_, ?_⟩
          · simp [Dag.segments, hcut, cut.segments]
          · rw [continues_cons, he.2.1, cut.begins]
            rfl
          · rw [suspends_cons, he.2.1]
            exact cut.ends
          · have hwalk := cut.walk
            rw [List.flatMap_cons] at hwalk ⊢
            rw [List.filterMap_cons_some (realEdge_of_not_phony he.2.1),
              List.cons_append, hwalk]
      | true =>
          obtain ⟨top, htop, htopLt, htopPhony, htopSource, htopTarget⟩ :=
            shape.phonyRoot e he.1 hcut
          obtain ⟨bottom, hbottom, hbottomLt, hbottomPhony, hbottomSource,
            hbottomTarget⟩ := shape.phonyExit e he.1 hcut
          have hexit : D.target top ≠ D.exit := htopTarget ▸ shape.cut_target e he.1 hcut
          have htopPath : D.RootExitPath (top :: segment) := by
            rw [RootExitPath, ← htopSource]
            exact .cons ⟨htopLt, EdgeType.isCut_of_isPhony htopPhony,
              htopSource ▸ shape.root_ne_exit⟩ (htopTarget ▸ cut.first)
          refine ⟨[bottom], (top :: segment) :: rest, ?_, ?_, ?_, .inr ⟨?_, ?_⟩, ?_⟩
          · simp [Dag.segments, hcut, cut.segments, htop, hbottom]
          · rw [← hbottomSource, ← hbottomTarget]
            exact .cons ⟨hbottomLt, EdgeType.isCut_of_isPhony hbottomPhony,
              hbottomSource ▸ he.2.2⟩ (.nil _)
          · simp [continues, hbottomTarget]
          · simp [suspends, hbottomPhony, hbottomTarget]
          · refine cut.pieces [top] htopPath ?_ ?_
            · simp [continues, htopPhony, hexit]
            · simp [suspends, hexit]
          · have hwalk := cut.walk
            rw [List.flatMap_cons] at hwalk
            rw [List.flatMap_cons, List.flatMap_cons, List.filterMap_cons_none
                (shape.realEdge_phonyExit hbottomPhony hbottomTarget),
              List.filterMap_cons_some
                (numbers.realEdge_phonyRoot he.1 hcut htop htopPhony),
              List.filterMap_nil, List.nil_append, List.cons_append, hwalk]

end Segments

namespace PathNumbers

variable {numPaths : NodeId → Nat}

theorem pathNumbering (numbers : D.PathNumbers numPaths) (shape : D.BallLarus) :
    PathNumbering D.source D.target D.IsDagEdge D.exit D.dagSuccEdges D.weight
      numPaths where
  mem_out e he := List.mem_filter.mpr
    ⟨(shape.mem_succEdges _ _).mpr ⟨he.1, rfl⟩, by rw [he.2.1]; rfl⟩
  source_ne e he := he.2.2
  count_exit := numbers.exit
  tiles e he := numbers.tiles _ (shape.source_lt e he.1) he.2.2

end PathNumbers

theorem BallLarus.length_lt (shape : D.BallLarus) {segment : List EdgeId}
    (hpath : D.RootExitPath segment) : segment.length < D.numNodes := by
  obtain ⟨rank, hrank⟩ := shape.acyclic
  have hnodup : (D.exit :: segment.map D.source).Nodup := by
    refine List.nodup_cons.mpr ⟨fun hmem => ?_, EdgePath.nodup_sources hrank hpath⟩
    obtain ⟨e, he, hsource⟩ := List.mem_map.mp hmem
    exact (hpath.allowed_of_mem e he).2.2 hsource
  have hsubset : D.exit :: segment.map D.source ⊆ List.range D.numNodes := by
    intro x hx
    rw [List.mem_range]
    rcases List.mem_cons.mp hx with rfl | hx
    · exact shape.exit_lt
    · obtain ⟨e, he, rfl⟩ := List.mem_map.mp hx
      exact shape.source_lt e (hpath.allowed_of_mem e he).1
  have hlength := (hnodup.subperm hsubset).length_le
  rwa [List.length_cons, List.length_map, List.length_range] at hlength

section RoundTrip

variable {numPaths : NodeId → Nat} (numbers : D.PathNumbers numPaths)
  (shape : D.BallLarus)

include numbers shape

theorem PathNumbers.pathNumber_bounds {segment : List EdgeId}
    (hpath : D.RootExitPath segment) :
    0 ≤ D.pathNumber segment ∧ D.pathNumber segment < D.numberOfPaths := by
  rw [numbers.numberOfPaths]
  exact (numbers.pathNumbering shape).pathSum_bounds hpath

theorem PathNumbers.toNat_pathNumber (hcount : D.numberOfPaths ≤ 2 ^ 32)
    {segment : List EdgeId} (hpath : D.RootExitPath segment) :
    ((BitVec.ofInt 32 (D.pathNumber segment)).toNat : Int) = D.pathNumber segment := by
  have hbounds := numbers.pathNumber_bounds shape hpath
  rw [BitVec.toNat_ofInt]
  omega

theorem PathNumbers.segmentOfNumber_pathNumber (hcount : D.numberOfPaths ≤ 2 ^ 32)
    {segment : List EdgeId} (hpath : D.RootExitPath segment) :
    D.segmentOfNumber (BitVec.ofInt 32 (D.pathNumber segment)) = some segment := by
  rw [segmentOfNumber, numbers.toNat_pathNumber shape hcount hpath]
  exact (numbers.pathNumbering shape).pathOfNumber_pathSum hpath (shape.length_lt hpath)

theorem PathNumbers.pieces {path : List EdgeId}
    (hpath : D.Path D.IsRealEdge D.root path D.exit) :
    D.Pieces false (D.segments path) ∧
      (D.segments path).flatMap (·.filterMap D.realEdge) = path := by
  obtain ⟨segment, rest, cut⟩ := shape.exists_cut numbers hpath
  rw [cut.segments]
  exact ⟨cut.pieces [] cut.first cut.begins rfl, cut.walk⟩

theorem PathNumbers.map_segmentOfNumber (hcount : D.numberOfPaths ≤ 2 ^ 32)
    {path : List EdgeId} (hpath : D.Path D.IsRealEdge D.root path D.exit) :
    (D.segmentNumbers path).map D.segmentOfNumber = (D.segments path).map some := by
  rw [segmentNumbers, List.map_map]
  refine List.map_congr_left fun segment hsegment => ?_
  exact numbers.segmentOfNumber_pathNumber shape hcount
    ((numbers.pieces shape hpath).1.rootExitPath segment hsegment)

end RoundTrip

/-! The successors that a walk takes. -/

theorem walkEdges_ne_nil {x : NodeId} {choices : List Nat} {path : List EdgeId}
    (hwalk : D.walkEdges x choices = some path) : path ≠ [] := by
  cases choices with
  | nil =>
      obtain ⟨e, _, rfl⟩ := Option.map_eq_some_iff.mp hwalk
      exact List.cons_ne_nil _ _
  | cons succNum choices =>
      obtain ⟨e, _, hwalk⟩ := Option.bind_eq_some_iff.mp hwalk
      obtain ⟨path, _, hcons⟩ := Option.bind_eq_some_iff.mp hwalk
      cases hcons
      exact List.cons_ne_nil _ _

theorem BallLarus.choicesOf_walkEdges (shape : D.BallLarus) {x : NodeId}
    {choices : List Nat} {path : List EdgeId}
    (hwalk : D.unlinked.walkEdges x choices = some path) : D.choicesOf path = choices := by
  induction choices generalizing x path with
  | nil =>
      obtain ⟨e, _, rfl⟩ := Option.map_eq_some_iff.mp hwalk
      rfl
  | cons succNum choices ih =>
      obtain ⟨e, he, hwalk⟩ := Option.bind_eq_some_iff.mp hwalk
      obtain ⟨path, hpath, hcons⟩ := Option.bind_eq_some_iff.mp hwalk
      cases hcons
      have hsource : D.source e = x :=
        (shape.mem_realSuccEdges.mp (List.mem_of_getElem? he)).2
      have hindex : (D.realSuccEdges x).idxOf e = succNum := by
        obtain ⟨hlt, hget⟩ := List.getElem?_eq_some_iff.mp he
        rw [← hget]
        exact ((shape.nodup_succEdges x).filter _).idxOf_getElem succNum hlt
      rw [choicesOf, List.dropLast_cons_of_ne_nil (walkEdges_ne_nil hpath),
        List.map_cons, hsource, hindex, ← choicesOf, ih hpath]

theorem Represents.path_of_walk {F : LlvmFunction} (represents : D.Represents F)
    (shape : D.BallLarus) {allowed : BlockId → BlockId → Prop} {x : NodeId}
    {b : BlockId} {choices : List Nat} {path : List EdgeId} (hx : x < D.numNodes)
    (hb : D.getBlock x = some b) (walk : F.WalkOver allowed b choices)
    (hpath : D.unlinked.walkEdges x choices = some path) :
    D.Path D.IsRealEdge x path D.exit := by
  obtain ⟨exitRoot, hexitRoot⟩ := shape.exists_exitRootEdge
  have layout := represents.layout shape hexitRoot
  have hexit : ∀ {x b}, D.getBlock x = some b → x ≠ D.exit := by
    rintro x b hb rfl
    rw [represents.block_exit] at hb
    contradiction
  induction choices generalizing x b path with
  | nil =>
      obtain ⟨e, he, htarget⟩ := (represents.leaves x b hx hb).mp walk
      obtain ⟨f, hf, rfl⟩ := Option.map_eq_some_iff.mp hpath
      obtain rfl : e = f := by
        have halone : D.unlinked.succEdges x = [e] := represents.exit_alone x e he htarget
        rw [halone] at hf
        exact Option.some.inj hf
      obtain ⟨hlinked, rfl⟩ := shape.mem_realSuccEdges.mp he
      exact .cons ⟨hlinked.1, hlinked.2, hexit hb⟩ (htarget ▸ .nil _)
  | cons succNum choices ih =>
      obtain ⟨e, he, hedges⟩ := Option.bind_eq_some_iff.mp hpath
      obtain ⟨path, hrest, hcons⟩ := Option.bind_eq_some_iff.mp hedges
      cases hcons
      obtain ⟨hstays, next, hnext, _, walk⟩ := walk
      obtain ⟨hlinked, rfl⟩ := shape.mem_realSuccEdges.mp (List.mem_of_getElem? he)
      have hinside : ∀ f ∈ D.unlinked.succEdges (D.source e), D.target f ≠ D.exit := by
        intro f hf htarget
        have := (represents.leaves _ b hx hb).mpr ⟨f, hf, htarget⟩
        rw [hstays] at this
        contradiction
      have hblock : D.getBlock (D.target e) = some next := by
        have := layout.getElem?_successors hx hb hinside succNum
        rw [hnext, he] at this
        exact this.symm
      exact .cons ⟨hlinked.1, hlinked.2, hexit hb⟩
        (ih (shape.target_lt e hlinked.1) hblock walk hrest)

end Dag

namespace Dag

section Function

variable {D : Dag} {F : LlvmFunction} {numPaths : NodeId → Nat}

/-- Along every walk through `F` an execution of `F'` comes to an end, and logs the
numbers of a path through the DAG that takes the same successors. -/
def Logs (D : Dag) (F F' : LlvmFunction) : Prop :=
  ∀ choices env steps, F.WalkOver F.Instrumentable F.entry choices →
    2 * choices.length + 1 ≤ steps →
    ∃ path, D.Path D.IsRealEdge D.root path D.exit ∧ D.choicesOf path = choices ∧
      F'.run F.numBlocks steps F.entry env choices = some (D.segmentNumbers path)

theorem Numbered.exists_logs (numbered : D.Numbered F) (hF : F.Uninstrumented)
    (splitter : SplitCriticalEdge) :
    ∃ bound, ∀ fuel, bound ≤ fuel → ∃ F', runOnFunction splitter fuel D F = .ok F' ∧
      D.Logs F F' := by
  obtain ⟨bound, hbound⟩ := numbered.exists_runOnFunction hF splitter
  refine ⟨bound, fun fuel hfuel => ?_⟩
  obtain ⟨F', hrun, hwalks⟩ := hbound fuel hfuel
  refine ⟨F', hrun, fun choices env steps walk hsteps => ?_⟩
  obtain ⟨path, hpath, hlog⟩ := hwalks choices env steps walk hsteps
  refine ⟨path, ?_, numbered.shape.choicesOf_walkEdges hpath, hlog⟩
  exact numbered.represents.path_of_walk numbered.shape numbered.shape.root_lt
    numbered.represents.entry walk hpath

theorem Logs.exists_path {F' : LlvmFunction} (logs : D.Logs F F') {choices : List Nat}
    {env : Env} {steps : Nat} {log : List (BitVec 32)}
    (walk : F.WalkOver F.Instrumentable F.entry choices)
    (hlog : F'.run F.numBlocks steps F.entry env choices = some log) :
    ∃ path, D.Path D.IsRealEdge D.root path D.exit ∧ D.choicesOf path = choices ∧
      log = D.segmentNumbers path := by
  obtain ⟨path, hpath, hchoices, hlog'⟩ := logs choices env
    (max steps (2 * choices.length + 1)) walk (Nat.le_max_right _ _)
  refine ⟨path, hpath, hchoices, ?_⟩
  have hmore := F'.run_mono F.numBlocks
    (Nat.le_max_left steps (2 * choices.length + 1)) hlog
  exact Option.some.inj (hmore.symm.trans hlog')

theorem PathNumbers.lt_numberOfPaths (numbers : D.PathNumbers numPaths)
    (shape : D.BallLarus) (hcount : D.numberOfPaths ≤ 2 ^ 32) {path : List EdgeId}
    (hpath : D.Path D.IsRealEdge D.root path D.exit) :
    ∀ number ∈ D.segmentNumbers path, number.toNat < D.numberOfPaths := by
  intro number hnumber
  obtain ⟨segment, hsegment, rfl⟩ := List.mem_map.mp hnumber
  have hroot := (numbers.pieces shape hpath).1.rootExitPath segment hsegment
  have hbounds := numbers.pathNumber_bounds shape hroot
  have hexact := numbers.toNat_pathNumber shape hcount hroot
  omega

/-- A log that begins with the numbers of a complete path is the log of that path. -/
theorem PathNumbers.path_eq_of_isPrefix (numbers : D.PathNumbers numPaths)
    (shape : D.BallLarus) (hcount : D.numberOfPaths ≤ 2 ^ 32)
    {path path' : List EdgeId} (hpath : D.Path D.IsRealEdge D.root path D.exit)
    (hpath' : D.Path D.IsRealEdge D.root path' D.exit)
    (hinitial : D.segmentNumbers path <+: D.segmentNumbers path') : path = path' := by
  have hmap : (D.segments path).map some <+: (D.segments path').map some := by
    rw [← numbers.map_segmentOfNumber shape hcount hpath,
      ← numbers.map_segmentOfNumber shape hcount hpath']
    exact hinitial.map _
  obtain ⟨pieces, hwalk⟩ := numbers.pieces shape hpath
  obtain ⟨pieces', hwalk'⟩ := numbers.pieces shape hpath'
  have hsegments := pieces.eq_of_isPrefix pieces'
    ((List.prefix_map_iff_of_injective (Option.some_injective _)).mp hmap)
  rw [← hwalk, ← hwalk', hsegments]

end Function

end Dag

/-- The logs of complete walks are a prefix code: from the beginning of a log that is
itself a complete one, the walk is known.  Each number stays below the number of
paths. -/
theorem runOnFunction_logs_determine_walk {D : Dag} {F : LlvmFunction}
    {numPaths : NodeId → Nat} (numbered : D.Numbered F)
    (numbers : D.PathNumbers numPaths) (hcount : D.numberOfPaths ≤ 2 ^ 32)
    (hF : F.Uninstrumented) (splitter : SplitCriticalEdge) :
    ∃ bound, ∀ fuel, bound ≤ fuel → ∃ F',
      runOnFunction splitter fuel D F = .ok F' ∧
      (∀ choices env, F.WalkOver F.Instrumentable F.entry choices →
        ∃ log, F'.run F.numBlocks (2 * choices.length + 1) F.entry env choices =
            some log ∧
          ∀ number ∈ log, number.toNat < D.numberOfPaths) ∧
      ∀ choices choices' env env' steps steps' log log',
        F.WalkOver F.Instrumentable F.entry choices →
        F.WalkOver F.Instrumentable F.entry choices' →
        F'.run F.numBlocks steps F.entry env choices = some log →
        F'.run F.numBlocks steps' F.entry env' choices' = some log' →
        log <+: log' → choices = choices' := by
  obtain ⟨bound, hbound⟩ := numbered.exists_logs hF splitter
  refine ⟨bound, fun fuel hfuel => ?_⟩
  obtain ⟨F', hrun, logs⟩ := hbound fuel hfuel
  refine ⟨F', hrun, fun choices env walk => ?_, ?_⟩
  · obtain ⟨path, hpath, _, hlog⟩ := logs choices env _ walk (Nat.le_refl _)
    exact ⟨_, hlog, numbers.lt_numberOfPaths numbered.shape hcount hpath⟩
  · intro choices choices' env env' steps steps' log log' walk walk' hlog hlog' hinitial
    obtain ⟨path, hpath, rfl, rfl⟩ := logs.exists_path walk hlog
    obtain ⟨path', hpath', rfl, rfl⟩ := logs.exists_path walk' hlog'
    rw [numbers.path_eq_of_isPrefix numbered.shape hcount hpath hpath' hinitial]

theorem whileLoop_pathNumbers :
    Dag.whileLoop.PathNumbers fun x => [4, 1, 2, 1, 1].getD x 0 where
  exit := by decide
  tiles := by decide
  numberOfPaths := by decide
  phonyRoot_injective := by decide

theorem whileLoopFunction_walk (turns : Nat) :
    whileLoopFunction.WalkOver whileLoopFunction.Instrumentable
      whileLoopFunction.entry (0 :: (List.replicate turns [0, 0]).flatten ++ [1]) := by
  refine ⟨rfl, 1, rfl, whileLoopFunction_instrumentable _ _, ?_⟩
  induction turns with
  | zero => exact ⟨rfl, 3, rfl, whileLoopFunction_instrumentable _ _, rfl⟩
  | succ turns ih =>
      exact ⟨rfl, 2, rfl, whileLoopFunction_instrumentable _ _, rfl, 1, rfl,
        whileLoopFunction_instrumentable _ _, ih⟩

/-- Leaving the loop at once or after one turn. -/
theorem runOnFunction_logs_determine_walk_whileLoop :
    ∃ bound, ∀ fuel, bound ≤ fuel → ∃ F',
      runOnFunction splitCriticalEdge fuel Dag.whileLoop whileLoopFunction = .ok F' ∧
      ∀ env env', ∃ log log', F'.run 4 5 0 env [0, 1] = some log ∧
        F'.run 4 9 0 env' [0, 0, 0, 1] = some log' ∧ ¬ log <+: log' := by
  obtain ⟨bound, hbound⟩ := runOnFunction_logs_determine_walk whileLoop_numbered
    whileLoop_pathNumbers (by decide) whileLoopFunction_uninstrumented splitCriticalEdge
  refine ⟨bound, fun fuel hfuel => ?_⟩
  obtain ⟨F', hrun, hlogs, hcode⟩ := hbound fuel hfuel
  refine ⟨F', hrun, fun env env' => ?_⟩
  obtain ⟨log, hlog, _⟩ := hlogs [0, 1] env (whileLoopFunction_walk 0)
  obtain ⟨log', hlog', _⟩ := hlogs [0, 0, 0, 1] env' (whileLoopFunction_walk 1)
  refine ⟨log, log', hlog, hlog', fun hinitial => ?_⟩
  have := hcode _ _ _ _ _ _ _ _ (whileLoopFunction_walk 0) (whileLoopFunction_walk 1)
    hlog hlog' hinitial
  contradiction

end RrWorkbench.PathLogging
