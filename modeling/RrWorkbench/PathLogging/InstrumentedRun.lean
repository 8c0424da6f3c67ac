import RrWorkbench.PathLogging.EmissionRun

namespace RrWorkbench.PathLogging

/-! An execution of the instrumented function follows the register through the DAG:
what it logs along a walk is what the edges of the walk do. -/

def Dag.trace (D : Dag) : Option Int → List EdgeId → List Int
  | _, [] => []
  | register, e :: path =>
      (D.traverse e register).2 ++ D.trace (D.traverse e register).1 path

def Dag.walkEdges (D : Dag) : NodeId → List Nat → Option (List EdgeId)
  | x, [] => (D.succEdges x).head?.map fun e => [e]
  | x, succNum :: choices => do
      let e ← (D.succEdges x)[succNum]?
      let path ← D.walkEdges (D.target e) choices
      some (e :: path)

theorem Dag.walkEdges_congr {D D' : Dag} (hsucc : D.succEdges = D'.succEdges)
    (htarget : D.target = D'.target) {x : NodeId} {choices : List Nat} :
    D.walkEdges x choices = D'.walkEdges x choices := by
  induction choices generalizing x with
  | nil => rw [Dag.walkEdges, Dag.walkEdges, hsucc]
  | cons i choices ih => simp only [Dag.walkEdges, hsucc, htarget, @ih]

def LeavesAtExit (D : Dag) (F : LlvmFunction) : Prop :=
  ∀ x b, x < D.numNodes → D.getBlock x = some b →
    ((F.block b).terminator.leavesFunction = true ↔
      ∃ e, D.Linked e ∧ D.source e = x ∧ D.target e = D.exit)

/-- The execution in front of block `b` of node `x` goes on, in some steps, to block `c`
of node `y`: it logs what the instructions in `x` do and then `logged`, and leaves
`rest` of the choices. -/
def Advances (G : Ghost) (D : Dag) (F : LlvmFunction) (original steps : Nat)
    (x : NodeId) (b : BlockId) (env : Env) (choices : List Nat)
    (y : NodeId) (c : BlockId) (entered : Env) (rest : List Nat)
    (logged : List (BitVec 32)) : Prop :=
  ∀ fuel tail,
    F.run original fuel c entered rest =
      some ((execInsts entered (G.inCode D F y)).2 ++ tail) →
    F.run original (fuel + steps) b env choices =
      some ((execInsts env (G.inCode D F x)).2 ++ (logged ++ tail))

theorem Advances.trans {G : Ghost} {D : Dag} {F : LlvmFunction}
    {original steps steps' : Nat} {x y z : NodeId} {b c d : BlockId}
    {env middle entered : Env} {choices between rest : List Nat}
    {logged logged' : List (BitVec 32)}
    (first : Advances G D F original steps x b env choices y c middle between logged)
    (second : Advances G D F original steps' y c middle between z d entered rest logged') :
    Advances G D F original (steps' + steps) x b env choices z d entered rest
      (logged ++ logged') := by
  intro fuel tail hrun
  rw [List.append_assoc, ← Nat.add_assoc]
  exact first _ _ (second _ _ hrun)

section Cross

variable {G : Ghost} {D : Dag} {F : LlvmFunction} {exitRoot e : EdgeId}
  {b c : BlockId}

theorem execInsts_block (inv : EmissionInvariant G D F exitRoot) {x : NodeId}
    (hx : x < D.numNodes) (hb : D.getBlock x = some b) (env : Env) :
    execInsts env ((F.block b).front ++ (F.block b).back) =
      ((execInsts (execInsts env (G.inCode D F x)).1 (G.outBack x)).1,
        (execInsts env (G.inCode D F x)).2 ++
          (execInsts (execInsts env (G.inCode D F x)).1 (G.outBack x)).2) := by
  rw [inv.back x b hx hb, Ghost.inCode_eq hb, ← List.append_assoc]
  exact execInsts_append _ _ _

theorem enterBlock_eq (hb : D.getBlock (D.source e) = some b)
    (hc : D.getBlock (D.target e) = some c) (env : Env) :
    F.enterBlock env b c = (G.crossing D F e).enter env := by
  unfold LlvmFunction.enterBlock Crossing.enter
  have hincoming : (G.crossing D F e).incoming =
      (F.block c).pathPHI.map (Incoming.lookup · b) := incomingValue_eq hb hc
  have htarget : (G.crossing D F e).target = some c := hc
  rw [hincoming, htarget]
  cases (F.block c).pathPHI with
  | none => rfl
  | some entries =>
      simp only [Option.map_some]
      cases Incoming.lookup entries b with
      | none => rfl
      | some value => rfl

theorem run_cross (inv : EmissionInvariant G D F exitRoot) (hlinked : D.Linked e)
    (coded : Coded G D F e) (hb : D.getBlock (D.source e) = some b)
    (hc : D.getBlock (D.target e) = some c) {i : Nat}
    (hi : (F.successors b)[i]? = some c)
    (hstays : (F.block b).terminator.leavesFunction = false)
    (original : Nat) {env : Env} {register : Option Int}
    (holds : Holds (execInsts env (G.inCode D F (D.source e))).1
      (G.holder (D.source e)) register) :
    ∃ entered,
      Holds (execInsts entered (G.inCode D F (D.target e))).1
        (G.holder (D.target e)) (D.traverse e register).1 ∧
      ∀ choices rest,
        (if b < original then choices else 0 :: choices) = i :: rest →
        Advances G D F original 1 (D.source e) b env choices (D.target e) c entered rest
          ((D.traverse e register).2.map (BitVec.ofInt 32)) := by
  obtain ⟨entered, henter, hholds, hlog⟩ := coded.correct _ register holds
  refine ⟨entered, hholds, fun choices rest hchoices fuel tail hrun => ?_⟩
  have henter' : F.enterBlock
      (execInsts (execInsts env (G.inCode D F (D.source e))).1
        (G.outBack (D.source e))).1 b c = some entered :=
    (enterBlock_eq hb hc _).trans henter
  have hi' : (F.block b).successors[i]? = some c := hi
  rw [LlvmFunction.run,
    execInsts_block inv (inv.layout.source_lt e hlinked) hb]
  simp only [hstays, hchoices, hi', henter', hrun, Bool.false_eq_true, if_false,
    Option.bind_eq_bind, Option.bind_some, Option.some.injEq]
  rw [← hlog]
  simp only [List.append_assoc]
  rfl

theorem run_leave (inv : EmissionInvariant G D F exitRoot) (hlinked : D.Linked e)
    (coded : Coded G D F e) (hb : D.getBlock (D.source e) = some b)
    (hexit : D.target e = D.exit)
    (hleaves : (F.block b).terminator.leavesFunction = true)
    (original fuel : Nat) {env : Env} {register : Option Int}
    (holds : Holds (execInsts env (G.inCode D F (D.source e))).1
      (G.holder (D.source e)) register) :
    F.run original (fuel + 1) b env [] =
      some ((execInsts env (G.inCode D F (D.source e))).2 ++
        (D.traverse e register).2.map (BitVec.ofInt 32)) := by
  obtain ⟨entered, henter, _, hlog⟩ := coded.correct _ register holds
  have hin : (G.crossing D F e).inCode = [] := by
    change G.inCode D F (D.target e) = []
    rw [Ghost.inCode, hexit, inv.layout.block_exit]
  rw [hin] at hlog
  rw [LlvmFunction.run,
    execInsts_block inv (inv.layout.source_lt e hlinked) hb]
  simp only [hleaves, if_true, Option.some.injEq]
  rw [← hlog]
  simp only [execInsts, List.append_nil]
  rfl

end Cross

structure Emitted (D₀ : Dag) (F₀ : LlvmFunction) (exitRoot : EdgeId) (G : Ghost)
    (st : Emission) : Prop where
  ready : Ready D₀ F₀ exitRoot G st
  closed : ∀ x, G.arrived x → ∀ e ∈ st.dag.succEdges x, G.done e

namespace Emitted

variable {D₀ : Dag} {F₀ : LlvmFunction} {exitRoot e : EdgeId} {G : Ghost}
  {st : Emission} (emitted : Emitted D₀ F₀ exitRoot G st)

include emitted

/-- An edge of the first graph that could not be split is a critical edge of the
function that LLVM refuses to split. -/
theorem not_unsplittable {source target : BlockId} (hlinked : D₀.Linked e)
    (hne : e ≠ exitRoot) (hsource : D₀.getBlock (D₀.source e) = some source)
    (htarget : D₀.getBlock (D₀.target e) = some target)
    (hinstrumentable : F₀.Instrumentable source target) :
    ¬ Unsplittable st.dag st.func e := by
  have origin := emitted.ready.origin
  have layout := emitted.ready.layout
  have hs := layout.source_lt e hlinked
  have ht := layout.target_lt e hlinked
  rintro ⟨hsucc, hpred, s, t, hbs, hbt, hcase⟩
  have htargetLt : st.dag.target e < D₀.numNodes := by
    refine Nat.lt_of_not_le fun hle => ?_
    exact absurd hpred (Nat.not_lt.mpr (origin.new_pred _ hle
      (emitted.ready.invariant.layout.target_lt e (origin.linked e hlinked))))
  have hkept := origin.kept_of_target_lt hlinked hne htargetLt
  rw [hkept.1, origin.predEdges _ ht] at hpred
  rw [origin.source e hlinked, Dag.getNumberSuccEdges, origin.succEdges _ hs]
    at hsucc
  rw [origin.source e hlinked, origin.getBlock _ hs, hsource] at hbs
  rw [hkept.1, origin.getBlock _ ht, htarget] at hbt
  cases hbs
  cases hbt
  rw [(origin.block source (layout.block_lt hs hsource)).1,
    (origin.block target (layout.block_lt ht htarget)).2] at hcase
  have hcritical : F₀.isCriticalEdge source target := by
    refine ⟨?_, layout.one_lt_length_predecessors hlinked hne hsource htarget hpred⟩
    rw [layout.length_successors hs hsource hsucc]
    exact hsucc
  obtain ⟨hindirect, hpad⟩ := hinstrumentable hcritical
  rcases hcase with h | h
  · exact hindirect h
  · rw [hpad] at h
    contradiction

theorem coded_exit (hlinked : D₀.Linked e) (hne : e ≠ exitRoot)
    (hexit : D₀.target e = D₀.exit) (harrived : G.arrived (D₀.source e)) :
    KeptEdge D₀ st.dag e ∧ Coded G st.dag st.func e := by
  have origin := emitted.ready.origin
  have layout := emitted.ready.layout
  have hs := layout.source_lt e hlinked
  have halone := layout.exit_alone e hlinked hexit
  have hsucc : st.dag.succEdges (D₀.source e) = [e] :=
    (origin.succEdges _ hs).trans halone
  have hkept : KeptEdge D₀ st.dag e := by
    refine (origin.edge e hlinked hne).resolve_right ?_
    rintro ⟨hbranch, _⟩
    rw [Dag.getNumberSuccEdges, halone] at hbranch
    exact absurd hbranch (Nat.lt_irrefl _)
  refine ⟨hkept, (emitted.ready.invariant.coded e
    (emitted.closed _ harrived e (by simp [hsucc])) hne).resolve_right ?_⟩
  rintro ⟨hbranch, _⟩
  rw [origin.source e hlinked, Dag.getNumberSuccEdges, hsucc] at hbranch
  exact absurd hbranch (Nat.lt_irrefl _)

theorem coded_new {node : NodeId} {new : EdgeId} (hle : D₀.numNodes ≤ node)
    (hsucc : st.dag.succEdges node = [new]) (harrived : G.arrived node) :
    Coded G st.dag st.func new := by
  have inv := emitted.ready.invariant
  obtain ⟨_, hsource, hroot⟩ :=
    emitted.ready.origin.newEdge emitted.ready.layout inv.layout hle hsucc
  refine (inv.coded new (emitted.closed node harrived new (by simp [hsucc]))
    hroot).resolve_right ?_
  rintro ⟨hbranch, _⟩
  rw [hsource, Dag.getNumberSuccEdges, hsucc] at hbranch
  exact absurd hbranch (Nat.lt_irrefl _)

theorem getElem?_successors {x : NodeId} {b c : BlockId} {i : Nat}
    (hx : x < st.dag.numNodes) (hb : st.dag.getBlock x = some b)
    (hi : (st.dag.succEdges x)[i]? = some e)
    (hc : st.dag.getBlock (st.dag.target e) = some c) :
    (st.func.successors b)[i]? = some c := by
  have layout := emitted.ready.invariant.layout
  rw [layout.getElem?_successors hx hb, hi]
  · exact hc
  · intro f hf hexit
    obtain ⟨hlinked, rfl⟩ := (layout.mem_succEdges x f).mp hf
    have halone := layout.exit_alone f hlinked hexit
    rw [halone] at hi
    have heq : e = f := List.mem_singleton.mp (List.mem_of_getElem? hi)
    rw [heq, hexit, layout.block_exit] at hc
    contradiction

theorem run_edge {b next c : BlockId} {i : Nat} {env : Env} {register : Option Int}
    (hlinked : D₀.Linked e) (hb : D₀.getBlock (D₀.source e) = some b)
    (harrived : G.arrived (D₀.source e))
    (hstays : (F₀.block b).terminator.leavesFunction = false)
    (hi : (D₀.succEdges (D₀.source e))[i]? = some e)
    (hnext : D₀.getBlock (D₀.target e) = some next)
    (hinstrumentable : F₀.Instrumentable b next)
    (hc : st.dag.getBlock (st.dag.target e) = some c)
    (holds : Holds (execInsts env (G.inCode st.dag st.func (D₀.source e))).1
      (G.holder (D₀.source e)) register) :
    ∃ entered, G.arrived (st.dag.target e) ∧
      Holds (execInsts entered (G.inCode st.dag st.func (st.dag.target e))).1
        (G.holder (st.dag.target e)) (st.dag.traverse e register).1 ∧
      ∀ choices, Advances G st.dag st.func F₀.numBlocks 1 (D₀.source e) b env
        (i :: choices) (st.dag.target e) c entered choices
        ((st.dag.traverse e register).2.map (BitVec.ofInt 32)) := by
  have origin := emitted.ready.origin
  have layout₀ := emitted.ready.layout
  have inv := emitted.ready.invariant
  have hx := layout₀.source_lt e hlinked
  have hblt := layout₀.block_lt hx hb
  have hne : e ≠ exitRoot := by
    rintro rfl
    rw [layout₀.exitRoot_source, layout₀.block_exit] at hb
    contradiction
  have hi' : (st.dag.succEdges (D₀.source e))[i]? = some e := by
    rw [origin.succEdges _ hx]
    exact hi
  have hb' : st.dag.getBlock (D₀.source e) = some b :=
    (origin.getBlock _ hx).trans hb
  have coded : Coded G st.dag st.func e :=
    (inv.coded e (emitted.closed _ harrived e (List.mem_of_getElem? hi'))
      hne).resolve_right
      (emitted.not_unsplittable hlinked hne hb hnext hinstrumentable)
  have hsuccessor := emitted.getElem?_successors
    (Nat.lt_of_lt_of_le hx origin.nodes_le) hb' hi' hc
  have hstays' : (st.func.block b).terminator.leavesFunction = false := by
    rw [(origin.block b hblt).1]
    exact hstays
  rw [← origin.source e hlinked] at hb' holds ⊢
  obtain ⟨entered, hentered, hrun⟩ := run_cross inv (origin.linked e hlinked) coded hb' hc
    hsuccessor hstays' F₀.numBlocks holds
  exact ⟨entered, coded.target_arrived, hentered,
    fun choices => hrun (i :: choices) choices (if_pos hblt)⟩

/-- The execution goes on from a new node: there is only one way, and no choice. -/
theorem run_newNode {node : NodeId} {new : EdgeId} {b c : BlockId} {env : Env}
    {register : Option Int} (hle : D₀.numNodes ≤ node) (hlt : node < st.dag.numNodes)
    (hsucc : st.dag.succEdges node = [new]) (harrived : G.arrived node)
    (hb : st.dag.getBlock node = some b)
    (hc : st.dag.getBlock (st.dag.target new) = some c)
    (holds : Holds (execInsts env (G.inCode st.dag st.func node)).1 (G.holder node)
      register) :
    ∃ entered, G.arrived (st.dag.target new) ∧
      Holds (execInsts entered (G.inCode st.dag st.func (st.dag.target new))).1
        (G.holder (st.dag.target new)) (st.dag.traverse new register).1 ∧
      ∀ choices, Advances G st.dag st.func F₀.numBlocks 1 node b env choices
        (st.dag.target new) c entered choices
        ((st.dag.traverse new register).2.map (BitVec.ofInt 32)) := by
  have origin := emitted.ready.origin
  have inv := emitted.ready.invariant
  obtain ⟨hblt, hterminator⟩ := origin.new_block node b hle hlt hb
  obtain ⟨hlinked, hsource, _⟩ := origin.newEdge emitted.ready.layout inv.layout hle hsucc
  have coded := emitted.coded_new hle hsucc harrived
  have hsuccessor := emitted.getElem?_successors (i := 0) hlt hb (by simp [hsucc]) hc
  have hstays : (st.func.block b).terminator.leavesFunction = false := by
    rw [hterminator]
    rfl
  rw [← hsource] at hb holds ⊢
  obtain ⟨entered, hentered, hrun⟩ := run_cross inv hlinked coded hb hc hsuccessor hstays
    F₀.numBlocks holds
  exact ⟨entered, coded.target_arrived, hentered,
    fun choices => hrun choices choices (if_neg (Nat.not_lt.mpr hblt))⟩

/-- The execution goes on to the target of the next edge of the walk, possibly
through the new block on this edge. -/
theorem run_step {x : NodeId} {b next : BlockId} {i : Nat} {env : Env}
    {register : Option Int} (hb : D₀.getBlock x = some b) (harrived : G.arrived x)
    (hstays : (F₀.block b).terminator.leavesFunction = false)
    (hi : (D₀.succEdges x)[i]? = some e)
    (hnext : D₀.getBlock (D₀.target e) = some next)
    (hinstrumentable : F₀.Instrumentable b next)
    (holds : Holds (execInsts env (G.inCode st.dag st.func x)).1 (G.holder x)
      register) :
    ∃ entered steps, steps ≤ 2 ∧ G.arrived (D₀.target e) ∧
      Holds (execInsts entered (G.inCode st.dag st.func (D₀.target e))).1
        (G.holder (D₀.target e)) (D₀.traverse e register).1 ∧
      ∀ choices, Advances G st.dag st.func F₀.numBlocks steps x b env (i :: choices)
        (D₀.target e) next entered choices
        ((D₀.traverse e register).2.map (BitVec.ofInt 32)) := by
  have origin := emitted.ready.origin
  have layout₀ := emitted.ready.layout
  have layout := emitted.ready.invariant.layout
  obtain ⟨hlinked, rfl⟩ :=
    (layout₀.mem_succEdges x e).mp (List.mem_of_getElem? hi)
  have hne : e ≠ exitRoot := by
    rintro rfl
    rw [layout₀.exitRoot_source, layout₀.block_exit] at hb
    contradiction
  have htarget : st.dag.getBlock (D₀.target e) = some next :=
    (origin.getBlock _ (layout₀.target_lt e hlinked)).trans hnext
  rcases origin.edge e hlinked hne with ⟨hkept, htraverse⟩ | ⟨_, node, new, hnode, hle,
    hsucc, hnewTarget, hhalves⟩
  · rw [← hkept] at htarget
    obtain ⟨entered, hrest⟩ := emitted.run_edge hlinked hb harrived hstays hi hnext
      hinstrumentable htarget holds
    rw [hkept, htraverse] at hrest
    exact ⟨entered, 1, by decide, hrest⟩
  · have hlt : node < st.dag.numNodes :=
      hnode ▸ layout.target_lt e (origin.linked e hlinked)
    have hnodeExit : node ≠ st.dag.exit := by
      rw [origin.exit]
      exact (Nat.ne_of_lt (Nat.lt_of_lt_of_le layout₀.exit_lt hle)).symm
    obtain ⟨c, _, hc⟩ := layout.block node hlt hnodeExit
    rw [← hnode] at hc
    obtain ⟨middle, harrivedNode, hmiddle, hfirst⟩ := emitted.run_edge hlinked hb harrived
      hstays hi hnext hinstrumentable hc holds
    rw [hnode] at hc harrivedNode hmiddle hfirst
    rw [← hnewTarget] at htarget
    obtain ⟨entered, harrived', hentered, hsecond⟩ := emitted.run_newNode hle hlt hsucc
      harrivedNode hc htarget hmiddle
    rw [hnewTarget] at harrived' hentered hsecond
    have htraverse : D₀.traverse e register = _ := hhalves register
    rw [htraverse, List.map_append]
    exact ⟨entered, 2, Nat.le_refl _, harrived', hentered,
      fun choices => (hfirst choices).trans (hsecond choices)⟩

theorem run_of_walk (hleaves : LeavesAtExit D₀ F₀) :
    ∀ {choices : List Nat} {x : NodeId} {b : BlockId} {env : Env}
      {register : Option Int} {fuel : Nat},
      x < D₀.numNodes → D₀.getBlock x = some b → G.arrived x →
      F₀.WalkOver F₀.Instrumentable b choices →
      Holds (execInsts env (G.inCode st.dag st.func x)).1 (G.holder x) register →
      2 * choices.length + 1 ≤ fuel →
      ∃ path, D₀.walkEdges x choices = some path ∧
        D₀.Path D₀.IsRealEdge x path D₀.exit ∧
        st.func.run F₀.numBlocks fuel b env choices =
          some ((execInsts env (G.inCode st.dag st.func x)).2 ++
            (D₀.trace register path).map (BitVec.ofInt 32))
  | [], x, b, env, register, fuel, hx, hb, harrived, walk, holds, hfuel => by
      have origin := emitted.ready.origin
      have layout := emitted.ready.layout
      obtain ⟨e, hlinked, rfl, hexit⟩ := (hleaves x b hx hb).mp walk
      have hsource : D₀.source e ≠ D₀.exit := by
        intro h
        rw [h, layout.block_exit] at hb
        contradiction
      have hne : e ≠ exitRoot := by
        rintro rfl
        exact hsource layout.exitRoot_source
      obtain ⟨kept, coded⟩ := emitted.coded_exit hlinked hne hexit harrived
      have hsource' := origin.source e hlinked
      refine ⟨[e], ?_, .cons ⟨hlinked.1, hlinked.2, hsource⟩ (hexit ▸ .nil _), ?_⟩
      · rw [Dag.walkEdges, layout.exit_alone e hlinked hexit]
        rfl
      · obtain ⟨fuel, rfl⟩ := Nat.exists_eq_add_one_of_ne_zero
          (Nat.ne_zero_of_lt hfuel)
        have hrun := run_leave emitted.ready.invariant (origin.linked e hlinked)
          coded (b := b)
          (by rw [hsource', origin.getBlock _ hx]; exact hb)
          (by rw [kept.1, hexit, origin.exit])
          (by rw [(origin.block b (layout.block_lt hx hb)).1]; exact walk)
          F₀.numBlocks fuel (hsource'.symm ▸ holds)
        rw [hsource', kept.2] at hrun
        simpa [Dag.trace] using hrun
  | succNum :: choices, x, b, env, register, fuel, hx, hb, harrived, walk, holds,
      hfuel => by
      have layout := emitted.ready.layout
      obtain ⟨hstays, next, hsuccessor, hinstrumentable, walk⟩ := walk
      have hexit : ∀ f ∈ D₀.succEdges x, D₀.target f ≠ D₀.exit := by
        intro f hf hexit
        obtain ⟨hlinked, hsource⟩ := (layout.mem_succEdges x f).mp hf
        have := (hleaves x b hx hb).mpr ⟨f, hlinked, hsource, hexit⟩
        rw [hstays] at this
        contradiction
      rw [layout.getElem?_successors hx hb hexit, Option.bind_eq_some_iff]
        at hsuccessor
      obtain ⟨e, hi, hnext⟩ := hsuccessor
      obtain ⟨hlinked, hsource⟩ :=
        (layout.mem_succEdges x e).mp (List.mem_of_getElem? hi)
      obtain ⟨entered, steps, hsteps, harrived', hentered, hrun⟩ :=
        emitted.run_step hb harrived hstays hi hnext hinstrumentable holds
      have hfuel' : 2 * choices.length + 1 ≤ fuel - steps := by
        rw [List.length_cons] at hfuel
        omega
      obtain ⟨path, hpath, hwalk, htail⟩ := run_of_walk hleaves
        (layout.target_lt e hlinked) hnext harrived' walk hentered hfuel'
      refine ⟨e :: path, ?_, ?_, ?_⟩
      · simp only [Dag.walkEdges, hi, hpath, Option.bind_eq_bind, Option.bind_some]
      · refine Data.EdgePath.cons_iff.mpr ⟨⟨hlinked.1, hlinked.2, ?_⟩, hsource, hwalk⟩
        intro h
        rw [hsource] at h
        rw [h, layout.block_exit] at hb
        contradiction
      · have hlast := hrun choices _ _ htail
        rw [Nat.sub_add_cancel (by rw [List.length_cons] at hfuel; omega)] at hlast
        rw [hlast, Dag.trace, List.map_append]

end Emitted

end RrWorkbench.PathLogging
