import RrWorkbench.PathLogging.Execution
import RrWorkbench.PathLogging.Instrument

namespace RrWorkbench.PathLogging

/-! What the instructions of one edge compute.  The path register of Ball and Larus
is a mathematical integer, or nothing before its initialization and after the
path has been counted. -/

/-- The effect of an edge's marks on the path register, with the numbers that are
counted. -/
def Edge.traverse (edge : Edge) (register : Option Int) :
    Option Int × List Int :=
  let register :=
    if edge.isInitialization then some edge.increment
    else register.map (· + edge.increment)
  if edge.isCounterIncrement then (none, register.toList) else (register, [])

/-- A back or split edge ends a path over its phony exit edge and begins one over
its phony root edge. -/
def traverseCut (top bottom : Edge) (register : Option Int) :
    Option Int × List Int :=
  let ended := bottom.traverse register
  let begun := top.traverse ended.1
  (begun.1, ended.2 ++ begun.2)

def Dag.traverse (D : Dag) (e : EdgeId) (register : Option Int) :
    Option Int × List Int :=
  if (D.type e).isCut then
    match (D.edge e).phonyRoot, (D.edge e).phonyExit with
    | some top, some bottom => traverseCut (D.edge top) (D.edge bottom) register
    | _, _ => (register, [])
  else (D.edge e).traverse register

/-- The value carries the register, in its low 32 bits. -/
def Holds (env : Env) (value : Option Value) (register : Option Int) : Prop :=
  value.map (·.eval env) = register.map (BitVec.ofInt 32)

theorem holds_const (env : Env) (increment : Int) :
    Holds env (some (.const (createIncrementConstant increment)))
      (some increment) := rfl

theorem holds_none (env : Env) : Holds env none none := rfl

def Computes (code : List Inst) (before after : Option Value)
    (step : Option Int → Option Int × List Int) : Prop :=
  ∀ env register, Holds env before register →
    (execInsts env code).2 = (step register).2.map (BitVec.ofInt 32) ∧
    Holds (execInsts env code).1 after (step register).1

theorem Computes.append {first second : List Inst}
    {before middle after : Option Value}
    {step step' : Option Int → Option Int × List Int}
    (hfirst : Computes first before middle step)
    (hsecond : Computes second middle after step') :
    Computes (first ++ second) before after fun register =>
      ((step' (step register).1).1,
        (step register).2 ++ (step' (step register).1).2) := by
  intro env register holds
  obtain ⟨hlog, holds'⟩ := hfirst env register holds
  obtain ⟨hlog', holds''⟩ := hsecond _ _ holds'
  rw [execInsts_append]
  exact ⟨by rw [hlog, hlog', List.map_append], holds''⟩

@[simp] theorem ok_bind {ε α β : Type} (a : α) (next : α → Except ε β) :
    (Except.ok a >>= next) = next a := rfl

namespace Cursor

variable {cursor : Cursor} {numberOfPaths : Nat} {edge : Edge}

theorem counterIncrement_eq (hpaths : 0 < numberOfPaths) {value : Value}
    (hending : cursor.ending = some value) :
    cursor.counterIncrement numberOfPaths =
      .ok (.incrementPathCount value) := by
  have hnot : ¬ numberOfPaths ≤ hashThreshhold := Nat.not_le.mpr hpaths
  simp [counterIncrement, hnot, hending, orError]

theorem add_eq {value : Value} (hstarting : cursor.starting = some value)
    (increment : Int) :
    cursor.add increment = .ok { cursor with
      ending := some (.add cursor.nextInst)
      nextInst := cursor.nextInst + 1
      code := cursor.code ++
        [.add cursor.nextInst value (createIncrementConstant increment)] } := by
  simp [add, hstarting, orError]

theorem computes_add {value : Value} {inst : Nat} {increment : Int} :
    Computes [.add inst value (createIncrementConstant increment)]
      (some value) (some (.add inst))
      fun register => (register.map (· + increment), []) := by
  intro env register holds
  refine ⟨rfl, ?_⟩
  cases register with
  | none => cases holds
  | some number =>
      have heval : value.eval env = BitVec.ofInt 32 number :=
        Option.some.inj holds
      have hsum : (Value.add inst).eval (execInsts env
          [.add inst value (createIncrementConstant increment)]).1 =
          value.eval env + createIncrementConstant increment := by
        simp [execInsts, Value.eval.eq_3]
      refine congrArg some (hsum.trans ?_)
      rw [heval]
      exact (BitVec.ofInt_add number increment).symm

theorem computes_count {value : Value} :
    Computes [.incrementPathCount value] (some value) none
      fun register => (none, register.toList) := by
  intro env register holds
  cases register with
  | none => cases holds
  | some number =>
      have heval : value.eval env = BitVec.ofInt 32 number :=
        Option.some.inj holds
      exact ⟨by simp [execInsts, heval], rfl⟩

theorem computes_nil {value : Option Value} :
    Computes [] value value fun register => (register, []) :=
  fun _ _ holds => ⟨rfl, holds⟩

theorem computes_initialization {value : Option Value} {increment : Int} :
    Computes [] value (some (.const (createIncrementConstant increment)))
      fun _ => (some increment, []) :=
  fun env _ _ => ⟨rfl, holds_const env increment⟩

theorem updateNumber_spec (atBeginning : Bool) (hcode : cursor.code = [])
    (hadd : edge.isInitialization = false → edge.increment ≠ 0 →
      cursor.ending.isSome ∧ cursor.starting = cursor.ending) :
    ∃ result, cursor.updateNumber edge atBeginning = .ok result ∧
      result.late = cursor.late ∧
      Computes result.code cursor.ending result.ending (fun register =>
        (if edge.isInitialization then some edge.increment
          else register.map (· + edge.increment), [])) ∧
      result.ending.isSome =
        (edge.isInitialization || cursor.ending.isSome) ∧
      (atBeginning = true → edge.isInitialization = false →
        cursor.starting = cursor.ending → result.starting = result.ending) := by
  by_cases hinit : edge.isInitialization = true
  · refine ⟨_, if_pos hinit, rfl, ?_, by simp [hinit], by simp [hinit]⟩
    simp only [hinit, if_true, hcode]
    exact computes_initialization
  · have hinit' : edge.isInitialization = false := by simpa using hinit
    by_cases hzero : edge.increment = 0
    · refine ⟨cursor, by simp [updateNumber, hinit', hzero], rfl, ?_,
        by simp [hinit'], fun _ _ hsame => hsame⟩
      simp only [hinit', hzero, hcode, Bool.false_eq_true, if_false,
        Int.add_zero, Option.map_id']
      exact computes_nil
    · obtain ⟨hsome, hsame⟩ := hadd hinit' hzero
      obtain ⟨value, hvalue⟩ := Option.isSome_iff_exists.mp hsome
      rw [hvalue] at hsame
      let added : Cursor := { cursor with
        starting := if atBeginning then some (.add cursor.nextInst)
          else cursor.starting
        ending := some (.add cursor.nextInst)
        nextInst := cursor.nextInst + 1
        code := [.add cursor.nextInst value
          (createIncrementConstant edge.increment)] }
      refine ⟨added, ?_, rfl, ?_, by simp [added, hsome], ?_⟩
      · simp [added, updateNumber, hinit', hzero, add_eq hsame, hcode]
      · simp only [added, hinit', hvalue, Bool.false_eq_true, if_false]
        exact computes_add
      · intro hbeginning _ _
        simp [added, hbeginning]

theorem instrumentNormalEdge_spec (atBeginning : Bool) (hpaths : 0 < numberOfPaths)
    (hcode : cursor.code = []) (hlate : cursor.late = [])
    (hadd : edge.isInitialization = false → edge.increment ≠ 0 →
      cursor.ending.isSome ∧ cursor.starting = cursor.ending)
    (hcount : edge.isCounterIncrement = true →
      edge.isInitialization = true ∨ cursor.ending.isSome) :
    ∃ result, cursor.instrumentNormalEdge numberOfPaths edge atBeginning =
        .ok result ∧
      result.late = [] ∧
      Computes result.code cursor.ending result.ending edge.traverse ∧
      result.ending.isSome = ((edge.isInitialization || cursor.ending.isSome) &&
        !edge.isCounterIncrement) ∧
      (atBeginning = true → edge.isInitialization = false →
        edge.isCounterIncrement = false → cursor.starting = cursor.ending →
        result.starting = result.ending) := by
  obtain ⟨updated, hupdated, hupdatedLate, hcomputes, hsome, hsame⟩ :=
    updateNumber_spec atBeginning hcode hadd
  by_cases hcounter : edge.isCounterIncrement = true
  · have hending : updated.ending.isSome := by
      rw [hsome]
      simpa using hcount hcounter
    obtain ⟨value, hvalue⟩ := Option.isSome_iff_exists.mp hending
    refine ⟨{ updated with
        code := updated.code ++ [.incrementPathCount value], ending := none },
      ?_, hupdatedLate.trans hlate, ?_, by simp [hcounter], by simp [hcounter]⟩
    · simp [instrumentNormalEdge, hupdated, hcounter,
        counterIncrement_eq hpaths hvalue]
    rw [hvalue] at hcomputes
    have htraverse : edge.traverse = fun register => (none,
        [] ++ (if edge.isInitialization then some edge.increment
          else register.map (· + edge.increment)).toList) := by
      funext register
      simp [Edge.traverse, hcounter]
    rw [htraverse]
    exact hcomputes.append computes_count
  · have hcounter' : edge.isCounterIncrement = false := by simpa using hcounter
    refine ⟨updated, by simp [instrumentNormalEdge, hupdated, hcounter'],
      hupdatedLate.trans hlate, ?_, by simp [hsome, hcounter'],
      fun hbeginning hinit _ => hsame hbeginning hinit⟩
    have htraverse : edge.traverse = fun register =>
        (if edge.isInitialization then some edge.increment
          else register.map (· + edge.increment), []) := by
      funext register
      simp [Edge.traverse, hcounter']
    rw [htraverse]
    exact hcomputes

def countCode (cursor : Cursor) (value : Value) (increment : Int) : List Inst :=
  if increment ≠ 0 then
    [.add cursor.nextInst value (createIncrementConstant increment),
      .incrementPathCount (.add cursor.nextInst)]
  else [.incrementPathCount value]

theorem computes_countCode (cursor : Cursor) (value : Value) (increment : Int) :
    Computes (cursor.countCode value increment) (some value) none
      fun register => (none, (register.map (· + increment)).toList) := by
  by_cases hzero : increment = 0
  · simp only [countCode, hzero, ne_eq, not_true_eq_false, if_false, Int.add_zero,
      Option.map_id']
    exact computes_count
  · simp only [countCode, hzero, ne_eq, not_false_eq_true, if_true]
    exact computes_add.append computes_count

theorem endPath_code (bottom : Edge) (value : Value)
    (hpaths : 0 < numberOfPaths) (hcode : cursor.code = [])
    (hstarting : cursor.initialized.starting = some value)
    (hending : cursor.initialized.ending = some value) :
    ∃ result, cursor.endPath numberOfPaths bottom = .ok result ∧
      result.late = cursor.late ∧
      result.code = cursor.countCode value bottom.increment := by
  have hsame : cursor.initialized.code = [] ∧
      cursor.initialized.late = cursor.late ∧
      cursor.initialized.nextInst = cursor.nextInst := by
    unfold initialized
    split
    all_goals exact ⟨hcode, rfl, rfl⟩
  obtain ⟨hcode', hlate', hnext⟩ := hsame
  by_cases hzero : bottom.increment = 0
  · refine ⟨{ cursor.initialized with code := [.incrementPathCount value] }, ?_,
      hlate', by simp [countCode, hzero]⟩
    simp [endPath, addBottom, hzero, counterIncrement_eq hpaths hending, hcode']
  · refine ⟨{ cursor.initialized with
      ending := some (.add cursor.nextInst)
      nextInst := cursor.nextInst + 1
      code := cursor.countCode value bottom.increment }, ?_, hlate', rfl⟩
    simp only [endPath, addBottom, hzero, ne_eq, not_false_eq_true, if_true,
      add_eq hstarting, ok_bind, hcode', hnext]
    rw [counterIncrement_eq hpaths rfl]
    simp [countCode, hzero]

/-- The code of the bottom edge counts the path that ends, whether its register
is live or has yet to be initialized. -/
theorem endPath_spec {bottom : Edge} (hpaths : 0 < numberOfPaths)
    (hcode : cursor.code = [])
    (hbottom : bottom.isCounterIncrement = true)
    (hinit : bottom.isInitialization = !cursor.ending.isSome)
    (hadd : cursor.ending.isSome → cursor.starting = cursor.ending) :
    ∃ result, cursor.endPath numberOfPaths bottom = .ok result ∧
      result.late = cursor.late ∧
      Computes result.code cursor.ending none bottom.traverse := by
  cases hending : cursor.ending with
  | none =>
      obtain ⟨result, hresult, hlate, hcode'⟩ :=
        endPath_code bottom (.const (createIncrementConstant 0)) hpaths hcode
          (by simp [initialized, hending]) (by simp [initialized, hending])
      refine ⟨result, hresult, hlate, ?_⟩
      have htraverse : bottom.traverse = fun _ =>
          (none, [] ++ ((some 0).map (· + bottom.increment)).toList) := by
        funext register
        have hinit' : bottom.isInitialization = true := by
          simpa [hending] using hinit
        simp [Edge.traverse, hinit', hbottom]
      rw [hcode', htraverse]
      exact computes_initialization.append (computes_countCode _ _ _)
  | some value =>
      have hstarting : cursor.starting = some value := by
        rw [hadd (by simp [hending]), hending]
      obtain ⟨result, hresult, hlate, hcode'⟩ :=
        endPath_code bottom value hpaths hcode
          (by simp [initialized, hending, hstarting])
          (by simp [initialized, hending])
      refine ⟨result, hresult, hlate, ?_⟩
      have htraverse : bottom.traverse = fun register =>
          (none, (register.map (· + bottom.increment)).toList) := by
        funext register
        have hinit' : bottom.isInitialization = false := by
          simpa [hending] using hinit
        simp [Edge.traverse, hinit', hbottom]
      rw [hcode', htraverse]
      exact computes_countCode _ value _

theorem beginPath_spec {top : Edge} (atBeginning : Bool) (hpaths : 0 < numberOfPaths)
    (hlate : cursor.late = []) (htop : top.isInitialization = true) :
    ∃ result, cursor.beginPath numberOfPaths top atBeginning = .ok result ∧
      result.code = cursor.code ∧
      Computes result.late none result.ending top.traverse ∧
      result.ending.isSome = !top.isCounterIncrement ∧
      (atBeginning = true → result.ending.isSome →
        result.starting = result.ending) := by
  let number := Value.const (createIncrementConstant top.increment)
  let begun : Cursor := { cursor with
    starting := if atBeginning then some number else cursor.starting
    ending := some number }
  by_cases hcounter : top.isCounterIncrement = true
  · refine ⟨{ begun with
      late := [.incrementPathCount number], ending := none }, ?_, rfl, ?_,
      by simp [hcounter], by simp⟩
    · have hcall : begun.counterIncrement numberOfPaths =
          .ok (.incrementPathCount number) := counterIncrement_eq hpaths rfl
      simp only [beginPath, hcounter, if_true]
      exact (congrArg (· >>= _) hcall).trans (by simp [begun, number, hlate])
    · have htraverse : top.traverse = fun _ =>
          (none, [] ++ (some top.increment).toList) := by
        funext register
        simp [Edge.traverse, htop, hcounter]
      rw [htraverse]
      exact computes_initialization.append computes_count
  · have hcounter' : top.isCounterIncrement = false := by simpa using hcounter
    refine ⟨begun, by simp [beginPath, hcounter', begun, number], rfl, ?_,
      by simp [begun, hcounter'], fun hbeginning _ => by simp [begun, hbeginning]⟩
    have htraverse : top.traverse = fun _ => (some top.increment, []) := by
      funext register
      simp [Edge.traverse, htop, hcounter']
    rw [htraverse]
    simp only [begun, hlate]
    exact computes_initialization

/-- The code of a back or split edge computes the traversal of its two phony
edges. -/
theorem instrumentCutEdge_spec {top bottom : Edge} (atBeginning : Bool)
    (hpaths : 0 < numberOfPaths)
    (hcode : cursor.code = []) (hlate : cursor.late = [])
    (htop : top.isInitialization = true)
    (hbottom : bottom.isCounterIncrement = true)
    (hinit : bottom.isInitialization = !cursor.ending.isSome)
    (hadd : cursor.ending.isSome → cursor.starting = cursor.ending) :
    ∃ result, cursor.instrumentCutEdge numberOfPaths top bottom atBeginning =
        .ok result ∧
      Computes (result.code ++ result.late) cursor.ending result.ending
        (traverseCut top bottom) ∧
      result.ending.isSome = !top.isCounterIncrement ∧
      (atBeginning = true → result.ending.isSome →
        result.starting = result.ending) := by
  obtain ⟨ended, hended, hendedLate, hcomputes⟩ :=
    endPath_spec hpaths hcode hbottom hinit hadd
  obtain ⟨result, hresult, hresultCode, hcomputes', hsome, hsame⟩ :=
    beginPath_spec atBeginning hpaths (hendedLate.trans hlate) htop
  refine ⟨result, ?_, ?_, hsome, hsame⟩
  · simp [instrumentCutEdge, htop, hbottom, hended, hresult]
  · rw [hresultCode]
    exact hcomputes.append hcomputes'

end Cursor

end RrWorkbench.PathLogging
