import Lifespan.Analysis

namespace Lifespan

/-- The state after falling through the instruction at `site`, which is in the method analyzed. -/
def Analysis.fallAfter (a : Analysis) (site : Site) : Except Error AbstractState :=
  match a.node? site.index with
  | none => .error (.invariant (.notAnalyzed site.method))
  | some node => .ok ⟨a.env, node.fall⟩

/-- A way to put results together that come in side by side. All of them have to be there, and of
several failures it may report any. -/
structure Collector where
  collect : List (Logged (Option Analysis)) → Logged (List (Option Analysis))
  result_eq_ok : ∀ items as, (collect items).result = .ok as ↔
    items.map Logged.result = as.map Except.ok
  exists_of_error : ∀ items e, (collect items).result = .error e →
    ∃ item ∈ items, item.result = .error e

/-- Whether the methods of a class are analyzed one after the other or side by side. -/
inductive Schedule where
  | inOrder
  | sideBySide (collector : Collector)

structure Verifier where
  cls : Class
  settings : Settings
  resolver : Resolver
  /-- One entry for each method, once the class is analyzed. -/
  analyses : Option (List (Option Analysis))
  analyzed : List Property

namespace Verifier

def ofResolver (c : Class) (s : Settings) (r : Resolver) : Verifier := ⟨c, s, r, none, []⟩

def ofClass (c : Class) (s : Settings) : Logged Verifier := do
  return ofResolver c s (← Resolver.ofClass c s)

def analysis? (v : Verifier) (method : Nat) : Option Analysis := do (← (← v.analyses)[method]?)

/-- One after the other up to the first that fails, or side by side. -/
def analyzeMethods (v : Verifier) : Schedule → Logged (List (Option Analysis))
  | .inOrder => v.cls.methods.zipIdx.mapM fun (m, id) => Analysis.ofMethod v.resolver m id
  | .sideBySide collector =>
    collector.collect (v.cls.methods.zipIdx.map fun (m, id) => Analysis.ofMethod v.resolver m id)

def analyzeClass (v : Verifier) (schedule : Schedule) : Logged (List (Option Analysis)) :=
  match v.analyses with
  | some as => pure as
  | none => Logged.within (.analysis v.cls.name) do
    let as ← v.analyzeMethods schedule
    Logged.report (.classDone v.cls.name)
    return as

/-- Prepares the decision of `p`, up to a failure of the analysis. -/
def runBy (v : Verifier) (schedule : Schedule) (p : Property) : Verifier × Logged Unit :=
  let analyzed := v.analyzeClass schedule
  match analyzed.result with
  | .error e => (v, ⟨analyzed.events, .error e⟩)
  | .ok as =>
    ({ v with
      analyses := some as
      analyzed := if p ∈ v.analyzed then v.analyzed else p :: v.analyzed },
      ⟨analyzed.events, .ok ()⟩)

def analysisOf (v : Verifier) (method : Nat) : Except Error Analysis :=
  match v.analysis? method with
  | none => .error (.invariant (.notAnalyzed method))
  | some a => .ok a

def stateAfter (v : Verifier) (site : Site) : Except Error AbstractState := do
  (← v.analysisOf site.method).fallAfter site

/-- The intervals that a query may be about. -/
def receivers (v : Verifier) (q : Query) : Except Error (List Initializer) :=
  match v.resolver.resolve q.site q.receiver with
  | [] =>
    if v.settings.allowUnresolved then .ok []
    else .error (.unsupported (.unresolvedReceiver q.receiver q.site))
  | inits => .ok inits

/-- Whether an interval ends no earlier than it starts. -/
def ordered (v : Verifier) (i : Initializer) : Logged Bool := do
  let state ← v.stateAfter i.site
  let finish ← i.finish.term
  let holds ← state.entailsGe finish (.const i.start)
  Logged.report (.order i finish holds)
  return holds

/-- What is asked of a state, the time of a query and an interval that it may be about. -/
abbrev Demand := AbstractState → Term String → Initializer → Except Error Bool

/-- Whether the demand holds for a query, which is in the method analyzed. -/
def queried (v : Verifier) (demand : Demand) (a : Analysis) (q : Query) : Logged Bool := do
  let state ← a.fallAfter q.site
  let time ← q.time.term
  (← v.receivers q).allM fun i => do
    let holds ← demand state time i
    Logged.report (.query q time i holds)
    return holds

/-- Whether the demand holds for the queries of a method. One without queries need not
be analyzed. -/
def queriedIn (v : Verifier) (demand : Demand) (method : Nat) : Logged Bool :=
  match v.resolver.queriesOf method with
  | [] => pure true
  | queries => do
    let a ← v.analysisOf method
    queries.allM (v.queried demand a)

def queriedAll (v : Verifier) (demand : Demand) : Logged Bool :=
  (List.range v.cls.methods.length).allM (v.queriedIn demand)

/-- Decides a property from the analysis; nothing is shown before the analysis has run for it. -/
def decide (v : Verifier) (p : Property) : Logged Bool :=
  if p ∈ v.analyzed then
    match p with
    | .startEndOrder => v.resolver.initializers.allM v.ordered
    | .afterStart => v.queriedAll fun state time i => state.entailsGe time (.const i.start)
    | .beforeEnd => v.queriedAll fun state time i => state.entailsGe i.finishTerm time
  else pure false

def decideLogged (v : Verifier) (p : Property) : Logged Bool :=
  Logged.within (.check p v.cls.name) do
    let holds ← v.decide p
    Logged.report (.decision p v.cls.name holds)
    return holds

/-- Analyzes and decides. The analysis is kept also when the decision fails. -/
def checkBy (v : Verifier) (schedule : Schedule) (p : Property) : Verifier × Logged Bool :=
  let ran := v.runBy schedule p
  (ran.1, ran.2.bind fun _ => ran.1.decideLogged p)

/-- Checks properties in turn, up to the first failure. -/
def checkAllBy (v : Verifier) (schedule : Schedule) :
    List Property → Logged (List (Property × Verdict))
  | [] => pure []
  | p :: rest => do
    let checked := v.checkBy schedule p
    let verdict := Verdict.ofBool (← checked.2)
    Logged.report (.verdict p v.cls.name verdict)
    return (p, verdict) :: (← checked.1.checkAllBy schedule rest)

abbrev run (v : Verifier) (p : Property) : Verifier × Logged Unit := v.runBy .inOrder p

abbrev check (v : Verifier) (p : Property) : Verifier × Logged Bool := v.checkBy .inOrder p

end Verifier

structure Report where
  cls : String
  verdicts : List (Property × Verdict)

namespace Report

/-- The first verdict on `p`. -/
def verdict? (r : Report) (p : Property) : Option Verdict := (r.verdicts.find? (·.1 == p)).map (·.2)

def lines (r : Report) : List String := r.verdicts.map fun (p, v) => p.text ++ " " ++ v.text

def text (r : Report) : String := String.join (r.lines.map (· ++ "\n"))

end Report

/-- Checks the properties given, or all of them if none is. -/
def Class.verifyBy (c : Class) (s : Settings) (schedule : Schedule) (ps : List Property) :
    Logged Report := do
  let v ← Verifier.ofClass c s
  return ⟨c.name, ← v.checkAllBy schedule (if ps.isEmpty then Property.all else ps)⟩

abbrev Class.verify (c : Class) (s : Settings) (ps : List Property) : Logged Report :=
  c.verifyBy s .inOrder ps

end Lifespan
