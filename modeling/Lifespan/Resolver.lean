import Lifespan.PointsTo
import Lifespan.Settings

namespace Lifespan

/-- The allocations a local may denote right before an instruction. -/
abbrev Oracle := Site → Local → FinSet Site

namespace Class

/-- The calls of all methods but constructors, in order. -/
def calls (c : Class) : List (Site × Call) :=
  c.methods.zipIdx.flatMap fun (m, id) =>
    match m.body with
    | none => []
    | some b =>
      if m.isConstructor then []
      else b.code.toList.zipIdx.filterMap fun (instr, index) =>
        match instr with
        | .call call => some (⟨id, index⟩, call)
        | _ => none

end Class

namespace Settings

/-- Whether a call constructs an interval. -/
def isInitializer (s : Settings) (c : Call) : Bool :=
  c.kind == .special && c.method == constructorName && c.cls == s.intervalClass

/-- Whether a call asks an interval about a time. -/
def isQuery (s : Settings) (c : Call) : Bool :=
  c.kind == .virtual && c.method == s.queryMethod && c.receiver.any
    (·.ty.isObjectOf s.intervalClass)

end Settings

structure Resolver where
  oracle : Oracle
  /-- By number. -/
  initializers : List Initializer
  bySite : FinMap Site Nat
  byNode : FinMap Site Nat
  queriesBy : FinMap Nat (List Query)
  sites : bySite.Locates (initializers.map Initializer.site)
  nodes : byNode.Locates (initializers.map Initializer.node)
  grouped : ∀ method, ∀ q ∈ (queriesBy.get? method).getD [], q.site.method = method

namespace Resolver

def start (oracle : Oracle) : Resolver :=
  ⟨oracle, [], .empty, .empty, .empty, .empty, .empty, fun _ _ hq => by cases hq⟩

def initializersOf (r : Resolver) (method : Nat) : List Initializer :=
  r.initializers.filter fun i => i.site.method == method

def queriesOf (r : Resolver) (method : Nat) : List Query := (r.queriesBy.get? method).getD []

/-- The queries of all methods. -/
def queries (r : Resolver) : List Query := r.queriesBy.entries.flatMap (·.2)

def initializerAt (r : Resolver) (site : Site) : Option Initializer := r.sites.find? site

/-- The initializer of the object allocated at `node`. -/
def initializerOf (r : Resolver) (node : Site) : Option Initializer := r.nodes.find? node

/-- Initializers that `x` may denote right before `site`, in order of their allocations. -/
def resolve (r : Resolver) (site : Site) (x : Local) : List Initializer :=
  (r.oracle site x).elems.filterMap r.initializerOf

def receiverOf (site : Site) (c : Call) : Except Error Local :=
  match c.receiver with
  | none => .error (.invariant (.noReceiver c site))
  | some x => .ok x

/-- The one allocation that `x` denotes at `site`. It must not have an initializer yet. -/
def allocation (r : Resolver) (site : Site) (x : Local) : Except Error Site :=
  match (r.oracle site x).elems with
  | [node] =>
    match r.initializerOf node with
    | none => .ok node
    | some earlier => .error (.unsupported (.reconstructed x site earlier.site))
  | nodes => .error (.unsupported (.allocations x site nodes.length))

/-- Appends an initializer and enters it under its site and its allocation. -/
def push (r : Resolver) (site node : Site) (start : Int) (finish : Expr) : Resolver :=
  let id := r.initializers.length
  { r with
    initializers := r.initializers ++ [⟨id, site, node, start, finish⟩]
    bySite := r.bySite.insert site id
    byNode := r.byNode.insert node id
    sites := by simpa using r.sites.insert site
    nodes := by simpa using r.nodes.insert node }

def addInitializer (r : Resolver) (site : Site) (c : Call) : Logged Resolver :=
  match c.args with
  | [start, finish] => do
    let some start := start.int? | throw (.unsupported (.nonConstantStart c site))
    let node ← r.allocation site (← receiverOf site c)
    Logged.report (.initializer ⟨r.initializers.length, site, node, start, finish⟩)
    return r.push site node start finish
  | _ => throw (.assumption (.arity 2 c site))

theorem get?_ask (m : FinMap Nat (List Query)) (q : Query) (method : Nat) :
    ((m.insertWith (· ++ ·) q.site.method [q]).get? method).getD [] =
      (m.get? method).getD [] ++ if method = q.site.method then [q] else [] := by
  by_cases h : method = q.site.method
  · subst h
    rw [FinMap.get?_insertWith_self, if_pos rfl]
    cases m.get? q.site.method <;> rfl
  · rw [FinMap.get?_insertWith_of_ne _ _ _ (mt Std.LawfulEqCmp.eq_of_compare h), if_neg h,
      List.append_nil]

/-- Appends a query to those of its method. -/
def ask (r : Resolver) (q : Query) : Resolver :=
  { r with
    queriesBy := r.queriesBy.insertWith (· ++ ·) q.site.method [q]
    grouped := by
      intro method q' hq'
      rw [get?_ask] at hq'
      rcases List.mem_append.mp hq' with hq' | hq'
      · exact r.grouped method q' hq'
      · split at hq'
        case isTrue h => rw [h, List.mem_singleton.mp hq']
        case isFalse => cases hq' }

def addQuery (r : Resolver) (site : Site) (c : Call) : Logged Resolver :=
  match c.args with
  | [time] => return r.ask ⟨site, ← receiverOf site c, time⟩
  | _ => throw (.assumption (.arity 1 c site))

def addCall (s : Settings) (r : Resolver) (site : Site) (c : Call) : Logged Resolver :=
  if s.isInitializer c then r.addInitializer site c
  else if s.isQuery c then r.addQuery site c
  else pure r

def ofOracle (c : Class) (s : Settings) (oracle : Oracle) : Logged Resolver := do
  let r ← c.calls.foldlM (fun r (site, call) => addCall s r site call) (start oracle)
  Logged.report (.scanned c.name r.initializers.length r.queries.length)
  return r

/-- Takes the points-to facts of the class as the oracle. -/
def ofClass (c : Class) (s : Settings) : Logged Resolver := do
  ofOracle c s (← PointsTo.ofClass c).nodesAt

end Resolver

end Lifespan
