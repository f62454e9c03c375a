import Lifespan.Class

namespace Lifespan

/-- How control leaves an instruction. -/
inductive Edge where
  | fall
  | branch
  deriving DecidableEq

structure Graph (n : Nat) where
  /-- Successors of each node, by node, falling through before branching. -/
  succ : Vector (List (Fin n × Edge)) n

namespace Graph

variable {n : Nat}

/-- Marks what is reachable from the nodes of the list through unmarked nodes. -/
def explore (next : Fin n → List (Fin n)) (pending : List (Fin n)) (seen : Vector Bool n) :
    Vector Bool n :=
  match pending with
  | [] => seen
  | i :: rest =>
    if seen.get i then explore next rest seen
    else explore next (next i ++ rest) (seen.set i true i.isLt)
termination_by (seen.count false, pending.length)
decreasing_by
  · exact Prod.Lex.right _ (by simp)
  · apply Prod.Lex.left
    have hi : seen[i.val] = false := Bool.eq_false_iff.mpr ‹_›
    have hpos : 0 < seen.count false :=
      Vector.count_pos_iff.mpr (hi ▸ Vector.getElem_mem i.isLt)
    have hset : (seen.set i true i.isLt).count false = seen.count false - 1 := by
      rw [Vector.count_set, hi]
      rfl
    omega

def ofCode (code : Vector (Instr n) n) : Graph n where
  succ := Vector.ofFn fun i =>
    let falls : List (Fin n × Edge) :=
      if h : (code.get i).fallsThrough ∧ i.val + 1 < n then [(⟨i.val + 1, h.2⟩, .fall)] else []
    match (code.get i).target? with
    | none => falls
    | some t => if t.val ≤ i.val then (t, .branch) :: falls else falls ++ [(t, .branch)]

def successors (g : Graph n) (i : Fin n) : List (Fin n × Edge) := g.succ.get i

/-- Edges into `j`, by source, falling through before branching. -/
def predecessors (g : Graph n) (j : Fin n) : List (Fin n × Edge) :=
  (List.finRange n).flatMap fun i =>
    (g.successors i).filterMap fun (k, e) => if k = j then some (i, e) else none

def next (g : Graph n) (i : Fin n) : List (Fin n) := (g.successors i).map (·.1)

/-- Nodes reachable from `i`, itself included. -/
def reachable (g : Graph n) (i : Fin n) : Vector Bool n :=
  explore g.next [i] (Vector.replicate n false)

/-- Nodes reachable from `i` without passing `h`; `h` is marked too. -/
def reachableAvoiding (g : Graph n) (h i : Fin n) : Vector Bool n :=
  explore g.next [i] ((Vector.replicate n false).set h true h.isLt)

def entry? (_ : Graph n) : Option (Fin n) := if h : 0 < n then some ⟨0, h⟩ else none

/-- Nodes that `h` dominates: reachable from the entry, but only through `h`. -/
def dominated (g : Graph n) (h : Fin n) : Vector Bool n :=
  match g.entry? with
  | none => Vector.replicate n false
  | some start =>
    let all := g.reachable start
    let around := g.reachableAvoiding h start
    Vector.ofFn fun u => all.get u && (u == h || !around.get u)

/-- What a library of graph algorithms answers about a graph. -/
structure Answers (n : Nat) where
  /-- The dominators of a node, itself among them. A node that no path leads to has none. -/
  dominators : Fin n → Option (List (Fin n))
  /-- The strongly connected components. -/
  components : List (List (Fin n))

/-- Every edge, by source. -/
def edges (g : Graph n) : List (Fin n × Fin n) :=
  (List.finRange n).flatMap fun i => (g.next i).map fun j => (i, j)

/-- A back edge goes into a node that dominates its source. -/
def Answers.isBack (a : Answers n) (i j : Fin n) : Bool :=
  match a.dominators i with
  | none => false
  | some ds => ds.any (· == j)

/-- The targets of back edges. -/
def loopHeadsBy (g : Graph n) (a : Answers n) : FinSet (Fin n) :=
  g.edges.foldl (fun heads (i, j) => if a.isBack i j then heads.insert j () else heads)
    FinMap.empty

/-- A component of one node has a cycle only if an edge leads from the node to itself. -/
def isCyclic (g : Graph n) : List (Fin n) → Bool
  | [i] => (g.next i).contains i
  | _ => true

/-- The nodes of the components that have a cycle. -/
def onCycleBy (g : Graph n) (a : Answers n) : FinSet (Fin n) :=
  a.components.foldl (fun found c =>
    if g.isCyclic c then c.foldl (fun found i => found.insert i ()) found else found) FinMap.empty

/-- Answers by searching from every node. -/
def search (g : Graph n) : Answers n :=
  let inside := Vector.ofFn g.dominated
  let ahead := Vector.ofFn g.reachable
  let joined (i j : Fin n) : Bool := (ahead.get i).get j && (ahead.get j).get i
  { dominators := fun u =>
      if (inside.get u).get u then some ((List.finRange n).filter fun d => (inside.get d).get u)
      else none
    -- each component is listed at the first of its nodes
    components := ((List.finRange n).filter fun i =>
      (List.finRange n).all fun j => !joined i j || decide (i ≤ j)).map fun i =>
        (List.finRange n).filter (joined i) }

def loopHeads (g : Graph n) : FinSet (Fin n) := g.loopHeadsBy g.search

def onCycle (g : Graph n) : FinSet (Fin n) := g.onCycleBy g.search

def isLoopHead (g : Graph n) (i : Fin n) : Bool := g.loopHeads.contains i

def isOnCycle (g : Graph n) (i : Fin n) : Bool := g.onCycle.contains i

end Graph

def Body.graph (b : Body) : Graph b.size := Graph.ofCode b.code

end Lifespan
