import Lifespan.Graph
import Lifespan.Log

namespace Lifespan

namespace Dataflow

/-- The states that an instruction produces on its edges. -/
structure Outflow (D : Type) where
  fall : Option D
  branch : Option D

namespace Outflow

variable {D : Type}

def uniform (d : D) : Outflow D := ⟨some d, some d⟩

def on (out : Outflow D) : Edge → Option D
  | .fall => out.fall
  | .branch => out.branch

end Outflow

structure Problem (D : Type) (n : Nat) where
  graph : Graph n
  /-- State of what is not reached. -/
  bottom : D
  /-- State flowing into the first instruction. -/
  entry : D
  transfer : Fin n → D → Except Error (Outflow D)
  /-- The visit of a loop head from which on its state is widened. -/
  threshold : Option Nat

structure Node (D : Type) where
  incoming : D
  fall : D
  branch : D

def Node.out {D : Type} (node : Node D) : Edge → D
  | .fall => node.fall
  | .branch => node.branch

/-- How often a loop head was visited, and its last incoming state. -/
structure Head (D : Type) where
  visits : Nat
  last : D

structure Iteration (D : Type) (n : Nat) where
  nodes : Vector (Node D) n
  /-- Present at loop heads. -/
  heads : Vector (Option (Head D)) n
  pending : Vector Bool n
  steps : Nat

/-- States at which the iteration has settled. -/
structure Solution (D : Type) (n : Nat) where
  nodes : Vector (Node D) n
  steps : Nat

variable {D : Type} {n : Nat} [AbstractDomain D]

def Head.widens (threshold : Option Nat) (h : Head D) : Bool :=
  threshold.any fun limit => limit ≤ h.visits + 1

/-- The head after one more visit, at which `merged` flows in. -/
def Head.visit (threshold : Option Nat) (h : Head D) (merged : D) : Head D :=
  ⟨h.visits + 1, if h.widens threshold then AbstractDomain.widen h.last merged else merged⟩

/-- The old state stays unless a different one is produced. -/
def settle (old : D) : Option D → D
  | none => old
  | some new => if AbstractDomain.same old new then old else new

def changed (old : D) : Option D → Bool
  | none => false
  | some new => !AbstractDomain.same old new

namespace Problem

def start (p : Problem D n) : Iteration D n where
  nodes := Vector.replicate n ⟨p.bottom, p.bottom, p.bottom⟩
  heads :=
    let heads := p.graph.loopHeads
    Vector.ofFn fun i => if heads.contains i then some ⟨0, p.bottom⟩ else none
  pending := Vector.replicate n true
  steps := 0

/-- What flows into `i` before any edge is followed. -/
def initial (p : Problem D n) (i : Fin n) : D := if i.val = 0 then p.entry else p.bottom

/-- The join of all that flows into `i`. -/
def merge (p : Problem D n) (nodes : Vector (Node D) n) (i : Fin n) : D :=
  (p.graph.predecessors i).foldl (fun d (j, e) => AbstractDomain.join d ((nodes.get j).out e))
    (p.initial i)

/-- The instructions that the edges leaving `i` lead to, among those edges that moved. -/
def wakes (p : Problem D n) (i : Fin n) (moved : Edge → Bool) : List (Fin n) :=
  ((p.graph.successors i).filter fun (_, e) => moved e).map (·.1)

/-- Recomputes instruction `i`. -/
def step (p : Problem D n) (s : Iteration D n) (i : Fin n) : Except Error (Iteration D n) := do
  let merged := p.merge s.nodes i
  let head := (s.heads.get i).map fun h => h.visit p.threshold merged
  let incoming := head.elim merged Head.last
  let out ← p.transfer i incoming
  let node := s.nodes.get i
  let woken := p.wakes i fun e => changed (node.out e) (out.on e)
  return {
    nodes := s.nodes.set i ⟨incoming, settle node.fall out.fall, settle node.branch out.branch⟩
      i.isLt
    heads := s.heads.set i head i.isLt
    pending := Vector.ofFn fun j => woken.contains j || (j != i && s.pending.get j)
    steps := s.steps + 1 }

/-- The widening that recomputing `i` performs. -/
def widening? (p : Problem D n) (s : Iteration D n) (i : Fin n) : Option Event :=
  (s.heads.get i).bind fun h =>
    if h.widens p.threshold then some (.widening i (h.visits + 1)) else none

end Problem

/-- The first pending instruction. -/
def Iteration.next? (s : Iteration D n) : Option (Fin n) :=
  (List.finRange n).find? fun i => s.pending.get i

namespace Problem

/-- Iterates for at most `fuel` steps. -/
def run (p : Problem D n) (fuel : Nat) (s : Iteration D n) : Logged (Solution D n) :=
  match s.next?, fuel with
  | none, _ => pure ⟨s.nodes, s.steps⟩
  | some _, 0 => throw (.invariant (.unsettled s.steps))
  | some i, fuel + 1 => do
    (p.widening? s i).forM Logged.report
    p.run fuel (← p.step s i)

def solve (p : Problem D n) (fuel : Nat) : Logged (Solution D n) := p.run fuel p.start

end Problem

end Dataflow

end Lifespan
