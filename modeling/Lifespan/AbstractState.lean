import Lifespan.Environment
import Lifespan.Octagon.Text

namespace Lifespan

namespace Environment

variable (env : Environment)

def meet (s : Octagon env.size) (c : Constraint String) : Except Error (Octagon env.size) := do
  return s.meet (← c.resolve env.index)

def assign (s : Octagon env.size) (x : String) (t : Term String) :
    Except Error (Octagon env.size) := do
  let i ← env.index x
  return s.assign i (← t.resolve env.index)

def satisfies (s : Octagon env.size) (c : Constraint String) : Except Error Bool := do
  return s.satisfies (← c.resolve env.index)

/-- Whether `l ≥ r` at all points of `s`; constants are compared without it. -/
def entailsGe (s : Octagon env.size) (l r : Term String) : Except Error Bool :=
  match l.constant?, r.constant? with
  | some a, some b => .ok (b ≤ a)
  | _, _ => env.satisfies s ⟨.sub l r, .ge⟩

end Environment

structure AbstractState where
  env : Environment
  shape : Octagon env.size

namespace AbstractState

def top (env : Environment) : AbstractState := ⟨env, .top env.size⟩

def bottom (env : Environment) : AbstractState := ⟨env, .empty⟩

/-- The other shape over the environment of `a`. -/
def aligned (a b : AbstractState) : Except Error (Octagon a.env.size) :=
  if h : a.env = b.env then .ok (h ▸ b.shape)
  else .error (.domain (.incompatible a.env.vars b.env.vars))

def join (a b : AbstractState) : Except Error AbstractState := do
  return ⟨a.env, a.shape.join (← a.aligned b)⟩

def widen (older newer : AbstractState) : Except Error AbstractState := do
  return ⟨older.env, older.shape.widen (← older.aligned newer)⟩

def same (a b : AbstractState) : Bool :=
  if h : a.env = b.env then a.shape.same (h ▸ b.shape) else false

def isBottom (s : AbstractState) : Bool := s.shape.isEmpty

def meet (s : AbstractState) (c : Constraint String) : Except Error AbstractState := do
  return ⟨s.env, ← s.env.meet s.shape c⟩

def assign (s : AbstractState) (x : String) (t : Term String) : Except Error AbstractState := do
  return ⟨s.env, ← s.env.assign s.shape x t⟩

def satisfies (s : AbstractState) (c : Constraint String) : Except Error Bool :=
  s.env.satisfies s.shape c

def entailsGe (s : AbstractState) (l r : Term String) : Except Error Bool :=
  s.env.entailsGe s.shape l r

def text (s : AbstractState) : String := s.shape.text fun x => s.env.vars[x]

end AbstractState

end Lifespan
