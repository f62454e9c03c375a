namespace Lifespan

inductive Term (α : Type) where
  | const (c : Int)
  | var (x : α)
  | add (l r : Term α)
  | sub (l r : Term α)
  | mul (l r : Term α)
  deriving DecidableEq

/-- The least number above all signed 64-bit integers. -/
def int64Limit : Int := 0x8000000000000000

/-- The least number above all signed 128-bit integers. -/
def int128Limit : Int := 0x80000000000000000000000000000000

/-- `v` if it is a signed integer below the limit of its width. -/
def signed? (limit v : Int) : Option Int :=
  if -limit ≤ v ∧ v < limit then some v else none

namespace Term

variable {α β ε : Type}

/-- The exact value. -/
def eval (v : α → Int) : Term α → Int
  | const c => c
  | var x => v x
  | add l r => l.eval v + r.eval v
  | sub l r => l.eval v - r.eval v
  | mul l r => l.eval v * r.eval v

/-- The value in 64-bit arithmetic, none on overflow or where a variable has no value. -/
def eval? (v : α → Option Int) : Term α → Option Int
  | const c => some c
  | var x => v x
  | add l r => do signed? int64Limit ((← l.eval? v) + (← r.eval? v))
  | sub l r => do signed? int64Limit ((← l.eval? v) - (← r.eval? v))
  | mul l r => do signed? int64Limit ((← l.eval? v) * (← r.eval? v))

/-- The value of a term without variables. -/
def constant? (t : Term α) : Option Int := t.eval? fun _ => none

/-- Replaces every variable; the leftmost one that has no replacement decides the error. -/
def resolve (var' : α → Except ε β) : Term α → Except ε (Term β)
  | const c => .ok (.const c)
  | var x => return .var (← var' x)
  | add l r => return .add (← l.resolve var') (← r.resolve var')
  | sub l r => return .sub (← l.resolve var') (← r.resolve var')
  | mul l r => return .mul (← l.resolve var') (← r.resolve var')

def text : Term String → String
  | const c => toString c
  | var x => x
  | add l r => "(" ++ l.text ++ " + " ++ r.text ++ ")"
  | sub l r => "(" ++ l.text ++ " - " ++ r.text ++ ")"
  | mul l r => "(" ++ l.text ++ " * " ++ r.text ++ ")"

end Term

/-- How a value compares with zero. -/
inductive Relation where
  | eq | ne | gt | ge
  deriving DecidableEq

namespace Relation

def Holds : Relation → Int → Prop
  | eq, v => v = 0
  | ne, v => v ≠ 0
  | gt, v => 0 < v
  | ge, v => 0 ≤ v

instance (r : Relation) (v : Int) : Decidable (r.Holds v) := by
  cases r <;> unfold Holds <;> infer_instance

def symbol : Relation → String
  | eq => "=="
  | ne => "!="
  | gt => ">"
  | ge => ">="

end Relation

/-- `term relation 0`. -/
structure Constraint (α : Type) where
  term : Term α
  relation : Relation
  deriving DecidableEq

namespace Constraint

variable {α β ε : Type}

def Holds (c : Constraint α) (v : α → Int) : Prop := c.relation.Holds (c.term.eval v)

/-- The truth value in 64-bit arithmetic. -/
def holds? (c : Constraint α) (v : α → Option Int) : Option Bool :=
  (c.term.eval? v).map fun x => decide (c.relation.Holds x)

def resolve (var' : α → Except ε β) (c : Constraint α) : Except ε (Constraint β) :=
  return ⟨← c.term.resolve var', c.relation⟩

def text (c : Constraint String) : String := c.term.text ++ " " ++ c.relation.symbol ++ " 0"

end Constraint

end Lifespan
