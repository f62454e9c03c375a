import Lifespan.Term

namespace Lifespan

/-- An operation on numbers that is not checked for overflow, with its operands. -/
inductive Operation where
  | sum (a b : Int)
  | difference (a b : Int)
  | negation (a : Int)
  | size (a : Int)
  | half (a : Int)
  | double (a : Int)

def Operation.result : Operation → Int
  | sum a b => a + b
  | difference a b => a - b
  | negation a => -a
  | size a => a.natAbs
  | half a => a / 2
  | double a => 2 * a

/-- The signed 128-bit integer that an overflow leaves. -/
def wrap (v : Int) : Int := (v + int128Limit) % (2 * int128Limit) - int128Limit

/-- A computation that is open about what its operations do: each goes on with the number that its
result is taken for. -/
inductive Traced (α : Type) where
  | done (a : α)
  | step (o : Operation) (next : Int → Traced α)

namespace Traced

variable {α β : Type}

protected def bind (f : α → Traced β) : Traced α → Traced β
  | done a => f a
  | step o next => step o fun v => (next v).bind f

instance : Monad Traced where
  pure := done
  bind x f := x.bind f

def perform (o : Operation) : Traced Int := step o done

/-- What comes out of exact arithmetic. -/
def value : Traced α → α
  | done a => a
  | step o next => (next o.result).value

/-- The operations that exact arithmetic carries out, in order. -/
def operations : Traced α → List Operation
  | done _ => []
  | step o next => o :: (next o.result).operations

/-- What comes out if the first overflow of 128 bits stops everything. -/
def checked? : Traced α → Option α
  | done a => some a
  | step o next => (signed? int128Limit o.result).bind fun v => (next v).checked?

/-- What comes out if overflows of 128 bits go unnoticed. -/
def wrapped : Traced α → α
  | done a => a
  | step o next => (next (wrap o.result)).wrapped

/-- One entry after the other. -/
def ofFn : {n : Nat} → (Fin n → Traced α) → Traced (Vector α n)
  | 0, _ => pure #v[]
  | n + 1, f => do
    let entries ← ofFn fun i => f i.castSucc
    return entries.push (← f (Fin.last n))

/-- The negation of an end, if it is there. -/
def negated : Option Int → Traced (Option Int)
  | some v => do return some (← perform (.negation v))
  | none => pure none

end Traced

end Lifespan
