import Lifespan.Error
import Lifespan.Term

namespace Lifespan

namespace Code.Expr

/-- The term of an expression over int literals and int locals with `+`, `-` and `*`. -/
def term : Expr Local Param → Except Error (Term String)
  | .int v => .ok (.const v)
  | .var x => if x.ty = .int then .ok (.var x.name) else .error (.unsupported (.nonInteger x))
  | .arith op l r => do
    let lt ← l.term
    let rt ← r.term
    match op with
    | .add => return .add lt rt
    | .sub => return .sub lt rt
    | .mul => return .mul lt rt
    | .div | .rem => throw (.unsupported (.expression (.arith op l r)))
  | e => .error (.unsupported (.expression e))

end Code.Expr

/-- What a branch establishes on its two edges. -/
structure Branching where
  taken : Constraint String
  passed : Constraint String

/-- The constraints of `l op r` and of its negation. -/
def CmpOp.branching (op : CmpOp) (l r : Term String) : Branching :=
  match op with
  | .eq => ⟨⟨.sub l r, .eq⟩, ⟨.sub l r, .ne⟩⟩
  | .ne => ⟨⟨.sub l r, .ne⟩, ⟨.sub l r, .eq⟩⟩
  | .gt => ⟨⟨.sub l r, .gt⟩, ⟨.sub r l, .ge⟩⟩
  | .ge => ⟨⟨.sub l r, .ge⟩, ⟨.sub r l, .gt⟩⟩
  | .lt => ⟨⟨.sub r l, .gt⟩, ⟨.sub l r, .ge⟩⟩
  | .le => ⟨⟨.sub r l, .ge⟩, ⟨.sub l r, .gt⟩⟩

def Code.Expr.branching : Expr Local Param → Except Error Branching
  | .compare op l r => do
    let lt ← l.term
    let rt ← r.term
    return op.branching lt rt
  | e => .error (.unsupported (.condition e))

end Lifespan
