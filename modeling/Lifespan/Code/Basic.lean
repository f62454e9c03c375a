import Lifespan.Double

namespace Lifespan

inductive Ty where
  | int
  | double
  | object (cls : String)
  | array (element : Ty)
  deriving DecidableEq

namespace Ty

def isReference : Ty → Bool
  | object _ | array _ => true
  | int | double => false

def isObjectOf (cls : String) : Ty → Bool
  | object name => name == cls
  | _ => false

end Ty

/-- A declared local. -/
structure Local where
  name : String
  ty : Ty
  deriving DecidableEq

/-- A declared parameter. -/
structure Param where
  index : Nat
  ty : Ty
  deriving DecidableEq

/-- The position of an instruction in a class. -/
structure Site where
  method : Nat
  index : Nat
  deriving DecidableEq

/-- Sites are ordered by method, then by position. -/
instance : Ord Site where
  compare := compareLex (compareOn Site.method) (compareOn Site.index)

instance : Std.TransOrd Site :=
  inferInstanceAs (Std.TransCmp (compareLex (compareOn Site.method) (compareOn Site.index)))

instance : Std.LawfulEqOrd Site where
  eq_of_compare {a b} h := by
    obtain ⟨hm, hi⟩ := compareLex_eq_eq.mp h
    have hmethod : a.method = b.method := Std.LawfulEqCmp.eq_of_compare hm
    have hindex : a.index = b.index := Std.LawfulEqCmp.eq_of_compare hi
    calc a = ⟨a.method, a.index⟩ := rfl
      _ = b := by rw [hmethod, hindex]

inductive ArithOp where
  | add | sub | mul | div | rem
  deriving DecidableEq

inductive CmpOp where
  | eq | ne | gt | ge | lt | le
  deriving DecidableEq

inductive CallKind where
  | virtual | special | static | interface
  deriving DecidableEq

namespace Code

variable {V W P Q T U : Type} {ε : Type}

inductive Expr (V P : Type) where
  | int (value : Int)
  | double (value : Double)
  | null
  | self
  | param (p : P)
  | var (x : V)
  | new (cls : String)
  | newArray (item : Ty) (size : Expr V P)
  | field (base : V) (name : String)
  | staticField (cls name : String)
  | element (base : V) (index : Expr V P)
  | neg (operand : Expr V P)
  | arith (op : ArithOp) (l r : Expr V P)
  | compare (op : CmpOp) (l r : Expr V P)
  deriving DecidableEq

/-- The target of an assignment. -/
inductive Place (V P : Type) where
  | var (x : V)
  | field (base : V) (name : String)
  | staticField (cls name : String)
  | element (base : V) (index : Expr V P)
  deriving DecidableEq

structure Call (V P : Type) where
  kind : CallKind
  cls : String
  method : String
  receiver : Option V
  args : List (Expr V P)
  deriving DecidableEq

inductive Instr (V P T : Type) where
  | assign (target : Place V P) (value : Expr V P)
  | branch (cond : Expr V P) (target : T)
  | goto (target : T)
  | call (c : Call V P)
  | returnVoid
  | returnValue (value : Expr V P)
  | throwValue (value : Expr V P)
  deriving DecidableEq

namespace Expr

def int? : Expr V P → Option Int
  | int v => some v
  | _ => none

/-- Replaces every reference; the leftmost one that has no replacement decides the error. -/
def resolve (var' : V → Except ε W) (param' : P → Except ε Q) : Expr V P → Except ε (Expr W Q)
  | int v => .ok (.int v)
  | double v => .ok (.double v)
  | null => .ok .null
  | self => .ok .self
  | param p => return .param (← param' p)
  | var x => return .var (← var' x)
  | new cls => .ok (.new cls)
  | newArray item size => return .newArray item (← size.resolve var' param')
  | field base name => return .field (← var' base) name
  | staticField cls name => .ok (.staticField cls name)
  | element base index => return .element (← var' base) (← index.resolve var' param')
  | neg operand => return .neg (← operand.resolve var' param')
  | arith op l r => return .arith op (← l.resolve var' param') (← r.resolve var' param')
  | compare op l r => return .compare op (← l.resolve var' param') (← r.resolve var' param')

end Expr

namespace Place

def resolve (var' : V → Except ε W) (param' : P → Except ε Q) : Place V P → Except ε (Place W Q)
  | var x => return .var (← var' x)
  | field base name => return .field (← var' base) name
  | staticField cls name => .ok (.staticField cls name)
  | element base index => return .element (← var' base) (← index.resolve var' param')

end Place

namespace Instr

/-- Whether control may go on to the next instruction. -/
def fallsThrough : Instr V P T → Bool
  | assign .. | branch .. | call _ => true
  | goto _ | returnVoid | returnValue _ | throwValue _ => false

def target? : Instr V P T → Option T
  | branch _ t | goto t => some t
  | _ => none

end Instr

end Code

abbrev SourceExpr := Code.Expr String Nat
abbrev SourcePlace := Code.Place String Nat
abbrev SourceCall := Code.Call String Nat
abbrev SourceInstr := Code.Instr String Nat Nat

abbrev Expr := Code.Expr Local Param
abbrev Place := Code.Place Local Param
abbrev Call := Code.Call Local Param

/-- An instruction of a body with `n` instructions. -/
abbrev Instr (n : Nat) := Code.Instr Local Param (Fin n)

/-- Name of the methods that construct objects. -/
def constructorName : String := "<init>"

end Lifespan
