import Lifespan.Error
import Lifespan.FinMap

namespace Lifespan

structure SourceMethod where
  name : String
  params : List Ty
  locals : FinMap String Ty
  /-- Absent for abstract and native methods. -/
  body : Option (List SourceInstr)

structure SourceClass where
  name : String
  methods : List SourceMethod

/-- The instructions of a method; execution starts at the first. -/
structure Body where
  size : Nat
  code : Vector (Instr size) size
  pos : 0 < size
  /-- The last instruction does not fall through. -/
  ends : code[size - 1].fallsThrough = false

structure Method where
  name : String
  params : List Ty
  body : Option Body

structure Class where
  name : String
  methods : List Method

def Method.isConstructor (m : Method) : Bool := m.name == constructorName

def Method.size (m : Method) : Nat := m.body.elim 0 Body.size

/-- What names mean in a method whose body has `length` instructions. -/
structure Scope where
  method : String
  locals : FinMap String Ty
  params : List Ty
  length : Nat

namespace Scope

def var (s : Scope) (x : String) : Except Error Local :=
  match s.locals.get? x with
  | none => .error (.invariant (.unknownLocal x s.method))
  | some ty => .ok ⟨x, ty⟩

def param (s : Scope) (index : Nat) : Except Error Param :=
  match s.params[index]? with
  | none => .error (.invariant (.parameterIndex index s.method))
  | some ty => .ok ⟨index, ty⟩

def target (s : Scope) (t : Nat) : Except Error (Fin s.length) :=
  if h : t < s.length then .ok ⟨t, h⟩ else .error (.invariant (.branchTarget t s.method))

def expr (s : Scope) (e : SourceExpr) : Except Error Expr := e.resolve s.var s.param

def place (s : Scope) (p : SourcePlace) : Except Error Place := p.resolve s.var s.param

/-- A parameter is copied only into a local of its own type. -/
def checkAssign : Place → Expr → Except Error Unit
  | .var x, .param p => if x.ty = p.ty then .ok () else .error (.assumption (.parameterType p x))
  | _, _ => .ok ()

/-- Static calls have no receiver, all others have one. -/
def receiver (s : Scope) (c : SourceCall) : Except Error (Option Local) :=
  match c.kind, c.receiver with
  | .static, none => .ok none
  | .static, some _ => .error (.assumption (.staticReceiver c.cls c.method))
  | _, none => .error (.assumption (.missingReceiver c.cls c.method))
  | _, some x => (s.var x).map some

def call (s : Scope) (c : SourceCall) : Except Error Call := do
  let receiver ← s.receiver c
  let args ← c.args.mapM s.expr
  return ⟨c.kind, c.cls, c.method, receiver, args⟩

def instr (s : Scope) : SourceInstr → Except Error (Instr s.length)
  | .assign target value => do
    let target ← s.place target
    let value ← s.expr value
    checkAssign target value
    return .assign target value
  | .branch cond target => return .branch (← s.expr cond) (← s.target target)
  | .goto target => return .goto (← s.target target)
  | .call c => return .call (← s.call c)
  | .returnVoid => return .returnVoid
  | .returnValue value => return .returnValue (← s.expr value)
  | .throwValue value => return .throwValue (← s.expr value)

end Scope

/-- Variables of the analyses are named by a dot, so no local may have one. -/
def isQualified (name : String) : Bool := name.toList.contains '.'

/-- The name of a member of `owner`. -/
def qualified (owner member : String) : String := owner ++ "." ++ member

namespace Body

def ofCode (method : String) {n : Nat} (code : Vector (Instr n) n) : Except Error Body :=
  if hn : 0 < n then
    if he : code[n - 1].fallsThrough = false then .ok ⟨n, code, hn, he⟩
    else .error (.invariant (.fallsOff method))
  else .error (.invariant (.emptyBody method))

end Body

namespace SourceMethod

def scope (m : SourceMethod) (length : Nat) : Scope := ⟨m.name, m.locals, m.params, length⟩

def resolveBody (m : SourceMethod) (source : List SourceInstr) : Except Error Body := do
  let code ← (⟨source.toArray, rfl⟩ : Vector SourceInstr _).mapM (m.scope _).instr
  Body.ofCode m.name code

def resolve (m : SourceMethod) : Except Error Method := do
  match m.locals.keys.find? isQualified with
  | some x => throw (.assumption (.qualifiedLocal x m.name))
  | none => return ⟨m.name, m.params, ← m.body.mapM m.resolveBody⟩

end SourceMethod

namespace SourceClass

def resolve (c : SourceClass) : Except Error Class := do
  return ⟨c.name, ← c.methods.mapM SourceMethod.resolve⟩

end SourceClass

end Lifespan
