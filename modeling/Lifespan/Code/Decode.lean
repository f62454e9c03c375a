import Lifespan.Class
import Lifespan.Json.View
import Lifespan.Json.Reader

namespace Lifespan

open Json

def ArithOp.ofTag? : String → Option ArithOp
  | "add" => some .add
  | "sub" => some .sub
  | "mul" => some .mul
  | "div" => some .div
  | "rem" => some .rem
  | _ => none

def CmpOp.ofTag? : String → Option CmpOp
  | "eq" => some .eq
  | "ne" => some .ne
  | "gt" => some .gt
  | "ge" => some .ge
  | "lt" => some .lt
  | "le" => some .le
  | _ => none

/-- Two texts, the payload of a field access. -/
def textPair? (arrays : Bool) (depth : Nat) (first second : String) (j : Json) :
    Option (String × String) := do
  match ← j.payload? arrays depth [first, second] with
  | [some a, some b] => return (← a.text?, ← b.text?)
  | _ => none

def Ty.decode (depth : Nat) (j : Json) : Option Ty :=
  match j.choice? depth with
  | some ("int", payload) => bare? .int payload
  | some ("double", payload) => bare? .double payload
  | some ("object", some payload) => payload.text?.map .object
  | some ("array", some payload) =>
    match depth with
    | 0 => none
    | depth + 1 => (Ty.decode depth payload).map .array
  | _ => none

namespace Code

/-- Values that hold no other value. -/
def Expr.decodeAtom (arrays : Bool) (depth : Nat) (tag : String) (payload : Option Json) :
    Option SourceExpr :=
  match tag, payload with
  | "null", payload => bare? .null payload
  | "this", payload => bare? .self payload
  | "int", some j => j.int32?.map .int
  | "double", some j => j.double?.map .double
  | "param", some j => j.index?.map .param
  | "local", some j => j.text?.map .var
  | "new", some j => j.text?.map .new
  | "field", some j =>
    (textPair? arrays (depth - 1) "base" "field" j).map fun (base, name) => .field base name
  | "static_field", some j =>
    (textPair? arrays (depth - 1) "class" "field" j).map fun (cls, name) => .staticField cls name
  | _, _ => none

def Expr.decode (arrays : Bool) (depth : Nat) (j : Json) : Option SourceExpr :=
  match j.choice? depth, depth with
  | some ("neg", some payload), depth + 1 => (Expr.decode arrays depth payload).map .neg
  | some ("new_array", some payload), depth + 2 =>
    match payload.payload? arrays (depth + 1) ["element", "size"] with
    | some [some item, some size] => do
      return .newArray (← Ty.decode depth item) (← Expr.decode arrays depth size)
    | _ => none
  | some ("array_ref", some payload), depth + 2 =>
    match payload.payload? arrays (depth + 1) ["base", "index"] with
    | some [some base, some index] => do
      return .element (← base.text?) (← Expr.decode arrays depth index)
    | _ => none
  | some (tag, some payload), depth + 2 =>
    match ArithOp.ofTag? tag, CmpOp.ofTag? tag, payload.pair? (depth + 1) with
    | some op, _, some (l, r) => do
      return .arith op (← Expr.decode arrays depth l) (← Expr.decode arrays depth r)
    | _, some op, some (l, r) => do
      return .compare op (← Expr.decode arrays depth l) (← Expr.decode arrays depth r)
    | _, _, _ => Expr.decodeAtom arrays (depth + 2) tag (some payload)
  | some (tag, payload), depth => Expr.decodeAtom arrays depth tag payload
  | none, _ => none

def Place.decode (arrays : Bool) (depth : Nat) (j : Json) : Option SourcePlace := do
  match ← j.choice? depth with
  | ("local", some payload) => return .var (← payload.text?)
  | ("field", some payload) =>
    let (base, name) ← textPair? arrays (depth - 1) "base" "field" payload
    return .field base name
  | ("static_field", some payload) =>
    let (cls, name) ← textPair? arrays (depth - 1) "class" "field" payload
    return .staticField cls name
  | ("array_ref", some payload) =>
    match ← payload.payload? arrays (depth - 1) ["base", "index"] with
    | [some base, some index] =>
      return .element (← base.text?) (← Expr.decode arrays (depth - 2) index)
    | _ => none
  | _ => none

def decodeKind (depth : Nat) (j : Json) : Option CallKind := do
  match ← j.choice? depth with
  | ("virtual", payload) => bare? .virtual payload
  | ("special", payload) => bare? .special payload
  | ("static", payload) => bare? .static payload
  | ("interface", payload) => bare? .interface payload
  | _ => none

def Call.decode (arrays : Bool) (depth : Nat) (j : Json) : Option SourceCall := do
  match ← j.fields? depth ["kind", "class", "method", "base", "args"] with
  | [some kind, some cls, some method, base, args] =>
    return {
      kind := ← decodeKind (depth - 1) kind
      cls := ← cls.text?
      method := ← method.text?
      receiver := ← optional? Json.text? base
      args := ← defaulted? [] (list? (depth - 1) (Expr.decode arrays (depth - 2))) args }
  | _ => none

/-- The one field of an instruction such as a jump. -/
def only? (arrays : Bool) (depth : Nat) (name : String) (j : Json) : Option Json := do
  match ← j.payload? arrays depth [name] with
  | [some value] => some value
  | _ => none

def Instr.decode (arrays : Bool) (depth : Nat) (j : Json) : Option SourceInstr := do
  match ← j.choice? depth with
  | ("assign", some payload) =>
    match ← payload.payload? arrays (depth - 1) ["target", "value"] with
    | [some target, some value] =>
      return .assign (← Place.decode arrays (depth - 2) target)
        (← Expr.decode arrays (depth - 2) value)
    | _ => none
  | ("if", some payload) =>
    match ← payload.payload? arrays (depth - 1) ["cond", "target"] with
    | [some cond, some target] =>
      return .branch (← Expr.decode arrays (depth - 2) cond) (← target.index?)
    | _ => none
  | ("goto", some payload) => return .goto (← (← only? arrays (depth - 1) "target" payload).index?)
  | ("invoke", some payload) => return .call (← Call.decode arrays (depth - 1) payload)
  | ("return_void", payload) => bare? .returnVoid payload
  | ("return", some payload) =>
    return .returnValue
      (← Expr.decode arrays (depth - 2) (← only? arrays (depth - 1) "value" payload))
  | ("throw", some payload) =>
    return .throwValue
      (← Expr.decode arrays (depth - 2) (← only? arrays (depth - 1) "value" payload))
  | _ => none

end Code

/-- Declared locals; of a repeated name the last declaration counts. -/
def decodeLocals (depth : Nat) (j : Json) : Option (FinMap String Ty) := do
  let entries ← j.entries? depth
  return FinMap.ofList (← entries.mapM fun (x, ty) => (Ty.decode (depth - 1) ty).map (x, ·))

def SourceMethod.decode (arrays : Bool) (depth : Nat) (j : Json) : Option SourceMethod := do
  match ← j.fields? depth ["name", "params", "locals", "body"] with
  | [some name, params, locals, body] =>
    return {
      name := ← name.text?
      params := ← defaulted? [] (list? (depth - 1) (Ty.decode (depth - 2))) params
      locals := ← defaulted? FinMap.empty (decodeLocals (depth - 1)) locals
      body := ← optional? (list? (depth - 1) (Code.Instr.decode arrays (depth - 2))) body }
  | _ => none

def SourceClass.decode (arrays : Bool) (depth : Nat) (j : Json) : Option SourceClass := do
  match ← j.fields? depth ["name", "methods"] with
  | [some name, some methods] =>
    return {
      name := ← name.text?
      methods := ← list? (depth - 1) (SourceMethod.decode arrays (depth - 2)) methods }
  | _ => none

namespace Class

def decode (arrays : Bool) (j : Json) : Except Error Class :=
  match SourceClass.decode arrays depthLimit j with
  | none => .error .loading
  | some source => source.resolve

/-- The class that a document describes. -/
def ofJson (j : Json) : Except Error Class := decode false j.collapse

/-- The class that a text describes. -/
def ofText (text : String) : Except Error Class :=
  match Json.read? text with
  | none => .error .loading
  | some j => decode true j

end Class

end Lifespan
