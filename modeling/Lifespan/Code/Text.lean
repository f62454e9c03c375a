import Lifespan.Code.Basic

namespace Lifespan

def Ty.text : Ty → String
  | .int => "int"
  | .double => "double"
  | .object cls => cls
  | .array element => element.text ++ "[]"

def Site.text (s : Site) : String := s!"#{s.method}:{s.index}"

def ArithOp.symbol : ArithOp → String
  | .add => "+"
  | .sub => "-"
  | .mul => "*"
  | .div => "/"
  | .rem => "%"

def CmpOp.symbol : CmpOp → String
  | .eq => "=="
  | .ne => "!="
  | .gt => ">"
  | .ge => ">="
  | .lt => "<"
  | .le => "<="

def CallKind.text : CallKind → String
  | .virtual => "virtualinvoke"
  | .special => "specialinvoke"
  | .static => "staticinvoke"
  | .interface => "interfaceinvoke"

namespace Code

def Expr.text : Expr Local Param → String
  | .int v => toString v
  | .double v => v.text
  | .null => "null"
  | .self => "@this"
  | .param p => s!"@parameter{p.index}"
  | .var x => x.name
  | .new cls => "new " ++ cls
  | .newArray item size => "new " ++ item.text ++ "[" ++ size.text ++ "]"
  | .field base name => base.name ++ "." ++ name
  | .staticField cls name => cls ++ "." ++ name
  | .element base index => base.name ++ "[" ++ index.text ++ "]"
  | .neg operand => "-" ++ operand.text
  | .arith op l r => l.text ++ " " ++ op.symbol ++ " " ++ r.text
  | .compare op l r => l.text ++ " " ++ op.symbol ++ " " ++ r.text

def Place.text : Place Local Param → String
  | .var x => x.name
  | .field base name => base.name ++ "." ++ name
  | .staticField cls name => cls ++ "." ++ name
  | .element base index => base.name ++ "[" ++ index.text ++ "]"

def Call.text (c : Call Local Param) : String :=
  let callee := match c.receiver with
    | none => c.cls ++ "." ++ c.method
    | some x => x.name ++ ".<" ++ c.cls ++ ": " ++ c.method ++ ">"
  c.kind.text ++ " " ++ callee ++ "(" ++ ", ".intercalate (c.args.map Expr.text) ++ ")"

def Instr.text {n : Nat} : Instr Local Param (Fin n) → String
  | .assign target value => target.text ++ " = " ++ value.text
  | .branch cond target => "if " ++ cond.text ++ " goto " ++ toString target.val
  | .goto target => "goto " ++ toString target.val
  | .call c => c.text
  | .returnVoid => "return"
  | .returnValue value => "return " ++ value.text
  | .throwValue value => "throw " ++ value.text

end Code

end Lifespan
