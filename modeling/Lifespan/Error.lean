import Lifespan.Code.Text

namespace Lifespan

/-- The class breaks a convention of the code it was compiled from. -/
inductive Assumption where
  | qualifiedLocal (name method : String)
  | parameterType (p : Param) (x : Local)
  | staticReceiver (cls method : String)
  | missingReceiver (cls method : String)
  | arity (expected : Nat) (c : Call) (site : Site)

/-- What an unsupported assignment writes to. -/
inductive AssignTarget where
  | staticField
  | element
  | array
  | double
  | field

/-- Code that the analyses do not interpret. -/
inductive Unsupported where
  | assignment (sort : AssignTarget) (target : Place) (value : Expr)
  | expression (e : Expr)
  | nonInteger (x : Local)
  | condition (e : Expr)
  | returnValue (e : Expr)
  | throwValue (e : Expr)
  | invocation (c : Call)
  | nonConstantStart (c : Call) (site : Site)
  | allocations (x : Local) (site : Site) (count : Nat)
  | reconstructed (x : Local) (site earlier : Site)
  | unresolvedReceiver (x : Local) (site : Site)

/-- Misuse of an environment. -/
inductive DomainFailure where
  | duplicate (v : String)
  | unknown (v : String)
  | incompatible (a b : List String)

/-- The class, or a use of it, is not well formed. -/
inductive Violation where
  | unknownLocal (x method : String)
  | parameterIndex (index : Nat) (method : String)
  | branchTarget (target : Nat) (method : String)
  | emptyBody (method : String)
  | fallsOff (method : String)
  | noReceiver (c : Call) (site : Site)
  | notAnalyzed (method : Nat)
  /-- The iteration used up its step limit. -/
  | unsettled (limit : Nat)

inductive Error where
  | loading
  | assumption (a : Assumption)
  | unsupported (u : Unsupported)
  | domain (f : DomainFailure)
  | invariant (v : Violation)

def namesText (names : List String) : String := "[" ++ ", ".intercalate names ++ "]"

def Assumption.message : Assumption → String
  | .qualifiedLocal name method => s!"invalid local name {name} in {method}"
  | .parameterType p x =>
    s!"parameter {p.index} of type " ++ p.ty.text ++ s!" assigned to local `{x.name}` of type " ++
      x.ty.text
  | .staticReceiver cls method => s!"static invocation of {cls}.{method} with a receiver"
  | .missingReceiver cls method => s!"instance invocation of {cls}.{method} without a receiver"
  | .arity expected c site =>
    s!"expect {expected} argument" ++ (if expected = 1 then "" else "s") ++ " for " ++
      c.text ++ " at " ++
      site.text ++ s!", found {c.args.length}"

def AssignTarget.text : AssignTarget → String
  | .staticField => "non-local variable"
  | .element => "array element"
  | .array => "array"
  | .double => "double"
  | .field => "field"

def Unsupported.message : Unsupported → String
  | .assignment sort target value =>
    "assignment to " ++ sort.text ++ ": " ++ target.text ++ " = " ++ value.text
  | .expression e => "expression: " ++ e.text
  | .nonInteger x => "expression: " ++ x.name ++ " of type " ++ x.ty.text
  | .condition e => "condition: " ++ e.text
  | .returnValue e => "statement: return " ++ e.text
  | .throwValue e => "statement: throw " ++ e.text
  | .invocation c => "invocation: " ++ c.text
  | .nonConstantStart c site => "non-constant start bound: " ++ c.text ++ " at " ++ site.text
  | .allocations x site count =>
    "ambiguous allocation site: " ++ x.name ++ " at " ++ site.text ++
      s!" refers to {count} allocations"
  | .reconstructed x site earlier =>
    "ambiguous allocation site: " ++ x.name ++ " at " ++ site.text ++
      " is already constructed at " ++ earlier.text
  | .unresolvedReceiver x site =>
    "receiver not resolved to any initializer: " ++ x.name ++ " at " ++ site.text

def DomainFailure.message : DomainFailure → String
  | .duplicate v => s!"duplicated variable `{v}` in environment"
  | .unknown v => s!"variable `{v}` not in environment"
  | .incompatible a b => "incompatible environments " ++ namesText a ++ " and " ++ namesText b

def Violation.message : Violation → String
  | .unknownLocal x method => s!"unknown local `{x}` in method `{method}`"
  | .parameterIndex index method => s!"invalid parameter index {index} in method `{method}`"
  | .branchTarget target method => s!"branch target {target} out of range in method `{method}`"
  | .emptyBody method => s!"empty body in method `{method}`"
  | .fallsOff method => s!"control falls off the end of method `{method}`"
  | .noReceiver c site => "no receiver for " ++ c.text ++ " at " ++ site.text
  | .notAnalyzed method => s!"method #{method} is not analyzed"
  | .unsettled limit => s!"no fixed point within {limit} steps"

/-- The component a message comes from, then what happened. -/
def Error.message : Error → String
  | .loading => "[timeguard::loading]"
  | .assumption a => "[timeguard::assumption] " ++ a.message
  | .unsupported u => "[timeguard::unsupported] " ++ u.message
  | .domain f => "[timeguard::domain] " ++ f.message
  | .invariant v => "[timeguard::invariant] " ++ v.message

end Lifespan
