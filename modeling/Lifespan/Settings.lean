import Lifespan.Error
import Lifespan.Json.Reader
import Lifespan.Json.View

namespace Lifespan

structure Settings where
  /-- The class whose objects are intervals. -/
  intervalClass : String := "Interval"
  /-- The method that asks an interval about a time. -/
  queryMethod : String := "query"
  /-- Whether a query on a receiver that denotes no interval is accepted. -/
  allowUnresolved : Bool := false
  deriving DecidableEq

namespace Settings

def decode? (j : Json) : Option Settings := do
  match ← j.fields? Json.depthLimit
    ["interval_class", "query_method", "allow_unresolved_receivers"] with
  | [cls, method, allow] =>
    return {
      intervalClass := ← Json.defaulted? "Interval" Json.text? cls
      queryMethod := ← Json.defaulted? "query" Json.text? method
      allowUnresolved := ← Json.defaulted? false Json.bool? allow }
  | _ => none

def ofText (text : String) : Except Error Settings :=
  match (Json.read? text).bind decode? with
  | none => .error .loading
  | some s => .ok s

end Settings

end Lifespan
