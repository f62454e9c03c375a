import Lifespan.Json.Basic

namespace Lifespan.Json

/-- Levels of arrays and objects a decoded document may have. -/
def depthLimit : Nat := 127

/-- The tag and payload of a choice: `"tag"` or an object with the tag as its only key. -/
def choice? (depth : Nat) : Json → Option (String × Option Json)
  | .string (some tag) => some (tag, none)
  | .object [(some tag, payload)] => if depth = 0 then none else some (tag, some payload)
  | _ => none

/-- A choice without data has no payload, or null. -/
def bare? (value : α) : Option Json → Option α
  | none => some value
  | some .null => some value
  | some _ => none

def items? (depth : Nat) : Json → Option (List Json)
  | .array items => if depth = 0 then none else some items
  | _ => none

def pair? (depth : Nat) (j : Json) : Option (Json × Json) :=
  match j.items? depth with
  | some [a, b] => some (a, b)
  | _ => none

def list? (depth : Nat) (decode : Json → Option α) (j : Json) : Option (List α) := do
  (← j.items? depth).mapM decode

/-- The value of a field, none inside if it is missing; a field given twice is an error. -/
def field? (fields : List (Option String × Json)) (name : String) : Option (Option Json) :=
  match fields.filter (·.1 == some name) with
  | [] => some none
  | [(_, value)] => some (some value)
  | _ => none

/-- The named fields of a structure. Other fields of an object are ignored, but their names are
read; an array may leave out trailing fields. -/
def fields? (depth : Nat) (names : List String) : Json → Option (List (Option Json))
  | .object fields =>
    if depth = 0 || fields.any (·.1.isNone) then none else names.mapM (field? fields)
  | .array items =>
    if depth = 0 || names.length < items.length then none
    else some (items.map some ++ List.replicate (names.length - items.length) none)
  | _ => none

/-- The fields of a choice's payload; `arrays` tells whether it may be an array too. -/
def payload? (arrays : Bool) (depth : Nat) (names : List String) (j : Json) :
    Option (List (Option Json)) :=
  match j with
  | .array _ => if arrays then j.fields? depth names else none
  | _ => j.fields? depth names

/-- The entries of a dictionary in the order given. -/
def entries? (depth : Nat) : Json → Option (List (String × Json))
  | .object fields => if depth = 0 then none else fields.mapM fun (k, v) => k.map (·, v)
  | _ => none

/-- A field that may be missing or null. -/
def optional? (decode : Json → Option α) : Option Json → Option (Option α)
  | none => some none
  | some .null => some none
  | some j => (decode j).map some

/-- A field that may be missing. -/
def defaulted? (fallback : α) (decode : Json → Option α) : Option Json → Option α
  | none => some fallback
  | some j => decode j

end Lifespan.Json
