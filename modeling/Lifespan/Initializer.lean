import Lifespan.Class
import Lifespan.Term

namespace Lifespan

/-- A constructor call that makes an interval of a fresh allocation. -/
structure Initializer where
  /-- Position among the initializers of the class. -/
  id : Nat
  site : Site
  /-- Where the object is allocated. -/
  node : Site
  start : Int
  finish : Expr

namespace Initializer

def name (i : Initializer) : String := "AbstractObject" ++ toString i.id

/-- The variable that keeps the end of the interval. -/
def ghost (i : Initializer) : String := qualified i.name "end"

/-- The end as the query checks see it: a literal, or what the ghost variable keeps. -/
def finishTerm (i : Initializer) : Term String :=
  match i.finish.int? with
  | some v => .const v
  | none => .var i.ghost

end Initializer

/-- A call that asks an interval about a time. -/
structure Query where
  site : Site
  receiver : Local
  time : Expr

end Lifespan
