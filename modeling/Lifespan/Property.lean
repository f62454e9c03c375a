namespace Lifespan

inductive Property where
  /-- Every interval ends no earlier than it starts. -/
  | startEndOrder
  /-- No interval is queried before its start. -/
  | afterStart
  /-- No interval is queried after its end. -/
  | beforeEnd
  deriving DecidableEq

namespace Property

def all : List Property := [startEndOrder, afterStart, beforeEnd]

def text : Property → String
  | startEndOrder => "START_END_ORDER"
  | afterStart => "AFTER_START"
  | beforeEnd => "BEFORE_END"

/-- Letter case does not matter, and a dash stands for an underscore. -/
def normalized (name : String) : String :=
  name.map fun c => if c = '-' then '_' else c.toUpper

def ofText? (name : String) : Option Property := all.find? fun p => p.text == normalized name

end Property

inductive Verdict where
  | safe
  /-- The property could not be shown. -/
  | alarm
  deriving DecidableEq

namespace Verdict

def ofBool (holds : Bool) : Verdict := if holds then safe else alarm

def text : Verdict → String
  | safe => "SAFE"
  | alarm => "UNSAFE"

end Verdict

end Lifespan
