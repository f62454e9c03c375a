import Lifespan.Environment
import Lifespan.Initializer
import Lifespan.Property

namespace Lifespan

inductive Level where
  | info
  | debug
  | trace
  deriving DecidableEq

namespace Level

def rank : Level → Nat
  | info => 0
  | debug => 1
  | trace => 2

def text : Level → String
  | info => "INFO"
  | debug => "DEBUG"
  | trace => "TRACE"

end Level

/-- Parts of a verification that the trace encloses. -/
inductive Stage where
  | analysis (name : String)
  | check (p : Property) (cls : String)

def Stage.title : Stage → String
  | analysis name => s!"numerical analysis of {name}"
  | check p cls => "checking " ++ p.text ++ s!" on {cls}"

inductive Event where
  | enter (s : Stage)
  | leave (s : Stage)
  | environment (env : Environment)
  | widening (index visit : Nat)
  | loaded (cls : String) (methods : Nat) (path : String)
  | pointsTo (method : String) (steps : Nat)
  | initializer (i : Initializer)
  | scanned (cls : String) (initializers queries : Nat)
  | methodDone (method : String) (env : Environment) (steps : Nat)
  | classDone (cls : String)
  | order (i : Initializer) (finish : Term String) (holds : Bool)
  | query (q : Query) (time : Term String) (i : Initializer) (holds : Bool)
  | decision (p : Property) (cls : String) (holds : Bool)
  | verdict (p : Property) (cls : String) (v : Verdict)

namespace Event

def level : Event → Level
  | enter _ | leave _ | environment _ | widening .. => .trace
  | pointsTo .. | initializer _ | order .. | query .. | verdict .. => .debug
  | loaded .. | scanned .. | methodDone .. | classDone _ | decision .. => .info

/-- How an event changes the number of open stages. -/
def after (depth : Nat) : Event → Nat
  | enter _ => depth + 1
  | leave _ => depth - 1
  | _ => depth

def indent (depth : Nat) : String := "".pushn ' ' (2 * depth)

/-- The wording of an event inside `depth` open stages. -/
def message (depth : Nat) : Event → String
  | enter s => indent depth ++ "-> " ++ s.title
  | leave s => indent (depth - 1) ++ "<- " ++ s.title
  | environment env => indent (depth - 1) ++ "   environment " ++ env.text
  | widening index visit => s!"widening at loop head {index} (visit {visit})"
  | loaded cls methods path => s!"loaded class {cls} with {methods} methods from {path}"
  | pointsTo method steps => s!"points-to of {method} stabilized after {steps} steps"
  | initializer i => i.name ++ " at " ++ i.site.text ++ s!": [{i.start}, " ++ i.finish.text ++ "]"
  | scanned cls initializers queries =>
    s!"class {cls}: {initializers} initializers, {queries} query sites"
  | methodDone method env steps => s!"analyzed {method} over " ++ env.text ++ s!" in {steps} steps"
  | classDone cls => s!"numerical analysis of {cls} done"
  | order i finish holds =>
    i.name ++ " at " ++ i.site.text ++ ": " ++ finish.text ++ s!" >= {i.start}: {holds}"
  | query q time i holds =>
    "query " ++ time.text ++ " at " ++ q.site.text ++ " on " ++ i.name ++ s!": {holds}"
  | decision p cls holds => p.text ++ s!" of {cls}: {holds}"
  | verdict p cls v => p.text ++ s!" of {cls}: " ++ v.text

/-- The lines of a log, starting inside `depth` stages. -/
def lines (depth : Nat) : List Event → List (Level × String)
  | [] => []
  | e :: rest => (e.level, e.message depth) :: lines (e.after depth) rest

/-- The lines of a log that `level` lets through. -/
def linesUpTo (level : Level) (events : List Event) : List (Level × String) :=
  (lines 0 events).filter fun line => line.1.rank ≤ level.rank

end Event

structure Logged (α : Type) where
  events : List Event
  result : Except Error α

namespace Logged

variable {α β : Type}

def bind (x : Logged α) (f : α → Logged β) : Logged β :=
  match x.result with
  | .error e => ⟨x.events, .error e⟩
  | .ok a => ⟨x.events ++ (f a).events, (f a).result⟩

instance : Monad Logged where
  pure a := ⟨[], .ok a⟩
  bind := bind

instance : MonadExceptOf Error Logged where
  throw e := ⟨[], .error e⟩
  tryCatch x f :=
    match x.result with
    | .ok _ => x
    | .error e => ⟨x.events ++ (f e).events, (f e).result⟩

instance : MonadLift (Except Error) Logged where
  monadLift r := ⟨[], r⟩

def report (e : Event) : Logged Unit := ⟨[e], .ok ()⟩

/-- Encloses the events of `x`, also when it fails. -/
def within (s : Stage) (x : Logged α) : Logged α := ⟨.enter s :: x.events ++ [.leave s], x.result⟩

end Logged

end Lifespan
