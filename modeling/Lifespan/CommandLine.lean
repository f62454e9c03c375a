import Lifespan.Code.Decode
import Lifespan.Verifier

namespace Lifespan.CommandLine

inductive Key where
  | verbose
  | properties
  | config
  | intervalClass
  | queryMethod
  | allowUnresolved
  | logFile
  | help
  | version
  deriving DecidableEq

namespace Key

def all : List Key :=
  [verbose, properties, config, intervalClass, queryMethod, allowUnresolved, logFile, help, version]

def long : Key → String
  | verbose => "verbose"
  | properties => "properties"
  | config => "config"
  | intervalClass => "interval-class"
  | queryMethod => "query-method"
  | allowUnresolved => "allow-unresolved"
  | logFile => "log-file"
  | help => "help"
  | version => "version"

def short? : Key → Option Char
  | verbose => some 'v'
  | properties => some 'p'
  | help => some 'h'
  | version => some 'V'
  | _ => none

def takesValue : Key → Bool
  | properties | config | intervalClass | queryMethod | logFile => true
  | verbose | allowUnresolved | help | version => false

/-- Whether a key may occur, and take values, more than once. -/
def repeats : Key → Bool
  | verbose | properties => true
  | _ => false

def ofLong? (name : String) : Option Key := all.find? fun k => k.long == name

def ofShort? (c : Char) : Option Key := all.find? fun k => k.short? == some c

end Key

/-- Why no verification is run. -/
inductive Stop where
  | usage
  | help
  | version

/-- What was collected from the arguments. -/
structure Given where
  keys : List Key := []
  values : List (Key × String) := []
  input : Option String := none

namespace Given

def count (g : Given) (k : Key) : Nat := g.keys.count k

def valuesOf (g : Given) (k : Key) : List String :=
  g.values.filterMap fun (k', v) => if k' = k then some v else none

def withKey (g : Given) (k : Key) : Given := { g with keys := g.keys ++ [k] }

def withValue (g : Given) (k : Key) (v : List Char) : Given :=
  { g with values := g.values ++ [(k, String.ofList v)] }

/-- There is one input. -/
def withInput (g : Given) (path : String) : Except Stop Given :=
  match g.input with
  | some _ => .error .usage
  | none => .ok { g with input := some path }

/-- A key that takes no value. -/
def withFlag (g : Given) : Key → Except Stop Given
  | .help => .error .help
  | .version => .error .version
  | k => .ok (g.withKey k)

end Given

/-- The part before the first `=`, and the part after it without further leading ones. -/
def splitAttached (arg : List Char) : List Char × Option (List Char) :=
  match arg.dropWhile (· != '=') with
  | [] => (arg, none)
  | rest => (arg.takeWhile (· != '='), some (rest.dropWhile (· == '=')))

/-- A long argument without its dashes; also the key whose values may follow. -/
def long (g : Given) (arg : List Char) : Except Stop (Given × Option Key) :=
  let (name, attached) := splitAttached arg
  match Key.ofLong? (String.ofList name) with
  | none => .error .usage
  | some k =>
    if k.takesValue then
      match attached with
      | none => .ok (g.withKey k, some k)
      | some v => .ok ((g.withKey k).withValue k v, none)
    else (g.withFlag k).map (·, none)

/-- A cluster of one-letter keys; the rest of it is the value of the first that takes one. -/
def cluster (g : Given) : List Char → Except Stop (Given × Option Key)
  | [] => .ok (g, none)
  | c :: rest =>
    match Key.ofShort? c with
    | none => .error .usage
    | some k =>
      if k.takesValue then
        match rest with
        | [] => .ok (g.withKey k, some k)
        | '=' :: v => .ok ((g.withKey k).withValue k (v.dropWhile (· == '=')), none)
        | v => .ok ((g.withKey k).withValue k v, if k.repeats then some k else none)
      else do cluster (← g.withFlag k) rest

/-- Scans arguments; `awaiting` is the key that the next plain argument is a value of. -/
def scan (g : Given) (awaiting : Option Key) : List String → Except Stop Given
  | [] => .ok g
  | arg :: rest => do
    match arg.toList with
    | ['-', '-'] => rest.foldlM Given.withInput g
    | '-' :: '-' :: name =>
      let (g, awaiting) ← long g (name.dropWhile (· == '-'))
      scan g awaiting rest
    | '-' :: c :: cs =>
      let (g, awaiting) ← cluster g (c :: cs)
      scan g awaiting rest
    | plain =>
      match awaiting with
      | some k => scan (g.withValue k plain) (if k.repeats then some k else none) rest
      | none => scan (← g.withInput arg) none rest

structure Options where
  verbosity : Nat
  properties : List Property
  config : Option String
  intervalClass : Option String
  queryMethod : Option String
  allowUnresolved : Bool
  logFile : Option String
  input : String

namespace Given

/-- Keys that do not repeat occur once, and keys that take values have one. -/
def wellFormed (g : Given) : Bool :=
  g.keys.all fun k =>
    (k.repeats || g.count k == 1) && (!k.takesValue || !(g.valuesOf k).isEmpty)

def options? (g : Given) : Option Options := do
  guard g.wellFormed
  return {
    verbosity := g.count .verbose
    properties := ← (g.valuesOf .properties).mapM Property.ofText?
    config := (g.valuesOf .config).head?
    intervalClass := (g.valuesOf .intervalClass).head?
    queryMethod := (g.valuesOf .queryMethod).head?
    allowUnresolved := g.keys.contains .allowUnresolved
    logFile := (g.valuesOf .logFile).head?
    input := ← g.input }

end Given

def parse (args : List String) : Except Stop Options := do
  let g ← scan {} none args
  match g.options? with
  | none => .error .usage
  | some o => .ok o

namespace Options

/-- What the arguments say goes before what a file says. -/
def override (o : Options) (s : Settings) : Settings where
  intervalClass := o.intervalClass.getD s.intervalClass
  queryMethod := o.queryMethod.getD s.queryMethod
  allowUnresolved := o.allowUnresolved || s.allowUnresolved

/-- The least important events that are shown. -/
def level (o : Options) : Level :=
  match o.verbosity with
  | 0 => .info
  | 1 => .debug
  | _ => .trace

end Options

/-- Where a run takes its files from. -/
structure Host (m : Type → Type) where
  /-- Creates or empties a file, if possible. -/
  create : String → m Bool
  read : String → m (Option String)
  log : Options → List Event → m Unit

inductive Outcome where
  | printed (lines : List String)
  | misused
  | noLogFile
  | failed (e : Error)

def name : String := "timeguard-engine"

def versionLine : String := name ++ " 0.1.0"

def helpLines : List String := [
  versionLine,
  "Verify temporal properties of interval objects in a class",
  "",
  "USAGE:",
  "    " ++ name ++ " [FLAGS] [OPTIONS] <input>",
  "",
  "FLAGS:",
  "        --allow-unresolved    Consider queries on unresolved receivers as safe",
  "    -h, --help                Prints help information",
  "    -V, --version             Prints version information",
  "    -v, --verbose             Verbosity, repeat for more details",
  "",
  "OPTIONS:",
  "        --config <config>                    Settings file (JSON)",
  "        --interval-class <interval-class>    Class whose objects are tracked as intervals",
  "        --log-file <log-file>                Also write a full trace to this file",
  "    -p, --properties <properties>...         Properties to check, all of them if none is given",
  "        --query-method <query-method>        Method that queries an interval at a time point",
  "",
  "ARGS:",
  "    <input>    Serialized class (JSON)"]

section Run

variable {m : Type → Type} [Monad m] (host : Host m)

def load {α : Type} (path : String) (decode : String → Except Error α) : m (Except Error α) := do
  match ← host.read path with
  | none => return .error .loading
  | some text => return decode text

def loadSettings (o : Options) : m (Except Error Settings) := do
  match o.config with
  | none => return .ok (o.override {})
  | some path => return (← load host path Settings.ofText).map o.override

def verify (o : Options) : m Outcome := do
  match ← loadSettings host o with
  | .error e => return .failed e
  | .ok s =>
    match ← load host o.input Class.ofText with
    | .error e => return .failed e
    | .ok c =>
      let run := c.verify s o.properties
      host.log o (.loaded c.name c.methods.length o.input :: run.events)
      match run.result with
      | .error e => return .failed e
      | .ok report => return .printed report.lines

def run (args : List String) : m Outcome := do
  match parse args with
  | .error .usage => return .misused
  | .error .help => return .printed helpLines
  | .error .version => return .printed [versionLine]
  | .ok o =>
    match o.logFile with
    | none => verify host o
    | some path => if ← host.create path then verify host o else return .noLogFile

end Run

end Lifespan.CommandLine
