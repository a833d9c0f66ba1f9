import SsaFacts.Sample

/-! The command line: analyses sample programs and reports the answers to their questions. -/
namespace SsaFacts

structure Options where
  /-- The sample to analyse; all of them if none is given. -/
  sample : Option Sample := none
  solver : Option String := none
  solverArgs : List String := []
  replay : Option String := none
  disable : Bool := false
  verbose : Bool := false

inductive Request
  | analyse (o : Options)
  | version
  | help

/-- What a run leaves: its exit code and the lines it wrote. -/
structure Outcome where
  code : Nat
  out : List String := []
  err : List String := []

namespace Options

def samples : List Sample := Sample.all.filter (· ≠ .unguardedCountedLoop)

def config (o : Options) (guards : Guards) : Config :=
  let d : Config := {}
  { program := o.solver.getD d.program
    args := if o.solverArgs.isEmpty then d.args else o.solverArgs
    replay := o.replay
    disable := o.disable
    guards }

/-- What an option does with what was read so far. -/
inductive Setter
  | flag (set : Options → Option Options)
  /-- Takes a value, which may start with a dash if `dashed`. -/
  | value (dashed : Bool) (set : String → Options → Option Options)
  | stop (r : Request)

def once {α : Type} (old : Option α) (o : Options) : Option Options := if old.isSome then none else some o

def setSample : Setter := .value false fun v o => do
  let s ← samples.find? (·.name = v)
  once o.sample { o with sample := some s }

def setVerbose : Setter := .flag fun o => if o.verbose then none else some { o with verbose := true }

def long? : String → Option Setter
  | "scenario" => some setSample
  | "solver" => some (.value false fun v o => once o.solver { o with solver := some v })
  | "solver-args" => some (.value true fun v o => some { o with solverArgs := o.solverArgs ++ [v] })
  | "replay" => some (.value false fun v o => once o.replay { o with replay := some v })
  | "disable-constraints" =>
    some (.flag fun o => if o.disable then none else some { o with disable := true })
  | "verbose" => some setVerbose
  | "version" => some (.stop .version)
  | "help" => some (.stop .help)
  | _ => none

def short? : Char → Option Setter
  | 's' => some setSample
  | 'v' => some setVerbose
  | 'V' => some (.stop .version)
  | 'h' => some (.stop .help)
  | _ => none

def isValue (dashed : Bool) (arg : String) : Bool := dashed || arg = "-" || !arg.startsWith "-"

/-- Applies an option whose value, if it takes one, is `attached` or else the next argument. Returns the
options and the arguments left, or what stopped the reading. -/
def apply (setter : Setter) (attached : Option String) (rest : List String) (o : Options) :
    Option (Except Request (Options × List String)) :=
  match setter, attached, rest with
  | .flag set, none, _ => (set o).map fun o => .ok (o, rest)
  | .flag _, some _, _ => none
  | .stop r, none, _ => some (.error r)
  | .stop _, some _, _ => none
  | .value _ set, some v, _ => (set v o).map fun o => .ok (o, rest)
  | .value dashed set, none, v :: rest =>
    if isValue dashed v then (set v o).map fun o => .ok (o, rest) else none
  | .value .., none, [] => none

/-- A group of one-letter options. What follows one that takes a value is the value. -/
def applyShorts (rest : List String) : List Char → Options →
    Option (Except Request (Options × List String))
  | [], o => some (.ok (o, rest))
  | c :: more, o => do
    match ← short? c with
    | .value dashed set =>
      let attached := match more with
        | [] => none
        | '=' :: v => some (String.ofList v)
        | v => some (String.ofList v)
      apply (.value dashed set) attached rest o
    | setter =>
      match ← apply setter none rest o with
      | .ok (o, _) => applyShorts rest more o
      | .error r => some (.error r)

def splitLong (body : List Char) : String × Option String :=
  let key := body.takeWhile (· ≠ '=')
  match body.dropWhile (· ≠ '=') with
  | [] => (String.ofList key, none)
  | _ :: v => (String.ofList key, some (String.ofList v))

def parse : Nat → List String → Options → Option Request
  | 0, _, _ => none
  | _, [], o => some (.analyse o)
  | steps + 1, arg :: rest, o => do
    let next ← match arg.toList with
      | ['-', '-'] => if rest.isEmpty then some (.ok (o, [])) else none
      | '-' :: '-' :: body => do
        let (key, attached) := splitLong body
        apply (← long? key) attached rest o
      | ['-'] => none
      | '-' :: letters => applyShorts rest letters o
      | _ => none
    match next with
    | .ok (o, rest) => parse steps rest o
    | .error r => some r

end Options

def Request.ofArgs (args : List String) : Option Request := Options.parse (args.length + 1) args {}

def Question.ask : Question → Inquiry (List String)
  | .provable label c => return [label ++ ": " ++ toString (← Inquiry.provable c)]
  | .provableOf label pred l r =>
    return [label ++ ": " ++ toString (← Inquiry.provableOf pred [] l [] r)]
  | .satisfiableOf label pred l r =>
    return [label ++ ": " ++ toString (← Inquiry.satisfiableOf pred [] l [] r)]
  | .constants => do
    let known ← Inquiry.identifyConstants
    let p := (← Inquiry.engine).program
    known.mapM fun (v, l) => do
      let name := (← Talk.ofChecked (p.value v)).name.getD "?"
      return "fixed: " ++ name ++ " (v" ++ toString v ++ ") = " ++ l.text

def Question.askAll : List Question → Situation → List String × Option Failure × Situation
  | [], s => ([], none, s)
  | q :: rest, s =>
    match (ExceptT.run q.ask).run s with
    | (.error failure, s) => ([], some failure, s)
    | (.ok lines, s) =>
      let (more, failure, s) := askAll rest s
      (lines ++ more, failure, s)

namespace Sample

def prepare (s : Sample) (config : Config) : Noted (List Question × Engine) := do
  let (questions, program) ← s.load
  let survey ← Survey.ofProgram program []
  return (questions, ← Engine.ofSubject { program, survey } config)

/-- Analyses a sample. Returns what is written, why it failed if it did, and the world left behind. -/
def analyse (s : Sample) (config : Config) (w : World) : List String × Option Failure × World :=
  match (Talk.ofNoted (s.prepare config)).run' w with
  | (.error failure, w) => ([], some failure, w)
  | (.ok (questions, engine), world) =>
    let (lines, failure, situation) := Question.askAll questions { world, engine }
    let (_, situation) := (ExceptT.run Inquiry.close).run situation
    (lines, failure, situation.world)

end Sample

namespace Outcome

def complaint (s : Sample) (f : Failure) : List String :=
  let reason := match f with
    | .error e => e.message
    | .fault _ => "internal fault"
  ("[ERROR] " ++ s.name ++ ": " ++ reason).splitOn "\n"

def ofSamples (config : Config) : List Sample → World → Outcome × World
  | [], w => ({ code := 0 }, w)
  | s :: rest, w =>
    let heading := "== " ++ s.name
    match s.analyse config w with
    | (lines, some failure, w) => ({ code := 1, out := heading :: lines, err := complaint s failure }, w)
    | (lines, none, w) =>
      let (later, w) := ofSamples config rest w
      ({ later with out := heading :: lines ++ later.out }, w)

end Outcome

def versionText : String := "int-constraints 0.1.0"

def helpText : List String :=
  ["Usage: int-constraints [OPTIONS]",
    "  -s, --scenario <NAME>      sample to analyse; all of them when omitted",
    "      --solver <PROGRAM>     solver executable",
    "      --solver-args <ARG>    argument passed to the solver",
    "      --replay <FILE>        copy every solver command into this file",
    "      --disable-constraints  keep no facts, so that only tautologies are provable",
    "  -v, --verbose              look for counterexamples",
    "  -h, --help                 print this text",
    "  -V, --version              print the version"]

/-- Runs the program on its arguments. Wrong arguments end it with code 2. -/
def runProgram (guards : Guards) (args : List String) (w : World) : Outcome × World :=
  match Request.ofArgs args with
  | none => ({ code := 2 }, w)
  | some .version => ({ code := 0, out := [versionText] }, w)
  | some .help => ({ code := 0, out := helpText }, w)
  | some (.analyse o) =>
    let samples := match o.sample with
      | some s => [s]
      | none => Options.samples
    Outcome.ofSamples (o.config guards) samples { w with debug := o.verbose }

end SsaFacts
