/-!
# Command lines

A command line names a command, the graph file it works on, and options. An option with a value is
written `--name value` or `--name=value`; one with a short name also `-n value`, `-nvalue` or
`-n=value`, and short names may share a hyphen. Options may stand before and after the file, none
twice. Two hyphens end the options. Arguments are read from left to right, and the first one that
has no meaning, or that asks for help, ends the reading.
-/

namespace CanvasFusion

inductive ReportFormat where
  | text
  | json
  deriving DecidableEq, Repr

def ReportFormat.ofName? (s : String) : Option ReportFormat :=
  if s = "text" then some .text else if s = "json" then some .json else none

structure PassArguments where
  config : Option String
  /-- How many samples to tile, in place of what the configuration says. -/
  tiles : Option Nat
  deriving DecidableEq, Repr

inductive Command where
  | fuse (graph : String) (output : Option String) (pass : PassArguments) (report : ReportFormat)
  | inspect (graph : String) (pass : PassArguments)
  | version
  | help
  deriving DecidableEq, Repr

namespace Command

inductive Setting where
  | output
  | config
  | tiles
  | report
  deriving DecidableEq, Repr

namespace Setting

def long : Setting → String
  | .output => "output"
  | .config => "config"
  | .tiles => "tiles"
  | .report => "report"

def short? : Setting → Option Char
  | .output => some 'o'
  | _ => none

end Setting

def fuseSettings : List Setting := [.output, .config, .tiles, .report]

def inspectSettings : List Setting := [.config, .tiles]

/-- A size of 64 bits, which may have a plus sign. -/
def size? (s : String) : Option Nat :=
  let digits := match s.toList with
    | '+' :: rest => rest
    | cs => cs
  if digits.isEmpty ∨ !digits.all Char.isDigit then none
  else
    let n := digits.foldl (fun n c => n * 10 + (c.toNat - '0'.toNat)) 0
    if n < 0x10000000000000000 then some n else none

structure Gathered where
  verbose : Bool
  graph : Option String
  output : Option String
  config : Option String
  tiles : Option Nat
  report : Option ReportFormat

namespace Gathered

def empty : Gathered := ⟨false, none, none, none, none, none⟩

def withVerbose (g : Gathered) : Option Gathered :=
  if g.verbose then none else some { g with verbose := true }

def withGraph (g : Gathered) (path : String) : Option Gathered :=
  if g.graph.isSome then none else some { g with graph := some path }

def withSetting (g : Gathered) (s : Setting) (value : String) : Option Gathered :=
  match s with
  | .output => if g.output.isSome then none else some { g with output := some value }
  | .config => if g.config.isSome then none else some { g with config := some value }
  | .tiles =>
    if g.tiles.isSome then none else (size? value).map fun n => { g with tiles := some n }
  | .report =>
    if g.report.isSome then none
    else (ReportFormat.ofName? value).map fun format => { g with report := some format }

end Gathered

inductive Step where
  | read (g : Gathered)
  | awaiting (s : Setting) (g : Gathered)
  | help

def long? (known : List Setting) (g : Gathered) (option : List Char) : Option Step :=
  let name := String.ofList (option.takeWhile (· != '='))
  let value := (option.dropWhile (· != '=')).drop 1
  let attached := '=' ∈ option
  if name = "help" ∧ !attached then some .help
  else if name = "verbose" ∧ !attached then g.withVerbose.map .read
  else
    match known.find? fun s => s.long = name with
    | none => none
    | some s =>
      if attached then (g.withSetting s (String.ofList value)).map .read
      else some (.awaiting s g)

/-- Short options that share a hyphen. One that takes a value takes the rest of them for it. -/
def shorts? (known : List Setting) (g : Gathered) : List Char → Option Step
  | [] => some (.read g)
  | 'v' :: rest =>
    match g.withVerbose with
    | none => none
    | some g => shorts? known g rest
  | 'h' :: _ => some .help
  | c :: rest =>
    match known.find? fun s => s.short? = some c with
    | none => none
    | some s =>
      match rest with
      | [] => some (.awaiting s g)
      | '=' :: value => (g.withSetting s (String.ofList value)).map .read
      | value => (g.withSetting s (String.ofList value)).map .read

/-- Whether an argument is an option and not a value. A hyphen by itself is a value. -/
def isOption (arg : String) : Bool :=
  match arg.toList with
  | '-' :: _ :: _ => true
  | _ => false

def step? (known : List Setting) (g : Gathered) (arg : String) : Option Step :=
  match arg.toList with
  | '-' :: '-' :: option => long? known g option
  | '-' :: c :: rest => shorts? known g (c :: rest)
  | _ => (g.withGraph arg).map .read

/-- The arguments of a command; nothing at all in `some none` means that help is asked for. -/
def gather? (known : List Setting) : Gathered → List String → Option (Option Gathered)
  | g, [] => some (some g)
  | g, "--" :: rest => (rest.foldlM Gathered.withGraph g).map some
  | g, arg :: rest =>
    match step? known g arg with
    | none => none
    | some .help => some none
    | some (.read g) => gather? known g rest
    | some (.awaiting s g) =>
      match rest with
      | [] => none
      | value :: rest =>
        if isOption value then none
        else
          match g.withSetting s value with
          | none => none
          | some g => gather? known g rest

/-- The command with a name; it needs a graph file. The report is a text if nothing else is asked
for. -/
def ofGathered? (name : String) (g : Gathered) : Option Command :=
  g.graph.map fun graph =>
    let pass : PassArguments := ⟨g.config, g.tiles⟩
    if name = "fuse" then .fuse graph g.output pass (g.report.getD .text) else .inspect graph pass

def names : List String := ["fuse", "inspect", "help"]

def help? : List String → Option Command
  | [] => some .help
  | [name] => if name ∈ names then some .help else none
  | _ => none

def named? (name : String) (args : List String) : Option Command :=
  if name = "help" then help? args
  else if name = "fuse" ∨ name = "inspect" then
    match gather? (if name = "fuse" then fuseSettings else inspectSettings) .empty args with
    | none => none
    | some none => some .help
    | some (some g) => ofGathered? name g
  else none

/-- Short options before the command, and whether one of them asks for something of its own. -/
def leadingShorts? (verbose : Bool) : List Char → Option (Bool ⊕ Command)
  | [] => some (.inl verbose)
  | 'v' :: rest => if verbose then none else leadingShorts? true rest
  | 'V' :: _ => some (.inr .version)
  | 'h' :: _ => some (.inr .help)
  | _ => none

def leading? : Bool → List String → Option Command
  | _, [] => none
  | verbose, arg :: rest =>
    match arg.toList with
    | '-' :: '-' :: _ =>
      if arg = "--version" then some .version
      else if arg = "--help" then some .help
      else if arg = "--verbose" ∧ !verbose then leading? true rest
      else none
    | '-' :: c :: cs =>
      match leadingShorts? verbose (c :: cs) with
      | none => none
      | some (.inr command) => some command
      | some (.inl verbose) => leading? verbose rest
    | _ => named? arg rest

def ofArguments? (args : List String) : Option Command := leading? false args

end Command

end CanvasFusion
