import CanvasFusion.Command.Arguments
import CanvasFusion.Command.Files
import CanvasFusion.Fusion.Config
import CanvasFusion.Fusion.Fused
import CanvasFusion.Graph.File

/-!
# Running a command

A command reads files, writes a file, and prints. What it prints is its answer, and notices of what
it is doing. If it fails it says what it was doing and why.
-/

namespace CanvasFusion.Command

inductive Level where
  | info
  | warning
  deriving DecidableEq, Repr

def Level.name : Level → String
  | .info => "INFO"
  | .warning => "WARN"

inductive Output where
  | answer (line : String)
  | notice (level : Level) (message : String)
  deriving DecidableEq, Repr

structure Outcome where
  printed : List Output
  complaint : List String
  code : Nat
  deriving DecidableEq, Repr

/-- Why a command failed: what it was doing, and the causes, outermost first. -/
structure Failure where
  doing : String
  causes : List String
  code : Nat
  deriving DecidableEq, Repr

/-- A text of several lines behind a margin, the first of which may have another one. -/
def indented (first margin text : String) : List String :=
  match text.splitOn "\n" with
  | [] => []
  | line :: lines => (first ++ line) :: lines.map fun l => margin ++ l

/-- The lines a failure is reported by. Several causes are numbered. -/
def Failure.lines (f : Failure) : List String :=
  let head := s!"Error: {f.doing}"
  match f.causes with
  | [] => [head]
  | [cause] => [head, "", "Caused by:"] ++ indented "    " "    " cause
  | causes =>
    [head, "", "Caused by:"] ++ causes.zipIdx.flatMap fun (cause, i) =>
      indented s!"{Column.right 5 i.repr}: " "       " cause

namespace Failure

def ofGraph (doing : String) : GraphError → Failure
  | .fault f => ⟨doing, [(GraphError.fault f).message], 101⟩
  | .file .malformed => ⟨doing, [], 1⟩
  | e => ⟨doing, [e.message], 1⟩

def ofFusion (doing : String) : FusionError → Failure
  | .fault f => ⟨doing, [(FusionError.fault f).message], 101⟩
  | .config => ⟨doing, [], 1⟩
  | .unreadable path reason => ⟨doing, [(FusionError.unreadable path reason).message, reason], 1⟩
  | e => ⟨doing, [e.message], 1⟩

end Failure

/-- What has been printed so far is kept when a command fails. -/
abbrev Action (m : Type → Type) (α : Type) := ExceptT Failure (StateT (List Output) m) α

section

variable {m : Type → Type} [Monad m]

def print (lines : List String) : Action m Unit :=
  modify fun printed => printed ++ lines.map .answer

def notify (level : Level) (message : String) : Action m Unit :=
  modify fun printed => printed ++ [.notice level message]

def check {α : Type} (x : Except Failure α) : Action m α := ExceptT.mk (pure x)

def onFiles {α : Type} (use : m (Except FileIssue α)) (fail : String → Failure) : Action m α := do
  let result ← ExceptT.lift (StateT.lift use)
  check (result.mapError fun issue => fail issue.message)

def loadGraph (files : Files m) (path : String) : Action m Graph := do
  let text ← onFiles (files.read path) fun reason => ⟨s!"failed to read {path}", [reason], 1⟩
  let g := Graph.ofFile .standard .word64 text.toList
  check (g.mapError (.ofGraph s!"failed to parse graph {path}"))

def loadConfig (files : Files m) (path : String) : Action m Options := do
  let doing := s!"invalid configuration {path}"
  let text ← onFiles (files.read path) fun reason => .ofFusion doing (.unreadable path reason)
  check ((Options.ofConfig text.toList).mapError (.ofFusion doing))

def loadOptions (files : Files m) (pass : PassArguments) : Action m Options := do
  let options ← match pass.config with
    | none => pure .standard
    | some path => loadConfig files path
  match pass.tiles with
  | none => pure options
  | some n => pure { options with tileCount := some n }

def runPass (files : Files m) (pass : PassArguments) (g : Graph) : Action m Fused := do
  let options ← loadOptions files pass
  let result := CanvasFusion.fuse .word64 options g
  let fused ← check (result.mapError (.ofFusion "batch fusion failed"))
  let missing := String.intercalate ", " (fused.missing.map Handle.describe)
  if !fused.isComplete then
    notify .warning s!"{fused.missing.length} output(s) could not be fused: [{missing}]"
  pure fused

/-- A path with the extension of its last component replaced. A dot at the beginning of a name
begins no extension. If only two dots are left in front of the extension they are the name of a
folder, which has none. -/
def replaceExtension (path extension : String) : String :=
  let cs := path.toList.reverse
  let name := cs.takeWhile (· != '/')
  let folder := cs.dropWhile (· != '/')
  let renamed := match name.dropWhile (· != '.') with
    | ['.', '.'] => ['.', '.']
    | '.' :: c :: rest => extension.toList.reverse ++ '.' :: c :: rest
    | _ => extension.toList.reverse ++ '.' :: name
  String.ofList (renamed ++ folder).reverse

def runFuse (files : Files m) (path : String) (output : Option String) (pass : PassArguments)
    (format : ReportFormat) : Action m Unit := do
  notify .info s!"Fusing {path}"
  let g ← loadGraph files path
  let fused ← runPass files pass g
  let output := output.getD (replaceExtension path "fused.json")
  let text := fused.graph.toFile .standard
  let text ← check (text.mapError (.ofGraph "failed to serialize fused graph"))
  onFiles (files.write output text) fun reason => ⟨s!"failed to write {output}", [reason], 1⟩
  notify .info s!"Generated: {output}"
  match format with
  | .text =>
    print (← check ((fused.report.lines .word64).mapError fun f =>
      .ofGraph "failed to print the report" (.fault f)))
  | .json => print (fused.report.toJson.pretty.splitOn "\n")

def kindCounts (g : Graph) : List (String × Nat) :=
  let names := g.ops.toList.map fun op => op.kind.name
  (names.eraseDups.mergeSort fun a b => decide (a ≤ b)).map fun name => (name, names.count name)

def tensorLine (label shape place gap canvas : String) : String :=
  s!"  {Column.left 16 label} {Column.left 16 shape} {Column.left 8 place} {Column.left 8 gap} " ++
    canvas

def describeTensor (fused : Fused) (id : TensorId) (t : Tensor) : String :=
  let label := t.name.getD id.label
  let shape := t.spec.shape.text
  match fused.info.get? id with
  | none => s!"  {Column.left 16 label} {Column.left 16 shape} skipped"
  | some info =>
    tensorLine label shape info.placement.name s!"{info.gap.first}x{info.gap.second}"
      info.canvasShape.text

def runInspect (files : Files m) (path : String) (pass : PassArguments) : Action m Unit := do
  let g ← loadGraph files path
  print [path,
    s!"  {g.tensors.size} tensors, {g.ops.size} operations, " ++
      s!"{g.inputs.length} inputs, {g.outputs.length} outputs"]
  print ((kindCounts g).map fun (kind, n) => s!"  {Column.left 12 kind} {Column.right 4 n.repr}")
  let fused ← runPass files pass g
  print ["", tensorLine "tensor" "shape" "place" "gap" "canvas"]
  print (g.tensors.entries.map fun (id, t) => describeTensor fused id t)

end

def versionLine : String := "quilt 0.1.0"

def usage : List String :=
  ["Batch fusion for tensor dataflow graphs", "",
    "Usage: quilt [-v] fuse GRAPH [-o FILE] [--config FILE] [--tiles N] [--report text|json]",
    "       quilt [-v] inspect GRAPH [--config FILE] [--tiles N]"]

def run {m : Type → Type} [Monad m] (files : Files m) (args : List String) : m Outcome := do
  let act (action : Action m Unit) : m Outcome := do
    match ← (ExceptT.run action).run [] with
    | (.ok (), printed) => pure ⟨printed, [], 0⟩
    | (.error f, printed) => pure ⟨printed, f.lines, f.code⟩
  match ofArguments? args with
  | none => pure ⟨[], usage, 2⟩
  | some .version => pure ⟨[.answer versionLine], [], 0⟩
  | some .help => pure ⟨usage.map .answer, [], 0⟩
  | some (.fuse graph output pass format) => act (runFuse files graph output pass format)
  | some (.inspect graph pass) => act (runInspect files graph pass)

end CanvasFusion.Command
