import CanvasFusion.Command.Files
import CanvasFusion.Ledger

/-!
# A folder in memory

Files that exist only as a value. Commands run on them as on the files of a machine, with the
folder as the one they are called from, and are refused for the same reasons.

A path is a list of names between slashes. It is walked from the folder, or from the root if it
begins with a slash, and every place on the way has to be a folder. Two dots lead up, also out of
the folder that is known. One dot and no name at all lead nowhere, so a slash at the end only says
that there is a folder.
-/

namespace CanvasFusion.Command

/-- Where the names of a path are counted from. -/
inductive Origin where
  | above (levels : Nat)
  | root
  deriving DecidableEq, Repr

/-- Names downwards from an origin, outermost first. -/
structure Place where
  origin : Origin
  names : List String
  deriving DecidableEq, Repr

namespace Place

def here : Place := ⟨.above 0, []⟩

/-- The place above; the root is above itself. -/
def parent (p : Place) : Place :=
  match p.origin, p.names with
  | .above levels, [] => ⟨.above (levels + 1), []⟩
  | origin, names => ⟨origin, names.dropLast⟩

def child (p : Place) (name : String) : Place :=
  if name = "" ∨ name = "." then p
  else if name = ".." then p.parent
  else { p with names := p.names ++ [name] }

def isAbove (p q : Place) : Bool :=
  p.origin = q.origin && p.names.length < q.names.length && p.names.isPrefixOf q.names

def ofPath (path : String) : Place × List String :=
  match path.splitOn "/" with
  | "" :: name :: names => (⟨.root, []⟩, name :: names)
  | names => (here, names)

end Place

inductive Content where
  | text (s : String)
  /-- Nothing, whatever is written into it. -/
  | nothing
  deriving DecidableEq, Repr

def Content.read : Content → String
  | .text s => s
  | .nothing => ""

inductive Entry where
  | folder
  | file (content : Content)
  deriving DecidableEq, Repr

structure Folder where
  contents : Ledger Place Content
  deriving Repr

namespace Folder

/-- A folder without files. There is nothing around it but the file that swallows everything. -/
def empty : Folder := ⟨Ledger.empty.record ⟨.root, ["dev", "null"]⟩ .nothing⟩

def add (f : Folder) (path text : String) : Folder :=
  let (origin, names) := Place.ofPath path
  ⟨f.contents.record (names.foldl Place.child origin) (.text text)⟩

/-- What is at a place, if anything. Whatever a file is below of is a folder. -/
def entry? (f : Folder) (p : Place) : Option Entry :=
  match f.contents.get? p with
  | some content => some (.file content)
  | none =>
    if p.names.isEmpty || f.contents.entries.any fun e => p.isAbove e.1 then some .folder else none

def nameLimit : Nat := 255

def pathLimit : Nat := 4095

/-- Go from a folder to the place a name leads to. There need not be anything. -/
def enter (f : Folder) (p : Place) (name : String) : Except FileIssue Place :=
  match f.entry? p with
  | none => .error .missing
  | some (.file _) => .error .notFolder
  | some .folder => if name.utf8ByteSize ≤ nameLimit then .ok (p.child name) else .error .tooLong

/-- The origin of a path that may be walked, and its names. -/
def route (path : String) : Except FileIssue (Place × List String) :=
  if path.isEmpty then .error .missing
  else if path.utf8ByteSize ≤ pathLimit then .ok (Place.ofPath path)
  else .error .tooLong

def read (f : Folder) (path : String) : Except FileIssue String := do
  let (origin, names) ← route path
  let p ← names.foldlM f.enter origin
  match f.entry? p with
  | none => .error .missing
  | some .folder => .error .folder
  | some (.file content) => .ok content.read

def putAt (f : Folder) (p : Place) (text : String) : Except FileIssue Folder :=
  match f.entry? p with
  | some .folder => .error .folder
  | some (.file .nothing) => .ok f
  | _ => .ok ⟨f.contents.record p (.text text)⟩

/-- Write a file, which need not exist. A slash at the end asks for a folder and is refused. -/
def write (f : Folder) (path text : String) : Except FileIssue Folder := do
  let (origin, names) ← route path
  match names.reverse.dropWhile (· = "") with
  | [] => .error .folder
  | name :: before =>
    let p ← before.reverse.foldlM f.enter origin
    let p ← f.enter p "."
    if names.getLast? = some "" then .error .folder else f.putAt (← f.enter p name) text

def files : Files (StateM Folder) where
  read path := do pure ((← get).read path)
  write path text := do
    match (← get).write path text with
    | .error issue => pure (.error issue)
    | .ok f => do
      set f
      pure (.ok ())

end Folder

end CanvasFusion.Command
