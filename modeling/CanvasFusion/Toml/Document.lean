import CanvasFusion.Toml.Basic

/-!
# Assembling a document

The lines of a document are statements: a header, a header in double brackets, or a key with a
value. Taken in order they build a table. What a statement may add to follows from how the table it
names came about: a table has one header, dotted keys add only to tables that dotted keys made, and
a table in braces is complete.
-/

namespace CanvasFusion.Toml

/-- One statement of a document. The keys before the last one form the path. -/
inductive Statement where
  | header (path : List String) (key : String)
  | arrayHeader (path : List String) (key : String)
  | entry (path : List String) (key : String) (value : Toml)

/-- Change the table at the end of a path. Tables that are missing on the way are made, as implied
by a header or by dotted keys. The way leads through the last of tables with headers in double
brackets, and, for dotted keys, not through a table with a header of its own. -/
def changeAt (byDots : Bool) (change : TableKind → Entries → Option Entries) :
    List String → TableKind → Entries → Option Entries
  | [], kind, es => change kind es
  | key :: path, _, es =>
    match es.lookup key with
    | none => do
      let kind := if byDots then .dotted else .implied
      let sub ← changeAt byDots change path kind []
      pure (es ++ [(key, .table kind sub)])
    | some (.table kind sub) =>
      if kind = .inline ∨ (byDots ∧ kind = .header) then none
      else do
        let sub ← changeAt byDots change path kind sub
        pure (es.update key (.table kind sub))
    | some (.tables items) => do
      let last ← items.getLast?
      let last ← changeAt byDots change path .header last
      pure (es.update key (.tables (items.dropLast ++ [last])))
    | some _ => none

/-- Open the table of a header. It may be there already only as implied by other headers. -/
def openTable (key : String) (_ : TableKind) (es : Entries) : Option Entries :=
  match es.lookup key with
  | none => some (es ++ [(key, .table .header [])])
  | some (.table .implied sub) => some (es.update key (.table .header sub))
  | some _ => none

/-- Open one more table of a header in double brackets. -/
def openNext (key : String) (_ : TableKind) (es : Entries) : Option Entries :=
  match es.lookup key with
  | none => some (es ++ [(key, .tables [[]])])
  | some (.tables items) => some (es.update key (.tables (items ++ [[]])))
  | some _ => none

/-- Add a key that is not there yet. A dotted key adds to a table made by dotted keys, and a simple
key does not. -/
def addKey (simple : Bool) (key : String) (v : Toml) (kind : TableKind) (es : Entries) :
    Option Entries :=
  if simple = decide (kind = .dotted) then none
  else
    match es.lookup key with
    | none => some (es ++ [(key, v)])
    | some _ => none

def addEntry (path : List String) (key : String) (v : Toml) (kind : TableKind) (es : Entries) :
    Option Entries :=
  changeAt true (addKey path.isEmpty key v) path kind es

/-- A document so far: the header its next keys belong to, and its entries. -/
structure Document where
  current : List String
  entries : Entries

def Document.empty : Document := ⟨[], []⟩

def Document.add (d : Document) : Statement → Option Document
  | .header path key => do
    let es ← changeAt false (openTable key) path .header d.entries
    pure ⟨path ++ [key], es⟩
  | .arrayHeader path key => do
    let es ← changeAt false (openNext key) path .header d.entries
    pure ⟨path ++ [key], es⟩
  | .entry path key v => do
    let es ← changeAt false (addEntry path key v) d.current .header d.entries
    pure ⟨d.current, es⟩

def ofStatements (ss : List Statement) : Option Toml := do
  let d ← ss.foldlM Document.add .empty
  pure (.table .header d.entries)

def inlineTable (pairs : List ((List String × String) × Toml)) : Option Toml := do
  let es ← pairs.foldlM (fun es p => addEntry p.1.1 p.1.2 p.2 .inline es) []
  pure (.table .inline es)

end CanvasFusion.Toml
