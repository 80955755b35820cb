/-!
# TOML documents

The values of a TOML document. Tables remember how they came about, because that decides whether a
later line may add to them.
-/

namespace CanvasFusion

inductive Toml.TableKind where
  /-- By its own header; so it is with the table of the whole document. -/
  | header
  /-- By the header of a table inside it. It may still get a header of its own. -/
  | implied
  /-- By a dotted key. More dotted keys may add to it. -/
  | dotted
  /-- In braces. Nothing can be added to it. -/
  | inline
  deriving DecidableEq, Repr

inductive Toml where
  | text (s : String)
  | integer (i : Int)
  /-- A float, as it is written. -/
  | float (literal : String)
  | boolean (b : Bool)
  /-- A date, a time, or both, as it is written. -/
  | moment (literal : String)
  | array (items : List Toml)
  | table (kind : Toml.TableKind) (entries : List (String × Toml))
  /-- Tables of one name, each with a header in double brackets. -/
  | tables (items : List (List (String × Toml)))
  deriving Repr, Inhabited

namespace Toml

abbrev Entries := List (String × Toml)

def Entries.update (es : Entries) (key : String) (v : Toml) : Entries :=
  es.map fun e => if e.1 = key then (key, v) else e

end Toml

end CanvasFusion
