/-!
# Files

A command uses files by their paths and through a record of operations, so it is the same program
whatever the files are.
-/

namespace CanvasFusion.Command

inductive FileIssue where
  | missing
  /-- The path leads through something that is no folder. -/
  | notFolder
  | folder
  | tooLong
  | other (reason : String)
  deriving DecidableEq, Repr

def FileIssue.message : FileIssue → String
  | .missing => "No such file or directory (os error 2)"
  | .notFolder => "Not a directory (os error 20)"
  | .folder => "Is a directory (os error 21)"
  | .tooLong => "File name too long (os error 36)"
  | .other reason => reason

structure Files (m : Type → Type) where
  read : String → m (Except FileIssue String)
  write : String → String → m (Except FileIssue Unit)

end CanvasFusion.Command
