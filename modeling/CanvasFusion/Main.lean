import CanvasFusion.Command.Run

/-!
# The program

Commands on the files of the machine.
-/

namespace CanvasFusion

def fileIssue : IO.Error → Command.FileIssue
  | .noFileOrDirectory .. => .missing
  | .inappropriateType _ 20 _ => .notFolder
  | .inappropriateType .. => .folder
  | .invalidArgument _ 36 _ => .tooLong
  | .permissionDenied .. => .other "Permission denied (os error 13)"
  | e => .other (toString e)

/-- Run a file operation and keep the reason if it fails. -/
def attempt {α : Type} (action : IO α) : IO (Except Command.FileIssue α) := do
  try
    pure (.ok (← action))
  catch e => pure (.error (fileIssue e))

def machineFiles : Command.Files IO where
  read path := attempt (IO.FS.readFile path)
  write path text := attempt (IO.FS.writeFile path text)

def outputLine : Command.Output → String
  | .answer line => line
  | .notice level message => s!"{Column.right 5 level.name} {message}"

end CanvasFusion

def main (args : List String) : IO UInt32 := do
  let outcome ← CanvasFusion.Command.run CanvasFusion.machineFiles args
  outcome.printed.forM fun output => IO.println (CanvasFusion.outputLine output)
  outcome.complaint.forM fun line => IO.eprintln line
  pure outcome.code.toUInt32
