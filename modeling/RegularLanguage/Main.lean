import RegularLanguage.Command.Run
/-!
# Entry point

Reads the configuration file that the command line names, runs the program, and prints and writes
what it leaves behind.
-/

open RegularLanguage.Command

def readText (path : String) : IO (Except FileError String) := do
  try
    return .ok (← IO.FS.readFile path)
  catch
    | .permissionDenied .. => return .error .notPermitted
    | .inappropriateType _ 21 _ => return .error .isDirectory
    | .inappropriateType .. => return .error .notDirectory
    | .invalidArgument .. => return .error .nameTooLong
    | _ => return .error .notFound

/-- The text of the configuration file that the command line names. -/
def configText (texts : List String) : IO (Except FileError String) :=
  match Arguments.read texts with
  | .ok { config := some (.text path), .. } => readText path
  | _ => pure (.error .notFound)

def main (texts : List String) : IO UInt32 := do
  let config ← configText texts
  let o := run (fun _ => config) texts
  IO.eprint o.stderr
  IO.print o.stdout
  for f in o.files do
    IO.FS.createDirAll f.directory
    IO.FS.writeFile f.path f.text
  return o.exit.toUInt32
