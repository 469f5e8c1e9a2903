import NixTyping.Project.CommandLine
/-!
The program `nixty`: types of the declarations of a file, on standard output.
-/

namespace NixTyping

/-- The files of the machine. -/
def machineFiles : FileAccess IO where
  text? path := do
    try
      return String.fromUTF8? (← IO.FS.readBinFile path)
    catch _ => return none
  isFile path := do
    try
      let _ ← IO.FS.readBinFile path
      return true
    catch _ => return false

end NixTyping

def main (args : List String) : IO UInt32 := do
  let out ← NixTyping.Outcome.ofArguments NixTyping.machineFiles args
  IO.print out.stdout
  match out with
  | .printed _ => pure ()
  | .fault f => IO.eprintln s!"{f.code}: {f.message}"
  | .usage => IO.eprintln NixTyping.Request.usageText
  return out.exit.toUInt32
