import ConfigOverlay.Demo.Run

/-!
# The command line of the demo

The files that the arguments name are read up front; everything else is pure.
-/

namespace ConfigOverlay.Demo

/-- The path that an argument loads a document from. -/
def documentPath? (word : String) : Option String :=
  match Argument.parse word with
  | .ok (.assignFile _ file) | .ok (.wholeFile file) => some file
  | _ => none

/-- The fault that an error of the operating system stands for. -/
def faultOfError : IO.Error → FileFault
  | .inappropriateType _ code _ => if code = 20 then .notDirectory else .isDirectory
  | .invalidArgument .. => .nullCharacter
  | _ => .missing

/-- Read the file at a path. -/
def readPath (path : String) : IO (String × Except FileFault ByteArray) := do
  match ← (IO.FS.readBinFile path).toBaseIO with
  | .ok content => return (path, .ok content)
  | .error e => return (path, .error (faultOfError e))

/-- The files that were read, by the paths they were named with. -/
def filesOf (read : List (String × Except FileFault ByteArray)) : FileReader := fun path =>
  (read.lookup path).getD (.error .missing)

end ConfigOverlay.Demo

open ConfigOverlay Demo in
/-- Run the demo on the words of the command line. -/
def main (words : List String) : IO UInt32 := do
  let read ← (words.filterMap documentPath?).mapM readPath
  let outcome := run (filesOf read) words
  IO.print outcome.stdout
  IO.eprint outcome.stderr
  return outcome.code.toUInt32
