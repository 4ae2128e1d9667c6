import Polish.Command

namespace Polish.Main

abbrev Known := List (Bytes × Except FileError Bytes)

def pathText (path : Bytes) : Option String := String.fromUTF8? ⟨path.toArray⟩

def troubleOf : IO.Error → FileTrouble
  | .noFileOrDirectory .. => .noSuchFile
  | .inappropriateType .. => .isDirectory
  | .invalidArgument .. => .invalidArgument
  | _ => .notDirectory

def readPath (path : Bytes) : IO (Except FileError Bytes) := do
  match pathText path with
  | none => return .error { action := some .opening, path, trouble := .noSuchFile }
  | some name =>
    try
      let data ← IO.FS.readBinFile name
      return .ok data.toList
    catch e =>
      let trouble := troubleOf e
      let action : FileAction := if trouble = .isDirectory then .reading else .opening
      return .error { action := some action, path, trouble }

def worldOf (known : Known) (directory : Bytes) (clock : Int) : World where
  loader :=
    { read := fun path => (known.lookup path).getD (.error { path, trouble := .doesNotExist })
      size := known.length }
  directory := directory
  clock := clock

partial def settle (known : Known) (directory : Bytes) (clock : Int) (args : List Bytes) : IO Outcome := do
  let outcome := Command.run (worldOf known directory clock) args
  match outcome.reads.find? fun path => (known.lookup path).isNone with
  | none => return outcome
  | some path => settle ((path, ← readPath path) :: known) directory clock args

def writePath (path content : Bytes) : IO (Option FileError) := do
  match pathText path with
  | none => return some { action := some .opening, path, trouble := .noSuchFile }
  | some name =>
    try
      IO.FS.writeBinFile name ⟨content.toArray⟩
      return none
    catch e => return some { action := some .opening, path, trouble := troubleOf e }

def emit (stream : IO.FS.Stream) (text : Bytes) : IO Unit := do
  stream.write ⟨text.toArray⟩
  stream.flush

end Polish.Main

open Polish Polish.Main in
def main (args : List String) : IO UInt32 := do
  let directory := utf8 (← IO.currentDir).toString
  let clock : Int := (← IO.monoNanosNow)
  let outcome ← settle [] directory clock (args.map utf8)
  let outcome ← match outcome.output with
    | none => pure outcome
    | some (path, content) => match ← writePath path content with
      | none => pure outcome
      | some e => pure (Command.unwritten outcome e)
  emit (← IO.getStdout) outcome.stdout
  emit (← IO.getStderr) outcome.stderr
  return outcome.code.toUInt32
