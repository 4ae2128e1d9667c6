import Polish.Path
import Polish.Problem

namespace Polish

structure Disk where
  files : List (List Bytes × Bytes)
  directories : List (List Bytes) := []

namespace Disk

inductive Spot where
  | file (parts : List Bytes) (content : Bytes)
  | directory (parts : List Bytes)

/-- A directory holds a file or is one of those that exist anyway, or holds such a directory. -/
def isDirectory (d : Disk) (parts : List Bytes) : Bool :=
  parts.isEmpty || d.directories.any (parts.isPrefixOf ·)
    || d.files.any fun (file, _) => parts.isPrefixOf file && parts.length < file.length

def nameLimit : Nat := 255

def pathLimit : Nat := 4095

def step (d : Disk) (spot : Spot) (part : Bytes) : Except FileTrouble Spot :=
  match spot with
  | .file _ _ => .error .notDirectory
  | .directory parts =>
    if part.isEmpty || part == Path.here then .ok spot
    else if part == Path.parent then .ok (.directory parts.dropLast)
    else if nameLimit < part.length then .error .nameTooLong
    else
      let child := parts ++ [part]
      match d.files.lookup child with
      | some content => .ok (.file child content)
      | none => if d.isDirectory child then .ok (.directory child) else .error .noSuchFile

def follow (d : Disk) : Spot → List Bytes → Except FileTrouble Spot
  | spot, [] => .ok spot
  | spot, part :: rest => do d.follow (← d.step spot part) rest

def refusal? (path : Bytes) : Option FileTrouble :=
  if path.contains 0 then some .invalidArgument
  else if path.isEmpty then some .noSuchFile
  else if pathLimit < path.length then some .nameTooLong
  else none

def origin (cwd : List Bytes) (path : Bytes) : Spot :=
  .directory (if path.head? = some Path.slash then [] else cwd)

def find (d : Disk) (cwd : List Bytes) (path : Bytes) : Except FileTrouble Spot :=
  match refusal? path with
  | some trouble => .error trouble
  | none => d.follow (origin cwd path) (Bytes.split Path.slash path)

def read (d : Disk) (cwd : List Bytes) (path : Bytes) : Except FileError Bytes :=
  match d.find cwd path with
  | .ok (.file _ content) => .ok content
  | .ok _ => .error { action := some .reading, path, trouble := .isDirectory }
  | .error trouble => .error { action := some .opening, path, trouble }

def put (d : Disk) (parts : List Bytes) (content : Bytes) : Disk :=
  { d with files := (parts, content) :: d.files.filter (·.1 != parts) }

/-- Where a path writes: its directory has to exist, and a path that ends in a slash names no file. -/
def writingSpot (d : Disk) (cwd : List Bytes) (path : Bytes) : Except FileTrouble (List Bytes) := do
  let parts := (Bytes.split Path.slash path).filter (!·.isEmpty)
  match ← d.follow (origin cwd path) parts.dropLast, parts.getLast? with
  | .file _ _, _ => .error .notDirectory
  | .directory _, none => .error .isDirectory
  | .directory dir, some name =>
    if path.getLast? = some Path.slash then .error .isDirectory
    else match d.step (.directory dir) name with
      | .ok (.file parts _) => .ok parts
      | .ok (.directory _) => .error .isDirectory
      | .error .noSuchFile => .ok (dir ++ [name])
      | .error trouble => .error trouble

def write (d : Disk) (cwd : List Bytes) (path content : Bytes) : Except FileError Disk :=
  let failed (trouble : FileTrouble) : Except FileError Disk := .error { action := some .opening, path, trouble }
  match refusal? path with
  | some trouble => failed trouble
  | none => match d.writingSpot cwd path with
    | .ok parts => .ok (d.put parts content)
    | .error trouble => failed trouble

end Disk

end Polish
