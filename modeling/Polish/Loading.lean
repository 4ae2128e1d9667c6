import Polish.Disk
import Polish.Importing
import Polish.Library

namespace Polish

structure Loader where
  read : Bytes → Except FileError Bytes
  /-- No more than so many reduced paths can be read, the empty path included. -/
  size : Nat

namespace Loader

def ofFiles (files : List (Bytes × Bytes)) : Loader where
  read path := match files.lookup (Path.clean path) with
    | some text => .ok text
    | none => .error { path, trouble := .doesNotExist }
  size := files.length + 1

/-- The files of a disk, seen from a working directory. A file may be read under several reduced paths,
which differ in how far they climb first; a path of limited length climbs only so far. -/
def ofDisk (disk : Disk) (cwd : List Bytes) : Loader where
  read path := disk.read cwd path
  size := disk.files.length * (Disk.pathLimit + 1)

def mounted? (root path : Bytes) : Option Bytes :=
  match Path.relativeTo? root path with
  | some name => if Path.leaves name then none else some name
  | none => none

/-- Reads a path from a file system at a root, or from other files if it leads out of the root. -/
def readMounted (root : Bytes) (mount : Bytes → Except FileError Bytes) (others : Option Loader) (path : Bytes) :
    Except FileError Bytes :=
  match mounted? root path with
  | some name => mount name
  | none => match others with
    | some loader => loader.read path
    | none => .error { path, trouble := .doesNotExist }

def overlay (root : Bytes) (others : Option Loader) : Loader where
  read := readMounted root Library.contents others
  size := Library.files.length + match others with
    | some loader => loader.size
    | none => 0

end Loader

end Polish
