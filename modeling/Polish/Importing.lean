import Polish.Path
import Polish.Problem

namespace Polish

structure Resolver where
  stdDir : Bytes
  ext : Bytes

namespace Resolver

def defaultStdDir : Bytes := utf8 "@std"

def defaultExt : Bytes := utf8 ".functi"

def make (stdDir ext : Bytes) : Resolver :=
  ⟨if stdDir.isEmpty then defaultStdDir else stdDir, if ext.isEmpty then defaultExt else ext⟩

def resolve (r : Resolver) (source target : Bytes) : Except Problem Bytes :=
  match Bytes.after? (utf8 "std@") target with
  | some name => .ok (Path.join r.stdDir (name ++ r.ext))
  | none =>
    if source.isEmpty then .error (.anonymousImport target)
    else .ok (Path.join (Path.dir source) target)

end Resolver

end Polish
