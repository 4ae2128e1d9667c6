import Polish.Dependency
import Polish.Emission
import Polish.Loading
import Polish.Typing
import Polish.Workspace

namespace Polish

structure Session where
  entry : Bytes
  seed : Int
  follow : Bool
  loader : Option Loader
  resolver : Resolver
  workspace : Workspace := {}
  output : Bytes := []

inductive Rejection where
  | problems (report : Report)
  | unreadable (e : FileError)
  | leftPending (name : Bytes)
  | uncodable (e : Failure Uncodable)

def Rejection.message : Rejection → Bytes
  | .problems report => report.summary
  | .unreadable e => utf8 "read file: " ++ e.message
  | .leftPending name => utf8 "parse: function " ++ name ++ utf8 " left pending"
  | .uncodable e => (e.within .generation).message Uncodable.message

/-- Imports a file with everything it imports, unless it is imported already. Nested imports are of
different paths, so that the number of paths that the loader can read bounds their depth. -/
def Loader.importer (loader : Option Loader) (resolver : Resolver) : Nat → Importer
  | depth, path, here => do
    if (← get).registry.isImported path then return
    modify fun w => { w with registry := w.registry.markImported path }
    match loader with
    | none => throw .missing
    | some l =>
      modify fun w => { w with reads := w.reads ++ [path] }
      match l.read path with
      | .error e => Build.note here (.unreadable path (.file e)) true
      | .ok text => match depth with
        | 0 => return
        | depth + 1 => Build.source resolver (some (Loader.importer loader resolver depth)) ⟨path, text⟩

abbrev Compiling := EStateM (Halt Rejection) Session

namespace Session

def make (loader : Option Loader) (resolver : Resolver) (entry : Bytes) (seed : Int) (follow : Bool) :
    Session :=
  { entry := if entry.isEmpty then utf8 "main" else entry, seed, follow, loader, resolver }

def reject {α : Type} (r : Rejection) : Compiling α := throw (.failure r)

def building {α : Type} (stage : Build α) : Compiling α := fun s =>
  match stage s.workspace with
  | .ok a workspace => .ok a { s with workspace }
  | .error fault workspace => .error (.fault fault) { s with workspace }

def requireClean : Compiling Unit := do
  let report := (← get).workspace.report
  if report.failed then reject (.problems report)

def importDepth (s : Session) : Nat := match s.loader with
  | some l => l.size
  | none => 0

def mainPath (name : Bytes) : Bytes := if name.isEmpty then [] else Path.clean name

def readSource (s : Session) (src : Source) : Build Unit := do
  if !src.path.isEmpty then modify fun w => { w with registry := w.registry.markImported src.path }
  Build.source s.resolver (some (Loader.importer s.loader s.resolver s.importDepth)) src

def requireComplete : Compiling Unit := do
  match (← get).workspace.registry.pending? with
  | some name => reject (.leftPending name)
  | none => return

def parse (name text : Bytes) : Compiling Unit := do
  building (readSource (← get) ⟨mainPath name, text⟩)
  requireClean
  requireComplete

def refuseEntry (entry : Bytes) (location : Location) (flaw : EntryFlaw) : Compiling FuncId := do
  building (Build.note location (.entry entry flaw) true)
  reject (.problems (← get).workspace.report)

/-- The entry function, which has to be custom and without parameters. -/
def findEntry : Compiling FuncId := do
  let s ← get
  match s.workspace.registry.lookup s.entry with
  | none => refuseEntry s.entry {} .notDefined
  | some f => match s.workspace.registry.functions[f]? with
    | none => throw (.fault .missing)
    | some fn =>
      if fn.kind ≠ .custom then refuseEntry s.entry fn.location (.hasKind fn.kind)
      else if !fn.params.isEmpty then refuseEntry s.entry fn.location .takesArguments
      else return f

def checkTypes : Build Unit := fun w =>
  match Checking.checkAll w.registry.functions w.registry.listing { report := w.report } with
  | .ok _ c => .ok () { w with report := c.report }
  | .error fault c => .error fault { w with report := c.report }

def dependencies (main : FuncId) : Compiling (List FuncId) := fun s =>
  let functions := s.workspace.registry.functions
  let body : Expr := (functions[main]?.map Function.body).getD .hole
  match body.dependencies functions s.follow with
  | .error fault => .error (.fault fault) s
  | .ok deps => .ok (if deps.contains main then deps else deps ++ [main]) s

def check (name text : Bytes) : Compiling (List FuncId) := do
  parse name text
  let deps ← dependencies (← findEntry)
  building checkTypes
  requireClean
  return deps

/-- Writes the code of a program; nothing is written if there is any diagnostic. The seed is the effective one: a seed of
0 is replaced by the clock before there is a session, in `Command.session`, and counts as any other seed here. -/
def compile (name text : Bytes) : Compiling Unit := do
  let deps ← check name text
  let s ← get
  let emitter : Emitter Lagged := { ids := { source := Lagged.ofSeed s.seed } }
  match Emitting.program s.workspace.registry.functions s.entry deps emitter with
  | .ok _ e => set { s with output := s.output ++ e.output }
  | .error halt e =>
    set { s with output := s.output ++ e.output }
    match halt with
    | .fault fault => throw (.fault fault)
    | .failure e => reject (.uncodable e)

def readMain (name : Bytes) : Compiling Bytes := do
  match (← get).loader with
  | none => throw (.fault .missing)
  | some l =>
    building (modify fun w => { w with reads := w.reads ++ [name] })
    match l.read name with
    | .ok text => return text
    | .error e => reject (.unreadable e)

def parseFile (name : Bytes) : Compiling Unit := do parse name (← readMain name)

def checkFile (name : Bytes) : Compiling (List FuncId) := do check name (← readMain name)

def compileFile (name : Bytes) : Compiling Unit := do compile name (← readMain name)

end Session

end Polish
