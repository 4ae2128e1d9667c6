import Polish.Source.Parser
import Polish.Importing

namespace Polish

structure Workspace where
  registry : Registry := .initial
  report : Report := {}
  requests : List (Bytes × Location) := []
  reads : List Bytes := []

abbrev Build := EStateM Fault Workspace

abbrev Importer := Bytes → Location → Build Unit

namespace Build

def note (location : Location) (problem : Problem) (fatal : Bool) : Build Unit :=
  modify fun w => { w with report := w.report.add { location, problem, fatal } }

def parsing {α : Type} (p : Parser α) (c : Cursor) : Build (Except Stop α × Cursor) := fun w =>
  match p ⟨c, w.report⟩ with
  | .ok a r => .ok (.ok a, r.cursor) { w with report := r.report }
  | .error stop r => .ok (.error stop, r.cursor) { w with report := r.report }

def signature (src : Source) : Parser (Bytes × Location × List Param) := do
  let start ← Parser.skipBlanks
  let name ← Parser.token
  if name.isEmpty || name == arrow then Parser.fail start.off .functionName
  else
    let c ← Parser.skipBlanks
    let ps ← Parser.params src (src.text.length + 1)
    return (name, src.locate c.off, ps)

/-- Reads the body of a function that is registered already. The function is completed, or is removed if
the body is malformed. -/
def body (src : Source) (name : Bytes) (params : List Param) (f : FuncId) (c : Cursor) :
    Build (Option Stop × Cursor) := do
  let scope := Parser.Bindings.bind [] params (src.locate c.off)
  let (x, c) ← parsing (Parser.expr src (← get).registry (src.text.length + 1) scope) c
  match x with
  | .error stop =>
    modify fun w => { w with registry := w.registry.remove name f }
    return (some stop, c)
  | .ok x =>
    match (← get).registry.functions.complete f x with
    | .error fault => throw fault
    | .ok functions =>
      modify fun w => { w with registry := { w.registry with functions } }
      return (none, c)

/-- The rest of a function declaration, after its signature. The function is registered before its body is
read, so that the body may call it. -/
def definition (src : Source) (name : Bytes) (location : Location) (params : List Param) (c : Cursor) :
    Build (Option Stop × Cursor) := do
  let before := (← get).registry
  modify fun w => { w with registry := before.declare { name, params, kind := .pending, location } }
  if (before.lookup name).isSome then note (src.locate c.off) (.duplicate name) false
  body src name params before.functions.size c

def declaration (src : Source) (c : Cursor) : Build (Option Stop × Cursor) := do
  let (head, c) ← parsing (signature src) c
  match head with
  | .error stop => return (some stop, c)
  | .ok (name, location, params) => definition src name location params c

def importation (resolver : Resolver) (importer : Option Importer) (src : Source) (c : Cursor) :
    Build (Option Stop × Cursor) := do
  let c := c.skipBlanks
  let here := src.locate c.off
  let (target, c) ← parsing Parser.string c
  match target with
  | .error stop => return (some stop, c)
  | .ok target =>
    match resolver.resolve src.path target with
    | .error problem => note here problem false
    | .ok path => match importer with
      | none => note here (.malformed (.importsUnsupported target)) false
      | some run => run path here
    return (none, c)

def unknownChunk (word rest : Bytes) : Malformed :=
  match word, rest with
  | [], b :: _ => .straySeparator b
  | _, _ => .unknownDeclaration word

def chunk (resolver : Resolver) (importer : Option Importer) (src : Source) (c : Cursor) :
    Build (Option Stop × Cursor) :=
  let (word, next) := c.token
  if word = utf8 "function" then declaration src next
  else if word = utf8 "import" then importation resolver importer src next
  else return (some (.malformed c.off (unknownChunk word c.rest)), next)

/-- The next position at which a top level keyword starts, or the end. -/
def resync : Nat → Cursor → Cursor
  | 0, c => c
  | n + 1, c =>
    let c := c.skipBlanks
    if c.atEnd then c
    else
      let (word, next) := c.token
      if word = utf8 "function" ∨ word = utf8 "import" then c
      else if word.isEmpty then resync n (next.advance 1)
      else resync n next

def chunks (resolver : Resolver) (importer : Option Importer) (src : Source) : Nat → Cursor → Build Unit
  | 0, _ => return
  | n + 1, c => do
    let c := c.skipBlanks
    if c.atEnd then return
    let (stop, c) ← chunk resolver importer src c
    match stop with
    | none => chunks resolver importer src n c
    | some stop =>
      match stop with
      | .malformed off why => note (src.locate off) (.malformed why) false
      | .reported => pure ()
      chunks resolver importer src n (resync (src.text.length + 1) c)

def source (resolver : Resolver) (importer : Option Importer) (src : Source) : Build Unit :=
  chunks resolver importer src (src.text.length + 1) src.start

end Build

end Polish
