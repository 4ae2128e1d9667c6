import Polish.Command.Arguments
import Polish.Session
import Polish.Settings
import Polish.Source.Printer

namespace Polish

structure World where
  loader : Loader
  directory : Bytes
  clock : Int

structure Outcome where
  code : Nat := 0
  stdout : Bytes := []
  stderr : Bytes := []
  output : Option (Bytes × Bytes) := none
  reads : List Bytes := []

inductive CommandError where
  | expectedOneFile (got : Nat)
  | noSettings (e : FileError)
  | badSettings (path : Bytes) (e : SettingsError)
  | badFlags (e : SettingsError)
  | rejected (verb : Verb) (file : Bytes) (r : Rejection)
  | problems (count : Nat)
  | unprintable (file : Bytes) (e : Failure Unprintable)
  | unwritable (e : FileError)
  | fault (f : Fault)

def CommandError.message : CommandError → Bytes
  | .expectedOneFile got => utf8 "expected one file, got " ++ Bytes.decimal got
  | .noSettings e => utf8 "load config: read config: " ++ e.message
  | .badSettings path e => utf8 "load config: " ++ e.message path
  | .badFlags e => utf8 "config: " ++ e.message []
  | .rejected verb file r => verb.name ++ utf8 " " ++ file ++ utf8 ": " ++ r.message
  | .problems count => Bytes.decimal count ++ utf8 " problems found"
  | .unprintable file e => utf8 "format " ++ file ++ utf8 ": " ++ e.message Unprintable.message
  | .unwritable e => utf8 "write output: " ++ e.message
  | .fault f => f.message?.getD (utf8 "internal fault")

abbrev Running := EStateM CommandError Outcome

namespace Command

def print (text : Bytes) : Running Unit := modify fun o => { o with stdout := o.stdout ++ text }

def read (w : World) (path : Bytes) : Running (Except FileError Bytes) := do
  modify fun o => { o with reads := o.reads ++ [path] }
  return w.loader.read path

def firstPresent (w : World) : List Bytes → Running (Option Bytes)
  | [] => return none
  | path :: rest => do
    match ← read w path with
    | .ok _ => return some path
    | .error e => if e.trouble = .isDirectory then return some path else firstPresent w rest

def settings (w : World) (a : Arguments) : Running Settings := do
  let path ← if a.config.isEmpty then firstPresent w (Settings.candidates w.directory) else pure (some a.config)
  let s : Settings ← match path with
    | none => pure {}
    | some path => match ← read w path with
      | .error e => throw (.noSettings e)
      | .ok text => match Settings.ofText text with
        | .error e => throw (.badSettings path e)
        | .ok s => pure s
  let s := { s with
    entry := if a.entry.isEmpty then s.entry else a.entry
    stdDir := if a.std.isEmpty then s.stdDir else a.std
    seed := if a.seed = 0 then s.seed else a.seed
    color := if a.color.isEmpty then s.color else a.color
    follow := s.follow || a.follow }
  match s.validate with
  | .error e => throw (.badFlags e)
  | .ok s => return s

/-- A session that reads files as the program does: the standard library comes with the program unless
another directory is set for it. -/
def session (w : World) (s : Settings) : Session :=
  let loader := if s.stdDir = Resolver.defaultStdDir then .overlay s.stdDir (some w.loader) else w.loader
  Session.make (some loader) s.resolver s.entry (if s.seed = 0 then w.clock else s.seed) s.follow

def running {α : Type} (s : Settings) (verb : Verb) (file : Bytes) (step : Compiling α) (start : Session) :
    Running (α × Session) := do
  let note (after : Session) : Running Unit :=
    modify fun o => { o with reads := o.reads ++ after.workspace.reads }
  match step start with
  | .ok a after =>
    note after
    return (a, after)
  | .error (.fault f) after =>
    note after
    throw (.fault f)
  | .error (.failure (.problems report)) after =>
    note after
    let text := report.render (Settings.useColor s.color false)
    modify fun o => { o with stderr := o.stderr ++ text }
    throw (.problems report.size)
  | .error (.failure r) after =>
    note after
    throw (.rejected verb file r)

def parse (w : World) (s : Settings) : List Bytes → Running Unit
  | [] => return
  | file :: rest => do
    let (_, after) ← running s .parse file (Session.parseFile file) (session w s)
    let registry := after.workspace.registry
    match Print.functions registry.functions registry.listing with
    | .ok text => print text
    | .error (.fault f) => throw (.fault f)
    | .error (.failure e) => throw (.unprintable file e)
    parse w s rest

def check (w : World) (s : Settings) (file : Bytes) : Running Unit := do
  let (deps, after) ← running s .check file (Session.checkFile file) (session w s)
  let functions := after.workspace.registry.functions
  print (deps.flatMap fun f => match functions[f]? with
    | some fn => fn.name ++ utf8 "\n"
    | none => [])

def compile (w : World) (s : Settings) (file : Bytes) : Running Unit := do
  let (_, after) ← running s .compile file (Session.compileFile file) (session w s)
  if s.output = utf8 "-" then print after.output
  else modify fun o => { o with output := some (s.output, after.output) }

def oneFile (a : Arguments) : Running Bytes :=
  match a.files with
  | [file] => return file
  | files => throw (.expectedOneFile files.length)

def perform (w : World) (a : Arguments) (verb : Verb) : Running Unit := do
  let s ← settings w a
  match verb with
  | .parse => parse w s a.files
  | .check => check w s (← oneFile a)
  | .compile =>
    let file ← oneFile a
    compile w (if a.out.isEmpty then s else { s with output := a.out }) file

def failed (o : Outcome) (text : Bytes) : Outcome :=
  { o with code := 1, stderr := o.stderr ++ utf8 "error: " ++ text ++ utf8 "\n" }

def failedIn (o : Outcome) (verb : Verb) (e : CommandError) : Outcome :=
  failed o (verb.name ++ utf8 ": " ++ e.message)

def run (w : World) (args : List Bytes) : Outcome :=
  match Arguments.readAll args with
  | .error e => failed {} e.message
  | .ok a => match a.verb, a.help with
    | some verb, false => match perform w a verb {} with
      | .ok _ o => o
      | .error e o => failedIn o verb e
    | _, _ => {}

def unwritten (o : Outcome) (e : FileError) : Outcome := failedIn o .compile (.unwritable e)

end Command

end Polish
