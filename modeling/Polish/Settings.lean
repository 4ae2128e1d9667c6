import Polish.Importing
import Polish.Text.Quoted
import Polish.Yaml.Value

namespace Polish

structure Settings where
  entry : Bytes := utf8 "main"
  stdDir : Bytes := Resolver.defaultStdDir
  ext : Bytes := Resolver.defaultExt
  output : Bytes := utf8 "output.js"
  /-- Zero for a seed that differs from run to run. -/
  seed : Int := 0
  color : Bytes := utf8 "auto"
  follow : Bool := false

inductive SettingsError where
  | notSettings
  | emptyEntry
  | badColor (value : Bytes)

namespace SettingsError

def message (path : Bytes) : SettingsError → Bytes
  | .notSettings => inContext (utf8 "parse " ++ path) (utf8 "yaml: not a mapping of settings")
  | .emptyEntry => inContext path (utf8 "entry is empty")
  | .badColor value => inContext path (utf8 "color: unsupported value " ++ Text.quoted value)

end SettingsError

namespace Settings

open Yaml (Node Value)

def auto : Bytes := utf8 "auto"
def always : Bytes := utf8 "always"
def never : Bytes := utf8 "never"

def fileName : Bytes := utf8 "functi.yaml"

/-- A field of a type that values are converted to; a null keeps the default. -/
def field {α : Type} (default : α) (convert : Bytes → Value → Option α) (n : Node) : Option α :=
  match n.target with
  | .scalar s => do
    match ← Value.ofScalar? s with
    | .null => return default
    | v => convert s.text v
  | _ => none

def textOf (written : Bytes) : Value → Bytes
  | .text t => t
  | _ => written

def textField (default : Bytes) : Node → Option Bytes := field default fun t v => some (textOf t v)

def names : List Bytes := ["entry", "std_dir", "ext", "output", "color", "seed", "follow_closures"].map utf8

def set (s : Settings) (key : Bytes) (value : Node) : Option Settings :=
  if key = utf8 "entry" then return { s with entry := ← textField s.entry value }
  else if key = utf8 "std_dir" then return { s with stdDir := ← textField s.stdDir value }
  else if key = utf8 "ext" then return { s with ext := ← textField s.ext value }
  else if key = utf8 "output" then return { s with output := ← textField s.output value }
  else if key = utf8 "color" then return { s with color := ← textField s.color value }
  else if key = utf8 "seed" then return { s with seed := ← field s.seed (fun _ v => v.toInteger?) value }
  else if key = utf8 "follow_closures" then
    return { s with follow := ← field s.follow (fun _ v => v.toBool?) value }
  else some s

def keyMark : Node → Nat × Bytes
  | .scalar s => (0, s.text)
  | .sequence _ => (1, [])
  | .mapping _ => (2, [])
  | .reference name _ | .cyclic name => (3, name)

def isMerge : Node → Bool
  | .scalar s => s.text = utf8 "<<" && match s.tag with
    | none => s.plain
    | some tag => tag = utf8 "!!merge"
  | _ => false

def keyName (key : Node) : Option (Option Bytes) := field none (fun t v => some (some (textOf t v))) key

def textNames (pairs : List (Node × Node)) : List Bytes :=
  pairs.filterMap fun (key, _) => match key.target with
    | .scalar s => match Value.ofScalar? s with
      | some (.text t) => some t
      | _ => none
    | _ => none

/-- Sets what pairs say, apart from merged mappings. If names are already taken, they are left alone and the
new ones become taken. Otherwise a setting may be set once; `done` are those that are. -/
def setOwn : List (Node × Node) → List Bytes → Settings → Option (List Bytes) →
    Option (Settings × Option (List Bytes))
  | [], _, s, taken => some (s, taken)
  | (key, value) :: rest, done, s, taken => do
    if isMerge key then setOwn rest done s taken
    else match ← keyName key with
      | none => setOwn rest done s taken
      | some name =>
        if taken.any (·.contains name) then setOwn rest done s taken
        else if names.contains name && done.contains name then none
        else setOwn rest (name :: done) (← s.set name value) (taken.map (name :: ·))

def merged? : Node → Option (List (List (Node × Node)))
  | .sequence items => items.mapM fun n => match n.target with
    | .mapping pairs => some pairs
    | _ => none
  | n => match n.target with
    | .mapping pairs => some [pairs]
    | _ => none

/-- Sets what the pairs of a mapping say. A key may be given once. The keys of a merged mapping give way to
the mapping's own keys and to those of mappings merged before. -/
def setAll : Nat → List (Node × Node) → Settings → Option (List Bytes) → Option (Settings × Option (List Bytes))
  | 0, _, _, _ => none
  | n + 1, pairs, s, taken => do
    let marks := pairs.map fun (key, _) => keyMark key
    if marks.eraseDups.length != marks.length then none
    else
      let (s, taken) ← setOwn pairs [] s taken
      match pairs.find? fun (key, _) => isMerge key with
      | none => return (s, taken)
      | some (_, source) =>
        let start := (s, some (taken.getD (textNames pairs)))
        let (s, later) ← (← merged? source).foldlM (fun (s, taken) pairs => setAll n pairs s taken) start
        return (s, taken.bind fun _ => later)

def ofNode? (depth : Nat) : Option Node → Option Settings
  | none => some {}
  | some (.mapping pairs) => do
    let (s, _) ← setAll (depth + 1) pairs {} none
    return s
  | some (.scalar s) => match Value.ofScalar? s with
    | some .null => some {}
    | _ => none
  | some _ => none

def validate (s : Settings) : Except SettingsError Settings :=
  if s.entry.isEmpty then .error .emptyEntry
  else
    let s := { s with
      ext := if s.ext.isEmpty then Resolver.defaultExt else s.ext
      stdDir := if s.stdDir.isEmpty then Resolver.defaultStdDir else s.stdDir
      color := if s.color.isEmpty then auto else s.color }
    if s.color = auto ∨ s.color = always ∨ s.color = never then .ok s else .error (.badColor s.color)

def ofText (text : Bytes) : Except SettingsError Settings :=
  match (Node.ofText text).bind (ofNode? text.length) with
  | some s => s.validate
  | none => .error .notSettings

def resolver (s : Settings) : Resolver := .make s.stdDir s.ext

def useColor (color : Bytes) (terminal : Bool) : Bool :=
  if color = always then true else if color = never then false else terminal

def candidates (directory : Bytes) : List Bytes :=
  let path := Path.ofBytes directory
  (List.range (path.parts.length + 1)).reverse.map fun n =>
    Path.toBytes { path with parts := path.parts.take n ++ [fileName] }

end Settings

end Polish
