import Polish.Text.Quoted
import Polish.Double.Token

namespace Polish

inductive Verb where
  | parse
  | check
  | compile
  deriving DecidableEq

namespace Verb

def all : List Verb := [.parse, .check, .compile]

def name : Verb → Bytes
  | .parse => utf8 "parse"
  | .check => utf8 "check"
  | .compile => utf8 "compile"

end Verb

structure Arguments where
  verb : Option Verb := none
  files : List Bytes := []
  config : Bytes := []
  entry : Bytes := []
  std : Bytes := []
  color : Bytes := []
  verbosity : Bytes := []
  out : Bytes := []
  seed : Int := 0
  follow : Bool := false
  help : Bool := false

inductive FlagTrouble where
  | unknown
  | valueRequired
  | notBool
  | notInteger (text : Bytes)
  | outOfRange (text : Bytes)

def FlagTrouble.message : FlagTrouble → Bytes
  | .unknown => utf8 "no such flag"
  | .valueRequired => utf8 "flag value is required"
  | .notBool => utf8 "not a bool value"
  | .notInteger t => utf8 "strconv.ParseInt: parsing " ++ Text.quoted t ++ utf8 ": invalid syntax"
  | .outOfRange t => utf8 "strconv.ParseInt: parsing " ++ Text.quoted t ++ utf8 ": value out of range"

inductive UsageError where
  | badFlag (verb : Option Verb) (written : Bytes) (why : FlagTrouble)
  | noArguments (got : Bytes)

def UsageError.message : UsageError → Bytes
  | .badFlag verb written why =>
    let context := match verb with
      | some verb => verb.name ++ utf8 ": "
      | none => []
    context ++ utf8 "parse flag: " ++ written ++ utf8 ": " ++ why.message
  | .noArguments got => utf8 "no args expected, got " ++ got

inductive Flag where
  | valued (set : Bytes → Arguments → Except FlagTrouble Arguments)
  | switch (set : Bool → Arguments → Arguments)

namespace Arguments

/-- The number of decimal digits. What follows a number beyond 64 bits is not looked at. -/
def magnitude (t : Bytes) : Nat → Bytes → Except FlagTrouble Nat
  | n, [] => .ok n
  | n, d :: rest =>
    if !Bytes.isDigit d then .error (.notInteger t)
    else
      let n := n * 10 + Double.digitValue d
      if 0x10000000000000000 ≤ n then .error (.outOfRange t) else magnitude t n rest

def integer (t : Bytes) : Except FlagTrouble Int := do
  let (negative, digits) := Double.sign t
  if digits.isEmpty then .error (.notInteger t)
  else
    let n : Int ← magnitude t 0 digits
    let n := if negative then -n else n
    if -0x8000000000000000 ≤ n ∧ n < 0x8000000000000000 then .ok n else .error (.outOfRange t)

def truth (t : Bytes) : Except FlagTrouble Bool :=
  let t := t.map fun b => if Bytes.isUpper b then b + 32 else b
  if ["", "1", "t", "true", "y", "yes"].any (utf8 · = t) then .ok true
  else if ["0", "f", "false", "n", "no"].any (utf8 · = t) then .ok false
  else .error .notBool

def flag? (a : Arguments) (name : Bytes) : Option Flag :=
  let is (s : String) : Bool := name = utf8 s
  if is "config" then some (.valued fun v a => .ok { a with config := v })
  else if is "entry" then some (.valued fun v a => .ok { a with entry := v })
  else if is "std" then some (.valued fun v a => .ok { a with std := v })
  else if is "color" then some (.valued fun v a => .ok { a with color := v })
  else if is "verbosity" || is "v" then some (.valued fun v a => .ok { a with verbosity := v })
  else if is "seed" then some (.valued fun v a => return { a with seed := ← integer v })
  else if is "follow-closures" then some (.switch fun b a => { a with follow := b })
  else if is "help" || is "h" then some (.switch fun b a => { a with help := b })
  else if a.verb = some .compile && (is "out" || is "o") then some (.valued fun v a => .ok { a with out := v })
  else none

def positional (a : Arguments) (arg : Bytes) : Except UsageError Arguments :=
  match a.verb with
  | some _ => .ok { a with files := a.files ++ [arg] }
  | none => match Verb.all.find? (·.name = arg) with
    | some verb => .ok { a with verb := some verb }
    | none => .error (.noArguments arg)

def dash : UInt8 := ascii '-'

/-- What ends the flags after a command; before it this is an argument like others. -/
def flagsEnd : Bytes := [dash, dash]

def isFlag (arg : Bytes) : Bool := arg.head? = some dash && 1 < arg.length && arg != flagsEnd

def undashed (written : Bytes) : Bytes :=
  let drop (t : Bytes) : Bytes := if t.head? = some dash then t.tail else t
  drop (drop written)

/-- The name of a flag and its value, if one is attached after an equals sign or a space. -/
def splitFlag (arg : Bytes) : Bytes × Option Bytes :=
  let name := arg.takeWhile fun b => b != ascii '=' && b != ascii ' '
  match arg.drop name.length with
  | [] => (undashed name, none)
  | _ :: value => (undashed name, some value)

def apply (a : Arguments) (arg : Bytes) (rest : List Bytes) : Except FlagTrouble (Arguments × List Bytes) := do
  let (name, attached) := splitFlag arg
  match a.flag? name, attached, rest with
  | none, _, _ => .error .unknown
  | some (.switch set), value, rest => return (set (← truth (value.getD [])) a, rest)
  | some (.valued set), some value, rest => return (← set value a, rest)
  | some (.valued set), none, value :: rest => return (← set value a, rest)
  | some (.valued _), none, [] => .error .valueRequired

def readSome : Nat → Arguments → List Bytes → Except UsageError Arguments
  | 0, a, _ => .ok a
  | _ + 1, a, [] => .ok a
  | n + 1, a, arg :: rest =>
    if arg = flagsEnd && a.verb.isSome then .ok { a with files := a.files ++ rest }
    else if !isFlag arg then do readSome n (← a.positional arg) rest
    else match a.apply arg rest with
      | .ok (a, rest) => readSome n a rest
      | .error why => .error (.badFlag a.verb arg why)

def readAll (args : List Bytes) : Except UsageError Arguments := readSome args.length {} args

end Arguments

end Polish
