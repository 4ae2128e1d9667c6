import Polish.Text.Base64
import Polish.Yaml.Node
import Polish.Yaml.Timestamp

namespace Polish.Yaml

inductive Value where
  | null
  | bool (b : Bool)
  | integer (n : Int)
  | float (d : Double)
  | time
  | text (t : Bytes)

namespace Value

def digit? (base : Nat) (b : UInt8) : Option Nat :=
  let value? :=
    if Bytes.isDigit b then some (b.toNat - (ascii '0').toNat)
    else if Bytes.isLower b then some (b.toNat - (ascii 'a').toNat + 10)
    else if Bytes.isUpper b then some (b.toNat - (ascii 'A').toNat + 10)
    else none
  value?.filter (· < base)

def natural? (base : Nat) (digits : Bytes) : Option Nat := do
  let values ← digits.mapM (digit? base)
  return values.foldl (fun n d => n * base + d) 0

def announced? (digits : Bytes) : Option Nat :=
  match digits with
  | [] => none
  | zero :: rest =>
    if zero = ascii '0' then
      match rest with
      | mark :: more =>
        if !more.isEmpty && (mark = ascii 'b' || mark = ascii 'B') then natural? 2 more
        else if !more.isEmpty && (mark = ascii 'o' || mark = ascii 'O') then natural? 8 more
        else if !more.isEmpty && (mark = ascii 'x' || mark = ascii 'X') then natural? 16 more
        else natural? 8 rest
      | [] => some 0
    else natural? 10 digits

def least : Int := -0x8000000000000000

def most : Int := 0x7fffffffffffffff

def inRange? (t : Bytes) (magnitude? : Bytes → Option Nat) : Option Int := do
  let (negative, digits) := Double.sign t
  let n : Int ← magnitude? digits
  let n := if negative then -n else n
  if least ≤ n ∧ n ≤ most then some n
  else if digits.length = t.length ∧ n < 0x10000000000000000 then some n
  else none

def integer? (t : Bytes) : Option Int := inRange? t announced?

def inBase? (base : Nat) (t : Bytes) : Option Int :=
  inRange? t fun digits => if digits.isEmpty then none else natural? base digits

def marked? (t : Bytes) : Option Int :=
  let minus := [ascii '-']
  if (utf8 "0b").isPrefixOf t then inBase? 2 (t.drop 2)
  else if (utf8 "-0b").isPrefixOf t then inBase? 2 (minus ++ t.drop 3)
  else if (utf8 "0o").isPrefixOf t then inBase? 8 (t.drop 2)
  else if (utf8 "-0o").isPrefixOf t then inBase? 8 (minus ++ t.drop 3)
  else none

def isFloat (t : Bytes) : Bool :=
  let (_, body) := Double.sign t
  let (whole, rest) := Double.digitRun body
  let (fraction, rest) := Double.fractionPart rest
  let exponentFits := match rest with
    | [] => true
    | e :: rest =>
      let (_, digits) := Double.sign rest
      (e = ascii 'e' || e = ascii 'E') && !digits.isEmpty && digits.all Bytes.isDigit
  (!whole.isEmpty || !fraction.isEmpty) && exponentFits

def float? (t : Bytes) : Option Double :=
  if isFloat t then match Double.ofToken? t with
    | some (.finite negative rank) => some (.finite negative rank)
    | _ => none
  else none

def underscore : UInt8 := ascii '_'

def separatesDigits : Bool → Bytes → Bool
  | _, [] => true
  | digit, b :: rest =>
    if b = underscore then digit && rest.head?.any Bytes.isDigit && separatesDigits false rest
    else separatesDigits (Bytes.isDigit b) rest

def words : List (String × Value) :=
  [("", .null), ("~", .null), ("null", .null), ("Null", .null), ("NULL", .null),
    ("true", .bool true), ("True", .bool true), ("TRUE", .bool true),
    ("false", .bool false), ("False", .bool false), ("FALSE", .bool false),
    (".nan", .float .nan), (".NaN", .float .nan), (".NAN", .float .nan),
    (".inf", .float (.infinite false)), (".Inf", .float (.infinite false)), (".INF", .float (.infinite false)),
    ("+.inf", .float (.infinite false)), ("+.Inf", .float (.infinite false)), ("+.INF", .float (.infinite false)),
    ("-.inf", .float (.infinite true)), ("-.Inf", .float (.infinite true)), ("-.INF", .float (.infinite true))]

def number? (t : Bytes) : Option Value :=
  let t := t.filter (· != underscore)
  (integer? t).map .integer <|> (float? t).map .float <|> (marked? t).map .integer

def ofPlain (times : Bool) (t : Bytes) : Value :=
  match words.find? fun (word, _) => utf8 word = t with
  | some (_, v) => v
  | none =>
    match t with
    | [] => .null
    | b :: _ =>
      if b = ascii '.' then
        match float? (t.filter (· != underscore)) with
        | some d => if separatesDigits false t then .float d else .text t
        | none => .text t
      else if Bytes.isDigit b || b = ascii '+' || b = ascii '-' then
        if times && Timestamp.isTimestamp t then .time else (number? t).getD (.text t)
      else .text t

/-- The value that a tag makes of a text. The text has to be of the kind that the tag names, but an integer is
also a float, and a tag of no known kind makes a text. -/
def ofTag? (tag t : Bytes) : Option Value :=
  let is (kind : String) : Bool := tag = utf8 kind
  let v := ofPlain (is "!!timestamp") t
  if is "!!binary" then (Text.Base64.decode? t).map .text
  else if is "!!null" then match v with
    | .null => some v
    | _ => none
  else if is "!!bool" then match v with
    | .bool _ => some v
    | _ => none
  else if is "!!int" then match v with
    | .integer _ => some v
    | _ => none
  else if is "!!float" then match v with
    | .float _ => some v
    | .integer n => if n ≤ most then some (.float (Double.ofDecimal (n < 0) n.natAbs 0)) else none
    | _ => none
  else if is "!!timestamp" then match v with
    | .time => some v
    | _ => none
  else some (.text t)

def ofScalar? (s : Scalar) : Option Value :=
  match s.tag with
  | some tag => ofTag? tag s.text
  | none => some (if s.plain then ofPlain true s.text else .text s.text)

def truncated (negative : Bool) (rank : Nat) : Int :=
  let n : Int := (Double.magnitude rank / Double.inUnits 1 : Nat)
  if negative then -n else n

/-- A number as an integer of 64 bits. What lies below the least of them counts as the least, and so does
the one above the greatest, to which the greatest is rounded as a double. -/
def toInteger? : Value → Option Int
  | .integer n => if n ≤ most then some n else none
  | .float (.finite negative rank) =>
    let n := truncated negative rank
    if n ≤ most then some (max n least) else if n = most + 1 then some least else none
  | .float (.infinite true) => some least
  | _ => none

def yes : List String := ["y", "Y", "yes", "on"]

def no : List String := ["n", "N", "no", "off"]

def toBool? : Value → Option Bool
  | .bool b => some b
  | .text t =>
    if yes.any (utf8 · = t) then some true
    else if no.any (utf8 · = t) then some false
    else none
  | _ => none

end Value

end Polish.Yaml
