import Polish.Double.Token

namespace Polish.Yaml.Timestamp

def short (t : Bytes) : Option (Nat × Bytes) :=
  let digits := (t.take 2).takeWhile Bytes.isDigit
  if digits.isEmpty then none else some (Double.digitsValue digits, t.drop digits.length)

def part (mark : Char) (limit : Nat) (t : Bytes) : Option (Nat × Bytes) := do
  if t.head? != some (ascii mark) then none
  else
    let (n, rest) ← short t.tail
    if n < limit then some (n, rest) else none

def isLeap (year : Nat) : Bool := year % 4 = 0 && (year % 100 != 0 || year % 400 = 0)

def daysIn (year month : Nat) : Nat :=
  if month = 2 then if isLeap year then 29 else 28
  else if month = 4 || month = 6 || month = 9 || month = 11 then 30
  else 31

def date (t : Bytes) : Option Bytes := do
  let (year, rest) := Double.digitRun t
  if year.length != 4 then none
  else
    let (month, rest) ← part '-' 13 rest
    let (day, rest) ← part '-' 32 rest
    if month = 0 || day = 0 || daysIn (Double.digitsValue year) month < day then none else some rest

def fraction (t : Bytes) : Bytes :=
  match t with
  | mark :: d :: rest =>
    if (mark = ascii '.' || mark = ascii ',') && Bytes.isDigit d then rest.dropWhile Bytes.isDigit else t
  | _ => t

def clock (t : Bytes) : Option Bytes := do
  let (hour, rest) ← short t
  let (_, rest) ← part ':' 60 rest
  let (_, rest) ← part ':' 60 rest
  if hour < 24 then some (fraction rest) else none

def isZone (t : Bytes) : Bool :=
  match t with
  | [z] => z = ascii 'Z'
  | [sign, h, h', colon, m, m'] =>
    (sign = ascii '+' || sign = ascii '-') && colon = ascii ':' && [h, h', m, m'].all Bytes.isDigit
      && Double.digitsValue [h, h'] ≤ 24 && Double.digitsValue [m, m'] ≤ 60
  | _ => false

def isTimestamp (t : Bytes) : Bool :=
  match date t with
  | none => false
  | some [] => true
  | some (mark :: rest) =>
    if mark = ascii 'T' || mark = ascii 't' then (clock rest).any isZone
    else mark = ascii ' ' && (clock (rest.dropWhile (· = ascii ' '))).any (·.isEmpty)

end Polish.Yaml.Timestamp
