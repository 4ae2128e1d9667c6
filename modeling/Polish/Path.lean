import Polish.Bytes

namespace Polish

@[ext]
structure Path where
  rooted : Bool
  parts : List Bytes
  deriving DecidableEq

namespace Path

def slash : UInt8 := ascii '/'

def here : Bytes := utf8 "."

def parent : Bytes := utf8 ".."

/-- One more part at the end of a reduced path, whose parts are given last first. A `..` takes back the
part before it, is lost at the root, and is kept where there is nothing to take back. -/
def push (rooted : Bool) (reversed : List Bytes) (part : Bytes) : List Bytes :=
  if part = [] ∨ part = here then reversed
  else if part = parent then
    match reversed with
    | [] => if rooted then [] else [parent]
    | last :: before => if last = parent then parent :: reversed else before
  else part :: reversed

def ofBytes (text : Bytes) : Path :=
  let rooted := text.head? == some slash
  ⟨rooted, ((Bytes.split slash text).foldl (push rooted) []).reverse⟩

def toBytes (p : Path) : Bytes :=
  let body := List.intercalate [slash] p.parts
  if p.rooted then slash :: body else if p.parts.isEmpty then here else body

def clean (text : Bytes) : Bytes := (ofBytes text).toBytes

def join (a b : Bytes) : Bytes :=
  if a.isEmpty && b.isEmpty then []
  else if a.isEmpty then clean b
  else if b.isEmpty then clean a
  else clean (a ++ slash :: b)

def throughLastSlash (text : Bytes) : Bytes := (text.reverse.dropWhile (· != slash)).reverse

def dir (text : Bytes) : Bytes := clean (throughLastSlash text)

def base (text : Bytes) : Bytes :=
  if text.isEmpty then here
  else
    let trimmed := text.reverse.dropWhile (· == slash)
    if trimmed.isEmpty then [slash] else (trimmed.takeWhile (· != slash)).reverse

def elements (text : Bytes) : List Bytes :=
  let pieces := Bytes.split slash text
  if pieces.getLast? = some [] then pieces.dropLast else pieces

def diverge : List Bytes → List Bytes → List Bytes × List Bytes
  | a :: as, b :: bs => if a = b then diverge as bs else (a :: as, b :: bs)
  | as, bs => (as, bs)

def isAbsolute (text : Bytes) : Bool := text.head? == some slash

def baseText (root : Bytes) : Bytes := if clean root = here then [] else clean root

/-- The text that leads from a root to a path: a step up for every element of the root that they do not
share, then the rest of the path. There is none if only one of both is rooted, or if the root climbs where
the path does not. -/
def relativeTo? (root text : Bytes) : Option Bytes :=
  if clean text = clean root then some here
  else if isAbsolute (baseText root) ≠ isAbsolute (clean text) then none
  else
    let (up, down) := diverge (elements (baseText root)) (elements (clean text))
    if up.head? = some parent ∧ down ≠ [] then none
    else some (List.intercalate [slash] (up.map (fun _ => parent) ++ down))

def leaves (text : Bytes) : Bool := text = parent || (parent ++ [slash]).isPrefixOf text

end Path

end Polish
