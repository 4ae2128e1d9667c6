import Polish.Yaml.Token

namespace Polish.Yaml

structure Scalar where
  text : Bytes
  plain : Bool
  tag : Option Bytes := none
  deriving DecidableEq

inductive Node where
  | scalar (s : Scalar)
  | sequence (items : List Node)
  | mapping (pairs : List (Node × Node))
  | reference (name : Bytes) (target : Node)
  | cyclic (name : Bytes)

namespace Node

def empty : Node := .scalar ⟨[], true, none⟩

def target : Node → Node
  | .reference _ n => n
  | n => n

end Node

structure NodeState where
  scanner : Scanner
  handles : List (Bytes × Bytes) := []
  anchors : Array (Bytes × Node) := #[]

abbrev NodeReader := StateT NodeState Option

namespace NodeReader

def peek : NodeReader Token := fun st => do
  let (t, scanner) ← st.scanner.peek
  return (t, { st with scanner })

def take : NodeReader Unit := modify fun st => { st with scanner := st.scanner.take }

def fail {α : Type} : NodeReader α := fun _ => none

def longTag : Bytes := utf8 "tag:yaml.org,2002:"

def shortTag (t : Bytes) : Bytes :=
  if longTag.isPrefixOf t then utf8 "!!" ++ t.drop longTag.length else t

def wholeTag (handle rest : Bytes) : NodeReader Bytes := do
  if handle.isEmpty then return rest
  else match (← get).handles.lookup handle with
    | none => fail
    | some first => if (first ++ rest).isEmpty then fail else return first ++ rest

def properties : NodeReader (Option Bytes × Option Bytes) := do
  match ← peek with
  | .anchor name =>
    take
    match ← peek with
    | .tag handle rest =>
      take
      let _ ← peek
      return (some name, some (← wholeTag handle rest))
    | _ => return (some name, none)
  | .tag handle rest =>
    take
    let anchor ← match ← peek with
      | .anchor name =>
        take
        let _ ← peek
        pure (some name)
      | _ => pure none
    return (anchor, some (← wholeTag handle rest))
  | _ => return (none, none)

def anchored (anchor : Option Bytes) (read : NodeReader Node) : NodeReader Node :=
  match anchor with
  | none => read
  | some name => do
    let place := (← get).anchors.size
    modify fun st => { st with anchors := st.anchors.push (name, .cyclic name) }
    let node ← read
    modify fun st => { st with anchors := st.anchors.setIfInBounds place (name, node) }
    return node

def absent (anchor tag scalarTag : Option Bytes) : NodeReader Node :=
  if anchor.isSome || tag.isSome then return .scalar ⟨[], true, scalarTag⟩ else fail

def separated (first : Bool) (last : Token) : NodeReader Token := do
  let t ← peek
  if first || t = last then return t
  else if t = .comma then
    take
    peek
  else fail

def referenced (name : Bytes) : NodeReader Node := do
  match (← get).anchors.findRev? (·.1 = name) with
  | none => fail
  | some (_, .cyclic _) => return .cyclic name
  | some (_, node) => return .reference name node

mutual

/-- A node. A sequence may stand at the column of the mapping around it if `indentless`. -/
def node : Nat → Bool → Bool → NodeReader Node
  | 0, _, _ => fail
  | n + 1, block, indentless => do
    match ← peek with
    | .reference name =>
      take
      referenced name
    | _ =>
      let (anchor, tag) ← properties
      let scalarTag := tag.bind fun t => if t = utf8 "!" then none else some (shortTag t)
      anchored anchor do
        match ← peek with
        | .scalar text plain =>
          take
          return .scalar ⟨text, plain, scalarTag⟩
        | .sequenceStart =>
          take
          return .sequence (← flowItems n true)
        | .mappingStart =>
          take
          return .mapping (← flowPairs n true)
        | .dash => if indentless then return .sequence (← bareItems n) else absent anchor tag scalarTag
        | .blockSequence =>
          if block then
            take
            return .sequence (← blockItems n)
          else absent anchor tag scalarTag
        | .blockMapping =>
          if block then
            take
            return .mapping (← blockPairs n)
          else absent anchor tag scalarTag
        | _ => absent anchor tag scalarTag

def optional : Nat → Bool → Bool → List Token → NodeReader Node
  | 0, _, _, _ => fail
  | n + 1, block, indentless, ends => do
    if ends.contains (← peek) then return .empty else node n block indentless

def blockItems : Nat → NodeReader (List Node)
  | 0 => fail
  | n + 1 => do
    match ← peek with
    | .dash =>
      take
      let item ← optional n true false [.dash, .blockEnd]
      return item :: (← blockItems n)
    | .blockEnd =>
      take
      return []
    | _ => fail

def bareItems : Nat → NodeReader (List Node)
  | 0 => fail
  | n + 1 => do
    match ← peek with
    | .dash =>
      take
      let item ← optional n true false [.dash, .key, .value, .blockEnd]
      return item :: (← bareItems n)
    | _ => return []

def blockPairs : Nat → NodeReader (List (Node × Node))
  | 0 => fail
  | n + 1 => do
    match ← peek with
    | .key =>
      take
      let k ← optional n true true [.key, .value, .blockEnd]
      let v ← blockValue n
      return (k, v) :: (← blockPairs n)
    | .blockEnd =>
      take
      return []
    | _ => fail

def blockValue : Nat → NodeReader Node
  | 0 => fail
  | n + 1 => do
    match ← peek with
    | .value =>
      take
      optional n true true [.key, .value, .blockEnd]
    | _ => return .empty

/-- The items of a flow sequence, the first one without a comma before it. After a question mark an empty
key takes the token that shows it to be empty with it. -/
def flowItems : Nat → Bool → NodeReader (List Node)
  | 0, _ => fail
  | n + 1, first => do
    let t ← separated first .sequenceEnd
    match t with
    | .sequenceEnd =>
      take
      return []
    | .key =>
      take
      let ends := [.value, .comma, .sequenceEnd]
      let k ← if ends.contains (← peek) then do
          take
          pure Node.empty
        else node n false false
      let v ← flowValue n [.comma, .sequenceEnd]
      return .mapping [(k, v)] :: (← flowItems n false)
    | _ =>
      let item ← node n false false
      return item :: (← flowItems n false)

def flowPairs : Nat → Bool → NodeReader (List (Node × Node))
  | 0, _ => fail
  | n + 1, first => do
    let t ← separated first .mappingEnd
    match t with
    | .mappingEnd =>
      take
      return []
    | .key =>
      take
      let k ← optional n false false [.value, .comma, .mappingEnd]
      let v ← flowValue n [.comma, .mappingEnd]
      return (k, v) :: (← flowPairs n false)
    | _ =>
      let k ← node n false false
      return (k, .empty) :: (← flowPairs n false)

def flowValue : Nat → List Token → NodeReader Node
  | 0, _ => fail
  | n + 1, ends => do
    match ← peek with
    | .value =>
      take
      optional n false false ends
    | _ => return .empty

end

def directives : Nat → Bool → NodeReader Unit
  | 0, _ => fail
  | n + 1, versioned => do
    match ← peek with
    | .directive (.version major minor) =>
      if versioned || major != 1 || minor != 1 then fail
      else
        take
        directives n true
    | .directive (.handle handle meaning) =>
      if ((← get).handles.lookup handle).isSome then fail
      else
        modify fun st => { st with handles := st.handles ++ [(handle, meaning)] }
        take
        directives n versioned
    | _ => modify fun st => { st with handles := st.handles ++ [(utf8 "!", utf8 "!"), (utf8 "!!", longTag)] }

def content (fuel : Nat) : NodeReader Node := do
  match ← peek with
  | .directive _ | .documentStart | .documentEnd | .streamEnd => return .empty
  | _ => node fuel true false

def document (fuel : Nat) : NodeReader (Option Node) := do
  let _ ← peek
  take
  match ← peek with
  | .streamEnd => return none
  | t =>
    directives fuel false
    let marked := match t with
      | .directive _ | .documentStart => true
      | _ => false
    let n ← if !marked then node fuel true false
      else if (← peek) = .documentStart then do
        take
        content fuel
      else fail
    let _ ← peek
    return some n

end NodeReader

def Node.ofText (text : Bytes) : Option (Option Node) :=
  let scanner := Scanner.ofText text
  ((NodeReader.document (10 * scanner.reader.bound + 64)).run { scanner }).map (·.1)

end Polish.Yaml
