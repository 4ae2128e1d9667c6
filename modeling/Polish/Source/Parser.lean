import Polish.Source
import Polish.Registry
import Polish.Report
import Polish.Double.Token

namespace Polish

/-- Why a declaration is given up. No flag aborts it: where a type is unknown the exception `reported` is raised, with
the problem in the report already, and nothing more of the declaration is read. -/
inductive Stop where
  | malformed (off : Nat) (why : Malformed)
  | reported

structure Reading where
  cursor : Cursor
  report : Report

abbrev Parser := EStateM Stop Reading

namespace Parser

def cursor : Parser Cursor := return (← get).cursor

def moveTo (c : Cursor) : Parser Unit := modify fun r => { r with cursor := c }

def advance (n : Nat) : Parser Unit := modify fun r => { r with cursor := r.cursor.advance n }

def skipBlanks : Parser Cursor := do
  let c := (← cursor).skipBlanks
  moveTo c
  return c

def token : Parser Bytes := do
  let (word, c) := (← cursor).token
  moveTo c
  return word

def note (location : Location) (problem : Problem) : Parser Unit :=
  modify fun r => { r with report := r.report.add { location, problem } }

def fail {α : Type} (off : Nat) (why : Malformed) : Parser α := throw (.malformed off why)

def close (bracket : UInt8) (why : Malformed) : Parser Unit := do
  let c ← skipBlanks
  if c.rest.head? = some bracket then advance 1 else fail c.off why

def untilArrow {α : Type} (item : Parser α) : Nat → Parser (List α)
  | 0 => throw .reported
  | n + 1 => do
    let c ← skipBlanks
    if c.atEnd then fail c.off .endBeforeArrow
    else if c.startsWith arrow then
      advance arrow.length
      return []
    else
      let x ← item
      let xs ← untilArrow item n
      return x :: xs

def times {α : Type} (item : Parser α) : Nat → Parser (List α)
  | 0 => return []
  | n + 1 => do
    let x ← item
    let xs ← times item n
    return x :: xs

def string : Parser Bytes := do
  let c ← cursor
  match c.rest with
  | [] => fail c.off .stringExpected
  | quote :: rest =>
    if isQuote quote then
      let value := rest.takeWhile (· != quote)
      if value.length = rest.length then
        advance c.rest.length
        fail c.off .unclosedString
      else
        advance (value.length + 2)
        return value
    else fail c.off .stringExpected

def array (element : Parser Ty) : Parser Ty := do
  advance 1
  let t ← element
  close (ascii ']') .unclosedArray
  return .array t

def function (depth : Nat) (item : Parser Ty) : Parser Ty := do
  let params ← untilArrow item depth
  let result ← item
  return .function params result

def ty (src : Source) : Nat → Parser Ty
  | 0 => throw .reported
  | depth + 1 => do
    let c ← skipBlanks
    match c.rest with
    | [] => fail c.off .endBeforeType
    | b :: _ =>
      if b = ascii '[' then array (ty src depth)
      else
        let word ← token
        match Basic.ofWord? word with
        | some basic => return .basic basic
        | none =>
          if word = utf8 "anon" then function depth (ty src depth)
          else
            note (src.locate c.off) (.unknownType word)
            throw .reported

def param (src : Source) (depth : Nat) : Parser Param := do
  let t ← ty src depth
  let c ← skipBlanks
  let name ← token
  if name.isEmpty || arrow.isPrefixOf name then fail c.off (.paramName t)
  else return ⟨name, t⟩

def params (src : Source) (depth : Nat) : Parser (List Param) := untilArrow (param src depth) depth

abbrev Bindings := List (Bytes × Location)

def Bindings.bind (scope : Bindings) (params : List Param) (location : Location) : Bindings :=
  params.foldl (fun scope p => (p.name, location) :: scope) scope

def group (inner : Parser Expr) : Parser Expr := do
  advance 1
  let x ← inner
  close (ascii ')') .unclosedGroup
  return x

def closure (src : Source) (depth : Nat) (l : Location) (scope : Bindings) (body : Bindings → Parser Expr) :
    Parser Expr := do
  let ps ← params src depth
  let start ← cursor
  let x ← body (scope.bind ps (src.locate start.off))
  return .closure l ps x

/-- What a name stands for: a variable in scope, or a function applied to as many arguments as it has
parameters. A name that stands for nothing is reported and read as a variable. -/
def name (registry : Registry) (l : Location) (scope : Bindings) (word : Bytes) (arg : Parser Expr) :
    Parser Expr :=
  match scope.lookup word with
  | some bound => return .relocated l (.var bound word)
  | none => match registry.lookup word with
    | none => do
      note l (.unresolved word)
      return .var l word
    | some f => do
      let args ← times arg (registry.arity f)
      return .call l f args

def expr (src : Source) (registry : Registry) : Nat → Bindings → Parser Expr
  | 0, _ => throw .reported
  | depth + 1, scope => do
    let c ← skipBlanks
    let l := src.locate c.off
    match c.rest with
    | [] => fail c.off .endBeforeExpr
    | b :: _ =>
      if isQuote b then return .text l (← string)
      else if b = ascii '(' then group (expr src registry depth scope)
      else
        let word ← token
        if word.isEmpty then fail c.off (.unexpected b)
        else match Double.ofToken? word with
          | some value => return .number l value
          | none =>
            if word = utf8 "anon" then closure src depth l scope (expr src registry depth)
            else name registry l scope word (expr src registry depth scope)

end Parser

end Polish
