import Polish.Failure
import Polish.Identifiers
import Polish.Sorting
import Polish.Double.Shortest
import Polish.Text.Quoted

namespace Polish

inductive Uncodable where
  | native (op : Operation)
  | noExpr

def Uncodable.message : Uncodable → Bytes
  | .native op => utf8 "unsupported native function: " ++ op.render
  | .noExpr => utf8 "unsupported expression: <nil>"

structure Emitter (σ : Type) where
  ids : Identifiers σ
  written : List FuncId := []
  referenced : List FuncId := []
  output : Bytes := []

abbrev Emitting (σ : Type) := EStateM (Halt (Failure Uncodable)) (Emitter σ)

namespace Emitting

def nativeCode? : Operation → Option Bytes
  | .add => some (utf8 "($a,$b)\x7breturn $a + $b\x7d")
  | .sub => some (utf8 "($a,$b)\x7breturn $a - $b\x7d")
  | .mul => some (utf8 "($a,$b)\x7breturn $a * $b\x7d")
  | .div => some (utf8 "($a,$b)\x7breturn $a / $b\x7d")
  | .cat => some (utf8 "($str)\x7bconsole.log($str)\x7d")
  | .call | .other _ => none

def number : Double → Bytes
  | .nan => utf8 "NaN"
  | .infinite negative => if negative then utf8 "-Infinity" else utf8 "Infinity"
  | .finite negative rank => Double.finiteText negative rank

def heading (params : List Param) : Bytes :=
  utf8 "(" ++ List.intercalate (utf8 ",") (params.map (·.name)) ++ utf8 ")\x7b return "

variable {σ : Type}

def refuse {α : Type} (cause : Uncodable) : Emitting σ α := throw (.failure { cause })

def within {α : Type} (place : Place) (code : Emitting σ α) : Emitting σ α := fun e =>
  match code e with
  | .ok a e => .ok a e
  | .error halt e => .error (halt.within place) e

def resolve (fns : Functions) (f : FuncId) : Emitting σ Function :=
  match fns.resolve f with
  | .ok fn => pure fn
  | .error fault => throw (.fault fault)

def refer (f : FuncId) : Emitting σ Unit :=
  modify fun e => { e with referenced := if e.referenced.contains f then e.referenced else f :: e.referenced }

def write (text : Bytes) : Emitting σ Unit := modify fun e => { e with output := e.output ++ text }

variable [LetterSource σ]

def identify (name : Bytes) : Emitting σ Bytes := fun e =>
  let (id, ids) := e.ids.identify name
  .ok id { e with ids }

mutual

def expr (fns : Functions) : Expr → Emitting σ Bytes
  | .hole => refuse .noExpr
  | .number _ value => return number value
  | .text _ value => return Text.literal value
  | .var _ name => return name
  | .relocated _ x => expr fns x
  | .closure _ params body => do
    let code ← within .closure (expr fns body)
    return utf8 "function " ++ heading params ++ code ++ utf8 "\x7d"
  | .call _ f args => do
    let fn ← resolve fns f
    if fn.kind = .native && fn.operation = .call then refuse (.native fn.operation)
    else
      refer f
      let id ← identify fn.name
      let codes ← exprList fns fn.name 0 args
      return id ++ utf8 "(" ++ List.intercalate (utf8 ",") codes ++ utf8 ")"

def exprList (fns : Functions) (callee : Bytes) : Nat → List Expr → Emitting σ (List Bytes)
  | _, [] => return []
  | i, x :: xs => do
    let code ← within (.argument callee i) (expr fns x)
    let codes ← exprList fns callee (i + 1) xs
    return code :: codes

end

def function (fns : Functions) (fn : Function) : Emitting σ Bytes :=
  match fn.kind with
  | .pending => throw (.fault (.pending fn.name))
  | .custom => do
    let id ← identify fn.name
    let code ← within .body (expr fns fn.body)
    return utf8 "function " ++ id ++ heading fn.params ++ code ++ utf8 "\x7d\n"
  | .native => match nativeCode? fn.operation with
    | none => refuse (.native fn.operation)
    | some code => do
      let id ← identify fn.name
      return utf8 "function " ++ id ++ code ++ utf8 "\n"
  | .other _ => return []

/-- Writes a function. The writer behind the output is taken not to fail: what counts as written is in the output. -/
def writeFunction (fns : Functions) (f : FuncId) : Emitting σ Unit := do
  let fn ← resolve fns f
  let code ← function fns fn
  modify fun e => { e with written := if e.written.contains f then e.written else f :: e.written }
  write code

def writeCall (entry : Bytes) : Emitting σ Unit := do
  let id ← identify entry
  write (id ++ utf8 "()\n")

def program (fns : Functions) (entry : Bytes) : List FuncId → Emitting σ Unit
  | [] => writeCall entry
  | f :: fs => do
    let fn ← resolve fns f
    within (.emitted fn.name) (writeFunction fns f)
    program fns entry fs

end Emitting

def Emitter.missing {σ : Type} (e : Emitter σ) (fns : Functions) : List Bytes :=
  let absent := e.referenced.filter (!e.written.contains ·)
  Sorting.sort Bytes.le (absent.filterMap fun f => fns[f]?.map (·.name))

end Polish
