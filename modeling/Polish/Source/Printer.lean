import Polish.Failure
import Polish.Sorting
import Polish.Double.Shortest
import Polish.Text.Quoted

namespace Polish

inductive Unprintable where
  | noSource (kind : Kind) (name : Bytes)
  | noType (name : Bytes)
  | notANumber
  | allQuotes (text : Bytes)
  | noExpr
  | noValue (what : Bytes)

def Unprintable.message : Unprintable → Bytes
  | .noSource kind name => kind.render ++ utf8 " function " ++ name ++ utf8 " has no source"
  | .noType name => utf8 "type has no syntax: " ++ name
  | .notANumber => utf8 "NaN has no syntax"
  | .allQuotes text => utf8 "string contains all the quotes: " ++ Text.quotedFirst 20 text
  | .noExpr => utf8 "unsupported expr: <nil>"
  | .noValue what => utf8 "unsupported type: " ++ what

abbrev Printed := Except (Halt (Failure Unprintable)) Bytes

namespace Print

def refuse (cause : Unprintable) : Printed := .error (.failure { cause })

def within (place : Place) (text : Printed) : Printed := text.mapError (·.within place)

mutual

def ty : Ty → Printed
  | .basic b => return b.name
  | .unknown code => return (Ty.unknown code).name
  | .array element => return utf8 "[" ++ (← ty element) ++ utf8 "]"
  | .function params result => do
    let head ← tyList params
    let last ← ty result
    return utf8 "anon " ++ head ++ utf8 "=> " ++ last
  | .object names types => refuse (.noType (Ty.object names types).name)
  | .absent => .error (.fault .missing)

def tyList : List Ty → Printed
  | [] => return []
  | t :: ts => do
    let first ← ty t
    let rest ← tyList ts
    return first ++ utf8 " " ++ rest

end

def params : List Param → Printed
  | [] => return utf8 "=> "
  | p :: ps => do
    let first ← within (.param p.name) (ty p.ty)
    let rest ← params ps
    return first ++ utf8 " " ++ p.name ++ utf8 " " ++ rest

def number : Double → Printed
  | .nan => refuse .notANumber
  | .infinite negative => return if negative then utf8 "-1e999" else utf8 "1e999"
  | .finite negative rank => return Double.finiteText negative rank

/-- A string between the first kind of quotes that it does not contain. -/
def string (value : Bytes) : Printed :=
  match [ascii '"', ascii '\'', ascii '`'].find? (!value.contains ·) with
  | some quote => return quote :: value ++ [quote]
  | none => refuse (.allQuotes value)

def parenthesized (wanted : Bool) (text : Bytes) : Bytes :=
  if wanted then utf8 "(" ++ text ++ utf8 ")" else text

mutual

/-- An expression, which is an argument of a call if `nested`. -/
def expr (fns : Functions) (nested : Bool) : Expr → Printed
  | .hole => refuse .noExpr
  | .number _ value => number value
  | .text _ value => string value
  | .var _ name => return name
  | .relocated _ x => expr fns nested x
  | .closure _ ps body => do
    let head ← within .closure (params ps)
    let rest ← within .closure (expr fns false body)
    return parenthesized nested (utf8 "anon " ++ head ++ rest)
  | .call _ f args => do
    let fn ← (fns.resolve f).mapError .fault
    let rest ← exprList fns fn.name 0 args
    return parenthesized (nested && !args.isEmpty) (fn.name ++ rest)

def exprList (fns : Functions) (callee : Bytes) : Nat → List Expr → Printed
  | _, [] => return []
  | i, x :: xs => do
    let first ← within (.argument callee i) (expr fns true x)
    let rest ← exprList fns callee (i + 1) xs
    return utf8 " " ++ first ++ rest

end

def function (fns : Functions) (f : FuncId) : Printed := do
  let fn ← (fns.resolve f).mapError .fault
  if fn.kind = .custom then
    let head ← params fn.params
    let body ← within .body (expr fns false fn.body)
    return utf8 "function " ++ fn.name ++ utf8 " " ++ head ++ body ++ utf8 "\n"
  else refuse (.noSource fn.kind fn.name)

def declaredBefore (a b : Location) : Bool :=
  if a.path = b.path then a.off ≤ b.off else Bytes.le a.path b.path

def sources (fns : Functions) (ids : List FuncId) : List (FuncId × Function) :=
  let found := ids.filterMap fun f => fns[f]?.map fun fn => (f, fn)
  (Sorting.sort (fun a b => declaredBefore a.2.location b.2.location) found).filter (·.2.kind != .native)

def functionList (fns : Functions) : List (FuncId × Function) → Printed
  | [] => return []
  | (f, fn) :: rest => do
    let first ← within (.printed fn.name) (function fns f)
    let others ← functionList fns rest
    return first ++ others

def functions (fns : Functions) (ids : List FuncId) : Printed := functionList fns (sources fns ids)

def standalone (fns : Functions) : Expr → Printed
  | .hole => refuse (.noValue (utf8 "<nil>"))
  | x => expr fns false x

end Print

end Polish
