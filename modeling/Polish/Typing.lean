import Polish.Fault
import Polish.Report

namespace Polish

abbrev Scope := List (Bytes × Ty)

def Scope.bind (scope : Scope) (params : List Param) : Scope :=
  params.foldl (fun scope p => (p.name, p.ty) :: scope) scope

def Diagnostic.key (d : Diagnostic) : Bytes × Int × Bytes :=
  (d.location.path, d.location.off, d.problem.message)

structure Checker where
  report : Report := {}
  results : List (FuncId × Ty) := []
  stuck : List FuncId := []
  reported : List (Bytes × Int × Bytes) := []

def Checker.record (c : Checker) (d : Diagnostic) : Checker :=
  if c.reported.contains d.key then c
  else { c with reported := d.key :: c.reported, report := c.report.add d }

abbrev Checking := EStateM Fault Checker

namespace Checking

def resolve (fns : Functions) (f : FuncId) : Checking Function :=
  match fns.resolve f with
  | .ok fn => pure fn
  | .error fault => throw fault

def flag (location : Location) (problem : Problem) (fatal : Bool) : Checking Unit := do
  if problem.lacksType then throw .missing
  modify (·.record { location, problem, fatal })

mutual

/-- The type of an expression, given the result types of custom functions. -/
def typeOf (fns : Functions) (resultOf : FuncId → Checking Ty) : Expr → Scope → Checking Ty
  | .hole, _ => throw .missing
  | .number _ _, _ => return .number
  | .text _ _, _ => return .string
  | .var l name, scope => match scope.lookup name with
    | some t => return t
    | none => do
      flag l (.unbound name) true
      return .any
  | .relocated _ x, scope => typeOf fns resultOf x scope
  | .closure _ params body, scope => do
    let result ← typeOf fns resultOf body (scope.bind params)
    return .function (params.map (·.ty)) result
  | .call l f args, scope => do
    let fn ← resolve fns f
    if fn.kind = .custom then resultOf f
    else match fn.operation with
      | .add | .sub | .mul | .div => return .number
      | .cat => return .null
      | .call => appliedType fns resultOf l args scope
      | op => throw (.operation op)

def appliedType (fns : Functions) (resultOf : FuncId → Checking Ty) (l : Location) :
    List Expr → Scope → Checking Ty
  | [], _ => do
    flag l (.arity 1 0) false
    return .null
  | x :: args, scope => do
    match ← typeOf fns resultOf x scope with
    | .function params result =>
      if args.length ≠ params.length then flag l (.arity params.length args.length) false
      checkCasts fns resultOf args params scope
      return result
    | _ =>
      let got ← typeOf fns resultOf x scope
      flag l (.notCallable got) false
      return .null

def checkCasts (fns : Functions) (resultOf : FuncId → Checking Ty) :
    List Expr → List Ty → Scope → Checking Unit
  | x :: xs, t :: ts, scope => do
    let got ← typeOf fns resultOf x scope
    if !got.casts t then flag x.location (.mismatch got t) false
    checkCasts fns resultOf xs ts scope
  | _, _, _ => return

end

def remember (f : FuncId) (search : Checking Ty) : Checking Ty := fun c =>
  match search c with
  | .ok t c => .ok t { c with results := (f, t) :: c.results }
  | .error fault c => .error fault { c with stuck := f :: c.stuck }

/-- The result type of a function, while those of `active` are being found. The nesting of bodies is at
most the number of functions, so that a depth of one more is never used up. -/
def resultAt (fns : Functions) : Nat → List FuncId → FuncId → Checking Ty
  | 0, _, _ => return .any
  | depth + 1, active, f => do
    match (← get).results.lookup f with
    | some t => return t
    | none =>
      if active.contains f || (← get).stuck.contains f then return .any
      else match fns[f]? with
        | none => throw .missing
        | some fn => remember f (typeOf fns (resultAt fns depth (f :: active)) fn.body (Scope.bind [] fn.params))

def resultType (fns : Functions) (f : FuncId) : Checking Ty := resultAt fns (fns.size + 1) [] f

def exprType (fns : Functions) (x : Expr) (scope : Scope) : Checking Ty := typeOf fns (resultType fns) x scope

mutual

def checkExpr (fns : Functions) : Expr → Scope → Checking Unit
  | .call l f args, scope => do
    let fn ← resolve fns f
    if fn.kind = .native && fn.operation = .call then
      let _ ← appliedType fns (resultType fns) l args scope
    else
      if args.length ≠ fn.params.length then flag l (.arity fn.params.length args.length) false
      checkCasts fns (resultType fns) args (fn.params.map (·.ty)) scope
    checkExprList fns args scope
  | .relocated _ x, scope => checkExpr fns x scope
  | .closure _ params body, scope => checkExpr fns body (scope.bind params)
  | .hole, _ | .number _ _, _ | .text _ _, _ | .var _ _, _ => return

def checkExprList (fns : Functions) : List Expr → Scope → Checking Unit
  | [], _ => return
  | x :: xs, scope => do
    checkExpr fns x scope
    checkExprList fns xs scope

end

def checkFunction (fns : Functions) (f : FuncId) : Checking Unit := do
  let fn ← resolve fns f
  if fn.kind = .custom then
    let _ ← resultType fns f
    checkExpr fns fn.body (Scope.bind [] fn.params)

def checkAll (fns : Functions) : List FuncId → Checking Unit
  | [] => return
  | f :: fs => do
    checkFunction fns f
    if (← get).report.stopped then return
    checkAll fns fs

end Checking

end Polish
