import Polish.Fault

namespace Polish

structure Walk where
  found : List FuncId := []
  entered : List FuncId := []

abbrev Walking := EStateM Fault Walk

namespace Walking

def meet (f : FuncId) : Walking Unit :=
  modify fun w => if w.found.contains f then w else { w with found := w.found ++ [f] }

mutual

/-- Meets the callees of an expression. Anonymous functions and uses of variables are looked into only
if closures are to be followed. -/
def visit (follow : Bool) (enter : FuncId → Walking Unit) : Expr → Walking Unit
  | .hole => throw .unsupported
  | .number _ _ | .text _ _ | .var _ _ => return
  | .call _ f args => do
    enter f
    visitList follow enter args
  | .relocated _ x => if follow then visit follow enter x else return
  | .closure _ _ body => if follow then visit follow enter body else return

def visitList (follow : Bool) (enter : FuncId → Walking Unit) : List Expr → Walking Unit
  | [] => return
  | x :: xs => do
    visit follow enter x
    visitList follow enter xs

end

/-- Meets a function and walks its body, unless that is done already. The nesting of bodies is at most
the number of functions, so that a depth of one more is never used up. -/
def enter (fns : Functions) (follow : Bool) : Nat → FuncId → Walking Unit
  | 0, _ => return
  | depth + 1, f => do
    match fns.resolve f with
    | .error fault => throw fault
    | .ok fn =>
      meet f
      if fn.kind = .custom && !(← get).entered.contains f then
        modify fun w => { w with entered := f :: w.entered }
        visit follow (enter fns follow depth) fn.body

end Walking

def Expr.dependencies (fns : Functions) (follow : Bool) (x : Expr) : Except Fault (List FuncId) :=
  match Walking.visit follow (Walking.enter fns follow (fns.size + 1)) x {} with
  | .ok _ w => .ok w.found
  | .error fault _ => .error fault

/-- Remembers the dependencies of expressions, each under a key that tells it from the others. What is
remembered stays, also if later expressions are walked with another choice on closures. -/
structure Analyzer (κ : Type) where
  follow : Bool := false
  known : List (κ × List FuncId) := []

namespace Analyzer

def analyze {κ : Type} [BEq κ] (a : Analyzer κ) (fns : Functions) (key : κ) (x : Expr) :
    Except Fault (List FuncId) × Analyzer κ :=
  match a.known.lookup key with
  | some deps => (.ok deps, a)
  | none => match x.dependencies fns a.follow with
    | .ok deps => (.ok deps, { a with known := (key, deps) :: a.known })
    | .error fault => (.error fault, a)

def body (a : Analyzer (FuncId × Kind)) (fns : Functions) (f : FuncId) :
    Except Fault (List FuncId) × Analyzer (FuncId × Kind) :=
  match fns[f]? with
  | none => (.error .missing, a)
  | some fn => a.analyze fns (f, fn.kind) fn.body

end Analyzer

end Polish
