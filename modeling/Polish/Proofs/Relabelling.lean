import Polish.Dependency
import Polish.Emission
import Polish.Source.Printer
import Polish.Proofs.Lists

namespace Polish

/-- Maps of expressions and of functions that change nothing but locations, the uses of variables around expressions,
and the positions of callees. -/
structure Relabels (ρ : FuncId → FuncId) (g : Expr → Expr) (h : Function → Function) : Prop where
  hole : g .hole = .hole
  number : ∀ l value, ∃ l', g (.number l value) = .number l' value
  text : ∀ l value, ∃ l', g (.text l value) = .text l' value
  var : ∀ l name, ∃ l', g (.var l name) = .var l' name
  call : ∀ l f args, ∃ l', g (.call l f args) = .call l' (ρ f) (args.map g)
  relocated : ∀ l x, g (.relocated l x) = g x ∨ ∃ l', g (.relocated l x) = .relocated l' (g x)
  closure : ∀ l params body, ∃ l', g (.closure l params body) = .closure l' params (g body)
  name : ∀ fn, (h fn).name = fn.name
  params : ∀ fn, (h fn).params = fn.params
  kind : ∀ fn, (h fn).kind = fn.kind
  operation : ∀ fn, (h fn).operation = fn.operation
  body : ∀ fn, (h fn).body = g fn.body

variable {ρ : FuncId → FuncId} {g : Expr → Expr} {h : Function → Function} {fns fns' : Functions}

theorem Functions.resolve_relabelled (hr : Relabels ρ g h) (hfns : ∀ f, fns'[ρ f]? = fns[f]?.map h) (f : FuncId) :
    fns'.resolve (ρ f) = (fns.resolve f).map h := by
  simp only [resolve, hfns]
  cases fns[f]? with
  | none => rfl
  | some fn =>
      simp only [Option.map_some, hr.kind, hr.name]
      split <;> rfl

namespace Print

mutual

theorem expr_relabelled (hr : Relabels ρ g h) (hfns : ∀ f, fns'[ρ f]? = fns[f]?.map h) (nested : Bool) : (x : Expr) →
    expr fns' nested (g x) = expr fns nested x
  | .hole => by rw [hr.hole, expr, expr]
  | .number l value => by
      obtain ⟨l', hx⟩ := hr.number l value
      rw [hx, expr, expr]
  | .text l value => by
      obtain ⟨l', hx⟩ := hr.text l value
      rw [hx, expr, expr]
  | .var l name => by
      obtain ⟨l', hx⟩ := hr.var l name
      rw [hx, expr, expr]
  | .relocated l x => by
      obtain hx | ⟨l', hx⟩ := hr.relocated l x
      · rw [hx, expr, expr_relabelled hr hfns nested x]
      · rw [hx, expr, expr, expr_relabelled hr hfns nested x]
  | .closure l params body => by
      obtain ⟨l', hx⟩ := hr.closure l params body
      rw [hx, expr, expr, expr_relabelled hr hfns false body]
  | .call l f args => by
      obtain ⟨l', hx⟩ := hr.call l f args
      simp only [hx, expr, Functions.resolve_relabelled hr hfns, List.isEmpty_map]
      cases fns.resolve f with
      | error fault => rfl
      | ok fn =>
          change (exprList fns' (h fn).name 0 (args.map g) >>= fun rest => pure (parenthesized _ ((h fn).name ++ rest))) = _
          rw [exprList_relabelled hr hfns, hr.name]
          rfl

theorem exprList_relabelled (hr : Relabels ρ g h) (hfns : ∀ f, fns'[ρ f]? = fns[f]?.map h) (callee : Bytes) (i : Nat) :
    (xs : List Expr) → exprList fns' callee i (xs.map g) = exprList fns callee i xs
  | [] => by rw [List.map_nil, exprList, exprList]
  | x :: xs => by
      rw [List.map_cons, exprList, exprList, expr_relabelled hr hfns true x, exprList_relabelled hr hfns callee (i + 1) xs]

end

theorem function_relabelled (hr : Relabels ρ g h) (hfns : ∀ f, fns'[ρ f]? = fns[f]?.map h) (f : FuncId) :
    function fns' (ρ f) = function fns f := by
  simp only [function, Functions.resolve_relabelled hr hfns]
  cases fns.resolve f with
  | error fault => rfl
  | ok fn =>
      change (if (h fn).kind = .custom then _ else _) = (if fn.kind = .custom then _ else _)
      simp only [hr.kind, hr.name, hr.params, hr.body, expr_relabelled hr hfns]

theorem functionList_relabelled (hr : Relabels ρ g h) (hfns : ∀ f, fns'[ρ f]? = fns[f]?.map h)
    (entries : List (FuncId × Function)) :
    functionList fns' (entries.map (Prod.map ρ h)) = functionList fns entries := by
  induction entries with
  | nil => rfl
  | cons entry entries ih =>
      simp only [List.map_cons, Prod.map, functionList, function_relabelled hr hfns, hr.name, ih]

end Print

theorem Functions.resolve_map (hr : Relabels id g h) (f : FuncId) :
    Functions.resolve (fns.map h) f = (fns.resolve f).map h :=
  resolve_relabelled hr (fun _ => Array.getElem?_map) f

namespace Walking

def HidesUses (follow : Bool) (g : Expr → Expr) : Prop :=
  follow = true ∨ ∀ l x, ∃ l', g (.relocated l x) = .relocated l' (g x)

variable {follow : Bool} {enter : FuncId → Walking Unit}

mutual

theorem visit_relabelled (hr : Relabels id g h) (hkeep : HidesUses follow g) : (x : Expr) →
    visit follow enter (g x) = visit follow enter x
  | .hole => by rw [hr.hole]
  | .number l value => by
      obtain ⟨l', hx⟩ := hr.number l value
      rw [hx, visit, visit]
  | .text l value => by
      obtain ⟨l', hx⟩ := hr.text l value
      rw [hx, visit, visit]
  | .var l name => by
      obtain ⟨l', hx⟩ := hr.var l name
      rw [hx, visit, visit]
  | .relocated l x => by
      have ih := visit_relabelled hr hkeep x
      -- a walk that does not look into uses of variables sees whether they are there
      obtain rfl | hkeep := hkeep
      · obtain hx | ⟨l', hx⟩ := hr.relocated l x
        · rw [hx, visit, if_pos rfl, ih]
        · rw [hx, visit, visit, ih]
      · obtain ⟨l', hx⟩ := hkeep l x
        rw [hx, visit, visit, ih]
  | .closure l params body => by
      obtain ⟨l', hx⟩ := hr.closure l params body
      rw [hx, visit, visit, visit_relabelled hr hkeep body]
  | .call l f args => by
      obtain ⟨l', hx⟩ := hr.call l f args
      rw [hx, visit, visit, visitList_relabelled hr hkeep args, id]

theorem visitList_relabelled (hr : Relabels id g h) (hkeep : HidesUses follow g) : (xs : List Expr) →
    visitList follow enter (xs.map g) = visitList follow enter xs
  | [] => rfl
  | x :: xs => by rw [List.map_cons, visitList, visitList, visit_relabelled hr hkeep x, visitList_relabelled hr hkeep xs]

end

theorem enter_relabelled (hr : Relabels id g h) (hkeep : HidesUses follow g) (depth : Nat) (f : FuncId) :
    Walking.enter (fns.map h) follow depth f = Walking.enter fns follow depth f := by
  induction depth generalizing f with
  | zero => rfl
  | succ depth ih =>
      simp only [Walking.enter, Functions.resolve_map hr, funext ih]
      cases fns.resolve f with
      | error fault => rfl
      | ok fn => simp only [Except.map, hr.kind, hr.body, visit_relabelled hr hkeep]

end Walking

theorem Expr.dependencies_relabelled (hr : Relabels id g h) {follow : Bool} (hkeep : Walking.HidesUses follow g)
    (fns : Functions) (x : Expr) : (g x).dependencies (fns.map h) follow = x.dependencies fns follow := by
  simp only [dependencies, Walking.visit_relabelled hr hkeep, Array.size_map,
    funext (Walking.enter_relabelled hr hkeep (fns.size + 1))]

namespace Emitting

variable {σ : Type} [LetterSource σ]

omit [LetterSource σ] in
theorem resolve_relabelled (hr : Relabels id g h) (f : FuncId) :
    resolve (σ := σ) (fns.map h) f = h <$> resolve fns f := by
  simp only [resolve, Functions.resolve_map hr]
  cases fns.resolve f <;> rfl

mutual

theorem expr_relabelled (hr : Relabels id g h) : (x : Expr) →
    expr (σ := σ) (fns.map h) (g x) = expr fns x
  | .hole => by rw [hr.hole, expr, expr]
  | .number l value => by
      obtain ⟨l', hx⟩ := hr.number l value
      rw [hx, expr, expr]
  | .text l value => by
      obtain ⟨l', hx⟩ := hr.text l value
      rw [hx, expr, expr]
  | .var l name => by
      obtain ⟨l', hx⟩ := hr.var l name
      rw [hx, expr, expr]
  | .relocated l x => by
      obtain hx | ⟨l', hx⟩ := hr.relocated l x
      · rw [hx, expr, expr_relabelled hr x]
      · rw [hx, expr, expr, expr_relabelled hr x]
  | .closure l params body => by
      obtain ⟨l', hx⟩ := hr.closure l params body
      rw [hx, expr, expr, expr_relabelled hr body]
  | .call l f args => by
      obtain ⟨l', hx⟩ := hr.call l f args
      simp only [hx, expr, id, resolve_relabelled hr, bind_map_left, hr.kind, hr.operation, hr.name,
        exprList_relabelled hr]

theorem exprList_relabelled (hr : Relabels id g h) (callee : Bytes) (i : Nat) :
    (xs : List Expr) → exprList (σ := σ) (fns.map h) callee i (xs.map g) = exprList fns callee i xs
  | [] => by rw [List.map_nil, exprList, exprList]
  | x :: xs => by
      rw [List.map_cons, exprList, exprList, expr_relabelled hr x, exprList_relabelled hr callee (i + 1) xs]

end

theorem function_relabelled (hr : Relabels id g h) (fn : Function) :
    function (σ := σ) (fns.map h) (h fn) = function fns fn := by
  simp only [function, hr.kind, hr.name, hr.params, hr.operation, hr.body, expr_relabelled hr]

theorem writeFunction_relabelled (hr : Relabels id g h) (f : FuncId) :
    writeFunction (σ := σ) (fns.map h) f = writeFunction fns f := by
  simp only [writeFunction, resolve_relabelled hr, bind_map_left, function_relabelled hr]

theorem program_relabelled (hr : Relabels id g h) (entry : Bytes)
    (fs : List FuncId) : program (σ := σ) (fns.map h) entry fs = program fns entry fs := by
  induction fs with
  | nil => rfl
  | cons f fs ih =>
      simp only [program, resolve_relabelled hr, bind_map_left, hr.name, writeFunction_relabelled hr, ih]

end Emitting

end Polish
