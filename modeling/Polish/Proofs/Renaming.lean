import Polish.Proofs.Emission
import Polish.Proofs.Printing

namespace Polish

namespace Expr

variable (ρ : FuncId → FuncId)

mutual

def renamed : Expr → Expr
  | .hole => .hole
  | .number l value => .number l value
  | .text l value => .text l value
  | .var l name => .var l name
  | .relocated l x => .relocated l (renamed x)
  | .closure l params body => .closure l params (renamed body)
  | .call l f args => .call l (ρ f) (renamedList args)

def renamedList : List Expr → List Expr
  | [] => []
  | x :: xs => renamed x :: renamedList xs

end

theorem renamedList_eq (xs : List Expr) : renamedList ρ xs = xs.map (renamed ρ) :=
  Companion.eq_map rfl (fun _ _ => rfl) xs

mutual

theorem renamed_id : ∀ x : Expr, x.renamed id = x
  | .hole | .number _ _ | .text _ _ | .var _ _ => rfl
  | .relocated _ x => by rw [renamed, renamed_id x]
  | .closure _ _ body => by rw [renamed, renamed_id body]
  | .call _ f args => by rw [renamed, renamedList_id args, id]

theorem renamedList_id : ∀ xs : List Expr, renamedList id xs = xs
  | [] => rfl
  | x :: xs => by rw [renamedList, renamed_id x, renamedList_id xs]

end

mutual

theorem callees_renamed : ∀ x : Expr, (x.renamed ρ).callees = x.callees.map ρ
  | .hole | .number _ _ | .text _ _ | .var _ _ => rfl
  | .relocated _ x => callees_renamed x
  | .closure _ _ body => callees_renamed body
  | .call _ f args => congrArg (ρ f :: ·) (calleesList_renamed args)

theorem calleesList_renamed : ∀ xs : List Expr, calleesList (renamedList ρ xs) = (calleesList xs).map ρ
  | [] => rfl
  | x :: xs => by
      rw [renamedList, calleesList_cons, calleesList_cons, callees_renamed x, calleesList_renamed xs, List.map_append]

end

mutual

theorem callees_unlocated : ∀ x : Expr, x.unlocated.callees = x.callees
  | .hole | .number _ _ | .text _ _ | .var _ _ => rfl
  | .relocated _ x => callees_unlocated x
  | .closure _ _ body => callees_unlocated body
  | .call _ f args => congrArg (f :: ·) (calleesList_unlocated args)

theorem calleesList_unlocated : ∀ xs : List Expr, calleesList (unlocatedList xs) = calleesList xs
  | [] => rfl
  | x :: xs => by rw [unlocatedList, calleesList_cons, calleesList_cons, callees_unlocated x, calleesList_unlocated xs]

end

/-- Legibility depends on the callees alone: their names are found at the other positions, with as many parameters. -/
theorem Legible.renamed {r r' : Registry} {names : List Bytes} {x : Expr} (h : x.Legible r names)
    (hr : ∀ name f, r.lookup name = some f → f ∈ x.callees → r'.lookup name = some (ρ f) ∧ r'.arity (ρ f) = r.arity f) :
    (x.renamed ρ).Legible r' names := by
  induction h with
  | number h => exact .number h
  | text hq hv => exact .text hq hv
  | bound hw hs => exact .bound hw hs
  | closure hp _ ih => exact .closure hp (ih hr)
  | @call _ l f args name hw hs hlookup hl _ ih =>
      have hcallees : (Expr.call l f args).callees = f :: args.flatMap callees := congrArg (f :: ·) (calleesList_eq args)
      rw [hcallees] at hr
      obtain ⟨hlookup', harity⟩ := hr name f hlookup List.mem_cons_self
      rw [Expr.renamed, renamedList_eq]
      refine .call hw hs hlookup' (by rw [List.length_map, hl, harity]) (List.forall_mem_map.2 fun x hx => ?_)
      exact ih x hx fun name g hg hmem => hr name g hg (List.mem_cons_of_mem f (List.mem_flatMap.2 ⟨x, hx, hmem⟩))

end Expr

def Function.renamed (ρ : FuncId → FuncId) (fn : Function) : Function := { fn with body := fn.body.renamed ρ }

theorem relabels_renamed (ρ : FuncId → FuncId) : Relabels ρ (Expr.renamed ρ) (Function.renamed ρ) where
  hole := by rw [Expr.renamed]
  number l value := ⟨l, by rw [Expr.renamed]⟩
  text l value := ⟨l, by rw [Expr.renamed]⟩
  var l name := ⟨l, by rw [Expr.renamed]⟩
  call l f args := ⟨l, by rw [Expr.renamed, Expr.renamedList_eq]⟩
  relocated l x := .inr ⟨l, by rw [Expr.renamed]⟩
  closure l params body := ⟨l, by rw [Expr.renamed]⟩
  name _ := rfl
  params _ := rfl
  kind _ := rfl
  operation _ := rfl
  body _ := rfl

theorem Function.mem_callees_renamed {ρ : FuncId → FuncId} {fn : Function} {g' : FuncId} :
    g' ∈ (fn.renamed ρ).body.callees ↔ ∃ g ∈ fn.body.callees, ρ g = g' := by
  rw [renamed, Expr.callees_renamed, List.mem_map]

namespace Print

variable {ρ : FuncId → FuncId} {fns fns' : Functions}

theorem functionList_renamed (hfns : ∀ f, fns'[ρ f]? = fns[f]?.map (Function.renamed ρ))
    (entries : List (FuncId × Function)) :
    functionList fns' (entries.map (Prod.map ρ (Function.renamed ρ))) = functionList fns entries :=
  functionList_relabelled (relabels_renamed ρ) hfns entries

end Print

end Polish
