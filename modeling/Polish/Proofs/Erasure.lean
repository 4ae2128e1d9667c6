import Polish.Proofs.Printing
import Polish.Proofs.Requests

namespace Polish

variable {fns : Functions}

theorem Functions.getElem?_unlocated (fns : Functions) (f : FuncId) :
    (fns.map Function.unlocated)[f]? = fns[f]?.map Function.unlocated := Array.getElem?_map

theorem Expr.dependencies_unlocated (fns : Functions) (follow : Bool) (x : Expr) :
    x.unlocated.dependencies (fns.map Function.unlocated) follow = x.dependencies fns follow :=
  dependencies_relabelled relabels_unlocated (.inr fun _ _ => ⟨{}, by rw [unlocated]⟩) fns x

theorem Emitting.program_unlocated {σ : Type} [LetterSource σ] (fns : Functions) (entry : Bytes) (fs : List FuncId) :
    program (σ := σ) (fns.map Function.unlocated) entry fs = program fns entry fs :=
  program_relabelled relabels_unlocated entry fs

theorem HasType.unlocated {self : Option FuncId} {scope : Scope} {x : Expr} {t : Ty} (h : HasType fns self scope x t) :
    HasType (fns.map Function.unlocated) self scope x.unlocated t := by
  have hget {f : FuncId} {fn : Function} (hf : fns[f]? = some fn) :
      (fns.map Function.unlocated)[f]? = some fn.unlocated := by rw [Functions.getElem?_unlocated, hf]; rfl
  induction h with
  | number => exact .number
  | text => exact .text
  | var h => exact .var h
  | relocated _ ih => exact .relocated ih
  | closure _ ih => exact .closure ih
  | native hf hk ho => exact .native (hget hf) hk ho
  | itself hf hk => exact .itself (hget hf) hk
  | call hf hk hne _ ih => exact .call (hget hf) hk hne ih

def Site.unlocated (site : Site) : Site := { site with arg := site.arg.unlocated }

theorem Functions.wants_unlocated (fns : Functions) (f : FuncId) :
    Functions.wants (fns.map Function.unlocated) f = fns.wants f := by
  unfold wants
  rw [getElem?_unlocated]
  cases fns[f]? with
  | none => rfl
  | some fn => rfl

namespace Expr

theorem zipWith_unlocated (scope : Scope) : ∀ (args : List Expr) (wants : List Ty),
    List.zipWith (Site.mk scope) (unlocatedList args) wants =
      (List.zipWith (Site.mk scope) args wants).map Site.unlocated
  | [], _ => rfl
  | _ :: _, [] => rfl
  | x :: xs, t :: ts => by
      rw [unlocatedList, List.zipWith_cons_cons, List.zipWith_cons_cons, List.map_cons, zipWith_unlocated scope xs ts]
      rfl

mutual

theorem sites_unlocated : ∀ (x : Expr) (scope : Scope),
    x.unlocated.sites (fns.map Function.unlocated) scope = (x.sites fns scope).map Site.unlocated
  | .hole, _ | .number _ _, _ | .text _ _, _ | .var _ _, _ => rfl
  | .relocated _ x, scope => sites_unlocated x scope
  | .closure _ params body, scope => sites_unlocated body (scope.bind params)
  | .call _ f args, scope => by
      simp only [unlocated, sites, Functions.wants_unlocated, zipWith_unlocated, sitesList_unlocated args scope,
        List.map_append]

theorem sitesList_unlocated : ∀ (xs : List Expr) (scope : Scope),
    sitesList (fns.map Function.unlocated) (unlocatedList xs) scope = (sitesList fns xs scope).map Site.unlocated
  | [], _ => rfl
  | x :: xs, scope => by
      simp only [unlocatedList, sitesList, sites_unlocated x scope, sitesList_unlocated xs scope, List.map_append]

end

theorem location_unlocated (x : Expr) : x.unlocated.location = {} := by cases x <;> rfl

end Expr

theorem Functions.sites_unlocated (fns : Functions) (f : FuncId) :
    Functions.sites (fns.map Function.unlocated) f = (fns.sites f).map Site.unlocated := by
  unfold sites
  rw [getElem?_unlocated]
  cases fns[f]? with
  | none => rfl
  | some fn => exact Expr.sites_unlocated fn.body _

def Diagnostic.unlocated (d : Diagnostic) : Diagnostic := { d with location := {} }

/-- What is reported does not depend on locations, except for where it stands. -/
theorem Mismatches.unlocated {sites : List Site} {ds : List Diagnostic} (h : Mismatches fns sites ds) :
    Mismatches (fns.map Function.unlocated) (sites.map Site.unlocated) (ds.map Diagnostic.unlocated) := by
  induction h with
  | nil => exact .nil
  | @casts site _ _ _ ht hc _ ih =>
      rw [List.map_cons]
      exact .casts ht.unlocated hc ih
  | @fails site t _ _ ht hc _ ih =>
      rw [List.map_cons, List.map_cons, Diagnostic.unlocated, ← site.arg.location_unlocated]
      exact .fails ht.unlocated hc ih

end Polish
