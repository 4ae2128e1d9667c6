import Polish.Proofs.Casts
import Polish.Proofs.Emission.Template
import Mathlib.Data.List.Dedup
import Mathlib.Data.List.Lattice

namespace Polish

theorem union_eq_append {α : Type} [DecidableEq α] (l l' : List α) :
    ∃ new, l ∪ l' = new ++ l' ∧ ∀ a, a ∈ new ↔ a ∈ l ∧ a ∉ l' := by
  induction l with
  | nil => exact ⟨[], rfl, by simp⟩
  | cons b l ih =>
      obtain ⟨new, hunion, hnew⟩ := ih
      rw [List.cons_union]
      by_cases hb : b ∈ l ∪ l'
      · refine ⟨new, by rw [List.insert_of_mem hb, hunion], fun a => ?_⟩
        rw [List.mem_union_iff] at hb
        grind
      · refine ⟨b :: new, by rw [List.insert_of_not_mem hb, hunion, List.cons_append], fun a => ?_⟩
        rw [List.mem_union_iff] at hb
        grind

theorem Sorting.sort_eq_iff {xs ys : List Bytes} : sort Bytes.le xs = sort Bytes.le ys ↔ xs.Perm ys := by
  have hperm (zs : List Bytes) := List.perm_insertionSort (fun a b => Bytes.le a b = true) zs
  rw [sort_eq_insertionSort, sort_eq_insertionSort]
  constructor
  · intro h
    exact (hperm xs).symm.trans (h ▸ hperm ys)
  · intro h
    have hsorted (zs : List Bytes) := List.pairwise_insertionSort (fun a b => Bytes.le a b = true) zs
    refine List.Perm.eq_of_pairwise (fun a b _ _ => Bytes.le_antisymm) (hsorted xs) (hsorted ys) ?_
    exact (hperm xs).trans (h.trans (hperm ys).symm)

namespace Expr

mutual

/-- The functions that an expression is found to call, up to the first cause for which there is no code. -/
def met (fns : Functions) : Expr → List FuncId
  | .hole | .number _ _ | .text _ _ | .var _ _ => []
  | .relocated _ x => met fns x
  | .closure _ _ body => met fns body
  | .call _ f args => match fns.resolve f with
    | .error _ => []
    | .ok fn => if fn.kind = .native && fn.operation = .call then [] else f :: metList fns args

def metList (fns : Functions) : List Expr → List FuncId
  | [] => []
  | x :: xs => met fns x ++ if (flaw? fns x).isSome then [] else metList fns xs

end

mutual

theorem met_eq_callees {fns : Functions} : ∀ x : Expr, x.flaw? fns = none → x.met fns = x.callees
  | .hole, h => by cases h
  | .number _ _, _ | .text _ _, _ | .var _ _, _ => rfl
  | .relocated _ x, h => met_eq_callees x h
  | .closure _ _ body, h => met_eq_callees body (Option.map_eq_none_iff.1 h)
  | .call l f args, h => by
      have hcallees : (Expr.call l f args).callees = f :: calleesList args := rfl
      rw [flaw?] at h
      rw [met, hcallees]
      cases hf : fns.resolve f with
      | error fault => rw [hf] at h; cases h
      | ok fn =>
          rw [hf] at h
          dsimp only at h ⊢
          split at h
          · cases h
          · rename_i happ
            rw [if_neg happ, metList_eq_callees args h]

theorem metList_eq_callees {fns : Functions} {callee : Bytes} {i : Nat} :
    ∀ xs : List Expr, flawList? fns callee i xs = none → metList fns xs = calleesList xs
  | [], _ => rfl
  | x :: xs, h => by
      obtain ⟨hfirst, hrest⟩ := Option.or_eq_none_iff.1 h
      have hx := Option.map_eq_none_iff.1 hfirst
      rw [metList, hx, Option.isSome_none, if_neg Bool.false_ne_true, calleesList_cons, met_eq_callees x hx,
        metList_eq_callees xs hrest]

end

mutual

theorem met_isPrefix (fns : Functions) : ∀ x : Expr, x.met fns <+: x.callees
  | .hole | .number _ _ | .text _ _ | .var _ _ => List.nil_prefix
  | .relocated _ x => met_isPrefix fns x
  | .closure _ _ body => met_isPrefix fns body
  | .call l f args => by
      have hcallees : (Expr.call l f args).callees = f :: calleesList args := rfl
      rw [met, hcallees]
      split
      · exact List.nil_prefix
      · split
        · exact List.nil_prefix
        · exact List.cons_prefix_cons.2 ⟨rfl, metList_isPrefix fns args⟩

theorem metList_isPrefix (fns : Functions) : ∀ xs : List Expr, metList fns xs <+: calleesList xs
  | [] => List.nil_prefix
  | x :: xs => by
      rw [metList, calleesList_cons]
      cases hx : x.flaw? fns with
      | some halt =>
          rw [Option.isSome_some, if_pos rfl, List.append_nil]
          exact (met_isPrefix fns x).trans (List.prefix_append _ _)
      | none =>
          rw [Option.isSome_none, if_neg Bool.false_ne_true, met_eq_callees x hx]
          exact (List.prefix_append_right_inj _).2 (metList_isPrefix fns xs)

end

mutual

theorem resolve_of_mem_met {fns : Functions} {g : FuncId} :
    ∀ x : Expr, g ∈ x.met fns → ∃ gn, fns.resolve g = .ok gn
  | .hole, h | .number _ _, h | .text _ _, h | .var _ _, h => by cases h
  | .relocated _ x, h => resolve_of_mem_met x h
  | .closure _ _ body, h => resolve_of_mem_met body h
  | .call _ f args, h => by
      rw [met] at h
      split at h
      · cases h
      · rename_i fn hf
        split at h
        · cases h
        · rcases List.mem_cons.1 h with rfl | h
          · exact ⟨fn, hf⟩
          · exact resolve_of_mem_metList args h

theorem resolve_of_mem_metList {fns : Functions} {g : FuncId} :
    ∀ xs : List Expr, g ∈ metList fns xs → ∃ gn, fns.resolve g = .ok gn
  | [], h => by cases h
  | x :: xs, h => by
      rw [metList] at h
      rcases List.mem_append.1 h with h | h
      · exact resolve_of_mem_met x h
      · split at h
        · cases h
        · exact resolve_of_mem_metList xs h

end

end Expr

def Function.met (fns : Functions) (fn : Function) : List FuncId := match fn.kind with
  | .custom => fn.body.met fns
  | _ => []

namespace Functions

def met (fns : Functions) (f : FuncId) : List FuncId := match fns[f]? with
  | some fn => fn.met fns
  | none => []

def refusal? (fns : Functions) (f : FuncId) : Option (Halt (Failure Uncodable)) := match fns.resolve f with
  | .error fault => some (.fault fault)
  | .ok fn => fn.flaw? fns

def unlinked (fns : Functions) (fs : List FuncId) : List Bytes :=
  let absent := (fs.flatMap fns.callees).dedup.filter (!fs.contains ·)
  Sorting.sort Bytes.le (absent.filterMap fun f => fns[f]?.map (·.name))

variable {fns : Functions} {f g : FuncId}

theorem met_isPrefix (fns : Functions) (f : FuncId) : fns.met f <+: fns.callees f := by
  unfold met callees Function.met Function.callees
  cases fns[f]? with
  | none => exact List.nil_prefix
  | some fn =>
      dsimp only
      cases fn.kind with
      | pending | native | other => exact List.nil_prefix
      | custom => exact Expr.met_isPrefix fns fn.body

theorem met_eq_callees (h : fns.refusal? f = none) : fns.met f = fns.callees f := by
  unfold refusal? at h
  cases hf : fns.resolve f with
  | error fault => rw [hf] at h; cases h
  | ok fn =>
      rw [hf] at h
      simp only [met, callees, getElem?_of_resolve hf]
      dsimp only [Function.flaw?] at h
      unfold Function.met Function.callees
      cases hk : fn.kind with
      | pending | native | other => rfl
      | custom =>
          rw [hk] at h
          exact Expr.met_eq_callees fn.body (Option.map_eq_none_iff.1 h)

theorem met_eq_nil {fault : Fault} (h : fns.resolve f = .error fault) : fns.met f = [] := by
  unfold resolve at h
  unfold met
  cases hf : fns[f]? with
  | none => rfl
  | some fn =>
      rw [hf] at h
      dsimp only [Function.met] at h ⊢
      split at h
      · rename_i hk
        rw [hk]
      · cases h

theorem getElem?_of_mem_met (h : g ∈ fns.met f) : ∃ gn : Function, fns[g]? = some gn := by
  unfold met Function.met at h
  split at h
  · split at h
    · obtain ⟨gn, hg⟩ := Expr.resolve_of_mem_met _ h
      exact ⟨gn, getElem?_of_resolve hg⟩
    · cases h
  · cases h

end Functions

namespace Emitting

variable {σ : Type}

/-- The emitter refers to some functions, met in this order, besides those that it referred to at the start. -/
def Refers (start : List FuncId) (e : Emitter σ) (fs : List FuncId) : Prop := e.referenced = fs.reverse ∪ start

theorem refers_refer (start : List FuncId) (f : FuncId) : Adds (Refers (σ := σ) start) (refer f) [f] := by
  intro e before h
  unfold Refers at h ⊢
  rw [List.reverse_append, List.reverse_singleton, List.singleton_append, List.cons_union, ← h]
  rfl

variable [LetterSource σ]

mutual

theorem expr_refers (fns : Functions) (start : List FuncId) :
    ∀ x : Expr, Adds (Refers (σ := σ) start) (expr fns x) (x.met fns)
  | .hole | .number _ _ | .text _ _ | .var _ _ => adds_nil fun _ _ h => h
  | .relocated _ x => expr_refers fns start x
  | .closure _ _ body => adds_map (adds_within (expr_refers fns start body) .closure) _
  | .call _ f args => by
      rw [expr, Expr.met, resolve]
      cases fns.resolve f with
      | error fault => exact adds_nil fun _ _ h => h
      | ok fn =>
          simp only [pure_bind]
          by_cases happ : (decide (fn.kind = .native) && decide (fn.operation = .call)) = true
          · rw [if_pos happ, if_pos happ]
            exact adds_nil fun _ _ h => h
          · rw [if_neg happ, if_neg happ]
            have hidentify : Adds (Refers (σ := σ) start) (identify fn.name) [] := adds_nil fun _ _ h => h
            have hcallee := adds_map₂ (renders_refer f) (refers_refer start f) hidentify fun _ id => id
            have hrenders := renders_map₂ (renders_refer (σ := σ) f) (renders_identify fn.name) fun _ id => id
            have hcall := adds_map₂ hrenders hcallee (exprList_refers fns start fn.name 0 args) fun id codes =>
              id ++ utf8 "(" ++ List.intercalate (utf8 ",") codes ++ utf8 ")"
            simpa only [bind_assoc, pure_bind, Option.none_or, Option.isSome_none, Bool.false_eq_true, if_false,
              List.append_nil, List.singleton_append] using hcall

theorem exprList_refers (fns : Functions) (start : List FuncId) (callee : Bytes) : ∀ (i : Nat) (xs : List Expr),
    Adds (Refers (σ := σ) start) (exprList fns callee i xs) (Expr.metList fns xs)
  | _, [] => adds_nil fun _ _ h => h
  | i, x :: xs => by
      have hlist := adds_map₂ (renders_within (expr_renders fns x) (.argument callee i))
        (adds_within (expr_refers fns start x) _) (exprList_refers fns start callee (i + 1) xs)
        fun code codes => code :: codes
      rwa [Option.isSome_map] at hlist

end

theorem function_refers (fns : Functions) (start : List FuncId) (fn : Function) :
    Adds (Refers (σ := σ) start) (function fns fn) (fn.met fns) := by
  have hidentify : Adds (Refers (σ := σ) start) (identify fn.name) [] := adds_nil fun _ _ h => h
  unfold function Function.met
  cases fn.kind with
  | pending | other => exact adds_nil fun _ _ h => h
  | custom =>
      have hcode := adds_map₂ (renders_identify fn.name) hidentify
        (adds_within (expr_refers fns start fn.body) .body)
        fun id code => utf8 "function " ++ id ++ heading fn.params ++ code ++ utf8 "\x7d\n"
      exact hcode
  | native =>
      cases nativeCode? fn.operation with
      | none => exact adds_nil fun _ _ h => h
      | some code => exact adds_map hidentify _

structure Attempt (fns : Functions) (f : FuncId) (e e' : Emitter σ) : Prop where
  run : writeFunction fns f e = ending (fns.refusal? f) e'
  ids : e.ids.Grows e'.ids
  output : fns.refusal? f = none → ∀ id, e'.ids.Assigns id → e'.output = e.output ++ fns.code id f
  written : fns.refusal? f = none → e'.written = e.written.insert f
  refused : fns.refusal? f ≠ none → e'.output = e.output ∧ e'.written = e.written
  referenced : e'.referenced = (fns.met f).reverse ∪ e.referenced

theorem writeFunction_attempt (fns : Functions) (f : FuncId) (e : Emitter σ) : ∃ e', Attempt fns f e e' := by
  cases hf : fns.resolve f with
  | error fault =>
      have hflaw : fns.refusal? f = some (.fault fault) := by rw [Functions.refusal?, hf]
      have hrun : writeFunction fns f e = .error (.fault fault) e := by
        rw [writeFunction, resolve, hf]
        rfl
      refine ⟨e, ?_, .rfl, ?_, ?_, fun _ => ⟨rfl, rfl⟩, ?_⟩
      · rw [hrun, hflaw]
        rfl
      · simp [hflaw]
      · simp [hflaw]
      · rw [Functions.met_eq_nil hf]
        rfl
  | ok fn =>
      have hfn := Functions.getElem?_of_resolve hf
      have hflaw : fns.refusal? f = fn.flaw? fns := by rw [Functions.refusal?, hf]
      have hmet : fns.met f = fn.met fns := by rw [Functions.met, hfn]
      have hcode (id : Bytes → Bytes) : fns.code id f = fn.code fns id := by rw [Functions.code, hfn]
      have hrefers := function_refers fns e.referenced fn e [] rfl
      rcases function_renders fns fn e with ⟨halt, e₁, hsome, hrun, hleaves⟩ | ⟨code, e₁, hnone, hrun, hemits⟩
      · simp only [after, hrun] at hrefers
        rw [hsome] at hflaw
        refine ⟨e₁, ?_, hleaves.ids, ?_, ?_, fun _ => ⟨hleaves.output, hleaves.written⟩, hmet ▸ hrefers⟩
        · rw [writeFunction, bind_ok (resolve_ok hf e), bind_error hrun, hflaw]
          rfl
        · simp [hflaw]
        · simp [hflaw]
      · simp only [after, hrun] at hrefers
        rw [hnone] at hflaw
        refine ⟨{ e₁ with written := e₁.written.insert f, output := e₁.output ++ code }, ?_, hemits.ids, ?_, ?_,
          fun hrefused => absurd hflaw hrefused, hmet ▸ hrefers⟩
        · rw [writeFunction, bind_ok (resolve_ok hf e), bind_ok hrun, hflaw]
          rfl
        · intro _ id hid
          rw [hcode, ← hemits.code_eq id hid, ← hemits.output]
        · intro _
          rw [← hemits.written]

def attempts (fns : Functions) (fs : List FuncId) (e : Emitter σ) : Emitter σ :=
  fs.foldl (fun e f => after (writeFunction fns f) e) e

def successes (fns : Functions) (fs : List FuncId) : List FuncId := fs.filter fun f => (fns.refusal? f).isNone

omit [LetterSource σ] in
theorem after_ending {stage : Emitting σ Unit} {flaw : Option (Halt (Failure Uncodable))} {e e' : Emitter σ}
    (h : stage e = ending flaw e') : after stage e = e' := by
  rw [after, h]
  cases flaw with
  | none => rfl
  | some halt => rfl

structure Attempts (fns : Functions) (fs : List FuncId) (e e' : Emitter σ) : Prop where
  ids : e.ids.Grows e'.ids
  output : ∀ id, e'.ids.Assigns id → e'.output = e.output ++ (successes fns fs).flatMap (fns.code id)
  written : ∀ f, f ∈ e'.written ↔ f ∈ e.written ∨ f ∈ successes fns fs
  referenced : e'.referenced = (fs.flatMap fns.met).reverse ∪ e.referenced

theorem attempts_attempts (fns : Functions) (fs : List FuncId) (e : Emitter σ) :
    Attempts fns fs e (attempts fns fs e) := by
  induction fs generalizing e with
  | nil => exact ⟨.rfl, fun _ _ => (List.append_nil _).symm, fun _ => by simp [attempts, successes], rfl⟩
  | cons f fs ih =>
      obtain ⟨e₁, hfirst⟩ := writeFunction_attempt fns f e
      have hrest := ih e₁
      have hstep : attempts fns (f :: fs) e = attempts fns fs e₁ := by
        rw [attempts, List.foldl_cons, after_ending hfirst.run]
        rfl
      rw [hstep]
      constructor
      · exact hfirst.ids.trans hrest.ids
      · intro id hid
        rw [hrest.output id hid]
        by_cases hflaw : fns.refusal? f = none
        · simp [hfirst.output hflaw id (hid.mono hrest.ids), successes, hflaw]
        · simp [(hfirst.refused hflaw).1, successes, hflaw]
      · intro g
        rw [hrest.written]
        by_cases hflaw : fns.refusal? f = none
        · simp [hfirst.written hflaw, successes, hflaw, or_assoc, or_left_comm]
        · simp [(hfirst.refused hflaw).2, successes, hflaw]
      · rw [hrest.referenced, hfirst.referenced, List.flatMap_cons, List.reverse_append]
        exact List.foldr_append.symm

end Emitting

namespace Emitter

variable {σ : Type} {fns : Functions}

/-- Whether functions that are referred to besides others make a difference to what is missing. -/
theorem missing_eq_iff {e e' : Emitter σ} {fs : List FuncId} (hwritten : e'.written = e.written)
    (hreferenced : e'.referenced = fs.reverse ∪ e.referenced) (htable : ∀ g ∈ fs, ∃ gn : Function, fns[g]? = some gn) :
    e'.missing fns = e.missing fns ↔ ∀ g ∈ fs, g ∈ e.written ∨ g ∈ e.referenced := by
  obtain ⟨new, hunion, hnew⟩ := union_eq_append fs.reverse e.referenced
  have hcancel {α : Type} (l l' : List α) : (l ++ l').Perm l' ↔ l = [] := by
    refine ⟨fun h => List.eq_nil_of_length_eq_zero ?_, fun h => by rw [h]; rfl⟩
    have hlength := h.length_eq
    rw [List.length_append] at hlength
    omega
  simp only [missing, Sorting.sort_eq_iff, hreferenced, hunion, hwritten, List.filter_append, List.filterMap_append,
    hcancel, List.filterMap_eq_nil_iff, List.mem_filter, Option.map_eq_none_iff]
  constructor
  · intro h g hg
    by_cases hold : g ∈ e.written ∨ g ∈ e.referenced
    · exact hold
    · obtain ⟨gn, hgn⟩ := htable g hg
      have hmem : g ∈ new := (hnew g).2 ⟨List.mem_reverse.2 hg, fun hr => hold (.inr hr)⟩
      have hnone := h g ⟨hmem, by simpa using fun hw => hold (.inl hw)⟩
      rw [hgn] at hnone
      cases hnone
  · rintro h g ⟨hg, habsent⟩
    obtain ⟨hmem, hold⟩ := (hnew g).1 hg
    rcases h g (List.mem_reverse.1 hmem) with hw | hr
    · simp [hw] at habsent
    · exact absurd hr hold

/-- What is missing is what written functions call, unless something else is referred to. -/
theorem missing_eq_unlinked_iff {e : Emitter σ} {done : List FuncId} (hwritten : ∀ f, f ∈ e.written ↔ f ∈ done)
    (hnodup : e.referenced.Nodup) (hcalled : ∀ f ∈ done, ∀ g ∈ fns.callees f, g ∈ e.referenced)
    (htable : ∀ g ∈ e.referenced, ∃ gn : Function, fns[g]? = some gn) :
    e.missing fns = fns.unlinked done ↔ ∀ g ∈ e.referenced, g ∈ done ∨ ∃ f ∈ done, g ∈ fns.callees f := by
  let absent := e.referenced.filter (!e.written.contains ·)
  let called := (done.flatMap fns.callees).dedup.filter (!done.contains ·)
  have habsent (g : FuncId) : g ∈ absent ↔ g ∈ e.referenced ∧ g ∉ done := by simp [absent, hwritten]
  have hcalledMem (g : FuncId) : g ∈ called ↔ (∃ f ∈ done, g ∈ fns.callees f) ∧ g ∉ done := by simp [called]
  have hsub : called ⊆ absent := by
    intro g hg
    obtain ⟨⟨f, hf, hgf⟩, hnot⟩ := (hcalledMem g).1 hg
    exact (habsent g).2 ⟨hcalled f hf g hgf, hnot⟩
  have hnames : ∀ gs : List FuncId, gs ⊆ absent → (gs.filterMap fun f => fns[f]?.map (·.name)).length = gs.length := by
    intro gs hgs
    rw [List.length_filterMap_eq_countP, List.countP_eq_length]
    intro g hg
    obtain ⟨gn, hgn⟩ := htable g ((habsent g).1 (hgs hg)).1
    rw [hgn]
    rfl
  have hcalledNodup : called.Nodup := (List.nodup_dedup _).filter _
  have habsentNodup : absent.Nodup := hnodup.filter _
  change Sorting.sort _ (absent.filterMap _) = Sorting.sort _ (called.filterMap _) ↔ _
  rw [Sorting.sort_eq_iff]
  constructor
  · intro hperm g hg
    by_cases hdone : g ∈ done
    · exact .inl hdone
    -- as many are called as are absent, so that they are the same
    have hlength := hperm.length_eq
    rw [hnames absent (List.Subset.refl _), hnames called hsub] at hlength
    have hsame : called.Perm absent := (List.subperm_of_subset hcalledNodup hsub).perm_of_length_le
      (Nat.le_of_eq hlength)
    exact .inr ((hcalledMem g).1 (hsame.mem_iff.2 ((habsent g).2 ⟨hg, hdone⟩))).1
  · intro h
    refine List.Perm.filterMap _ ((List.perm_ext_iff_of_nodup habsentNodup hcalledNodup).2 fun g => ?_)
    rw [habsent, hcalledMem]
    constructor
    · rintro ⟨hg, hnot⟩
      exact ⟨(h g hg).resolve_left hnot, hnot⟩
    · rintro ⟨⟨f, hf, hgf⟩, hnot⟩
      exact ⟨hcalled f hf g hgf, hnot⟩

end Emitter

namespace Emitting

variable {σ : Type} [LetterSource σ]

theorem mem_successes {fns : Functions} {fs : List FuncId} {f : FuncId} :
    f ∈ successes fns fs ↔ f ∈ fs ∧ fns.refusal? f = none := by
  simp [successes]

/-- The account that is kept of attempts to write functions. Whether one fails does not depend on those before. One
that fails puts nothing out and writes nothing, but refers to the functions that it came across, which are the first of
those that its body calls, so that what is missing stays the same exactly if each of these is written or referred to
already. After any attempts the output is the code of the functions that have some, in order, and what is missing is
what they call, themselves apart, exactly if the failed attempts came across nothing else. -/
theorem attempts_account (fns : Functions) :
    (∀ (e : Emitter σ) (f : FuncId), ∃ e' : Emitter σ, writeFunction fns f e = ending (fns.refusal? f) e' ∧
      (fns.refusal? f ≠ none →
        e'.output = e.output ∧ e'.written = e.written ∧ fns.met f <+: fns.callees f ∧
        (∀ g, g ∈ e'.referenced ↔ g ∈ e.referenced ∨ g ∈ fns.met f) ∧
        (e'.missing fns = e.missing fns ↔ ∀ g ∈ fns.met f, g ∈ e.written ∨ g ∈ e.referenced))) ∧
    ∀ (source : σ) (fs : List FuncId),
      let e := attempts fns fs { ids := { source } }
      let done := successes fns fs
      e.output = done.flatMap (fns.code e.ids.assigned) ∧
      (∀ f, f ∈ e.written ↔ f ∈ done) ∧
      (∀ name, name ∈ e.missing fns ↔ ∃ f ∈ fs, ∃ g ∈ fns.met f, g ∉ done ∧ fns.nameOf g = name) ∧
      (e.missing fns = fns.unlinked done ↔
        ∀ f ∈ fs, f ∉ done → ∀ g ∈ fns.met f, g ∈ done ∨ ∃ d ∈ done, g ∈ fns.callees d) := by
  constructor
  · intro e f
    obtain ⟨e', hattempt⟩ := writeFunction_attempt fns f e
    refine ⟨e', hattempt.run, fun hrefused => ?_⟩
    obtain ⟨houtput, hwritten⟩ := hattempt.refused hrefused
    refine ⟨houtput, hwritten, fns.met_isPrefix f, ?_, ?_⟩
    · intro g
      rw [hattempt.referenced, List.mem_union_iff, List.mem_reverse, or_comm]
    · exact Emitter.missing_eq_iff hwritten hattempt.referenced fun g => Functions.getElem?_of_mem_met
  · intro source fs e done
    have hattempts := attempts_attempts fns fs { ids := { source } }
    have hdistinct : e.ids.Distinct := hattempts.ids.distinct ⟨List.nodup_nil, List.nodup_nil⟩
    have hwritten (f : FuncId) : f ∈ e.written ↔ f ∈ done := by simp [e, hattempts.written, done]
    have hreferenced (g : FuncId) : g ∈ e.referenced ↔ ∃ f ∈ fs, g ∈ fns.met f := by simp [e, hattempts.referenced]
    have hmet (f : FuncId) (hf : f ∈ done) : fns.met f = fns.callees f :=
      Functions.met_eq_callees (mem_successes.1 hf).2
    have hnodup : e.referenced.Nodup := by
      rw [hattempts.referenced]
      exact List.Nodup.union _ List.nodup_nil
    have htable : ∀ g ∈ e.referenced, ∃ gn : Function, fns[g]? = some gn := by
      intro g hg
      obtain ⟨f, -, hgf⟩ := (hreferenced g).1 hg
      exact Functions.getElem?_of_mem_met hgf
    refine ⟨?_, hwritten, ?_, ?_⟩
    · exact hattempts.output _ (Identifiers.assigns_assigned hdistinct)
    · intro name
      rw [Emitter.mem_missing]
      constructor
      · rintro ⟨g, hg, hnew, gn, hgn, rfl⟩
        obtain ⟨f, hf, hgf⟩ := (hreferenced g).1 hg
        exact ⟨f, hf, g, hgf, fun hdone => hnew ((hwritten g).2 hdone), Functions.nameOf_eq hgn⟩
      · rintro ⟨f, hf, g, hgf, hnew, rfl⟩
        have hg := (hreferenced g).2 ⟨f, hf, hgf⟩
        obtain ⟨gn, hgn⟩ := htable g hg
        exact ⟨g, hg, fun hmem => hnew ((hwritten g).1 hmem), gn, hgn, (Functions.nameOf_eq hgn).symm⟩
    · have hcalled : ∀ f ∈ done, ∀ g ∈ fns.callees f, g ∈ e.referenced := by
        intro f hf g hg
        exact (hreferenced g).2 ⟨f, (mem_successes.1 hf).1, (hmet f hf).symm ▸ hg⟩
      rw [Emitter.missing_eq_unlinked_iff hwritten hnodup hcalled htable]
      constructor
      · intro h f hf _ g hg
        exact h g ((hreferenced g).2 ⟨f, hf, hg⟩)
      · intro h g hg
        obtain ⟨f, hf, hgf⟩ := (hreferenced g).1 hg
        by_cases hdone : f ∈ done
        · exact .inr ⟨f, hdone, hmet f hdone ▸ hgf⟩
        · exact h f hf hdone g hgf

def unwritable : Functions :=
  #[{ name := utf8 "f", kind := .custom, body := .call {} 1 [.call {} 2 []] },
    { name := utf8 "g", params := [⟨utf8 "n", .any⟩], kind := .custom, body := .text {} [] },
    { name := utf8 "apply", kind := .native, operation := .call }]

theorem attempts_account_unwritable :
    unwritable.refusal? 0 ≠ none ∧
    ∃ e' : Emitter Cycle, writeFunction unwritable 0 { ids := { source := ⟨#[], 0⟩ } } =
        ending (unwritable.refusal? 0) e' ∧
      e'.output = [] ∧ e'.written = [] ∧ e'.missing unwritable ≠ [] := by
  have hrefusal : unwritable.refusal? 0 ≠ none := Option.some_ne_none _
  obtain ⟨e', hrun, hrefused⟩ := (attempts_account (σ := Cycle) unwritable).1 { ids := { source := ⟨#[], 0⟩ } } 0
  obtain ⟨houtput, hwritten, -, -, hmissing⟩ := hrefused hrefusal
  have hmet : unwritable.met 0 = [1] := rfl
  refine ⟨hrefusal, e', hrun, houtput, hwritten, fun hnil => ?_⟩
  simpa [hmet] using hmissing.1 hnil

/-- An attempt that fails, and after it a function is missing that no written code calls. -/
theorem writeFunction_misses :
    ∃ (failure : Failure Uncodable) (e' : Emitter Cycle),
      writeFunction unwritable 0 { ids := { source := ⟨#[], 0⟩ } } = .error (.failure failure) e' ∧
      ({ ids := { source := ⟨#[], 0⟩ } } : Emitter Cycle).missing unwritable = [] ∧ e'.written = [] ∧
      e'.missing unwritable = [utf8 "g"] :=
  ⟨_, _, rfl, rfl, rfl, rfl⟩

end Emitting

end Polish
