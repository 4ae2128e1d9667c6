import Polish.Proofs.Groups
import Polish.Proofs.Naming

namespace Polish

def Param.isSimple (p : Param) : Bool := p.ty.isSimple

namespace Expr

mutual

def isSimple : Expr → Bool
  | .hole | .number _ _ | .text _ _ | .var _ _ => true
  | .relocated _ x => isSimple x
  | .closure _ params body => params.all Param.isSimple && isSimple body
  | .call _ _ args => areSimple args

def areSimple : List Expr → Bool
  | [] => true
  | x :: xs => isSimple x && areSimple xs

end

theorem areSimple_iff {xs : List Expr} : areSimple xs = true ↔ ∀ x ∈ xs, x.isSimple = true :=
  Companion.all_iff rfl fun _ _ => rfl

end Expr

def Function.isSimple (fn : Function) : Bool := fn.params.all Param.isSimple && fn.body.isSimple

def Functions.isSimple (fns : Functions) : Bool := fns.toList.all Function.isSimple

theorem Functions.isSimple_function {fns : Functions} (h : fns.isSimple = true) {f : FuncId} {fn : Function}
    (hf : fns[f]? = some fn) : fn.params.all Param.isSimple = true ∧ fn.body.isSimple = true :=
  Bool.and_eq_true_iff.1 (List.all_eq_true.1 h fn (Array.mem_toList_iff.2 (Array.mem_of_getElem? hf)))

namespace Scope

variable {scope : Scope} {params : List Param}

def isSimple (scope : Scope) : Bool := scope.all fun binding => binding.2.isSimple

theorem isSimple_lookup (h : scope.isSimple = true) {name : Bytes} {t : Ty} (ht : scope.lookup name = some t) :
    t.isSimple = true := all_lookup h ht

theorem isSimple_nil : Scope.isSimple [] = true := rfl

theorem isSimple_bind (h : scope.isSimple = true) (hp : params.all Param.isSimple = true) :
    (scope.bind params).isSimple = true := all_bind h hp

end Scope

def Shown (entries : List Diagnostic) (l : Location) (p : Problem) : Prop :=
  ∃ e ∈ entries, e.location.path = l.path ∧ e.location.off = l.off ∧ e.problem = p

namespace Checker

variable {start : Report} {added : List Diagnostic} {c : Checker} {d : Diagnostic}

theorem record_of_mem (h : d.key ∈ c.reported) : c.record d = c := if_pos (List.contains_iff_mem.2 h)

theorem record_of_notMem (h : d.key ∉ c.reported) :
    c.record d = { c with reported := d.key :: c.reported, report := c.report.add d } :=
  if_neg fun hmem => h (List.contains_iff_mem.1 hmem)

theorem key_mem_record (c : Checker) (d : Diagnostic) : d.key ∈ (c.record d).reported := by
  by_cases h : d.key ∈ c.reported
  · rwa [record_of_mem h]
  · rw [record_of_notMem h]
    exact List.mem_cons_self

/-- A checker that has added entries about simple types to a report, and knows their keys. -/
structure Logged (start : Report) (added : List Diagnostic) (c : Checker) : Prop where
  entries : c.report.entries = start.entries ++ added
  reported : c.reported = (added.map (·.key)).reverse
  problems : ∀ d ∈ added, d.problem.isSimple = true

theorem logged_start (start : Report) : Logged start [] { report := start } :=
  ⟨(List.append_nil _).symm, rfl, List.forall_mem_nil _⟩

theorem Logged.add (h : c.Logged start added) (hnew : d.key ∉ c.reported) (hd : d.problem.isSimple = true) :
    (c.record d).Logged start (added ++ [d]) := by
  rw [record_of_notMem hnew]
  refine ⟨?_, ?_, ?_⟩
  · simp [Report.add, h.entries]
  · simp [h.reported]
  · rw [List.forall_mem_append, List.forall_mem_singleton]
    exact ⟨h.problems, hd⟩

theorem Logged.shown (h : c.Logged start added) {l : Location} {source target : Ty} {fatal : Bool}
    (hs : source.isSimple = true) (ht : target.isSimple = true)
    (hkey : (Diagnostic.mk l (.mismatch source target) fatal).key ∈ c.reported) :
    Shown added l (.mismatch source target) := by
  rw [h.reported, List.mem_reverse] at hkey
  obtain ⟨e, he, hkeys⟩ := List.mem_map.1 hkey
  simp only [Diagnostic.key, Prod.mk.injEq] at hkeys
  obtain ⟨hpath, hoff, htext⟩ := hkeys
  exact ⟨e, he, hpath, hoff, Problem.eq_mismatch_of_message hs ht (h.problems e he) htext⟩

theorem Logged.mem_reported {c' : Checker} {more : List Diagnostic} (h : c.Logged start added)
    (h' : c'.Logged start (added ++ more)) {key : Bytes × Int × Bytes} (hkey : key ∈ c.reported) :
    key ∈ c'.reported := by
  rw [h.reported, List.mem_reverse] at hkey
  rw [h'.reported, List.mem_reverse, List.map_append, List.mem_append]
  exact .inl hkey

/-- Reports one after the other: those that are left out have the keys of others. -/
theorem Logged.foldl (h : c.Logged start added) {ds : List Diagnostic} (hds : ∀ d ∈ ds, d.problem.isSimple = true) :
    ∃ more, List.Sublist more ds ∧ (ds.foldl record c).Logged start (added ++ more) ∧
      ∀ d ∈ ds, d.key ∈ (ds.foldl record c).reported := by
  induction ds generalizing c added with
  | nil => exact ⟨[], .slnil, by rwa [List.append_nil], List.forall_mem_nil _⟩
  | cons d ds ih =>
      obtain ⟨hd, hds⟩ := List.forall_mem_cons.1 hds
      rw [List.foldl_cons]
      by_cases hmem : d.key ∈ c.reported
      · obtain ⟨more, hsub, hlogged, hkeys⟩ := ih h hds
        rw [record_of_mem hmem]
        exact ⟨more, hsub.cons d, hlogged, List.forall_mem_cons.2 ⟨h.mem_reported hlogged hmem, hkeys⟩⟩
      · have hadd := h.add hmem hd
        obtain ⟨more, hsub, hlogged, hkeys⟩ := ih hadd hds
        have hkey := hadd.mem_reported hlogged (key_mem_record c d)
        rw [List.append_assoc] at hlogged
        exact ⟨d :: more, hsub.cons_cons d, hlogged, List.forall_mem_cons.2 ⟨hkey, hkeys⟩⟩

structure Simple (start : Report) (c : Checker) : Prop where
  results : ∀ f t, c.results.lookup f = some t → t.isSimple = true
  logged : ∃ added, c.Logged start added

theorem Simple.record (h : c.Simple start) (hd : d.problem.isSimple = true) : (c.record d).Simple start := by
  obtain ⟨added, hlogged⟩ := h.logged
  by_cases hmem : d.key ∈ c.reported
  · rwa [record_of_mem hmem]
  · refine ⟨?_, added ++ [d], hlogged.add hmem hd⟩
    rw [record_of_notMem hmem]
    exact h.results

theorem Simple.remember (h : c.Simple start) (f : FuncId) {t : Ty} (ht : t.isSimple = true) :
    Simple start { c with results := (f, t) :: c.results } := by
  obtain ⟨added, hlogged⟩ := h.logged
  refine ⟨fun g u hg => ?_, added, hlogged.entries, hlogged.reported, hlogged.problems⟩
  rw [List.lookup_cons] at hg
  split at hg
  · exact Option.some.inj hg ▸ ht
  · exact h.results g u hg

end Checker

namespace Checking

variable {fns : Functions} {start : Report}

theorem areSimple_map {params : List Param} (h : params.all Param.isSimple = true) :
    ∀ t ∈ params.map (·.ty), t.isSimple = true := by
  rw [List.forall_mem_map]
  exact List.all_eq_true.1 h

/-- Simple expressions have simple types, and what is reported of them is about simple types. -/
theorem discipline_simple (hfns : fns.isSimple = true) : Discipline fns True (·.isSimple = true)
    (fun scope x => scope.isSimple = true ∧ x.isSimple = true) (fun _ t => t.isSimple = true)
    (fun _ _ t => t.isSimple = true) (Gives (Checker.Simple start)) where
  toLogic := logic_gives fun _ _ hd hc => hc.record hd
  ofHole _ := trivial
  ofRelocated h := h
  ofClosure h := by
    obtain ⟨hparams, hbody⟩ := Bool.and_eq_true_iff.1 h.2
    exact ⟨Scope.isSimple_bind h.1 hparams, hbody⟩
  ofArgs h := fun x hx => ⟨h.1, Expr.areSimple_iff.1 h.2 x hx⟩
  ofCall _ _ := trivial
  toTypings := typings_sort (fun _ => rfl) (by simp [Ty.isSimple, Ty.areSimple_iff])
    (fun hx ht => Scope.isSimple_lookup hx.1 ht) (fun hx => areSimple_map (Bool.and_eq_true_iff.1 hx.2).1)
    (fun hg => areSimple_map (Functions.isSimple_function hfns hg).1) rfl rfl id
    fun hgot hwant => Bool.and_eq_true_iff.2 ⟨hgot, hwant⟩

theorem fit_of_isSimple (hfns : fns.isSimple = true) {f : FuncId} {fn : Function} (hf : fns[f]? = some fn) :
    (Scope.bind [] fn.params).isSimple = true ∧ fn.body.isSimple = true := by
  obtain ⟨hparams, hbody⟩ := Functions.isSimple_function hfns hf
  exact ⟨Scope.isSimple_bind Scope.isSimple_nil hparams, hbody⟩

theorem resultAt_simple (hfns : fns.isSimple = true) {depth : Nat} {active : List FuncId}
    (hroom : Room fns depth active) (f : FuncId) :
    Gives (Checker.Simple start) (resultAt fns depth active f) (·.isSimple = true) := by
  induction depth generalizing active f with
  | zero =>
      obtain ⟨n, hn⟩ := hroom.pos
      cases hn
  | succ depth ih =>
      intro c hc t c' hrun
      cases resultAt_cases hroom hrun with
      | known hknown => exact ⟨hc, hc.results f t hknown⟩
      | busy _ _ ht => exact ⟨hc, ht ▸ rfl⟩
      | found hn _ hactive _ hf hbody =>
          cases hn
          obtain ⟨hc', ht⟩ := typeOf_holds (discipline_simple hfns) _ _ (fit_of_isSimple hfns hf)
            (fun g _ => ih (hroom.enter hf hactive) g) c hc t _ hbody
          exact ⟨hc'.remember f ht, ht⟩

theorem resultType_simple (hfns : fns.isSimple = true) (f : FuncId) :
    Gives (Checker.Simple start) (resultType fns f) (·.isSimple = true) := resultAt_simple hfns (room_nil fns) f

theorem exprType_simple (hfns : fns.isSimple = true) {x : Expr} {scope : Scope} (hx : x.isSimple = true)
    (hscope : scope.isSimple = true) : Gives (Checker.Simple start) (exprType fns x scope) (·.isSimple = true) :=
  exprType_holds (discipline_simple hfns) (fun g _ _ _ => resultType_simple hfns g) ⟨hscope, hx⟩

end Checking

end Polish
