import Polish.Proofs.Merging

namespace Polish

namespace Checker.Later

variable {c c' c'' : Checker}

theorem trans (h : Checker.Later [] c c') (h' : Checker.Later [] c' c'') : Checker.Later [] c c'' :=
  (Checking.progress_later []).trans h h'

theorem mem_reported (h : Checker.Later [] c c') {key : Bytes × Int × Bytes} (hkey : key ∈ c.reported) :
    key ∈ c'.reported := by
  obtain ⟨added, -, hreported, -⟩ := h.reports
  rw [hreported]
  exact List.mem_append_right _ hkey

end Checker.Later

namespace Checking

variable {fns : Functions} {α β : Type}

/-- A stage that gives the same again at any later time. -/
structure Repeats (stage : Checking α) (good : α → Prop) : Prop where
  later : Keeps (Checker.Later []) stage
  again : ∀ {c a c₁ c₂}, stage c = .ok a c₁ → Checker.Later [] c₁ c₂ → ∃ c₃, stage c₂ = .ok a c₃
  result : ∀ {c a c'}, stage c = .ok a c' → good a

theorem logic_repeats : Logic True (fun _ => True) Repeats where
  pure h := by
    refine ⟨keeps_pure (progress_later []) _, fun {_ _ _ c₂} hrun _ => ?_, fun hrun => ?_⟩
    · cases hrun
      exact ⟨c₂, rfl⟩
    · cases hrun
      exact h
  bind {α β first second good good'} h h' := by
    have hgood {c : Checker} {a : α} {c₁ : Checker} (hrun : first c = .ok a c₁) : Repeats (second a) good' :=
      h' a (h.result hrun)
    refine ⟨fun c b c₁ hrun => ?_, fun {c b c₁ c₂} hrun hlater => ?_, fun {c b c₁} hrun => ?_⟩
    · obtain ⟨a, cₐ, hfirst, hsecond⟩ := bind_eq_ok.1 hrun
      exact (h.later _ _ _ hfirst).trans ((hgood hfirst).later _ _ _ hsecond)
    · obtain ⟨a, cₐ, hfirst, hsecond⟩ := bind_eq_ok.1 hrun
      have hmid := ((hgood hfirst).later _ _ _ hsecond).trans hlater
      obtain ⟨c₃, hfirst'⟩ := h.again hfirst hmid
      obtain ⟨c₄, hsecond'⟩ := (hgood hfirst).again hsecond (hlater.trans (h.later _ _ _ hfirst'))
      exact ⟨c₄, (bind_ok hfirst').trans hsecond'⟩
    · obtain ⟨a, cₐ, hfirst, hsecond⟩ := bind_eq_ok.1 hrun
      exact (hgood hfirst).result hsecond
  throw _ _ := by
    refine ⟨fun _ _ _ hrun => ?_, fun hrun _ => ?_, fun hrun => ?_⟩
    · cases hrun
    · cases hrun
    · cases hrun
  flag {problem} _ l fatal := by
    refine ⟨fun c _ c' hrun => ?_, fun {_ _ _ c₂} hrun _ => ?_, fun _ => trivial⟩
    · rw [flag_eq_ok hrun]
      exact (progress_later []).record c _
    · exact ⟨_, flag_ok (lacksType_of_flag hrun) l fatal c₂⟩

theorem discipline_repeats : Discipline fns True (fun _ => True) (fun _ _ => True) (fun _ _ => True)
    (fun _ _ _ => True) Repeats := { logic_repeats, typable_any, typings_any with }

theorem repeats_resultType (f : FuncId) : Repeats (resultType fns f) fun _ => True :=
  ⟨resultType_later fns f, fun h hlater => ⟨_, resultType_again h hlater⟩, fun _ => trivial⟩

theorem typeOf_repeats (x : Expr) (scope : Scope) : Repeats (typeOf fns (resultType fns) x scope) fun _ => True :=
  typeOf_holds discipline_repeats x scope trivial fun g _ => repeats_resultType g

theorem checkCasts_repeats (xs : List Expr) (ts : List Ty) (scope : Scope) :
    Repeats (checkCasts fns (resultType fns) xs ts scope) fun _ => True :=
  checkCasts_holds discipline_repeats xs ts scope (fun _ _ => trivial) (fun _ _ _ _ _ => trivial) fun g _ =>
    repeats_resultType g

theorem resolve_ok {f : FuncId} {fn : Function} {c c' : Checker} (h : resolve fns f c = .ok fn c') :
    fns[f]? = some fn :=
  (resolve_holds logic_repeats fun _ => trivial).result h

end Checking

/-- The arguments of the calls in an expression, as a checker sees them: the call operation passes its other arguments
to what its first argument is. -/
inductive Expr.Passes (fns : Functions) (c : Checker) : Expr → Scope → Site → Prop
  | direct {l f args scope arg want} {fn : Function} (hf : fns[f]? = some fn)
      (hop : ¬ (fn.kind = .native ∧ fn.operation = .call)) (h : (arg, want) ∈ args.zip (fn.params.map (·.ty))) :
      Passes fns c (.call l f args) scope ⟨scope, arg, want⟩
  | applied {l f x args scope arg want params result c'} {fn : Function} (hf : fns[f]? = some fn)
      (hop : fn.kind = .native ∧ fn.operation = .call)
      (hx : Checking.exprType fns x scope c = .ok (.function params result) c') (h : (arg, want) ∈ args.zip params) :
      Passes fns c (.call l f (x :: args)) scope ⟨scope, arg, want⟩
  | inside {l f args scope site x} (hx : x ∈ args) (h : Passes fns c x scope site) :
      Passes fns c (.call l f args) scope site
  | relocated {l x scope site} (h : Passes fns c x scope site) : Passes fns c (.relocated l x) scope site
  | closure {l params body scope site} (h : Passes fns c body (scope.bind params) site) :
      Passes fns c (.closure l params body) scope site

namespace Checking

variable {fns : Functions} {c c₁ c₂ : Checker}

def Covers (fns : Functions) (c : Checker) (site : Site) : Prop :=
  ∃ got c', exprType fns site.arg site.scope c = .ok got c' ∧ (got.casts site.want = false →
    (Diagnostic.mk site.arg.location (.mismatch got site.want) false).key ∈ c.reported)

theorem key_mem_of_flag {l : Location} {problem : Problem} (h : flagIf true l problem c = .ok () c₁) :
    (Diagnostic.mk l problem false).key ∈ c₁.reported := by
  rw [flagIf, if_pos rfl] at h
  rw [flag_eq_ok h]
  exact c.key_mem_record _

theorem checkCasts_covers {scope : Scope} {args : List Expr} {ts : List Ty}
    (hrun : checkCasts fns (resultType fns) args ts scope c = .ok () c₁) (hlater : Checker.Later [] c₁ c₂) {arg : Expr}
    {want : Ty} (h : (arg, want) ∈ args.zip ts) : Covers fns c₂ ⟨scope, arg, want⟩ := by
  induction args generalizing ts c with
  | nil => cases h
  | cons x args ih =>
      cases ts with
      | nil => cases h
      | cons t ts =>
          rw [checkCasts_cons] at hrun
          obtain ⟨got, c₃, htype, hrun⟩ := bind_eq_ok.1 hrun
          obtain ⟨⟨⟩, c₄, hflag, hrest⟩ := bind_eq_ok.1 hrun
          rw [List.zip_cons_cons] at h
          rcases List.mem_cons.1 h with he | h
          · cases he
            have hrest' := ((checkCasts_repeats args ts scope).later _ _ _ hrest).trans hlater
            have hflag' := (keeps_flagIf (progress_later []) _ _ _ _ _ _ hflag).trans hrest'
            obtain ⟨c₅, hagain⟩ := (typeOf_repeats arg scope).again htype hflag'
            refine ⟨got, c₅, hagain, fun hcasts => hrest'.mem_reported ?_⟩
            rw [hcasts, Bool.not_false] at hflag
            exact key_mem_of_flag hflag
          · exact ih hrest h

section Calls

variable {fn : Function} {l : Location} {x : Expr} {args : List Expr} {scope : Scope} {arg : Expr} {want : Ty}

theorem checkArgs_covers (hop : ¬ (fn.kind = .native ∧ fn.operation = .call))
    (hrun : checkArgs fns fn l args scope c = .ok () c₁) (hlater : Checker.Later [] c₁ c₂)
    (h : (arg, want) ∈ args.zip (fn.params.map (·.ty))) : Covers fns c₂ ⟨scope, arg, want⟩ := by
  rw [checkArgs, if_neg (by simpa using hop)] at hrun
  obtain ⟨⟨⟩, c₃, -, hcasts⟩ := bind_eq_ok.1 hrun
  exact checkCasts_covers hcasts hlater h

theorem checkArgs_covers_applied {f : FuncId} (hf : fns[f]? = some fn) (hop : fn.kind = .native ∧ fn.operation = .call)
    (hrun : checkArgs fns fn l (x :: args) scope c = .ok () c₁) (hlater : Checker.Later [] c₁ c₂) {params : List Ty}
    {result : Ty} {c' : Checker} (hx : exprType fns x scope c₂ = .ok (.function params result) c')
    (h : (arg, want) ∈ args.zip params) : Covers fns c₂ ⟨scope, arg, want⟩ := by
  rw [checkArgs, if_pos (by simpa using hop), appliedType_cons] at hrun
  obtain ⟨u, c₃, hrun, hpure⟩ := bind_eq_ok.1 hrun
  cases hpure
  obtain ⟨t, c₄, htype, happlied⟩ := bind_eq_ok.1 hrun
  -- what the first argument is now it was when its arguments were checked
  have hk : fn.kind ≠ .custom := by rw [hop.1]; decide
  have hmid := (applied_holds discipline_repeats hf hk hop.2 l (typeOf_repeats x scope)
    (fun ts _ => checkCasts_repeats args ts scope) trivial).later _ _ _ happlied
  obtain ⟨c₅, hagain⟩ := (typeOf_repeats x scope).again htype (hmid.trans hlater)
  obtain ⟨rfl, -⟩ := EStateM.Result.ok.inj (hagain.symm.trans hx)
  obtain ⟨⟨⟩, c₆, -, hrest⟩ := bind_eq_ok.1 happlied
  obtain ⟨⟨⟩, c₇, hcasts, hpure⟩ := bind_eq_ok.1 hrest
  cases hpure
  exact checkCasts_covers hcasts hlater h

end Calls

theorem checkExprList_later (xs : List Expr) (scope : Scope) :
    Keeps (Checker.Later []) (checkExprList fns xs scope) :=
  checkExprList_keeps (progress_later []) (resultType_later fns) xs scope

mutual

theorem checkExpr_covers : ∀ (x : Expr) {scope : Scope} {c c₁ : Checker}, checkExpr fns x scope c = .ok () c₁ →
    Checker.Later [] c₁ c₂ → ∀ {site : Site}, x.Passes fns c₂ scope site → Covers fns c₂ site
  | .hole, _, _, _, _, _, _, h | .number _ _, _, _, _, _, _, _, h | .text _ _, _, _, _, _, _, _, h
  | .var _ _, _, _, _, _, _, _, h => by cases h
  | .relocated _ x, _, _, _, hrun, hlater, _, h => by
      cases h with
      | relocated h => exact checkExpr_covers x hrun hlater h
  | .closure _ params body, _, _, _, hrun, hlater, _, h => by
      cases h with
      | closure h => exact checkExpr_covers body hrun hlater h
  | .call l f args, scope, c, c₁, hrun, hlater, _, h => by
      rw [checkExpr_call] at hrun
      obtain ⟨fn, c₃, hresolve, hrun⟩ := bind_eq_ok.1 hrun
      obtain ⟨⟨⟩, c₄, hargs, hrest⟩ := bind_eq_ok.1 hrun
      have hlater' := (checkExprList_later args scope _ _ _ hrest).trans hlater
      have hfn := resolve_ok hresolve
      cases h with
      | direct hf hop hmem =>
          obtain rfl := Option.some.inj (hfn.symm.trans hf)
          exact checkArgs_covers hop hargs hlater' hmem
      | applied hf hop hx hmem =>
          obtain rfl := Option.some.inj (hfn.symm.trans hf)
          exact checkArgs_covers_applied hf hop hargs hlater' hx hmem
      | inside hx h => exact checkExprList_covers args hrest hlater _ hx h

theorem checkExprList_covers : ∀ (xs : List Expr) {scope : Scope} {c c₁ : Checker},
    checkExprList fns xs scope c = .ok () c₁ → Checker.Later [] c₁ c₂ → ∀ x ∈ xs, ∀ {site : Site},
    x.Passes fns c₂ scope site → Covers fns c₂ site
  | [], _, _, _, _, _ => List.forall_mem_nil _
  | x :: xs, scope, c, c₁, hrun, hlater => by
      obtain ⟨⟨⟩, c₃, hfirst, hrest⟩ := bind_eq_ok.1 hrun
      have hlater' := (checkExprList_later xs scope _ _ _ hrest).trans hlater
      exact List.forall_mem_cons.2 ⟨checkExpr_covers x hfirst hlater', checkExprList_covers xs hrest hlater⟩

end

end Checking

namespace Expr

theorem Passes.simple {fns : Functions} (hfns : fns.isSimple = true) {start : Report} {c : Checker}
    (hc : c.Simple start) {x : Expr} {scope : Scope} {site : Site} (h : x.Passes fns c scope site)
    (hx : x.isSimple = true) (hscope : scope.isSimple = true) :
    site.scope.isSimple = true ∧ site.arg.isSimple = true ∧ site.want.isSimple = true := by
  induction h with
  | direct hf _ hmem =>
      obtain ⟨harg, hwant⟩ := List.of_mem_zip hmem
      exact ⟨hscope, areSimple_iff.1 hx _ harg,
        Checking.areSimple_map (Functions.isSimple_function hfns hf).1 _ hwant⟩
  | applied _ _ hfirst hmem =>
      obtain ⟨harg, hwant⟩ := List.of_mem_zip hmem
      obtain ⟨hx, hargs⟩ := Bool.and_eq_true_iff.1 hx
      have htype := (Checking.exprType_simple hfns hx hscope c hc _ _ hfirst).2
      exact ⟨hscope, areSimple_iff.1 hargs _ harg, Ty.areSimple_iff.1 (Bool.and_eq_true_iff.1 htype).1 _ hwant⟩
  | inside hmem _ ih => exact ih (areSimple_iff.1 hx _ hmem) hscope
  | relocated _ ih => exact ih hx hscope
  | closure _ ih =>
      obtain ⟨hparams, hbody⟩ := Bool.and_eq_true_iff.1 hx
      exact ih hbody (Scope.isSimple_bind hscope hparams)

end Expr

namespace Query

open Checking (Gives Covers)

variable {fns : Functions} {start : Report}

def checked? (fns : Functions) : Query → Option (Expr × Scope)
  | .checkFunction f => match fns[f]? with
    | some fn => if fn.kind = .custom then some (fn.body, Scope.bind [] fn.params) else none
    | none => none
  | .checkExpr x scope => some (x, scope)
  | .exprType _ _ | .resultType _ => none

def isSimple : Query → Bool
  | .checkExpr x scope | .exprType x scope => x.isSimple && scope.isSimple
  | .checkFunction _ | .resultType _ => true

theorem isSimple_checked (hfns : fns.isSimple = true) {q : Query} (hq : q.isSimple = true) {x : Expr} {scope : Scope}
    (h : q.checked? fns = some (x, scope)) : x.isSimple = true ∧ scope.isSimple = true := by
  cases q with
  | checkFunction f =>
      rw [checked?] at h
      split at h
      · rename_i fn hf
        split at h
        · cases h
          obtain ⟨hparams, hbody⟩ := Functions.isSimple_function hfns hf
          exact ⟨hbody, Scope.isSimple_bind Scope.isSimple_nil hparams⟩
        · cases h
      · cases h
  | checkExpr y scope' =>
      cases h
      exact Bool.and_eq_true_iff.1 hq
  | exprType | resultType => cases h

theorem runAll_simple (hfns : fns.isSimple = true) {qs : List Query} (hqs : ∀ q ∈ qs, q.isSimple = true) :
    Gives (Checker.Simple start) (runAll fns qs) fun _ => True := by
  have hresult (g : FuncId) (_ : True) :
      Gives (Checker.Simple start) (Checking.resultType fns g) (·.isSimple = true) := Checking.resultType_simple hfns g
  refine runAll_holds (Checking.discipline_simple hfns) (fun g _ _ _ => hresult g trivial) hresult fun q hq => ?_
  have hsimple := hqs q hq
  cases q with
  | checkFunction f => exact ⟨fun _ => trivial, fun fn hfn _ => Checking.fit_of_isSimple hfns hfn⟩
  | checkExpr x scope | exprType x scope => exact (Bool.and_eq_true_iff.1 hsimple).symm
  | resultType f => trivial

theorem run_covers {q : Query} {answer : Option Ty} {c c₁ c₂ : Checker} (hrun : q.run fns c = .ok answer c₁)
    (hlater : Checker.Later [] c₁ c₂) {x : Expr} {scope : Scope} (hq : q.checked? fns = some (x, scope)) {site : Site}
    (h : x.Passes fns c₂ scope site) : Covers fns c₂ site := by
  cases q with
  | checkFunction f =>
      obtain ⟨⟨⟩, c₃, hcheck, hpure⟩ := bind_eq_ok.1 hrun
      cases hpure
      obtain ⟨fn, c₄, hresolve, hcheck⟩ := bind_eq_ok.1 hcheck
      simp only [checked?, Checking.resolve_ok hresolve] at hq
      split at hq
      · rename_i hk
        cases hq
        rw [if_pos hk] at hcheck
        obtain ⟨t, c₅, -, hbody⟩ := bind_eq_ok.1 hcheck
        exact Checking.checkExpr_covers fn.body hbody hlater h
      · cases hq
  | checkExpr y scope' =>
      cases hq
      obtain ⟨⟨⟩, c₃, hcheck, hpure⟩ := bind_eq_ok.1 hrun
      cases hpure
      exact Checking.checkExpr_covers x hcheck hlater h
  | exprType | resultType => cases hq

theorem runAll_covers {qs : List Query} {c c₁ : Checker} (hrun : runAll fns qs c = .ok () c₁) {q : Query} (hq : q ∈ qs)
    {x : Expr} {scope : Scope} (hchecked : q.checked? fns = some (x, scope)) {site : Site}
    (h : x.Passes fns c₁ scope site) : Covers fns c₁ site := by
  induction qs generalizing c with
  | nil => cases hq
  | cons p qs ih =>
      obtain ⟨answer, c₂, hfirst, hrest⟩ := bind_eq_ok.1 hrun
      rcases List.mem_cons.1 hq with rfl | hq
      · have hlater := runAll_keeps (Checking.progress_later []) (Checking.resultType_later fns) qs _ _ _ hrest
        exact run_covers hfirst hlater hchecked h
      · exact ih hrest hq

/-- A name stands for one type, and the text of a mismatch for the two types that it names. Of any problems about simple
types that are reported one after the other each mismatch has an entry at its place. So after any questions about
functions of simple types every argument of every call that was checked has a type, and an entry with this type at the
place of the argument if it does not cast to the type that is wanted. -/
theorem mismatches_unmerged :
    (∀ a b : Ty, a.isSimple = true → b.isSimple = true → (a.name = b.name ↔ a.same b = true)) ∧
    (∀ a b a' b' : Ty, a.isSimple = true → b.isSimple = true → a'.isSimple = true → b'.isSimple = true →
      (Problem.mismatch a b).message = (Problem.mismatch a' b').message → a.same a' = true ∧ b.same b' = true) ∧
    (∀ (start : Report) (ds : List Diagnostic), (∀ d ∈ ds, d.problem.isSimple = true) →
      ∃ added, List.Sublist added ds ∧
        (ds.foldl Checker.record { report := start }).report.entries = start.entries ++ added ∧
        ∀ d ∈ ds, ∀ source target, d.problem = .mismatch source target → Shown added d.location d.problem) ∧
    ∀ (fns : Functions) (qs : List Query) (start : Report) (c : Checker), fns.isSimple = true →
      (∀ q ∈ qs, q.isSimple = true) → runAll fns qs { report := start } = .ok () c →
      ∃ added, c.report.entries = start.entries ++ added ∧
        ∀ q ∈ qs, ∀ x scope, q.checked? fns = some (x, scope) → ∀ site, x.Passes fns c scope site →
          ∃ got c', Checking.exprType fns site.arg site.scope c = .ok got c' ∧
            (got.casts site.want = false → Shown added site.arg.location (.mismatch got site.want)) := by
  refine ⟨fun a b => Ty.name_eq_iff, fun a b a' b' ha hb ha' hb' h => ?_, fun start ds hds => ?_,
    fun fns qs start c hfns hqs hrun => ?_⟩
  · have hp : (Problem.mismatch a b).isSimple = true := Bool.and_eq_true_iff.2 ⟨ha, hb⟩
    obtain ⟨rfl, rfl⟩ := Problem.mismatch.inj (Problem.eq_mismatch_of_message ha' hb' hp h)
    exact ⟨Ty.same_self a, Ty.same_self b⟩
  · obtain ⟨added, hsub, hlogged, hkeys⟩ := (Checker.logged_start start).foldl hds
    refine ⟨added, hsub, hlogged.entries, fun d hd source target hp => ?_⟩
    obtain ⟨l, problem, fatal⟩ := d
    subst hp
    obtain ⟨hs, ht⟩ := Bool.and_eq_true_iff.1 (hds _ hd)
    exact hlogged.shown hs ht (hkeys _ hd)
  · have hc : c.Simple start :=
      (runAll_simple hfns hqs _ ⟨by simp, [], Checker.logged_start start⟩ _ _ hrun).1
    obtain ⟨added, hlogged⟩ := hc.logged
    refine ⟨added, hlogged.entries, fun q hq x scope hchecked site hsite => ?_⟩
    obtain ⟨hx, hscope⟩ := isSimple_checked hfns (hqs q hq) hchecked
    obtain ⟨hin, harg, hwant⟩ := hsite.simple hfns hc hx hscope
    obtain ⟨got, c', htype, hkey⟩ := runAll_covers hrun hq hchecked hsite
    have hgot := (Checking.exprType_simple hfns harg hin c hc _ _ htype).2
    exact ⟨got, c', htype, fun hcasts => hlogged.shown hgot hwant (hkey hcasts)⟩

/-- Two arguments at one place that would cast if they changed places, and two types that differ in where a list of
parameters ends. -/
theorem mismatches_unmerged_swapped :
    let fns : Functions :=
      #[{ name := utf8 "f", kind := .custom, params := [⟨utf8 "n", .number⟩, ⟨utf8 "s", .string⟩],
          body := .var {} (utf8 "n") },
        { name := utf8 "main", kind := .custom, body := .call {} 0 [.text {} [], .number {} .nan] }]
    (Ty.function [.function [.number] .number] .any).name ≠ (Ty.function [.number] (.function [.number] .any)).name ∧
      fns.isSimple = true ∧ ∃ c, runAll fns [.checkFunction 1] {} = .ok () c ∧
        Shown c.report.entries {} (.mismatch .string .number) ∧ Shown c.report.entries {} (.mismatch .number .string) := by
  intro fns
  obtain ⟨hnames, -, -, hruns⟩ := mismatches_unmerged
  have hfns : fns.isSimple = true := by decide
  obtain ⟨⟨⟩, c, hrun⟩ := exists_of_ends (r := runAll fns [.checkFunction 1] {}) (by decide +kernel)
  obtain ⟨added, hentries, hshown⟩ := hruns fns _ {} c hfns (by decide) hrun
  have hsites := hshown (.checkFunction 1) (by simp) _ _ rfl
  refine ⟨fun he => ?_, hfns, c, hrun, ?_⟩
  · have hsame := (hnames _ _ (by decide) (by decide)).1 he
    cases hsame
  · have hf : fns[0]? = some fns[0] := rfl
    have hop : ¬ (fns[0].kind = .native ∧ fns[0].operation = .call) := fun h => by cases h.1
    obtain ⟨_, _, htext, hfirst⟩ := hsites ⟨[], .text {} [], .number⟩ (.direct hf hop (by simp [fns]))
    obtain ⟨_, _, hnumber, hsecond⟩ := hsites ⟨[], .number {} .nan, .string⟩ (.direct hf hop (by simp [fns]))
    cases htext
    cases hnumber
    rw [hentries]
    exact ⟨hfirst rfl, hsecond rfl⟩

end Query

end Polish
