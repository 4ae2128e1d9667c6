import Polish.Proofs.Casts
import Polish.Proofs.Machine
import Polish.Proofs.Mismatches
import Mathlib.Data.List.Forall2

namespace Polish

namespace Machine.Value

/-- A value belongs to a type: every value to `any`, closures to the function types with their parameters. -/
def Holds : Value → Ty → Prop
  | _, .basic .any => True
  | .number _, .basic .number => True
  | .text _, .basic .string => True
  | .null, .basic .null => True
  | .closure params _ _, .function types _ => params.map (·.ty) = types
  | _, _ => False

theorem holds_any (v : Value) : v.Holds .any := by cases v <;> trivial

theorem Holds.cast {v : Value} {t u : Ty} (h : v.Holds t) (hc : t.casts u = true) : v.Holds u := by
  unfold Ty.casts at hc
  rw [Bool.or_eq_true, Bool.or_eq_true] at hc
  obtain (hc | hc) | hc := hc
  · exact Ty.eq_of_same hc ▸ h
  · exact Ty.eq_of_same hc ▸ v.holds_any
  · split at hc
    · cases v <;> exact h.elim
    · exact nomatch hc

end Machine.Value

open Machine (Value Env)

def Expr.Casts (fns : Functions) (scope : Scope) (x : Expr) (t : Ty) : Prop :=
  ∃ u, HasType fns none scope x u ∧ u.casts t = true

/-- An expression that may be evaluated: its names are bound, and its arguments cast to the parameters. Bodies of
anonymous functions are not evaluated. -/
inductive Expr.Ready (fns : Functions) : Scope → Expr → Prop
  | number {scope l value} : Ready fns scope (.number l value)
  | text {scope l value} : Ready fns scope (.text l value)
  | var {scope l name t} (h : scope.lookup name = some t) : Ready fns scope (.var l name)
  | relocated {scope l x} (h : Ready fns scope x) : Ready fns scope (.relocated l x)
  | closure {scope l params body} : Ready fns scope (.closure l params body)
  | call {scope l f args fn} (hf : fns[f]? = some fn) (hargs : ∀ x ∈ args, Ready fns scope x)
      (hcasts : List.Forall₂ (fun x (p : Param) => x.Casts fns scope p.ty) args fn.params) :
      Ready fns scope (.call l f args)

theorem forall₂_of_sites {scope : Scope} {good : Site → Prop} {args : List Expr} {params : List Param}
    (hlen : args.length = params.length)
    (h : ∀ site ∈ List.zipWith (Site.mk scope) args (params.map (·.ty)), good site) :
    List.Forall₂ (fun x p => good ⟨scope, x, p.ty⟩) args params := by
  induction args generalizing params with
  | nil =>
      obtain rfl := List.length_eq_zero_iff.1 hlen.symm
      exact .nil
  | cons x args ih =>
      cases params with
      | nil => exact nomatch hlen
      | cons p params =>
          obtain ⟨hx, hargs⟩ := List.forall_mem_cons.1 h
          exact .cons hx (ih (Nat.succ.inj hlen) hargs)

theorem Expr.Scoped.ready {fns : Functions} {scope : Scope} {x : Expr} (hx : x.Scoped scope)
    (hcalls : Checking.Fits fns x)
    (hsites : ∀ site ∈ x.sites fns scope, site.arg.Casts fns site.scope site.want) : x.Ready fns scope := by
  induction hx with
  | number => exact .number
  | text => exact .text
  | var h => exact .var h
  | relocated _ ih => exact .relocated (ih hcalls hsites)
  | closure => exact .closure
  | @call scope l f args h ih =>
      obtain ⟨fn, hf, hlen⟩ := hcalls (f, args) (by simp [Expr.calls])
      rw [Expr.sites, Checking.wants_eq hf] at hsites
      obtain ⟨hhead, hrest⟩ := List.forall_mem_append.1 hsites
      refine .call hf (fun x hx => ih x hx ?_ ?_) (forall₂_of_sites hlen hhead)
      · intro call hcall
        exact hcalls call (by simpa [Expr.calls] using .inr (Expr.mem_callsList.2 ⟨x, hx, hcall⟩))
      · exact fun site hsite => hrest site (Expr.mem_sitesList.2 ⟨x, hx, hsite⟩)

structure Functions.Checked (fns : Functions) : Prop where
  fits : fns.Scoped
  bodies : ∀ (f : FuncId) (fn : Function), fns[f]? = some fn → fn.kind = .custom →
    fn.body.Ready fns (Scope.bind [] fn.params)

def Expr.Promises (fns : Functions) (scope : Scope) (x : Expr) (v : Value) : Prop :=
  ∀ self t, HasType fns self scope x t → v.Holds t

def Functions.Gives (fns : Functions) (f : FuncId) (v : Value) : Prop :=
  ∀ l args scope, (Expr.call l f args).Promises fns scope v

theorem Functions.gives_of_returns {fns : Functions} {f : FuncId} {fn : Function} {t : Ty} {v : Value}
    (hf : fns[f]? = some fn) (hk : fn.kind = .custom) (ht : fns.Returns f t) (hv : v.Holds t) : fns.Gives f v := by
  intro l args scope self u hu
  cases hu with
  | native hf' hk' =>
      cases hf.symm.trans hf'
      exact nomatch hk.symm.trans hk'
  | itself => exact v.holds_any
  | call hf' hk' hne hb => exact ht.unique ⟨_, hf', hb⟩ ▸ hv

theorem Functions.gives_of_native {fns : Functions} {f : FuncId} {fn : Function} {t : Ty} {v : Value}
    (hf : fns[f]? = some fn) (hk : fn.kind = .native) (ht : fn.operation.result? = some t) (hv : v.Holds t) :
    fns.Gives f v := by
  intro l args scope self u hu
  cases hu with
  | native hf' hk' ho =>
      cases hf.symm.trans hf'
      exact Option.some.inj (ht.symm.trans ho) ▸ hv
  | itself hf' hk' | call hf' hk' =>
      cases hf.symm.trans hf'
      exact nomatch hk.symm.trans hk'

def Machine.Env.Fits (env : Env) (scope : Scope) : Prop :=
  ∀ name t, scope.lookup name = some t → ∃ v, env.lookup name = some v ∧ v.Holds t

def Param.Take (params : List Param) (values : List Value) : Prop :=
  List.Forall₂ (fun v (p : Param) => v.Holds p.ty) values params

theorem Machine.Env.Fits.bind {env : Env} {scope : Scope} (h : env.Fits scope) {params : List Param} {values : List Value}
    (hv : Param.Take params values) : (env.bind params values).Fits (scope.bind params) := by
  induction hv generalizing env scope with
  | nil => exact h
  | @cons v p values params hvp _ ih =>
      refine ih fun name t ht => ?_
      rw [List.lookup_cons] at ht ⊢
      cases hn : name == p.name with
      | true =>
          simp only [hn] at ht ⊢
          exact ⟨v, rfl, Option.some.inj ht ▸ hvp⟩
      | false =>
          simp only [hn] at ht ⊢
          exact h name t ht

namespace Machine

variable {fns : Functions}

def Waits (fns : Functions) (f : FuncId) (values : List Value) (rest : List Expr) (env : Env)
    (known : Value → Prop) : Prop :=
  ∃ (fn : Function) (scope : Scope) (before : List Param) (p : Param) (after : List Param),
    fns[f]? = some fn ∧ fn.params = before ++ p :: after ∧ Param.Take before values ∧
    (∀ v, known v → v.Holds p.ty) ∧ env.Fits scope ∧ (∀ x ∈ rest, x.Ready fns scope) ∧
    List.Forall₂ (fun x (p : Param) => x.Casts fns scope p.ty) rest after

def Accepts (fns : Functions) : List Frame → (Value → Prop) → Prop
  | [], _ => True
  | .body f :: stack, known =>
    ∃ t, fns.Returns f t ∧ (∀ v, known v → v.Holds t) ∧ Accepts fns stack (·.Holds t)
  | .args f values rest env :: stack, known => Waits fns f values rest env known ∧ Accepts fns stack (fns.Gives f)

theorem Accepts.mono {stack : List Frame} {known known' : Value → Prop} (h : Accepts fns stack known)
    (himp : ∀ v, known' v → known v) : Accepts fns stack known' := by
  cases stack with
  | nil => trivial
  | cons frame stack =>
      cases frame with
      | body f =>
          obtain ⟨t, ht, hv, hstack⟩ := h
          exact ⟨t, ht, fun v hk => hv v (himp v hk), hstack⟩
      | args f values rest env =>
          obtain ⟨⟨fn, scope, before, p, after, hf, hp, hvalues, hv, hrest⟩, hstack⟩ := h
          exact ⟨⟨fn, scope, before, p, after, hf, hp, hvalues, fun v hk => hv v (himp v hk), hrest⟩, hstack⟩

def Good (fns : Functions) (s : State) : Prop :=
  match s.task with
  | .eval x env => ∃ scope, env.Fits scope ∧ x.Ready fns scope ∧ Accepts fns s.stack (x.Promises fns scope)
  | .apply f values => ∃ fn : Function, fns[f]? = some fn ∧ Param.Take fn.params values ∧
      Accepts fns s.stack (fns.Gives f)
  | .give v => ∃ known : Value → Prop, known v ∧ Accepts fns s.stack known

def Outcome.Good (fns : Functions) : Outcome → Prop
  | .next s => Machine.Good fns s
  | .done _ => True
  | .stuck _ => False

theorem good_arguments {f : FuncId} {fn : Function} {before after : List Param} {values : List Value} {x : Expr}
    {rest : List Expr} {env : Env} {scope : Scope} {stack : List Frame} (hf : fns[f]? = some fn)
    (hp : fn.params = before ++ after) (hvalues : Param.Take before values) (henv : env.Fits scope)
    (hready : ∀ y ∈ x :: rest, y.Ready fns scope)
    (hcasts : List.Forall₂ (fun x (p : Param) => x.Casts fns scope p.ty) (x :: rest) after)
    (hstack : Accepts fns stack (fns.Gives f)) : Good fns ⟨.eval x env, .args f values rest env :: stack⟩ := by
  obtain ⟨hx, hrest⟩ := List.forall_mem_cons.1 hready
  cases hcasts with
  | @cons _ p _ after hcast hcasts =>
      obtain ⟨u, hu, hc⟩ := hcast
      exact ⟨scope, henv, hx, ⟨fn, scope, before, p, after, hf, hp, hvalues,
        fun v hv => (hv none u hu).cast hc, henv, hrest, hcasts⟩, hstack⟩

theorem evaluate_good {x : Expr} {env : Env} {scope : Scope} {stack : List Frame} (henv : env.Fits scope)
    (hx : x.Ready fns scope) (hstack : Accepts fns stack (x.Promises fns scope)) :
    (evaluate x env stack).Good fns := by
  cases hx with
  | number | text =>
      refine ⟨_, ?_, hstack⟩
      rintro self t ⟨⟩
      trivial
  | @var _ name t h =>
      obtain ⟨v, hv, ht⟩ := henv name t h
      simp only [evaluate, hv]
      refine ⟨_, ?_, hstack⟩
      rintro self u ⟨⟩
      rename_i h'
      exact Option.some.inj (h.symm.trans h') ▸ ht
  | relocated h => exact ⟨scope, henv, h, hstack.mono fun v hv self t ht => by
      cases ht with
      | relocated ht => exact hv self t ht⟩
  | closure =>
      refine ⟨_, ?_, hstack⟩
      rintro self t ⟨⟩
      rfl
  | @call l f args fn hf hargs hcasts =>
      have hgives : Accepts fns stack (fns.Gives f) := hstack.mono fun v hv => hv l args scope
      cases args with
      | nil =>
          cases hp : fn.params with
          | nil => exact ⟨fn, hf, hp ▸ .nil, hgives⟩
          | cons p ps => rw [hp] at hcasts; exact nomatch hcasts
      | cons x rest => exact good_arguments hf (List.nil_append _).symm .nil henv hargs hcasts hgives

theorem eq_number {v : Value} (h : v.Holds .number) : ∃ n, v = .number n := by
  cases v with
  | number n => exact ⟨n, rfl⟩
  | text | null | closure => exact h.elim

/-- Native functions give something for values of the types of their parameters. -/
theorem operate_native (arith : Operation → Double → Double → Double) {fn : Function} (hn : fn ∈ Registry.natives)
    {values : List Value} (hv : Param.Take fn.params values) :
    ∃ v t, operate arith fn.operation values = some v ∧ fn.operation.result? = some t ∧ v.Holds t := by
  have hnumbers (hv : Param.Take [⟨utf8 "a", .number⟩, ⟨utf8 "b", .number⟩] values) :
      ∃ m n, values = [.number m, .number n] := by
    obtain _ | ⟨ha, _ | ⟨hb, ⟨⟩⟩⟩ := hv
    obtain ⟨m, rfl⟩ := eq_number ha
    obtain ⟨n, rfl⟩ := eq_number hb
    exact ⟨m, n, rfl⟩
  simp only [Registry.natives, List.mem_cons, List.not_mem_nil, or_false] at hn
  obtain rfl | rfl | rfl | rfl | rfl := hn
  · obtain ⟨m, n, rfl⟩ := hnumbers hv
    exact ⟨_, _, rfl, rfl, trivial⟩
  · obtain ⟨m, n, rfl⟩ := hnumbers hv
    exact ⟨_, _, rfl, rfl, trivial⟩
  · obtain ⟨m, n, rfl⟩ := hnumbers hv
    exact ⟨_, _, rfl, rfl, trivial⟩
  · obtain ⟨m, n, rfl⟩ := hnumbers hv
    exact ⟨_, _, rfl, rfl, trivial⟩
  · obtain _ | ⟨-, ⟨⟩⟩ := hv
    exact ⟨_, _, rfl, rfl, trivial⟩

theorem call_good (arith : Operation → Double → Double → Double) (hfns : fns.Checked) {f : FuncId} {fn : Function}
    {values : List Value} {stack : List Frame} (hf : fns[f]? = some fn) (hv : Param.Take fn.params values)
    (hstack : Accepts fns stack (fns.Gives f)) : (call fns arith f values stack).Good fns := by
  have hlen : values.length = fn.params.length := hv.length_eq
  simp only [call, hf, hlen, ne_eq, not_true_eq_false, if_false]
  obtain hn | hc := hfns.fits.kinds f fn hf
  · have hk := Registry.kind_native fn hn
    obtain ⟨v, t, ho, ht, hvt⟩ := operate_native arith hn hv
    simp only [hk, ho]
    exact ⟨_, Functions.gives_of_native hf hk ht hvt, hstack⟩
  · simp only [hc]
    obtain ⟨t, -, -, ht, -⟩ := Checking.resultType_synthesizes hfns.fits hf hc {} Checking.fit_initial
    have hempty : Env.Fits [] [] := fun _ _ h => nomatch h
    refine ⟨_, hempty.bind hv, hfns.bodies f fn hf hc, t, ht, fun v hv => ?_,
      hstack.mono fun v hv => Functions.gives_of_returns hf hc ht hv⟩
    obtain ⟨fn', hf', hb⟩ := ht
    cases hf.symm.trans hf'
    exact hv (some f) t hb

theorem resume_good {v : Value} {stack : List Frame} {known : Value → Prop} (hv : known v)
    (hstack : Accepts fns stack known) : (resume v stack).Good fns := by
  cases stack with
  | nil => trivial
  | cons frame stack =>
      cases frame with
      | body f =>
          obtain ⟨t, -, ht, hstack⟩ := hstack
          exact ⟨_, ht v hv, hstack⟩
      | args f values rest env =>
          obtain ⟨⟨fn, scope, before, p, after, hf, hp, hvalues, hknown, henv, hready, hcasts⟩, hstack⟩ := hstack
          have hvalues' : Param.Take (before ++ [p]) (values ++ [v]) :=
            List.rel_append hvalues (.cons (hknown v hv) .nil)
          have hp' : fn.params = (before ++ [p]) ++ after := by simp [hp]
          cases rest with
          | nil =>
              cases hcasts
              rw [List.append_nil] at hp'
              exact ⟨fn, hf, hp' ▸ hvalues', hstack⟩
          | cons x rest => exact good_arguments hf hp' hvalues' henv hready hcasts hstack

/-- A step does not get stuck, and what is known of values stays known. -/
theorem step_good (arith : Operation → Double → Double → Double) (hfns : fns.Checked) {s : State} (h : Good fns s) :
    (step fns arith s).Good fns := by
  obtain ⟨task, stack⟩ := s
  cases task with
  | eval x env =>
      obtain ⟨scope, henv, hx, hstack⟩ := h
      exact evaluate_good henv hx hstack
  | apply f values =>
      obtain ⟨fn, hf, hv, hstack⟩ := h
      exact call_good arith hfns hf hv hstack
  | give v =>
      obtain ⟨known, hv, hstack⟩ := h
      exact resume_good hv hstack

theorem run_good (arith : Operation → Double → Double → Double) (hfns : fns.Checked) (n : Nat) {s : State}
    (h : Good fns s) : (run fns arith n s).Good fns := by
  induction n generalizing s with
  | zero => exact h
  | succ n ih =>
      have hstep := step_good arith hfns h
      rw [run]
      cases hs : step fns arith s with
      | next s' => rw [hs] at hstep; exact ih hstep
      | done v => trivial
      | stuck why => rw [hs] at hstep; exact hstep

theorem start_good {f : FuncId} {fn : Function} (hf : fns[f]? = some fn) (hp : fn.params = []) :
    Good fns (start f) := ⟨fn, hf, hp ▸ .nil, trivial⟩

/-- A call that gives a value gives one of the type of the function. -/
theorem holds_of_good {v : Value} {f : FuncId} {stack : List Frame} (h : Good fns ⟨.give v, .body f :: stack⟩) :
    ∃ t, fns.Returns f t ∧ v.Holds t := by
  obtain ⟨known, hv, t, ht, hknown, -⟩ := h
  exact ⟨t, ht, hknown v hv⟩

end Machine

end Polish
