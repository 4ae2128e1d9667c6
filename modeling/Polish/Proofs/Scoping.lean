import Polish.Proofs.Registration

namespace Polish

inductive Expr.Scoped : Scope → Expr → Prop
  | number {scope l value} : Scoped scope (.number l value)
  | text {scope l value} : Scoped scope (.text l value)
  | var {scope l name t} (h : scope.lookup name = some t) : Scoped scope (.var l name)
  | relocated {scope l x} (h : Scoped scope x) : Scoped scope (.relocated l x)
  | closure {scope l params body} (hp : ∀ p ∈ params, p.ty ≠ .absent) (h : Scoped (scope.bind params) body) :
      Scoped scope (.closure l params body)
  | call {scope l f args} (h : ∀ x ∈ args, Scoped scope x) : Scoped scope (.call l f args)

structure Function.Scoped (fn : Function) : Prop where
  complete : fn.kind ≠ .pending
  params : ∀ p ∈ fn.params, p.ty ≠ .absent
  body : fn.kind = .custom → fn.body.Scoped (Scope.bind [] fn.params)

def Scope.Agrees (scope : Scope) (bindings : Parser.Bindings) : Prop :=
  ∀ name, (scope.lookup name).isSome = (bindings.lookup name).isSome

theorem Scope.Agrees.bind {scope : Scope} {bindings : Parser.Bindings} (h : scope.Agrees bindings)
    (params : List Param) (l : Location) : (scope.bind params).Agrees (bindings.bind params l) := by
  induction params generalizing scope bindings with
  | nil => exact h
  | cons p params ih =>
      refine ih fun name => ?_
      simp only [List.lookup_cons]
      split
      · rfl
      · exact h name

namespace Grammar

theorem Types.ne_absent {c d : Cursor} {ts : List Ty} (h : Types c ts d) : ∀ t ∈ ts, t ≠ .absent := by
  induction h with
  | nil => simp
  | basic _ _ _ ih | array _ _ _ _ _ ih | function _ _ _ _ _ _ _ ih =>
      exact List.forall_mem_cons.2 ⟨nofun, ih⟩

theorem Params.ne_absent {c d : Cursor} {ps : List Param} (h : Params c ps d) : ∀ p ∈ ps, p.ty ≠ .absent := by
  induction h with
  | nil => simp
  | cons hty _ _ _ _ ih => exact List.forall_mem_cons.2 ⟨hty.ne_absent _ (by simp), ih⟩

/-- Expressions that are read without a problem are scoped. -/
theorem Exprs.scoped {src : Source} {registry : Registry} {bindings : Parser.Bindings} {c d : Cursor} {xs : List Expr}
    {notes : List Diagnostic} (h : Exprs src registry bindings c xs notes d) (hnotes : notes = []) {scope : Scope}
    (hscope : scope.Agrees bindings) : ∀ x ∈ xs, x.Scoped scope := by
  induction h generalizing scope with
  | nil => simp
  | text _ _ ih => exact List.forall_mem_cons.2 ⟨.text, ih hnotes hscope⟩
  | number _ _ _ ih => exact List.forall_mem_cons.2 ⟨.number, ih hnotes hscope⟩
  | group _ _ _ _ ih1 ih2 =>
      obtain ⟨h1, h2⟩ := List.append_eq_nil_iff.1 hnotes
      exact List.forall_mem_cons.2 ⟨ih1 h1 hscope _ (by simp), ih2 h2 hscope⟩
  | closure _ hp _ _ _ ih1 ih2 =>
      obtain ⟨h1, h2⟩ := List.append_eq_nil_iff.1 hnotes
      refine List.forall_mem_cons.2 ⟨.closure hp.ne_absent (ih1 h1 (hscope.bind _ _) _ (by simp)), ih2 h2 hscope⟩
  | @bound _ _ _ _ word _ _ _ _ _ hs _ ih =>
      have hbound := hscope word
      rw [hs] at hbound
      obtain ⟨t, ht⟩ := Option.isSome_iff_exists.1 hbound
      exact List.forall_mem_cons.2 ⟨.relocated (.var ht), ih hnotes hscope⟩
  | unresolved => exact nomatch hnotes
  | call _ _ _ _ _ _ _ ih1 ih2 =>
      obtain ⟨h1, h2⟩ := List.append_eq_nil_iff.1 hnotes
      exact List.forall_mem_cons.2 ⟨.call (ih1 h1 hscope), ih2 h2 hscope⟩

theorem Signature.ne_absent {src : Source} {c d : Cursor} {name : Bytes} {location : Location} {params : List Param}
    (h : Signature src c name location params d) : ∀ p ∈ params, p.ty ≠ .absent := by
  obtain ⟨-, -, -, hp, -⟩ := h
  exact hp.ne_absent

end Grammar

theorem Registry.scoped_natives : ∀ fn ∈ Registry.initial.functions, fn.Scoped := by
  intro fn hfn
  have hmem : fn ∈ natives := List.mem_toArray.1 hfn
  refine ⟨by simp [kind_native fn hmem], ?_, by simp [kind_native fn hmem]⟩
  simp only [natives, List.mem_cons, List.not_mem_nil, or_false] at hmem
  obtain rfl | rfl | rfl | rfl | rfl := hmem <;> simp [Ty.number, Ty.any]

theorem CleanRuns.scoped {resolver : Resolver} {read : Option (Bytes → Except FileError Bytes)} {depth : Nat}
    {src : Source} {c : Cursor} {w w' : Workspace} (h : CleanRuns resolver read depth src c w w')
    (hw : ∀ fn ∈ w.registry.functions, fn.Scoped) : ∀ fn ∈ w'.registry.functions, fn.Scoped := by
  induction h with
  | done => exact hw
  | declared hk hs hnew hb rest ih =>
      refine ih fun fn hfn => ?_
      obtain hfn | rfl := Array.mem_push.1 hfn
      · exact hw fn hfn
      · exact ⟨by simp [Function.custom], hs.ne_absent,
          fun _ => hb.scoped rfl (Scope.Agrees.bind (fun _ => rfl) _ _) _ (List.mem_singleton.2 rfl)⟩
  | known hr hk hq hp hi rest ih => exact ih hw
  | included hr hk hq hp hi hl file rest ih1 ih2 =>
      exact ih2 (ih1 (by simpa only [Workspace.visit, Registry.functions_markImported] using hw))
  | unread hr hk hq hp hi hl rest ih =>
      exact ih (by simpa only [Workspace.visit, Registry.functions_markImported] using hw)

/-- A table of functions whose bodies are scoped, and whose calls fit and are of functions that were made no
later. -/
structure Functions.Scoped (fns : Functions) : Prop where
  kinds : ∀ (f : FuncId) (fn : Function), fns[f]? = some fn → fn ∈ Registry.natives ∨ fn.kind = .custom
  calls : ∀ (f : FuncId) (fn : Function), fns[f]? = some fn → ∀ call ∈ fn.body.calls, call.1 ≤ f ∧
    ∃ callee : Function, fns[call.1]? = some callee ∧ call.2.length = callee.params.length
  bodies : ∀ (f : FuncId) (fn : Function), fns[f]? = some fn → fn.kind = .custom →
    fn.body.Scoped (Scope.bind [] fn.params)
  params : ∀ (f : FuncId) (fn : Function), fns[f]? = some fn → ∀ p ∈ fn.params, p.ty ≠ .absent

theorem Registry.WellFormed.scoped {r : Registry} (h : r.WellFormed) (hscoped : ∀ fn ∈ r.functions, fn.Scoped) :
    r.functions.Scoped where
  kinds f fn hf := by
    obtain hn | hp | hc := h.kinds f fn hf
    · exact .inl hn
    · exact absurd hp (hscoped fn (Array.mem_of_getElem? hf)).complete
    · exact .inr hc
  calls f fn hf call hcall := by
    obtain ⟨hle, callee, hcallee, -, hlen⟩ := h.calls f fn hf call hcall
    exact ⟨hle, callee, hcallee, hlen⟩
  bodies f fn hf hk := (hscoped fn (Array.mem_of_getElem? hf)).body hk
  params f fn hf := (hscoped fn (Array.mem_of_getElem? hf)).params

end Polish
