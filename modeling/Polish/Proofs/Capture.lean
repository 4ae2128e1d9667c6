import Polish.Proofs.Linking

namespace Polish

namespace Expr

mutual

def callsUnder (names : List Bytes) : Expr → List (FuncId × List Bytes)
  | .call _ f args => (f, names) :: callsUnderList names args
  | .relocated _ x => callsUnder names x
  | .closure _ params body => callsUnder (params.map (·.name) ++ names) body
  | .hole | .number _ _ | .text _ _ | .var _ _ => []

def callsUnderList (names : List Bytes) : List Expr → List (FuncId × List Bytes)
  | [] => []
  | x :: xs => callsUnder names x ++ callsUnderList names xs

end

mutual

theorem map_callsUnder : ∀ (x : Expr) (names : List Bytes), (x.callsUnder names).map (·.1) = x.callees
  | .call l f args, names => by
      have hcallees : (Expr.call l f args).callees = f :: calleesList args := rfl
      rw [callsUnder, List.map_cons, map_callsUnderList args names, hcallees]
  | .relocated _ x, names => map_callsUnder x names
  | .closure _ params body, names => map_callsUnder body (params.map (·.name) ++ names)
  | .hole, _ | .number _ _, _ | .text _ _, _ | .var _ _, _ => rfl

theorem map_callsUnderList : ∀ (xs : List Expr) (names : List Bytes),
    (callsUnderList names xs).map (·.1) = calleesList xs
  | [], _ => rfl
  | x :: xs, names => by
      have hcallees : calleesList (x :: xs) = x.callees ++ calleesList xs := List.map_append
      rw [callsUnderList, List.map_append, map_callsUnder x names, map_callsUnderList xs names, hcallees]

end

end Expr

def Functions.callsUnder (fns : Functions) (fs : List FuncId) : List (FuncId × List Bytes) :=
  (fs.filterMap (fns[·]?)).flatMap fun fn => fn.body.callsUnder (fn.params.map (·.name))

theorem Functions.callee_of_callsUnder {fns : Functions} {fs : List FuncId} {call : FuncId × List Bytes}
    (h : call ∈ fns.callsUnder fs) : ∃ f ∈ fs, ∃ fn : Function, fns[f]? = some fn ∧ call.1 ∈ fn.body.callees := by
  obtain ⟨fn, hfn, hcall⟩ := List.mem_flatMap.1 h
  obtain ⟨f, hf, hget⟩ := List.mem_filterMap.1 hfn
  refine ⟨f, hf, fn, hget, ?_⟩
  rw [← Expr.map_callsUnder fn.body (fn.params.map (·.name))]
  exact List.mem_map_of_mem hcall

namespace Identifiers

variable {σ : Type}

theorem Shaped.assigned {ids : Identifiers σ} (h : ids.Shaped) (hd : ids.Distinct) {name : Bytes}
    (hname : name ∈ ids.names) : ∃ letters, IsTail letters ∧ ids.assigned name = stem name ++ letters := by
  obtain ⟨entry, hentry, rfl⟩ := List.mem_map.1 hname
  obtain ⟨letters, htail, hid⟩ := h entry hentry
  exact ⟨letters, htail, (assigns_assigned hd entry hentry).trans hid⟩

end Identifiers

namespace Session

/-- Whatever letters are drawn for a program that is compiled, all its code is written, and the identifier of a callee
is the name of no parameter around the call unless some parameter there is the callee's stem with letters behind. -/
theorem compile_uncaptured {s s' : Session} (hs : Reached s) {name text : Bytes} (h : compile name text s = .ok () s')
    {σ : Type} [LetterSource σ] (source : σ) :
    ∃ (deps : List FuncId) (e : Emitter σ),
      let fns := s'.workspace.registry.functions
      check name text s = .ok deps { s' with output := s.output } ∧
      Emitting.program fns s.entry deps { ids := { source } } = .ok () e ∧
      e.output = fns.program e.ids.assigned s.entry deps ∧
      ∀ call ∈ fns.callsUnder deps,
        (∀ letters, Identifiers.IsTail letters → Identifiers.stem (fns.nameOf call.1) ++ letters ∉ call.2) →
        e.ids.assigned (fns.nameOf call.1) ∉ call.2 := by
  have hends := compile_ends hs.kept name text
  rw [h] at hends
  cases hends with
  | @done _ w _ _ hk hclean hgood =>
  obtain ⟨deps, e₀, hcompiles, rfl⟩ := hgood
  obtain ⟨main, fn, haccepts⟩ := hcompiles.accepts
  have hcodable := haccepts.codable (hk.functions hclean)
  obtain ⟨e, hrun, hwrites⟩ := Emitting.program_writes s.entry hcodable { ids := { source } }
  have hdistinct : e.ids.Distinct := hwrites.ids.distinct ⟨List.nodup_nil, List.nodup_nil⟩
  have hshaped : e.ids.Shaped := hwrites.ids.shaped nofun
  refine ⟨deps, e, hcompiles.check, hrun, hwrites.output _ (Identifiers.assigns_assigned hdistinct), ?_⟩
  intro call hcall hfree
  obtain ⟨f, hf, fn, hfn, hcallee⟩ := Functions.callee_of_callsUnder hcall
  obtain ⟨hc, -⟩ := hk.body (s := { s with workspace := w }) hclean hfn hcallee
  have hname : w.registry.functions.nameOf call.1 ∈ fn.names w.registry.functions := by
    simpa only [Function.names, hc] using List.mem_cons_of_mem _ (List.mem_map_of_mem hcallee)
  obtain ⟨letters, htail, hid⟩ := hshaped.assigned hdistinct (hwrites.named f hf fn hfn _ hname)
  rw [hid]
  exact hfree letters htail

section Calls

variable {σ : Type} [LetterSource σ]

def calls (s : Session) (name text : Bytes) (source : σ) : List (Bytes × Bytes × List Bytes) :=
  match check name text s with
  | .error _ _ => []
  | .ok deps s' =>
    let fns := s'.workspace.registry.functions
    match Emitting.program fns s.entry deps { ids := { source } } with
    | .error _ _ => []
    | .ok _ e => (fns.callsUnder deps).map fun call =>
      (fns.nameOf call.1, e.ids.assigned (fns.nameOf call.1), call.2)

theorem calls_eq {s s' : Session} {name text : Bytes} {source : σ} {deps : List FuncId} {e : Emitter σ}
    (hcheck : check name text s = .ok deps s')
    (hrun : Emitting.program s'.workspace.registry.functions s.entry deps { ids := { source } } = .ok () e) :
    calls s name text source = (s'.workspace.registry.functions.callsUnder deps).map fun call =>
      (s'.workspace.registry.functions.nameOf call.1,
        e.ids.assigned (s'.workspace.registry.functions.nameOf call.1), call.2) := by
  simp only [calls, hcheck, hrun]

end Calls

/-- A parameter that is the stem of a function takes no call away from it. -/
theorem compile_uncaptured_stem :
    ∃ (s' : Session) (deps : List FuncId) (e : Emitter Cycle), compile (utf8 "a")
        (utf8 "function f number n => n function g number f$ => f f$ function main => g 5")
        (make none (Resolver.make [] []) [] 1 false) = .ok () s' ∧
      Emitting.program s'.workspace.registry.functions (utf8 "main") deps { ids := { source := { word := #[0] } } } =
        .ok () e ∧
      ∀ call ∈ s'.workspace.registry.functions.callsUnder deps,
        e.ids.assigned (s'.workspace.registry.functions.nameOf call.1) ∉ call.2 := by
  obtain ⟨⟨⟩, s', h⟩ := exists_of_ends (show ends (compile (utf8 "a")
    (utf8 "function f number n => n function g number f$ => f f$ function main => g 5")
    (make none (Resolver.make [] []) [] 1 false)) = true by decide +kernel)
  obtain ⟨deps, e, hcheck, hrun, -, huncaptured⟩ := compile_uncaptured (.fresh none (Resolver.make [] []) [] 1 false) h
    ({ word := #[0] } : Cycle)
  refine ⟨s', deps, e, h, hrun, fun call hcall => huncaptured call hcall fun letters htail hmem => ?_⟩
  have hcalls : calls (make none (Resolver.make [] []) [] 1 false) (utf8 "a")
      (utf8 "function f number n => n function g number f$ => f f$ function main => g 5") ({ word := #[0] } : Cycle) =
      [(utf8 "f", utf8 "f$a", [utf8 "f$"]), (utf8 "g", utf8 "g$a", [])] := by decide +kernel
  have hshape := List.mem_map_of_mem (f := fun call : FuncId × List Bytes =>
    (s'.workspace.registry.functions.nameOf call.1,
      e.ids.assigned (s'.workspace.registry.functions.nameOf call.1), call.2)) hcall
  rw [← calls_eq hcheck hrun, hcalls, List.mem_cons, List.mem_singleton] at hshape
  rcases hshape with hshape | hshape
  · simp only [Prod.mk.injEq] at hshape
    rw [hshape.1, hshape.2.2, List.mem_singleton] at hmem
    exact htail.ne_nil (List.append_cancel_left (hmem.trans (List.append_nil _).symm))
  · simp only [Prod.mk.injEq] at hshape
    rw [hshape.2.2] at hmem
    exact nomatch hmem

/-- A parameter with the very identifier of a function takes the call of that function away from it. -/
theorem compile_captured :
    ∃ (s' : Session) (deps : List FuncId) (e : Emitter Lagged), compile (utf8 "a")
        (utf8 "function f number n => n function g number f$v => f f$v function main => g 5")
        (make none (Resolver.make [] []) [] 1 false) = .ok () s' ∧
      check (utf8 "a") (utf8 "function f number n => n function g number f$v => f f$v function main => g 5")
        (make none (Resolver.make [] []) [] 1 false) = .ok deps { s' with output := [] } ∧
      Emitting.program s'.workspace.registry.functions (utf8 "main") deps { ids := { source := Lagged.ofSeed 1 } } =
        .ok () e ∧
      ∃ call ∈ s'.workspace.registry.functions.callsUnder deps,
        e.ids.assigned (s'.workspace.registry.functions.nameOf call.1) ∈ call.2 := by
  obtain ⟨⟨⟩, s', h⟩ := exists_of_ends (show ends (compile (utf8 "a")
    (utf8 "function f number n => n function g number f$v => f f$v function main => g 5")
    (make none (Resolver.make [] []) [] 1 false)) = true by decide +kernel)
  have hends := compile_ends (s := make none (Resolver.make [] []) [] 1 false) kept_initial (utf8 "a")
    (utf8 "function f number n => n function g number f$v => f f$v function main => g 5")
  rw [h] at hends
  cases hends with
  | @done _ w _ _ hk hclean hgood =>
  obtain ⟨deps, e, hcompiles, rfl⟩ := hgood
  refine ⟨_, deps, e, h, hcompiles.check, hcompiles.program, ?_⟩
  have hcalls : calls (make none (Resolver.make [] []) [] 1 false) (utf8 "a")
      (utf8 "function f number n => n function g number f$v => f f$v function main => g 5") (Lagged.ofSeed 1) =
      [(utf8 "f", utf8 "f$v", [utf8 "f$v"]), (utf8 "g", utf8 "g$x", [])] := by decide +kernel
  have hwritten := (calls_eq hcompiles.check hcompiles.program).symm.trans hcalls
  obtain ⟨call, hcall, he⟩ := List.mem_map.1 (hwritten ▸ List.mem_cons_self)
  simp only [Prod.mk.injEq] at he
  exact ⟨call, hcall, by rw [he.2.1, he.2.2]; exact List.mem_singleton_self _⟩

end Session

end Polish
