import Polish.Proofs.Requests

namespace Polish

namespace Expr

mutual

def outerCallees : Expr → List FuncId
  | .call _ f args => f :: outerCalleesList args
  | .relocated _ x => outerCallees x
  | .hole | .number _ _ | .text _ _ | .var _ _ | .closure _ _ _ => []

def outerCalleesList : List Expr → List FuncId
  | [] => []
  | x :: xs => outerCallees x ++ outerCalleesList xs

end

mutual

def innerCallees : Expr → List FuncId
  | .call _ _ args => innerCalleesList args
  | .relocated _ x => innerCallees x
  | .closure _ _ body => body.callees
  | .hole | .number _ _ | .text _ _ | .var _ _ => []

def innerCalleesList : List Expr → List FuncId
  | [] => []
  | x :: xs => innerCallees x ++ innerCalleesList xs

end

mutual

theorem mem_callees : ∀ (x : Expr) {g : FuncId}, g ∈ x.callees ↔ g ∈ x.outerCallees ∨ g ∈ x.innerCallees
  | .call l f args, g => by
      have hcallees : (Expr.call l f args).callees = f :: calleesList args := rfl
      rw [hcallees, outerCallees, innerCallees, List.mem_cons, List.mem_cons, mem_calleesList args, or_assoc]
  | .relocated _ x, g => mem_callees x
  | .closure _ _ body, g => by simp [outerCallees, innerCallees, callees, calls]
  | .hole, _ | .number _ _, _ | .text _ _, _ | .var _ _, _ => by simp [callees, calls, outerCallees, innerCallees]

theorem mem_calleesList : ∀ (xs : List Expr) {g : FuncId},
    g ∈ calleesList xs ↔ g ∈ outerCalleesList xs ∨ g ∈ innerCalleesList xs
  | [], _ => by simp [calleesList, callsList, outerCalleesList, innerCalleesList]
  | x :: xs, g => by
      rw [calleesList_cons, outerCalleesList, innerCalleesList, List.mem_append, List.mem_append, List.mem_append,
        mem_callees x, mem_calleesList xs, or_or_or_comm]

end

theorem mem_outerCalleesList {g : FuncId} {xs : List Expr} (h : g ∈ outerCalleesList xs) :
    ∃ x ∈ xs, g ∈ x.outerCallees := by
  induction xs with
  | nil => exact nomatch h
  | cons x xs ih =>
      rcases List.mem_append.1 h with h | h
      · exact ⟨x, List.mem_cons_self, h⟩
      · obtain ⟨y, hy, hg⟩ := ih h
        exact ⟨y, List.mem_cons_of_mem x hy, hg⟩

variable {fns : Functions} {follow : Bool} {r : Registry} {names : List Bytes} {x : Expr} {f g : FuncId}

/-- A use of a variable calls nothing, so that what is called outside of anonymous functions is reached whether or
not closures are followed. -/
theorem Legible.reaches_of_outer (hx : x.Legible r names) (hg : g ∈ x.outerCallees) : x.Reaches fns follow g := by
  induction hx with
  | number | text | bound | closure => exact nomatch hg
  | @call _ l f args _ _ _ _ _ _ ih =>
      rcases List.mem_cons.1 hg with rfl | hg
      · exact ⟨l, args, .refl⟩
      · obtain ⟨y, hy, hg⟩ := mem_outerCalleesList hg
        exact (ih y hy hg).of_leads (.argument hy)

theorem Legible.reaches_of_callee (hx : x.Legible r names) (hg : g ∈ x.callees) : x.Reaches fns true g := by
  induction hx with
  | number | text | bound => exact nomatch hg
  | closure _ _ ih => exact (ih hg).of_leads (.closure rfl)
  | @call _ l f args _ _ _ _ _ _ ih =>
      rcases List.mem_cons.1 hg with rfl | hg
      · exact ⟨l, args, .refl⟩
      · obtain ⟨call, hcall, rfl⟩ := List.mem_map.1 hg
        obtain ⟨y, hy, hcall⟩ := mem_callsList.1 hcall
        exact (ih y hy (List.mem_map.2 ⟨call, hcall, rfl⟩)).of_leads (.argument hy)

theorem Reaches.body {fn : Function} (h : x.Reaches fns follow f) (hf : fns[f]? = some fn) (hk : fn.kind = .custom)
    (hg : fn.body.Reaches fns follow g) : x.Reaches fns follow g := by
  obtain ⟨l, args, hpath⟩ := h
  obtain ⟨l', args', hpath'⟩ := hg
  exact ⟨l', args', (hpath.tail (.body hf hk)).trans hpath'⟩

end Expr

namespace Functions

variable {fns : Functions} {f g : FuncId}

def CallsOutside (fns : Functions) (f g : FuncId) : Prop :=
  ∃ fn : Function, fns[f]? = some fn ∧ g ∈ fn.body.outerCallees

def CallsInside (fns : Functions) (f g : FuncId) : Prop :=
  ∃ fn : Function, fns[f]? = some fn ∧ g ∈ fn.body.innerCallees

theorem calls_iff : fns.Calls f g ↔ fns.CallsOutside f g ∨ fns.CallsInside f g := by
  have hcalls : fns.Calls f g ↔ ∃ fn : Function, fns[f]? = some fn ∧ g ∈ fn.body.callees := by
    simp [Functions.Calls, Expr.callees]
  simp only [hcalls, Expr.mem_callees, and_or_left, exists_or]
  rfl

theorem Scoped.mem_callees (hfns : fns.Scoped) : g ∈ fns.callees f ↔ fns.Calls f g := by
  unfold Functions.callees Functions.Calls
  cases hf : fns[f]? with
  | none => simp
  | some fn =>
      rcases hfns.kinds f fn hf with hn | hc
      · simp [Function.callees, Registry.kind_native fn hn, Registry.body_native fn hn, Expr.calls]
      · simp [Function.callees, hc, Expr.callees]

end Functions

theorem Registry.Current.eq_of_name {r : Registry} (h : r.Current) {f g : FuncId} {fn gn : Function}
    (hf : r.functions[f]? = some fn) (hg : r.functions[g]? = some gn) (he : fn.name = gn.name) : f = g := by
  have hlookup := h f fn hf
  rw [he, h g gn hg] at hlookup
  exact (Option.some.inj hlookup).symm

theorem Registry.nativeCode?_opens : ∀ fn ∈ natives, Emitting.nativeCode? fn.operation =
    some (utf8 "(" ++ ((Emitting.nativeCode? fn.operation).getD []).drop 1) := by decide

section Scoped

variable {fns : Functions} (hfns : fns.Scoped) {f : FuncId} {fn : Function}
include hfns

theorem Functions.Scoped.name_mem_names (hf : fns[f]? = some fn) : fn.name ∈ fn.names fns := by
  rcases hfns.kinds f fn hf with hn | hc
  · simp [Function.names, Registry.kind_native fn hn]
  · simp [Function.names, hc]

theorem Functions.Scoped.callee_mem_names {g : FuncId} (hf : fns[f]? = some fn) (hg : g ∈ fns.callees f) :
    fns.nameOf g ∈ fn.names fns := by
  rcases hfns.kinds f fn hf with hn | hc
  · simp [Functions.callees, hf, Function.callees, Registry.kind_native fn hn] at hg
  · simp only [Functions.callees, hf, Function.callees, hc] at hg
    simpa only [Function.names, hc] using List.mem_cons_of_mem _ (List.mem_map_of_mem hg)

/-- The code of a function is a definition of its identifier. -/
theorem Functions.Scoped.code_eq (hf : fns[f]? = some fn) (id : Bytes → Bytes) :
    ∃ rest, fns.code id f = utf8 "function " ++ id (fns.nameOf f) ++ utf8 "(" ++ rest := by
  rw [Functions.nameOf_eq hf]
  simp only [Functions.code, hf, Function.code]
  rcases hfns.kinds f fn hf with hn | hc
  · rw [Registry.kind_native fn hn, Registry.nativeCode?_opens fn hn]
    exact ⟨_, by simp only [Option.getD_some, List.append_assoc]; rfl⟩
  · rw [hc]
    exact ⟨_, by simp only [Emitting.heading, List.append_assoc]; rfl⟩

end Scoped

namespace Session

/-- Sessions with or without a loader, after requests of which none ended in a fault. -/
inductive Reached : Session → Prop
  | fresh (loader : Option Loader) (resolver : Resolver) (entry : Bytes) (seed : Int) (follow : Bool) :
      Reached (make loader resolver entry seed follow)
  | request {s : Session} (h : Reached s) (r : Request) (hr : ∀ fault s', r.run s ≠ .error (.fault fault) s') :
      Reached (after r.run s)

theorem Reached.kept {s : Session} (h : Reached s) : Kept s.workspace := by
  induction h with
  | fresh => exact kept_initial
  | request _ r hr ih => exact (kept_after ih hr).1

section Accepts

variable {s : Session} {deps : List FuncId} {main f g : FuncId} {fn : Function}

theorem Accepts.mem_of_reaches (h : Accepts s deps main fn) (hf : f ∈ deps) {gn : Function}
    (hg : s.workspace.registry.functions[f]? = some gn) (hk : gn.kind = .custom)
    (hreach : gn.body.Reaches s.workspace.registry.functions s.follow g) : g ∈ deps := by
  refine (h.mem_iff g).2 (.inr ?_)
  rcases (h.mem_iff f).1 hf with rfl | hmain
  · obtain rfl := Option.some.inj (h.entry.symm.trans hg)
    exact hreach
  · exact hmain.body hg hk hreach

theorem Accepts.getElem? (h : Accepts s deps main fn) (hfns : s.workspace.registry.functions.Scoped) (hf : f ∈ deps) :
    ∃ gn : Function, s.workspace.registry.functions[f]? = some gn := by
  obtain ⟨gn, hg, -⟩ := h.codable hfns f hf
  exact ⟨gn, Functions.getElem?_of_resolve hg⟩

variable (hk : Kept s.workspace) (hclean : s.workspace.report.entries = [])
include hk hclean

theorem Kept.body {gn : Function} (hg : s.workspace.registry.functions[f]? = some gn) (hcall : g ∈ gn.body.callees) :
    gn.kind = .custom ∧ ∃ r names, gn.body.Legible r names := by
  rcases (hk.functions hclean).kinds f gn hg with hn | hc
  · rw [Registry.body_native gn hn] at hcall
    exact nomatch hcall
  · exact ⟨hc, hk.legible hclean gn (Array.mem_of_getElem? hg) hc⟩

theorem Accepts.mem_of_outside (h : Accepts s deps main fn) (hf : f ∈ deps)
    (hcall : s.workspace.registry.functions.CallsOutside f g) : g ∈ deps := by
  obtain ⟨gn, hg, houter⟩ := hcall
  obtain ⟨hc, r, names, hlegible⟩ := hk.body hclean hg ((Expr.mem_callees _).2 (.inl houter))
  exact h.mem_of_reaches hf hg hc (hlegible.reaches_of_outer houter)

theorem Accepts.mem_of_calls (h : Accepts s deps main fn) (hfollow : s.follow = true) (hf : f ∈ deps)
    (hcall : s.workspace.registry.functions.Calls f g) : g ∈ deps := by
  obtain ⟨gn, args, hg, hmem⟩ := hcall
  have hcallee : g ∈ gn.body.callees := List.mem_map.2 ⟨_, hmem, rfl⟩
  obtain ⟨hc, r, names, hlegible⟩ := hk.body hclean hg hcallee
  exact h.mem_of_reaches hf hg hc (hfollow ▸ hlegible.reaches_of_callee hcallee)

end Accepts

section Writes

variable {s : Session} {name text : Bytes} {w : Workspace} {deps : List FuncId} {e : Emitter Lagged} {f g : FuncId}

def Identified (w : Workspace) (e : Emitter Lagged) (f : FuncId) : Prop :=
  ∃ fn : Function, w.registry.functions[f]? = some fn ∧ fn.name ∈ e.ids.names

theorem Compiles.distinct (h : Compiles s name text w deps e) : e.ids.Distinct :=
  h.writes.ids.distinct ⟨List.nodup_nil, List.nodup_nil⟩

variable (h : Compiles s name text w deps e) (hk : Kept w) (hclean : w.report.entries = [])
include h hk hclean

theorem Compiles.identified (hf : f ∈ deps) : Identified w e f := by
  obtain ⟨main, fn, haccepts⟩ := h.accepts
  obtain ⟨gn, hg⟩ := haccepts.getElem? (hk.functions hclean) hf
  exact ⟨gn, hg, h.writes.named f hf gn hg _ ((hk.functions hclean).name_mem_names hg)⟩

theorem Compiles.identified_callee (hf : f ∈ deps) (hcall : w.registry.functions.Calls f g) : Identified w e g := by
  have hfns := hk.functions hclean
  have hcallee := hfns.mem_callees.2 hcall
  obtain ⟨fn, args, hfn, hmem⟩ := hcall
  obtain ⟨-, gn, hg, -⟩ := hfns.calls f fn hfn _ hmem
  have hname := h.writes.named f hf fn hfn _ (hfns.callee_mem_names hfn hcallee)
  rw [Functions.nameOf_eq hg] at hname
  exact ⟨gn, hg, hname⟩

theorem Compiles.eq_of_assigned (hf : Identified w e f) (hg : Identified w e g)
    (he : e.ids.assigned (w.registry.functions.nameOf f) = e.ids.assigned (w.registry.functions.nameOf g)) : f = g := by
  obtain ⟨fn, hf, hname⟩ := hf
  obtain ⟨gn, hg, hname'⟩ := hg
  rw [Functions.nameOf_eq hf, Functions.nameOf_eq hg] at he
  apply (hk.sound.current hclean).eq_of_name hf hg
  exact (Identifiers.assigns_assigned h.distinct).injOn h.distinct hname hname' he

theorem Compiles.mem_missing {missing : Bytes} : missing ∈ e.missing w.registry.functions ↔
    ∃ f ∈ deps, ∃ g, w.registry.functions.Calls f g ∧ g ∉ deps ∧ w.registry.functions.nameOf g = missing := by
  have hfns := hk.functions hclean
  have hwritten (g : FuncId) : g ∈ e.written ↔ g ∈ deps := by
    rw [h.writes.written]
    exact or_iff_right List.not_mem_nil
  have hcalled (g : FuncId) : g ∈ e.referenced ↔ ∃ f ∈ deps, w.registry.functions.Calls f g := by
    rw [h.writes.called]
    simp only [hfns.mem_callees]
    exact or_iff_right List.not_mem_nil
  rw [Emitter.mem_missing]
  constructor
  · rintro ⟨g, hg, hnew, gn, hgn, rfl⟩
    obtain ⟨f, hf, hcall⟩ := (hcalled g).1 hg
    exact ⟨f, hf, g, hcall, fun hmem => hnew ((hwritten g).2 hmem), Functions.nameOf_eq hgn⟩
  · rintro ⟨f, hf, g, hcall, hnew, rfl⟩
    obtain ⟨gn, hgn, -⟩ := h.identified_callee hk hclean hf hcall
    exact ⟨g, (hcalled g).2 ⟨f, hf, hcall⟩, fun hmem => hnew ((hwritten g).1 hmem), gn, hgn,
      (Functions.nameOf_eq hgn).symm⟩

/-- What is called outside of anonymous functions is never missing. -/
theorem Compiles.mem_missing_iff_inside {missing : Bytes} : missing ∈ e.missing w.registry.functions ↔
    ∃ f ∈ deps, ∃ g, w.registry.functions.CallsInside f g ∧ g ∉ deps ∧ w.registry.functions.nameOf g = missing := by
  obtain ⟨main, fn, haccepts⟩ := h.accepts
  rw [h.mem_missing hk hclean]
  constructor
  · rintro ⟨f, hf, g, hcall, hnew, rfl⟩
    rcases Functions.calls_iff.1 hcall with houter | hinner
    · exact absurd (haccepts.mem_of_outside hk hclean hf houter) hnew
    · exact ⟨f, hf, g, hinner, hnew, rfl⟩
  · rintro ⟨f, hf, g, hinner, hnew, rfl⟩
    exact ⟨f, hf, g, Functions.calls_iff.2 (.inr hinner), hnew, rfl⟩

theorem Compiles.missing_eq_nil (hfollow : s.follow = true) : e.missing w.registry.functions = [] := by
  obtain ⟨main, fn, haccepts⟩ := h.accepts
  apply List.eq_nil_iff_forall_not_mem.2
  intro missing hmem
  obtain ⟨f, hf, g, hcall, hnew, -⟩ := (h.mem_missing hk hclean).1 hmem
  exact hnew (haccepts.mem_of_calls hk hclean hfollow hf hcall)

theorem Compiles.nodup_missing : (e.missing w.registry.functions).Nodup := by
  apply Emitter.nodup_missing (h.writes.nodup List.nodup_nil)
  intro f g fn gn hf hg
  exact (hk.sound.current hclean).eq_of_name hf hg

end Writes

/-- The code of a program that is compiled: it defines the functions that the entry depends on and the entry, each
once and under an identifier of its own, and ends with the call of the entry. Whatever it calls outside of anonymous
functions is defined, and what is missing is what only anonymous functions call; where closures are followed nothing
is missing. -/
theorem compile_links {s s' : Session} (hs : Reached s) {name text : Bytes} (h : compile name text s = .ok () s') :
    ∃ (deps : List FuncId) (main : FuncId) (e : Emitter Lagged),
      let fns := s'.workspace.registry.functions
      let id := fun f => e.ids.assigned (fns.nameOf f)
      check name text s = .ok deps { s' with output := s.output } ∧
      Emitting.program fns s.entry deps s.emitter = .ok () e ∧
      s'.workspace.registry.lookup s.entry = some main ∧ deps.Nodup ∧ main ∈ deps ∧
      s'.output = s.output ++ deps.flatMap (fns.code e.ids.assigned) ++ id main ++ utf8 "()\n" ∧
      (∀ f ∈ deps, ∃ rest, fns.code e.ids.assigned f = utf8 "function " ++ id f ++ utf8 "(" ++ rest) ∧
      (deps.map id).Nodup ∧
      (∀ f ∈ deps, ∀ g, fns.Calls f g → ∀ d ∈ deps, id g = id d → g = d) ∧
      (∀ f ∈ deps, ∀ g, fns.CallsOutside f g → g ∈ deps) ∧
      (e.missing fns).Nodup ∧
      (∀ missing, missing ∈ e.missing fns ↔
        ∃ f ∈ deps, ∃ g, fns.CallsInside f g ∧ g ∉ deps ∧ fns.nameOf g = missing) ∧
      (s.follow = true → e.missing fns = [] ∧ ∀ f ∈ deps, ∀ g, fns.Calls f g → g ∈ deps) := by
  have hends := compile_ends hs.kept name text
  rw [h] at hends
  cases hends with
  | @done _ w _ _ hk hclean hgood =>
  obtain ⟨deps, e, hcompiles, rfl⟩ := hgood
  obtain ⟨main, fn, haccepts⟩ := hcompiles.accepts
  have hfns := hk.functions hclean
  have hmain : main ∈ deps := (haccepts.mem_iff main).2 (.inl rfl)
  have hname : w.registry.functions.nameOf main = s.entry := by
    obtain ⟨gn, hg, he, -⟩ := hk.sound.wellFormed.named _ main (Registry.mem_of_lookup haccepts.lookup)
    rw [Functions.nameOf_eq hg, he]
  have houtput := hcompiles.writes.output _ (Identifiers.assigns_assigned hcompiles.distinct)
  have hidentified : ∀ f ∈ deps, Identified w e f := fun f hf => hcompiles.identified hk hclean hf
  refine ⟨deps, main, e, hcompiles.check, hcompiles.program, haccepts.lookup, haccepts.nodup, hmain, ?_, ?_, ?_, ?_, ?_,
    hcompiles.nodup_missing hk hclean, fun missing => hcompiles.mem_missing_iff_inside hk hclean, ?_⟩
  · simp only [hname, houtput, Functions.program, emitter, List.nil_append, List.append_assoc]
  · intro f hf
    obtain ⟨gn, hg⟩ := haccepts.getElem? hfns hf
    exact hfns.code_eq hg _
  · apply haccepts.nodup.map_on
    intro f hf g hg he
    exact hcompiles.eq_of_assigned hk hclean (hidentified f hf) (hidentified g hg) he
  · intro f hf g hcall d hd he
    exact hcompiles.eq_of_assigned hk hclean (hcompiles.identified_callee hk hclean hf hcall) (hidentified d hd) he
  · intro f hf g hcall
    exact haccepts.mem_of_outside hk hclean hf hcall
  · intro hfollow
    refine ⟨hcompiles.missing_eq_nil hk hclean hfollow, ?_⟩
    intro f hf g hcall
    exact haccepts.mem_of_calls hk hclean hfollow hf hcall

/-- What the code of a program calls without defining it. -/
def missing (name text : Bytes) (s : Session) : List Bytes := match check name text s with
  | .ok deps s' => match Emitting.program s'.workspace.registry.functions s.entry deps s.emitter with
    | .ok _ e => e.missing s'.workspace.registry.functions
    | .error _ _ => []
  | .error _ _ => []

/-- A program whose entry prints an anonymous function that calls another function, which is then missing. -/
theorem compile_links_closure :
    ∃ (s' : Session) (deps : List FuncId) (e : Emitter Lagged), compile (utf8 "a")
        (utf8 "function twice number n => core/mul n 2 function main => core/cat anon number n => twice n")
        (make none (Resolver.make [] []) [] 1 false) = .ok () s' ∧ deps.Nodup ∧
      (deps.map fun f => e.ids.assigned (s'.workspace.registry.functions.nameOf f)).Nodup ∧
      (∀ f ∈ deps, ∀ g, s'.workspace.registry.functions.CallsOutside f g → g ∈ deps) ∧
      e.missing s'.workspace.registry.functions = [utf8 "twice"] ∧
      ∃ f ∈ deps, ∃ g, s'.workspace.registry.functions.CallsInside f g ∧ g ∉ deps ∧
        s'.workspace.registry.functions.nameOf g = utf8 "twice" := by
  obtain ⟨⟨⟩, s', h⟩ := exists_of_ends (show ends (compile (utf8 "a")
    (utf8 "function twice number n => core/mul n 2 function main => core/cat anon number n => twice n")
    (make none (Resolver.make [] []) [] 1 false)) = true by decide +kernel)
  have hmissing : missing (utf8 "a")
      (utf8 "function twice number n => core/mul n 2 function main => core/cat anon number n => twice n")
      (make none (Resolver.make [] []) [] 1 false) = [utf8 "twice"] := by decide +kernel
  obtain ⟨deps, main, e, hcheck, hprogram, -, hnodup, -, -, -, hids, -, houtside, -, hinside, -⟩ :=
    compile_links (.fresh none (Resolver.make [] []) [] 1 false) h
  simp only [missing, hcheck, hprogram] at hmissing
  exact ⟨s', deps, e, h, hnodup, hids, houtside, hmissing, (hinside _).1 (hmissing ▸ List.mem_singleton_self _)⟩

end Session

end Polish
