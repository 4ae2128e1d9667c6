import Polish.Proofs.Capture
import Polish.Proofs.Script

namespace Polish

open Script

theorem Identifiers.isNameByte_stem {name : Bytes} : ∀ b ∈ stem name, isNameByte b = true := by
  have hdollar : isNameByte dollar = true := by decide
  intro b hb
  rw [stem_eq, List.mem_append, List.mem_append, List.mem_singleton] at hb
  rcases hb with (hb | hb) | rfl
  · unfold guard at hb
    split at hb
    · rwa [List.mem_singleton.1 hb]
    · cases hb
  · simp only [isNameByte, (List.mem_filter.1 hb).2, Bool.true_or]
  · exact hdollar

theorem Identifiers.isNameByte_lower {b : UInt8} (h : Bytes.isLower b = true) : isNameByte b = true := by
  simp only [isNameByte, isKept, h, Bool.true_or]

theorem Script.dollar_notMem_reserved : ∀ word ∈ reserved, Identifiers.dollar ∉ word := by decide +kernel

/-- Identifiers are names: they have a dollar sign in them, which no reserved word has. -/
theorem Identifiers.Shaped.isName {σ : Type} {ids : Identifiers σ} (h : ids.Shaped) (hd : ids.Distinct) {name : Bytes}
    (hname : name ∈ ids.names) : IsName (ids.assigned name) := by
  obtain ⟨letters, htail, hid⟩ := h.assigned hd hname
  have hdollar : dollar ∈ stem name := by
    rw [stem_eq]
    exact List.mem_append_right _ (List.mem_singleton_self _)
  rw [hid]
  constructor
  · exact List.ne_nil_of_mem (List.mem_append_left _ hdollar)
  · intro b hb
    rcases List.mem_append.1 hb with hb | hb
    · exact isNameByte_stem b hb
    · exact isNameByte_lower (htail.lower b hb)
  · exact isDigit_head_stem name letters
  · intro hreserved
    exact dollar_notMem_reserved _ hreserved (List.mem_append_left _ hdollar)

namespace Expr

mutual

def closureParams : Expr → List Bytes
  | .closure _ params body => params.map (·.name) ++ closureParams body
  | .relocated _ x => closureParams x
  | .call _ _ args => closureParamsList args
  | .hole | .number _ _ | .text _ _ | .var _ _ => []

def closureParamsList : List Expr → List Bytes
  | [] => []
  | x :: xs => closureParams x ++ closureParamsList xs

end

mutual

def vars : Expr → List Bytes
  | .var _ name => [name]
  | .closure _ _ body => vars body
  | .relocated _ x => vars x
  | .call _ _ args => varsList args
  | .hole | .number _ _ | .text _ _ => []

def varsList : List Expr → List Bytes
  | [] => []
  | x :: xs => vars x ++ varsList xs

end

theorem closureParamsList_eq (xs : List Expr) : closureParamsList xs = xs.flatMap closureParams :=
  Companion.eq_flatMap rfl (fun _ _ => rfl) xs

theorem varsList_eq (xs : List Expr) : varsList xs = xs.flatMap vars :=
  Companion.eq_flatMap rfl (fun _ _ => rfl) xs

theorem codeList_eq (fns : Functions) (id : Bytes → Bytes) (xs : List Expr) :
    codeList fns id xs = xs.map (code fns id) := Companion.eq_map rfl (fun _ _ => rfl) xs

end Expr

def Scope.Within (scope : Scope) (names : List Bytes) : Prop := ∀ name t, scope.lookup name = some t → name ∈ names

theorem Scope.Within.bind {scope : Scope} {names : List Bytes} (h : scope.Within names) (params : List Param) :
    (scope.bind params).Within (params.map (·.name) ++ names) := by
  induction params generalizing scope names with
  | nil => exact h
  | cons p params ih =>
      have hcons : Scope.Within ((p.name, p.ty) :: scope) (p.name :: names) := by
        intro name t hlookup
        rw [List.lookup_cons] at hlookup
        split at hlookup
        · rename_i heq
          exact List.mem_cons.2 (.inl (eq_of_beq heq))
        · exact List.mem_cons_of_mem _ (h name t hlookup)
      intro name t hlookup
      have hmem := ih hcons name t hlookup
      simp only [List.map_cons, List.cons_append, List.mem_append, List.mem_cons] at hmem ⊢
      exact or_left_comm.1 hmem

theorem Scope.within_params (params : List Param) : (Scope.bind [] params).Within (params.map (·.name)) := by
  have hnone : Scope.Within [] [] := fun name t h => by cases h
  have hwithin := hnone.bind params
  rwa [List.append_nil] at hwithin

theorem Script.heading_append (name : Bytes) (params : List Param) (body : Bytes) :
    utf8 "function " ++ name ++ Emitting.heading params ++ body ++ utf8 "\x7d" =
      definition name (params.map (·.name)) (utf8 " return " ++ body) := by
  have hopen : utf8 ")\x7b return " = utf8 ")\x7b" ++ utf8 " return " := by decide +kernel
  simp only [Emitting.heading, definition, hopen, List.append_assoc]

namespace Expr

variable {fns : Functions} {id : Bytes → Bytes} {scope : Scope} {x : Expr} {names : List Bytes}

theorem Scoped.mem_of_var (hx : x.Scoped scope) (hscope : scope.Within names) :
    ∀ v ∈ x.vars, v ∈ names ++ x.closureParams := by
  induction hx generalizing names with
  | number | text => exact List.forall_mem_nil _
  | var h => exact List.forall_mem_singleton.2 (List.mem_append_left _ (hscope _ _ h))
  | relocated _ ih => exact ih hscope
  | @closure scope l params body _ _ ih =>
      intro v hv
      have hmem := ih (hscope.bind params) v hv
      simp only [closureParams, List.mem_append] at hmem ⊢
      rwa [or_left_comm, ← or_assoc]
  | @call scope l f args h ih =>
      intro v hv
      rw [vars, varsList_eq] at hv
      obtain ⟨x, hx, hv⟩ := List.mem_flatMap.1 hv
      rw [closureParams, closureParamsList_eq, List.mem_append, List.mem_flatMap]
      exact (List.mem_append.1 (ih x hx hscope v hv)).imp_right fun hmem => ⟨x, hx, hmem⟩

theorem Scoped.isExpr (hx : x.Scoped scope) (hscope : scope.Within names) (hnames : ∀ n ∈ names, IsName n)
    (hparams : ∀ p ∈ x.closureParams, IsName p) (hid : ∀ f ∈ x.callees, IsName (id (fns.nameOf f))) :
    IsExpr names (x.code fns id) := by
  induction hx generalizing names with
  | number => exact .number (isNumber_number _)
  | text => exact .text (isLiteral_literal _)
  | var h => exact .var (hnames _ (hscope _ _ h)) (hscope _ _ h)
  | relocated _ ih => exact ih hscope hnames hparams hid
  | @closure scope l params body _ _ ih =>
      rw [closureParams, List.forall_mem_append] at hparams
      have hbody := ih (hscope.bind params) (List.forall_mem_append.2 ⟨hparams.1, hnames⟩) hparams.2 hid
      have hclosure := IsExpr.closure hparams.1 hbody
      rwa [← heading_append, List.append_nil] at hclosure
  | @call scope l f args h ih =>
      have hcallees : (Expr.call l f args).callees = f :: calleesList args := rfl
      rw [hcallees, List.forall_mem_cons, calleesList_eq] at hid
      rw [closureParams, closureParamsList_eq] at hparams
      rw [code, codeList_eq]
      refine .call hid.1 (List.forall_mem_map.2 fun x hx => ?_)
      apply ih x hx hscope hnames
      · exact fun p hp => hparams p (List.mem_flatMap.2 ⟨x, hx, hp⟩)
      · exact fun g hg => hid.2 g (List.mem_flatMap.2 ⟨x, hx, hg⟩)

end Expr

namespace Function

def parameters (fn : Function) : List Bytes := match fn.kind with
  | .custom => fn.params.map (·.name) ++ fn.body.closureParams
  | _ => []

def vars (fn : Function) : List Bytes := match fn.kind with
  | .custom => fn.body.vars
  | _ => []

end Function

namespace Script

theorem isBody_operation (op : UInt8) (ho : op ∈ [ascii '+', ascii '-', ascii '*', ascii '/']) :
    IsBody [utf8 "$a", utf8 "$b"] (utf8 "return " ++ (utf8 "$a" ++ [ascii ' ', op, ascii ' '] ++ utf8 "$b")) :=
  .gives (.operation ho (.var (by decide +kernel) (by decide +kernel)) (.var (by decide +kernel) (by decide +kernel)))

theorem isStatement_native {name code : Bytes} {op : Operation} (hn : IsName name)
    (h : Emitting.nativeCode? op = some code) : IsStatement (utf8 "function " ++ name ++ code) := by
  have hdefines {params : List Bytes} {body : Bytes} (hp : ∀ p ∈ params, IsName p) (hb : IsBody params body)
      (he : code = utf8 "(" ++ List.intercalate (utf8 ",") params ++ utf8 ")\x7b" ++ body ++ utf8 "\x7d") :
      IsStatement (utf8 "function " ++ name ++ code) := by
    have hstatement := IsStatement.function hn hp hb
    simpa only [he, definition, List.append_assoc] using hstatement
  cases op with
  | add =>
      exact hdefines (by decide +kernel) (isBody_operation (ascii '+') (by decide))
        ((Option.some.inj h).symm.trans (by decide +kernel))
  | sub =>
      exact hdefines (by decide +kernel) (isBody_operation (ascii '-') (by decide))
        ((Option.some.inj h).symm.trans (by decide +kernel))
  | mul =>
      exact hdefines (by decide +kernel) (isBody_operation (ascii '*') (by decide))
        ((Option.some.inj h).symm.trans (by decide +kernel))
  | div =>
      exact hdefines (by decide +kernel) (isBody_operation (ascii '/') (by decide))
        ((Option.some.inj h).symm.trans (by decide +kernel))
  | cat =>
      have hlogs : IsBody [utf8 "$str"] (call (utf8 "console" ++ utf8 "." ++ utf8 "log") [utf8 "$str"]) :=
        .calls (by decide +kernel) (by decide +kernel)
          (List.forall_mem_singleton.2 (.var (by decide +kernel) (by decide +kernel)))
      exact hdefines (by decide +kernel) hlogs ((Option.some.inj h).symm.trans (by decide +kernel))
  | call | other => cases h

end Script

namespace Functions.Scoped

variable {fns : Functions} (hfns : fns.Scoped) {f : FuncId} {fn : Function} (hf : fns[f]? = some fn)
include hfns hf

theorem vars_subset : ∀ v ∈ fn.vars, v ∈ fn.parameters := by
  unfold Function.vars Function.parameters
  rcases hfns.kinds f fn hf with hn | hc
  · rw [Registry.kind_native fn hn]
    exact List.forall_mem_nil _
  · rw [hc]
    exact (hfns.bodies f fn hf hc).mem_of_var (Scope.within_params fn.params)

/-- The code of a function whose parameters are names is a statement in a line of its own. -/
theorem isStatement_code {id : Bytes → Bytes} (hid : ∀ name ∈ fn.names fns, IsName (id name))
    (hparams : ∀ p ∈ fn.parameters, IsName p) : ∃ line, fns.code id f = line ++ [newline] ∧ IsStatement line := by
  have hclose : utf8 "\x7d\n" = utf8 "\x7d" ++ [newline] := by decide +kernel
  have hnewline : utf8 "\n" = [newline] := by decide +kernel
  have hreturn : utf8 " return " = utf8 " " ++ utf8 "return " := by decide +kernel
  unfold Function.names at hid
  unfold Function.parameters at hparams
  simp only [Functions.code, hf, Function.code]
  rcases hfns.kinds f fn hf with hn | hc
  · rw [Registry.kind_native fn hn] at hid ⊢
    obtain ⟨code, hcode⟩ := Option.isSome_iff_exists.1 (Registry.nativeCode?_natives fn hn)
    rw [hcode, hnewline]
    exact ⟨_, rfl, isStatement_native (hid _ (List.mem_singleton_self _)) hcode⟩
  · rw [hc] at hid hparams ⊢
    dsimp only at hid hparams ⊢
    rw [List.forall_mem_cons, List.forall_mem_map] at hid
    rw [List.forall_mem_append] at hparams
    have hbody := (hfns.bodies f fn hf hc).isExpr (Scope.within_params fn.params) hparams.1 hparams.2 hid.2
    refine ⟨_, ?_, .function hid.1 hparams.1 (.blank (.gives hbody))⟩
    rw [hclose, ← List.append_assoc, heading_append, hreturn, List.append_assoc]

end Functions.Scoped

namespace Session

/-- Whatever letters are drawn for a program that is compiled, its code is the lines of its functions and a call of the
entry. All identifiers in it are names, all variables in it are parameters, and the line of a function is a function
statement if the parameters in it are names. -/
theorem compile_statements {s s' : Session} (hs : Reached s) {name text : Bytes} (h : compile name text s = .ok () s')
    {σ : Type} [LetterSource σ] (source : σ) :
    ∃ (deps : List FuncId) (e : Emitter σ),
      let fns := s'.workspace.registry.functions
      check name text s = .ok deps { s' with output := s.output } ∧
      (∃ written, Emitting.program fns s.entry deps s.emitter = .ok () written ∧ s'.output = s.output ++ written.output) ∧
      Emitting.program fns s.entry deps { ids := { source } } = .ok () e ∧
      e.output = fns.program e.ids.assigned s.entry deps ∧
      IsName (e.ids.assigned s.entry) ∧
      ∀ f ∈ deps, ∃ fn : Function, fns[f]? = some fn ∧
        (∀ name ∈ fn.names fns, IsName (e.ids.assigned name)) ∧
        (∀ v ∈ fn.vars, v ∈ fn.parameters) ∧
        ((∀ p ∈ fn.parameters, IsName p) →
          ∃ line, fns.code e.ids.assigned f = line ++ [newline] ∧ newline ∉ line ∧ IsStatement line) := by
  have hends := compile_ends hs.kept name text
  rw [h] at hends
  cases hends with
  | @done _ w _ _ hk hclean hgood =>
  obtain ⟨deps, e₀, hcompiles, rfl⟩ := hgood
  obtain ⟨main, fn, haccepts⟩ := hcompiles.accepts
  have hfns := hk.functions hclean
  obtain ⟨e, hrun, hwrites⟩ := Emitting.program_writes s.entry (haccepts.codable hfns) { ids := { source } }
  have hdistinct : e.ids.Distinct := hwrites.ids.distinct ⟨List.nodup_nil, List.nodup_nil⟩
  have hshaped : e.ids.Shaped := hwrites.ids.shaped (List.forall_mem_nil _)
  obtain ⟨gn, hg, hentry, -⟩ := hk.sound.wellFormed.named _ main (Registry.mem_of_lookup haccepts.lookup)
  have hmain : main ∈ deps := (haccepts.mem_iff main).2 (.inl rfl)
  refine ⟨deps, e, hcompiles.check, ⟨e₀, hcompiles.program, rfl⟩, hrun,
    hwrites.output _ (Identifiers.assigns_assigned hdistinct), ?_, ?_⟩
  · rw [← hentry]
    exact hshaped.isName hdistinct (hwrites.named main hmain gn hg _ (hfns.name_mem_names hg))
  · intro f hf
    obtain ⟨fn, hfn⟩ := haccepts.getElem? hfns hf
    have hid (name : Bytes) (hname : name ∈ fn.names w.registry.functions) : IsName (e.ids.assigned name) :=
      hshaped.isName hdistinct (hwrites.named f hf fn hfn name hname)
    refine ⟨fn, hfn, hid, hfns.vars_subset hfn, fun hparams => ?_⟩
    obtain ⟨line, hline, hstatement⟩ := hfns.isStatement_code hfn hid hparams
    exact ⟨line, hline, hstatement.newline_notMem, hstatement⟩

def parameters (s : Session) (name text : Bytes) : List Bytes := match check name text s with
  | .ok deps s' => (deps.filterMap (s'.workspace.registry.functions[·]?)).flatMap Function.parameters
  | .error _ _ => []

theorem mem_parameters {s s' : Session} {name text : Bytes} {deps : List FuncId} {p : Bytes}
    (hcheck : check name text s = .ok deps s') : p ∈ parameters s name text ↔
      ∃ f ∈ deps, ∃ fn : Function, s'.workspace.registry.functions[f]? = some fn ∧ p ∈ fn.parameters := by
  simp only [parameters, hcheck, List.mem_flatMap, List.mem_filterMap]
  constructor
  · rintro ⟨fn, ⟨f, hf, hfn⟩, hp⟩
    exact ⟨f, hf, fn, hfn, hp⟩
  · rintro ⟨f, hf, fn, hfn, hp⟩
    exact ⟨fn, ⟨f, hf, hfn⟩, hp⟩

/-- A program with a parameter and a native function: each of its three functions is a statement. -/
theorem compile_statements_double :
    ∃ (s' : Session) (deps : List FuncId) (e : Emitter Cycle), compile (utf8 "a")
        (utf8 "function twice number n => core/add n n function main => twice 5")
        (make none (Resolver.make [] []) [] 1 false) = .ok () s' ∧
      Emitting.program s'.workspace.registry.functions (utf8 "main") deps { ids := { source := { word := #[0] } } } =
        .ok () e ∧
      ∀ f ∈ deps, ∃ line, s'.workspace.registry.functions.code e.ids.assigned f = line ++ [newline] ∧
        newline ∉ line ∧ IsStatement line := by
  obtain ⟨⟨⟩, s', h⟩ := exists_of_ends (show ends (compile (utf8 "a")
    (utf8 "function twice number n => core/add n n function main => twice 5")
    (make none (Resolver.make [] []) [] 1 false)) = true by decide +kernel)
  obtain ⟨deps, e, hcheck, -, hrun, -, -, hlines⟩ := compile_statements (.fresh none (Resolver.make [] []) [] 1 false) h
    ({ word := #[0] } : Cycle)
  refine ⟨s', deps, e, h, hrun, fun f hf => ?_⟩
  obtain ⟨fn, hfn, -, -, hline⟩ := hlines f hf
  refine hline fun p hp => ?_
  have hnames : ∀ p ∈ parameters (make none (Resolver.make [] []) [] 1 false) (utf8 "a")
      (utf8 "function twice number n => core/add n n function main => twice 5"), IsName p := by decide +kernel
  exact hnames p ((mem_parameters hcheck).2 ⟨f, hf, fn, hfn, hp⟩)

/-- A parameter whose name has a minus sign in it goes into the code as it is. -/
theorem compile_misnamed :
    ∃ (s' : Session) (deps : List FuncId), compile (utf8 "a")
        (utf8 "function f number a-b => a-b function main => f 1")
        (make none (Resolver.make [] []) [] 1 false) = .ok () s' ∧
      check (utf8 "a") (utf8 "function f number a-b => a-b function main => f 1")
        (make none (Resolver.make [] []) [] 1 false) = .ok deps { s' with output := [] } ∧
      s'.output = utf8 "function f$x(a-b)\x7b return a-b\x7d\nfunction main$v()\x7b return f$x(1)\x7d\nmain$v()\n" ∧
      ∃ f ∈ deps, ∃ fn : Function, s'.workspace.registry.functions[f]? = some fn ∧
        ∃ p ∈ fn.parameters, ¬ IsName p := by
  obtain ⟨⟨⟩, s', h⟩ := exists_of_ends (show ends (compile (utf8 "a")
    (utf8 "function f number a-b => a-b function main => f 1")
    (make none (Resolver.make [] []) [] 1 false)) = true by decide +kernel)
  have hends := compile_ends (s := make none (Resolver.make [] []) [] 1 false) kept_initial (utf8 "a")
    (utf8 "function f number a-b => a-b function main => f 1")
  have houtput : (after (compile (utf8 "a") (utf8 "function f number a-b => a-b function main => f 1"))
      (make none (Resolver.make [] []) [] 1 false)).output =
      utf8 "function f$x(a-b)\x7b return a-b\x7d\nfunction main$v()\x7b return f$x(1)\x7d\nmain$v()\n" := by
    decide +kernel
  rw [h] at hends
  simp only [after, h] at houtput
  cases hends with
  | @done _ w _ _ hk hclean hgood =>
  obtain ⟨deps, e, hcompiles, rfl⟩ := hgood
  have hparam : utf8 "a-b" ∈ parameters (make none (Resolver.make [] []) [] 1 false) (utf8 "a")
      (utf8 "function f number a-b => a-b function main => f 1") := by decide +kernel
  obtain ⟨f, hf, fn, hfn, hp⟩ := (mem_parameters hcompiles.check).1 hparam
  exact ⟨_, deps, h, hcompiles.check, houtput, f, hf, fn, hfn, utf8 "a-b", hp, by decide +kernel⟩

end Session

end Polish
