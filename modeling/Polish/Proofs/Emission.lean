import Polish.Emission
import Polish.Proofs.Identifiers
import Polish.Proofs.Registration

namespace Polish

theorem mem_or_exists_of_mem_intercalate {α : Type} {a : α} {separator : List α} {parts : List (List α)}
    (h : a ∈ List.intercalate separator parts) : a ∈ separator ∨ ∃ part ∈ parts, a ∈ part := by
  induction parts with
  | nil => cases h
  | cons part parts ih =>
      rw [List.exists_mem_cons_iff]
      cases parts with
      | nil =>
          rw [List.intercalate_singleton] at h
          exact .inr (.inl h)
      | cons next parts =>
          rw [List.intercalate_cons_cons, List.mem_append, List.mem_append] at h
          rcases h with (h | h) | h
          · exact .inr (.inl h)
          · exact .inl h
          · exact (ih h).imp_right .inr

def Functions.nameOf (fns : Functions) (f : FuncId) : Bytes := (fns[f]?.map (·.name)).getD []

namespace Expr

def callees (x : Expr) : List FuncId := x.calls.map (·.1)

def calleesList (xs : List Expr) : List FuncId := (callsList xs).map (·.1)

theorem calleesList_cons (x : Expr) (xs : List Expr) : calleesList (x :: xs) = x.callees ++ calleesList xs :=
  List.map_append

theorem calleesList_eq (xs : List Expr) : calleesList xs = xs.flatMap callees :=
  Companion.eq_flatMap rfl calleesList_cons xs

mutual

def code (fns : Functions) (id : Bytes → Bytes) : Expr → Bytes
  | .hole => []
  | .number _ value => Emitting.number value
  | .text _ value => Text.literal value
  | .var _ name => name
  | .relocated _ x => code fns id x
  | .closure _ params body => utf8 "function " ++ Emitting.heading params ++ code fns id body ++ utf8 "\x7d"
  | .call _ f args =>
    id (fns.nameOf f) ++ utf8 "(" ++ List.intercalate (utf8 ",") (codeList fns id args) ++ utf8 ")"

def codeList (fns : Functions) (id : Bytes → Bytes) : List Expr → List Bytes
  | [] => []
  | x :: xs => code fns id x :: codeList fns id xs

end

mutual

/-- Why an expression has no code: the first cause in the order in which code is made. -/
def flaw? (fns : Functions) : Expr → Option (Halt (Failure Uncodable))
  | .hole => some (.failure { cause := .noExpr })
  | .number _ _ | .text _ _ | .var _ _ => none
  | .relocated _ x => flaw? fns x
  | .closure _ _ body => (flaw? fns body).map (·.within .closure)
  | .call _ f args => match fns.resolve f with
    | .error fault => some (.fault fault)
    | .ok fn =>
      if fn.kind = .native && fn.operation = .call then some (.failure { cause := .native fn.operation })
      else flawList? fns fn.name 0 args

def flawList? (fns : Functions) (callee : Bytes) : Nat → List Expr → Option (Halt (Failure Uncodable))
  | _, [] => none
  | i, x :: xs => ((flaw? fns x).map (·.within (.argument callee i))).or (flawList? fns callee (i + 1) xs)

end

end Expr

namespace Function

def callees (fn : Function) : List FuncId := match fn.kind with
  | .custom => fn.body.callees
  | _ => []

def names (fns : Functions) (fn : Function) : List Bytes := match fn.kind with
  | .custom => fn.name :: fn.body.callees.map fns.nameOf
  | .native => [fn.name]
  | _ => []

def code (fns : Functions) (fn : Function) (id : Bytes → Bytes) : Bytes := match fn.kind with
  | .custom =>
    utf8 "function " ++ id fn.name ++ Emitting.heading fn.params ++ fn.body.code fns id ++ utf8 "\x7d\n"
  | .native => utf8 "function " ++ id fn.name ++ (Emitting.nativeCode? fn.operation).getD [] ++ utf8 "\n"
  | _ => []

def flaw? (fns : Functions) (fn : Function) : Option (Halt (Failure Uncodable)) := match fn.kind with
  | .pending => some (.fault (.pending fn.name))
  | .custom => (fn.body.flaw? fns).map (·.within .body)
  | .native => if (Emitting.nativeCode? fn.operation).isSome then none else some (.failure { cause := .native fn.operation })
  | .other _ => none

end Function

namespace Functions

def callees (fns : Functions) (f : FuncId) : List FuncId := match fns[f]? with
  | some fn => fn.callees
  | none => []

def code (fns : Functions) (id : Bytes → Bytes) (f : FuncId) : Bytes := match fns[f]? with
  | some fn => fn.code fns id
  | none => []

def program (fns : Functions) (id : Bytes → Bytes) (entry : Bytes) (fs : List FuncId) : Bytes :=
  fs.flatMap (fns.code id) ++ (id entry ++ utf8 "()\n")

def Codable (fns : Functions) (f : FuncId) : Prop := ∃ fn : Function, fns.resolve f = .ok fn ∧ fn.flaw? fns = none

theorem getElem?_of_resolve {fns : Functions} {f : FuncId} {fn : Function} (h : fns.resolve f = .ok fn) :
    fns[f]? = some fn := by
  unfold resolve at h
  split at h
  · exact nomatch h
  · split at h
    · exact nomatch h
    · rw [← Except.ok.inj h]
      assumption

theorem nameOf_eq {fns : Functions} {f : FuncId} {fn : Function} (h : fns[f]? = some fn) : fns.nameOf f = fn.name := by
  simp [nameOf, h]

end Functions

namespace Emitting

variable {σ α β γ : Type}

structure Leaves (e e' : Emitter σ) : Prop where
  ids : e.ids.Grows e'.ids
  written : e'.written = e.written
  output : e'.output = e.output

theorem Leaves.trans {a b c : Emitter σ} (hab : Leaves a b) (hbc : Leaves b c) : Leaves a c :=
  ⟨hab.ids.trans hbc.ids, hbc.written.trans hab.written, hbc.output.trans hab.output⟩

/-- A stage that ends with code, which later identifiers do not change. It names what the code names, and refers to
what the code calls. -/
structure Emits (code : (Bytes → Bytes) → α) (names : List Bytes) (callees : List FuncId) (e : Emitter σ) (a : α)
    (e' : Emitter σ) : Prop extends Leaves e e' where
  code_eq : ∀ id, e'.ids.Assigns id → a = code id
  named : ∀ name ∈ names, name ∈ e'.ids.names
  called : ∀ f, f ∈ e'.referenced ↔ f ∈ e.referenced ∨ f ∈ callees
  nodup : e.referenced.Nodup → e'.referenced.Nodup

def Renders (stage : Emitting σ α) (flaw : Option (Halt (Failure Uncodable))) (code : (Bytes → Bytes) → α)
    (names : List Bytes) (callees : List FuncId) : Prop :=
  ∀ e, (∃ halt e', flaw = some halt ∧ stage e = .error halt e' ∧ Leaves e e') ∨
    ∃ a e', flaw = none ∧ stage e = .ok a e' ∧ Emits code names callees e a e'

section Stages

variable {first : Emitting σ α} {second : Emitting σ β} {flaw flaw' : Option (Halt (Failure Uncodable))}
  {code : (Bytes → Bytes) → α} {code' : (Bytes → Bytes) → β} {names names' : List Bytes} {callees callees' : List FuncId}

theorem renders_pure (a : α) : Renders (σ := σ) (pure a) none (fun _ => a) [] [] :=
  fun e => .inr ⟨a, e, rfl, rfl, ⟨.rfl, rfl, rfl⟩, fun _ _ => rfl, nofun, by simp, fun h => h⟩

theorem renders_throw (halt : Halt (Failure Uncodable)) : Renders (throw halt : Emitting σ α) (some halt) code names callees :=
  fun e => .inl ⟨halt, e, rfl, rfl, .rfl, rfl, rfl⟩

theorem renders_map₂ (h : Renders first flaw code names callees) (h' : Renders second flaw' code' names' callees')
    (f : α → β → γ) :
    Renders (do let a ← first; let b ← second; return f a b) (flaw.or flaw') (fun id => f (code id) (code' id))
      (names ++ names') (callees ++ callees') := by
  intro e
  rcases h e with ⟨halt, e₁, rfl, hrun, hleaves⟩ | ⟨a, e₁, rfl, hrun, hemits⟩
  · exact .inl ⟨halt, e₁, rfl, bind_error hrun, hleaves⟩
  rw [bind_ok hrun]
  rcases h' e₁ with ⟨halt, e₂, rfl, hrun', hleaves'⟩ | ⟨b, e₂, rfl, hrun', hemits'⟩
  · exact .inl ⟨halt, e₂, rfl, bind_error hrun', hemits.toLeaves.trans hleaves'⟩
  refine .inr ⟨f a b, e₂, rfl, bind_ok hrun', hemits.toLeaves.trans hemits'.toLeaves, ?_, ?_, ?_, ?_⟩
  · intro id hid
    rw [hemits.code_eq id (hid.mono hemits'.ids), hemits'.code_eq id hid]
  · intro name hname
    rcases List.mem_append.1 hname with hname | hname
    · exact hemits'.ids.names (hemits.named name hname)
    · exact hemits'.named name hname
  · intro g
    rw [hemits'.called, hemits.called, List.mem_append, or_assoc]
  · exact fun hnodup => hemits'.nodup (hemits.nodup hnodup)

theorem renders_map (h : Renders first flaw code names callees) (f : α → β) :
    Renders (do let a ← first; return f a) flaw (fun id => f (code id)) names callees := by
  have hmap := renders_map₂ h (renders_pure ()) fun a _ => f a
  simpa only [Option.or_none, List.append_nil, pure_bind] using hmap

theorem renders_within (h : Renders first flaw code names callees) (place : Place) :
    Renders (within place first) (flaw.map (·.within place)) code names callees := by
  intro e
  rcases h e with ⟨halt, e₁, rfl, hrun, hleaves⟩ | ⟨a, e₁, rfl, hrun, hemits⟩
  · exact .inl ⟨halt.within place, e₁, rfl, by simp only [within, hrun], hleaves⟩
  · exact .inr ⟨a, e₁, rfl, by simp only [within, hrun], hemits⟩

theorem renders_refer (f : FuncId) : Renders (σ := σ) (refer f) none (fun _ => ()) [] [f] := by
  intro e
  refine .inr ⟨(), _, rfl, rfl, ⟨.rfl, rfl, rfl⟩, fun _ _ => rfl, nofun, fun g => ?_, fun h => ?_⟩
  · dsimp only
    split
    · rename_i hmem
      rw [List.mem_singleton]
      refine ⟨.inl, fun hg => hg.elim (fun h => h) fun he => ?_⟩
      simpa [he] using hmem
    · rw [List.mem_cons, List.mem_singleton, or_comm]
  · dsimp only
    split
    · exact h
    · rename_i hmem
      exact List.nodup_cons.2 ⟨by simpa using hmem, h⟩

variable [LetterSource σ]

theorem renders_identify (name : Bytes) : Renders (σ := σ) (identify name) none (fun id => id name) [name] [] := by
  intro e
  obtain ⟨hgrows, hmem⟩ := e.ids.identify_grows name
  refine .inr ⟨_, _, rfl, rfl, ⟨hgrows, rfl, rfl⟩, fun id hid => (hid _ hmem).symm, ?_, by simp, fun h => h⟩
  rw [List.forall_mem_singleton]
  exact List.mem_map.2 ⟨_, hmem, rfl⟩

end Stages

theorem resolve_ok {fns : Functions} {f : FuncId} {fn : Function} (hf : fns.resolve f = .ok fn) (e : Emitter σ) :
    resolve fns f e = .ok fn e := by
  simp only [resolve, hf]
  rfl

structure Writes (fns : Functions) (fs : List FuncId) (text : (Bytes → Bytes) → Bytes) (e e' : Emitter σ) : Prop where
  ids : e.ids.Grows e'.ids
  output : ∀ id, e'.ids.Assigns id → e'.output = e.output ++ text id
  named : ∀ f ∈ fs, ∀ fn : Function, fns[f]? = some fn → ∀ name ∈ fn.names fns, name ∈ e'.ids.names
  written : ∀ f, f ∈ e'.written ↔ f ∈ e.written ∨ f ∈ fs
  called : ∀ g, g ∈ e'.referenced ↔ g ∈ e.referenced ∨ ∃ f ∈ fs, g ∈ fns.callees f
  nodup : e.referenced.Nodup → e'.referenced.Nodup

theorem Writes.trans {fns : Functions} {fs gs : List FuncId} {text text' : (Bytes → Bytes) → Bytes} {a b c : Emitter σ}
    (hab : Writes fns fs text a b) (hbc : Writes fns gs text' b c) :
    Writes fns (fs ++ gs) (fun id => text id ++ text' id) a c where
  ids := hab.ids.trans hbc.ids
  output id hid := by rw [hbc.output id hid, hab.output id (hid.mono hbc.ids), List.append_assoc]
  named f hf fn hfn name hname := by
    rcases List.mem_append.1 hf with hf | hf
    · exact hbc.ids.names (hab.named f hf fn hfn name hname)
    · exact hbc.named f hf fn hfn name hname
  written f := by rw [hbc.written, hab.written, List.mem_append, or_assoc]
  called g := by
    rw [hbc.called, hab.called, or_assoc]
    simp only [List.mem_append, or_and_right, exists_or]
  nodup h := hbc.nodup (hab.nodup h)

variable [LetterSource σ]

mutual

theorem expr_renders (fns : Functions) : ∀ x : Expr, Renders (σ := σ) (expr fns x) (x.flaw? fns)
    (fun id => x.code fns id) (x.callees.map fns.nameOf) x.callees
  | .hole => renders_throw _
  | .number _ _ => renders_pure _
  | .text _ _ => renders_pure _
  | .var _ _ => renders_pure _
  | .relocated _ x => expr_renders fns x
  | .closure _ params body => renders_map (renders_within (expr_renders fns body) .closure) _
  | .call l f args => by
      have hcallees : (Expr.call l f args).callees = [f] ++ Expr.calleesList args := rfl
      rw [expr, Expr.flaw?, resolve]
      cases hf : fns.resolve f with
      | error fault => exact renders_throw _
      | ok fn =>
          simp only [pure_bind]
          have hname : fns.nameOf f = fn.name := Functions.nameOf_eq (Functions.getElem?_of_resolve hf)
          by_cases happ : (decide (fn.kind = .native) && decide (fn.operation = .call)) = true
          · rw [if_pos happ, if_pos happ]
            exact renders_throw _
          · rw [if_neg happ, if_neg happ, hcallees]
            have hcallee := renders_map₂ (renders_refer (σ := σ) f) (renders_identify fn.name) fun _ id => id
            have hcall := renders_map₂ hcallee (exprList_renders fns fn.name 0 args) fun id codes =>
              id ++ utf8 "(" ++ List.intercalate (utf8 ",") codes ++ utf8 ")"
            simpa only [bind_assoc, pure_bind, Expr.code, hname, List.map_append, List.map_cons, List.map_nil,
              List.nil_append, List.append_nil, Option.none_or] using hcall

theorem exprList_renders (fns : Functions) (callee : Bytes) : ∀ (i : Nat) (xs : List Expr),
    Renders (σ := σ) (exprList fns callee i xs) (Expr.flawList? fns callee i xs) (fun id => Expr.codeList fns id xs)
      ((Expr.calleesList xs).map fns.nameOf) (Expr.calleesList xs)
  | _, [] => renders_pure _
  | i, x :: xs => by
      have hcallees : Expr.calleesList (x :: xs) = x.callees ++ Expr.calleesList xs := List.map_append
      rw [hcallees, List.map_append]
      exact renders_map₂ (renders_within (expr_renders fns x) (.argument callee i))
        (exprList_renders fns callee (i + 1) xs) fun code codes => code :: codes

end

theorem function_renders (fns : Functions) (fn : Function) :
    Renders (σ := σ) (function fns fn) (fn.flaw? fns) (fn.code fns) (fn.names fns) fn.callees := by
  unfold function Function.flaw? Function.code Function.names Function.callees
  cases fn.kind with
  | pending => exact renders_throw _
  | custom =>
      have hcode := renders_map₂ (renders_identify (σ := σ) fn.name) (renders_within (expr_renders fns fn.body) .body)
        fun id code => utf8 "function " ++ id ++ heading fn.params ++ code ++ utf8 "\x7d\n"
      exact hcode
  | native =>
      cases hop : nativeCode? fn.operation with
      | none => exact renders_throw _
      | some code => exact renders_map (renders_identify fn.name) _
  | other code => exact renders_pure _

theorem writeFunction_writes {fns : Functions} {f : FuncId} (h : fns.Codable f) (e : Emitter σ) :
    ∃ e', writeFunction fns f e = .ok () e' ∧ Writes fns [f] (fun id => fns.code id f) e e' := by
  obtain ⟨fn, hf, hflaw⟩ := h
  have hfn := Functions.getElem?_of_resolve hf
  rcases function_renders fns fn e with ⟨halt, e₁, hsome, -, -⟩ | ⟨code, e₁, -, hrun, hemits⟩
  · exact nomatch hflaw.symm.trans hsome
  rw [writeFunction, bind_ok (resolve_ok hf e), bind_ok hrun]
  refine ⟨_, rfl, ?_⟩
  constructor
  · exact hemits.ids
  · intro id hid
    simp only [Functions.code, hfn, ← hemits.code_eq id hid, hemits.output]
  · intro g hg gn hgn name hname
    rw [List.mem_singleton.1 hg, hfn] at hgn
    exact hemits.named name (Option.some.inj hgn ▸ hname)
  · intro g
    rw [List.mem_singleton, ← hemits.written]
    dsimp only
    split
    · rename_i hmem
      refine ⟨.inl, fun hg => hg.elim (fun h => h) fun he => ?_⟩
      simpa [he] using hmem
    · rw [List.mem_cons, or_comm]
  · intro g
    simp only [List.mem_singleton, exists_eq_left, Functions.callees, hfn]
    exact hemits.called g
  · exact hemits.nodup

theorem writeCall_writes (fns : Functions) (entry : Bytes) (e : Emitter σ) :
    ∃ e', writeCall entry e = .ok () e' ∧ Writes fns [] (fun id => id entry ++ utf8 "()\n") e e' := by
  rcases renders_identify entry e with ⟨halt, e₁, hsome, -⟩ | ⟨id, e₁, -, hrun, hemits⟩
  · exact nomatch hsome
  rw [writeCall, bind_ok hrun]
  refine ⟨_, rfl, ?_⟩
  constructor
  · exact hemits.ids
  · intro name hname
    exact congrArg₂ (· ++ ·) hemits.output (congrArg (· ++ _) (hemits.code_eq name hname))
  · exact nofun
  · simp [hemits.written]
  · intro g
    simpa using hemits.called g
  · exact hemits.nodup

theorem program_writes {fns : Functions} (entry : Bytes) {fs : List FuncId} (h : ∀ f ∈ fs, fns.Codable f) (e : Emitter σ) :
    ∃ e', program fns entry fs e = .ok () e' ∧ Writes fns fs (fun id => fns.program id entry fs) e e' := by
  induction fs generalizing e with
  | nil => exact writeCall_writes fns entry e
  | cons f fs ih =>
      obtain ⟨hcodable, hrest⟩ := List.forall_mem_cons.1 h
      obtain ⟨e₁, hrun, hwrites⟩ := writeFunction_writes hcodable e
      obtain ⟨fn, hf, -⟩ := hcodable
      obtain ⟨e₂, hrun', hwrites'⟩ := ih hrest e₁
      have hwithin : within (.emitted fn.name) (writeFunction fns f) e = .ok () e₁ := by simp only [within, hrun]
      refine ⟨e₂, ?_, ?_⟩
      · rw [program, bind_ok (resolve_ok hf e), bind_ok hwithin, hrun']
      · simpa only [Functions.program, List.flatMap_cons, List.append_assoc, List.singleton_append]
          using hwrites.trans hwrites'

end Emitting

namespace Emitter

variable {σ : Type} {e : Emitter σ} {fns : Functions}

theorem mem_missing {name : Bytes} :
    name ∈ e.missing fns ↔ ∃ f ∈ e.referenced, f ∉ e.written ∧ ∃ fn : Function, fns[f]? = some fn ∧ fn.name = name := by
  simp [missing, and_assoc]

theorem nodup_missing (hr : e.referenced.Nodup)
    (hinj : ∀ (f g : FuncId) (fn gn : Function), fns[f]? = some fn → fns[g]? = some gn → fn.name = gn.name → f = g) :
    (e.missing fns).Nodup := by
  rw [missing, Sorting.sort_eq_insertionSort, (List.perm_insertionSort _ _).nodup_iff]
  refine (hr.filter _).filterMap fun f g name hf hg => ?_
  obtain ⟨fn, hfn, rfl⟩ := Option.map_eq_some_iff.1 hf
  obtain ⟨gn, hgn, hname⟩ := Option.map_eq_some_iff.1 hg
  exact hinj f g fn gn hfn hgn hname.symm

end Emitter

end Polish
