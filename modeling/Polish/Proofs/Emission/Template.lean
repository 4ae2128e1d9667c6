import Polish.Proofs.Emission
import Polish.Proofs.Identifiers.History
import Mathlib.Data.Set.Operations

namespace Polish

inductive Fragment where
  | text (text : Bytes)
  | name (name : Bytes)

def Fragment.fill (id : Bytes → Bytes) : Fragment → Bytes
  | .text t => t
  | .name n => id n

abbrev Template := List Fragment

namespace Template

def fill (t : Template) (id : Bytes → Bytes) : Bytes := t.flatMap (Fragment.fill id)

theorem fill_append (t u : Template) (id : Bytes → Bytes) : fill (t ++ u) id = fill t id ++ fill u id :=
  List.flatMap_append

theorem fill_cons (p : Fragment) (t : Template) (id : Bytes → Bytes) : fill (p :: t) id = p.fill id ++ fill t id :=
  List.flatMap_cons

theorem fill_nil (id : Bytes → Bytes) : fill [] id = [] := rfl

theorem fill_intercalate (separator : Template) (ts : List Template) (id : Bytes → Bytes) :
    fill (List.intercalate separator ts) id = List.intercalate (fill separator id) (ts.map (fill · id)) := by
  induction ts with
  | nil => rfl
  | cons t ts ih =>
      cases ts with
      | nil => simp only [List.map_cons, List.map_nil, List.intercalate_singleton]
      | cons u us =>
          rw [List.map_cons, List.map_cons, List.intercalate_cons_cons, List.intercalate_cons_cons, fill_append,
            fill_append, ih, List.map_cons]

end Template

namespace Expr

mutual

def template (fns : Functions) : Expr → Template
  | .hole => []
  | .number _ value => [.text (Emitting.number value)]
  | .text _ value => [.text (Text.literal value)]
  | .var _ name => [.text name]
  | .relocated _ x => template fns x
  | .closure _ params body =>
    .text (utf8 "function " ++ Emitting.heading params) :: (template fns body ++ [.text (utf8 "\x7d")])
  | .call _ f args =>
    .name (fns.nameOf f) :: .text (utf8 "(") ::
      (List.intercalate [.text (utf8 ",")] (templateList fns args) ++ [.text (utf8 ")")])

def templateList (fns : Functions) : List Expr → List Template
  | [] => []
  | x :: xs => template fns x :: templateList fns xs

end

mutual

theorem code_eq_fill (fns : Functions) (id : Bytes → Bytes) : ∀ x : Expr, x.code fns id = (x.template fns).fill id
  | .hole => rfl
  | .number _ _ | .text _ _ | .var _ _ => (List.append_nil _).symm
  | .relocated _ x => code_eq_fill fns id x
  | .closure _ params body => by
      rw [code, template, code_eq_fill fns id body]
      simp only [Template.fill_cons, Template.fill_append, Template.fill_nil, Fragment.fill, List.append_nil,
        List.append_assoc]
  | .call _ f args => by
      rw [code, template, codeList_eq_fill fns id args]
      simp only [Template.fill_cons, Template.fill_append, Template.fill_intercalate, Template.fill_nil, Fragment.fill,
        List.append_nil, List.append_assoc]

theorem codeList_eq_fill (fns : Functions) (id : Bytes → Bytes) :
    ∀ xs : List Expr, codeList fns id xs = (templateList fns xs).map (Template.fill · id)
  | [] => rfl
  | x :: xs => by rw [codeList, templateList, List.map_cons, code_eq_fill fns id x, codeList_eq_fill fns id xs]

end

mutual

def asked (fns : Functions) : Expr → List Bytes
  | .hole | .number _ _ | .text _ _ | .var _ _ => []
  | .relocated _ x => asked fns x
  | .closure _ _ body => asked fns body
  | .call _ f args => match fns.resolve f with
    | .error _ => []
    | .ok fn => if fn.kind = .native && fn.operation = .call then [] else fn.name :: askedList fns args

def askedList (fns : Functions) : List Expr → List Bytes
  | [] => []
  | x :: xs => asked fns x ++ if (flaw? fns x).isSome then [] else askedList fns xs

end

mutual

theorem mem_asked {fns : Functions} {name : Bytes} :
    ∀ x : Expr, x.flaw? fns = none → Fragment.name name ∈ x.template fns → name ∈ x.asked fns
  | .hole, hflaw, _ => by cases hflaw
  | .number _ _, _, h | .text _ _, _, h | .var _ _, _, h => by cases List.mem_singleton.1 h
  | .relocated _ x, hflaw, h => mem_asked x hflaw h
  | .closure _ params body, hflaw, h => by
      have hbody : Fragment.name name ∈ body.template fns := by simpa [template] using h
      exact mem_asked body (Option.map_eq_none_iff.1 hflaw) hbody
  | .call _ f args, hflaw, h => by
      rw [flaw?] at hflaw
      rw [asked]
      cases hf : fns.resolve f with
      | error fault => rw [hf] at hflaw; cases hflaw
      | ok fn =>
          rw [hf] at hflaw
          dsimp only at hflaw ⊢
          have hname : fns.nameOf f = fn.name := Functions.nameOf_eq (Functions.getElem?_of_resolve hf)
          split at hflaw
          · cases hflaw
          · rename_i happ
            rw [if_neg happ, List.mem_cons]
            simp only [template, hname, List.mem_cons, Fragment.name.injEq, reduceCtorEq, List.mem_append,
              List.not_mem_nil, or_false, false_or] at h
            rcases h with rfl | h
            · exact .inl rfl
            · rcases mem_or_exists_of_mem_intercalate h with hseparator | ⟨t, ht, hmem⟩
              · cases List.mem_singleton.1 hseparator
              · exact .inr (mem_askedList args hflaw t ht hmem)

theorem mem_askedList {fns : Functions} {name callee : Bytes} {i : Nat} :
    ∀ xs : List Expr, flawList? fns callee i xs = none → ∀ t ∈ templateList fns xs, Fragment.name name ∈ t →
      name ∈ askedList fns xs
  | [], _, _, ht, _ => by cases ht
  | x :: xs, hflaw, t, ht, h => by
      obtain ⟨hfirst, hrest⟩ := Option.or_eq_none_iff.1 hflaw
      have hx := Option.map_eq_none_iff.1 hfirst
      rw [askedList, hx, Option.isSome_none, if_neg Bool.false_ne_true, List.mem_append]
      rcases List.mem_cons.1 ht with rfl | ht
      · exact .inl (mem_asked x hx h)
      · exact .inr (mem_askedList xs hrest t ht h)

end

end Expr

namespace Function

def template (fns : Functions) (fn : Function) : Template := match fn.kind with
  | .custom =>
    .text (utf8 "function ") :: .name fn.name :: .text (Emitting.heading fn.params) ::
      (fn.body.template fns ++ [.text (utf8 "\x7d\n")])
  | .native =>
    [.text (utf8 "function "), .name fn.name, .text ((Emitting.nativeCode? fn.operation).getD []), .text (utf8 "\n")]
  | _ => []

theorem code_eq_fill (fns : Functions) (id : Bytes → Bytes) (fn : Function) :
    fn.code fns id = (fn.template fns).fill id := by
  unfold code template
  cases fn.kind with
  | pending | other => rfl
  | custom =>
      dsimp only
      rw [Expr.code_eq_fill]
      simp only [Template.fill_cons, Template.fill_append, Template.fill_nil, Fragment.fill, List.append_nil,
        List.append_assoc]
  | native =>
      simp only [Template.fill_cons, Template.fill_nil, Fragment.fill, List.append_nil, List.append_assoc]

def asked (fns : Functions) (fn : Function) : List Bytes := match fn.kind with
  | .custom => fn.name :: fn.body.asked fns
  | .native => if (Emitting.nativeCode? fn.operation).isSome then [fn.name] else []
  | _ => []

theorem mem_asked {fns : Functions} {fn : Function} {name : Bytes} (hflaw : fn.flaw? fns = none)
    (h : Fragment.name name ∈ fn.template fns) : name ∈ fn.asked fns := by
  unfold flaw? at hflaw
  unfold template at h
  unfold asked
  cases hkind : fn.kind with
  | pending | other => rw [hkind] at h; cases h
  | custom =>
      rw [hkind] at hflaw h
      have hor : name = fn.name ∨ Fragment.name name ∈ fn.body.template fns := by simpa using h
      exact List.mem_cons.2 (hor.imp_right (Expr.mem_asked fn.body (Option.map_eq_none_iff.1 hflaw)))
  | native =>
      rw [hkind] at hflaw h
      have hname : name = fn.name := by simpa using h
      dsimp only at hflaw ⊢
      split
      · exact List.mem_singleton.2 hname
      · rename_i hcode
        rw [if_neg hcode] at hflaw
        cases hflaw

end Function

namespace Functions

def flaw? (fns : Functions) : List FuncId → Option (Halt (Failure Uncodable))
  | [] => none
  | f :: fs => match fns.resolve f with
    | .error fault => some (.fault fault)
    | .ok fn => ((fn.flaw? fns).map (·.within (.emitted fn.name))).or (flaw? fns fs)

def template (fns : Functions) (entry : Bytes) : List FuncId → Template
  | [] => [.name entry, .text (utf8 "()\n")]
  | f :: fs => match fns.resolve f with
    | .error _ => []
    | .ok fn => if (fn.flaw? fns).isSome then [] else fn.template fns ++ template fns entry fs

def asked (fns : Functions) (entry : Bytes) : List FuncId → List Bytes
  | [] => [entry]
  | f :: fs => match fns.resolve f with
    | .error _ => []
    | .ok fn => fn.asked fns ++ if (fn.flaw? fns).isSome then [] else asked fns entry fs

theorem mem_asked {fns : Functions} {entry name : Bytes} {fs : List FuncId}
    (h : Fragment.name name ∈ fns.template entry fs) : name ∈ fns.asked entry fs := by
  induction fs with
  | nil => simpa [template, asked] using h
  | cons f fs ih =>
      rw [template] at h
      rw [asked]
      cases hf : fns.resolve f with
      | error fault => rw [hf] at h; cases h
      | ok fn =>
          rw [hf] at h
          dsimp only at h ⊢
          cases hflaw : fn.flaw? fns with
          | some halt => rw [hflaw] at h; cases h
          | none =>
              rw [hflaw] at h
              exact List.mem_append.2 ((List.mem_append.1 h).imp (Function.mem_asked hflaw) ih)

end Functions

theorem Identifiers.Asked.injOn {σ : Type} {ids : Identifiers σ} {names : List Bytes} (h : ids.Asked names) :
    Set.InjOn ids.assigned { name | name ∈ names } := by
  intro a ha b hb he
  exact (assigns_assigned h.distinct).injOn h.distinct ((h.names_iff a).2 ha) ((h.names_iff b).2 hb) he

namespace Emitting

variable {σ α β γ : Type}

def after (stage : Emitting σ α) (e : Emitter σ) : Emitter σ := match stage e with
  | .ok _ e' | .error _ e' => e'

/-- A stage, whether or not there is code, adds items to those that a property of the emitter is about. -/
def Adds {ι : Type} (holds : Emitter σ → List ι → Prop) (stage : Emitting σ α) (items : List ι) : Prop :=
  ∀ e before, holds e before → holds (after stage e) (before ++ items)

def Asks (stage : Emitting σ α) (names : List Bytes) : Prop :=
  ∀ e before, e.ids.Asked before → (after stage e).ids.Asked (before ++ names)

section Stages

variable {first : Emitting σ α} {second : Emitting σ β} {flaw : Option (Halt (Failure Uncodable))}
  {code : (Bytes → Bytes) → α} {names : List Bytes} {callees : List FuncId}

theorem after_map (first : Emitting σ α) (f : α → β) (e : Emitter σ) :
    after (do let a ← first; return f a) e = after first e := by
  cases hrun : first e with
  | ok a e₁ => simp only [after, bind_ok hrun, hrun]; rfl
  | error halt e₁ => simp only [after, bind_error hrun, hrun]

theorem after_within (first : Emitting σ α) (place : Place) (e : Emitter σ) :
    after (within place first) e = after first e := by
  unfold after within
  cases first e with
  | ok a e₁ => rfl
  | error halt e₁ => rfl

section Adds

variable {ι : Type} {holds : Emitter σ → List ι → Prop} {items items' : List ι}

theorem adds_nil {stage : Emitting σ α} (h : ∀ e before, holds e before → holds (after stage e) before) :
    Adds holds stage [] := by
  intro e before hholds
  rw [List.append_nil]
  exact h e before hholds

theorem adds_map (ha : Adds holds first items) (f : α → β) : Adds holds (do let a ← first; return f a) items := by
  intro e before hholds
  rw [after_map]
  exact ha e before hholds

theorem adds_map₂ (h : Renders first flaw code names callees) (ha : Adds holds first items)
    (ha' : Adds holds second items') (f : α → β → γ) :
    Adds holds (do let a ← first; let b ← second; return f a b) (items ++ if flaw.isSome then [] else items') := by
  intro e before hholds
  have hfirst := ha e before hholds
  rcases h e with ⟨halt, e₁, rfl, hrun, -⟩ | ⟨a, e₁, rfl, hrun, -⟩
  · rw [Option.isSome_some, if_pos rfl, List.append_nil]
    simp only [after, hrun] at hfirst
    simpa only [after, bind_error hrun] using hfirst
  · rw [Option.isSome_none, if_neg Bool.false_ne_true, ← List.append_assoc]
    simp only [after, hrun] at hfirst
    have hsecond := adds_map ha' (f a) e₁ _ hfirst
    simpa only [after, bind_ok hrun] using hsecond

theorem adds_within (ha : Adds holds first items) (place : Place) : Adds holds (within place first) items := by
  intro e before hholds
  rw [after_within]
  exact ha e before hholds

end Adds

theorem asks_nil {stage : Emitting σ α} (h : ∀ e, (after stage e).ids = e.ids) : Asks stage [] := by
  intro e before hasked
  rwa [h, List.append_nil]

variable [LetterSource σ]

theorem asks_identify (name : Bytes) : Asks (σ := σ) (identify name) [name] := by
  intro e before hasked
  exact hasked.identify name

end Stages

variable [LetterSource σ]

mutual

theorem expr_asks (fns : Functions) : ∀ x : Expr, Asks (σ := σ) (expr fns x) (x.asked fns)
  | .hole | .number _ _ | .text _ _ | .var _ _ => asks_nil fun _ => rfl
  | .relocated _ x => expr_asks fns x
  | .closure _ _ body => adds_map (adds_within (expr_asks fns body) .closure) _
  | .call _ f args => by
      rw [expr, Expr.asked, resolve]
      cases fns.resolve f with
      | error fault => exact asks_nil fun _ => rfl
      | ok fn =>
          simp only [pure_bind]
          by_cases happ : (decide (fn.kind = .native) && decide (fn.operation = .call)) = true
          · rw [if_pos happ, if_pos happ]
            exact asks_nil fun _ => rfl
          · rw [if_neg happ, if_neg happ]
            have hcallee := adds_map₂ (renders_refer (σ := σ) f) (asks_nil fun _ => rfl) (asks_identify fn.name)
              fun _ id => id
            have hrenders := renders_map₂ (renders_refer (σ := σ) f) (renders_identify fn.name) fun _ id => id
            have hcall := adds_map₂ hrenders hcallee (exprList_asks fns fn.name 0 args) fun id codes =>
              id ++ utf8 "(" ++ List.intercalate (utf8 ",") codes ++ utf8 ")"
            simp only [bind_assoc, pure_bind, Option.none_or, Option.isSome_none, Bool.false_eq_true, if_false,
              List.nil_append, List.singleton_append] at hcall
            exact hcall

theorem exprList_asks (fns : Functions) (callee : Bytes) : ∀ (i : Nat) (xs : List Expr),
    Asks (σ := σ) (exprList fns callee i xs) (Expr.askedList fns xs)
  | _, [] => asks_nil fun _ => rfl
  | i, x :: xs => by
      have hlist := adds_map₂ (renders_within (expr_renders fns x) (.argument callee i))
        (adds_within (expr_asks fns x) _) (exprList_asks fns callee (i + 1) xs) fun code codes => code :: codes
      rwa [Option.isSome_map] at hlist

end

theorem function_asks (fns : Functions) (fn : Function) : Asks (σ := σ) (function fns fn) (fn.asked fns) := by
  unfold function Function.asked
  cases fn.kind with
  | pending | other => exact asks_nil fun _ => rfl
  | custom =>
      have hcode := adds_map₂ (renders_identify (σ := σ) fn.name) (asks_identify fn.name)
        (adds_within (expr_asks fns fn.body) .body)
        fun id code => utf8 "function " ++ id ++ heading fn.params ++ code ++ utf8 "\x7d\n"
      exact hcode
  | native =>
      cases nativeCode? fn.operation with
      | none => exact asks_nil fun _ => rfl
      | some code => exact adds_map (asks_identify fn.name) _

def ending (flaw : Option (Halt (Failure Uncodable))) (e : Emitter σ) :
    EStateM.Result (Halt (Failure Uncodable)) (Emitter σ) Unit := match flaw with
  | none => .ok () e
  | some halt => .error halt e

/-- A stage ends with a cause, if there is one. What it writes is a template that is filled with identifiers. -/
structure Fills (stage : Emitting σ Unit) (flaw : Option (Halt (Failure Uncodable))) (t : Template) (names : List Bytes)
    (e e' : Emitter σ) : Prop where
  run : stage e = ending flaw e'
  ids : e.ids.Grows e'.ids
  output : ∀ id, e'.ids.Assigns id → e'.output = e.output ++ t.fill id
  asked : ∀ before, e.ids.Asked before → e'.ids.Asked (before ++ names)

section

variable {stage next : Emitting σ Unit} {flaw : Option (Halt (Failure Uncodable))} {t t' : Template}
  {names names' : List Bytes} {e e₁ e₂ : Emitter σ}

omit [LetterSource σ]

theorem Fills.within (h : Fills stage flaw t names e e₁) (place : Place) :
    Fills (within place stage) (flaw.map (·.within place)) t names e e₁ := by
  refine ⟨?_, h.ids, h.output, h.asked⟩
  rw [Emitting.within, h.run]
  cases flaw with
  | none => rfl
  | some halt => rfl

theorem Fills.stop {halt : Halt (Failure Uncodable)} (h : Fills stage (some halt) t names e e₁) :
    Fills (do stage; next) (some halt) t names e e₁ :=
  ⟨bind_error h.run, h.ids, h.output, h.asked⟩

theorem Fills.andThen (h : Fills stage none t names e e₁) (h' : Fills next flaw t' names' e₁ e₂) :
    Fills (do stage; next) flaw (t ++ t') (names ++ names') e e₂ where
  run := (bind_ok h.run).trans h'.run
  ids := h.ids.trans h'.ids
  output id hid := by
    rw [h'.output id hid, h.output id (hid.mono h'.ids), Template.fill_append, List.append_assoc]
  asked before hasked := by
    rw [← List.append_assoc]
    exact h'.asked _ (h.asked before hasked)

theorem fills_resolve {fns : Functions} {f : FuncId} {fn : Function} (hf : fns.resolve f = .ok fn)
    {rest : Function → Emitting σ Unit} (h : Fills (rest fn) flaw t names e e₁) :
    Fills (do let fn ← resolve fns f; rest fn) flaw t names e e₁ :=
  ⟨(bind_ok (resolve_ok hf e)).trans h.run, h.ids, h.output, h.asked⟩

end

theorem writeCall_fills (entry : Bytes) (e : Emitter σ) :
    ∃ e', Fills (writeCall entry) none [.name entry, .text (utf8 "()\n")] [entry] e e' := by
  have hasks := asks_identify entry e
  rcases renders_identify entry e with ⟨halt, e₁, hsome, -⟩ | ⟨id, e₁, -, hrun, hemits⟩
  · cases hsome
  simp only [after, hrun] at hasks
  refine ⟨{ e₁ with output := e₁.output ++ (id ++ utf8 "()\n") }, ?_, hemits.ids, ?_, hasks⟩
  · rw [writeCall, bind_ok hrun]
    rfl
  · intro id' hid
    simp only [hemits.output, hemits.code_eq id' hid, Template.fill_cons, Template.fill_nil, List.append_nil,
      Fragment.fill]

theorem writeFunction_fills {fns : Functions} {f : FuncId} {fn : Function} (hf : fns.resolve f = .ok fn)
    (e : Emitter σ) :
    ∃ e', Fills (writeFunction fns f) (fn.flaw? fns) (if (fn.flaw? fns).isSome then [] else fn.template fns)
      (fn.asked fns) e e' := by
  have hasks := function_asks fns fn e
  rcases function_renders fns fn e with ⟨halt, e₁, hflaw, hrun, hleaves⟩ | ⟨code, e₁, hflaw, hrun, hemits⟩
  · simp only [after, hrun] at hasks
    rw [hflaw, Option.isSome_some, if_pos rfl]
    refine ⟨e₁, fills_resolve hf ⟨bind_error hrun, hleaves.ids, ?_, hasks⟩⟩
    intro id _
    rw [hleaves.output, Template.fill_nil, List.append_nil]
  · simp only [after, hrun] at hasks
    rw [hflaw, Option.isSome_none, if_neg Bool.false_ne_true]
    have hwritten (id : Bytes → Bytes) (hid : e₁.ids.Assigns id) :
        e₁.output ++ code = e.output ++ (fn.template fns).fill id := by
      rw [hemits.output, hemits.code_eq id hid, Function.code_eq_fill]
    exact ⟨_, fills_resolve hf ⟨bind_ok hrun, hemits.ids, hwritten, hasks⟩⟩

theorem program_fills (fns : Functions) (entry : Bytes) (fs : List FuncId) (e : Emitter σ) :
    ∃ e', Fills (program fns entry fs) (fns.flaw? fs) (fns.template entry fs) (fns.asked entry fs) e e' := by
  induction fs generalizing e with
  | nil => exact writeCall_fills entry e
  | cons f fs ih =>
      rw [program, Functions.flaw?, Functions.template, Functions.asked]
      cases hf : fns.resolve f with
      | error fault =>
          refine ⟨e, ?_, .rfl, fun id _ => (List.append_nil _).symm, fun before hasked => ?_⟩
          · rw [resolve, hf]
            rfl
          · rwa [List.append_nil]
      | ok fn =>
          obtain ⟨e₁, hwrites⟩ := writeFunction_fills hf e
          have hfirst := hwrites.within (.emitted fn.name)
          dsimp only
          cases hflaw : fn.flaw? fns with
          | some halt =>
              rw [hflaw] at hfirst
              rw [Option.map_some, Option.some_or, Option.isSome_some, if_pos rfl, if_pos rfl, List.append_nil]
              exact ⟨e₁, fills_resolve hf hfirst.stop⟩
          | none =>
              rw [hflaw, Option.isSome_none, if_neg Bool.false_ne_true] at hfirst
              obtain ⟨e₂, hrest⟩ := ih e₁
              exact ⟨e₂, fills_resolve hf (hfirst.andThen hrest)⟩

theorem program_fresh (fns : Functions) (entry : Bytes) (fs : List FuncId) (e : Emitter σ) (source : σ) :
    ∃ e', Fills (program fns entry fs) (fns.flaw? fs) (fns.template entry fs) (fns.asked entry fs)
        { e with ids := { source } } e' ∧ e'.ids.Asked (fns.asked entry fs) := by
  obtain ⟨e', hfills⟩ := program_fills fns entry fs { e with ids := { source } }
  exact ⟨e', hfills, hfills.asked [] (Identifiers.asked_nil source)⟩

/-- Letters show in identifiers only. Whatever letters two runs draw, they end in the same way, and what they write is
one template filled with two maps, which give different identifiers to different names and do so for the same names. -/
theorem program_letters {τ : Type} [LetterSource τ] (fns : Functions) (entry : Bytes) (fs : List FuncId)
    (e : Emitter σ) (d : Emitter τ) (source : σ) (letters : τ) :
    ∃ (e' : Emitter σ) (d' : Emitter τ),
      program fns entry fs { e with ids := { source } } = ending (fns.flaw? fs) e' ∧
      program fns entry fs { d with ids := { source := letters } } = ending (fns.flaw? fs) d' ∧
      e'.output = e.output ++ (fns.template entry fs).fill e'.ids.assigned ∧
      d'.output = d.output ++ (fns.template entry fs).fill d'.ids.assigned ∧
      (∀ name, Fragment.name name ∈ fns.template entry fs → name ∈ fns.asked entry fs) ∧
      (∀ name, name ∈ e'.ids.names ↔ name ∈ fns.asked entry fs) ∧
      (∀ name, name ∈ d'.ids.names ↔ name ∈ fns.asked entry fs) ∧
      Set.InjOn e'.ids.assigned { name | name ∈ fns.asked entry fs } ∧
      Set.InjOn d'.ids.assigned { name | name ∈ fns.asked entry fs } := by
  obtain ⟨e', hfills, hasked⟩ := program_fresh fns entry fs e source
  obtain ⟨d', hfills', hasked'⟩ := program_fresh fns entry fs d letters
  refine ⟨e', d', hfills.run, hfills'.run, ?_, ?_, fun _ => Functions.mem_asked, hasked.names_iff, hasked'.names_iff,
    hasked.injOn, hasked'.injOn⟩
  · exact hfills.output _ (Identifiers.assigns_assigned hasked.distinct)
  · exact hfills'.output _ (Identifiers.assigns_assigned hasked'.distinct)

end Emitting

end Polish
