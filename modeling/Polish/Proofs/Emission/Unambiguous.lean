import Polish.Proofs.Emission.Statements
import Polish.Proofs.Requests
import Polish.Proofs.Script.Reader

namespace Polish

open Script

namespace Expr

mutual

def tree (fns : Functions) : Expr → Tree
  | .hole => .var []
  | .number _ value => .number value
  | .text _ value => .text value
  | .var _ name => .var name
  | .relocated _ x => tree fns x
  | .closure _ params body => .closure (params.map (·.name)) (tree fns body)
  | .call _ f args => .call (fns.nameOf f) (treeList fns args)

def treeList (fns : Functions) : List Expr → List Tree
  | [] => []
  | x :: xs => tree fns x :: treeList fns xs

end

theorem treeList_eq (fns : Functions) (xs : List Expr) : treeList fns xs = xs.map (tree fns) :=
  Companion.eq_map rfl (fun _ _ => rfl) xs

mutual

theorem code_eq_write (fns : Functions) (id : Bytes → Bytes) : ∀ x : Expr, x.code fns id = (x.tree fns).write id
  | .hole | .number _ _ | .text _ _ | .var _ _ => rfl
  | .relocated _ x => code_eq_write fns id x
  | .closure _ params body => by
      have hcode := heading_append [] params (body.code fns id)
      rw [List.append_nil] at hcode
      rw [code, hcode, code_eq_write fns id body]
      rfl
  | .call _ f args => by
      rw [code, codeList_eq_writeList fns id args]
      rfl

theorem codeList_eq_writeList (fns : Functions) (id : Bytes → Bytes) :
    ∀ xs : List Expr, codeList fns id xs = Tree.writeList id (treeList fns xs)
  | [] => rfl
  | x :: xs => by rw [codeList, code_eq_write fns id x, codeList_eq_writeList fns id xs, treeList, Tree.writeList]

end

/-- Expressions without holes, stray bytes and names that code would not keep apart, in which every callee has code. -/
inductive Plain (fns : Functions) : Expr → Prop
  | number (loc value) : Plain fns (.number loc value)
  | text {value} (loc) (h : Text.wellFormed value = true) : Plain fns (.text loc value)
  | var {name} (loc) (h : IsVariable name) : Plain fns (.var loc name)
  | relocated {x} (loc) (h : Plain fns x) : Plain fns (.relocated loc x)
  | closure {params body} (loc) (hp : ∀ p ∈ params, IsVariable p.name) (hb : Plain fns body) :
      Plain fns (.closure loc params body)
  | call {f args fn} (loc) (hf : fns.resolve f = .ok fn) (hop : ¬ (fn.kind = .native ∧ fn.operation = .call))
      (ha : ∀ x ∈ args, Plain fns x) : Plain fns (.call loc f args)

namespace Plain

variable {fns : Functions} {x : Expr}

theorem flaw?_eq_none (h : x.Plain fns) : x.flaw? fns = none := by
  induction h with
  | number | text | var => rfl
  | relocated _ _ ih => exact ih
  | closure _ _ _ ih => rw [flaw?, ih, Option.map_none]
  | call _ hf hop _ ih =>
      rw [flaw?, hf]
      simp only [Bool.and_eq_true, decide_eq_true_eq, hop, if_false]
      exact flawList?_eq_none ih 0

theorem readable {known : Bytes → Prop} (h : x.Plain fns) (hknown : ∀ f ∈ x.callees, known (fns.nameOf f)) :
    (x.tree fns).Readable known := by
  induction h with
  | number _ value => exact .number value
  | text _ h => exact .text h
  | var _ h => exact .var h
  | relocated _ _ ih => exact ih hknown
  | closure _ hp _ ih => exact .closure (List.forall_mem_map.2 hp) (ih hknown)
  | @call f args _ loc _ _ _ ih =>
      have hcallees : (Expr.call loc f args).callees = f :: calleesList args := rfl
      rw [hcallees, List.forall_mem_cons, calleesList_eq] at hknown
      rw [tree, treeList_eq]
      refine .call hknown.1 (List.forall_mem_map.2 fun x hx => ih x hx fun g hg => ?_)
      exact hknown.2 g (List.mem_flatMap.2 ⟨x, hx, hg⟩)

end Plain

end Expr

theorem Identifiers.Asked.tells {σ : Type} [LetterSource σ] {ids : Identifiers σ} {names : List Bytes}
    (h : ids.Asked names) : Tells ids.assigned ids.nameOf? (· ∈ ids.names) := by
  intro name hname
  refine ⟨fun b hb => isWordByte_of_isNameByte ((h.shaped.isName h.distinct hname).bytes b hb), ?_⟩
  obtain ⟨entry, hentry, rfl⟩ := List.mem_map.1 hname
  rw [assigns_assigned h.distinct entry hentry]
  exact h.distinct.nameOf?_iff.2 hentry

namespace Emitting

variable {σ : Type} [LetterSource σ] {fns gns : Functions} {x y : Expr}

/-- Under identifiers that go on from those it was written with, code is read as what it was written from. -/
theorem Emits.read {e e' : Emitter σ} {text : Bytes} {ids : Identifiers σ} {names : List Bytes}
    (h : Emits (fun id => x.code fns id) (x.callees.map fns.nameOf) x.callees e text e') (hx : x.Plain fns)
    (hids : ids.Asked names) (hsub : e'.ids.entries ⊆ ids.entries) :
    text = (x.tree fns).write ids.assigned ∧ read ids.nameOf? text = some (x.tree fns) := by
  have hassigns : e'.ids.Assigns ids.assigned :=
    fun entry hentry => Identifiers.assigns_assigned hids.distinct entry (hsub hentry)
  have htext : text = (x.tree fns).write ids.assigned :=
    (h.code_eq _ hassigns).trans (x.code_eq_write fns ids.assigned)
  refine ⟨htext, ?_⟩
  rw [htext]
  refine read_write hids.tells (hx.readable fun f hf => ?_)
  exact List.map_subset _ hsub (h.named _ (List.mem_map_of_mem hf))

theorem exists_emits (hx : x.Plain fns) (e : Emitter σ) : ∃ text e', expr fns x e = .ok text e' ∧
    Emits (fun id => x.code fns id) (x.callees.map fns.nameOf) x.callees e text e' := by
  rcases expr_renders fns x e with ⟨halt, e', hflaw, -, -⟩ | ⟨text, e', -, hrun, hemits⟩
  · rw [hx.flaw?_eq_none] at hflaw
    cases hflaw
  · exact ⟨text, e', hrun, hemits⟩

/-- Two expressions are written, at any time, by emitters whose identifiers are among those of one table. Reading with
this table recovers what code shows of the expressions, so that the code is the same only if they show the same. -/
theorem expr_unambiguous (hx : x.Plain fns) (hy : y.Plain gns) (e d : Emitter σ) :
    ∃ text e' text' d', expr fns x e = .ok text e' ∧ expr gns y d = .ok text' d' ∧
      ∀ (source : σ) (names : List Bytes), e'.ids.entries ⊆ (Identifiers.identifyAll names { source }).2.entries →
        d'.ids.entries ⊆ (Identifiers.identifyAll names { source }).2.entries →
        read (Identifiers.identifyAll names { source }).2.nameOf? text = some (x.tree fns) ∧
        (text = text' ↔ x.tree fns = y.tree gns) := by
  obtain ⟨text, e', hrun, hemits⟩ := exists_emits hx e
  obtain ⟨text', d', hrun', hemits'⟩ := exists_emits hy d
  refine ⟨text, e', text', d', hrun, hrun', fun source names hsub hsub' => ?_⟩
  have hids := (Identifiers.asked_nil source).identifyAll names
  obtain ⟨htext, hread⟩ := hemits.read hx hids hsub
  obtain ⟨htext', hread'⟩ := hemits'.read hy hids hsub'
  refine ⟨hread, fun he => ?_, fun he => by rw [htext, htext', he]⟩
  rw [he, hread'] at hread
  exact (Option.some.inj hread).symm

/-- A text that looks like two arguments. -/
theorem expr_unambiguous_commas :
    let fns : Functions := #[{ name := utf8 "f", kind := .custom }]
    let x : Expr := .call {} 0 [.text {} (utf8 "NaN,NaN")]
    let y : Expr := .call {} 0 [.number {} .nan, .number {} .nan]
    let ids : Identifiers Cycle := { source := { word := #[0] } }
    x.Plain fns ∧ y.Plain fns ∧ ∃ text e' text' d', expr fns x { ids } = .ok text e' ∧
      expr fns y { ids } = .ok text' d' ∧ text ≠ text' ∧ read e'.ids.nameOf? text = some (x.tree fns) := by
  intro fns x y ids
  have hf : fns.resolve 0 = .ok { name := utf8 "f", kind := .custom } := rfl
  have hx : x.Plain fns := .call {} hf (fun h => by cases h.1)
    (List.forall_mem_singleton.2 (.text {} (by decide +kernel)))
  have hy : y.Plain fns := .call {} hf (fun h => by cases h.1)
    (List.forall_mem_cons.2 ⟨.number {} .nan, List.forall_mem_singleton.2 (.number {} .nan)⟩)
  refine ⟨hx, hy, ?_⟩
  obtain ⟨text, e', text', d', hrun, hrun', h⟩ := expr_unambiguous hx hy { ids } { ids }
  obtain ⟨-, rfl⟩ := EStateM.Result.ok.inj hrun
  obtain ⟨-, rfl⟩ := EStateM.Result.ok.inj hrun'
  obtain ⟨hread, hiff⟩ := h ids.source [utf8 "f"] (List.Subset.refl _) (List.Subset.refl _)
  refine ⟨text, _, text', _, hrun, hrun', fun he => ?_, hread⟩
  cases hiff.1 he
end Emitting

end Polish
