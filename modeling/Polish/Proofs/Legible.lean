import Polish.Proofs.Runs
import Polish.Proofs.Double.Text

namespace Polish

inductive Ty.Legible : Ty → Prop
  | basic (b) : Legible (.basic b)
  | array {element} (h : Legible element) : Legible (.array element)
  | function {params result} (hp : ∀ t ∈ params, Legible t) (hr : Legible result) : Legible (.function params result)

structure Param.Legible (p : Param) : Prop where
  ty : p.ty.Legible
  word : IsWord p.name
  not_arrow : ¬ arrow <+: p.name

structure Grammar.IsNameWord (word : Bytes) : Prop where
  isWord : IsWord word
  isName : Grammar.IsName word

open Grammar

/-- Names are bound or stand for functions of the registry, which get as many arguments as they have
parameters. -/
inductive Expr.Legible (r : Registry) : List Bytes → Expr → Prop
  | number {names l value} (h : value ≠ .nan) : Legible r names (.number l value)
  | text {names l value q} (hq : isQuote q = true) (hv : q ∉ value) : Legible r names (.text l value)
  | bound {names l place name} (hw : IsNameWord name) (hs : name ∈ names) :
      Legible r names (.relocated l (.var place name))
  | closure {names l params body} (hp : ∀ p ∈ params, p.Legible)
      (hb : Legible r (params.map (·.name) ++ names) body) : Legible r names (.closure l params body)
  | call {names l f args name} (hw : IsNameWord name) (hs : name ∉ names) (hr : r.lookup name = some f)
      (hl : args.length = r.arity f) (hargs : ∀ x ∈ args, Legible r names x) : Legible r names (.call l f args)

namespace Double

theorem ofRank_ne_nan (negative : Bool) (rank : Nat) : ofRank negative rank ≠ .nan := by
  unfold ofRank
  split <;> nofun

theorem ofDecimal_ne_nan (negative : Bool) (digits : Nat) (exponent : Int) :
    ofDecimal negative digits exponent ≠ .nan := by
  unfold ofDecimal
  dsimp only
  split
  · exact ofRank_ne_nan _ _
  split
  · nofun
  split <;> exact ofRank_ne_nan _ _

theorem ne_nan_of_ofToken? {word : Bytes} {value : Double} (h : ofToken? word = some value) : value ≠ .nan := by
  rw [ofToken?_eq] at h
  split at h
  · obtain rfl := Option.some.inj h
    simp
  split at h
  · cases h
  · obtain rfl := Option.some.inj h
    exact ofDecimal_ne_nan _ _ _

end Double

namespace Grammar

theorem Types.legible {c d : Cursor} {ts : List Ty} (h : Types c ts d) : ∀ t ∈ ts, t.Legible := by
  induction h with
  | nil => simp
  | basic _ _ _ ih => exact List.forall_mem_cons.2 ⟨.basic _, ih⟩
  | array _ _ _ _ ih1 ih2 => exact List.forall_mem_cons.2 ⟨.array (ih1 _ (List.mem_singleton.2 rfl)), ih2⟩
  | function _ _ _ _ _ ih1 ih2 ih3 =>
      exact List.forall_mem_cons.2 ⟨.function ih1 (ih2 _ (List.mem_singleton.2 rfl)), ih3⟩

theorem Params.legible {c d : Cursor} {ps : List Param} (h : Params c ps d) : ∀ p ∈ ps, p.Legible := by
  induction h with
  | nil => simp
  | cons hty ht hn ha _ ih =>
      exact List.forall_mem_cons.2
        ⟨⟨hty.legible _ (List.mem_singleton.2 rfl), Cursor.isWord_of_token ht hn, ha⟩, ih⟩

theorem Signature.legible {src : Source} {c d : Cursor} {name : Bytes} {location : Location} {params : List Param}
    (h : Signature src c name location params d) : IsWord name ∧ name ≠ arrow ∧ ∀ p ∈ params, p.Legible := by
  obtain ⟨ht, hn, ha, hp, -⟩ := h
  exact ⟨Cursor.isWord_of_token ht hn, ha, hp.legible⟩

end Grammar

def Parser.Bindings.Binds (scope : Parser.Bindings) (names : List Bytes) : Prop :=
  ∀ name, (scope.lookup name).isSome = true ↔ name ∈ names

theorem Parser.Bindings.Binds.bind {scope : Parser.Bindings} {names : List Bytes} (h : scope.Binds names)
    (params : List Param) (l : Location) : (scope.bind params l).Binds (params.map (·.name) ++ names) := by
  induction params generalizing scope names with
  | nil => exact h
  | cons p params ih =>
      have hcons : Parser.Bindings.Binds ((p.name, l) :: scope) (p.name :: names) := by
        intro name
        rw [List.lookup_cons, List.mem_cons]
        by_cases he : name = p.name
        · simp [he]
        · simp [he, beq_false_of_ne he, h name]
      intro name
      refine (ih hcons name).trans ?_
      simp only [List.map_cons, List.cons_append, List.mem_append, List.mem_cons]
      exact or_left_comm

theorem Parser.Bindings.binds_params (params : List Param) (l : Location) :
    (Parser.Bindings.bind [] params l).Binds (params.map (·.name)) := by
  have hnone : Parser.Bindings.Binds [] [] := by simp [Parser.Bindings.Binds]
  have h := hnone.bind params l
  rwa [List.append_nil] at h

/-- What is read without a problem is legible. -/
theorem Grammar.Exprs.legible {src : Source} {r : Registry} {scope : Parser.Bindings} {c d : Cursor} {xs : List Expr}
    {notes : List Diagnostic} (h : Exprs src r scope c xs notes d) (hnotes : notes = []) {names : List Bytes}
    (hscope : scope.Binds names) : ∀ x ∈ xs, x.Legible r names := by
  induction h generalizing names with
  | nil => simp
  | text hq _ ih =>
      obtain ⟨q, _, hquote, hmem, -, -⟩ := hq
      exact List.forall_mem_cons.2 ⟨.text hquote hmem, ih hnotes hscope⟩
  | number _ hn _ ih => exact List.forall_mem_cons.2 ⟨.number (Double.ne_nan_of_ofToken? hn), ih hnotes hscope⟩
  | group _ _ _ _ ih1 ih2 =>
      obtain ⟨h1, h2⟩ := List.append_eq_nil_iff.1 hnotes
      exact List.forall_mem_cons.2 ⟨ih1 h1 hscope _ (List.mem_singleton.2 rfl), ih2 h2 hscope⟩
  | closure _ hp _ _ _ ih1 ih2 =>
      obtain ⟨h1, h2⟩ := List.append_eq_nil_iff.1 hnotes
      exact List.forall_mem_cons.2
        ⟨.closure hp.legible (ih1 h1 (hscope.bind _ _) _ (List.mem_singleton.2 rfl)), ih2 h2 hscope⟩
  | bound ht hw hs _ ih =>
      have hmem := (hscope _).1 (Option.isSome_iff_exists.2 ⟨_, hs⟩)
      exact List.forall_mem_cons.2 ⟨.bound ⟨Cursor.isWord_of_token ht hw.ne_nil, hw⟩ hmem, ih hnotes hscope⟩
  | unresolved => exact nomatch hnotes
  | @call _ _ _ _ _ word _ _ _ _ _ ht hw hs hr hl _ _ ih1 ih2 =>
      obtain ⟨h1, h2⟩ := List.append_eq_nil_iff.1 hnotes
      have hfree : word ∉ names := by
        rw [← hscope word, hs]
        exact Bool.false_ne_true
      exact List.forall_mem_cons.2
        ⟨.call ⟨Cursor.isWord_of_token ht hw.ne_nil, hw⟩ hfree hr hl (ih1 h1 hscope), ih2 h2 hscope⟩

end Polish
