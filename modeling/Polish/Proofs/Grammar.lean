import Polish.Proofs.Reading

namespace Polish

namespace Grammar

inductive Types : Cursor → List Ty → Cursor → Prop
  | nil (c) : Types c [] c
  | basic {c d e word b ts} (ht : c.token = (word, d)) (hb : Basic.ofWord? word = some b)
      (rest : Types d ts e) : Types c (.basic b :: ts) e
  | array {c d e f g element ts} (ho : c.Takes (ascii '[') d) (inner : Types d [element] e)
      (hc : e.Takes (ascii ']') f) (rest : Types f ts g) : Types c (.array element :: ts) g
  | function {c d e f g h params result ts} (ht : c.token = (utf8 "anon", d)) (hp : Types d params e)
      (ha : e.TakesArrow f) (hr : Types f [result] g) (rest : Types g ts h) :
      Types c (.function params result :: ts) h

inductive Params : Cursor → List Param → Cursor → Prop
  | nil (c) : Params c [] c
  | cons {c d e f t name ps} (hty : Types c [t] d) (ht : d.token = (name, e)) (hn : name ≠ [])
      (ha : ¬ arrow <+: name) (rest : Params e ps f) : Params c (⟨name, t⟩ :: ps) f

structure IsName (word : Bytes) : Prop where
  ne_nil : word ≠ []
  unquoted : ∀ b, word.head? = some b → isQuote b = false
  not_number : Double.ofToken? word = none
  not_anon : word ≠ utf8 "anon"

/-- Expressions and the problems found in them. A name that stands for nothing is a problem, and is read as
a variable. -/
inductive Exprs (src : Source) (registry : Registry) :
    Parser.Bindings → Cursor → List Expr → List Diagnostic → Cursor → Prop
  | nil (scope c) : Exprs src registry scope c [] [] c
  | text {scope c d e value xs notes} (hq : c.skipBlanks.Quoted value d)
      (rest : Exprs src registry scope d xs notes e) :
      Exprs src registry scope c (.text (src.locate c.skipBlanks.off) value :: xs) notes e
  | group {scope c d e f g x xs notes notes'} (ho : c.Takes (ascii '(') d)
      (inner : Exprs src registry scope d [x] notes e) (hc : e.Takes (ascii ')') f)
      (rest : Exprs src registry scope f xs notes' g) :
      Exprs src registry scope c (x :: xs) (notes ++ notes') g
  | number {scope c d e word value xs notes} (ht : c.token = (word, d))
      (hn : Double.ofToken? word = some value) (rest : Exprs src registry scope d xs notes e) :
      Exprs src registry scope c (.number (src.locate c.skipBlanks.off) value :: xs) notes e
  | closure {scope c d e f g h ps x xs notes notes'} (ht : c.token = (utf8 "anon", d))
      (hp : Params d ps e) (ha : e.TakesArrow f)
      (body : Exprs src registry (Parser.Bindings.bind scope ps (src.locate f.off)) f [x] notes g)
      (rest : Exprs src registry scope g xs notes' h) :
      Exprs src registry scope c (.closure (src.locate c.skipBlanks.off) ps x :: xs) (notes ++ notes') h
  | bound {scope c d e word place xs notes} (ht : c.token = (word, d)) (hw : IsName word)
      (hs : scope.lookup word = some place) (rest : Exprs src registry scope d xs notes e) :
      Exprs src registry scope c (.relocated (src.locate c.skipBlanks.off) (.var place word) :: xs) notes e
  | unresolved {scope c d e word xs notes} (ht : c.token = (word, d)) (hw : IsName word)
      (hs : scope.lookup word = none) (hr : registry.lookup word = none)
      (rest : Exprs src registry scope d xs notes e) :
      Exprs src registry scope c (.var (src.locate c.skipBlanks.off) word :: xs)
        ({ location := src.locate c.skipBlanks.off, problem := .unresolved word } :: notes) e
  | call {scope c d e g word f args xs notes notes'} (ht : c.token = (word, d)) (hw : IsName word)
      (hs : scope.lookup word = none) (hr : registry.lookup word = some f)
      (hl : args.length = registry.arity f) (hargs : Exprs src registry scope d args notes e)
      (rest : Exprs src registry scope e xs notes' g) :
      Exprs src registry scope c (.call (src.locate c.skipBlanks.off) f args :: xs) (notes ++ notes') g

theorem Types.of_skipBlanks {c d : Cursor} {t : Ty} {ts : List Ty} (h : Types c.skipBlanks (t :: ts) d) :
    Types c (t :: ts) d := by
  cases h with
  | basic ht hb rest => exact .basic (c.token_skipBlanks ▸ ht) hb rest
  | array ho inner hc rest => exact .array (by simpa only [Cursor.Takes, c.skipBlanks_idem] using ho) inner hc rest
  | function ht hp ha hr rest => exact .function (c.token_skipBlanks ▸ ht) hp ha hr rest

theorem Params.of_skipBlanks {c d : Cursor} {p : Param} {ps : List Param} (h : Params c.skipBlanks (p :: ps) d) :
    Params c (p :: ps) d := by
  cases h with
  | cons hty ht hn ha rest => exact .cons hty.of_skipBlanks ht hn ha rest

theorem ofWord?_nil : Basic.ofWord? [] = none := by decide

theorem ofToken?_nil : Double.ofToken? [] = none := by decide

theorem Types.reaches {c d : Cursor} {ts : List Ty} (h : Types c ts d) :
    c.Reaches d ∧ (ts ≠ [] → d.rest.length < c.rest.length) := by
  induction h with
  | nil c => exact ⟨.refl c, fun h => absurd rfl h⟩
  | basic ht hb _ ih =>
      obtain ⟨h1, h2⟩ := Cursor.length_token_lt ht (by rintro rfl; simp [ofWord?_nil] at hb)
      exact ⟨h1.trans ih.1, fun _ => Nat.lt_of_le_of_lt ih.1.length_le h2⟩
  | array ho _ hc _ ih1 ih2 =>
      obtain ⟨h1, h2⟩ := ho.reaches
      have h := (ih1.1.trans hc.reaches.1).trans ih2.1
      exact ⟨h1.trans h, fun _ => Nat.lt_of_le_of_lt h.length_le h2⟩
  | function ht _ ha _ _ ih1 ih2 ih3 =>
      obtain ⟨h1, h2⟩ := Cursor.length_token_lt ht (by decide)
      have h := ((ih1.1.trans ha.reaches.1).trans ih2.1).trans ih3.1
      exact ⟨h1.trans h, fun _ => Nat.lt_of_le_of_lt h.length_le h2⟩

theorem Params.reaches {c d : Cursor} {ps : List Param} (h : Params c ps d) :
    c.Reaches d ∧ (ps ≠ [] → d.rest.length < c.rest.length) := by
  induction h with
  | nil c => exact ⟨.refl c, fun h => absurd rfl h⟩
  | cons hty ht hn _ _ ih =>
      obtain ⟨h1, h2⟩ := hty.reaches
      have h := (Cursor.length_token_lt ht hn).1.trans ih.1
      exact ⟨h1.trans h, fun _ => Nat.lt_of_le_of_lt h.length_le (h2 (by simp))⟩

variable {src : Source} {registry : Registry}

theorem Exprs.reaches {scope : Parser.Bindings} {c d : Cursor} {xs : List Expr} {notes : List Diagnostic}
    (h : Exprs src registry scope c xs notes d) :
    c.Reaches d ∧ (xs ≠ [] → d.rest.length < c.rest.length) := by
  induction h with
  | nil _ c => exact ⟨.refl c, fun h => absurd rfl h⟩
  | @text _ c _ _ _ _ _ hq _ ih =>
      obtain ⟨h1, h2⟩ := hq.reaches
      have hs := c.reaches_skipBlanks
      exact ⟨(hs.trans h1).trans ih.1, fun _ =>
        Nat.lt_of_le_of_lt ih.1.length_le (Nat.lt_of_lt_of_le h2 hs.length_le)⟩
  | group ho _ hc _ ih1 ih2 =>
      obtain ⟨h1, h2⟩ := ho.reaches
      have h := (ih1.1.trans hc.reaches.1).trans ih2.1
      exact ⟨h1.trans h, fun _ => Nat.lt_of_le_of_lt h.length_le h2⟩
  | number ht hn _ ih =>
      obtain ⟨h1, h2⟩ := Cursor.length_token_lt ht (by rintro rfl; simp [ofToken?_nil] at hn)
      exact ⟨h1.trans ih.1, fun _ => Nat.lt_of_le_of_lt ih.1.length_le h2⟩
  | closure ht hp ha _ _ ih1 ih2 =>
      obtain ⟨h1, h2⟩ := Cursor.length_token_lt ht (by decide)
      have h := ((hp.reaches.1.trans ha.reaches.1).trans ih1.1).trans ih2.1
      exact ⟨h1.trans h, fun _ => Nat.lt_of_le_of_lt h.length_le h2⟩
  | bound ht hw _ _ ih =>
      obtain ⟨h1, h2⟩ := Cursor.length_token_lt ht hw.ne_nil
      exact ⟨h1.trans ih.1, fun _ => Nat.lt_of_le_of_lt ih.1.length_le h2⟩
  | unresolved ht hw _ _ _ ih =>
      obtain ⟨h1, h2⟩ := Cursor.length_token_lt ht hw.ne_nil
      exact ⟨h1.trans ih.1, fun _ => Nat.lt_of_le_of_lt ih.1.length_le h2⟩
  | call ht hw _ _ _ _ _ ih1 ih2 =>
      obtain ⟨h1, h2⟩ := Cursor.length_token_lt ht hw.ne_nil
      have h := ih1.1.trans ih2.1
      exact ⟨h1.trans h, fun _ => Nat.lt_of_le_of_lt h.length_le h2⟩

theorem Exprs.append {scope : Parser.Bindings} {c d e : Cursor} {xs ys : List Expr} {notes notes' : List Diagnostic}
    (h : Exprs src registry scope c xs notes d) (h' : Exprs src registry scope d ys notes' e) :
    Exprs src registry scope c (xs ++ ys) (notes ++ notes') e := by
  induction h generalizing ys notes' e with
  | nil => exact h'
  | text hq _ ih => exact .text hq (ih h')
  | group ho inner hc _ _ ih => simpa using Exprs.group ho inner hc (ih h')
  | number ht hn _ ih => exact .number ht hn (ih h')
  | closure ht hp ha body _ _ ih => simpa using Exprs.closure ht hp ha body (ih h')
  | bound ht hw hs _ ih => exact .bound ht hw hs (ih h')
  | unresolved ht hw hs hr _ ih => exact .unresolved ht hw hs hr (ih h')
  | call ht hw hs hr hl hargs _ _ ih => simpa using Exprs.call ht hw hs hr hl hargs (ih h')

theorem Types.append {c d e : Cursor} {ts us : List Ty} (h : Types c ts d) (h' : Types d us e) :
    Types c (ts ++ us) e := by
  induction h with
  | nil => exact h'
  | basic ht hb _ ih => exact .basic ht hb (ih h')
  | array ho inner hc _ _ ih => exact .array ho inner hc (ih h')
  | function ht hp ha hr _ _ _ ih => exact .function ht hp ha hr (ih h')

theorem Params.append {c d e : Cursor} {ps qs : List Param} (h : Params c ps d) (h' : Params d qs e) :
    Params c (ps ++ qs) e := by
  induction h with
  | nil => exact h'
  | cons hty ht hn ha _ ih => exact .cons hty ht hn ha (ih h')

end Grammar

end Polish
