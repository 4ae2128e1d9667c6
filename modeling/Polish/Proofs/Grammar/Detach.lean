import Polish.Proofs.Grammar.Phrases
import Polish.Proofs.RoundTrip

namespace Polish.Phrases

/-- What stands before a rest is of a kind before every rest at which the same tokens end. -/
def Detaches (P : Bytes → Bytes → Prop) (text rest : Bytes) : Prop :=
  ∃ piece, text = piece ++ rest ∧ ∀ rest', (Stops rest → Stops rest') → P (piece ++ rest') rest'

section Texts

variable {P Q : Bytes → Bytes → Prop} {text middle mark word rest : Bytes}

theorem stops_append {rest' : Bytes} (h : Stops rest → Stops rest') (piece : Bytes) (hs : Stops (piece ++ rest)) :
    Stops (piece ++ rest') := by
  cases piece with
  | nil => exact h hs
  | cons b piece => exact hs

theorem Detaches.mono (h : Detaches P text rest) (himp : ∀ text rest, P text rest → Q text rest) :
    Detaches Q text rest := by
  obtain ⟨piece, he, hpiece⟩ := h
  exact ⟨piece, he, fun rest' hs => himp _ _ (hpiece rest' hs)⟩

theorem Detaches.seq (hP : Detaches P text middle) (hQ : Detaches Q middle rest) :
    Detaches (fun text rest => ∃ middle, P text middle ∧ Q middle rest) text rest := by
  obtain ⟨first, rfl, hfirst⟩ := hP
  obtain ⟨second, rfl, hsecond⟩ := hQ
  refine ⟨first ++ second, (List.append_assoc _ _ _).symm, fun rest' hs => ⟨second ++ rest', ?_, hsecond rest' hs⟩⟩
  rw [List.append_assoc]
  exact hfirst _ (stops_append hs second)

theorem Opens.detaches (h : Opens text mark rest) : Detaches (Opens · mark ·) text rest := by
  obtain ⟨blanks, hblanks, rfl⟩ := h
  refine ⟨blanks ++ mark, (List.append_assoc _ _ _).symm, fun rest' _ => ⟨blanks, hblanks, ?_⟩⟩
  rw [List.append_assoc]

theorem Token.detaches (h : Token text word rest) : Detaches (Token · word ·) text rest := by
  obtain ⟨piece, he, hpiece⟩ := h.opens.detaches
  exact ⟨piece, he, fun rest' hs => ⟨hpiece rest' hs, h.isWord, hs h.stops⟩⟩

end Texts

mutual

theorem IsType.detaches : ∀ {text rest : Bytes} {t : Ty}, IsType text t rest → Detaches (IsType · t ·) text rest
  | _, _, _, .basic h => h.detaches.mono fun _ _ h => .basic h
  | _, _, _, .array ho h hc =>
      (ho.detaches.seq (h.detaches.seq hc.detaches)).mono fun _ _ ⟨_, ho, _, h, hc⟩ => .array ho h hc
  | _, _, _, .function h hp ha hr =>
      (h.detaches.seq ((detaches_types hp).seq (ha.detaches.seq hr.detaches))).mono
        fun _ _ ⟨_, h, _, hp, _, ha, hr⟩ => .function h hp ha hr

theorem detaches_types : ∀ {text rest : Bytes} {ts : List Ty}, Many IsType text ts rest →
    Detaches (Many IsType · ts ·) text rest
  | _, _, _, .nil _ => ⟨[], rfl, fun rest' _ => .nil rest'⟩
  | _, _, _, .cons h hs => (h.detaches.seq (detaches_types hs)).mono fun _ _ ⟨_, h, hs⟩ => .cons h hs

end

theorem IsParam.detaches {text rest : Bytes} {p : Param} (h : IsParam text p rest) :
    Detaches (IsParam · p ·) text rest := by
  obtain ⟨ht, hn, ha⟩ := h
  exact (ht.detaches.seq hn.detaches).mono fun _ _ ⟨_, ht, hn⟩ => .mk ht hn ha

theorem detaches_params {text rest : Bytes} {ps : List Param} (h : Many IsParam text ps rest) :
    Detaches (Many IsParam · ps ·) text rest := by
  induction h with
  | nil => exact ⟨[], rfl, fun rest' _ => .nil rest'⟩
  | cons h _ ih => exact (h.detaches.seq ih).mono fun _ _ ⟨_, h, hs⟩ => .cons h hs

section Exprs

variable {src : Source} {r : Registry}

/-- An expression, locations apart, wherever the same functions are known and the given names are bound. -/
def Rereads (r : Registry) (names : List Bytes) (x : Expr) (text rest : Bytes) : Prop :=
  ∀ (src' : Source) (r' : Registry) (scope : Parser.Bindings), r'.Answers r → scope.Binds names →
    ∃ x', IsExpr src' r' scope text x' rest ∧ x'.unlocated = x.unlocated

def RereadsAll (r : Registry) (names : List Bytes) (xs : List Expr) (text rest : Bytes) : Prop :=
  ∀ (src' : Source) (r' : Registry) (scope : Parser.Bindings), r'.Answers r → scope.Binds names →
    ∃ xs', AreExprs src' r' scope text xs' rest ∧ Expr.unlocatedList xs' = Expr.unlocatedList xs

mutual

theorem IsExpr.detaches : ∀ {scope : Parser.Bindings} {text rest : Bytes} {x : Expr}, IsExpr src r scope text x rest →
    ∀ {names : List Bytes}, scope.Binds names → Detaches (Rereads r names x) text rest
  | _, _, _, _, .text hq hv h, _, _ =>
      h.detaches.mono fun _ _ h _ _ _ _ _ => ⟨_, .text hq hv h, by simp only [Expr.unlocated]⟩
  | _, _, _, _, .number h hn hv, _, _ =>
      h.detaches.mono fun _ _ h _ _ _ _ _ => ⟨_, .number h hn hv, by simp only [Expr.unlocated]⟩
  | _, _, _, _, .closure h hp ha hb, _, hscope =>
      (h.detaches.seq ((detaches_params hp).seq
        (ha.detaches.seq (hb.detaches (hscope.bind _ _))))).mono fun _ _ ⟨_, h, _, hp, _, ha, hb⟩ src' r' scope hr hs => by
          obtain ⟨x', hx', hsame⟩ := hb src' r' _ hr (hs.bind _ _)
          exact ⟨_, .closure h hp ha hx', by rw [Expr.unlocated, Expr.unlocated, hsame]⟩
  | _, _, _, _, @IsExpr.bound _ _ _ _ word _ _ h hw hl, _, hscope =>
      h.detaches.mono fun _ _ h src' r' scope hr hs => by
        have hmem := (hscope word).1 (by rw [hl]; rfl)
        obtain ⟨place, hplace⟩ := Option.isSome_iff_exists.1 ((hs word).2 hmem)
        exact ⟨_, .bound h hw hplace, by simp only [Expr.unlocated]⟩
  | _, _, _, _, @IsExpr.call _ _ _ _ _ word _ _ _ h hw hl hf hlen hargs, _, hscope =>
      (h.detaches.seq (detaches_exprs hargs hscope)).mono fun _ _ ⟨_, h, hargs⟩ src' r' scope hr hs => by
        have hfree : scope.lookup word = none := by
          rw [← Option.not_isSome_iff_eq_none, hs word, ← hscope word, hl]
          exact Bool.false_ne_true
        obtain ⟨xs', hxs', hsame⟩ := hargs src' r' scope hr hs
        have hlen' := (Expr.length_eq_of_unlocatedList hsame).trans (hlen.trans (hr.arity _).symm)
        exact ⟨_, .call h hw hfree ((hr.lookup word).trans hf) hlen' hxs', by rw [Expr.unlocated, Expr.unlocated, hsame]⟩
  | _, _, _, _, .group ho h hc, _, hscope =>
      (ho.detaches.seq ((h.detaches hscope).seq hc.detaches)).mono fun _ _ ⟨_, ho, _, h, hc⟩ src' r' scope hr hs => by
        obtain ⟨x', hx', hsame⟩ := h src' r' scope hr hs
        exact ⟨x', .group ho hx' hc, hsame⟩

theorem detaches_exprs : ∀ {scope : Parser.Bindings} {text rest : Bytes} {xs : List Expr},
    AreExprs src r scope text xs rest → ∀ {names : List Bytes}, scope.Binds names →
      Detaches (RereadsAll r names xs) text rest
  | _, _, _, _, .nil _ _, _, _ => ⟨[], rfl, fun rest' _ _ _ scope _ _ => ⟨[], .nil scope rest', rfl⟩⟩
  | _, _, _, _, .cons h hs, _, hscope =>
      ((h.detaches hscope).seq (detaches_exprs hs hscope)).mono fun _ _ ⟨_, h, hs⟩ src' r' scope hr hbinds => by
        obtain ⟨x', hx', hsame⟩ := h src' r' scope hr hbinds
        obtain ⟨xs', hxs', hsames⟩ := hs src' r' scope hr hbinds
        exact ⟨_, .cons hx' hxs', by rw [Expr.unlocatedList, Expr.unlocatedList, hsame, hsames]⟩

end

/-- The declaration of a function, locations apart, where the same functions are declared so far. -/
theorem Declares.detaches {text rest : Bytes} {fn : Function} (h : Declares src r text fn rest) :
    Detaches (fun text rest => ∀ (src' : Source) (r' : Registry), r'.Same r →
      ∃ fn', Declares src' r' text fn' rest ∧ fn'.unlocated = fn.unlocated) text rest := by
  cases h with
  | @mk _ _ _ _ _ name params location body hk hn ha hl hp harrow hnew hb =>
  have hbody := hb.detaches (Parser.Bindings.binds_params params _)
  refine (hk.detaches.seq (hn.detaches.seq ((detaches_params hp).seq (harrow.detaches.seq hbody)))).mono ?_
  rintro _ _ ⟨t₁, hk, t₂, hn, t₃, hp, t₄, harrow, hb⟩ src' r' hr
  have hself : (r'.declare (.awaiting name params (src'.place (t₂.dropWhile isBlank)))).Same
      (r.declare (.awaiting name params location)) := hr.declare rfl
  obtain ⟨x', hx', hsame⟩ := hb src' _ _ hself.answers (Parser.Bindings.binds_params params (src'.place t₄))
  refine ⟨_, .mk hk hn ha rfl hp harrow ((hr.answers.lookup name).trans hnew) hx', ?_⟩
  simp only [Function.unlocated, Function.custom, hsame]

end Exprs

end Polish.Phrases
