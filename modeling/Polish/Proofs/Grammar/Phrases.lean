import Polish.Proofs.Double.Token
import Polish.Proofs.Printing
import Polish.Proofs.Runs.Complete
import Polish.Proofs.Runs.Source
import Mathlib.Data.List.TakeWhile

namespace Polish

def Source.place (src : Source) (rest : Bytes) : Location := src.locate (src.text.length - rest.length)

namespace Phrases

def Opens (text mark rest : Bytes) : Prop :=
  ∃ blanks : Bytes, (∀ b ∈ blanks, isBlank b = true) ∧ text = blanks ++ (mark ++ rest)

structure Token (text word rest : Bytes) : Prop where
  opens : Opens text word rest
  isWord : IsWord word
  stops : Stops rest

inductive Many {α : Type} (item : Bytes → α → Bytes → Prop) : Bytes → List α → Bytes → Prop
  | nil (text) : Many item text [] text
  | cons {text middle rest x xs} (h : item text x middle) (hs : Many item middle xs rest) :
      Many item text (x :: xs) rest

inductive IsType : Bytes → Ty → Bytes → Prop
  | basic {text rest b} (h : Token text (Basic.name b) rest) : IsType text (.basic b) rest
  | array {text t₁ t₂ rest element} (ho : Opens text (utf8 "[") t₁) (h : IsType t₁ element t₂)
      (hc : Opens t₂ (utf8 "]") rest) : IsType text (.array element) rest
  | function {text t₁ t₂ t₃ rest params result} (h : Token text (utf8 "anon") t₁) (hp : Many IsType t₁ params t₂)
      (ha : Opens t₂ arrow t₃) (hr : IsType t₃ result rest) : IsType text (.function params result) rest

inductive IsParam : Bytes → Param → Bytes → Prop
  | mk {text middle rest t name} (ht : IsType text t middle) (hn : Token middle name rest) (ha : ¬ arrow <+: name) :
      IsParam text ⟨name, t⟩ rest

structure IsName (word : Bytes) : Prop where
  unquoted : ∀ b, word.head? = some b → isQuote b = false
  not_number : ¬ Double.StartsNumber word
  not_anon : word ≠ utf8 "anon"

mutual

inductive IsExpr (src : Source) (r : Registry) : Parser.Bindings → Bytes → Expr → Bytes → Prop
  | text {scope text q value rest} (hq : isQuote q = true) (hv : q ∉ value)
      (h : Opens text (q :: (value ++ [q])) rest) :
      IsExpr src r scope text (.text (src.place (q :: (value ++ [q]) ++ rest)) value) rest
  | number {scope text word value rest} (h : Token text word rest) (hn : Double.StartsNumber word)
      (hv : Double.ofToken? word = some value) :
      IsExpr src r scope text (.number (src.place (word ++ rest)) value) rest
  | closure {scope text t₁ t₂ t₃ rest params body} (h : Token text (utf8 "anon") t₁) (hp : Many IsParam t₁ params t₂)
      (ha : Opens t₂ arrow t₃)
      (hb : IsExpr src r (Parser.Bindings.bind scope params (src.place t₃)) t₃ body rest) :
      IsExpr src r scope text (.closure (src.place (utf8 "anon" ++ t₁)) params body) rest
  | bound {scope text word place rest} (h : Token text word rest) (hw : IsName word)
      (hs : scope.lookup word = some place) :
      IsExpr src r scope text (.relocated (src.place (word ++ rest)) (.var place word)) rest
  | call {scope text t₁ word f args rest} (h : Token text word t₁) (hw : IsName word) (hs : scope.lookup word = none)
      (hr : r.lookup word = some f) (hl : args.length = r.arity f) (hargs : AreExprs src r scope t₁ args rest) :
      IsExpr src r scope text (.call (src.place (word ++ t₁)) f args) rest
  | group {scope text t₁ t₂ x rest} (ho : Opens text (utf8 "(") t₁) (h : IsExpr src r scope t₁ x t₂)
      (hc : Opens t₂ (utf8 ")") rest) : IsExpr src r scope text x rest

inductive AreExprs (src : Source) (r : Registry) : Parser.Bindings → Bytes → List Expr → Bytes → Prop
  | nil (scope text) : AreExprs src r scope text [] text
  | cons {scope text middle rest x xs} (h : IsExpr src r scope text x middle)
      (hs : AreExprs src r scope middle xs rest) : AreExprs src r scope text (x :: xs) rest

end

inductive Declares (src : Source) (r : Registry) : Bytes → Function → Bytes → Prop
  | mk {text t₁ t₂ t₃ t₄ rest name params location body} (hk : Token text (utf8 "function") t₁) (hn : Token t₁ name t₂)
      (ha : name ≠ arrow) (hl : location = src.place (t₂.dropWhile isBlank)) (hp : Many IsParam t₂ params t₃)
      (harrow : Opens t₃ arrow t₄) (hnew : r.lookup name = none)
      (hb : IsExpr src (r.declare (.awaiting name params location)) (Parser.Bindings.bind [] params (src.place t₄))
        t₄ body rest) : Declares src r text (.custom name params location body) rest

inductive IsProgram (src : Source) : Registry → Bytes → List Function → Prop
  | nil {r text} (h : ∀ b ∈ text, isBlank b = true) : IsProgram src r text []
  | cons {r text rest fn fns} (h : Declares src r text fn rest) (hs : IsProgram src (r.declare fn) rest fns) :
      IsProgram src r text (fn :: fns)

section Texts

variable {c d : Cursor} {word text mark rest : Bytes}

theorem opens_of_skipBlanks (h : c.skipBlanks.rest = mark ++ rest) : Opens c.rest mark rest := by
  refine ⟨c.rest.takeWhile isBlank, List.all_eq_true.1 List.all_takeWhile, ?_⟩
  rw [← h, Cursor.rest_skipBlanks, List.takeWhile_append_dropWhile]

theorem Opens.faces (h : Opens text mark rest) (hc : c.Faces text) : c.Faces (mark ++ rest) := by
  obtain ⟨blanks, hblanks, rfl⟩ := h
  rwa [Cursor.Faces, List.dropWhile_append_of_pos hblanks] at hc

theorem opens_of_takes {b : UInt8} (h : c.Takes b d) : Opens c.rest [b] d.rest := by
  obtain ⟨hb, rfl⟩ := h
  apply opens_of_skipBlanks
  obtain ⟨bs, hbs⟩ := List.head?_eq_some_iff.1 hb
  simp [Cursor.advance, hbs]

theorem opens_of_takesArrow (h : c.TakesArrow d) : Opens c.rest arrow d.rest := by
  obtain ⟨ha, rfl⟩ := h
  apply opens_of_skipBlanks
  obtain ⟨bs, hbs⟩ := List.isPrefixOf_iff_prefix.1 ha
  rw [Cursor.advance, ← hbs, List.drop_left]

theorem rest_of_quoted {value : Bytes} (h : c.Quoted value d) :
    ∃ q, isQuote q = true ∧ q ∉ value ∧ c.rest = q :: (value ++ [q]) ++ d.rest := by
  obtain ⟨q, rest, hq, hv, hrest, rfl⟩ := h
  refine ⟨q, hq, hv, ?_⟩
  simp [Cursor.advance, hrest]

theorem token_of_token (h : c.token = (word, d)) (hw : word ≠ []) : Token c.rest word d.rest := by
  refine ⟨opens_of_skipBlanks (Cursor.skipBlanks_rest_of_token h), Cursor.isWord_of_token h hw, ?_⟩
  have hd : d.rest = c.skipBlanks.rest.dropWhile inToken := by
    have happend := List.takeWhile_append_dropWhile (p := inToken) (l := c.skipBlanks.rest)
    have hword : word = c.skipBlanks.rest.takeWhile inToken := (congrArg Prod.fst h).symm
    rw [← hword] at happend
    exact List.append_cancel_left ((Cursor.skipBlanks_rest_of_token h).symm.trans happend.symm)
  intro b hb
  have hhead := List.head?_dropWhile_not inToken c.skipBlanks.rest
  rw [← hd, hb] at hhead
  simpa using hhead

theorem Token.token (h : Token text word rest) (hc : c.Faces text) :
    ∃ d, c.token = (word, d) ∧ d.rest = rest ∧ c.skipBlanks.rest = word ++ rest := by
  obtain ⟨d, ht, rfl⟩ := (h.opens.faces hc).token h.isWord h.stops
  exact ⟨d, ht, rfl, Cursor.skipBlanks_rest_of_token ht⟩

end Texts

theorem isName_iff {word : Bytes} (hw : word ≠ []) : IsName word ↔ Grammar.IsName word := by
  have hnumber : ¬ Double.StartsNumber word ↔ Double.ofToken? word = none := by
    rw [← Double.ofToken?_isSome, Option.not_isSome_iff_eq_none]
  constructor
  · exact fun h => ⟨hw, h.unquoted, hnumber.1 h.not_number, h.not_anon⟩
  · exact fun h => ⟨h.unquoted, hnumber.2 h.not_number, h.not_anon⟩

theorem Many.single {α : Type} {item : Bytes → α → Bytes → Prop} {text rest : Bytes} {x : α}
    (h : Many item text [x] rest) : item text x rest := by
  cases h with
  | cons h hs =>
      cases hs
      exact h

/-- Texts between the positions of a grammar. -/
theorem many_of_types {c d : Cursor} {ts : List Ty} (h : Grammar.Types c ts d) : Many IsType c.rest ts d.rest := by
  induction h with
  | nil => exact .nil _
  | basic ht hb _ ih =>
      have hname := List.find?_some hb
      obtain rfl := of_decide_eq_true hname
      exact .cons (.basic (token_of_token ht (Print.isWord_name _).ne_nil)) ih
  | array ho _ hc _ ih1 ih2 => exact .cons (.array (opens_of_takes ho) ih1.single (opens_of_takes hc)) ih2
  | function ht _ ha _ _ ih1 ih2 ih3 =>
      exact .cons (.function (token_of_token ht Print.isWord_anon.ne_nil) ih1 (opens_of_takesArrow ha) ih2.single) ih3

theorem many_of_params {c d : Cursor} {ps : List Param} (h : Grammar.Params c ps d) : Many IsParam c.rest ps d.rest := by
  induction h with
  | nil => exact .nil _
  | cons hty ht hn ha _ ih => exact .cons (.mk (many_of_types hty).single (token_of_token ht hn) ha) ih

mutual

theorem IsType.types : ∀ {text rest : Bytes} {t : Ty}, IsType text t rest → ∀ {c : Cursor}, c.Faces text →
    ∃ d, Grammar.Types c [t] d ∧ d.Faces rest
  | _, _, _, .basic h, c, hc => by
      obtain ⟨d, ht, hd, -⟩ := h.token hc
      exact ⟨d, .basic ht (Print.ofWord?_name _) (.nil d), Print.faces_of_rest hd⟩
  | _, _, _, .array ho h hclose, c, hc => by
      obtain ⟨d, ho, hd⟩ := (ho.faces hc).takes (b := ascii '[') (by decide)
      obtain ⟨e, ht, he⟩ := h.types (Print.faces_of_rest hd)
      obtain ⟨f, hclose, hf⟩ := (hclose.faces he).takes (b := ascii ']') (by decide)
      exact ⟨f, .array ho ht hclose (.nil f), Print.faces_of_rest hf⟩
  | _, _, _, .function h hp ha hr, c, hc => by
      obtain ⟨d, hanon, hd, -⟩ := h.token hc
      obtain ⟨e, hts, he⟩ := types_of_many hp (Print.faces_of_rest hd)
      obtain ⟨f, ha, hf⟩ := (ha.faces he).takesArrow
      obtain ⟨g, ht, hg⟩ := hr.types (Print.faces_of_rest hf)
      exact ⟨g, .function hanon hts ha ht (.nil g), hg⟩

theorem types_of_many : ∀ {text rest : Bytes} {ts : List Ty}, Many IsType text ts rest → ∀ {c : Cursor}, c.Faces text →
    ∃ d, Grammar.Types c ts d ∧ d.Faces rest
  | _, _, _, .nil _, c, hc => ⟨c, .nil c, hc⟩
  | _, _, _, .cons h hs, c, hc => by
      obtain ⟨d, ht, hd⟩ := h.types hc
      obtain ⟨e, hts, he⟩ := types_of_many hs hd
      exact ⟨e, ht.append hts, he⟩

end

theorem params_of_many {text rest : Bytes} {ps : List Param} (h : Many IsParam text ps rest) {c : Cursor}
    (hc : c.Faces text) : ∃ d, Grammar.Params c ps d ∧ d.Faces rest := by
  induction h generalizing c with
  | nil => exact ⟨c, .nil c, hc⟩
  | cons h _ ih =>
      obtain ⟨hty, hn, ha⟩ := h
      obtain ⟨d, ht, hd⟩ := hty.types hc
      obtain ⟨e, hname, he, -⟩ := hn.token hd
      obtain ⟨f, hps, hf⟩ := ih (Print.faces_of_rest he)
      exact ⟨f, .cons ht hname hn.isWord.ne_nil ha hps, hf⟩

def Within (src : Source) (c : Cursor) : Prop := c.off + c.rest.length = src.text.length

theorem within_start (src : Source) : Within src src.start := Nat.zero_add _

theorem Within.reaches {src : Source} {c d : Cursor} (h : Within src c) (hd : c.Reaches d) : Within src d :=
  hd.off_add_length.trans h

theorem Within.place_eq {src : Source} {c : Cursor} (h : Within src c) {rest : Bytes} (hr : c.rest = rest) :
    src.place rest = src.locate c.off := by
  have hoff : src.text.length - rest.length = c.off := by
    rw [← hr]
    exact Nat.sub_eq_of_eq_add h.symm
  rw [Source.place, hoff]

theorem Within.place_skipBlanks {src : Source} {c : Cursor} (h : Within src c) {rest : Bytes}
    (hr : c.skipBlanks.rest = rest) : src.place rest = src.locate c.skipBlanks.off :=
  (h.reaches c.reaches_skipBlanks).place_eq hr

section Exprs

variable {src : Source} {r : Registry}

theorem AreExprs.single {scope : Parser.Bindings} {text rest : Bytes} {x : Expr}
    (h : AreExprs src r scope text [x] rest) : IsExpr src r scope text x rest := by
  cases h with
  | cons h hs =>
      cases hs
      exact h

theorem areExprs_of_exprs {scope : Parser.Bindings} {c d : Cursor} {xs : List Expr} {notes : List Diagnostic}
    (h : Grammar.Exprs src r scope c xs notes d) (hnotes : notes = []) (hc : Within src c) :
    AreExprs src r scope c.rest xs d.rest := by
  induction h with
  | nil => exact .nil _ _
  | @text _ c d _ _ _ _ hq _ ih =>
      obtain ⟨q, hquote, hmem, hrest⟩ := rest_of_quoted hq
      rw [← hc.place_skipBlanks hrest]
      exact .cons (.text hquote hmem (opens_of_skipBlanks hrest))
        (ih hnotes (hc.reaches (c.reaches_skipBlanks.trans hq.reaches.1)))
  | @group _ c d e f _ _ _ _ _ ho inner hclose _ ih1 ih2 =>
      obtain ⟨hn1, hn2⟩ := List.append_eq_nil_iff.1 hnotes
      have hd := hc.reaches ho.reaches.1
      have hf := (hd.reaches inner.reaches.1).reaches hclose.reaches.1
      exact .cons (.group (opens_of_takes ho) (ih1 hn1 hd).single (opens_of_takes hclose)) (ih2 hn2 hf)
  | @number _ c d _ word _ _ _ ht hn _ ih =>
      have hword : word ≠ [] := by
        rintro rfl
        simp [Grammar.ofToken?_nil] at hn
      have htoken := token_of_token ht hword
      rw [← hc.place_skipBlanks (Cursor.skipBlanks_rest_of_token ht)]
      refine .cons (.number htoken (Double.ofToken?_isSome.1 (by rw [hn]; rfl)) hn) (ih hnotes ?_)
      exact hc.reaches (Cursor.length_token_lt ht hword).1
  | @closure _ c d e f g _ _ _ _ _ _ ht hp ha body _ ih1 ih2 =>
      obtain ⟨hn1, hn2⟩ := List.append_eq_nil_iff.1 hnotes
      have hd := hc.reaches (Cursor.length_token_lt ht Print.isWord_anon.ne_nil).1
      have hf := (hd.reaches hp.reaches.1).reaches ha.reaches.1
      have hbody := (ih1 hn1 hf).single
      rw [← hc.place_skipBlanks (Cursor.skipBlanks_rest_of_token ht)]
      rw [← hf.place_eq rfl] at hbody
      exact .cons (.closure (token_of_token ht Print.isWord_anon.ne_nil) (many_of_params hp) (opens_of_takesArrow ha) hbody)
        (ih2 hn2 (hf.reaches body.reaches.1))
  | bound ht hw hs _ ih =>
      rw [← hc.place_skipBlanks (Cursor.skipBlanks_rest_of_token ht)]
      exact .cons (.bound (token_of_token ht hw.ne_nil) ((isName_iff hw.ne_nil).2 hw) hs)
        (ih hnotes (hc.reaches (Cursor.length_token_lt ht hw.ne_nil).1))
  | unresolved => exact nomatch hnotes
  | call ht hw hs hr hl hargs _ ih1 ih2 =>
      obtain ⟨hn1, hn2⟩ := List.append_eq_nil_iff.1 hnotes
      have hd := hc.reaches (Cursor.length_token_lt ht hw.ne_nil).1
      rw [← hc.place_skipBlanks (Cursor.skipBlanks_rest_of_token ht)]
      exact .cons (.call (token_of_token ht hw.ne_nil) ((isName_iff hw.ne_nil).2 hw) hs hr hl (ih1 hn1 hd))
        (ih2 hn2 (hd.reaches hargs.reaches.1))

mutual

theorem IsExpr.exprs : ∀ {scope : Parser.Bindings} {text rest : Bytes} {x : Expr}, IsExpr src r scope text x rest →
    ∀ {c : Cursor}, c.Faces text → Within src c → ∃ d, Grammar.Exprs src r scope c [x] [] d ∧ d.Faces rest
  | _, _, _, _, .text hq hv h, c, hface, hc => by
      have hfaces := h.faces hface
      rw [List.cons_append, List.append_assoc] at hfaces ⊢
      rw [hc.place_skipBlanks (hfaces.skipBlanks_rest (isBlank_of_isQuote hq))]
      obtain ⟨d, hquoted, hd⟩ := hfaces.quoted hq hv
      exact ⟨d, .text hquoted (.nil _ d), Print.faces_of_rest hd⟩
  | _, _, _, _, .number h hn hv, c, hface, hc => by
      obtain ⟨d, ht, hd, hrest⟩ := h.token hface
      rw [hc.place_skipBlanks hrest]
      exact ⟨d, .number ht hv (.nil _ d), Print.faces_of_rest hd⟩
  | _, _, _, _, .closure h hp ha hb, c, hface, hc => by
      obtain ⟨d, ht, hd, hrest⟩ := h.token hface
      obtain ⟨e, hps, he⟩ := params_of_many hp (Print.faces_of_rest hd)
      obtain ⟨f, ha, hf⟩ := (ha.faces he).takesArrow
      have hwithin := ((hc.reaches (Cursor.length_token_lt ht h.isWord.ne_nil).1).reaches hps.reaches.1).reaches ha.reaches.1
      obtain ⟨g, hbody, hg⟩ := hb.exprs (Print.faces_of_rest hf) hwithin
      rw [hwithin.place_eq hf] at hbody
      rw [hc.place_skipBlanks hrest]
      exact ⟨g, .closure ht hps ha hbody (.nil _ g), hg⟩
  | _, _, _, _, .bound h hw hs, c, hface, hc => by
      obtain ⟨d, ht, hd, hrest⟩ := h.token hface
      rw [hc.place_skipBlanks hrest]
      exact ⟨d, .bound ht ((isName_iff h.isWord.ne_nil).1 hw) hs (.nil _ d), Print.faces_of_rest hd⟩
  | _, _, _, _, .call h hw hs hr hl hargs, c, hface, hc => by
      obtain ⟨d, ht, hd, hrest⟩ := h.token hface
      obtain ⟨e, hxs, he⟩ := exprs_of_areExprs hargs (Print.faces_of_rest hd)
        (hc.reaches (Cursor.length_token_lt ht h.isWord.ne_nil).1)
      rw [hc.place_skipBlanks hrest]
      exact ⟨e, .call ht ((isName_iff h.isWord.ne_nil).1 hw) hs hr hl hxs (.nil _ e), he⟩
  | _, _, _, _, .group ho h hclose, c, hface, hc => by
      obtain ⟨d, ho, hd⟩ := (ho.faces hface).takes (b := ascii '(') (by decide)
      obtain ⟨e, hx, he⟩ := h.exprs (Print.faces_of_rest hd) (hc.reaches ho.reaches.1)
      obtain ⟨f, hclose, hf⟩ := (hclose.faces he).takes (b := ascii ')') (by decide)
      exact ⟨f, .group ho hx hclose (.nil _ f), Print.faces_of_rest hf⟩

theorem exprs_of_areExprs : ∀ {scope : Parser.Bindings} {text rest : Bytes} {xs : List Expr},
    AreExprs src r scope text xs rest → ∀ {c : Cursor}, c.Faces text → Within src c →
      ∃ d, Grammar.Exprs src r scope c xs [] d ∧ d.Faces rest
  | _, _, _, _, .nil _ _, c, hface, _ => ⟨c, .nil _ c, hface⟩
  | _, _, _, _, .cons h hs, c, hface, hc => by
      obtain ⟨d, hx, hd⟩ := h.exprs hface hc
      obtain ⟨e, hxs, he⟩ := exprs_of_areExprs hs hd (hc.reaches hx.reaches.1)
      exact ⟨e, hx.append hxs, he⟩

end

end Exprs

theorem many_of_signature {d e f : Cursor} {params : List Param} (hp : Grammar.Params d.skipBlanks params e)
    (ha : e.TakesArrow f) : ∃ text, Many IsParam d.rest params text ∧ Opens text arrow f.rest := by
  cases params with
  | nil =>
      cases hp
      have harrow : d.TakesArrow f := by simpa only [Cursor.TakesArrow, d.skipBlanks_idem] using ha
      exact ⟨d.rest, .nil _, opens_of_takesArrow harrow⟩
  | cons p ps => exact ⟨e.rest, many_of_params hp.of_skipBlanks, opens_of_takesArrow ha⟩

theorem declares_of_signature {src : Source} {r : Registry} {c d e g : Cursor} {name : Bytes} {location : Location}
    {params : List Param} {body : Expr} (hk : c.token = (utf8 "function", d))
    (hs : Grammar.Signature src d name location params e) (hnew : r.lookup name = none)
    (hb : Grammar.Exprs src (r.declare (.awaiting name params location))
      (Parser.Bindings.bind [] params (src.locate e.off)) e [body] [] g) (hc : Within src c) :
    Declares src r c.rest (.custom name params location body) g.rest := by
  have hd := hc.reaches (Cursor.length_token_lt hk (by decide)).1
  have he := hd.reaches hs.reaches
  have hbody := (areExprs_of_exprs hb rfl he).single
  obtain ⟨ht, hn, ha, hp, harrow⟩ := hs
  have hafter := hd.reaches (Cursor.length_token_lt ht hn).1
  obtain ⟨text, hmany, hopens⟩ := many_of_signature hp harrow
  rw [← he.place_eq rfl] at hbody
  exact .mk (token_of_token hk (by decide)) (token_of_token ht hn) ha
    (hafter.place_skipBlanks (Cursor.rest_skipBlanks _)).symm hmany hopens hnew hbody

theorem isProgram_of_cleanRuns {resolver : Resolver} {depth : Nat} {src : Source} {c : Cursor} {w w' : Workspace}
    (h : CleanRuns resolver none depth src c w w') (hc : Within src c) :
    ∃ fns, IsProgram src w.registry c.rest fns ∧ w' = w.withRegistry (fns.foldl Registry.declare w.registry) := by
  generalize hread : none = read at h
  induction h with
  | @done _ _ c _ hend =>
      have hrest : c.rest.dropWhile isBlank = [] := by
        rw [← Cursor.rest_skipBlanks]
        exact List.isEmpty_iff.1 hend
      exact ⟨[], .nil (List.dropWhile_eq_nil_iff.1 hrest), rfl⟩
  | @declared _ src c d e g name location params body w _ hk hs hnew hb rest ih =>
      have hd := hc.reaches (Cursor.length_token_lt hk (by decide)).1
      obtain ⟨fns, hfns, rfl⟩ := ih ((hd.reaches hs.reaches).reaches hb.reaches.1)
      exact ⟨_, .cons (declares_of_signature hk hs hnew hb hc) hfns, rfl⟩
  | known hr => simp [← hread] at hr
  | included hr | unread hr => cases hread.trans hr

theorem IsProgram.cleanRuns {src : Source} {r : Registry} {text : Bytes} {fns : List Function}
    (h : IsProgram src r text fns) (resolver : Resolver) {c : Cursor} (hface : c.Faces text) (hc : Within src c)
    {w : Workspace} (hw : w.registry = r) :
    CleanRuns resolver none 0 src c w (w.withRegistry (fns.foldl Registry.declare r)) := by
  induction h generalizing c w with
  | nil h =>
      subst hw
      refine .done (List.isEmpty_iff.2 ?_)
      rw [Cursor.rest_skipBlanks, hface]
      exact List.dropWhile_eq_nil_iff.2 h
  | cons h _ ih =>
      subst hw
      cases h with
      | @mk _ _ _ _ _ name params location body hk hn ha hl hp harrow hnew hb =>
      obtain ⟨d, hkey, hd, -⟩ := hk.token hface
      obtain ⟨e, hname, he, -⟩ := hn.token (Print.faces_of_rest hd)
      have hwithin : Within src e := (hc.reaches (Cursor.length_token_lt hkey hk.isWord.ne_nil).1).reaches
        (Cursor.length_token_lt hname hn.isWord.ne_nil).1
      obtain ⟨f, hps, hf⟩ := params_of_many hp (Print.faces_of_rest he).skipBlanks
      obtain ⟨g, harrow, hg⟩ := (harrow.faces hf).takesArrow
      have hsignature : Grammar.Signature src d name location params g := by
        rw [hl, hwithin.place_skipBlanks (by rw [Cursor.rest_skipBlanks, he])]
        exact .mk hname hn.isWord.ne_nil ha hps harrow
      have hstart := ((hwithin.reaches e.reaches_skipBlanks).reaches hps.reaches.1).reaches harrow.reaches.1
      obtain ⟨k, hbody, hk'⟩ := hb.exprs (Print.faces_of_rest hg) hstart
      rw [hstart.place_eq hg] at hbody
      exact .declared hkey hsignature hnew hbody (ih hk' (hstart.reaches hbody.reaches.1) rfl)

end Phrases

open Phrases in
/-- Without imports a source is read without a problem if and only if it is a program, and then the registry is the
one from before with the functions of the program, one after the other. -/
theorem Build.source_iff_isProgram (resolver : Resolver) (src : Source) (w : Workspace) :
    ∃ w', Build.source resolver none src w = .ok () w' ∧
      (w'.report = w.report ↔ ∃ fns, IsProgram src w.registry src.text fns) ∧
      ∀ fns, IsProgram src w.registry src.text fns →
        w' = w.withRegistry (fns.foldl Registry.declare w.registry) := by
  have hwithin : Within src src.start := Nat.zero_add _
  have himport : ∀ run, (none : Option Importer) = some run → ∀ path here w, ∃ w', run path here w = .ok () w' :=
    fun _ h => nomatch h
  obtain ⟨w', hrun⟩ : ∃ w', Build.source resolver none src w = .ok () w' := Build.chunks_total himport src _ _ w
  have hprogram (fns : List Function) (h : IsProgram src w.registry src.text fns) :
      w' = w.withRegistry (fns.foldl Registry.declare w.registry) := by
    have hsource := (h.cleanRuns resolver src.start.faces_self hwithin rfl).source
    exact (EStateM.Result.ok.inj (hrun.symm.trans hsource)).2
  refine ⟨w', hrun, ⟨fun hreport => ?_, fun ⟨fns, h⟩ => ?_⟩, hprogram⟩
  · have hclean := (Build.source_runs_alone hrun).clean_of_same (congrArg Report.entries hreport)
    obtain ⟨fns, h, -⟩ := isProgram_of_cleanRuns hclean hwithin
    exact ⟨fns, h⟩
  · rw [hprogram fns h]
    rfl

end Polish
