import Polish.Proofs.Legible
import Polish.Proofs.Relabelling

namespace Polish

namespace Expr

mutual

def unlocated : Expr → Expr
  | .hole => .hole
  | .number _ value => .number {} value
  | .text _ value => .text {} value
  | .var _ name => .var {} name
  | .call _ f args => .call {} f (unlocatedList args)
  | .relocated _ x => .relocated {} (unlocated x)
  | .closure _ params body => .closure {} params (unlocated body)

def unlocatedList : List Expr → List Expr
  | [] => []
  | x :: xs => unlocated x :: unlocatedList xs

end

theorem unlocatedList_eq (xs : List Expr) : unlocatedList xs = xs.map unlocated :=
  Companion.eq_map rfl (fun _ _ => rfl) xs

theorem length_eq_of_unlocatedList {xs ys : List Expr} (h : unlocatedList xs = unlocatedList ys) :
    xs.length = ys.length := by
  rw [unlocatedList_eq, unlocatedList_eq] at h
  simpa using congrArg List.length h

end Expr

def Function.unlocated (fn : Function) : Function := { fn with body := fn.body.unlocated, location := {} }

theorem relabels_unlocated : Relabels id Expr.unlocated Function.unlocated where
  hole := by rw [Expr.unlocated]
  number l value := ⟨{}, by rw [Expr.unlocated]⟩
  text l value := ⟨{}, by rw [Expr.unlocated]⟩
  var l name := ⟨{}, by rw [Expr.unlocated]⟩
  call l f args := ⟨{}, by rw [Expr.unlocated, Expr.unlocatedList_eq, id]⟩
  relocated l x := .inr ⟨{}, by rw [Expr.unlocated]⟩
  closure l params body := ⟨{}, by rw [Expr.unlocated]⟩
  name _ := rfl
  params _ := rfl
  kind _ := rfl
  operation _ := rfl
  body _ := rfl

structure Registry.Answers (r' r : Registry) : Prop where
  lookup : ∀ name, r'.lookup name = r.lookup name
  arity : ∀ f, r'.arity f = r.arity f

def Functions.Names (fns : Functions) (r : Registry) : Prop :=
  ∀ name f, r.lookup name = some f → ∃ fn, fns.resolve f = .ok fn ∧ fn.name = name

open Grammar

namespace Print

theorem stops_space (rest : Bytes) : Stops (utf8 " " ++ rest) := stops_cons (b := ascii ' ') (by decide) rest

theorem faces_space {c : Cursor} {text : Bytes} : c.Faces (utf8 " " ++ text) ↔ c.Faces text :=
  Cursor.faces_blank (b := ascii ' ') (by decide)

theorem faces_of_rest {c : Cursor} {text : Bytes} (h : c.rest = text) : c.Faces text := h ▸ c.faces_self

theorem isWord_anon : IsWord (utf8 "anon") := isWord_of_all (by decide) (by decide)

theorem isWord_name (b : Basic) : IsWord b.name := by
  cases b <;> exact isWord_of_all (by decide) (by decide)

theorem ofWord?_name (b : Basic) : Basic.ofWord? b.name = some b := by
  cases b <;> decide

/-- A text is read as a type, if no more of its last word follows. -/
def ReadsTy (text : Bytes) (t : Ty) : Prop :=
  ∀ (c : Cursor) (rest : Bytes), c.Faces (text ++ rest) → Stops rest → ∃ d, Types c [t] d ∧ d.rest = rest

theorem tyList_legible {ts : List Ty} (h : ∀ t ∈ ts, ∃ text, ty t = .ok text ∧ ReadsTy text t) :
    ∃ text, tyList ts = .ok text ∧ ∀ (c : Cursor) (rest : Bytes), c.Faces (text ++ rest) →
      ∃ d, Types c ts d ∧ d.Faces rest := by
  induction ts with
  | nil => exact ⟨[], by rw [tyList]; rfl, fun c rest hc => ⟨c, .nil c, hc⟩⟩
  | cons t ts ih =>
      obtain ⟨first, hfirst, hreads⟩ := h t List.mem_cons_self
      obtain ⟨others, hothers, hrest⟩ := ih fun t ht => h t (List.mem_cons_of_mem _ ht)
      refine ⟨first ++ utf8 " " ++ others, by rw [tyList, hfirst, hothers]; rfl, fun c rest hc => ?_⟩
      simp only [List.append_assoc] at hc
      obtain ⟨d, ht, hd⟩ := hreads c _ hc (stops_space _)
      obtain ⟨e, hts, he⟩ := hrest d rest (faces_space.1 (faces_of_rest hd))
      exact ⟨e, ht.append hts, he⟩

theorem ty_legible {t : Ty} (h : t.Legible) : ∃ text, ty t = .ok text ∧ ReadsTy text t := by
  induction h with
  | basic b =>
      refine ⟨b.name, by rw [ty]; rfl, fun c rest hc hs => ?_⟩
      obtain ⟨d, ht, hd⟩ := hc.token (isWord_name b) hs
      exact ⟨d, .basic ht (ofWord?_name b) (.nil d), hd⟩
  | array h ih =>
      obtain ⟨inner, hinner, hreads⟩ := ih
      refine ⟨utf8 "[" ++ inner ++ utf8 "]", by rw [ty, hinner]; rfl, fun c rest hc hs => ?_⟩
      simp only [List.append_assoc] at hc
      obtain ⟨d, ho, hd⟩ := Cursor.Faces.takes (b := ascii '[') hc (by decide)
      obtain ⟨e, ht, he⟩ := hreads d _ (faces_of_rest hd) (stops_cons (b := ascii ']') (by decide) rest)
      obtain ⟨f, hc, hf⟩ := Cursor.Faces.takes (b := ascii ']') (faces_of_rest he) (by decide)
      exact ⟨f, .array ho ht hc (.nil f), hf⟩
  | function hp hr ih1 ih2 =>
      obtain ⟨head, hhead, hparams⟩ := tyList_legible ih1
      obtain ⟨last, hlast, hresult⟩ := ih2
      refine ⟨utf8 "anon " ++ head ++ utf8 "=> " ++ last, by rw [ty, hhead, hlast]; rfl, fun c rest hc hs => ?_⟩
      rw [show utf8 "anon " = utf8 "anon" ++ utf8 " " by decide, show utf8 "=> " = arrow ++ utf8 " " by decide] at hc
      simp only [List.append_assoc] at hc
      obtain ⟨d, hanon, hd⟩ := hc.token isWord_anon (stops_space _)
      obtain ⟨e, hts, he⟩ := hparams d _ (faces_space.1 (faces_of_rest hd))
      obtain ⟨f, ha, hf⟩ := he.takesArrow
      obtain ⟨g, ht, hg⟩ := hresult f rest (faces_space.1 (faces_of_rest hf)) hs
      exact ⟨g, .function hanon hts ha ht (.nil g), hg⟩

theorem params_legible {ps : List Param} (h : ∀ p ∈ ps, p.Legible) :
    ∃ text, params ps = .ok text ∧ ∀ (c : Cursor) (rest : Bytes), c.Faces (text ++ rest) →
      ∃ d e, Params c ps d ∧ d.TakesArrow e ∧ e.Faces rest := by
  induction ps with
  | nil =>
      refine ⟨utf8 "=> ", by rw [params]; rfl, fun c rest hc => ?_⟩
      rw [show utf8 "=> " = arrow ++ utf8 " " by decide, List.append_assoc] at hc
      obtain ⟨d, ha, hd⟩ := hc.takesArrow
      exact ⟨c, d, .nil c, ha, faces_space.1 (faces_of_rest hd)⟩
  | cons p ps ih =>
      obtain ⟨hty, hword, harrow⟩ := h p List.mem_cons_self
      obtain ⟨first, hfirst, hreads⟩ := ty_legible hty
      obtain ⟨others, hothers, hrest⟩ := ih fun p hp => h p (List.mem_cons_of_mem _ hp)
      refine ⟨first ++ utf8 " " ++ p.name ++ utf8 " " ++ others, by rw [params, hfirst, hothers]; rfl, fun c rest hc => ?_⟩
      simp only [List.append_assoc] at hc
      obtain ⟨d, ht, hd⟩ := hreads c _ hc (stops_space _)
      obtain ⟨e, hname, he⟩ := (faces_space.1 (faces_of_rest hd)).token hword (stops_space _)
      obtain ⟨f, g, hps, ha, hg⟩ := hrest e rest (faces_space.1 (faces_of_rest he))
      exact ⟨f, g, .cons ht hname hword.ne_nil harrow hps, ha, hg⟩

theorem number_legible {value : Double} (h : value ≠ .nan) :
    ∃ text, number value = .ok text ∧ IsWord text ∧ Double.ofToken? text = some value := by
  cases value with
  | nan => exact absurd rfl h
  | infinite negative =>
      cases negative with
      | false => exact ⟨utf8 "1e999", rfl, isWord_of_all (by decide) (by decide), by decide +kernel⟩
      | true => exact ⟨utf8 "-1e999", rfl, isWord_of_all (by decide) (by decide), by decide +kernel⟩
  | finite negative rank =>
      obtain ⟨hread, hbytes⟩ := Double.ofToken?_finiteText negative rank
      refine ⟨_, rfl, ⟨fun hnil => ?_, hbytes⟩, hread⟩
      rw [hnil, ofToken?_nil] at hread
      exact nomatch hread

theorem string_legible {value : Bytes} {q : UInt8} (hq : isQuote q = true) (hv : q ∉ value) :
    ∃ quote, string value = .ok (quote :: value ++ [quote]) ∧ isQuote quote = true ∧ quote ∉ value := by
  unfold string
  split
  · rename_i quote hfind
    have hmem := List.mem_of_find?_eq_some hfind
    have hfree := List.find?_some hfind
    refine ⟨quote, rfl, ?_, by simpa using hfree⟩
    simp only [List.mem_cons, List.not_mem_nil, or_false] at hmem
    rcases hmem with rfl | rfl | rfl <;> decide
  · rename_i hfind
    have hall := List.find?_eq_none.1 hfind q
    simp only [isQuote, Bool.or_eq_true, decide_eq_true_eq] at hq
    rcases hq with (rfl | rfl) | rfl <;> simp [hv] at hall

/-- A text is read as an expression up to locations, where the same names stand for the same. -/
def ReadsExpr (r : Registry) (names : List Bytes) (text : Bytes) (x : Expr) : Prop :=
  ∀ (src : Source) (r' : Registry) (scope : Parser.Bindings) (c : Cursor) (rest : Bytes), r'.Answers r →
    scope.Binds names → c.Faces (text ++ rest) → Stops rest →
    ∃ x' d, Exprs src r' scope c [x'] [] d ∧ d.rest = rest ∧ x'.unlocated = x.unlocated

theorem ReadsExpr.parenthesized {r : Registry} {names : List Bytes} {text : Bytes} {x : Expr}
    (h : ReadsExpr r names text x) (wanted : Bool) : ReadsExpr r names (parenthesized wanted text) x := by
  cases wanted with
  | false => exact h
  | true =>
      intro src r' scope c rest hr hscope hc hs
      rw [Print.parenthesized, if_pos rfl] at hc
      simp only [List.append_assoc] at hc
      obtain ⟨d, ho, hd⟩ := Cursor.Faces.takes (b := ascii '(') hc (by decide)
      obtain ⟨x', e, hx, he, hsame⟩ := h src r' scope d _ hr hscope (faces_of_rest hd)
        (stops_cons (b := ascii ')') (by decide) rest)
      obtain ⟨f, hc, hf⟩ := Cursor.Faces.takes (b := ascii ')') (faces_of_rest he) (by decide)
      exact ⟨x', f, .group ho hx hc (.nil scope f), hf, hsame⟩

section Exprs

variable {fns : Functions} {r : Registry} {names : List Bytes}

theorem exprList_legible {xs : List Expr} (callee : Bytes) (i : Nat)
    (h : ∀ x ∈ xs, ∀ nested, ∃ text, expr fns nested x = .ok text ∧ ReadsExpr r names text x) :
    ∃ text, exprList fns callee i xs = .ok text ∧ (∀ rest, Stops rest → Stops (text ++ rest)) ∧
      ∀ (src : Source) (r' : Registry) (scope : Parser.Bindings) (c : Cursor) (rest : Bytes), r'.Answers r →
        scope.Binds names → c.rest = text ++ rest → Stops rest →
        ∃ xs' d, Exprs src r' scope c xs' [] d ∧ d.rest = rest ∧ Expr.unlocatedList xs' = Expr.unlocatedList xs := by
  induction xs generalizing i with
  | nil =>
      exact ⟨[], by rw [exprList]; rfl, fun _ hs => hs, fun _ _ scope c _ _ _ hc _ => ⟨[], c, .nil scope c, hc, rfl⟩⟩
  | cons x xs ih =>
      obtain ⟨first, hfirst, hx⟩ := h x List.mem_cons_self true
      obtain ⟨others, hothers, hstops, hxs⟩ := ih (i + 1) fun x hx => h x (List.mem_cons_of_mem _ hx)
      refine ⟨utf8 " " ++ first ++ others, by rw [exprList, hfirst, hothers]; rfl, fun rest _ => ?_, ?_⟩
      · rw [List.append_assoc, List.append_assoc]
        exact stops_space _
      · intro src r' scope c rest hr hscope hc hs
        rw [List.append_assoc, List.append_assoc] at hc
        obtain ⟨x', d, hx', hd, hsame⟩ := hx src r' scope c _ hr hscope (faces_space.1 (faces_of_rest hc)) (hstops rest hs)
        obtain ⟨xs', e, hxs', he, hsames⟩ := hxs src r' scope d rest hr hscope hd hs
        exact ⟨x' :: xs', e, hx'.append hxs', he, by rw [Expr.unlocatedList, Expr.unlocatedList, hsame, hsames]⟩

theorem expr_call {f : FuncId} {fn : Function} {args : List Expr} {text : Bytes} (hfn : fns.resolve f = .ok fn)
    (hargs : exprList fns fn.name 0 args = .ok text) (l : Location) (nested : Bool) :
    expr fns nested (.call l f args) = .ok (parenthesized (nested && !args.isEmpty) (fn.name ++ text)) := by
  rw [expr, hfn]
  change (exprList fns fn.name 0 args >>= _) = _
  rw [hargs]
  rfl

/-- A legible expression is printed, and its text is read as the expression. -/
theorem expr_legible (hfns : fns.Names r) {x : Expr} (h : x.Legible r names) (nested : Bool) :
    ∃ text, expr fns nested x = .ok text ∧ ReadsExpr r names text x := by
  induction h generalizing nested with
  | number h =>
      obtain ⟨text, hprint, hword, hread⟩ := number_legible h
      refine ⟨text, by rw [expr, hprint], fun src r' scope c rest _ _ hc hs => ?_⟩
      obtain ⟨d, ht, hd⟩ := hc.token hword hs
      exact ⟨_, d, .number ht hread (.nil scope d), hd, by rw [Expr.unlocated, Expr.unlocated]⟩
  | text hq hv =>
      obtain ⟨quote, hprint, hquote, hfree⟩ := string_legible hq hv
      refine ⟨_, by rw [expr, hprint], fun src r' scope c rest _ _ hc hs => ?_⟩
      rw [List.cons_append, List.cons_append, List.append_assoc] at hc
      obtain ⟨d, hquoted, hd⟩ := Cursor.Faces.quoted hc hquote hfree
      exact ⟨_, d, .text hquoted (.nil scope d), hd, by rw [Expr.unlocated, Expr.unlocated]⟩
  | @bound _ _ _ name hw hs =>
      refine ⟨name, by rw [expr, expr]; rfl, fun src r' scope c rest _ hscope hc hstop => ?_⟩
      obtain ⟨place, hplace⟩ := Option.isSome_iff_exists.1 ((hscope name).2 hs)
      obtain ⟨d, ht, hd⟩ := hc.token hw.isWord hstop
      exact ⟨_, d, .bound ht hw.isName hplace (.nil scope d), hd, by simp only [Expr.unlocated]⟩
  | closure hp hb ih =>
      obtain ⟨head, hhead, hparams⟩ := params_legible hp
      obtain ⟨body, hbody, hreads⟩ := ih false
      refine ⟨_, by rw [expr, hhead, hbody]; rfl, ReadsExpr.parenthesized (fun src r' scope c rest hr hscope hc hs => ?_) nested⟩
      rw [show utf8 "anon " = utf8 "anon" ++ utf8 " " by decide] at hc
      simp only [List.append_assoc] at hc
      obtain ⟨d, hanon, hd⟩ := hc.token isWord_anon (stops_space _)
      obtain ⟨e, f, hps, ha, hf⟩ := hparams d _ (faces_space.1 (faces_of_rest hd))
      obtain ⟨x', g, hx, hg, hsame⟩ := hreads src r' _ f rest hr (hscope.bind _ (src.locate f.off)) hf hs
      exact ⟨_, g, .closure hanon hps ha hx (.nil scope g), hg, by rw [Expr.unlocated, Expr.unlocated, hsame]⟩
  | @call _ _ _ args name hw hs hr hl hargs ih =>
      obtain ⟨fn, hfn, rfl⟩ := hfns name _ hr
      -- without parentheses the arguments end where the callee has enough of them
      obtain ⟨text, hprint, hstops, hreads⟩ := exprList_legible fn.name 0 ih
      refine ⟨_, expr_call hfn hprint _ nested,
        ReadsExpr.parenthesized (fun src r' scope c rest hr' hscope hc hs' => ?_) (nested && !args.isEmpty)⟩
      rw [List.append_assoc] at hc
      obtain ⟨d, ht, hd⟩ := hc.token hw.isWord (hstops rest hs')
      obtain ⟨xs', e, hxs, he, hsame⟩ := hreads src r' scope d rest hr' hscope hd hs'
      have hfree : scope.lookup fn.name = none := by
        rw [← Option.not_isSome_iff_eq_none, hscope]
        exact hs
      have hlen : xs'.length = r'.arity _ := (Expr.length_eq_of_unlocatedList hsame).trans (hl.trans (hr'.arity _).symm)
      exact ⟨_, e, .call ht hw.isName hfree ((hr'.lookup _).trans hr) hlen hxs (.nil scope e), he, by
        rw [Expr.unlocated, Expr.unlocated, hsame]⟩

end Exprs

theorem functionList_unlocated (fns : Functions) (entries : List (FuncId × Function)) :
    functionList (fns.map Function.unlocated) (entries.map (Prod.map id Function.unlocated)) =
      functionList fns entries :=
  functionList_relabelled relabels_unlocated (fun _ => Array.getElem?_map) entries

end Print

end Polish
