import Polish.Proofs.Placement
import Polish.Proofs.Places
import Polish.Proofs.Rounds

namespace Polish

open Grammar

namespace Expr

mutual

/-- The nodes of an expression, each before its parts. What a use of a variable refers to is not a part of it. -/
def nodes : Expr → List Expr
  | .hole => []
  | .number l value => [.number l value]
  | .text l value => [.text l value]
  | .var l name => [.var l name]
  | .relocated l x => [.relocated l x]
  | .closure l params body => .closure l params body :: nodes body
  | .call l f args => .call l f args :: nodesList args

def nodesList : List Expr → List Expr
  | [] => []
  | x :: xs => nodes x ++ nodesList xs

end

def Spelled (fns : Functions) (text : Bytes) : Expr → Prop
  | .hole => False
  | .number _ value => Double.ofToken? (text.takeWhile inToken) = some value
  | .text _ value => ∃ quote rest, isQuote quote = true ∧ quote ∉ value ∧ text = quote :: (value ++ quote :: rest)
  | .var _ name => text.takeWhile inToken = name
  | .relocated _ x => ∃ l name, x = .var l name ∧ text.takeWhile inToken = name
  | .closure _ _ _ => text.takeWhile inToken = utf8 "anon"
  | .call _ f _ => ∃ fn, fns[f]? = some fn ∧ text.takeWhile inToken = fn.name

def Stands (src : Source) (fns : Functions) (x : Expr) : Prop :=
  ∃ off : Nat, x.location = src.locate off ∧ off < src.text.length ∧ x.Spelled fns (src.text.drop off)

end Expr

def Function.offsets (fn : Function) : List Int := fn.location.off :: fn.body.nodes.map (·.location.off)

structure Function.Stands (fn : Function) (src : Source) (fns : Functions) : Prop where
  place : ∃ off : Nat, fn.location = src.locate off ∧ off < src.text.length
  nodes : ∀ x ∈ fn.body.nodes, x.Stands src fns
  ordered : fn.offsets.Pairwise (· < ·)

structure Ascends (start stop : Nat) (offsets : List Int) : Prop where
  ordered : offsets.Pairwise (· < ·)
  bounds : ∀ off ∈ offsets, (start : Int) ≤ off ∧ off < stop

namespace Ascends

variable {lo mid hi : Nat} {offsets offsets' : List Int}

theorem nil (lo hi : Nat) : Ascends lo hi [] := ⟨.nil, by simp⟩

theorem singleton {off : Nat} (hlo : lo ≤ off) (hhi : off < hi) : Ascends lo hi [(off : Int)] :=
  ⟨List.pairwise_singleton _ _, by simp; omega⟩

theorem append (h : Ascends lo mid offsets) (h' : Ascends mid hi offsets') (hlo : lo ≤ mid) (hhi : mid ≤ hi) :
    Ascends lo hi (offsets ++ offsets') := by
  refine ⟨List.pairwise_append.2 ⟨h.ordered, h'.ordered, fun i hi j hj => ?_⟩, List.forall_mem_append.2 ⟨?_, ?_⟩⟩
  · have := (h.bounds i hi).2
    have := (h'.bounds j hj).1
    omega
  · intro off hoff
    obtain ⟨h1, h2⟩ := h.bounds off hoff
    exact ⟨h1, by omega⟩
  · intro off hoff
    obtain ⟨h1, h2⟩ := h'.bounds off hoff
    exact ⟨by omega, h2⟩

theorem widen (h : Ascends lo hi offsets) {lo' hi' : Nat} (hlo : lo' ≤ lo) (hhi : hi ≤ hi') :
    Ascends lo' hi' offsets := by
  refine ⟨h.ordered, fun off hoff => ?_⟩
  obtain ⟨h1, h2⟩ := h.bounds off hoff
  exact ⟨by omega, by omega⟩

end Ascends

namespace Grammar

variable {src : Source} {registry : Registry}

theorem ascends_token (src : Source) {c d : Cursor} {word : Bytes} (h : c.token = (word, d)) (hw : word ≠ []) :
    Ascends c.off d.off [(src.locate c.skipBlanks.off).off] := by
  have hlt := lt_of_reaches (Cursor.length_token_lt (c.token_skipBlanks.trans h) hw)
  exact .singleton c.reaches_skipBlanks.off_le hlt

/-- The nodes of expressions are in the order in which they are read. -/
theorem Exprs.ascends {bindings : Parser.Bindings} {c d : Cursor} {xs : List Expr} {notes : List Diagnostic}
    (h : Exprs src registry bindings c xs notes d) :
    Ascends c.off d.off ((Expr.nodesList xs).map (·.location.off)) := by
  have step {lo mid hi : Cursor} {x : Expr} {xs : List Expr}
      (hx : Ascends lo.off mid.off (x.nodes.map (·.location.off)))
      (hxs : Ascends mid.off hi.off ((Expr.nodesList xs).map (·.location.off))) (hlo : lo.Reaches mid)
      (hhi : mid.Reaches hi) : Ascends lo.off hi.off ((Expr.nodesList (x :: xs)).map (·.location.off)) := by
    rw [Expr.nodesList, List.map_append]
    exact hx.append hxs hlo.off_le hhi.off_le
  have single {x : Expr} : Expr.nodesList [x] = x.nodes := by rw [Expr.nodesList, Expr.nodesList, List.append_nil]
  induction h with
  | nil => exact .nil _ _
  | @text _ c _ _ _ _ _ hq rest ih =>
      have hreach := c.reaches_skipBlanks
      exact step (.singleton hreach.off_le (lt_of_reaches hq.reaches)) ih (hreach.trans hq.reaches.1) rest.reaches.1
  | group ho inner hc rest ih1 ih2 =>
      rw [single] at ih1
      have h1 := ih1.widen ho.reaches.1.off_le hc.reaches.1.off_le
      exact step h1 ih2 ((ho.reaches.1.trans inner.reaches.1).trans hc.reaches.1) rest.reaches.1
  | @number _ _ _ _ word _ _ _ ht hn rest ih =>
      have hw : word ≠ [] := by rintro rfl; simp [ofToken?_nil] at hn
      exact step (ascends_token src ht hw) ih (Cursor.length_token_lt ht hw).1 rest.reaches.1
  | closure ht hp ha body rest ih1 ih2 =>
      rw [single] at ih1
      have hw : utf8 "anon" ≠ [] := by decide
      have hreach := (Cursor.length_token_lt ht hw).1
      have hstart := hp.reaches.1.trans ha.reaches.1
      have hbody := ih1.widen hstart.off_le (Nat.le_refl _)
      have hend := hstart.trans body.reaches.1
      exact step ((ascends_token src ht hw).append hbody hreach.off_le hend.off_le) ih2 (hreach.trans hend)
        rest.reaches.1
  | bound ht hw _ rest ih | unresolved ht hw _ _ rest ih =>
      exact step (ascends_token src ht hw.ne_nil) ih (Cursor.length_token_lt ht hw.ne_nil).1 rest.reaches.1
  | call ht hw _ _ _ hargs rest ih1 ih2 =>
      have hreach := (Cursor.length_token_lt ht hw.ne_nil).1
      exact step ((ascends_token src ht hw.ne_nil).append ih1 hreach.off_le hargs.reaches.1.off_le) ih2
        (hreach.trans hargs.reaches.1) rest.reaches.1

end Grammar

def Registry.Named (r : Registry) : Prop :=
  ∀ name f, r.lookup name = some f → ∃ fn : Function, r.functions[f]? = some fn ∧ fn.name = name

theorem Source.rest_of_reaches {src : Source} {c : Cursor} (h : src.start.Reaches c) :
    c.rest = src.text.drop c.off := by
  obtain ⟨n, -, rfl⟩ := h
  simp [Cursor.advance, start]

theorem Expr.stands_of_spelled {src : Source} {fns : Functions} {c : Cursor} (hc : src.start.Reaches c) {x : Expr}
    (hx : x.location = src.locate c.skipBlanks.off) (hrest : c.skipBlanks.rest ≠ [])
    (h : x.Spelled fns c.skipBlanks.rest) : x.Stands src fns := by
  have he := Source.rest_of_reaches (hc.trans c.reaches_skipBlanks)
  refine ⟨_, hx, ?_, he ▸ h⟩
  rw [he, ne_eq, List.drop_eq_nil_iff] at hrest
  omega

/-- Every node of an expression that is read is where it says. -/
theorem Grammar.Exprs.stands {src : Source} {registry : Registry} {bindings : Parser.Bindings} {c d : Cursor}
    {xs : List Expr} {notes : List Diagnostic} (h : Exprs src registry bindings c xs notes d)
    (hnamed : registry.Named) (hc : src.start.Reaches c) :
    ∀ x ∈ Expr.nodesList xs, x.Stands src registry.functions := by
  have word {c d : Cursor} {word : Bytes} (hc : src.start.Reaches c) (ht : c.token = (word, d)) (hw : word ≠ [])
      {x : Expr} (hx : x.location = src.locate c.skipBlanks.off)
      (h : c.skipBlanks.rest.takeWhile inToken = word → x.Spelled registry.functions c.skipBlanks.rest) :
      x.Stands src registry.functions := by
    refine Expr.stands_of_spelled hc hx ?_ (h (congrArg Prod.fst ht))
    obtain ⟨b, bs, hrest, -⟩ := Cursor.exists_cons_of_token ht hw
    exact hrest ▸ List.cons_ne_nil b bs
  induction h with
  | nil => exact List.forall_mem_nil _
  | text hq rest ih =>
      refine List.forall_mem_cons.2 ⟨?_, ih ((hc.trans (Cursor.reaches_skipBlanks _)).trans hq.reaches.1)⟩
      obtain ⟨quote, tail, hquote, hnot, hrest, -⟩ := hq
      exact Expr.stands_of_spelled hc rfl (hrest ▸ List.cons_ne_nil _ _) ⟨quote, tail, hquote, hnot, hrest⟩
  | group ho inner hclose rest ih1 ih2 =>
      rw [Expr.nodesList, Expr.nodesList, List.append_nil] at ih1
      have hstart := hc.trans ho.reaches.1
      exact List.forall_mem_append.2 ⟨ih1 hstart, ih2 ((hstart.trans inner.reaches.1).trans hclose.reaches.1)⟩
  | @number _ _ _ _ token _ _ _ ht hn rest ih =>
      have hw : token ≠ [] := by rintro rfl; simp [ofToken?_nil] at hn
      exact List.forall_mem_cons.2 ⟨word hc ht hw rfl fun h => (congrArg Double.ofToken? h).trans hn,
        ih (hc.trans (Cursor.length_token_lt ht hw).1)⟩
  | closure ht hp ha body rest ih1 ih2 =>
      rw [Expr.nodesList, Expr.nodesList, List.append_nil] at ih1
      have hw : utf8 "anon" ≠ [] := by decide
      have hstart := (hc.trans (Cursor.length_token_lt ht hw).1).trans (hp.reaches.1.trans ha.reaches.1)
      exact List.forall_mem_cons.2 ⟨word hc ht hw rfl id,
        List.forall_mem_append.2 ⟨ih1 hstart, ih2 (hstart.trans body.reaches.1)⟩⟩
  | bound ht hw _ rest ih =>
      exact List.forall_mem_cons.2 ⟨word hc ht hw.ne_nil rfl fun h => ⟨_, _, rfl, h⟩,
        ih (hc.trans (Cursor.length_token_lt ht hw.ne_nil).1)⟩
  | unresolved ht hw _ _ rest ih =>
      exact List.forall_mem_cons.2 ⟨word hc ht hw.ne_nil rfl id, ih (hc.trans (Cursor.length_token_lt ht hw.ne_nil).1)⟩
  | call ht hw _ hr _ hargs rest ih1 ih2 =>
      obtain ⟨fn, hfn, hname⟩ := hnamed _ _ hr
      have hstart := hc.trans (Cursor.length_token_lt ht hw.ne_nil).1
      exact List.forall_mem_cons.2 ⟨word hc ht hw.ne_nil rfl fun h => ⟨fn, hfn, h.trans hname.symm⟩,
        List.forall_mem_append.2 ⟨ih1 hstart, ih2 (hstart.trans hargs.reaches.1)⟩⟩

def Functions.Renews (fns fns' : Functions) : Prop :=
  ∀ (f : FuncId) (fn : Function), fns[f]? = some fn → ∃ fn', fns'[f]? = some fn' ∧ fn'.name = fn.name

theorem Expr.Stands.renew {src : Source} {fns fns' : Functions} {x : Expr} (h : x.Stands src fns)
    (hfns : fns.Renews fns') : x.Stands src fns' := by
  obtain ⟨off, hx, hoff, hs⟩ := h
  refine ⟨off, hx, hoff, ?_⟩
  cases x with
  | call l f args =>
      obtain ⟨fn, hfn, hname⟩ := hs
      obtain ⟨fn', hfn', hname'⟩ := hfns f fn hfn
      exact ⟨fn', hfn', hname.trans hname'.symm⟩
  | _ => exact hs

theorem Function.Stands.renew {src : Source} {fns fns' : Functions} {fn : Function} (h : fn.Stands src fns)
    (hfns : fns.Renews fns') : fn.Stands src fns' :=
  ⟨h.place, fun x hx => (h.nodes x hx).renew hfns, h.ordered⟩

namespace Registry

variable {r : Registry}

theorem Named.declare (h : r.Named) (fn : Function) : (r.declare fn).Named := by
  intro name f hf
  by_cases hname : name = fn.name
  · subst hname
    obtain rfl := Option.some.inj ((lookup_declare_self r fn).symm.trans hf)
    exact ⟨fn, getElem?_declare_self r fn, rfl⟩
  · rw [lookup_declare_of_ne r fn hname] at hf
    obtain ⟨other, hother, he⟩ := h name f hf
    exact ⟨other, getElem?_declare fn hother, he⟩

theorem Named.remove (h : r.Named) (name : Bytes) (f : FuncId) : (r.remove name f).Named := by
  intro other g hg
  rw [functions_remove]
  by_cases he : other = name
  · subst he
    rw [lookup_remove_self] at hg
    split at hg
    · cases hg
    · exact h other g hg
  · rw [lookup_remove_of_ne r he] at hg
    exact h other g hg

theorem Named.markImported (h : r.Named) (path : Bytes) : (r.markImported path).Named := by
  unfold Registry.markImported
  split <;> exact h

theorem WellFormed.isNamed (h : r.WellFormed) : r.Named := by
  intro name f hf
  obtain ⟨fn, hfn, hname, -⟩ := h.named name f (mem_of_lookup hf)
  exact ⟨fn, hfn, hname⟩

/-- A function that is declared with its body stands for the one that was declared without. -/
theorem renews_declare (r : Registry) {fn fn' : Function} (h : fn'.name = fn.name) :
    (r.declare fn).functions.Renews (r.declare fn').functions := by
  intro f g hg
  obtain hold | ⟨rfl, rfl⟩ := of_getElem?_declare hg
  · exact ⟨g, getElem?_declare fn' hold, rfl⟩
  · exact ⟨fn', getElem?_declare_self r fn', h⟩

end Registry

section Runs

variable {resolver : Resolver} {read : Option (Bytes → Except FileError Bytes)} {depth : Nat} {src : Source}
  {c : Cursor} {w w' : Workspace}

theorem Runs.named (h : Runs resolver read depth src c w w') (hw : w.registry.Named) : w'.registry.Named := by
  induction h with
  | done => exact hw
  | declared _ _ _ _ ih => exact ih (hw.declare _)
  | dropped _ _ _ _ _ ih => exact ih ((hw.declare _).remove _ _)
  | refused _ _ _ _ ih | known _ _ _ _ _ _ ih => exact ih hw
  | unreadable _ _ _ _ _ _ _ ih | unread _ _ _ _ _ _ _ ih => exact ih (hw.markImported _)
  | included _ _ _ _ _ _ _ _ ih1 ih2 => exact ih2 (ih1 (hw.markImported _))

end Runs

def Workspace.Gains (read : Option (Bytes → Except FileError Bytes)) (w w' : Workspace) (file : Source) : Prop :=
  w.Fresh file.path ∧ w'.registry.isImported file.path = true ∧
    ∃ load, read = some load ∧ load file.path = .ok file.text

/-- A function of a file that is the source itself, from a position on, or is imported in the meantime. -/
def Workspace.Lies (read : Option (Bytes → Except FileError Bytes)) (w w' : Workspace) (src : Source) (c : Cursor)
    (fn : Function) (file : Source) : Prop :=
  file = src ∧ (∀ off ∈ fn.offsets, (c.off : Int) ≤ off) ∨ w.Gains read w' file

/-- The functions that a run adds to the table, in the source from a position on or in files that it imports. -/
structure Workspace.Lays (read : Option (Bytes → Except FileError Bytes)) (w w' : Workspace) (src : Source) (c : Cursor)
    (added : List Function) : Prop where
  functions : w'.registry.functions.toList = w.registry.functions.toList ++ added
  marks : ∀ path, w.registry.isImported path = true → w'.registry.isImported path = true
  stands : ∀ fn ∈ added, ∃ file, fn.Stands file w'.registry.functions ∧ w.Lies read w' src c fn file
  ordered : added.Pairwise fun a b => a.location.path = b.location.path → ∀ i ∈ a.offsets, ∀ j ∈ b.offsets, i < j

theorem Function.Stands.path_eq {fn : Function} {src : Source} {fns : Functions} (h : fn.Stands src fns) :
    fn.location.path = src.path := by
  obtain ⟨off, hoff, -⟩ := h.place
  rw [hoff, Source.locate]

theorem Functions.renews_of_append {fns fns' : Functions} {added : List Function}
    (h : fns'.toList = fns.toList ++ added) : fns.Renews fns' := by
  intro f fn hfn
  refine ⟨fn, ?_, rfl⟩
  rw [← Array.getElem?_toList] at hfn ⊢
  rw [h, List.getElem?_append_left (List.getElem?_eq_some_iff.1 hfn).1, hfn]

namespace Workspace

variable {read : Option (Bytes → Except FileError Bytes)} {src : Source} {c d : Cursor} {w w₁ w' : Workspace}
  {added added' : List Function}

theorem Gains.of_marks {file : Source} (h : w₁.Gains read w' file)
    (hmarks : ∀ path, w.registry.isImported path = true → w₁.registry.isImported path = true) :
    w.Gains read w' file :=
  ⟨h.1.of_marks hmarks, h.2⟩

theorem Gains.read_ne_none {file : Source} (h : w.Gains read w' file) : read ≠ none := by
  obtain ⟨-, -, load, hread, -⟩ := h
  exact hread ▸ Option.some_ne_none load

theorem Lies.of_marks {fn : Function} {file : Source} (h : w₁.Lies read w' src d fn file) (hle : c.off ≤ d.off)
    (hmarks : ∀ path, w.registry.isImported path = true → w₁.registry.isImported path = true) :
    w.Lies read w' src c fn file := by
  rcases h with ⟨he, hoff⟩ | hgains
  · refine .inl ⟨he, fun off hmem => ?_⟩
    have := hoff off hmem
    omega
  · exact .inr (hgains.of_marks hmarks)

theorem lays_nil (w : Workspace) (src : Source) (c : Cursor) : w.Lays read w src c [] :=
  ⟨(List.append_nil _).symm, fun _ h => h, List.forall_mem_nil _, .nil⟩

theorem Lays.of_marks (h : w₁.Lays read w' src d added) (hle : c.off ≤ d.off)
    (hfns : w₁.registry.functions = w.registry.functions)
    (hmarks : ∀ path, w.registry.isImported path = true → w₁.registry.isImported path = true) :
    w.Lays read w' src c added where
  functions := hfns ▸ h.functions
  marks path hpath := h.marks path (hmarks path hpath)
  stands fn hfn := by
    obtain ⟨file, hstands, hlies⟩ := h.stands fn hfn
    exact ⟨file, hstands, hlies.of_marks hle hmarks⟩
  ordered := h.ordered

theorem Lays.cons {fn : Function} (h : w₁.Lays read w' src d added)
    (hfns : w₁.registry.functions = w.registry.functions.push fn)
    (hmarks : ∀ path, w₁.registry.isImported path = w.registry.isImported path)
    (hsrc : read ≠ none → ¬ w.Fresh src.path)
    (hstands : fn.Stands src w₁.registry.functions) (hoffsets : Ascends c.off d.off fn.offsets) (hle : c.off ≤ d.off) :
    w.Lays read w' src c (fn :: added) := by
  have hmarks' : ∀ path, w.registry.isImported path = true → w₁.registry.isImported path = true :=
    fun path hpath => (hmarks path).trans hpath
  have hrenews := Functions.renews_of_append h.functions
  refine ⟨?_, fun path hpath => h.marks path (hmarks' path hpath), List.forall_mem_cons.2 ⟨?_, fun g hg => ?_⟩,
    List.pairwise_cons.2 ⟨fun g hg hpath i hi j hj => ?_, h.ordered⟩⟩
  · rw [h.functions, hfns, Array.toList_push, List.append_assoc, List.singleton_append]
  · exact ⟨src, hstands.renew hrenews, .inl ⟨rfl, fun off hoff => (hoffsets.bounds off hoff).1⟩⟩
  · obtain ⟨file, hfile, hlies⟩ := h.stands g hg
    exact ⟨file, hfile, hlies.of_marks hle hmarks'⟩
  · obtain ⟨file, hfile, ⟨-, hoff⟩ | hgains⟩ := h.stands g hg
    · have := (hoffsets.bounds i hi).2
      have := hoff j hj
      omega
    · -- a file that is imported later has another path
      rw [hstands.path_eq, hfile.path_eq] at hpath
      exact absurd (hpath ▸ hgains.1.of_marks hmarks') (hsrc hgains.read_ne_none)

theorem Lays.append {file : Source} (hfile : w.Lays read w₁ file file.start added) (hgains : w.Gains read w₁ file)
    (hrest : w₁.Lays read w' src c added') (hsrc : read ≠ none → ¬ w.Fresh src.path) :
    w.Lays read w' src c (added ++ added') := by
  have hrenews := Functions.renews_of_append hrest.functions
  have hadded : ∀ fn ∈ added, ∃ other, fn.Stands other w₁.registry.functions ∧ w.Gains read w₁ other := by
    intro fn hfn
    obtain ⟨other, hstands, ⟨rfl, -⟩ | hother⟩ := hfile.stands fn hfn
    · exact ⟨other, hstands, hgains⟩
    · exact ⟨other, hstands, hother⟩
  refine ⟨?_, fun path hpath => hrest.marks path (hfile.marks path hpath),
    List.forall_mem_append.2 ⟨fun fn hfn => ?_, fun fn hfn => ?_⟩,
    List.pairwise_append.2 ⟨hfile.ordered, hrest.ordered, fun a ha b hb hpath i hi j hj => ?_⟩⟩
  · rw [hrest.functions, hfile.functions, List.append_assoc]
  · obtain ⟨other, hstands, hfresh, hmarked, hread⟩ := hadded fn hfn
    exact ⟨other, hstands.renew hrenews, .inr ⟨hfresh, hrest.marks _ hmarked, hread⟩⟩
  · obtain ⟨other, hstands, hlies⟩ := hrest.stands fn hfn
    exact ⟨other, hstands, hlies.of_marks (Nat.le_refl _) hfile.marks⟩
  · -- the functions of the file are in files that are imported by now, the later ones are not
    obtain ⟨other, hstands, hother⟩ := hadded a ha
    obtain ⟨later, hstands', ⟨rfl, -⟩ | hlater⟩ := hrest.stands b hb
    · rw [hstands.path_eq, hstands'.path_eq] at hpath
      exact absurd (hpath ▸ hother.1) (hsrc hother.read_ne_none)
    · rw [hstands.path_eq, hstands'.path_eq] at hpath
      have hmarked := hother.2.1
      rw [hpath, hlater.1.2] at hmarked
      cases hmarked

end Workspace

theorem Grammar.Signature.ascends {src : Source} {c e g : Cursor} {name : Bytes} {location : Location}
    {params : List Param} (h : Signature src c name location params e) (he : e.Reaches g) {offsets : List Int}
    (hoffsets : Ascends e.off g.off offsets) : Ascends c.off g.off (location.off :: offsets) := by
  obtain ⟨off, rfl, hlow, hhigh⟩ := h.located
  exact (Ascends.singleton hlow hhigh).append hoffsets (by omega) he.off_le

theorem Grammar.Signature.place {src : Source} {c e : Cursor} {name : Bytes} {location : Location}
    {params : List Param} (h : Signature src c name location params e) (hc : src.start.Reaches c) :
    ∃ off : Nat, location = src.locate off ∧ off < src.text.length := by
  obtain ⟨off, rfl, -, hhigh⟩ := h.located
  refine ⟨off, rfl, ?_⟩
  have hend := (hc.trans h.reaches).off_add_length
  simp only [Source.start] at hend
  omega

theorem Cursor.reaches_of_import {c d e : Cursor} {target : Bytes} (hk : c.token = (utf8 "import", d))
    (hq : d.skipBlanks.Quoted target e) : c.Reaches e :=
  (Cursor.length_token_lt hk (by decide)).1.trans (d.reaches_skipBlanks.trans hq.reaches.1)

/-- What a run adds to the table is where it says, and in order. -/
theorem Runs.lays {resolver : Resolver} {read : Option (Bytes → Except FileError Bytes)} {depth : Nat} {src : Source}
    {c : Cursor} {w w' : Workspace} (h : Runs resolver read depth src c w w')
    (hresolver : read ≠ none → ∀ source target path, resolver.resolve source target = .ok path → path ≠ [])
    (hsrc : read ≠ none → ¬ w.Fresh src.path) (hw : w.registry.Named) (hc : src.start.Reaches c) :
    ∃ added, w.Lays read w' src c added := by
  induction h with
  | done => exact ⟨[], Workspace.lays_nil _ _ _⟩
  | @declared _ src c d e g name location params body notes w w' hk hs hb _ ih =>
      have hkey := (Cursor.length_token_lt hk (by decide)).1
      have hstart := (hc.trans hkey).trans hs.reaches
      have hreach := (hkey.trans hs.reaches).trans hb.reaches.1
      have hbody := hb.ascends
      rw [Expr.nodesList, Expr.nodesList, List.append_nil] at hbody
      have hoffsets := (hs.ascends hb.reaches.1 hbody).widen hkey.off_le (Nat.le_refl _)
      have hnodes := hb.stands (hw.declare _) hstart
      rw [Expr.nodesList, Expr.nodesList, List.append_nil] at hnodes
      obtain ⟨added, hadded⟩ := ih hsrc (hw.declare _) (hc.trans hreach)
      have hstands : (Function.custom name params location body).Stands src
          (w.registry.declare (.custom name params location body)).functions :=
        ⟨hs.place (hc.trans hkey), fun x hx => (hnodes x hx).renew (w.registry.renews_declare rfl), hoffsets.ordered⟩
      exact ⟨_, hadded.cons rfl (fun _ => rfl) hsrc hstands hoffsets hreach.off_le⟩
  | @dropped _ src c d e g name location params notes w w' hk hs he _ _ ih =>
      have hkey := (Cursor.length_token_lt hk (by decide)).1
      have hreach := (hkey.trans hs.reaches).trans he
      have hoffsets := (hs.ascends he (.nil _ _)).widen hkey.off_le (Nat.le_refl _)
      have hmarks (path : Bytes) : ((w.registry.declare (.awaiting name params location)).remove name
          w.registry.functions.size).isImported path = w.registry.isImported path :=
        Registry.isImported_remove _ _ _ path
      obtain ⟨added, hadded⟩ := ih (fun hr hfresh => hsrc hr (hfresh.of_marks fun path => (hmarks path).trans))
        ((hw.declare _).remove _ _) (hc.trans hreach)
      have hstands : (Function.awaiting name params location).Stands src
          ((w.registry.declare (.awaiting name params location)).remove name w.registry.functions.size).functions :=
        ⟨hs.place (hc.trans hkey), List.forall_mem_nil _, hoffsets.ordered⟩
      exact ⟨_, hadded.cons (Registry.functions_remove _ _ _) hmarks hsrc hstands hoffsets hreach.off_le⟩
  | refused he _ _ _ ih =>
      obtain ⟨added, hadded⟩ := ih hsrc hw (hc.trans he)
      exact ⟨added, hadded.of_marks he.off_le rfl fun _ h => h⟩
  | known _ hk hq _ _ _ ih =>
      obtain ⟨added, hadded⟩ := ih hsrc hw (hc.trans (Cursor.reaches_of_import hk hq))
      exact ⟨added, hadded.of_marks (Cursor.reaches_of_import hk hq).off_le rfl fun _ h => h⟩
  | @unreadable _ _ _ _ _ _ path _ _ w _ _ hk hq _ _ _ _ ih | @unread _ _ _ _ _ path _ _ w _ _ hk hq _ _ _ _ ih =>
      have hmarks := w.marks_visit path
      obtain ⟨added, hadded⟩ := ih (fun hr hfresh => hsrc hr (hfresh.of_marks hmarks)) (hw.markImported path)
        (hc.trans (Cursor.reaches_of_import hk hq))
      have hle := (Cursor.reaches_of_import hk hq).off_le
      exact ⟨added, hadded.of_marks hle (Registry.functions_markImported _ _) hmarks⟩
  | @included _ src _ _ _ _ path load text w w' _ hr hk hq hp hi hl file _ ih1 ih2 =>
      have hmarks := w.marks_visit path
      obtain ⟨added, hfile⟩ := ih1 (fun _ => w.not_fresh_visit path) (hw.markImported path) (.refl _)
      have hfile' := hfile.of_marks (Nat.le_refl _) (Registry.functions_markImported _ _) hmarks
      have hmarked : w'.registry.isImported path = true := hfile.marks path (by
        simp [Workspace.visit, Registry.isImported_markImported])
      obtain ⟨added', hrest⟩ := ih2 (fun hr hfresh => hsrc hr (hfresh.of_marks hfile'.marks))
        (file.named (hw.markImported path)) (hc.trans (Cursor.reaches_of_import hk hq))
      have hne := hresolver (by simp [hr]) _ _ _ hp
      have hle := (Cursor.reaches_of_import hk hq).off_le
      exact ⟨_, hfile'.append ⟨⟨hne, hi⟩, hmarked, load, hr, hl⟩ (hrest.of_marks hle rfl fun _ h => h) hsrc⟩

namespace Build

variable {resolver : Resolver} {importer : Option Importer} {src : Source} {w w' : Workspace}

/-- Every function that a source adds to the table, or a file that it imports, is in the text of its file, and so are
the nodes of its body: where a node says that it is, inside of the text, there is its own token. Within a file, the
places of the functions and of the nodes of their bodies increase from the first function to the last. -/
theorem source_locations (loader : Option Loader) (depth : Nat)
    (himporter : importer = none ∨ importer = some (Loader.importer loader resolver depth) ∧ ¬ w.Fresh src.path ∧
      ∃ stdDir ext, resolver = Resolver.make stdDir ext)
    (hw : w.registry.Named) (h : source resolver importer src w = .ok () w') :
    ∃ added, w'.registry.functions.toList = w.registry.functions.toList ++ added ∧
      (∀ fn ∈ added, ∃ file : Source,
        (file = src ∨ importer ≠ none ∧ w.Fresh file.path ∧ Loader.reading loader file.path = .ok file.text) ∧
        (∃ off : Nat, fn.location = file.locate off ∧ off < file.text.length) ∧
        ∀ x ∈ fn.body.nodes, ∃ off : Nat, x.location = file.locate off ∧ off < file.text.length ∧
          x.Spelled w'.registry.functions (file.text.drop off)) ∧
      ∀ path, ((added.filter (·.location.path = path)).flatMap Function.offsets).Pairwise (· < ·) := by
  -- without an importer nothing is read, and with one the source is not imported again
  obtain ⟨read, depth', hruns, hread, hresolver, hsrc⟩ : ∃ read depth', Runs resolver read depth' src src.start w w' ∧
      (∀ load, read = some load → importer ≠ none ∧ load = Loader.reading loader) ∧
      (read ≠ none → ∀ source target path, resolver.resolve source target = .ok path → path ≠ []) ∧
      (read ≠ none → ¬ w.Fresh src.path) := by
    obtain rfl | ⟨rfl, hsrc, stdDir, ext, rfl⟩ := himporter
    · exact ⟨none, 0, source_runs_alone h, by simp, fun hr => absurd rfl hr, fun hr => absurd rfl hr⟩
    · exact ⟨_, depth, source_runs h, by simp, fun _ _ _ _ => Resolver.ne_nil_of_resolve, fun _ => hsrc⟩
  obtain ⟨added, hadded⟩ := hruns.lays hresolver hsrc hw (.refl _)
  refine ⟨added, hadded.functions, fun fn hfn => ?_, fun path => List.pairwise_flatMap.2 ⟨fun fn hfn => ?_, ?_⟩⟩
  · obtain ⟨file, hstands, hlies⟩ := hadded.stands fn hfn
    refine ⟨file, hlies.imp And.left ?_, hstands.place, hstands.nodes⟩
    rintro ⟨hfresh, -, load, hload, htext⟩
    obtain ⟨hne, rfl⟩ := hread load hload
    exact ⟨hne, hfresh, htext⟩
  · obtain ⟨file, hstands, -⟩ := hadded.stands fn (List.mem_of_mem_filter hfn)
    exact hstands.ordered
  · refine (hadded.ordered.sublist List.filter_sublist).imp_of_mem fun ha hb hlt => hlt ?_
    exact (of_decide_eq_true (List.mem_filter.1 ha).2).trans (of_decide_eq_true (List.mem_filter.1 hb).2).symm

def offsetsAdded (stage : Build Unit) (w : Workspace) : Option (List (List Int)) :=
  match stage w with
  | .ok _ w' => some ((w'.registry.functions.toList.drop w.registry.functions.size).map Function.offsets)
  | .error _ _ => none

theorem of_offsetsAdded {stage : Build Unit} {w : Workspace} {offsets : List (List Int)}
    (h : offsetsAdded stage w = some offsets) : ∃ w', stage w = .ok () w' ∧
      (w'.registry.functions.toList.drop w.registry.functions.size).map Function.offsets = offsets := by
  unfold offsetsAdded at h
  cases hstage : stage w with
  | ok _ w' =>
      rw [hstage] at h
      exact ⟨w', rfl, Option.some.inj h⟩
  | error fault w' =>
      rw [hstage] at h
      cases h

/-- A file with a call of a function of another file, a body that does not end, and a name that stands for nothing. -/
theorem source_locations_import :
    let text := utf8 <|
      "import 'b' function g number n => core/add n (h 'x') function g => (1 function k => anon any x => y"
    let src : Source := ⟨utf8 "a", text⟩
    let resolver := Resolver.make [] []
    let loader := some (Loader.ofFiles [(utf8 "b", utf8 "function h any x => (h 5e1)")])
    let w := Session.entering {} (utf8 "a")
    ∃ w' added, source resolver (some (Loader.importer loader resolver 2)) src w = .ok () w' ∧
      w'.registry.functions.toList = w.registry.functions.toList ++ added ∧
      added.map Function.offsets = [[11, 21, 23], [22, 34, 43, 46, 48], [64], [81, 84, 98]] ∧
      ∀ path, ((added.filter (·.location.path = path)).flatMap Function.offsets).Pairwise (· < ·) := by
  intro text src resolver loader w
  obtain ⟨w', hrun, hoffsets⟩ := of_offsetsAdded (show offsetsAdded
    (source resolver (some (Loader.importer loader resolver 2)) src) w =
      some [[11, 21, 23], [22, 34, 43, 46, 48], [64], [81, 84, 98]] by decide +kernel)
  have hentered : ¬ w.Fresh src.path := by
    rintro ⟨-, hnot⟩
    exact absurd hnot (by decide)
  have hnamed : w.registry.Named := Registry.wellFormed_initial.isNamed.markImported (utf8 "a")
  obtain ⟨added, hadded, -, hordered⟩ := source_locations loader 2 (.inr ⟨rfl, hentered, [], [], rfl⟩) hnamed hrun
  rw [hadded, ← Array.length_toList, List.drop_left] at hoffsets
  exact ⟨w', added, hrun, hadded, hoffsets, hordered⟩

end Build

end Polish
