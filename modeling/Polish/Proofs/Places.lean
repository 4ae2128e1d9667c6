import Polish.Proofs.Mismatches
import Mathlib.Data.List.Flatten
import Mathlib.Data.List.Nodup
import Mathlib.Data.List.Perm.Subperm

namespace Polish

def Location.spot (l : Location) : Bytes × Int := (l.path, l.off)

def Site.spot (site : Site) : Bytes × Int := site.arg.location.spot

structure Within (path : Bytes) (start stop : Nat) (spots : List (Bytes × Int)) : Prop where
  nodup : spots.Nodup
  bounds : ∀ spot ∈ spots, spot.1 = path ∧ (start : Int) ≤ spot.2 ∧ spot.2 < stop

namespace Within

variable {path : Bytes} {lo mid hi : Nat} {spots spots' : List (Bytes × Int)}

theorem nil (path : Bytes) (lo hi : Nat) : Within path lo hi [] := ⟨.nil, by simp⟩

theorem sublist (h : Within path lo hi spots) (hs : List.Sublist spots' spots) : Within path lo hi spots' :=
  ⟨h.nodup.sublist hs, fun spot hspot => h.bounds spot (hs.subset hspot)⟩

theorem perm (h : Within path lo hi spots) (hp : spots.Perm spots') : Within path lo hi spots' :=
  ⟨hp.nodup h.nodup, fun spot hspot => h.bounds spot (hp.mem_iff.2 hspot)⟩

theorem append (h : Within path lo mid spots) (h' : Within path mid hi spots') (hlo : lo ≤ mid) (hhi : mid ≤ hi) :
    Within path lo hi (spots ++ spots') := by
  refine ⟨h.nodup.append h'.nodup ?_, fun spot hspot => ?_⟩
  · intro spot hspot hspot'
    have := (h.bounds spot hspot).2.2
    have := (h'.bounds spot hspot').2.1
    omega
  · obtain hspot | hspot := List.mem_append.1 hspot
    · obtain ⟨hp, h1, h2⟩ := h.bounds spot hspot
      exact ⟨hp, h1, by omega⟩
    · obtain ⟨hp, h1, h2⟩ := h'.bounds spot hspot
      exact ⟨hp, by omega, h2⟩

theorem widen (h : Within path lo hi spots) {lo' hi' : Nat} (hlo : lo' ≤ lo) (hhi : hi ≤ hi') :
    Within path lo' hi' spots := by
  refine ⟨h.nodup, fun spot hspot => ?_⟩
  obtain ⟨hp, h1, h2⟩ := h.bounds spot hspot
  exact ⟨hp, by omega, by omega⟩

end Within

namespace Expr

def spots (fns : Functions) (xs : List Expr) (scope : Scope) : List (Bytes × Int) :=
  xs.map (·.location.spot) ++ (sitesList fns xs scope).map (·.spot)

theorem spots_cons (fns : Functions) (x : Expr) (xs : List Expr) (scope : Scope) :
    (spots fns [x] scope ++ spots fns xs scope).Perm (spots fns (x :: xs) scope) := by
  simp only [spots, sitesList, List.map_cons, List.map_nil, List.map_append, List.append_nil, List.cons_append,
    List.nil_append]
  refine .cons _ ?_
  rw [← List.append_assoc, ← List.append_assoc]
  exact List.perm_append_comm.append_right _

theorem spots_call (fns : Functions) (l : Location) (f : FuncId) (args : List Expr) (scope : Scope) :
    List.Sublist (spots fns [.call l f args] scope) (l.spot :: spots fns args scope) := by
  have hargs : (List.zipWith (Site.mk scope) args (fns.wants f)).map (·.spot) =
      (args.map (·.location.spot)).take (fns.wants f).length := by
    generalize fns.wants f = wants
    induction args generalizing wants with
    | nil => simp
    | cons x args ih =>
        cases wants with
        | nil => simp
        | cons t wants =>
            simp only [List.zipWith_cons_cons, List.map_cons, List.length_cons, List.take_succ_cons, ih]
            rfl
  simp only [spots, sitesList, sites, List.map_cons, List.map_nil, List.map_append, List.append_nil, List.cons_append,
    List.nil_append, location, hargs]
  exact ((List.take_sublist _ _).append_right _).cons_cons _

end Expr

namespace Grammar

theorem lt_of_reaches {c d : Cursor} (h : c.Reaches d ∧ d.rest.length < c.rest.length) : c.off < d.off := by
  have := h.1.off_add_length
  omega

theorem within_token {src : Source} {c d : Cursor} {word : Bytes} (h : c.token = (word, d)) (hw : word ≠ []) :
    Within src.path c.off d.off [(src.locate c.skipBlanks.off).spot] := by
  have hlt := lt_of_reaches (Cursor.length_token_lt (c.token_skipBlanks.trans h) hw)
  have hle := c.reaches_skipBlanks.off_le
  refine ⟨List.nodup_singleton _, ?_⟩
  simp only [List.mem_singleton, forall_eq, Location.spot, Source.locate, true_and]
  omega

/-- Expressions stand one after the other, and their arguments inside of them. -/
theorem Exprs.within {src : Source} {registry : Registry} {bindings : Parser.Bindings} {c d : Cursor} {xs : List Expr}
    {notes : List Diagnostic} (h : Exprs src registry bindings c xs notes d) (fns : Functions) (scope : Scope) :
    Within src.path c.off d.off (Expr.spots fns xs scope) := by
  have step {lo mid hi : Cursor} {x : Expr} {xs : List Expr} {scope : Scope}
      (hx : Within src.path lo.off mid.off (Expr.spots fns [x] scope))
      (hxs : Within src.path mid.off hi.off (Expr.spots fns xs scope)) (hlo : lo.Reaches mid) (hhi : mid.Reaches hi) :
      Within src.path lo.off hi.off (Expr.spots fns (x :: xs) scope) :=
    (hx.append hxs hlo.off_le hhi.off_le).perm (Expr.spots_cons fns x xs scope)
  induction h generalizing scope with
  | nil => exact .nil _ _ _
  | @text _ c _ _ _ _ _ hq rest ih =>
      have hreach := c.reaches_skipBlanks
      have hlt := lt_of_reaches hq.reaches
      refine step ⟨List.nodup_singleton _, ?_⟩ (ih scope) (hreach.trans hq.reaches.1) rest.reaches.1
      have := hreach.off_le
      simp only [Expr.spots, Expr.sitesList, Expr.sites, List.map_cons, List.map_nil, List.append_nil,
        List.mem_singleton, forall_eq, Expr.location, Location.spot, Source.locate, true_and]
      omega
  | group ho inner hc rest ih1 ih2 =>
      have h1 := (ih1 scope).widen ho.reaches.1.off_le hc.reaches.1.off_le
      exact step h1 (ih2 scope) ((ho.reaches.1.trans inner.reaches.1).trans hc.reaches.1) rest.reaches.1
  | @number _ _ _ _ word _ _ _ ht hn rest ih =>
      have hw : word ≠ [] := by rintro rfl; simp [ofToken?_nil] at hn
      exact step (within_token ht hw) (ih scope) (Cursor.length_token_lt ht hw).1 rest.reaches.1
  | @closure _ _ _ _ _ _ _ ps x _ _ _ ht hp ha body rest ih1 ih2 =>
      have hw : utf8 "anon" ≠ [] := by decide
      have hstart := hp.reaches.1.trans ha.reaches.1
      have hbody := ((ih1 (scope.bind ps)).widen hstart.off_le (Nat.le_refl _)).sublist
        (List.sublist_append_right [x.location.spot] _)
      have hx := (within_token ht hw).append hbody (Cursor.length_token_lt ht hw).1.off_le
        (hstart.trans body.reaches.1).off_le
      refine step ?_ (ih2 scope) ((Cursor.length_token_lt ht hw).1.trans (hstart.trans body.reaches.1)) rest.reaches.1
      simpa [Expr.spots, Expr.sitesList, Expr.sites, Expr.location] using hx
  | bound ht hw hs rest ih =>
      exact step (within_token ht hw.ne_nil) (ih scope) (Cursor.length_token_lt ht hw.ne_nil).1 rest.reaches.1
  | unresolved ht hw hs hr rest ih =>
      exact step (within_token ht hw.ne_nil) (ih scope) (Cursor.length_token_lt ht hw.ne_nil).1 rest.reaches.1
  | @call _ _ _ _ _ _ f _ _ _ _ ht hw hs hr hl hargs rest ih1 ih2 =>
      have hreach := (Cursor.length_token_lt ht hw.ne_nil).1
      have hx := ((within_token ht hw.ne_nil).append (ih1 scope) hreach.off_le hargs.reaches.1.off_le).sublist
        (Expr.spots_call fns _ f _ scope)
      exact step hx (ih2 scope) (hreach.trans hargs.reaches.1) rest.reaches.1

end Grammar

def Function.spots (fns : Functions) (added : List Function) : List (Bytes × Int) :=
  added.flatMap fun fn => (fn.body.sites fns (Scope.bind [] fn.params)).map (·.spot)

/-- What reading a source adds to the table: functions whose arguments stand at different places, in the rest of
the source or in files that were not imported before. -/
structure Registry.Adds (fns : Functions) (src : Source) (c : Cursor) (r r' : Registry) (added : List Function) :
    Prop where
  functions : r'.functions.toList = r.functions.toList ++ added
  imported : ∀ path, r.isImported path = true → r'.isImported path = true
  nodup : (Function.spots fns added).Nodup
  spots : ∀ spot ∈ Function.spots fns added, spot.1 = src.path ∧ (c.off : Int) ≤ spot.2 ∨
    spot.1 ≠ [] ∧ r.isImported spot.1 = false ∧ r'.isImported spot.1 = true

namespace Registry.Adds

variable {fns : Functions} {src : Source} {c d : Cursor} {r r₁ r' : Registry} {added : List Function}

theorem of_imported (h : r₁.Adds fns src d r' added) (hle : c.off ≤ d.off) (hfns : r₁.functions = r.functions)
    (himport : ∀ path, r.isImported path = true → r₁.isImported path = true) : r.Adds fns src c r' added where
  functions := hfns ▸ h.functions
  imported path hp := h.imported path (himport path hp)
  nodup := h.nodup
  spots spot hspot := by
    obtain ⟨hp, hlo⟩ | ⟨hne, hnew, hold⟩ := h.spots spot hspot
    · exact .inl ⟨hp, by omega⟩
    · exact .inr ⟨hne, Bool.eq_false_iff.2 fun hr => by simp [himport _ hr] at hnew, hold⟩

theorem le_of_path (h : r.Adds fns src c r' added) (hsrc : src.path = [] ∨ r.isImported src.path = true)
    {spot : Bytes × Int} (hspot : spot ∈ Function.spots fns added) (hpath : spot.1 = src.path) :
    (c.off : Int) ≤ spot.2 := by
  obtain ⟨-, hlo⟩ | ⟨hne, hnew, -⟩ := h.spots spot hspot
  · exact hlo
  · rw [hpath] at hne hnew
    obtain hsrc | hsrc := hsrc
    · exact absurd hsrc hne
    · simp [hsrc] at hnew

theorem declare {name : Bytes} {params : List Param} {location : Location} {body : Expr}
    (h : (r.declare (.custom name params location body)).Adds fns src d r' added) (hle : c.off ≤ d.off)
    (hsrc : src.path = [] ∨ r.isImported src.path = true)
    (hbody : Within src.path c.off d.off ((body.sites fns (Scope.bind [] params)).map (·.spot))) :
    r.Adds fns src c r' (.custom name params location body :: added) where
  functions := by
    rw [h.functions]
    simp [Registry.declare, Registry.insert, Registry.bind]
  imported := h.imported
  nodup := by
    refine hbody.nodup.append h.nodup fun spot hspot hspot' => ?_
    obtain ⟨hpath, -, hlt⟩ := hbody.bounds spot hspot
    have := h.le_of_path hsrc hspot' hpath
    omega
  spots spot hspot := by
    obtain hspot | hspot := List.mem_append.1 hspot
    · obtain ⟨hpath, hlo, -⟩ := hbody.bounds spot hspot
      exact .inl ⟨hpath, hlo⟩
    · obtain ⟨hpath, hlo⟩ | hspot := h.spots spot hspot
      · exact .inl ⟨hpath, by omega⟩
      · exact .inr hspot

theorem append {path : Bytes} {file : Source} {start : Cursor} {added' : List Function}
    (hfile : (r.markImported path).Adds fns file start r₁ added) (hpath : file.path = path) (hne : path ≠ [])
    (hi : r.isImported path = false) (hrest : r₁.Adds fns src d r' added') (hle : c.off ≤ d.off)
    (hsrc : src.path = [] ∨ r.isImported src.path = true) : r.Adds fns src c r' (added ++ added') := by
  have hmark (other : Bytes) (h : r.isImported other = true) : (r.markImported path).isImported other = true := by
    simp [isImported_markImported, h]
  have hmore (other : Bytes) (h : r.isImported other = true) : r₁.isImported other = true :=
    hfile.imported other (hmark other h)
  have hadded : ∀ spot ∈ Function.spots fns added,
      spot.1 ≠ [] ∧ r.isImported spot.1 = false ∧ r₁.isImported spot.1 = true := by
    intro spot hspot
    obtain ⟨he, -⟩ | hspot :=
      (hfile.of_imported (Nat.le_refl _) (functions_markImported r path) hmark).spots spot hspot
    · rw [he, hpath]
      exact ⟨hne, hi, hfile.imported path (by simp [isImported_markImported])⟩
    · exact hspot
  refine ⟨?_, fun other h => hrest.imported other (hmore other h), ?_, fun spot hspot => ?_⟩
  · rw [hrest.functions, hfile.functions, functions_markImported, List.append_assoc]
  · rw [Function.spots, List.flatMap_append]
    refine hfile.nodup.append hrest.nodup fun spot hspot hspot' => ?_
    obtain ⟨hne', hnew, hold⟩ := hadded spot hspot
    obtain ⟨he, -⟩ | ⟨-, hnew', -⟩ := hrest.spots spot hspot'
    · rw [he] at hne' hnew
      obtain hsrc | hsrc := hsrc
      · exact hne' hsrc
      · simp [hsrc] at hnew
    · simp [hold] at hnew'
  · rw [Function.spots, List.flatMap_append] at hspot
    obtain hspot | hspot := List.mem_append.1 hspot
    · obtain ⟨hne', hnew, hold⟩ := hadded spot hspot
      exact .inr ⟨hne', hnew, hrest.imported _ hold⟩
    · obtain ⟨he, hlo⟩ | ⟨hne', hnew, hold⟩ := hrest.spots spot hspot
      · exact .inl ⟨he, by omega⟩
      · exact .inr ⟨hne', Bool.eq_false_iff.2 fun hr => by simp [hmore _ hr] at hnew, hold⟩

end Registry.Adds

theorem CleanRuns.adds {resolver : Resolver} {read : Option (Bytes → Except FileError Bytes)} {depth : Nat}
    {src : Source} {c : Cursor} {w w' : Workspace}
    (hresolve : ∀ source target path, resolver.resolve source target = .ok path → path ≠ [])
    (h : CleanRuns resolver read depth src c w w') (hsrc : src.path = [] ∨ w.registry.isImported src.path = true)
    (fns : Functions) : ∃ added, w.registry.Adds fns src c w'.registry added := by
  have himport {c d e : Cursor} {target : Bytes} (hk : c.token = (utf8 "import", d))
      (hq : d.skipBlanks.Quoted target e) : c.off ≤ e.off :=
    ((Cursor.length_token_lt hk (by decide)).1.trans (d.reaches_skipBlanks.trans hq.reaches.1)).off_le
  have hmark (w : Workspace) (path other : Bytes) (h : w.registry.isImported other = true) :
      (w.visit path).registry.isImported other = true := by
    simp [Workspace.visit, Registry.isImported_markImported, h]
  induction h with
  | done => exact ⟨[], by simp, fun _ => id, .nil, by simp [Function.spots]⟩
  | @declared _ src c d e g name location params body w w' hk hs hnew hb rest ih =>
      obtain ⟨added, hadds⟩ := ih hsrc
      have hstart := (Cursor.length_token_lt hk (by decide)).1.trans hs.reaches
      have hbody : Within src.path c.off g.off ((body.sites fns (Scope.bind [] params)).map (·.spot)) := by
        have hall := (hb.within fns (Scope.bind [] params)).widen hstart.off_le (Nat.le_refl _)
        simpa [Expr.spots, Expr.sitesList] using hall.sublist (List.sublist_append_right _ _)
      exact ⟨_, hadds.declare (hstart.trans hb.reaches.1).off_le hsrc hbody⟩
  | known hr hk hq hp hi rest ih =>
      obtain ⟨added, hadds⟩ := ih hsrc
      exact ⟨added, hadds.of_imported (himport hk hq) rfl fun _ => id⟩
  | @included _ src c d e target path load text w w' w'' hr hk hq hp hi hl file rest ih1 ih2 =>
      obtain ⟨added, hfile⟩ := ih1 (.inr (by simp [Workspace.visit, Registry.isImported_markImported]))
      obtain ⟨added', hrest⟩ := ih2 (hsrc.imp_right fun h => hfile.imported _ (hmark w path _ h))
      exact ⟨added ++ added', hfile.append rfl (hresolve _ _ _ hp) hi hrest (himport hk hq) hsrc⟩
  | unread hr hk hq hp hi hl rest ih =>
      obtain ⟨added, hadds⟩ := ih (hsrc.imp_right (hmark _ _ _))
      exact ⟨added, hadds.of_imported (himport hk hq) (Registry.functions_markImported _ _) (hmark _ _)⟩

end Polish
