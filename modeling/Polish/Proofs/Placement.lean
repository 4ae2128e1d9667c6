import Polish.Proofs.Path
import Polish.Proofs.Renaming
import Polish.Proofs.RoundTrip

namespace Polish

open Grammar

namespace Registry

def unmarked (r : Registry) : Registry := { r with imported := [] }

theorem unmarked_markImported (r : Registry) (path : Bytes) : (r.markImported path).unmarked = r.unmarked := by
  unfold markImported
  split <;> rfl

theorem Grows.append {r r' r'' : Registry} {added added' : List Function} (h : r.Grows added r')
    (h' : r'.Grows added' r'') : r.Grows (added ++ added') r'' := by
  induction h with
  | nil => exact h'
  | cons hnew hw ha hp hb _ ih => exact .cons hnew hw ha hp hb (ih h')

end Registry

def Workspace.Fresh (w : Workspace) (path : Bytes) : Prop := path ≠ [] ∧ w.registry.isImported path = false

/-- A function is in a source, at a position or after it, or in a file that is imported in the meantime. -/
def Workspace.Holds (w w' : Workspace) (src : Source) (c : Cursor) (l : Location) : Prop :=
  (l.path = src.path ∧ (c.off : Int) ≤ l.off) ∨ (w.Fresh l.path ∧ w'.registry.isImported l.path = true)

structure Workspace.Places (w w' : Workspace) (src : Source) (c : Cursor) (added : List Function) : Prop where
  grows : w.registry.unmarked.Grows added w'.registry.unmarked
  marks : ∀ path, w.registry.isImported path = true → w'.registry.isImported path = true
  holds : ∀ fn ∈ added, w.Holds w' src c fn.location
  ordered : added.Pairwise fun a b => a.location.path = b.location.path → a.location.off < b.location.off

namespace Workspace

variable {w w₁ w' : Workspace} {src : Source} {c d : Cursor} {added added' : List Function}

theorem Fresh.of_marks {path : Bytes} (h : w'.Fresh path)
    (hmarks : ∀ path, w.registry.isImported path = true → w'.registry.isImported path = true) : w.Fresh path := by
  refine ⟨h.1, Bool.eq_false_iff.2 fun hold => ?_⟩
  exact Bool.eq_false_iff.1 h.2 (hmarks path hold)

theorem marks_visit (w : Workspace) (path : Bytes) :
    ∀ other, w.registry.isImported other = true → (w.visit path).registry.isImported other = true := by
  intro other hother
  simp [visit, Registry.isImported_markImported, hother]

theorem not_fresh_visit (w : Workspace) (path : Bytes) : ¬ (w.visit path).Fresh path := by
  intro h
  simpa [visit, Registry.isImported_markImported] using h.2

theorem Places.mono (h : w.Places w' src d added) (hle : c.off ≤ d.off) : w.Places w' src c added where
  grows := h.grows
  marks := h.marks
  holds fn hfn := (h.holds fn hfn).imp_left fun ⟨hpath, hoff⟩ => ⟨hpath, by omega⟩
  ordered := h.ordered

theorem Places.visit {path : Bytes} (h : (w.visit path).Places w' src c added) : w.Places w' src c added where
  grows := by
    rw [← Registry.unmarked_markImported w.registry path]
    exact h.grows
  marks other hother := h.marks other (marks_visit w path other hother)
  holds fn hfn := (h.holds fn hfn).imp_right fun ⟨hfresh, hmarked⟩ => ⟨hfresh.of_marks (marks_visit w path), hmarked⟩
  ordered := h.ordered

theorem Places.append {file : Source} (hfile : w.Places w₁ file file.start added) (hfresh : w.Fresh file.path)
    (hmarked : w₁.registry.isImported file.path = true) (hrest : w₁.Places w' src c added')
    (hsrc : ¬ w.Fresh src.path) : w.Places w' src c (added ++ added') := by
  have hadded : ∀ fn ∈ added, w.Fresh fn.location.path ∧ w₁.registry.isImported fn.location.path = true := by
    intro fn hfn
    rcases hfile.holds fn hfn with ⟨hpath, -⟩ | hother
    · rw [hpath]
      exact ⟨hfresh, hmarked⟩
    · exact hother
  refine ⟨hfile.grows.append hrest.grows, fun path hpath => hrest.marks path (hfile.marks path hpath), ?_, ?_⟩
  · refine List.forall_mem_append.2 ⟨fun fn hfn => ?_, fun fn hfn => ?_⟩
    · exact .inr ⟨(hadded fn hfn).1, hrest.marks _ (hadded fn hfn).2⟩
    · exact (hrest.holds fn hfn).imp_right fun ⟨hother, hmarked'⟩ => ⟨hother.of_marks hfile.marks, hmarked'⟩
  · refine List.pairwise_append.2 ⟨hfile.ordered, hrest.ordered, fun a ha b hb hpath => ?_⟩
    -- the functions of the file are in files that are imported by now, the later ones are not
    obtain ⟨hfresh', hmarked'⟩ := hadded a ha
    rcases hrest.holds b hb with ⟨hsame, -⟩ | ⟨hother, -⟩
    · rw [hpath, hsame] at hfresh'
      exact absurd hfresh' hsrc
    · rw [hpath, hother.2] at hmarked'
      cases hmarked'

end Workspace

theorem Cursor.off_le_of_import {c d e : Cursor} {target : Bytes} (hk : c.token = (utf8 "import", d))
    (hq : d.skipBlanks.Quoted target e) : c.off ≤ e.off :=
  ((Cursor.length_token_lt hk (by decide)).1.trans (d.reaches_skipBlanks.trans hq.reaches.1)).off_le

/-- A run declares functions that are in order in each file. -/
theorem CleanRuns.places {resolver : Resolver} {read : Option (Bytes → Except FileError Bytes)} {depth : Nat}
    {src : Source} {c : Cursor} {w w' : Workspace} (h : CleanRuns resolver read depth src c w w')
    (hresolver : ∀ source target path, resolver.resolve source target = .ok path → path ≠ [])
    (hsrc : ¬ w.Fresh src.path) : ∃ added, w.Places w' src c added := by
  induction h with
  | done =>
      exact ⟨[], .nil _, fun _ h => h, List.forall_mem_nil _, .nil⟩
  | @declared _ src c d e g name location params body w w' hk hs hnew hb _ ih =>
      obtain ⟨added, hadded⟩ := ih hsrc
      obtain ⟨off, rfl, hlow, hhigh⟩ := hs.located
      obtain ⟨hw, ha, hp⟩ := hs.legible
      have hbody : body.Legible (w.registry.unmarked.declare (.awaiting name params (src.locate off)))
          (params.map (·.name)) := by
        rw [← body.renamed_id]
        exact (hb.legible rfl (Parser.Bindings.binds_params params _) body (List.mem_singleton.2 rfl)).renamed id
          fun _ _ hf _ => ⟨hf, rfl⟩
      have hstart := (Cursor.length_token_lt hk (by decide)).1.off_le
      have hend := hb.reaches.1.off_le
      have hrest := hadded.mono (Nat.le_trans (Nat.le_trans hstart hlow) (Nat.le_trans (Nat.le_of_lt hhigh) hend))
      refine ⟨_, .cons hnew hw ha hp hbody hadded.grows, hadded.marks, ?_, ?_⟩
      · refine List.forall_mem_cons.2 ⟨.inl ⟨rfl, ?_⟩, hrest.holds⟩
        exact Int.ofNat_le.2 (Nat.le_trans hstart hlow)
      · refine List.pairwise_cons.2 ⟨fun fn hfn hpath => ?_, hadded.ordered⟩
        rcases hadded.holds fn hfn with ⟨-, hle⟩ | ⟨hfresh, -⟩
        · change (off : Int) < fn.location.off
          omega
        · rw [← hpath] at hfresh
          exact absurd hfresh hsrc
  | known _ hk hq _ _ _ ih =>
      obtain ⟨added, hadded⟩ := ih hsrc
      exact ⟨added, hadded.mono (Cursor.off_le_of_import hk hq)⟩
  | @included _ src _ _ _ _ path _ _ w w' _ _ hk hq hp hi _ _ _ ih1 ih2 =>
      obtain ⟨added, hfile⟩ := ih1 (w.not_fresh_visit path)
      have hmarked : w'.registry.isImported path = true := hfile.marks path (by
        simp [Workspace.visit, Registry.isImported_markImported])
      obtain ⟨added', hrest⟩ := ih2 fun hfresh => hsrc (hfresh.of_marks hfile.visit.marks)
      exact ⟨_, hfile.visit.append ⟨hresolver _ _ _ hp, hi⟩ hmarked (hrest.mono (Cursor.off_le_of_import hk hq)) hsrc⟩
  | @unread _ _ _ _ _ path _ _ w _ _ hk hq _ _ _ _ ih =>
      obtain ⟨added, hadded⟩ := ih fun hfresh => hsrc (hfresh.of_marks (w.marks_visit path))
      exact ⟨added, (hadded.mono (Cursor.off_le_of_import hk hq)).visit⟩

end Polish
