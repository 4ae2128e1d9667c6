import Polish.Ty
import Polish.Proofs.Lists
import Mathlib.Data.List.Nodup
import Mathlib.Data.List.Perm.Subperm

namespace Polish

namespace Bytes

theorem le_total (a b : Bytes) : Bytes.le a b = true ∨ Bytes.le b a = true := by
  simpa [Bytes.le, List.not_lt] using List.le_total a b

theorem le_trans {a b c : Bytes} (hab : Bytes.le a b = true) (hbc : Bytes.le b c = true) : Bytes.le a c = true := by
  simp only [Bytes.le, Bool.not_eq_true', decide_eq_false_iff_not, List.not_lt] at hab hbc ⊢
  exact List.le_trans hab hbc

theorem le_antisymm {a b : Bytes} (hab : Bytes.le a b = true) (hba : Bytes.le b a = true) : a = b := by
  simp only [Bytes.le, Bool.not_eq_true', decide_eq_false_iff_not, List.not_lt] at hab hba
  exact List.le_antisymm hab hba

theorem lt_of_le_of_ne {a b : Bytes} (hab : Bytes.le a b = true) (hne : a ≠ b) : a < b := by
  simp only [Bytes.le, Bool.not_eq_true', decide_eq_false_iff_not, List.not_lt] at hab
  exact Std.lt_of_le_of_ne hab hne

instance : Std.Total fun a b : Bytes => Bytes.le a b = true := ⟨le_total⟩

instance : IsTrans Bytes fun a b => Bytes.le a b = true := ⟨fun _ _ _ => le_trans⟩

end Bytes

namespace Ty

mutual

theorem eq_of_same : ∀ {a b : Ty}, same a b = true → a = b
  | .basic _, .basic _, h => by simpa [same] using h
  | .unknown _, .unknown _, h => by simpa [same] using h
  | .array _, .array _, h => congrArg Ty.array (eq_of_same (by simpa [same] using h))
  | .function _ _, .function _ _, h => by
      simp only [same, Bool.and_eq_true] at h
      rw [eq_of_same h.1, eq_of_sameList h.2]
  | .object ns as, .object ms bs, h => by
      rw [same] at h
      split at h
      · rename_i hn
        subst hn
        have htypes : as = bs := funext fun i => eq_of_same (List.all_eq_true.1 h i (List.mem_finRange i))
        rw [htypes]
      · cases h
  | .absent, .absent, _ => rfl

theorem eq_of_sameList : ∀ {as bs : List Ty}, sameList as bs = true → as = bs
  | [], [], _ => rfl
  | _ :: _, _ :: _, h => by
      simp only [sameList, Bool.and_eq_true] at h
      rw [eq_of_same h.1, eq_of_sameList h.2]

end

mutual

theorem same_self : ∀ a : Ty, same a a = true
  | .basic _ | .unknown _ => by simp [same]
  | .array a => by rw [same, same_self a]
  | .function as a => by rw [same, same_self a, sameList_self as, Bool.and_self]
  | .object _ as => by
      rw [same, dif_pos rfl, List.all_eq_true]
      exact fun i _ => same_self (as i)
  | .absent => rfl

theorem sameList_self : ∀ as : List Ty, sameList as as = true
  | [] => rfl
  | a :: as => by rw [sameList, same_self a, sameList_self as, Bool.and_self]

end

theorem same_iff {a b : Ty} : same a b = true ↔ a = b := ⟨eq_of_same, fun h => h ▸ same_self a⟩

section Fields

variable {fs gs : List (Bytes × Ty)}

def byName (f g : Bytes × Ty) : Prop := Bytes.le f.1 g.1 = true

instance : DecidableRel byName := fun _ _ => inferInstanceAs (Decidable (_ = _))

instance : Std.Total byName := ⟨fun _ _ => Bytes.le_total _ _⟩

instance : IsTrans (Bytes × Ty) byName := ⟨fun _ _ _ => Bytes.le_trans⟩

def fields : Ty → List (Bytes × Ty)
  | .object names types => names.zip types
  | _ => []

theorem increasing_insertionSort (hn : (fs.map (·.1)).Nodup) :
    ((fs.insertionSort byName).map (·.1)).Pairwise (· < ·) := by
  have hnodup : ((fs.insertionSort byName).map (·.1)).Nodup := ((List.perm_insertionSort byName fs).map _).nodup_iff.2 hn
  have hsorted : ((fs.insertionSort byName).map (·.1)).Pairwise (Bytes.le · ·) :=
    List.pairwise_map.2 (List.pairwise_insertionSort byName fs)
  exact (hsorted.and hnodup).imp fun h => Bytes.lt_of_le_of_ne h.1 h.2

theorem fields_ofSorted (h : (fs.map (·.1)).Pairwise (· < ·)) : (ofSorted fs).fields = fs := by
  rw [ofSorted, dif_pos h, fields, FieldNames.zip]
  refine List.ext_getElem (by simp) fun i _ _ => ?_
  simp

theorem ofFields_eq_ofSorted (fs : List (Bytes × Ty)) : ofFields fs = ofSorted (fs.insertionSort byName) :=
  congrArg ofSorted (Sorting.sort_eq_insertionSort _ fs)

/-- Fields are found by their names, so that their order does not matter. -/
theorem ofFields_eq_iff (hf : (fs.map (·.1)).Nodup) (hg : (gs.map (·.1)).Nodup) :
    ofFields fs = ofFields gs ↔ fs.Perm gs := by
  have hperm (fs : List (Bytes × Ty)) := List.perm_insertionSort byName fs
  rw [ofFields_eq_ofSorted, ofFields_eq_ofSorted]
  constructor
  · intro h
    have hsame := congrArg fields h
    rw [fields_ofSorted (increasing_insertionSort hf), fields_ofSorted (increasing_insertionSort hg)] at hsame
    exact (hperm fs).symm.trans (hsame ▸ hperm gs)
  · intro h
    have hsorted (fs : List (Bytes × Ty)) := List.pairwise_insertionSort byName fs
    rw [List.Perm.eq_of_pairwise (fun a b ha hb hab hba => ?_) (hsorted fs) (hsorted gs)
      (((hperm fs).trans h).trans (hperm gs).symm)]
    have hmem := h.mem_iff.2 ((hperm gs).mem_iff.1 hb)
    exact List.inj_on_of_nodup_map hf ((hperm fs).mem_iff.1 ha) hmem (Bytes.le_antisymm hab hba)

theorem lookup_of_mem (hn : (gs.map (·.1)).Nodup) {f : Bytes × Ty} (h : f ∈ gs) : gs.lookup f.1 = some f.2 := by
  obtain ⟨t, ht⟩ : ∃ t, gs.lookup f.1 = some t := by
    rw [← Option.isSome_iff_exists, List.lookup_isSome_iff]
    exact ⟨f, h, beq_self_eq_true _⟩
  obtain ⟨before, after, he, -⟩ := List.lookup_eq_some_iff.1 ht
  have hsame := List.inj_on_of_nodup_map hn h (show (f.1, t) ∈ gs by simp [he]) rfl
  rw [ht, hsame]

/-- With as many fields on both sides it is enough to look for the fields of one side on the other. -/
theorem perm_iff_lookup (hf : (fs.map (·.1)).Nodup) (hg : (gs.map (·.1)).Nodup) :
    fs.Perm gs ↔ fs.length = gs.length ∧ ∀ f ∈ fs, ∃ t, gs.lookup f.1 = some t ∧ same f.2 t = true := by
  constructor
  · exact fun h => ⟨h.length_eq, fun f hmem => ⟨f.2, lookup_of_mem hg (h.mem_iff.1 hmem), same_self f.2⟩⟩
  · rintro ⟨hlen, hfound⟩
    have hsub : fs ⊆ gs := by
      intro f hmem
      obtain ⟨t, ht, hsame⟩ := hfound f hmem
      obtain ⟨before, after, he, -⟩ := List.lookup_eq_some_iff.1 ht
      rw [he, ← eq_of_same hsame]
      simp
    exact (List.subperm_of_subset (List.Nodup.of_map _ hf) hsub).perm_of_length_le (Nat.le_of_eq hlen.symm)

end Fields

section Order

theorem casts_iff {a b : Ty} :
    casts a b = true ↔ a = b ∨ b = any ∨ ∃ c d, a = .array c ∧ b = .array d ∧ casts c d = true := by
  rw [casts.eq_def, Bool.or_eq_true, Bool.or_eq_true, same_iff, same_iff, or_assoc]
  refine or_congr_right (or_congr_right ⟨fun h => ?_, ?_⟩)
  · split at h
    · exact ⟨_, _, rfl, rfl, h⟩
    · exact absurd h Bool.false_ne_true
  · rintro ⟨c, d, rfl, rfl, h⟩
    exact h

theorem casts_self (a : Ty) : casts a a = true := casts_iff.2 (.inl rfl)

theorem casts_any (a : Ty) : casts a any = true := casts_iff.2 (.inr (.inl rfl))

theorem casts_array (a b : Ty) : casts (.array a) (.array b) = true ↔ casts a b = true := by
  rw [casts_iff]
  refine ⟨?_, fun h => .inr (.inr ⟨a, b, rfl, rfl, h⟩)⟩
  rintro (h | h | ⟨c, d, hc, hd, h⟩)
  · exact casts_iff.2 (.inl (Ty.array.inj h))
  · cases h
  · rwa [Ty.array.inj hc, Ty.array.inj hd]

theorem eq_of_any_casts {a : Ty} (h : casts any a = true) : a = any := by
  obtain h | h | ⟨c, d, hc, -, -⟩ := casts_iff.1 h
  · exact h.symm
  · exact h
  · cases hc

theorem casts_trans {a b c : Ty} (hab : casts a b = true) (hbc : casts b c = true) : casts a c = true := by
  induction a, b using casts.induct generalizing c with
  | case1 a b ih =>
      obtain rfl | rfl | ⟨a, b, rfl, rfl, hinner⟩ := casts_iff.1 hab
      · exact hbc
      · rw [eq_of_any_casts hbc]
        exact casts_any _
      -- arrays on both sides: the third type is one as well, or equal to the second, or `any`
      obtain rfl | rfl | ⟨b', c, hb, rfl, hbc⟩ := casts_iff.1 hbc
      · exact hab
      · exact casts_any _
      obtain rfl := Ty.array.inj hb
      exact (casts_array _ _).2 (ih hinner hbc)

theorem casts_antisymm {a b : Ty} (hab : casts a b = true) (hba : casts b a = true) : a = b := by
  induction a, b using casts.induct with
  | case1 a b ih =>
      obtain rfl | rfl | ⟨a, b, rfl, rfl, hinner⟩ := casts_iff.1 hab
      · rfl
      · exact eq_of_any_casts hba
      · rw [ih hinner ((casts_array _ _).1 hba)]

/-- A type that casts only to itself and to `any`. -/
def isRigid : Ty → Bool
  | .function _ _ | .object _ _ => true
  | _ => false

theorem eq_of_casts_rigid {a b : Ty} (hb : b.isRigid = true) (h : casts a b = true) : a = b := by
  obtain h | rfl | ⟨c, d, -, rfl, -⟩ := casts_iff.1 h
  · exact h
  · exact absurd hb Bool.false_ne_true
  · exact absurd hb Bool.false_ne_true

end Order

/-- Equality of types is that of trees, and the order in which fields are given does not matter. Casts are a partial
order up to this equality, with `any` above all types; they go through arrays, but not into functions and objects. -/
theorem casts_partialOrder :
    Equivalence (fun a b : Ty => same a b = true) ∧
    (∀ a b : Ty, same a b = true ↔ a = b) ∧
    (∀ fs gs : List (Bytes × Ty), (fs.map (·.1)).Nodup → (gs.map (·.1)).Nodup →
      (same (ofFields fs) (ofFields gs) = true ↔ fs.Perm gs) ∧
      (same (ofFields fs) (ofFields gs) = true ↔
        fs.length = gs.length ∧ ∀ f ∈ fs, ∃ t, gs.lookup f.1 = some t ∧ same f.2 t = true)) ∧
    (∀ a : Ty, casts a a = true) ∧
    (∀ a b c : Ty, casts a b = true → casts b c = true → casts a c = true) ∧
    (∀ a b : Ty, casts a b = true → casts b a = true → same a b = true) ∧
    (∀ a a' b b' : Ty, same a a' = true → same b b' = true → casts a b = casts a' b') ∧
    (∀ b : Ty, (∀ a : Ty, casts a b = true) ↔ same b any = true) ∧
    (∀ a b : Ty, casts (.array a) (.array b) = true ↔ casts a b = true) ∧
    (∀ a b : Ty, a.isRigid = true → b.isRigid = true → (casts a b = true ↔ same a b = true)) := by
  refine ⟨⟨same_self, fun h => same_iff.2 (eq_of_same h).symm, fun h h' => eq_of_same h ▸ h'⟩, fun _ _ => same_iff,
    fun fs gs hf hg => ?_, casts_self, fun _ _ _ => casts_trans, fun a b hab hba => same_iff.2 (casts_antisymm hab hba),
    fun a a' b b' ha hb => ?_, fun b => ⟨fun h => ?_, fun h a => ?_⟩, casts_array, fun a b _ hb => ⟨fun h => ?_, fun h => ?_⟩⟩
  · rw [same_iff, ofFields_eq_iff hf hg]
    exact ⟨Iff.rfl, perm_iff_lookup hf hg⟩
  · rw [eq_of_same ha, eq_of_same hb]
  · exact same_iff.2 (eq_of_any_casts (h any))
  · rw [eq_of_same h]
    exact casts_any a
  · exact same_iff.2 (eq_of_casts_rigid hb h)
  · rw [eq_of_same h]
    exact casts_self b

/-- Fields in two orders, and a function that takes less than the other. -/
example : same (ofFields [(utf8 "x", any), (utf8 "a", string)]) (ofFields [(utf8 "a", string), (utf8 "x", any)]) = true ∧
    casts (.array (.array number)) (.array any) = true ∧
    casts (.function [number] null) (.function [any] null) = false := by
  decide +kernel

end Ty

end Polish
