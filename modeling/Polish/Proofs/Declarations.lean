import Polish.Source.Printer
import Polish.Proofs.Registration

namespace Polish

def Functions.declared (fns : Functions) : List (FuncId × Function) :=
  (fns.toList.zipIdx.map Prod.swap).filter (·.2.kind != .native)

theorem Functions.mem_declared {fns : Functions} {entry : FuncId × Function} :
    entry ∈ fns.declared ↔ fns[entry.1]? = some entry.2 ∧ (entry.2.kind != .native) = true := by
  obtain ⟨f, fn⟩ := entry
  rw [declared, List.mem_filter, List.mem_map]
  refine and_congr_left fun _ => ⟨?_, fun h => ⟨(fn, f), ?_, rfl⟩⟩
  · rintro ⟨⟨fn', f'⟩, hmem, he⟩
    obtain ⟨rfl, rfl⟩ := Prod.mk.inj he
    rw [List.mem_zipIdx_iff_getElem?, Array.getElem?_toList] at hmem
    exact hmem
  · rw [List.mem_zipIdx_iff_getElem?, Array.getElem?_toList]
    exact h

namespace Print

theorem declaredBefore_total (a b : Location) : declaredBefore a b = true ∨ declaredBefore b a = true := by
  by_cases h : a.path = b.path
  · simp only [declaredBefore, h, if_true, decide_eq_true_eq]
    exact Int.le_total a.off b.off
  · simp only [declaredBefore, h, Ne.symm h, if_false, Bytes.le, Bool.not_eq_true', decide_eq_false_iff_not, List.not_lt]
    exact List.le_total a.path b.path

theorem path_le_of_declaredBefore {a b : Location} (h : declaredBefore a b = true) : a.path ≤ b.path := by
  unfold declaredBefore at h
  split at h
  · rename_i he
    exact he ▸ List.le_refl _
  · simpa [Bytes.le, List.not_lt] using h

theorem declaredBefore_trans {a b c : Location} (hab : declaredBefore a b = true) (hbc : declaredBefore b c = true) :
    declaredBefore a c = true := by
  by_cases h : a.path = c.path
  · have hb : a.path = b.path :=
      List.le_antisymm (path_le_of_declaredBefore hab) (h ▸ path_le_of_declaredBefore hbc)
    rw [declaredBefore, if_pos hb, decide_eq_true_eq] at hab
    rw [declaredBefore, if_pos (hb.symm.trans h), decide_eq_true_eq] at hbc
    rw [declaredBefore, if_pos h, decide_eq_true_eq]
    exact Int.le_trans hab hbc
  · rw [declaredBefore, if_neg h]
    simpa [Bytes.le, List.not_lt] using
      List.le_trans (path_le_of_declaredBefore hab) (path_le_of_declaredBefore hbc)

theorem sources_perm {r : Registry} (hw : r.WellFormed) (hc : r.Current) (hnodup : r.functions.declared.Nodup) :
    (sources r.functions r.listing).Perm r.functions.declared := by
  rw [sources, Sorting.sort_eq_insertionSort]
  refine ((List.perm_insertionSort _ _).filter _).trans ((List.perm_ext_iff_of_nodup ?_ hnodup).2 fun entry => ?_)
  · refine (hw.nodup_listing.filterMap fun f g entry hf hg => ?_).filter _
    obtain ⟨_, -, rfl⟩ := Option.map_eq_some_iff.1 hf
    obtain ⟨_, -, he⟩ := Option.map_eq_some_iff.1 hg
    exact (congrArg Prod.fst he).symm
  · rw [List.mem_filter, Functions.mem_declared, List.mem_filterMap]
    refine and_congr_left fun _ => ⟨?_, fun h => ?_⟩
    · rintro ⟨f, -, he⟩
      obtain ⟨fn, hfn, rfl⟩ := Option.map_eq_some_iff.1 he
      exact hfn
    · refine ⟨entry.1, Registry.mem_listing.2 ⟨_, Registry.mem_of_lookup (hc _ _ h)⟩, ?_⟩
      rw [h]
      rfl

theorem sources_pairwise (fns : Functions) (ids : List FuncId) :
    (sources fns ids).Pairwise (fun a b => declaredBefore a.2.location b.2.location = true) := by
  rw [sources, Sorting.sort_eq_insertionSort]
  have : Std.Total fun a b : FuncId × Function => declaredBefore a.2.location b.2.location = true :=
    ⟨fun _ _ => declaredBefore_total _ _⟩
  have : IsTrans (FuncId × Function) fun a b => declaredBefore a.2.location b.2.location = true :=
    ⟨fun _ _ _ => declaredBefore_trans⟩
  exact (List.pairwise_insertionSort _ _).sublist List.filter_sublist

/-- Functions that were declared one after the other in one source are printed in that order. -/
theorem sources_eq {r : Registry} (hw : r.WellFormed) (hc : r.Current) {path : Bytes}
    (hpath : ∀ entry ∈ r.functions.declared, entry.2.location.path = path)
    (hoff : (r.functions.declared.map (·.2.location.off)).Pairwise (· < ·)) :
    sources r.functions r.listing = r.functions.declared := by
  have hnodup : (r.functions.declared.map (·.2.location.off)).Nodup := hoff.imp Int.ne_of_lt
  have hperm := sources_perm hw hc (List.Nodup.of_map _ hnodup)
  have hbefore {a b : FuncId × Function} (ha : a ∈ r.functions.declared) (hb : b ∈ r.functions.declared) :
      declaredBefore a.2.location b.2.location = true ↔ a.2.location.off ≤ b.2.location.off := by
    rw [declaredBefore, if_pos ((hpath a ha).trans (hpath b hb).symm), decide_eq_true_eq]
  have hdeclared : r.functions.declared.Pairwise (fun a b => declaredBefore a.2.location b.2.location = true) :=
    List.Pairwise.imp_of_mem (fun ha hb hlt => (hbefore ha hb).2 (Int.le_of_lt hlt)) (List.pairwise_map.1 hoff)
  refine List.Perm.eq_of_pairwise (fun a b ha hb hab hba => ?_) (sources_pairwise _ _) hdeclared hperm
  -- two functions before each other have one offset, and offsets tell functions apart
  have ha := hperm.mem_iff.1 ha
  exact List.inj_on_of_nodup_map hnodup ha hb (Int.le_antisymm ((hbefore ha hb).1 hab) ((hbefore hb ha).1 hba))

end Print

end Polish
