import Polish.Proofs.Path
import Polish.Proofs.Places

namespace Polish

theorem Functions.nodup_sites {fns : Functions} (h : (Function.spots fns fns.toList).Nodup) {order : List FuncId}
    (hnodup : order.Nodup) (horder : ∀ f ∈ order, f < fns.size) :
    ((order.flatMap fns.sites).map (·.spot)).Nodup := by
  have hrange : (List.range fns.size).flatMap (fun f => (fns.sites f).map (·.spot)) =
      Function.spots fns fns.toList := by
    simp only [Function.spots, List.flatMap_def]
    congr 1
    refine List.ext_getElem (by simp) fun i hi _ => ?_
    have hi : i < fns.size := by simpa using hi
    simp [Functions.sites, hi]
  obtain ⟨picked, hperm, hsub⟩ := List.subperm_of_subset hnodup fun f hf => List.mem_range.2 (horder f hf)
  rw [List.map_flatMap]
  exact (hperm.flatMap_right _).nodup ((hrange ▸ h).sublist (hsub.flatMap _))

theorem Mismatches.nodup_keys {fns : Functions} {sites : List Site} {ds : List Diagnostic}
    (h : Mismatches fns sites ds) (hsites : (sites.map (·.spot)).Nodup) : (ds.map (·.key)).Nodup := by
  have hspots : List.Sublist (ds.map (·.location.spot)) (sites.map (·.spot)) := by
    have hs := h.locations_sublist.map Location.spot
    rw [List.map_map, List.map_map] at hs
    exact hs
  refine List.Nodup.of_map (fun key => (key.1, key.2.1)) ?_
  rw [List.map_map]
  exact hsites.sublist hspots

/-- The checker on functions whose arguments stand at different places. -/
theorem Registry.WellFormed.checkAll_perm {r : Registry} (h : r.WellFormed)
    (hscoped : ∀ fn ∈ r.functions, fn.Scoped)
    (hspots : (Function.spots r.functions r.functions.toList).Nodup) :
    ∃ expected, Mismatches r.functions (r.listing.flatMap r.functions.sites) expected ∧
      (expected.map (·.key)).Nodup ∧
      ∀ order : List FuncId, order.Perm r.listing →
        ∃ c, Checking.checkAll r.functions order {} = .ok () c ∧ c.report.entries.Perm expected ∧
          c.report.stopped = false := by
  have hfns := h.scoped hscoped
  have hlisting : ∀ f ∈ r.listing, f < r.functions.size := fun f => h.lt_of_mem_listing
  obtain ⟨expected, hexpected, -⟩ := Checking.checkAll_eq hfns hlisting
  refine ⟨expected, hexpected,
    hexpected.nodup_keys (Functions.nodup_sites hspots h.nodup_listing hlisting), fun order hperm => ?_⟩
  have horder : ∀ f ∈ order, f < r.functions.size := fun f hf => hlisting f (hperm.mem_iff.1 hf)
  obtain ⟨ds, hds, hrun⟩ := Checking.checkAll_eq hfns horder
  obtain ⟨results, he⟩ := hrun {} Checking.fit_initial rfl
  have hkeys := hds.nodup_keys (Functions.nodup_sites hspots (hperm.nodup_iff.2 h.nodup_listing) horder)
  refine ⟨_, he, ?_, Checker.stopped_foldl_record hds.fatal_eq_false rfl⟩
  obtain ⟨ds', hds', hperm'⟩ := hexpected.perm (hperm.symm.flatMap_right _)
  rw [Checker.entries_foldl_record ds {} hkeys (fun _ _ => List.not_mem_nil), hds.unique hds']
  exact hperm'.symm

theorem Function.spots_natives (fns : Functions) : Function.spots fns Registry.initial.functions.toList = [] := by
  refine List.flatMap_eq_nil_iff.2 fun fn hfn => ?_
  rw [Registry.body_native fn hfn]
  rfl

/-- A program that is parsed without a problem has one list of mismatches, at different places, which the checker
reports in any order of the functions. -/
theorem checkAll_perm_of_parse (loader : Option Loader) (stdDir ext entry : Bytes) (seed : Int) (follow : Bool)
    (name text : Bytes) (s : Session)
    (h : Session.parse name text (Session.make loader (Resolver.make stdDir ext) entry seed follow) = .ok () s) :
    ∃ expected, Mismatches s.workspace.registry.functions
        (s.workspace.registry.listing.flatMap s.workspace.registry.functions.sites) expected ∧
      (expected.map (·.key)).Nodup ∧
      ∀ order : List FuncId, order.Perm s.workspace.registry.listing →
        ∃ c, Checking.checkAll s.workspace.registry.functions order {} = .ok () c ∧
          c.report.entries.Perm expected ∧ c.report.stopped = false := by
  obtain ⟨w, hruns, hclean, rfl⟩ := Session.runs_of_parse h
  have hrun := hruns.clean hclean
  have hstart := Session.sound_initial.entering (Session.mainPath name)
  refine (hruns.wellFormed hstart.wellFormed).checkAll_perm (hrun.scoped ?_) ?_
  · rw [Session.functions_entering]
    exact Registry.scoped_natives
  · obtain ⟨added, hadds⟩ := hrun.adds (fun _ _ _ => Resolver.ne_nil_of_resolve)
      (Session.isImported_entering _ _) w.registry.functions
    have hnatives := Function.spots_natives w.registry.functions
    rw [hadds.functions, Session.functions_entering, Function.spots, List.flatMap_append, ← Function.spots,
      ← Function.spots]
    exact (congrArg (· ++ _) hnatives) ▸ hadds.nodup

def Session.mismatchCount (s : Session) : Nat :=
  match Checking.checkAll s.workspace.registry.functions s.workspace.registry.listing {} with
  | .ok _ c | .error _ c => c.report.size

/-- A text is no number, inside of an anonymous function too. -/
theorem checkAll_perm_of_parse_texts :
    ∃ s expected, Session.parse (utf8 "a")
        (utf8 "function f => core/add 'x' 1 function g => core/cat anon number a => core/add a 'y'")
        (Session.make none (Resolver.make [] []) [] 1 true) = .ok () s ∧
      Mismatches s.workspace.registry.functions
        (s.workspace.registry.listing.flatMap s.workspace.registry.functions.sites) expected ∧
      expected.length = 2 ∧ (expected.map (·.key)).Nodup := by
  have hcount : (Session.after (Session.parse (utf8 "a")
      (utf8 "function f => core/add 'x' 1 function g => core/cat anon number a => core/add a 'y'"))
      (Session.make none (Resolver.make [] []) [] 1 true)).mismatchCount = 2 := by decide +kernel
  obtain ⟨⟨⟩, s, h⟩ := exists_of_ends (show ends (Session.parse (utf8 "a")
    (utf8 "function f => core/add 'x' 1 function g => core/cat anon number a => core/add a 'y'")
    (Session.make none (Resolver.make [] []) [] 1 true)) = true by decide +kernel)
  obtain ⟨expected, hm, hkeys, horder⟩ := checkAll_perm_of_parse none [] [] [] 1 true _ _ s h
  obtain ⟨c, hc, hperm, -⟩ := horder _ .rfl
  refine ⟨s, expected, h, hm, ?_, hkeys⟩
  simp only [Session.after, h, Session.mismatchCount, hc] at hcount
  exact hperm.length_eq.symm.trans hcount

end Polish
