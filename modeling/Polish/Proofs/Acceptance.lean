import Polish.Proofs.Soundness

namespace Polish

/-- Where nothing is reported, every argument casts. -/
theorem Mismatches.casts_of_nil {fns : Functions} {sites : List Site} (h : Mismatches fns sites []) :
    ∀ site ∈ sites, site.arg.Casts fns site.scope site.want := by
  generalize he : ([] : List Diagnostic) = ds at h
  induction h with
  | nil => simp
  | casts ht hc _ ih => exact List.forall_mem_cons.2 ⟨⟨_, ht, hc⟩, ih he⟩
  | fails => exact nomatch he

namespace Checker

theorem isPrefix_record (c : Checker) (d : Diagnostic) : c.report.entries <+: (c.record d).report.entries := by
  unfold record
  split
  · exact List.prefix_rfl
  · exact List.prefix_append _ _

theorem isPrefix_foldl_record (ds : List Diagnostic) (c : Checker) :
    c.report.entries <+: (ds.foldl record c).report.entries := by
  induction ds generalizing c with
  | nil => exact List.prefix_rfl
  | cons d ds ih => exact (isPrefix_record c d).trans (ih _)

theorem eq_nil_of_foldl_record {ds : List Diagnostic} {c : Checker} (hc : c.reported = [])
    (h : (ds.foldl record c).report.entries = []) : ds = [] := by
  cases ds with
  | nil => rfl
  | cons d ds =>
      have hp := isPrefix_foldl_record ds (c.record d)
      rw [List.foldl_cons] at h
      rw [h, List.prefix_nil] at hp
      simp [record, hc, Report.add] at hp

end Checker

namespace Session

inductive Parsed : Session → Prop
  | fresh (loader : Option Loader) (resolver : Resolver) (entry : Bytes) (seed : Int) (follow : Bool) :
      Parsed (make loader resolver entry seed follow)
  | parse {s s' : Session} {name text : Bytes} (h : Parsed s) (hp : Session.parse name text s = .ok () s') : Parsed s'

structure Settled (w : Workspace) : Prop where
  sound : Sound w
  clean : w.report.entries = []
  scopes : ∀ fn ∈ w.registry.functions, fn.Scoped

theorem Settled.parse {s s' : Session} {name text : Bytes} (h : Settled s.workspace)
    (hp : Session.parse name text s = .ok () s') : Settled s'.workspace := by
  obtain ⟨w, hruns, hclean, rfl⟩ := runs_of_parse hp
  refine ⟨(h.sound.entering _).runs hruns, hclean, (hruns.clean hclean).scoped ?_⟩
  rw [functions_entering]
  exact h.scopes

theorem Parsed.settled {s : Session} (h : Parsed s) : Settled s.workspace := by
  induction h with
  | fresh => exact ⟨sound_initial, rfl, Registry.scoped_natives⟩
  | parse _ hp ih => exact ih.parse hp

theorem refuseEntry_ne_ok {entry : Bytes} {location : Location} {flaw : EntryFlaw} {s s' : Session} {f : FuncId} :
    refuseEntry entry location flaw s ≠ .ok f s' := nofun

theorem of_findEntry_eq_ok {s s' : Session} {f : FuncId} (h : findEntry s = .ok f s') :
    s' = s ∧ s.workspace.registry.lookup s.entry = some f ∧
      ∃ fn : Function, s.workspace.registry.functions[f]? = some fn ∧ fn.kind = .custom ∧ fn.params = [] := by
  unfold findEntry at h
  rw [get_bind] at h
  cases hl : s.workspace.registry.lookup s.entry with
  | none => simp only [hl] at h; exact (refuseEntry_ne_ok h).elim
  | some g =>
      simp only [hl] at h
      cases hg : s.workspace.registry.functions[g]? with
      | none => simp only [hg] at h; exact nomatch h
      | some fn =>
          simp only [hg] at h
          by_cases hk : fn.kind = .custom
          · cases hp : fn.params with
            | nil =>
                simp only [hk, hp, ne_eq, not_true_eq_false, if_false, List.isEmpty_nil, Bool.not_true,
                  Bool.false_eq_true] at h
                obtain ⟨rfl, rfl⟩ := EStateM.Result.ok.inj h
                exact ⟨rfl, rfl, fn, hg, hk, hp⟩
            | cons p ps =>
                simp only [hk, hp, ne_eq, not_true_eq_false, if_false, List.isEmpty_cons, Bool.not_false,
                  if_true] at h
                exact (refuseEntry_ne_ok h).elim
          · simp only [hk, ne_eq, not_false_eq_true, if_true] at h
            exact (refuseEntry_ne_ok h).elim

theorem of_dependencies_eq_ok {s s' : Session} {f : FuncId} {deps : List FuncId}
    (h : dependencies f s = .ok deps s') : s' = s := by
  unfold dependencies at h
  dsimp only at h
  split at h
  · exact nomatch h
  · exact (EStateM.Result.ok.inj h).2.symm

theorem of_checkTypes_eq_ok {w w' : Workspace} (h : checkTypes w = .ok () w') :
    ∃ c, Checking.checkAll w.registry.functions w.registry.listing { report := w.report } = .ok () c ∧
      w' = { w with report := c.report } := by
  unfold checkTypes at h
  split at h
  · rename_i c hc
    exact ⟨c, hc, (EStateM.Result.ok.inj h).2.symm⟩
  · exact nomatch h

theorem of_requireClean_eq_ok {s s' : Session} (h : requireClean s = .ok () s') :
    s' = s ∧ s.workspace.report.entries = [] := by
  unfold requireClean at h
  rw [get_bind] at h
  cases hf : s.workspace.report.failed with
  | true => simp only [hf, if_true] at h; exact nomatch h
  | false =>
      simp only [hf, Bool.false_eq_true, if_false] at h
      exact ⟨(EStateM.Result.ok.inj h).2.symm, by simpa [Report.failed] using hf⟩

theorem of_check_eq_ok {s s' : Session} {name text : Bytes} {deps : List FuncId}
    (h : check name text s = .ok deps s') :
    ∃ s₁ f c, parse name text s = .ok () s₁ ∧ findEntry s₁ = .ok f s₁ ∧
      Checking.checkAll s₁.workspace.registry.functions s₁.workspace.registry.listing
        { report := s₁.workspace.report } = .ok () c ∧
      c.report.entries = [] ∧ s' = { s₁ with workspace := { s₁.workspace with report := c.report } } := by
  unfold check at h
  obtain ⟨⟨⟩, s₁, hparse, h₁⟩ := bind_eq_ok.1 h
  obtain ⟨f, s₂, hentry, h₂⟩ := bind_eq_ok.1 h₁
  obtain ⟨rfl, -⟩ := of_findEntry_eq_ok hentry
  obtain ⟨deps', s₃, hdeps, h₃⟩ := bind_eq_ok.1 h₂
  obtain rfl := of_dependencies_eq_ok hdeps
  obtain ⟨⟨⟩, s₄, hbuilding, h₄⟩ := bind_eq_ok.1 h₃
  obtain ⟨w, hw, rfl⟩ := of_building_eq_ok hbuilding
  obtain ⟨c, hc, rfl⟩ := of_checkTypes_eq_ok hw
  obtain ⟨⟨⟩, s₅, hrequire, h₅⟩ := bind_eq_ok.1 h₄
  obtain ⟨rfl, hclean⟩ := of_requireClean_eq_ok hrequire
  exact ⟨s₃, f, c, hparse, hentry, hc, hclean, (EStateM.Result.ok.inj h₅).2.symm⟩

/-- Functions in which the checker finds nothing may be evaluated. -/
theorem Settled.checked {w : Workspace} (h : Settled w) {c : Checker}
    (hc : Checking.checkAll w.registry.functions w.registry.listing { report := w.report } = .ok () c)
    (hclean : c.report.entries = []) : w.registry.functions.Checked := by
  have hfns := h.sound.wellFormed.scoped h.scopes
  refine ⟨hfns, fun f fn hf hk => ?_⟩
  obtain ⟨ds, hds, hrun⟩ := Checking.checkAll_eq hfns fun f => h.sound.wellFormed.lt_of_mem_listing
  obtain ⟨results, he⟩ := hrun { report := w.report } ⟨rfl, fun _ _ h => (nomatch h), fun _ h => (nomatch h)⟩
    (by simp [Report.stopped, h.clean])
  obtain ⟨-, rfl⟩ := EStateM.Result.ok.inj (he.symm.trans hc)
  obtain rfl := Checker.eq_nil_of_foldl_record rfl hclean
  have hlisted : f ∈ w.registry.listing :=
    Registry.mem_listing.2 ⟨fn.name, Registry.mem_of_lookup (h.sound.current h.clean f fn hf)⟩
  refine (hfns.bodies f fn hf hk).ready (fun call hcall => (hfns.calls f fn hf call hcall).2) fun site hsite => ?_
  refine hds.casts_of_nil site (List.mem_flatMap.2 ⟨f, hlisted, ?_⟩)
  simpa only [Functions.sites, hf] using hsite

/-- Running the entry of a program that is accepted does not get stuck, and the value of every call that ends belongs
to the result type of the function. -/
theorem run_of_check (arith : Operation → Double → Double → Double) {s s' : Session} (hs : Parsed s)
    {name text : Bytes} {deps : List FuncId} (h : check name text s = .ok deps s') :
    ∃ (f : FuncId) (fn : Function), s'.workspace.registry.lookup s'.entry = some f ∧
      s'.workspace.registry.functions[f]? = some fn ∧ fn.kind = .custom ∧ fn.params = [] ∧
      (∀ n why, Machine.run s'.workspace.registry.functions arith n (Machine.start f) ≠ .stuck why) ∧
      ∀ n v g stack, Machine.run s'.workspace.registry.functions arith n (Machine.start f) =
          .next ⟨.give v, .body g :: stack⟩ →
        ∃ t c, Checking.resultType s'.workspace.registry.functions g {} = .ok t c ∧ v.Holds t := by
  obtain ⟨s₁, f, c, hparse, hentry, hcheck, hclean, rfl⟩ := of_check_eq_ok h
  obtain ⟨-, hlookup, fn, hf, hk, hp⟩ := of_findEntry_eq_ok hentry
  have hchecked := (hs.settled.parse hparse).checked hcheck hclean
  have hgood (n : Nat) := Machine.run_good arith hchecked n (Machine.start_good hf hp)
  refine ⟨f, fn, hlookup, hf, hk, hp, fun n why he => ?_, fun n v g stack he => ?_⟩
  · have := hgood n
    rw [he] at this
    exact this
  · have hend := hgood n
    rw [he] at hend
    obtain ⟨t, ht, hv⟩ := Machine.holds_of_good hend
    obtain ⟨c, hc⟩ := Checking.resultType_eq hchecked.fits ht
    exact ⟨t, c, hc, hv⟩

/-- A program with a call inside of a call is accepted, and does not get stuck. -/
theorem run_of_check_nested :
    ∃ deps s' f, check (utf8 "a") (utf8 "function inc number a => core/add a 1 function main => core/cat inc inc 2")
        (make none (Resolver.make [] []) [] 1 true) = .ok deps s' ∧
      ∀ n why, Machine.run s'.workspace.registry.functions (fun _ a _ => a) n (Machine.start f) ≠ .stuck why := by
  obtain ⟨deps, s', h⟩ := exists_of_ends (show ends (check (utf8 "a")
    (utf8 "function inc number a => core/add a 1 function main => core/cat inc inc 2")
    (make none (Resolver.make [] []) [] 1 true)) = true by decide +kernel)
  obtain ⟨f, -, -, -, -, -, hrun, -⟩ := run_of_check (fun _ a _ => a) (.fresh none (Resolver.make [] []) [] 1 true) h
  exact ⟨deps, s', f, h, hrun⟩

end Session

end Polish
