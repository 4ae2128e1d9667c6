import Polish.Proofs.Runs.Source

namespace Polish

namespace Session

def entering (w : Workspace) (path : Bytes) : Workspace :=
  if path.isEmpty then w else w.withRegistry (w.registry.markImported path)

theorem isImported_entering (w : Workspace) (path : Bytes) :
    path = [] ∨ (entering w path).registry.isImported path = true := by
  unfold entering
  split
  · exact .inl (List.isEmpty_iff.1 ‹_›)
  · exact .inr (by simp [Workspace.withRegistry, Registry.isImported_markImported])

def after {α : Type} (stage : Compiling α) (s : Session) : Session :=
  match stage s with
  | .ok _ s' | .error _ s' => s'

def parses : List (Bytes × Bytes) → Session → Session
  | [], s => s
  | (name, text) :: inputs, s => parses inputs (after (parse name text) s)

def outcome (s : Session) (w : Workspace) : EStateM.Result (Halt Rejection) Session Unit :=
  if w.report.failed then .error (.failure (.problems w.report)) { s with workspace := w }
  else match w.registry.pending? with
    | some name => .error (.failure (.leftPending name)) { s with workspace := w }
    | none => .ok () { s with workspace := w }

theorem outcome_eq_ok {s s' : Session} {w : Workspace} (h : outcome s w = .ok () s') :
    s' = { s with workspace := w } ∧ w.report.entries = [] ∧ w.registry.pending? = none := by
  unfold outcome at h
  split at h
  · exact nomatch h
  · split at h
    · exact nomatch h
    · obtain ⟨-, rfl⟩ := EStateM.Result.ok.inj h
      exact ⟨rfl, by simpa [Report.failed] using ‹¬ w.report.failed = true›, ‹_›⟩

theorem building_ok {α : Type} {stage : Build α} {s : Session} {a : α} {w : Workspace}
    (h : stage s.workspace = .ok a w) : building stage s = .ok a { s with workspace := w } := by
  simp only [building, h]

theorem of_building_eq_ok {α : Type} {stage : Build α} {s s' : Session} {a : α}
    (h : building stage s = .ok a s') : ∃ w, stage s.workspace = .ok a w ∧ s' = { s with workspace := w } := by
  cases hw : stage s.workspace with
  | ok b w =>
      obtain ⟨rfl, rfl⟩ := EStateM.Result.ok.inj ((building_ok hw).symm.trans h)
      exact ⟨w, rfl, rfl⟩
  | error e w =>
      simp only [building, hw] at h
      exact nomatch h

theorem outcome_eq (s : Session) (w : Workspace) :
    (do requireClean; requireComplete : Compiling Unit) { s with workspace := w } = outcome s w := by
  cases hf : w.report.failed with
  | true =>
      have hclean : requireClean { s with workspace := w } =
          .error (.failure (.problems w.report)) { s with workspace := w } := by
        simp only [requireClean, get_bind, hf, if_true]
        rfl
      rw [bind_error hclean, outcome, if_pos hf]
  | false =>
      have hclean : requireClean { s with workspace := w } = .ok () { s with workspace := w } := by
        simp only [requireClean, get_bind, hf, Bool.false_eq_true, if_false]
        rfl
      rw [bind_ok hclean, outcome, hf, if_neg Bool.false_ne_true, requireComplete, get_bind]
      cases w.registry.pending? <;> rfl

theorem readSource_eq (s : Session) (src : Source) (w : Workspace) :
    readSource s src w = Build.source s.resolver (some (Loader.importer s.loader s.resolver s.importDepth)) src
      (entering w src.path) := by
  unfold readSource entering
  cases src.path.isEmpty <;> rfl

/-- With a loader parsing is a run on the workspace. -/
theorem parse_runs {s : Session} {l : Loader} (hl : s.loader = some l) (name text : Bytes) :
    ∃ w, Runs s.resolver (some (Loader.reading s.loader)) s.importDepth ⟨mainPath name, text⟩
        (Source.start ⟨mainPath name, text⟩) (entering s.workspace (mainPath name)) w ∧
      parse name text s = outcome s w := by
  have himport : ∀ run, some (Loader.importer s.loader s.resolver s.importDepth) = some run →
      ∀ path here w, ∃ w', run path here w = .ok () w' := by
    rintro run ⟨rfl⟩
    rw [hl]
    exact Loader.importer_total l s.resolver s.importDepth
  obtain ⟨w, hw⟩ := Build.chunks_total himport ⟨mainPath name, text⟩ (text.length + 1)
    (Source.start ⟨mainPath name, text⟩) (entering s.workspace (mainPath name))
  refine ⟨w, Build.source_runs hw, ?_⟩
  rw [parse, get_bind, bind_ok (building_ok ((readSource_eq s _ _).trans hw))]
  exact outcome_eq s w

theorem runs_of_parse {s s' : Session} {name text : Bytes} (h : parse name text s = .ok () s') :
    ∃ w, Runs s.resolver (some (Loader.reading s.loader)) s.importDepth ⟨mainPath name, text⟩
        (Source.start ⟨mainPath name, text⟩) (entering s.workspace (mainPath name)) w ∧
      w.report.entries = [] ∧ s' = { s with workspace := w } := by
  rw [parse, get_bind, bind_eq_ok] at h
  obtain ⟨⟨⟩, s₁, hbuilding, h⟩ := h
  obtain ⟨w, hw, rfl⟩ := of_building_eq_ok hbuilding
  rw [readSource_eq] at hw
  obtain ⟨rfl, hclean, -⟩ := outcome_eq_ok ((outcome_eq s w).symm.trans h)
  exact ⟨w, Build.source_runs hw, hclean, rfl⟩

theorem after_parse {s : Session} {l : Loader} (hl : s.loader = some l) (name text : Bytes) :
    ∃ w, Runs s.resolver (some (Loader.reading s.loader)) s.importDepth ⟨mainPath name, text⟩
        (Source.start ⟨mainPath name, text⟩) (entering s.workspace (mainPath name)) w ∧
      after (parse name text) s = { s with workspace := w } := by
  obtain ⟨w, hruns, he⟩ := parse_runs hl name text
  refine ⟨w, hruns, ?_⟩
  rw [after, he, outcome]
  cases w.report.failed with
  | true => rfl
  | false => cases w.registry.pending? <;> rfl

end Session

end Polish
