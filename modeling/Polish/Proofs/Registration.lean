import Polish.Proofs.Lists
import Polish.Proofs.Runs.Session
import Mathlib.Data.List.Nodup
import Mathlib.Logic.Relation

namespace Polish

namespace Expr

mutual

def calls : Expr → List (FuncId × List Expr)
  | .call _ f args => (f, args) :: callsList args
  | .relocated _ x => calls x
  | .closure _ _ body => calls body
  | .hole | .number _ _ | .text _ _ | .var _ _ => []

def callsList : List Expr → List (FuncId × List Expr)
  | [] => []
  | x :: xs => calls x ++ callsList xs

end

theorem mem_callsList {call : FuncId × List Expr} {xs : List Expr} :
    call ∈ callsList xs ↔ ∃ x ∈ xs, call ∈ x.calls := by
  induction xs with
  | nil => simp [callsList]
  | cons x xs ih => simp [callsList, ih]

end Expr

def Functions.Calls (fns : Functions) (f g : FuncId) : Prop :=
  ∃ fn args, fns[f]? = some fn ∧ (g, args) ∈ fn.body.calls

theorem Grammar.Exprs.calls {src : Source} {registry : Registry} {scope : Parser.Bindings} {c d : Cursor} {xs : List Expr}
    {notes : List Diagnostic} (h : Exprs src registry scope c xs notes d) :
    ∀ call ∈ Expr.callsList xs,
      (∃ word, registry.lookup word = some call.1) ∧ call.2.length = registry.arity call.1 := by
  induction h with
  | nil => simp [Expr.callsList]
  | text _ _ ih | number _ _ _ ih | bound _ _ _ _ ih | unresolved _ _ _ _ _ ih =>
      simpa [Expr.callsList, Expr.calls] using ih
  | group _ _ _ _ ih1 ih2 =>
      simp only [Expr.callsList, List.append_nil, List.mem_append] at ih1 ih2 ⊢
      exact fun call h => h.elim (ih1 call) (ih2 call)
  | closure _ _ _ _ _ ih1 ih2 =>
      simp only [Expr.callsList, Expr.calls, List.append_nil, List.mem_append] at ih1 ih2 ⊢
      exact fun call h => h.elim (ih1 call) (ih2 call)
  | call _ _ _ hr hl _ _ ih1 ih2 =>
      simp only [Expr.callsList, Expr.calls, List.mem_append, List.mem_cons] at ih2 ⊢
      rintro call ((rfl | h) | h)
      · exact ⟨⟨_, hr⟩, hl⟩
      · exact ih1 call h
      · exact ih2 call h

namespace Registry

structure WellFormed (r : Registry) : Prop where
  named : ∀ (name : Bytes) (f : FuncId), (name, f) ∈ r.names →
    ∃ fn : Function, r.functions[f]? = some fn ∧ fn.name = name ∧ fn.kind ≠ .pending
  keys : (r.names.map (·.1)).Nodup
  kinds : ∀ (f : FuncId) (fn : Function), r.functions[f]? = some fn →
    fn ∈ natives ∨ fn.kind = .pending ∨ fn.kind = .custom
  calls : ∀ (f : FuncId) (fn : Function), r.functions[f]? = some fn → ∀ call ∈ fn.body.calls, call.1 ≤ f ∧
    ∃ callee : Function, r.functions[call.1]? = some callee ∧ callee.kind ≠ .pending ∧
      call.2.length = callee.params.length

theorem mem_of_lookup {r : Registry} {name : Bytes} {f : FuncId} (h : r.lookup name = some f) :
    (name, f) ∈ r.names := by
  obtain ⟨l₁, l₂, he, -⟩ := List.lookup_eq_some_iff.1 h
  simp [he]

theorem names_declare (r : Registry) (fn : Function) :
    (r.declare fn).names = (fn.name, r.functions.size) :: r.names.filter (·.1 != fn.name) := rfl

theorem lookup_declare_self (r : Registry) (fn : Function) :
    (r.declare fn).lookup fn.name = some r.functions.size := lookup_bind_self _ _ _

theorem lookup_declare_of_ne (r : Registry) (fn : Function) {name : Bytes} (h : name ≠ fn.name) :
    (r.declare fn).lookup name = r.lookup name := lookup_bind_of_ne _ h _

theorem getElem?_declare {r : Registry} {f : FuncId} {g : Function} (fn : Function) (h : r.functions[f]? = some g) :
    (r.declare fn).functions[f]? = some g := by
  obtain ⟨hf, rfl⟩ := Array.getElem?_eq_some_iff.1 h
  exact (Array.getElem?_push_lt hf).trans rfl

theorem getElem?_declare_self (r : Registry) (fn : Function) :
    (r.declare fn).functions[r.functions.size]? = some fn := Array.getElem?_push_size

theorem of_getElem?_declare {r : Registry} {fn g : Function} {f : FuncId}
    (h : (r.declare fn).functions[f]? = some g) :
    r.functions[f]? = some g ∨ f = r.functions.size ∧ fn = g := by
  have h : (r.functions.push fn)[f]? = some g := h
  rw [Array.getElem?_push] at h
  split at h
  · exact .inr ⟨‹_›, Option.some.inj h⟩
  · exact .inl h

theorem names_remove_declare (r : Registry) (fn : Function) :
    ((r.declare fn).remove fn.name r.functions.size).names = r.names.filter (·.1 != fn.name) := by
  rw [remove, if_pos (lookup_declare_self r fn), names_declare, List.filter_cons]
  simp [List.filter_filter]

theorem functions_remove (r : Registry) (name : Bytes) (f : FuncId) :
    (r.remove name f).functions = r.functions := by
  unfold remove
  split <;> rfl

/-- The body of a new function is read where the function is registered already, still pending. -/
theorem WellFormed.declare {r : Registry} (h : r.WellFormed) {name : Bytes} {params : List Param} {location : Location}
    {body : Expr} (hcalls : ∀ call ∈ body.calls,
      (∃ word, (r.declare (.awaiting name params location)).lookup word = some call.1) ∧
        call.2.length = (r.declare (.awaiting name params location)).arity call.1) :
    (r.declare (.custom name params location body)).WellFormed where
  named := by
    intro other f hmem
    rw [names_declare, List.mem_cons] at hmem
    obtain he | hmem := hmem
    · obtain ⟨rfl, rfl⟩ := Prod.mk.inj he
      exact ⟨_, getElem?_declare_self r _, rfl, by simp [Function.custom]⟩
    · obtain ⟨fn, hfn, hrest⟩ := h.named other f (List.mem_filter.1 hmem).1
      exact ⟨fn, getElem?_declare _ hfn, hrest⟩
  keys := by
    rw [names_declare, List.map_cons, List.nodup_cons]
    refine ⟨fun hmem => ?_, h.keys.sublist (List.filter_sublist.map _)⟩
    obtain ⟨entry, hentry, he⟩ := List.mem_map.1 hmem
    simpa [he] using (List.mem_filter.1 hentry).2
  kinds := by
    intro f fn hfn
    obtain hfn | ⟨rfl, rfl⟩ := of_getElem?_declare hfn
    · exact h.kinds f fn hfn
    · exact .inr (.inr rfl)
  calls := by
    intro f fn hfn call hcall
    obtain hfn | ⟨rfl, rfl⟩ := of_getElem?_declare hfn
    · obtain ⟨hle, callee, hcallee, hrest⟩ := h.calls f fn hfn call hcall
      exact ⟨hle, callee, getElem?_declare _ hcallee, hrest⟩
    · obtain ⟨⟨word, hword⟩, hlen⟩ := hcalls call hcall
      have hmem := mem_of_lookup hword
      rw [names_declare, List.mem_cons] at hmem
      rw [arity] at hlen
      obtain he | hmem := hmem
      · obtain ⟨-, he⟩ := Prod.mk.inj he
        rw [he, getElem?_declare_self] at hlen
        exact ⟨Nat.le_of_eq he, .custom name params location body, he.symm ▸ hfn, by simp [Function.custom], hlen⟩
      · obtain ⟨callee, hcallee, -, hkind⟩ := h.named word call.1 (List.mem_filter.1 hmem).1
        have hlt := (Array.getElem?_eq_some_iff.1 hcallee).1
        rw [getElem?_declare _ hcallee] at hlen
        exact ⟨Nat.le_of_lt hlt, callee, getElem?_declare _ hcallee, hkind, hlen⟩

/-- A function that is given up stays in the table, but nothing refers to it. -/
theorem WellFormed.drop {r : Registry} (h : r.WellFormed) (name : Bytes) (params : List Param) (location : Location) :
    ((r.declare (.awaiting name params location)).remove name r.functions.size).WellFormed := by
  have hnames : ((r.declare (.awaiting name params location)).remove name r.functions.size).names = _ :=
    names_remove_declare r (.awaiting name params location)
  constructor
  · intro other f hmem
    rw [hnames] at hmem
    obtain ⟨fn, hfn, hrest⟩ := h.named other f (List.mem_filter.1 hmem).1
    exact ⟨fn, by rw [functions_remove]; exact getElem?_declare _ hfn, hrest⟩
  · rw [hnames]
    exact h.keys.sublist (List.filter_sublist.map _)
  · intro f fn hfn
    rw [functions_remove] at hfn
    obtain hfn | ⟨rfl, rfl⟩ := of_getElem?_declare hfn
    · exact h.kinds f fn hfn
    · exact .inr (.inl rfl)
  · intro f fn hfn call hcall
    rw [functions_remove] at hfn ⊢
    obtain hfn | ⟨rfl, rfl⟩ := of_getElem?_declare hfn
    · obtain ⟨hle, callee, hcallee, hrest⟩ := h.calls f fn hfn call hcall
      exact ⟨hle, callee, getElem?_declare _ hcallee, hrest⟩
    · simp [Function.awaiting, Expr.calls] at hcall

theorem functions_markImported (r : Registry) (path : Bytes) :
    (r.markImported path).functions = r.functions := by
  unfold Registry.markImported
  split <;> rfl

theorem WellFormed.markImported {r : Registry} (h : r.WellFormed) (path : Bytes) : (r.markImported path).WellFormed := by
  unfold Registry.markImported
  split
  · exact h
  · exact ⟨h.named, h.keys, h.kinds, h.calls⟩

theorem mem_natives {f : FuncId} {fn : Function} (h : initial.functions[f]? = some fn) : fn ∈ natives :=
  List.mem_of_getElem? ((List.getElem?_toArray ..).symm.trans h)

theorem kind_native : ∀ fn ∈ natives, fn.kind = .native := by decide

theorem body_native : ∀ fn ∈ natives, fn.body = .hole := by simp [natives]

theorem wellFormed_initial : initial.WellFormed where
  named := by
    intro name f hmem
    obtain ⟨i, hi, he⟩ := List.mem_mapIdx.1 hmem
    obtain ⟨rfl, rfl⟩ := Prod.mk.inj he
    exact ⟨_, (List.getElem?_toArray ..).trans (List.getElem?_eq_getElem hi), rfl,
      by simp [kind_native _ (List.getElem_mem hi)]⟩
  keys := by decide
  kinds := fun f fn hfn => .inl (mem_natives hfn)
  calls := by
    intro f fn hfn call hcall
    simp [body_native fn (mem_natives hfn), Expr.calls] at hcall

/-- Every function of the table is the one that its name stands for. -/
def Current (r : Registry) : Prop :=
  ∀ (f : FuncId) (fn : Function), r.functions[f]? = some fn → r.lookup fn.name = some f

theorem Current.declare {r : Registry} (h : r.Current) {fn : Function} (hnew : r.lookup fn.name = none) :
    (r.declare fn).Current := by
  intro f g hg
  obtain hg | ⟨rfl, rfl⟩ := of_getElem?_declare hg
  · have hf := h f g hg
    have hne : g.name ≠ fn.name := by
      intro he
      rw [he, hnew] at hf
      exact nomatch hf
    rw [lookup_declare_of_ne r fn hne, hf]
  · exact lookup_declare_self r fn

theorem Current.markImported {r : Registry} (h : r.Current) (path : Bytes) : (r.markImported path).Current := by
  unfold Registry.markImported
  split <;> exact h

theorem current_initial : initial.Current := by
  have hall : ∀ i : Fin natives.length, initial.lookup natives[i].name = some i.1 := by decide
  intro f fn hfn
  obtain ⟨hf, rfl⟩ := Array.getElem?_eq_some_iff.1 hfn
  exact hall ⟨f, hf⟩

theorem mem_listing {r : Registry} {f : FuncId} : f ∈ r.listing ↔ ∃ name, (name, f) ∈ r.names := by
  simp [listing]

theorem WellFormed.pending?_eq_none {r : Registry} (h : r.WellFormed) : r.pending? = none := by
  rw [pending?, List.findSome?_eq_none_iff]
  intro f hf
  obtain ⟨name, hname⟩ := mem_listing.1 hf
  obtain ⟨fn, hfn, -, hkind⟩ := h.named name f hname
  simp only [hfn, if_neg hkind]

theorem WellFormed.lt_of_mem_listing {r : Registry} (h : r.WellFormed) {f : FuncId} (hf : f ∈ r.listing) :
    f < r.functions.size := by
  obtain ⟨name, hname⟩ := mem_listing.1 hf
  obtain ⟨fn, hfn, -⟩ := h.named name f hname
  exact (Array.getElem?_eq_some_iff.1 hfn).1

theorem WellFormed.nodup_listing {r : Registry} (h : r.WellFormed) : r.listing.Nodup := by
  have hnames : (r.names.map (·.2)).Nodup := by
    refine List.Nodup.map_on (fun a ha b hb he => ?_) (List.Nodup.of_map _ h.keys)
    obtain ⟨fn, hfn, hname, -⟩ := h.named a.1 a.2 ha
    obtain ⟨fn', hfn', hname', -⟩ := h.named b.1 b.2 hb
    rw [he, hfn'] at hfn
    exact Prod.ext (hname.symm.trans (Option.some.inj hfn ▸ hname')) he
  rw [listing, Sorting.sort_eq_insertionSort]
  exact ((List.perm_insertionSort _ _).map _).nodup_iff.2 hnames

/-- Calls that lead from one function to another and back are of one function only. -/
theorem WellFormed.eq_of_transGen {r : Registry} (h : r.WellFormed) {f g : FuncId}
    (hfg : Relation.TransGen r.functions.Calls f g) (hgf : Relation.TransGen r.functions.Calls g f) : f = g := by
  have hle {f g : FuncId} (hfg : Relation.TransGen r.functions.Calls f g) : g ≤ f := by
    induction hfg with
    | single hcall =>
        obtain ⟨fn, args, hfn, hmem⟩ := hcall
        exact (h.calls _ fn hfn _ hmem).1
    | tail _ hcall ih =>
        obtain ⟨fn, args, hfn, hmem⟩ := hcall
        exact Nat.le_trans (h.calls _ fn hfn _ hmem).1 ih
  exact Nat.le_antisymm (hle hgf) (hle hfg)

end Registry

section Runs

variable {resolver : Resolver} {read : Option (Bytes → Except FileError Bytes)} {depth : Nat} {src : Source}
  {c : Cursor} {w w' : Workspace}

theorem Runs.wellFormed (h : Runs resolver read depth src c w w') (hw : w.registry.WellFormed) :
    w'.registry.WellFormed := by
  induction h with
  | done => exact hw
  | declared hk hs hb rest ih => exact ih (hw.declare (by simpa [Expr.callsList] using hb.calls))
  | dropped hk hs he hn rest ih => exact ih (hw.drop _ _ _)
  | refused he hlt hn rest ih => exact ih hw
  | known hr hk hq hp hi rest ih => exact ih hw
  | unreadable hr hk hq hp hi hl rest ih => exact ih (hw.markImported _)
  | included hr hk hq hp hi hl file rest ih1 ih2 => exact ih2 (ih1 (hw.markImported _))
  | unread hr hk hq hp hi hl rest ih => exact ih (hw.markImported _)

theorem CleanRuns.current (h : CleanRuns resolver read depth src c w w') (hw : w.registry.Current) :
    w'.registry.Current := by
  induction h with
  | done => exact hw
  | declared hk hs hnew hb rest ih => exact ih (hw.declare hnew)
  | known hr hk hq hp hi rest ih => exact ih hw
  | included hr hk hq hp hi hl file rest ih1 ih2 => exact ih2 (ih1 (hw.markImported _))
  | unread hr hk hq hp hi hl rest ih => exact ih (hw.markImported _)

end Runs

namespace Session

structure Sound (w : Workspace) : Prop where
  wellFormed : w.registry.WellFormed
  current : w.report.entries = [] → w.registry.Current

theorem sound_initial : Sound {} := ⟨Registry.wellFormed_initial, fun _ => Registry.current_initial⟩

theorem functions_entering (w : Workspace) (path : Bytes) :
    (entering w path).registry.functions = w.registry.functions := by
  unfold entering
  split
  · rfl
  · exact Registry.functions_markImported _ _

theorem Sound.entering {w : Workspace} (h : Sound w) (path : Bytes) : Sound (entering w path) := by
  unfold Session.entering
  split
  · exact h
  · exact ⟨h.wellFormed.markImported path, fun hclean => (h.current hclean).markImported path⟩

theorem Sound.runs {resolver : Resolver} {read : Option (Bytes → Except FileError Bytes)} {depth : Nat} {src : Source}
    {c : Cursor} {w w' : Workspace} (h : Sound w) (hruns : Runs resolver read depth src c w w') : Sound w' := by
  refine ⟨hruns.wellFormed h.wellFormed, fun hclean => (hruns.clean hclean).current (h.current ?_)⟩
  exact List.prefix_nil.1 (hclean ▸ hruns.entries_isPrefix)

theorem sound_parses {s : Session} {l : Loader} (hl : s.loader = some l) (h : Sound s.workspace)
    (inputs : List (Bytes × Bytes)) : Sound (parses inputs s).workspace := by
  induction inputs generalizing s with
  | nil => exact h
  | cons input inputs ih =>
      obtain ⟨w, hruns, he⟩ := after_parse hl input.1 input.2
      rw [parses, he]
      exact ih hl ((h.entering _).runs hruns)

/-- Whatever texts are parsed, and whatever the loader gives for their imports, the names stand for functions of
these names that have their bodies; calls fit the functions that they call; and these were made no later than the
function that calls them, so that only a function that calls itself is in a cycle. As long as nothing is reported,
a call is of the function that its name stands for. -/
theorem registry_after_parses (loader : Loader) (resolver : Resolver) (entry : Bytes) (seed : Int) (follow : Bool)
    (inputs : List (Bytes × Bytes)) :
    let w := (parses inputs (make (some loader) resolver entry seed follow)).workspace
    (∀ (name : Bytes) (f : FuncId), w.registry.lookup name = some f →
      ∃ fn : Function, w.registry.functions[f]? = some fn ∧ fn.name = name ∧ (fn.kind = .native ∨ fn.kind = .custom)) ∧
    w.registry.pending? = none ∧
    (∀ (f : FuncId) (fn : Function), w.registry.functions[f]? = some fn → ∀ call ∈ fn.body.calls, call.1 ≤ f ∧
      ∃ callee : Function, w.registry.functions[call.1]? = some callee ∧ callee.kind ≠ .pending ∧
        call.2.length = callee.params.length ∧
        (w.report.entries = [] → w.registry.lookup callee.name = some call.1)) ∧
    ∀ f g : FuncId, Relation.TransGen w.registry.functions.Calls f g →
      Relation.TransGen w.registry.functions.Calls g f → f = g := by
  intro w
  have h : Sound w := sound_parses rfl sound_initial inputs
  refine ⟨?_, h.wellFormed.pending?_eq_none, ?_, fun f g => h.wellFormed.eq_of_transGen⟩
  · intro name f hlookup
    obtain ⟨fn, hfn, hname, hkind⟩ := h.wellFormed.named name f (Registry.mem_of_lookup hlookup)
    obtain hnative | hpending | hcustom := h.wellFormed.kinds f fn hfn
    · exact ⟨fn, hfn, hname, .inl (Registry.kind_native fn hnative)⟩
    · exact absurd hpending hkind
    · exact ⟨fn, hfn, hname, .inr hcustom⟩
  · intro f fn hfn call hcall
    obtain ⟨hle, callee, hcallee, hkind, hlen⟩ := h.wellFormed.calls f fn hfn call hcall
    exact ⟨hle, callee, hcallee, hkind, hlen, fun hclean => h.current hclean _ callee hcallee⟩

end Session

end Polish
