import Polish.Proofs.Placement
import Polish.Proofs.Rereading

namespace Polish

open Grammar

theorem Functions.nodup_declared (fns : Functions) : (fns.declared.map (·.1)).Nodup := by
  have hsublist : (fns.declared.map (·.1)).Sublist ((fns.toList.zipIdx.map Prod.swap).map (·.1)) :=
    List.filter_sublist.map _
  refine List.Nodup.sublist hsublist ?_
  rw [List.map_map]
  change (fns.toList.zipIdx.map Prod.snd).Nodup
  rw [List.zipIdx_map_snd]
  exact List.nodup_range'

def Functions.PathOrdered (fns : Functions) : Prop :=
  ∀ (f : FuncId) (fn : Function), fns[f]? = some fn → ∀ g ∈ fn.body.callees, ∀ gn : Function, fns[g]? = some gn →
    gn.location.path ≤ fn.location.path

def Print.CalleesFirst (entries : List (FuncId × Function)) : Prop := entries.Pairwise fun a b => b.1 ∉ a.2.body.callees

instance (entries : List (FuncId × Function)) : Decidable (Print.CalleesFirst entries) :=
  inferInstanceAs (Decidable (entries.Pairwise fun a b => b.1 ∉ a.2.body.callees))

namespace Registry

theorem Grows.indexed {r r' : Registry} {added : List Function} (h : r.Grows added r') (hr : r.Indexed) : r'.Indexed := by
  induction h with
  | nil => exact hr
  | cons hnew _ _ _ _ _ ih => exact ih (hr.declare hnew)

/-- Functions that were declared one after the other can be defined where all of them are known. -/
theorem Grows.definable {r r' : Registry} {added : List Function} (h : r.Grows added r') (hr : r.Indexed) :
    ∀ fn ∈ added, fn.Definable r' := by
  induction h with
  | nil => exact List.forall_mem_nil _
  | @cons r r' name params location body fns hnew hw ha hp hb rest ih =>
      have hindexed : (r.declare (.custom name params location body)).Indexed := hr.declare hnew
      have hlater := rest.getElem?
      have hnext : r.Next (.custom name params location body) r' := {
        indexed := rest.indexed hindexed
        indexed_before := hr
        new := hnew
        found := (hlater _).2 _ (getElem?_declare_self r _)
        earlier := fun f hf => by
          have hknown := Array.getElem?_eq_getElem hf
          rw [hknown]
          exact (hlater f).2 _ (getElem?_declare _ hknown) }
      refine List.forall_mem_cons.2 ⟨⟨rfl, hw, ha, hp, ?_⟩, ih hindexed⟩
      rw [← Expr.renamed_id (Function.custom name params location body).body]
      exact hb.renamed id fun name f hf _ => (hnext.lookup_awaiting location hf).2

/-- A program of several files: its functions in the order of their declarations, which is their order in each file. -/
structure Filed (r : Registry) (added : List Function) : Prop where
  grows : initial.Grows added r.unmarked
  wellFormed : r.WellFormed
  current : r.Current
  ordered : added.Pairwise fun a b => a.location.path = b.location.path → a.location.off < b.location.off

def printed (r : Registry) : List (FuncId × Function) := Print.sources r.functions r.listing

theorem declaredBefore_of_printed (r : Registry) {i j : Nat} {a b : FuncId × Function} (hi : r.printed[i]? = some a)
    (hj : r.printed[j]? = some b) (hij : i < j) : Print.declaredBefore a.2.location b.2.location = true := by
  obtain ⟨hi', rfl⟩ := List.getElem?_eq_some_iff.1 hi
  obtain ⟨hj', rfl⟩ := List.getElem?_eq_some_iff.1 hj
  exact List.pairwise_iff_getElem.1 (Print.sources_pairwise r.functions r.listing) i j hi' hj' hij

/-- The position that a function gets when the functions that are printed are declared in that order. -/
def place (r : Registry) (f : FuncId) : FuncId :=
  if f < initial.functions.size then f else initial.functions.size + (r.printed.map (·.1)).idxOf f

theorem place_of_native (r : Registry) {f : FuncId} (hf : f < initial.functions.size) : r.place f = f := if_pos hf

def reordered (r : Registry) : List Function := r.printed.map fun entry => entry.2.renamed r.place

structure Reorders (r : Registry) (ρ : FuncId → FuncId) (r' : Registry) : Prop where
  size : r'.functions.size = r.functions.size
  injective : ∀ (f g : FuncId) (fn gn : Function), r.functions[f]? = some fn → r.functions[g]? = some gn → ρ f = ρ g → f = g
  lookup : ∀ name, r'.lookup name = (r.lookup name).map ρ
  functions : ∀ f : FuncId, r'.functions[ρ f]?.map Function.unlocated =
    (r.functions[f]?.map (Function.renamed ρ)).map Function.unlocated

theorem path_native : ∀ fn ∈ natives, fn.location.path = [] := by simp [natives]

namespace Filed

variable {r : Registry} {added : List Function}

theorem declared (h : r.Filed added) : r.functions.declared = (added.zipIdx initial.functions.size).map Prod.swap :=
  h.grows.declared

theorem perm (h : r.Filed added) : r.printed.Perm r.functions.declared :=
  Print.sources_perm h.wellFormed h.current (List.Nodup.of_map _ r.functions.nodup_declared)

theorem nodup (h : r.Filed added) : (r.printed.map (·.1)).Nodup :=
  (h.perm.map _).nodup_iff.2 r.functions.nodup_declared

theorem mem_printed (h : r.Filed added) {f : FuncId} {fn : Function} :
    (f, fn) ∈ r.printed ↔ initial.functions.size ≤ f ∧ r.functions[f]? = some fn := by
  have hmem : (f, fn) ∈ r.printed ↔ (fn, f) ∈ added.zipIdx initial.functions.size := by
    rw [h.perm.mem_iff, h.declared]
    exact List.mem_map_of_injective Prod.swap_injective (a := (fn, f))
  rw [hmem, List.mem_zipIdx_iff_le_and_getElem?_sub]
  refine and_congr_right fun hle => ?_
  obtain ⟨i, rfl⟩ := Nat.exists_eq_add_of_le hle
  rw [Nat.add_sub_cancel_left, ← (h.grows.getElem? i).1]
  rfl

theorem native (h : r.Filed added) {f : FuncId} (hf : f < initial.functions.size) :
    r.functions[f]? = initial.functions[f]? := by
  have hnative := Array.getElem?_eq_getElem hf
  rw [hnative]
  exact (h.grows.getElem? f).2 _ hnative

theorem place_printed (h : r.Filed added) {i : Nat} {f : FuncId} {fn : Function} (hi : r.printed[i]? = some (f, fn)) :
    r.place f = initial.functions.size + i := by
  have hle := (h.mem_printed.1 (List.mem_of_getElem? hi)).1
  obtain ⟨hlt, hi⟩ := List.getElem?_eq_some_iff.1 hi
  have hindex := h.nodup.idxOf_getElem i (by rwa [List.length_map])
  rw [List.getElem_map, hi] at hindex
  rw [place, if_neg (Nat.not_lt.2 hle), hindex]

theorem exists_printed (h : r.Filed added) {f : FuncId} {fn : Function} (hle : initial.functions.size ≤ f)
    (hf : r.functions[f]? = some fn) : ∃ i, r.printed[i]? = some (f, fn) ∧ r.place f = initial.functions.size + i := by
  obtain ⟨i, hi⟩ := List.mem_iff_getElem?.1 (h.mem_printed.2 ⟨hle, hf⟩)
  exact ⟨i, hi, h.place_printed hi⟩

theorem getElem?_place (h : r.Filed added) (f : FuncId) :
    (initial.declareAll r.reordered).functions[r.place f]? = r.functions[f]?.map (Function.renamed r.place) := by
  by_cases hlt : f < initial.functions.size
  · rw [r.place_of_native hlt, getElem?_declareAll_of_lt hlt, h.native hlt]
    have hnative := Array.getElem?_eq_getElem hlt
    have hbody := body_native _ (mem_natives hnative)
    rw [hnative, Option.map_some, Function.renamed, hbody, Expr.renamed, ← hbody]
  have hle := Nat.not_lt.1 hlt
  cases hf : r.functions[f]? with
  | none =>
      have hnot : f ∉ r.printed.map (·.1) := by
        intro hmem
        obtain ⟨⟨_, fn⟩, hentry, rfl⟩ := List.mem_map.1 hmem
        rw [(h.mem_printed.1 hentry).2] at hf
        cases hf
      rw [place, if_neg hlt, getElem?_declareAll, List.idxOf_eq_length hnot, reordered]
      simp
  | some fn =>
      obtain ⟨i, hi, hplace⟩ := h.exists_printed hle hf
      rw [hplace, getElem?_declareAll, reordered, List.getElem?_map, hi]
      rfl

theorem exists_place (h : r.Filed added) {k : FuncId} {fn' : Function}
    (hk : (initial.declareAll r.reordered).functions[k]? = some fn') :
    ∃ f fn, r.place f = k ∧ r.functions[f]? = some fn ∧ fn.renamed r.place = fn' := by
  obtain ⟨f, rfl⟩ : ∃ f, r.place f = k := by
    by_cases hlt : k < initial.functions.size
    · exact ⟨k, r.place_of_native hlt⟩
    · obtain ⟨i, rfl⟩ := Nat.exists_eq_add_of_le (Nat.not_lt.1 hlt)
      rw [getElem?_declareAll, reordered, List.getElem?_map] at hk
      obtain ⟨⟨f, _⟩, hi, -⟩ := Option.map_eq_some_iff.1 hk
      exact ⟨f, h.place_printed hi⟩
  rw [h.getElem?_place] at hk
  obtain ⟨fn, hf, hfn⟩ := Option.map_eq_some_iff.1 hk
  exact ⟨f, fn, rfl, hf, hfn⟩

theorem indexed (h : r.Filed added) : r.Indexed := indexed_of_current h.wellFormed h.current

theorem eq_of_name (h : r.Filed added) {f g : FuncId} {fn gn : Function} (hf : r.functions[f]? = some fn)
    (hg : r.functions[g]? = some gn) (hname : fn.name = gn.name) : f = g := by
  have hlookup := h.current f fn hf
  rw [hname, h.current g gn hg] at hlookup
  exact (Option.some.inj hlookup).symm

theorem nodup_names (h : r.Filed added) : (r.functions.toList.map (·.name)).Nodup := by
  refine List.nodup_iff_getElem?_ne_getElem?.2 fun i j hij hj he => ?_
  have hj' : j < r.functions.size := by simpa using hj
  have hi' : i < r.functions.size := Nat.lt_trans hij hj'
  have hname : r.functions[i].name = r.functions[j].name := by simpa [hi', hj'] using he
  exact Nat.ne_of_lt hij (h.eq_of_name (Array.getElem?_eq_getElem hi') (Array.getElem?_eq_getElem hj') hname)

theorem textual (h : r.Filed added) : Textual r.reordered := by
  have hadded : r.functions.declared.map (·.2) = added := by
    rw [h.declared, List.map_map]
    exact List.zipIdx_map_fst _ _
  have hperm : (r.printed.map (·.2)).Perm added := hadded ▸ h.perm.map _
  have hnodup : ((initial.functions.toList ++ r.reordered).map (·.name)).Nodup := by
    have hnames : r.reordered.map (·.name) = (r.printed.map (·.2)).map (·.name) := by
      rw [reordered, List.map_map, List.map_map]
      rfl
    have hall : r.functions.toList = initial.functions.toList ++ added := h.grows.functions
    have hnodup := h.nodup_names
    rw [hall, List.map_append] at hnodup
    rw [List.map_append, hnames]
    exact (((hperm.map _).append_left _).nodup_iff).2 hnodup
  refine ⟨hnodup, List.forall_mem_map.2 fun entry hentry => ?_⟩
  obtain ⟨hc, hw, ha, hp, hb⟩ := h.grows.definable indexed_initial entry.2
    (hperm.mem_iff.1 (List.mem_map_of_mem hentry))
  refine ⟨?_, hw, ha, hp, hb.renamed r.place fun name f hf _ => ?_⟩
  · rw [Function.renamed, hc]
    rfl
  · refine h.indexed.lookup_of (indexed_initial.declareAll hnodup) hf fun fn hfn => ?_
    exact ⟨fn.renamed r.place, by rw [h.getElem?_place, hfn]; rfl, rfl, rfl⟩

theorem functions_eq (h : r.Filed added) : Print.functions r.functions r.listing =
    Print.functionList (initial.declareAll r.reordered).functions
      ((r.reordered.zipIdx initial.functions.size).map Prod.swap) := by
  have hentries : r.printed.map (Prod.map r.place (Function.renamed r.place)) =
      (r.reordered.zipIdx initial.functions.size).map Prod.swap := by
    refine List.ext_getElem? fun i => ?_
    rw [List.getElem?_map, List.getElem?_map, List.getElem?_zipIdx, reordered, List.getElem?_map]
    cases hi : r.printed[i]? with
    | none => rfl
    | some entry =>
        change some (r.place entry.1, entry.2.renamed r.place) = some (initial.functions.size + i, _)
        rw [h.place_printed hi]
  rw [← hentries, Print.functionList_renamed h.getElem?_place]
  rfl

theorem callee (h : r.Filed added) {f g : FuncId} {fn : Function} (hf : r.functions[f]? = some fn)
    (hg : g ∈ fn.body.callees) : g ≤ f ∧ ∃ gn, r.functions[g]? = some gn := by
  obtain ⟨call, hcall, rfl⟩ := List.mem_map.1 hg
  obtain ⟨hle, gn, hgn, -⟩ := h.wellFormed.calls f fn hf call hcall
  exact ⟨hle, gn, hgn⟩

theorem off_lt (h : r.Filed added) {f g : FuncId} {fn gn : Function} (hle : initial.functions.size ≤ g) (hlt : g < f)
    (hf : r.functions[f]? = some fn) (hg : r.functions[g]? = some gn) (hpath : gn.location.path = fn.location.path) :
    gn.location.off < fn.location.off := by
  obtain ⟨i, rfl⟩ := Nat.exists_eq_add_of_le hle
  obtain ⟨j, rfl⟩ := Nat.exists_eq_add_of_le (Nat.le_trans hle (Nat.le_of_lt hlt))
  have hi : added[i]? = some gn := (h.grows.getElem? i).1.symm.trans hg
  have hj : added[j]? = some fn := (h.grows.getElem? j).1.symm.trans hf
  obtain ⟨hi', rfl⟩ := List.getElem?_eq_some_iff.1 hi
  obtain ⟨hj', rfl⟩ := List.getElem?_eq_some_iff.1 hj
  exact List.pairwise_iff_getElem.1 h.ordered i j hi' hj' (Nat.lt_of_add_lt_add_left hlt) hpath

/-- A function keeps its place after an earlier one unless its path is smaller. -/
theorem place_le_place (h : r.Filed added) {f g : FuncId} {fn gn : Function} (hf : r.functions[f]? = some fn)
    (hg : r.functions[g]? = some gn) (hgf : g ≤ f) :
    r.place g ≤ r.place f ↔ gn.location.path ≤ fn.location.path := by
  by_cases hlt : g < initial.functions.size
  · have hpath : gn.location.path = [] := by
      rw [h.native hlt] at hg
      exact path_native gn (mem_natives hg)
    refine iff_of_true ?_ (hpath ▸ List.nil_le _)
    rw [r.place_of_native hlt, place]
    split
    · exact hgf
    · exact Nat.le_trans (Nat.le_of_lt hlt) (Nat.le_add_right _ _)
  have hle := Nat.not_lt.1 hlt
  rcases Nat.lt_or_eq_of_le hgf with hgf | rfl
  · obtain ⟨i, hi, hplace⟩ := h.exists_printed hle hg
    obtain ⟨j, hj, hplace'⟩ := h.exists_printed (Nat.le_trans hle (Nat.le_of_lt hgf)) hf
    rw [hplace, hplace', Nat.add_le_add_iff_left]
    constructor
    · intro hij
      rcases Nat.lt_or_eq_of_le hij with hij | rfl
      · exact Print.path_le_of_declaredBefore (r.declaredBefore_of_printed hi hj hij)
      · rw [hi] at hj
        cases hj
        exact absurd hgf (Nat.lt_irrefl _)
    · intro hpath
      -- in one file the earlier function is at the smaller offset
      refine Nat.not_lt.1 fun hji => ?_
      have hbefore := r.declaredBefore_of_printed hj hi hji
      have hsame := List.le_antisymm hpath (Print.path_le_of_declaredBefore hbefore)
      rw [Print.declaredBefore, if_pos hsame.symm, decide_eq_true_eq] at hbefore
      exact Int.not_le.2 (h.off_lt hle hgf hf hg hsame) hbefore
  · rw [hf] at hg
    cases hg
    exact iff_of_true (Nat.le_refl _) (List.le_refl _)

theorem strict (h : r.Filed added) : r.printed.Pairwise fun a b => a.2.location.path < b.2.location.path ∨
    a.2.location.path = b.2.location.path ∧ a.2.location.off < b.2.location.off := by
  have hsorted := (Print.sources_pairwise r.functions r.listing).and (List.pairwise_map.1 h.nodup)
  refine hsorted.imp_of_mem fun {a b} ha hb ⟨hbefore, hne⟩ => ?_
  obtain ⟨hlea, ha⟩ := h.mem_printed.1 ha
  obtain ⟨hleb, hb⟩ := h.mem_printed.1 hb
  by_cases hpath : a.2.location.path = b.2.location.path
  · rcases Nat.lt_or_gt_of_ne hne with hlt | hlt
    · exact .inr ⟨hpath, h.off_lt hlea hlt hb ha hpath⟩
    · rw [Print.declaredBefore, if_pos hpath, decide_eq_true_eq] at hbefore
      exact absurd hbefore (Int.not_le.2 (h.off_lt hleb hlt ha hb hpath.symm))
  · have hle := Print.path_le_of_declaredBefore hbefore
    exact .inl (List.not_le.1 fun hge => hpath (List.le_antisymm hle hge))

theorem backward_iff_pathOrdered (h : r.Filed added) :
    (initial.declareAll r.reordered).functions.Backward ↔ r.functions.PathOrdered := by
  constructor
  · intro hback f fn hf g hg gn hgn
    have hmoved := h.getElem?_place f
    rw [hf, Option.map_some] at hmoved
    refine (h.place_le_place hf hgn (h.callee hf hg).1).1 (hback _ _ hmoved _ ?_)
    exact Function.mem_callees_renamed.2 ⟨g, hg, rfl⟩
  · intro hordered k fn' hk g' hg'
    obtain ⟨f, fn, rfl, hf, rfl⟩ := h.exists_place hk
    obtain ⟨g, hg, rfl⟩ := Function.mem_callees_renamed.1 hg'
    obtain ⟨hgf, gn, hgn⟩ := h.callee hf hg
    exact (h.place_le_place hf hgn hgf).2 (hordered f fn hf g hg gn hgn)

theorem backward_iff_calleesFirst (h : r.Filed added) :
    (initial.declareAll r.reordered).functions.Backward ↔ Print.CalleesFirst r.printed := by
  rw [backward_declareAll, Print.CalleesFirst, List.pairwise_iff_getElem]
  constructor
  · intro hback i j hi hj hij hcallee
    have hmoved : r.reordered[i]? = some (r.printed[i].2.renamed r.place) := by
      rw [reordered, List.getElem?_map, List.getElem?_eq_getElem hi]
      rfl
    have hle := hback i _ hmoved _ (Function.mem_callees_renamed.2 ⟨_, hcallee, rfl⟩)
    have hplace : r.place r.printed[j].1 = _ := h.place_printed (List.getElem?_eq_getElem hj)
    rw [hplace, Nat.add_le_add_iff_left] at hle
    exact Nat.not_le.2 hij hle
  · intro hpairwise i fn' hi g' hg'
    rw [reordered, List.getElem?_map] at hi
    obtain ⟨⟨f, fn⟩, hentry, rfl⟩ := Option.map_eq_some_iff.1 hi
    obtain ⟨g, hg, rfl⟩ := Function.mem_callees_renamed.1 hg'
    have hf := (h.mem_printed.1 (List.mem_of_getElem? hentry)).2
    obtain ⟨-, gn, hgn⟩ := h.callee hf hg
    by_cases hlt : g < initial.functions.size
    · rw [r.place_of_native hlt]
      exact Nat.le_trans (Nat.le_of_lt hlt) (Nat.le_add_right _ _)
    · obtain ⟨j, hj, hplace⟩ := h.exists_printed (Nat.not_lt.1 hlt) hgn
      rw [hplace]
      refine Nat.add_le_add_left (Nat.not_lt.1 fun hij => ?_) _
      obtain ⟨hi', he⟩ := List.getElem?_eq_some_iff.1 hentry
      obtain ⟨hj', he'⟩ := List.getElem?_eq_some_iff.1 hj
      have hnot := hpairwise i j hi' hj' hij
      rw [he, he'] at hnot
      exact hnot hg

theorem reorders (h : r.Filed added) {r' : Registry} (hsame : r'.Same (initial.declareAll r.reordered)) :
    r.Reorders r.place r' where
  size := by
    have hall := congrArg List.length h.grows.functions
    rw [List.length_append, Array.length_toList, Array.length_toList] at hall
    rw [hsame.size, size_declareAll, reordered, List.length_map, h.perm.length_eq, h.declared, List.length_map,
      List.length_zipIdx]
    exact hall.symm
  injective f g fn gn hf hg he := by
    have hplace := (h.getElem?_place f).symm.trans (he ▸ h.getElem?_place g)
    rw [hf, hg, Option.map_some, Option.map_some] at hplace
    have hname := congrArg Function.name (Option.some.inj hplace)
    exact h.eq_of_name hf hg hname
  lookup name := by
    rw [hsame.answers.lookup]
    have hindexed := h.textual.indexed
    cases hname : r.lookup name with
    | none =>
        refine Option.eq_none_iff_forall_ne_some.2 fun k hk => ?_
        obtain ⟨fn', hfn', hname'⟩ := (hindexed name k).1 hk
        obtain ⟨f, fn, rfl, hfn, rfl⟩ := h.exists_place hfn'
        rw [(h.indexed name f).2 ⟨fn, hfn, hname'⟩] at hname
        cases hname
    | some f =>
        obtain ⟨fn, hfn, hname'⟩ := (h.indexed name f).1 hname
        refine (hindexed name _).2 ⟨fn.renamed r.place, ?_, hname'⟩
        rw [h.getElem?_place, hfn]
        rfl
  functions f := by
    rw [← Array.getElem?_map, hsame.functions, Array.getElem?_map, h.getElem?_place]

theorem source (h : r.Filed added) : ∃ output, Print.functions r.functions r.listing = .ok output ∧
    ∀ (resolver : Resolver) (path : Bytes), ∃ w, Build.source resolver none ⟨path, output⟩ {} = .ok () w ∧
      (w.report.entries = [] ↔ Print.CalleesFirst r.printed) ∧
      (w.report.entries = [] → ∃ ρ, r.Reorders ρ w.registry) := by
  obtain ⟨output, houtput, hread⟩ := h.textual.source
  refine ⟨output, h.functions_eq.trans houtput, fun resolver path => ?_⟩
  obtain ⟨w, hw, hiff, hsame⟩ := hread resolver path
  exact ⟨w, hw, hiff.trans h.backward_iff_calleesFirst, fun hclean => ⟨_, h.reorders (hsame hclean)⟩⟩

end Filed

end Registry

namespace Session

theorem filed_of_parse {loader : Option Loader} {stdDir ext entry : Bytes} {seed : Int} {follow : Bool}
    {name text : Bytes} {s : Session}
    (h : parse name text (make loader (Resolver.make stdDir ext) entry seed follow) = .ok () s) :
    ∃ added, s.workspace.registry.Filed added := by
  obtain ⟨w, hruns, hclean, rfl⟩ := runs_of_parse h
  have hsound := (sound_initial.entering (mainPath name)).runs hruns
  have hentered : ¬ (entering {} (mainPath name)).Fresh (mainPath name) := by
    rintro ⟨hne, hnot⟩
    rcases isImported_entering {} (mainPath name) with hnil | hmarked
    · exact hne hnil
    · rw [hnot] at hmarked
      cases hmarked
  obtain ⟨added, hplaces⟩ := (hruns.clean hclean).places (fun _ _ _ => Resolver.ne_nil_of_resolve) hentered
  have hstart : (entering {} (mainPath name)).registry.unmarked = Registry.initial := by
    unfold entering
    split
    · rfl
    · exact Registry.unmarked_markImported _ _
  have hgrows := hplaces.grows
  change (entering {} (mainPath name)).registry.unmarked.Grows added w.registry.unmarked at hgrows
  rw [hstart] at hgrows
  exact ⟨added, hgrows, hsound.wellFormed, hsound.current hclean, hplaces.ordered⟩

/-- Every program that is parsed without a problem is printed, by path and then by offset. A function is printed after
all others that it calls exactly if calls never lead to a greater path. What is printed is read without imports; there
is no problem exactly in this case, and then it is read as the same functions up to locations and positions. -/
theorem functions_by_path (loader : Option Loader) (stdDir ext entry : Bytes) (seed : Int) (follow : Bool)
    (name text : Bytes) (s : Session)
    (h : parse name text (make loader (Resolver.make stdDir ext) entry seed follow) = .ok () s) :
    let r := s.workspace.registry
    r.printed.Perm r.functions.declared ∧
      r.printed.Pairwise (fun a b => a.2.location.path < b.2.location.path ∨
        a.2.location.path = b.2.location.path ∧ a.2.location.off < b.2.location.off) ∧
      (Print.CalleesFirst r.printed ↔ r.functions.PathOrdered) ∧
      ∃ output, Print.functions r.functions r.listing = .ok output ∧
        ∀ (resolver : Resolver) (path : Bytes), ∃ w, Build.source resolver none ⟨path, output⟩ {} = .ok () w ∧
          (w.report.entries = [] ↔ Print.CalleesFirst r.printed) ∧
          (w.report.entries = [] → ∃ ρ, r.Reorders ρ w.registry) := by
  intro r
  obtain ⟨added, hr⟩ := filed_of_parse h
  exact ⟨hr.perm, hr.strict, hr.backward_iff_calleesFirst.symm.trans hr.backward_iff_pathOrdered, hr.source⟩

def layout (s : Session) (name text : Bytes) : Option (Bytes × Bool) :=
  match parse name text s with
  | .ok _ s' =>
    let r := s'.workspace.registry
    (Print.functions r.functions r.listing).toOption.map fun output => (output, decide (Print.CalleesFirst r.printed))
  | .error _ _ => none

theorem of_layout {s : Session} {name text output : Bytes} {first : Bool}
    (h : layout s name text = some (output, first)) : ∃ s', parse name text s = .ok () s' ∧
      Print.functions s'.workspace.registry.functions s'.workspace.registry.listing = .ok output ∧
      (Print.CalleesFirst s'.workspace.registry.printed ↔ first = true) := by
  unfold layout at h
  cases hparse : parse name text s with
  | error halt s' => rw [hparse] at h; cases h
  | ok _ s' =>
      rw [hparse] at h
      dsimp only at h
      refine ⟨s', rfl, ?_⟩
      cases hp : Print.functions s'.workspace.registry.functions s'.workspace.registry.listing with
      | error e => rw [hp] at h; cases h
      | ok other =>
          rw [hp] at h
          obtain ⟨rfl, rfl⟩ := Prod.mk.inj (Option.some.inj h)
          exact ⟨rfl, decide_eq_true_iff.symm⟩

/-- Files that are imported in the opposite order of their paths change places. -/
theorem functions_by_path_swapped :
    ∃ s w ρ, parse (utf8 "c") (utf8 "import 'b' import 'a' function main => core/add f g")
        (make (some (.ofFiles [(utf8 "a", utf8 "function g => 2"), (utf8 "b", utf8 "function f => 1")]))
          (Resolver.make [] []) [] 1 true) = .ok () s ∧
      Build.source (Resolver.make [] []) none
        ⟨utf8 "d", utf8 "function g => 2\nfunction f => 1\nfunction main => core/add f g\n"⟩ {} = .ok () w ∧
      w.report.entries = [] ∧ s.workspace.registry.Reorders ρ w.registry := by
  obtain ⟨s, h, hp, hfirst⟩ := of_layout (show layout
    (make (some (.ofFiles [(utf8 "a", utf8 "function g => 2"), (utf8 "b", utf8 "function f => 1")]))
      (Resolver.make [] []) [] 1 true) (utf8 "c") (utf8 "import 'b' import 'a' function main => core/add f g") =
    some (utf8 "function g => 2\nfunction f => 1\nfunction main => core/add f g\n", true) by decide +kernel)
  obtain ⟨-, -, -, output, houtput, hread⟩ := functions_by_path _ [] [] [] 1 true _ _ s h
  obtain rfl := Except.ok.inj (hp.symm.trans houtput)
  obtain ⟨w, hw, hclean, hsame⟩ := hread (Resolver.make [] []) (utf8 "d")
  have hentries := hclean.2 (hfirst.2 rfl)
  obtain ⟨ρ, hρ⟩ := hsame hentries
  exact ⟨s, w, ρ, h, hw, hentries, hρ⟩

/-- A function is printed before the one that it calls, in a file with a greater path. This is read with a problem. -/
theorem functions_callee_later :
    ∃ s w, parse (utf8 "a") (utf8 "import \"b\" function main => f")
        (make (some (.ofFiles [(utf8 "b", utf8 "function f => 1")])) (Resolver.make [] []) [] 1 true) = .ok () s ∧
      Print.functions s.workspace.registry.functions s.workspace.registry.listing =
        .ok (utf8 "function main => f\nfunction f => 1\n") ∧
      ¬ Print.CalleesFirst s.workspace.registry.printed ∧
      Build.source (Resolver.make [] []) none ⟨utf8 "a", utf8 "function main => f\nfunction f => 1\n"⟩ {} = .ok () w ∧
      w.report.entries ≠ [] := by
  obtain ⟨s, h, hp, hfirst⟩ := of_layout (show layout
    (make (some (.ofFiles [(utf8 "b", utf8 "function f => 1")])) (Resolver.make [] []) [] 1 true) (utf8 "a")
    (utf8 "import \"b\" function main => f") = some (utf8 "function main => f\nfunction f => 1\n", false) by
      decide +kernel)
  have hlater : ¬ Print.CalleesFirst s.workspace.registry.printed := by simp [hfirst]
  obtain ⟨added, hr⟩ := filed_of_parse h
  obtain ⟨output, houtput, hread⟩ := hr.source
  obtain rfl := Except.ok.inj (hp.symm.trans houtput)
  obtain ⟨w, hw, hclean, -⟩ := hread (Resolver.make [] []) (utf8 "a")
  exact ⟨s, w, h, hp, hlater, hw, fun hentries => hlater (hclean.1 hentries)⟩

end Session

end Polish
