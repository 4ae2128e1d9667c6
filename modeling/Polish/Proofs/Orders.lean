import Polish.Proofs.Groups

namespace Polish

open Relation (ReflTransGen)

def Expr.layers : Expr → Nat
  | .closure _ _ body => layers body + 1
  | .relocated _ x => layers x
  | .hole | .number _ _ | .text _ _ | .var _ _ | .call _ _ _ => 0

def Ty.layers : Ty → Nat
  | .function _ result => layers result + 1
  | .basic _ | .unknown _ | .array _ | .object _ _ | .absent => 0

namespace Functions

def layers (fns : Functions) (f : FuncId) : Nat := match fns[f]? with
  | some fn => fn.body.layers
  | none => 0

def layersOn (fns : Functions) : List FuncId → Nat
  | [] => 0
  | f :: fs => fns.layers f + fns.layersOn fs

theorem layersOn_append (fns : Functions) (fs gs : List FuncId) :
    fns.layersOn (fs ++ gs) = fns.layersOn fs + fns.layersOn gs := by
  induction fs with
  | nil => exact (Nat.zero_add _).symm
  | cons f fs ih => rw [List.cons_append, layersOn, layersOn, ih, Nat.add_assoc]

def CallFree (fns : Functions) : Prop :=
  ∀ (f : FuncId) (fn : Function), fns[f]? = some fn → fn.kind ≠ .custom → fn.operation ≠ .call

/-- A way from one function to another, with all the functions on it but the last. -/
inductive Trail (fns : Functions) : FuncId → List FuncId → FuncId → Prop
  | nil {f} : Trail fns f [] f
  | cons {f g h gs} (hasks : fns.Asks f g) (rest : Trail fns g gs h) : Trail fns f (f :: gs) h

variable {fns : Functions} {f g h k : FuncId} {fs gs : List FuncId}

namespace Trail

theorem needs (htrail : fns.Trail f fs g) : fns.Needs f g := by
  induction htrail with
  | nil => exact .refl
  | cons hasks _ ih => exact .head hasks ih

theorem append (htrail : fns.Trail f fs g) (hrest : fns.Trail g gs h) : fns.Trail f (fs ++ gs) h := by
  induction htrail with
  | nil => exact hrest
  | cons hasks _ ih => exact .cons hasks (ih hrest)

theorem split {as bs : List FuncId} (htrail : fns.Trail f (as ++ k :: bs) g) :
    fns.Trail f as k ∧ fns.Trail k (k :: bs) g := by
  induction as generalizing f with
  | nil =>
      cases htrail with
      | cons hasks rest => exact ⟨.nil, .cons hasks rest⟩
  | cons a as ih =>
      cases htrail with
      | cons hasks rest => exact ⟨.cons hasks (ih rest).1, (ih rest).2⟩

theorem needs_of_mem (htrail : fns.Trail f fs g) (hk : k ∈ fs) : fns.Needs f k ∧ fns.Needs k g := by
  obtain ⟨as, bs, rfl⟩ := List.append_of_mem hk
  exact htrail.split.imp needs needs

end Trail

theorem Needs.custom (hneeds : fns.Needs f g) (hne : g ≠ f) :
    ∃ gn : Function, fns[g]? = some gn ∧ gn.kind = .custom := by
  obtain ⟨k, -, kn, -, hg⟩ := (ReflTransGen.cases_tail hneeds).resolve_left hne
  exact Expr.custom_of_mem_asks kn.body hg

/-- A way that meets no function twice. -/
theorem Needs.exists_trail (hneeds : fns.Needs f g) : ∃ fs, fns.Trail f fs g ∧ fs.Nodup ∧ g ∉ fs := by
  induction hneeds using ReflTransGen.head_induction_on with
  | refl => exact ⟨[], .nil, List.nodup_nil, List.not_mem_nil⟩
  | @head f k hasks _ ih =>
      obtain ⟨fs, htrail, hnodup, hg⟩ := ih
      by_cases hfg : f = g
      · subst hfg
        exact ⟨[], .nil, List.nodup_nil, List.not_mem_nil⟩
      · by_cases hf : f ∈ fs
        · obtain ⟨as, bs, rfl⟩ := List.append_of_mem hf
          have hsuffix := List.nodup_append.1 hnodup
          exact ⟨f :: bs, htrail.split.2, hsuffix.2.1, fun hmem => hg (List.mem_append_right _ hmem)⟩
        · have hgf : g ∉ f :: fs := by simp [hg, Ne.symm hfg]
          exact ⟨f :: fs, .cons hasks htrail, List.nodup_cons.2 ⟨hf, hnodup⟩, hgf⟩

theorem CallFree.callee_eq (hfree : fns.CallFree) {l : Location} {args : List Expr}
    (hg : g ∈ (Expr.call l f args).asks fns) :
    g = f ∧ (Expr.call l f args).asks fns = [f] ∧
      ∀ resultOf scope, Checking.typeOf fns resultOf (.call l f args) scope = resultOf f := by
  obtain ⟨gn, hgn, hcustom⟩ := Expr.custom_of_mem_asks _ hg
  have hf : g = f := by
    rw [Expr.asks] at hg
    split at hg
    · cases hg
    · rename_i fn hf
      split at hg
      · exact List.mem_singleton.1 hg
      · rename_i hk
        rw [if_neg (hfree f fn hf hk)] at hg
        cases hg
  subst hf
  cases Checking.callType fns g with
  | fault _ hbad =>
      rcases hbad gn hgn with hp | ⟨hk, -⟩
      · rw [hcustom] at hp
        cases hp
      · exact absurd hcustom hk
  | custom _ _ hrun hasks => exact ⟨rfl, hasks l args, fun resultOf scope => hrun resultOf l args scope⟩
  | operation _ _ _ _ hasks =>
      rw [hasks] at hg
      cases hg
  | applied hf hk ho => exact absurd ho (hfree g _ hf hk)

theorem CallFree.asks_eq (hfree : fns.CallFree) : ∀ x : Expr, g ∈ x.asks fns → x.asks fns = [g]
  | .call _ f args, hg => by
      obtain ⟨rfl, hasks, -⟩ := hfree.callee_eq hg
      exact hasks
  | .relocated _ x, hg => hfree.asks_eq x hg
  | .closure _ _ body, hg => hfree.asks_eq body hg
  | .hole, hg | .number _ _, hg | .text _ _, hg | .var _ _, hg => by cases hg

theorem CallFree.asks_unique (hfree : fns.CallFree) (hg : fns.Asks f g) (hh : fns.Asks f h) : g = h := by
  obtain ⟨fn, hf, hg⟩ := hg
  obtain ⟨fn', hf', hh⟩ := hh
  obtain rfl := Option.some.inj (hf.symm.trans hf')
  rw [hfree.asks_eq fn.body hg, List.mem_singleton] at hh
  exact hh.symm

theorem CallFree.mem_ring (hfree : fns.CallFree) (hring : fns.Trail f fs f) (hf : f ∈ fs) (hneeds : fns.Needs f g) :
    g ∈ fs := by
  induction hneeds with
  | refl => exact hf
  | tail _ hasks ih =>
      obtain ⟨as, bs, rfl⟩ := List.append_of_mem ih
      cases hring.split.2 with
      | cons hnext rest =>
          obtain rfl := hfree.asks_unique hnext hasks
          cases rest with
          | nil => exact hf
          | cons => simp

theorem CallFree.unwrap_eq (hfree : fns.CallFree) : ∀ x : Expr, g ∈ x.asks fns → x.layers = 0 →
    ∃ l args, x.unwrap = .call l g args
  | .hole, hg, _ | .number _ _, hg, _ | .text _ _, hg, _ | .var _ _, hg, _ => by cases hg
  | .relocated _ x, hg, hx => hfree.unwrap_eq x hg hx
  | .closure _ _ body, hg, hx => by cases hx
  | .call l f args, hg, _ => by
      obtain ⟨rfl, -⟩ := hfree.callee_eq hg
      exact ⟨l, args, rfl⟩

theorem CallFree.forwards (hfree : fns.CallFree) (hasks : fns.Asks f g) (hlayers : fns.layers f = 0) :
    fns.Forwards f g := by
  obtain ⟨fn, hf, hg⟩ := hasks
  obtain ⟨gn, hgn, hk⟩ := Expr.custom_of_mem_asks fn.body hg
  simp only [layers, hf] at hlayers
  exact ⟨fn, gn, hf, hgn, hk, hfree.unwrap_eq fn.body hg hlayers⟩

/-- On the way from a function that is not steady a group is entered in which another function does not forward. -/
theorem exists_entry (hf : ¬ fns.Steady f) :
    ∃ k fs, ¬ fns.Plain k ∧ fns.Trail f fs k ∧ fs.Nodup ∧ ∀ p ∈ fs, ¬ fns.Together k p := by
  by_cases hplain : fns.Plain f
  · have hother : ∃ g h, fns.Needs f g ∧ fns.Asks g h ∧ ¬ fns.Together g h ∧ ¬ fns.Plain h := by
      simpa [Steady, hplain] using hf
    obtain ⟨g, h, hneeds, hasks, hout, hnot⟩ := hother
    obtain ⟨fs, htrail, hnodup, hg⟩ := hneeds.exists_trail
    refine ⟨h, fs ++ [g], hnot, htrail.append (.cons hasks .nil), ?_, fun p hp htogether => hout ?_⟩
    · exact hnodup.append (List.nodup_singleton g) (by simpa using hg)
    · have hpg : fns.Needs p g := by
        rcases List.mem_append.1 hp with hp | hp
        · exact (htrail.needs_of_mem hp).2
        · rw [List.mem_singleton.1 hp]
          exact .refl
      exact ⟨.single hasks, htogether.1.trans hpg⟩
  · exact ⟨f, [], hplain, .nil, List.nodup_nil, by simp⟩

/-- The ring of a function that is not plain, cut before another function that does not forward. -/
theorem CallFree.exists_ring (hfree : fns.CallFree) (hk : ¬ fns.Plain k) :
    ∃ e as bs, fns.Trail k (k :: as) e ∧ fns.Trail e (e :: bs) k ∧ (k :: as ++ e :: bs).Nodup ∧
      0 < fns.layers e ∧ ∀ p ∈ k :: as ++ e :: bs, fns.Together k p := by
  have hother : ∃ e, fns.Together k e ∧ e ≠ k ∧ ¬ ∃ h, fns.Forwards e h := by
    simpa only [Plain, not_forall, exists_prop] using hk
  obtain ⟨e, htogether, hne, hnot⟩ := hother
  obtain ⟨g, hasks, hneeds⟩ := (ReflTransGen.cases_head htogether.1).resolve_left (Ne.symm hne)
  obtain ⟨ps, htrail, hnodup, hkps⟩ := Needs.exists_trail (hneeds.trans htogether.2)
  have hring : fns.Trail k (k :: ps) k := .cons hasks htrail
  have hmem : e ∈ k :: ps := hfree.mem_ring hring List.mem_cons_self htogether.1
  obtain ⟨as, bs, rfl⟩ := List.append_of_mem ((List.mem_cons.1 hmem).resolve_left hne)
  obtain ⟨hfirst, hsecond⟩ := Trail.split (show fns.Trail k ((k :: as) ++ e :: bs) k from hring)
  refine ⟨e, as, bs, hfirst, hsecond, List.nodup_cons.2 ⟨hkps, hnodup⟩, Nat.pos_of_ne_zero fun hzero => ?_, ?_⟩
  · cases hsecond with
    | cons hnext _ => exact hnot ⟨_, hfree.forwards hnext hzero⟩
  · intro p hp
    exact hring.needs_of_mem hp

end Functions

namespace Checking

variable {fns : Functions}

theorem typeOf_layers (hfree : fns.CallFree) {resultOf : FuncId → Checking Ty} {g : FuncId} {c c' : Checker} {u : Ty}
    (hu : resultOf g c = .ok u c') : ∀ (x : Expr) (scope : Scope), g ∈ x.asks fns →
    ∃ t, typeOf fns resultOf x scope c = .ok t c' ∧ t.layers = x.layers + u.layers
  | .hole, _, hg | .number _ _, _, hg | .text _ _, _, hg | .var _ _, _, hg => by cases hg
  | .relocated _ x, scope, hg => typeOf_layers hfree hu x scope hg
  | .closure _ params body, scope, hg => by
      obtain ⟨t, hrun, hlayers⟩ := typeOf_layers hfree hu body (scope.bind params) hg
      refine ⟨.function (params.map (·.ty)) t, ?_, ?_⟩
      · rw [typeOf, bind_ok hrun]
        rfl
      · rw [Ty.layers, Expr.layers, hlayers]
        omega
  | .call l f args, scope, hg => by
      obtain ⟨rfl, -, hrun⟩ := hfree.callee_eq hg
      exact ⟨u, (hrun resultOf scope).symm ▸ hu, (Nat.zero_add _).symm⟩

/-- The result types along a way whose end is busy or known: the anonymous functions on the way add up. -/
theorem resultAt_trail (hfree : fns.CallFree) {f g : FuncId} {fs : List FuncId} (htrail : fns.Trail f fs g)
    {depth : Nat} {active : List FuncId} (hroom : Room fns depth active) (hnodup : fs.Nodup) {c : Checker}
    (hfresh : ∀ p ∈ fs, p ∉ active ∧ p ∉ c.stuck ∧ c.results.lookup p = none) {n : Nat}
    (hend : ((g ∈ active ∨ g ∈ fs) ∧ c.results.lookup g = none ∧ n = 0) ∨
      ∃ u, c.results.lookup g = some u ∧ u.layers = n) :
    ∃ t c', resultAt fns depth active f c = .ok t c' ∧ t.layers = fns.layersOn fs + n ∧
      c'.stuck = c.stuck ∧ (∀ p ∉ fs, c'.results.lookup p = c.results.lookup p) ∧
      ∀ as p bs, fs = as ++ p :: bs →
        ∃ u, c'.results.lookup p = some u ∧ u.layers = fns.layersOn (p :: bs) + n := by
  induction htrail generalizing depth active with
  | @nil f =>
      obtain ⟨depth, rfl⟩ := hroom.pos
      have hempty : ∀ as (p : FuncId) bs, [] = as ++ p :: bs → ∃ u, c.results.lookup p = some u ∧
          u.layers = fns.layersOn (p :: bs) + n := by
        intro as p bs hsplit
        cases as with
        | nil => cases hsplit
        | cons => cases hsplit
      rcases hend with ⟨hbusy, hnone, rfl⟩ | ⟨u, hknown, rfl⟩
      · refine ⟨.any, c, ?_, rfl, rfl, fun _ _ => rfl, hempty⟩
        rw [resultAt_succ, hnone]
        exact if_pos (.inl (hbusy.resolve_right List.not_mem_nil))
      · refine ⟨u, c, ?_, (Nat.zero_add _).symm, rfl, fun _ _ => rfl, hempty⟩
        rw [resultAt_succ, hknown]
  | @cons f k g gs hasks rest ih =>
      obtain ⟨depth, rfl⟩ := hroom.pos
      obtain ⟨⟨hactive, hstuck, hnone⟩, hfresh⟩ := List.forall_mem_cons.1 hfresh
      obtain ⟨hfgs, hnodup⟩ := List.nodup_cons.1 hnodup
      obtain ⟨fn, hf, hk⟩ := hasks
      have hinner : ∀ p ∈ gs, p ∉ f :: active ∧ p ∉ c.stuck ∧ c.results.lookup p = none := by
        intro p hp
        obtain ⟨hpa, hps, hpn⟩ := hfresh p hp
        refine ⟨fun hmem => (List.mem_cons.1 hmem).elim (fun he => hfgs (he ▸ hp)) hpa, hps, hpn⟩
      have hend' : ((g ∈ f :: active ∨ g ∈ gs) ∧ c.results.lookup g = none ∧ n = 0) ∨
          ∃ u, c.results.lookup g = some u ∧ u.layers = n := by
        refine hend.imp_left fun h => ⟨?_, h.2⟩
        rcases h.1 with h | h
        · exact .inl (List.mem_cons_of_mem f h)
        · rcases List.mem_cons.1 h with rfl | h
          · exact .inl List.mem_cons_self
          · exact .inr h
      obtain ⟨u, c₁, hrun, hu, hstuck₁, hothers, hparts⟩ := ih (hroom.enter hf hactive) hnodup hinner hend'
      obtain ⟨t, hbody, ht⟩ := typeOf_layers hfree hrun fn.body (Scope.bind [] fn.params) hk
      have hsum : t.layers = fns.layersOn (f :: gs) + n := by
        rw [ht, hu, Functions.layersOn, Functions.layers, hf]
        exact (Nat.add_assoc _ _ _).symm
      refine ⟨t, { c₁ with results := (f, t) :: c₁.results }, ?_, hsum, hstuck₁, ?_, ?_⟩
      · rw [resultAt_succ, hnone]
        dsimp only
        rw [if_neg (not_or.2 ⟨hactive, hstuck⟩), hf]
        simp only [remember, hbody]
      · intro p hp
        obtain ⟨hpf, hpgs⟩ := not_or.1 (mt List.mem_cons.2 hp)
        rw [lookup_cons_ne hpf]
        exact hothers p hpgs
      · intro as p bs hsplit
        cases as with
        | nil =>
            obtain ⟨rfl, rfl⟩ := List.cons.inj hsplit
            exact ⟨t, List.lookup_cons_self, hsum⟩
        | cons a as =>
            obtain ⟨rfl, rfl⟩ := List.cons.inj hsplit
            have hpf : p ≠ f := by
              rintro rfl
              exact hfgs (List.mem_append_right as List.mem_cons_self)
            rw [lookup_cons_ne hpf]
            exact hparts as p bs rfl

/-- A function that is not steady has another type if some function is asked for before. -/
theorem resultType_differs (hfree : fns.CallFree) {f : FuncId} (hf : ¬ fns.Steady f) :
    ∃ (e : FuncId) (en : Function), fns[e]? = some en ∧ en.kind = .custom ∧ ∃ u c t d t' d',
      resultType fns e {} = .ok u c ∧ resultType fns f {} = .ok t d ∧ resultType fns f c = .ok t' d' ∧
      t'.layers < t.layers := by
  obtain ⟨k, fs, hplain, htrail, hnodup, hout⟩ := Functions.exists_entry hf
  obtain ⟨e, as, bs, hfirst, hsecond, hring, hpos, hgroup⟩ := hfree.exists_ring hplain
  have hfresh (ps : List FuncId) : ∀ p ∈ ps, p ∉ ([] : List FuncId) ∧ p ∉ ({} : Checker).stuck ∧
      ({} : Checker).results.lookup p = none := fun p _ => ⟨List.not_mem_nil, List.not_mem_nil, rfl⟩
  have hdisjoint : ∀ p ∈ fs, p ∉ k :: as ++ e :: bs := fun p hp hmem => hout p hp (hgroup p hmem)
  -- asked for first, the function has the layers of the whole ring
  have hwhole : (fs ++ (k :: as ++ e :: bs)).Nodup := by
    refine List.nodup_append.2 ⟨hnodup, hring, fun p hp q hq he => hdisjoint p hp (he ▸ hq)⟩
  obtain ⟨t, d, ht, htl, -⟩ := resultAt_trail hfree (htrail.append (hfirst.append hsecond)) (room_nil fns) hwhole
    (hfresh _) (.inl ⟨.inr (by simp), rfl, rfl⟩)
  -- asked for after `e`, it has those up to `e`
  have hturned : (e :: bs ++ k :: as).Nodup := (List.perm_append_comm.nodup_iff).1 hring
  obtain ⟨u, c, hu, -, hstuck, hothers, hparts⟩ := resultAt_trail hfree (hsecond.append hfirst) (room_nil fns) hturned
    (hfresh _) (.inl ⟨.inr (by simp), rfl, rfl⟩)
  obtain ⟨v, hv, hvl⟩ := hparts (e :: bs) k as rfl
  have hunknown : ∀ p ∈ fs, p ∉ ([] : List FuncId) ∧ p ∉ c.stuck ∧ c.results.lookup p = none := by
    intro p hp
    refine ⟨List.not_mem_nil, by simp [hstuck], (hothers p fun hmem => hdisjoint p hp ?_).trans rfl⟩
    exact List.perm_append_comm.mem_iff.1 hmem
  obtain ⟨t', d', ht', htl', -⟩ := resultAt_trail hfree htrail (room_nil fns) hnodup hunknown (.inr ⟨v, hv, hvl⟩)
  have hne : e ≠ k := by
    rintro rfl
    simp at hring
  obtain ⟨en, hen, hcustom⟩ := hfirst.needs.custom hne
  refine ⟨e, en, hen, hcustom, u, c, t, d, t', d', hu, ht, ht', ?_⟩
  simp only [Functions.layersOn_append, Functions.layersOn] at htl htl' hvl
  omega

end Checking

namespace Query

variable {fns : Functions} {f : FuncId}

/-- The result type of a function is the same whatever was asked before, as long as no search met a fault. -/
def OrderFree (fns : Functions) (f : FuncId) : Prop :=
  ∀ (qs qs' : List Query) (report report' : Report) (c c' d d' : Checker) (t t' : Ty),
    runAll fns qs { report } = .ok () c → runAll fns qs' { report := report' } = .ok () c' →
    Checking.resultType fns f c = .ok t d → Checking.resultType fns f c' = .ok t' d' → t = t'

theorem orderFree_of_steady (hf : fns.Steady f) : OrderFree fns f := by
  intro qs qs' report report' c c' d d' t t' h h' ht ht'
  exact (settles_of_runAll hf h ht).unique (settles_of_runAll hf h' ht')

/-- The order of questions does not show in the result type of a steady function, which is found whatever was asked
before if no part of the table is missing. Without the call operation it shows for all others: there is a function such
that asking for its type first makes a difference. -/
theorem resultType_orderFree (fns : Functions) (f : FuncId) :
    (fns.Steady f → OrderFree fns f) ∧
    (fns.Steady f → fns.isWhole = true → (Query.resultType f).isWhole fns = true →
      ∃ t, ∀ qs : List Query, (∀ q ∈ qs, q.isWhole fns = true) → ∀ report : Report,
        ∃ c d, runAll fns qs { report } = .ok () c ∧ Checking.resultType fns f c = .ok t d) ∧
    (fns.CallFree → ¬ fns.Steady f →
      ∃ (e : FuncId) (en : Function), fns[e]? = some en ∧ en.kind = .custom ∧
        ∃ c d d' t t', runAll fns [.resultType e] {} = .ok () c ∧ Checking.resultType fns f {} = .ok t d ∧
          Checking.resultType fns f c = .ok t' d' ∧ t ≠ t') := by
  refine ⟨orderFree_of_steady, fun hf hfns hcustom => ?_, fun hfree hf => ?_⟩
  · have hends (qs : List Query) (hqs : ∀ q ∈ qs, q.isWhole fns = true) (report : Report) :
        ∃ t c d, runAll fns qs { report } = .ok () c ∧ Checking.resultType fns f c = .ok t d := by
      obtain ⟨⟨⟩, c, hrun, -, hc⟩ := runAll_ends hfns hqs { report } (by simp [Checker.Whole])
      obtain ⟨answer, c', hanswer, -⟩ := run_ends hfns hcustom c hc
      obtain ⟨t, d, ht, -⟩ := bind_eq_ok.1 hanswer
      exact ⟨t, c, d, hrun, ht⟩
    obtain ⟨t, c, d, hrun, ht⟩ := hends [] (by simp) {}
    refine ⟨t, fun qs hqs report => ?_⟩
    obtain ⟨t', c', d', hrun', ht'⟩ := hends qs hqs report
    obtain rfl := orderFree_of_steady hf [] qs {} report c c' d d' t t' hrun hrun' ht ht'
    exact ⟨c', d', hrun', ht'⟩
  · obtain ⟨e, en, hen, hk, u, c, t, d, t', d', hu, ht, ht', hlt⟩ := Checking.resultType_differs hfree hf
    refine ⟨e, en, hen, hk, c, d, d', t, t', ?_, ht, ht', ?_⟩
    · rw [runAll, run, bind_assoc, bind_ok hu]
      rfl
    · rintro rfl
      exact Nat.lt_irrefl _ hlt

def swing : Functions :=
  #[{ name := utf8 "f", kind := .custom, body := .closure {} [] (.call {} 1 []) },
    { name := utf8 "g", kind := .custom, body := .call {} 0 [] }]

theorem asks_swing {f g : FuncId} (h : swing.Asks f g) : f = 0 ∧ g = 1 ∨ f = 1 ∧ g = 0 := by
  obtain ⟨fn, hf, hg⟩ := h
  rcases f with _ | _ | f
  · cases hf
    exact .inl ⟨rfl, List.mem_singleton.1 hg⟩
  · cases hf
    exact .inr ⟨rfl, List.mem_singleton.1 hg⟩
  · cases hf

theorem together_swing : swing.Together 0 1 :=
  ⟨.single ⟨_, rfl, List.mem_singleton_self 1⟩, .single ⟨_, rfl, List.mem_singleton_self 0⟩⟩

theorem steady_swing : swing.Steady 0 := by
  have hneeds {g : FuncId} (h : swing.Needs 0 g) : g = 0 ∨ g = 1 := by
    rcases ReflTransGen.cases_tail h with rfl | ⟨k, -, hk⟩
    · exact .inl rfl
    · exact (asks_swing hk).symm.imp And.right And.right
  refine ⟨fun g hg hne => ?_, fun g h _ hh hout => absurd ?_ hout⟩
  · obtain rfl := (hneeds hg.1).resolve_left hne
    exact ⟨0, _, _, rfl, rfl, rfl, _, _, rfl⟩
  · rcases asks_swing hh with ⟨rfl, rfl⟩ | ⟨rfl, rfl⟩
    · exact together_swing
    · exact together_swing.symm

theorem resultType_orderFree_swing :
    swing.Steady 0 ∧ ¬ swing.Steady 1 ∧
    (∃ t, ∀ qs : List Query, (∀ q ∈ qs, q.isWhole swing = true) → ∀ report : Report,
      ∃ c d, runAll swing qs { report } = .ok () c ∧ Checking.resultType swing 0 c = .ok t d) ∧
    ∃ e c d d' t t', runAll swing [.resultType e] {} = .ok () c ∧ Checking.resultType swing 1 {} = .ok t d ∧
      Checking.resultType swing 1 c = .ok t' d' ∧ t ≠ t' := by
  have hunsteady : ¬ swing.Steady 1 := by
    intro h
    obtain ⟨k, fn, kn, hf, -, -, l, args, hbody⟩ := h.1 0 together_swing.symm (by decide)
    cases hf
    cases hbody
  have hfree : swing.CallFree := by
    intro f fn hf hk
    rcases f with _ | _ | f
    · cases hf
      exact absurd rfl hk
    · cases hf
      exact absurd rfl hk
    · cases hf
  obtain ⟨e, -, -, -, c, d, d', t, t', hdiffers⟩ := (resultType_orderFree swing 1).2.2 hfree hunsteady
  exact ⟨steady_swing, hunsteady, (resultType_orderFree swing 0).2.1 steady_swing (by decide) (by decide),
    e, c, d, d', t, t', hdiffers⟩

/-- The second function is `any` if the first one is asked for before, and an anonymous function if not. -/
theorem resultType_order_shows :
    ∃ c d d', runAll swing [.resultType 0] {} = .ok () c ∧ Checking.resultType swing 1 c = .ok .any d ∧
      Checking.resultType swing 1 {} = .ok (.function [] .any) d' :=
  ⟨_, _, _, rfl, rfl, rfl⟩

end Query

end Polish
