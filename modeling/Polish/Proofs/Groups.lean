import Polish.Proofs.Queries

namespace Polish

open Relation (ReflTransGen)

namespace Expr

theorem asks_unwrap (fns : Functions) : ∀ x : Expr, x.unwrap.asks fns = x.asks fns
  | .relocated _ x => asks_unwrap fns x
  | .hole | .number _ _ | .text _ _ | .var _ _ | .call _ _ _ | .closure _ _ _ => rfl

theorem typeOf_unwrap (fns : Functions) (resultOf : FuncId → Checking Ty) (scope : Scope) :
    ∀ x : Expr, Checking.typeOf fns resultOf x.unwrap scope = Checking.typeOf fns resultOf x scope
  | .relocated _ x => typeOf_unwrap fns resultOf scope x
  | .hole | .number _ _ | .text _ _ | .var _ _ | .call _ _ _ | .closure _ _ _ => rfl

end Expr

namespace Functions

variable (fns : Functions)

/-- The result type of the second function may be asked for while that of the first is found. -/
def Asks (f g : FuncId) : Prop := ∃ fn : Function, fns[f]? = some fn ∧ g ∈ fn.body.asks fns

def Needs : FuncId → FuncId → Prop := ReflTransGen fns.Asks

def Together (f g : FuncId) : Prop := fns.Needs f g ∧ fns.Needs g f

def Forwards (f g : FuncId) : Prop :=
  ∃ fn gn : Function, fns[f]? = some fn ∧ fns[g]? = some gn ∧ gn.kind = .custom ∧
    ∃ l args, fn.body.unwrap = .call l g args

def Plain (f : FuncId) : Prop := ∀ g, fns.Together f g → g ≠ f → ∃ h, fns.Forwards g h

/-- A function is plain, and so is every function with which another group is entered on the way from it. -/
def Steady (f : FuncId) : Prop :=
  fns.Plain f ∧ ∀ g h, fns.Needs f g → fns.Asks g h → ¬ fns.Together g h → fns.Plain h

end Functions

namespace Functions

variable {fns : Functions} {f g h : FuncId}

theorem Together.refl (f : FuncId) : fns.Together f f := ⟨.refl, .refl⟩

theorem Together.symm (h : fns.Together f g) : fns.Together g f := ⟨h.2, h.1⟩

theorem Forwards.body (hforwards : fns.Forwards f g) : ∃ fn : Function, fns[f]? = some fn ∧
    fn.body.asks fns = [g] ∧ ∀ resultOf scope, Checking.typeOf fns resultOf fn.body scope = resultOf g := by
  obtain ⟨fn, gn, hf, hg, hk, l, args, hbody⟩ := hforwards
  cases Checking.callType fns g with
  | fault _ hbad =>
      rcases hbad gn hg with hp | ⟨hne, -⟩
      · rw [hk] at hp; cases hp
      · exact absurd hk hne
  | operation hg' hne | applied hg' hne =>
      exact absurd (Option.some.inj (hg.symm.trans hg') ▸ hk) hne
  | custom _ _ hrun hasks =>
      refine ⟨fn, hf, ?_, fun resultOf scope => ?_⟩
      · rw [← Expr.asks_unwrap, hbody, hasks]
      · rw [← Expr.typeOf_unwrap, hbody, hrun]

theorem Together.of_forwards (htogether : fns.Together f g) (hne : g ≠ f) (hforwards : fns.Forwards g h) :
    fns.Together f h := by
  obtain ⟨gn, hg, hasks, -⟩ := hforwards.body
  rcases ReflTransGen.cases_head htogether.2 with he | ⟨k, ⟨gn', hg', hk⟩, hneeds⟩
  · exact absurd he hne
  · rw [Option.some.inj (hg'.symm.trans hg), hasks, List.mem_singleton] at hk
    subst hk
    exact ⟨htogether.1.tail ⟨gn, hg, by rw [hasks]; exact List.mem_singleton_self k⟩, hneeds⟩

theorem Steady.of_asks (hf : fns.Steady f) (hg : fns.Asks f g) (hout : ¬ fns.Together f g) : fns.Steady g :=
  ⟨hf.2 f g .refl hg hout, fun h k hh => hf.2 h k (hh.head hg)⟩

end Functions

/-- The types of expressions in the body of a function, where calls of functions of its group are `any`. -/
inductive HasTypeIn (fns : Functions) : FuncId → Scope → Expr → Ty → Prop
  | number {f scope l value} : HasTypeIn fns f scope (.number l value) .number
  | text {f scope l value} : HasTypeIn fns f scope (.text l value) .string
  | bound {f scope l name t} (h : scope.lookup name = some t) : HasTypeIn fns f scope (.var l name) t
  | unbound {f scope l name} (h : scope.lookup name = none) : HasTypeIn fns f scope (.var l name) .any
  | relocated {f scope l x t} (h : HasTypeIn fns f scope x t) : HasTypeIn fns f scope (.relocated l x) t
  | closure {f scope l params body t} (h : HasTypeIn fns f (scope.bind params) body t) :
      HasTypeIn fns f scope (.closure l params body) (.function (params.map (·.ty)) t)
  | operation {f scope l g args gn t} (hg : fns[g]? = some gn) (hk : gn.kind ≠ .custom)
      (ho : gn.operation.result? = some t) : HasTypeIn fns f scope (.call l g args) t
  | grouped {f scope l g args gn} (hg : fns[g]? = some gn) (hk : gn.kind = .custom) (h : fns.Together f g) :
      HasTypeIn fns f scope (.call l g args) .any
  | call {f scope l g args gn t} (hg : fns[g]? = some gn) (hk : gn.kind = .custom) (h : ¬ fns.Together f g)
      (hb : HasTypeIn fns g (Scope.bind [] gn.params) gn.body t) : HasTypeIn fns f scope (.call l g args) t
  | nothing {f scope l g gn} (hg : fns[g]? = some gn) (hk : gn.kind ≠ .custom) (ho : gn.operation = .call) :
      HasTypeIn fns f scope (.call l g []) .null
  | applied {f scope l g x args gn params t} (hg : fns[g]? = some gn) (hk : gn.kind ≠ .custom)
      (ho : gn.operation = .call) (h : HasTypeIn fns f scope x (.function params t)) :
      HasTypeIn fns f scope (.call l g (x :: args)) t
  | misapplied {f scope l g x args gn t} (hg : fns[g]? = some gn) (hk : gn.kind ≠ .custom)
      (ho : gn.operation = .call) (h : HasTypeIn fns f scope x t) (ht : ∀ params result, t ≠ .function params result) :
      HasTypeIn fns f scope (.call l g (x :: args)) .null

theorem HasTypeIn.unique {fns : Functions} {f : FuncId} {scope : Scope} {x : Expr} {t u : Ty}
    (ht : HasTypeIn fns f scope x t) (hu : HasTypeIn fns f scope x u) : t = u := by
  induction ht generalizing u with
  | number | text => cases hu; rfl
  | bound h | unbound h => cases hu <;> simp_all
  | relocated h ih =>
      cases hu with
      | relocated h' => exact ih h'
  | closure h ih =>
      cases hu with
      | closure h' => rw [ih h']
  | operation | grouped | nothing => cases hu <;> simp_all [Operation.result?]
  | call hg hk h hb ih =>
      cases hu with
      | call hg' _ _ hb' =>
          cases hg.symm.trans hg'
          exact ih hb'
      | operation | grouped | nothing | applied | misapplied => simp_all
  | applied hg hk ho h ih =>
      cases hu with
      | applied _ _ _ h' => exact (Ty.function.inj (ih h')).2
      | misapplied _ _ _ h' ht' => exact absurd (ih h').symm (ht' _ _)
      | operation | grouped | call => simp_all [Operation.result?]
  | misapplied hg hk ho h ht ih =>
      cases hu with
      | applied _ _ _ h' => exact absurd (ih h') (ht _ _)
      | misapplied => rfl
      | operation | grouped | call => simp_all [Operation.result?]

def Functions.Settles (fns : Functions) (f : FuncId) (t : Ty) : Prop :=
  ∃ fn : Function, fns[f]? = some fn ∧ HasTypeIn fns f (Scope.bind [] fn.params) fn.body t

theorem Functions.Settles.unique {fns : Functions} {f : FuncId} {t u : Ty} (ht : fns.Settles f t)
    (hu : fns.Settles f u) : t = u := by
  obtain ⟨fn, hf, ht⟩ := ht
  obtain ⟨fn', hf', hu⟩ := hu
  obtain rfl := Option.some.inj (hf.symm.trans hf')
  exact ht.unique hu

namespace Checking

variable {fns : Functions} {α β : Type} {P : Checker → Prop} {f : FuncId} {resultOf : FuncId → Checking Ty}

theorem progress_of_record (hP : ∀ c d, P c → P (c.record d)) : Checker.Progress fun c c' => P c → P c' where
  refl _ h := h
  trans h h' hc := h' (h hc)
  record := hP

def CallIn (fns : Functions) (f g : FuncId) (t : Ty) : Prop :=
  fns.Together f g ∧ t = .any ∨ ¬ fns.Together f g ∧ fns.Settles g t

theorem discipline_hasTypeIn (hP : ∀ c d, P c → P (c.record d)) : Discipline fns True (fun _ => True) (fun _ _ => True)
    (CallIn fns f) (HasTypeIn fns f) (Gives P) where
  toLogic := logic_gives fun c d _ => hP c d
  toTypable := typable_any
  number := .number
  text := .text
  bound _ h := .bound h
  unbound := .unbound
  relocated := .relocated
  closure _ h := .closure h
  custom hg hk h := by
    rcases h with ⟨htogether, rfl⟩ | ⟨hout, gn, hg', hb⟩
    · exact .grouped hg hk htogether
    · exact .call hg' (Option.some.inj (hg.symm.trans hg') ▸ hk) hout hb
  operation := .operation
  nothing := .nothing
  applied := .applied
  misapplied := .misapplied
  free := trivial
  arity := trivial
  notCallable _ := trivial
  mismatch _ _ _ _ := trivial
  declared _ _ _ _ := trivial

theorem typeOf_gives (hP : ∀ c d, P c → P (c.record d)) (x : Expr) (scope : Scope)
    (h : ∀ g ∈ x.asks fns, Gives P (resultOf g) (CallIn fns f g)) :
    Gives P (typeOf fns resultOf x scope) (HasTypeIn fns f scope x) :=
  typeOf_holds (discipline_hasTypeIn hP) x scope trivial h

end Checking

structure Checker.Grouped (fns : Functions) (active : List FuncId) (c : Checker) : Prop where
  stuck : c.stuck = []
  settled : ∀ f t, c.results.lookup f = some t → fns.Steady f → fns.Settles f t
  provisional : ∀ f g t, fns.Plain f → c.results.lookup f = none → fns.Together f g →
    c.results.lookup g = some t → t = .any
  unknown : ∀ f ∈ active, c.results.lookup f = none

namespace Checking

variable {fns : Functions}

theorem grouped_record {active : List FuncId} (c : Checker) (d : Diagnostic) (h : c.Grouped fns active) :
    (c.record d).Grouped fns active := by
  unfold Checker.record
  split
  · exact h
  · exact ⟨h.stuck, h.settled, h.provisional, h.unknown⟩

/-- What is known after a search: a function that is busy counts as `any`, and another one is remembered. -/
def Searched (fns : Functions) (active : List FuncId) (f : FuncId) (t : Ty) (c : Checker) : Prop :=
  c.Grouped fns active ∧ (f ∈ active ∧ t = .any ∨ f ∉ active ∧ c.results.lookup f = some t)

/-- Calls in the body of a steady function: those of its group are `any`, the others have settled. -/
theorem gives_of_searched {active : List FuncId} {f g : FuncId} {search : Checking Ty}
    (hsteady : fns.Steady f) (hneeds : ∀ a ∈ active, fns.Needs a f) (hasks : fns.Asks f g)
    (h : ∀ c t c', c.Grouped fns (f :: active) → search c = .ok t c' → Searched fns (f :: active) g t c') :
    Gives (Checker.Grouped fns (f :: active)) search (CallIn fns f g) := by
  intro c hc t c' hrun
  obtain ⟨hc', hsearched⟩ := h c t c' hc hrun
  refine ⟨hc', ?_⟩
  by_cases htogether : fns.Together f g
  · refine .inl ⟨htogether, ?_⟩
    rcases hsearched with ⟨-, ht⟩ | ⟨-, hknown⟩
    · exact ht
    · exact hc'.provisional f g t hsteady.1 (hc'.unknown f List.mem_cons_self) htogether hknown
  · refine .inr ⟨htogether, ?_⟩
    rcases hsearched with ⟨hmem, -⟩ | ⟨-, hknown⟩
    · -- a function that is busy needs this one
      rcases List.mem_cons.1 hmem with rfl | hmem
      · exact absurd (.refl g) htogether
      · exact absurd ⟨.single hasks, hneeds g hmem⟩ htogether
    · exact hc'.settled g t hknown (hsteady.of_asks hasks htogether)

/-- What is known once the result type of a function is found: it counts for good if the function is steady, and it is
`any` for the group of a plain function that is not known yet. -/
theorem grouped_found {active : List FuncId} {f : FuncId} {t : Ty} {c : Checker} (hc : c.Grouped fns (f :: active))
    (hactive : f ∉ active) (hsettles : fns.Steady f → fns.Settles f t)
    (hany : ∀ g, fns.Plain g → g ≠ f → c.results.lookup g = none → fns.Together g f → t = .any) :
    ({ c with results := (f, t) :: c.results } : Checker).Grouped fns active := by
  refine ⟨hc.stuck, fun g u hg hsteady => ?_, fun g h u hplain hnone htogether hh => ?_, fun g hg => ?_⟩
  · by_cases hgf : g = f
    · subst hgf
      rw [List.lookup_cons_self] at hg
      exact Option.some.inj hg ▸ hsettles hsteady
    · rw [lookup_cons_ne hgf] at hg
      exact hc.settled g u hg hsteady
  · have hgf : g ≠ f := by
      rintro rfl
      rw [List.lookup_cons_self] at hnone
      cases hnone
    rw [lookup_cons_ne hgf] at hnone
    by_cases hhf : h = f
    · subst hhf
      rw [List.lookup_cons_self] at hh
      exact Option.some.inj hh ▸ hany g hplain hgf hnone htogether
    · rw [lookup_cons_ne hhf] at hh
      exact hc.provisional g h u hplain hnone htogether hh
  · have hgf : g ≠ f := by
      rintro rfl
      exact hactive hg
    rw [lookup_cons_ne hgf]
    exact hc.unknown g (List.mem_cons_of_mem f hg)

theorem resultAt_grouped {depth : Nat} {active : List FuncId} (hroom : Room fns depth active) {f : FuncId}
    (hneeds : ∀ a ∈ active, fns.Needs a f) {c c' : Checker} {t : Ty} (hc : c.Grouped fns active)
    (hrun : resultAt fns depth active f c = .ok t c') : Searched fns active f t c' := by
  induction depth generalizing active f c t c' with
  | zero =>
      obtain ⟨n, hn⟩ := hroom.pos
      cases hn
  | succ depth ih =>
      cases resultAt_cases hroom hrun with
      | known hknown =>
          refine ⟨hc, .inr ⟨fun hmem => ?_, hknown⟩⟩
          rw [hc.unknown f hmem] at hknown
          cases hknown
      | busy _ hbusy ht => exact ⟨hc, .inl ⟨hbusy.resolve_right (by simp [hc.stuck]), ht⟩⟩
      | @found n fn c₁ hn hknown hactive hstuck hf hbody =>
          cases hn
          have hinner : c.Grouped fns (f :: active) :=
            ⟨hc.stuck, hc.settled, hc.provisional, List.forall_mem_cons.2 ⟨hknown, hc.unknown⟩⟩
          have hsearch : ∀ g ∈ fn.body.asks fns, ∀ c t c', c.Grouped fns (f :: active) →
              resultAt fns depth (f :: active) g c = .ok t c' → Searched fns (f :: active) g t c' := by
            intro g hg c t c' hc hrun
            have hasks : fns.Asks f g := ⟨fn, hf, hg⟩
            refine ih (hroom.enter hf hactive) (List.forall_mem_cons.2 ⟨.single hasks, fun a ha => ?_⟩) hc hrun
            exact (hneeds a ha).tail hasks
          have hc₁ : c₁.Grouped fns (f :: active) :=
            typeOf_keeps (progress_of_record grouped_record) fn.body _
              (fun g hg c t c' hrun hc => (hsearch g hg c t c' hc hrun).1) c t c₁ hbody hinner
          refine ⟨grouped_found hc₁ hactive (fun hsteady => ?_) fun g hplain hgf hnone htogether => ?_,
            .inr ⟨hactive, List.lookup_cons_self⟩⟩
          · have hgives := typeOf_gives grouped_record fn.body (Scope.bind [] fn.params) fun g hg =>
              gives_of_searched hsteady hneeds ⟨fn, hf, hg⟩ (hsearch g hg)
            exact ⟨fn, hf, (hgives c hinner t c₁ hbody).2⟩
          · -- the function forwards to another one of the group, which is busy or remembered as `any`
            obtain ⟨k, hforwards⟩ := hplain f htogether (Ne.symm hgf)
            obtain ⟨fn', hf', hasks, hcall⟩ := hforwards.body
            obtain rfl := Option.some.inj (hf.symm.trans hf')
            rw [hcall] at hbody
            have hk : k ∈ fn.body.asks fns := by
              rw [hasks]
              exact List.mem_singleton_self k
            rcases (hsearch k hk c t c₁ hinner hbody).2 with ⟨-, ht⟩ | ⟨-, hknown⟩
            · exact ht
            · exact hc₁.provisional g k t hplain hnone (htogether.of_forwards (Ne.symm hgf) hforwards) hknown

theorem resultType_grouped (fns : Functions) (f : FuncId) :
    Keeps (fun c c' => c.Grouped fns [] → c'.Grouped fns []) (resultType fns f) :=
  fun _ _ _ hrun hc => (resultAt_grouped (room_nil fns) (by simp) hc hrun).1

end Checking

namespace Query

variable {fns : Functions}

theorem runAll_grouped {qs : List Query} {report : Report} {c : Checker} (h : runAll fns qs { report } = .ok () c) :
    c.Grouped fns [] := by
  refine runAll_keeps (Checking.progress_of_record Checking.grouped_record) (Checking.resultType_grouped fns) qs
    { report } () c h ⟨rfl, ?_, ?_, ?_⟩
  · simp
  · simp
  · simp

/-- After any questions a steady function has the type that it settles on. -/
theorem settles_of_runAll {f : FuncId} (hf : fns.Steady f) {qs : List Query} {report : Report} {c d : Checker} {t : Ty}
    (h : runAll fns qs { report } = .ok () c) (ht : Checking.resultType fns f c = .ok t d) : fns.Settles f t := by
  obtain ⟨hd, hsearched⟩ := Checking.resultAt_grouped (Checking.room_nil fns) (by simp) (runAll_grouped h) ht
  obtain ⟨-, hknown⟩ := hsearched.resolve_left (by simp)
  exact hd.settled f t hknown hf

end Query

end Polish
