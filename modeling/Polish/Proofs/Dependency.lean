import Polish.Dependency
import Polish.Proofs.Monad
import Mathlib.Data.List.Nodup
import Mathlib.Data.List.Perm.Subperm
import Mathlib.Logic.Relation

namespace Polish

open Relation (ReflTransGen)

namespace Expr

/-- An expression leads to its parts, and a call also to the body of the function. Anonymous functions and uses of
variables have parts only if closures are followed. -/
inductive Leads (fns : Functions) (follow : Bool) : Expr → Expr → Prop
  | argument {l f args x} (hx : x ∈ args) : Leads fns follow (.call l f args) x
  | body {l f args fn} (hf : fns[f]? = some fn) (hk : fn.kind = .custom) : Leads fns follow (.call l f args) fn.body
  | relocated {l x} (h : follow = true) : Leads fns follow (.relocated l x) x
  | closure {l params body} (h : follow = true) : Leads fns follow (.closure l params body) body

def Reaches (fns : Functions) (follow : Bool) (x : Expr) (f : FuncId) : Prop :=
  ∃ l args, ReflTransGen (Leads fns follow) x (.call l f args)

structure Walkable (fns : Functions) (follow : Bool) (x : Expr) : Prop where
  filled : ¬ ReflTransGen (Leads fns follow) x .hole
  complete : ∀ f, x.Reaches fns follow f → ∃ fn : Function, fns[f]? = some fn ∧ fn.kind ≠ .pending

variable {fns : Functions} {follow : Bool} {x y : Expr}

theorem Reaches.of_leads {f : FuncId} (h : Leads fns follow x y) (hf : y.Reaches fns follow f) :
    x.Reaches fns follow f := by
  obtain ⟨l, args, hpath⟩ := hf
  exact ⟨l, args, hpath.head h⟩

theorem Walkable.of_leads (hx : x.Walkable fns follow) (h : Leads fns follow x y) : y.Walkable fns follow :=
  ⟨fun hpath => hx.filled (hpath.head h), fun f hf => hx.complete f (hf.of_leads h)⟩

/-- What is kept on the way from an expression holds wherever the way leads. -/
theorem walkable_of_invariant (good : Expr → Prop) (hx : good x)
    (hstep : ∀ y z, good y → Leads fns follow y z → good z) (hhole : ¬ good .hole)
    (hcall : ∀ l f args, good (.call l f args) → ∃ fn : Function, fns[f]? = some fn ∧ fn.kind ≠ .pending) :
    x.Walkable fns follow := by
  have hall : ∀ y, ReflTransGen (Leads fns follow) x y → good y := by
    intro y hpath
    induction hpath with
    | refl => exact hx
    | tail _ hlast ih => exact hstep _ _ ih hlast
  constructor
  · intro hpath
    exact hhole (hall _ hpath)
  · rintro f ⟨l, args, hpath⟩
    exact hcall l f args (hall _ hpath)

end Expr

namespace Walk

variable {fns : Functions} {follow : Bool} {w w' w'' : Walk} {x : Expr} {f : FuncId}

/-- The calls in sight are met, and the bodies of their functions are entered, but perhaps not walked to the end. -/
inductive Covers (fns : Functions) (follow : Bool) (w : Walk) : Expr → Prop
  | number {l value} : Covers fns follow w (.number l value)
  | text {l value} : Covers fns follow w (.text l value)
  | var {l name} : Covers fns follow w (.var l name)
  | relocated {l x} (h : follow = true → Covers fns follow w x) : Covers fns follow w (.relocated l x)
  | closure {l params body} (h : follow = true → Covers fns follow w body) :
      Covers fns follow w (.closure l params body)
  | call {l f args} (hf : f ∈ w.found) (he : ∀ fn : Function, fns[f]? = some fn → fn.kind = .custom → f ∈ w.entered)
      (hargs : ∀ x ∈ args, Covers fns follow w x) : Covers fns follow w (.call l f args)

structure Tidy (fns : Functions) (w : Walk) : Prop where
  found : w.found.Nodup
  entered : w.entered.Nodup
  bound : ∀ f ∈ w.entered, f < fns.size

structure Grows (fns : Functions) (follow : Bool) (w w' : Walk) : Prop where
  found : w.found ⊆ w'.found
  entered : w.entered <:+ w'.entered
  bodies : ∀ f ∈ w'.entered, f ∉ w.entered → ∀ fn : Function, fns[f]? = some fn → w'.Covers fns follow fn.body

theorem Covers.mono (h : w.Covers fns follow x) (hf : w.found ⊆ w'.found) (he : w.entered ⊆ w'.entered) :
    w'.Covers fns follow x := by
  induction h with
  | number => exact .number
  | text => exact .text
  | var => exact .var
  | relocated _ ih => exact .relocated ih
  | closure _ ih => exact .closure ih
  | call hfound hentered _ ih => exact .call (hf hfound) (fun fn hfn hk => he (hentered fn hfn hk)) ih

theorem Grows.refl (w : Walk) : w.Grows fns follow w :=
  ⟨List.Subset.refl _, List.suffix_rfl, fun _ hf hn => absurd hf hn⟩

theorem Grows.covers (h : w.Grows fns follow w') (hx : w.Covers fns follow x) : w'.Covers fns follow x :=
  hx.mono h.found h.entered.subset

theorem Grows.trans (h : w.Grows fns follow w') (h' : w'.Grows fns follow w'') : w.Grows fns follow w'' := by
  refine ⟨List.Subset.trans h.found h'.found, h.entered.trans h'.entered, ?_⟩
  intro f hf hn fn hfn
  by_cases hmem : f ∈ w'.entered
  · exact h'.covers (h.bodies f hmem hn fn hfn)
  · exact h'.bodies f hf hmem fn hfn

theorem Covers.of_path (hbodies : ∀ f ∈ w.entered, ∀ fn : Function, fns[f]? = some fn → w.Covers fns follow fn.body)
    (hx : w.Covers fns follow x) {y : Expr} (hpath : ReflTransGen (Expr.Leads fns follow) x y) :
    w.Covers fns follow y := by
  induction hpath with
  | refl => exact hx
  | tail _ hlast ih =>
      cases hlast with
      | argument hmem =>
          cases ih with
          | call _ _ hargs => exact hargs _ hmem
      | body hfn hk =>
          cases ih with
          | call _ he _ => exact hbodies _ (he _ hfn hk) _ hfn
      | relocated hfollow =>
          cases ih with
          | relocated h => exact h hfollow
      | closure hfollow =>
          cases ih with
          | closure h => exact h hfollow

theorem length_le_of_nodup {l : List FuncId} {n : Nat} (hl : l.Nodup) (hbound : ∀ f ∈ l, f < n) : l.length ≤ n := by
  have hle := (List.subperm_of_subset hl fun f hf => List.mem_range.2 (hbound f hf)).length_le
  rwa [List.length_range] at hle

theorem Tidy.length_le (h : w.Tidy fns) : w.entered.length ≤ fns.size := length_le_of_nodup h.entered h.bound

theorem Tidy.length_lt (h : w.Tidy fns) (hf : f < fns.size) (hn : f ∉ w.entered) : w.entered.length < fns.size :=
  length_le_of_nodup (List.nodup_cons.2 ⟨hn, h.entered⟩) (List.forall_mem_cons.2 ⟨hf, h.bound⟩)

def meeting (w : Walk) (f : FuncId) : Walk :=
  if w.found.contains f then w else { w with found := w.found ++ [f] }

theorem entered_meeting (w : Walk) (f : FuncId) : (w.meeting f).entered = w.entered := by
  unfold meeting
  split <;> rfl

theorem mem_found_meeting {g : FuncId} : g ∈ (w.meeting f).found ↔ g ∈ w.found ∨ g = f := by
  unfold meeting
  split
  · rename_i h
    have hf : f ∈ w.found := List.contains_iff_mem.1 h
    constructor
    · exact Or.inl
    · rintro (hg | rfl)
      · exact hg
      · exact hf
  · rw [List.mem_append, List.mem_singleton]

theorem Tidy.meeting (h : w.Tidy fns) (f : FuncId) : (w.meeting f).Tidy fns := by
  unfold Walk.meeting
  split
  · exact h
  · rename_i hn
    have hf : f ∉ w.found := fun hf => hn (List.contains_iff_mem.2 hf)
    exact ⟨h.found.append (List.nodup_singleton f) (List.disjoint_singleton.2 hf), h.entered, h.bound⟩

theorem grows_meeting (w : Walk) (f : FuncId) : w.Grows fns follow (w.meeting f) := by
  refine ⟨fun g hg => mem_found_meeting.2 (.inl hg), ?_, ?_⟩
  · exact (entered_meeting w f).symm ▸ List.suffix_rfl
  · rw [entered_meeting]
    exact fun g hg hn => absurd hg hn

/-- A stage that ends, however deep it may go beyond what is left to enter, and meets only given functions. -/
structure Passes (fns : Functions) (follow : Bool) (stage : Nat → Walking Unit) (source : FuncId → Prop)
    (w w' : Walk) : Prop where
  run : ∀ depth, fns.size < depth + w.entered.length → stage depth w = .ok () w'
  tidy : w'.Tidy fns
  grows : w.Grows fns follow w'
  met : ∀ f ∈ w'.found, f ∈ w.found ∨ source f

variable {stage stage' : Nat → Walking Unit} {source source' : FuncId → Prop}

theorem passes_pure (h : w.Tidy fns) : w.Passes fns follow (fun _ => pure ()) source w :=
  ⟨fun _ _ => rfl, h, .refl w, fun _ => .inl⟩

theorem Passes.mono (h : w.Passes fns follow stage source w') (himp : ∀ f, source f → source' f) :
    w.Passes fns follow stage source' w' :=
  ⟨h.run, h.tidy, h.grows, fun f hf => (h.met f hf).imp_right (himp f)⟩

theorem Passes.bind (h : w.Passes fns follow stage source w') (h' : w'.Passes fns follow stage' source w'') :
    w.Passes fns follow (fun depth => stage depth >>= fun _ => stage' depth) source w'' := by
  refine ⟨?_, h'.tidy, h.grows.trans h'.grows, ?_⟩
  · intro depth hdepth
    have hle := h.grows.entered.length_le
    exact (bind_ok (h.run depth hdepth)).trans (h'.run depth (by omega))
  · intro f hf
    rcases h'.met f hf with hf | hf
    · exact h.met f hf
    · exact .inr hf

end Walk

namespace Walking

open Walk

variable {fns : Functions} {follow : Bool} {w : Walk} {f : FuncId} {fn : Function}

abbrev room (fns : Functions) (w : Walk) : Nat := fns.size - w.entered.length

theorem resolve_of_kind (hf : fns[f]? = some fn) (hk : fn.kind ≠ .pending) : fns.resolve f = .ok fn := by
  simp only [Functions.resolve, hf, if_neg hk]

theorem enter_succ (hf : fns[f]? = some fn) (hk : fn.kind ≠ .pending) (depth : Nat) (w : Walk) :
    enter fns follow (depth + 1) f w =
      if fn.kind = .custom ∧ f ∉ w.entered then
        visit follow (enter fns follow depth) fn.body { w.meeting f with entered := f :: w.entered }
      else .ok () (w.meeting f) := by
  have hmeet : meet f w = .ok () (w.meeting f) := rfl
  simp only [enter, resolve_of_kind hf hk]
  rw [bind_ok hmeet, get_bind, entered_meeting]
  by_cases hc : fn.kind = .custom ∧ f ∉ w.entered
  · have hbool : (decide (fn.kind = .custom) && !w.entered.contains f) = true := by simp [hc]
    rw [if_pos hc, if_pos hbool, modify_bind, entered_meeting]
  · have hbool : ¬ (decide (fn.kind = .custom) && !w.entered.contains f) = true := by simpa using hc
    rw [if_neg hc, if_neg hbool]
    rfl

theorem enter_passes (hf : fns[f]? = some fn) (hk : fn.kind ≠ .pending) (hw : w.Tidy fns)
    (hbody : fn.kind = .custom → f ∉ w.entered →
      ∃ w', Passes fns follow (fun depth => visit follow (enter fns follow depth) fn.body) (fn.body.Reaches fns follow)
        { w.meeting f with entered := f :: w.entered } w' ∧ w'.Covers fns follow fn.body) :
    ∃ w', Passes fns follow (fun depth => enter fns follow depth f)
        (fun g => g = f ∨ fn.kind = .custom ∧ fn.body.Reaches fns follow g) w w' ∧
      f ∈ w'.found ∧ (fn.kind = .custom → f ∈ w'.entered) := by
  have hsize : f < fns.size := (Array.getElem?_eq_some_iff.1 hf).1
  have hpos : ∀ depth, fns.size < depth + w.entered.length → ∃ d, depth = d + 1 := by
    intro depth hdepth
    have hle := hw.length_le
    exact ⟨depth - 1, by omega⟩
  by_cases hc : fn.kind = .custom ∧ f ∉ w.entered
  · obtain ⟨w', hpass, hcovers⟩ := hbody hc.1 hc.2
    have hgrows : w.Grows fns follow w' := by
      refine ⟨fun g hg => hpass.grows.found (mem_found_meeting.2 (.inl hg)),
        (List.suffix_cons f _).trans hpass.grows.entered, ?_⟩
      intro g hg hn gn hgn
      by_cases he : g = f
      · subst he
        rw [hf] at hgn
        exact Option.some.inj hgn ▸ hcovers
      · exact hpass.grows.bodies g hg (fun hmem => (List.mem_cons.1 hmem).elim he hn) gn hgn
    refine ⟨w', ⟨?_, hpass.tidy, hgrows, ?_⟩, hpass.grows.found (mem_found_meeting.2 (.inr rfl)),
      fun _ => hpass.grows.entered.subset List.mem_cons_self⟩
    · intro depth hdepth
      obtain ⟨d, rfl⟩ := hpos depth hdepth
      rw [enter_succ hf hk, if_pos hc]
      apply hpass.run
      rw [List.length_cons]
      omega
    · intro g hg
      rcases hpass.met g hg with hg | hg
      · exact (mem_found_meeting.1 hg).imp_right .inl
      · exact .inr (.inr ⟨hc.1, hg⟩)
  · refine ⟨w.meeting f, ⟨?_, hw.meeting f, grows_meeting w f, ?_⟩, mem_found_meeting.2 (.inr rfl), ?_⟩
    · intro depth hdepth
      obtain ⟨d, rfl⟩ := hpos depth hdepth
      rw [enter_succ hf hk, if_neg hc]
    · exact fun g hg => (mem_found_meeting.1 hg).imp_right .inl
    · intro hcustom
      rw [entered_meeting]
      by_contra hn
      exact hc ⟨hcustom, hn⟩

def Visits (fns : Functions) (follow : Bool) (x : Expr) (w : Walk) : Prop :=
  ∃ w', Passes fns follow (fun depth => visit follow (enter fns follow depth) x) (x.Reaches fns follow) w w' ∧
    w'.Covers fns follow x

section Visit

variable {n : Nat}

def Enters (fns : Functions) (follow : Bool) (n : Nat) : Prop :=
  ∀ (f : FuncId) (fn : Function) (w : Walk), fns[f]? = some fn → fn.kind ≠ .pending →
    (fn.kind = .custom → fn.body.Walkable fns follow) → w.Tidy fns → room fns w < n →
    ∃ w', Passes fns follow (fun depth => enter fns follow depth f)
        (fun g => g = f ∨ fn.kind = .custom ∧ fn.body.Reaches fns follow g) w w' ∧
      f ∈ w'.found ∧ (fn.kind = .custom → f ∈ w'.entered)

mutual

theorem visit_passes (henter : Enters fns follow n) : ∀ (x : Expr) (w : Walk), x.Walkable fns follow → w.Tidy fns →
    room fns w < n → Visits fns follow x w
  | .hole, _, hx, _, _ => absurd .refl hx.filled
  | .number _ _, w, _, hw, _ => ⟨w, passes_pure hw, .number⟩
  | .text _ _, w, _, hw, _ => ⟨w, passes_pure hw, .text⟩
  | .var _ _, w, _, hw, _ => ⟨w, passes_pure hw, .var⟩
  | .relocated l x, w, hx, hw, hn => by
      by_cases hfollow : follow = true
      · have hlead : Expr.Leads fns follow (.relocated l x) x := .relocated hfollow
        obtain ⟨w', hpass, hcovers⟩ := visit_passes henter x w (hx.of_leads hlead) hw hn
        refine ⟨w', ?_, .relocated fun _ => hcovers⟩
        simpa only [visit, if_pos hfollow] using hpass.mono fun g hg => hg.of_leads hlead
      · refine ⟨w, ?_, .relocated fun h => absurd h hfollow⟩
        simpa only [visit, if_neg hfollow] using passes_pure hw
  | .closure l params body, w, hx, hw, hn => by
      by_cases hfollow : follow = true
      · have hlead : Expr.Leads fns follow (.closure l params body) body := .closure hfollow
        obtain ⟨w', hpass, hcovers⟩ := visit_passes henter body w (hx.of_leads hlead) hw hn
        refine ⟨w', ?_, .closure fun _ => hcovers⟩
        simpa only [visit, if_pos hfollow] using hpass.mono fun g hg => hg.of_leads hlead
      · refine ⟨w, ?_, .closure fun h => absurd h hfollow⟩
        simpa only [visit, if_neg hfollow] using passes_pure hw
  | .call l f args, w, hx, hw, hn => by
      obtain ⟨fn, hf, hk⟩ := hx.complete f ⟨l, args, .refl⟩
      have hbody (hc : fn.kind = .custom) : Expr.Leads fns follow (.call l f args) fn.body := .body hf hc
      obtain ⟨w₁, hpass, hfound, hentered⟩ := henter f fn w hf hk (fun hc => hx.of_leads (hbody hc)) hw hn
      have hroom : room fns w₁ < n := by
        have hle := hpass.grows.entered.length_le
        simp only [room] at hn ⊢
        omega
      obtain ⟨w₂, hpass', hcovers⟩ := visitList_passes henter args w₁
        (fun x hmem => hx.of_leads (.argument hmem)) hpass.tidy hroom
      refine ⟨w₂, ?_, .call (hpass'.grows.found hfound) ?_ hcovers⟩
      · simp only [visit]
        refine Passes.bind (hpass.mono ?_) (hpass'.mono ?_)
        · rintro g (rfl | ⟨hc, hg⟩)
          · exact ⟨l, args, .refl⟩
          · exact hg.of_leads (hbody hc)
        · rintro g ⟨x, hmem, hg⟩
          exact hg.of_leads (.argument hmem)
      · intro fn' hf' hc
        rw [hf] at hf'
        obtain rfl := Option.some.inj hf'
        exact hpass'.grows.entered.subset (hentered hc)

theorem visitList_passes (henter : Enters fns follow n) : ∀ (xs : List Expr) (w : Walk),
    (∀ x ∈ xs, x.Walkable fns follow) → w.Tidy fns → room fns w < n →
    ∃ w', Passes fns follow (fun depth => visitList follow (enter fns follow depth) xs)
        (fun g => ∃ x ∈ xs, x.Reaches fns follow g) w w' ∧ ∀ x ∈ xs, w'.Covers fns follow x
  | [], w, _, hw, _ => ⟨w, passes_pure hw, nofun⟩
  | x :: xs, w, hxs, hw, hn => by
      obtain ⟨hx, hxs⟩ := List.forall_mem_cons.1 hxs
      obtain ⟨w₁, hpass, hcovers⟩ := visit_passes henter x w hx hw hn
      have hroom : room fns w₁ < n := by
        have hle := hpass.grows.entered.length_le
        simp only [room] at hn ⊢
        omega
      obtain ⟨w₂, hpass', hcovers'⟩ := visitList_passes henter xs w₁ hxs hpass.tidy hroom
      refine ⟨w₂, ?_, List.forall_mem_cons.2 ⟨hpass'.grows.covers hcovers, hcovers'⟩⟩
      simp only [visitList]
      refine Passes.bind (hpass.mono fun g hg => ⟨x, List.mem_cons_self, hg⟩) (hpass'.mono ?_)
      rintro g ⟨y, hy, hg⟩
      exact ⟨y, List.mem_cons_of_mem x hy, hg⟩

end

end Visit

-- the induction is on what is left to enter: a body is entered where there is one function less to go
theorem enters (fns : Functions) (follow : Bool) (n : Nat) : Enters fns follow n := by
  induction n with
  | zero => exact fun _ _ _ _ _ _ _ h => absurd h (Nat.not_lt_zero _)
  | succ n ih =>
      intro f fn w hf hk hbody hw hn
      apply enter_passes hf hk hw
      intro hc hnew
      have hsize : f < fns.size := (Array.getElem?_eq_some_iff.1 hf).1
      have hlt := hw.length_lt hsize hnew
      have hmeet := hw.meeting f
      apply visit_passes ih fn.body _ (hbody hc)
      · exact ⟨hmeet.found, List.nodup_cons.2 ⟨hnew, hw.entered⟩, List.forall_mem_cons.2 ⟨hsize, hw.bound⟩⟩
      · simp only [room, List.length_cons] at hn ⊢
        omega

theorem visits_start {x : Expr} (hx : x.Walkable fns follow) : Visits fns follow x {} :=
  visit_passes (enters fns follow (fns.size + 1)) x {} hx ⟨List.nodup_nil, List.nodup_nil, nofun⟩ (by simp [room])

end Walking

/-- The walk from an expression ends with all functions that the expression reaches, however deep it may go beyond
the number of functions. -/
theorem Expr.Walkable.dependencies {fns : Functions} {follow : Bool} {x : Expr} (hx : x.Walkable fns follow) :
    ∃ w : Walk, (∀ depth, fns.size < depth → Walking.visit follow (Walking.enter fns follow depth) x {} = .ok () w) ∧
      x.dependencies fns follow = .ok w.found ∧ w.found.Nodup ∧ ∀ f, f ∈ w.found ↔ x.Reaches fns follow f := by
  obtain ⟨w, hpass, hcovers⟩ := Walking.visits_start hx
  refine ⟨w, hpass.run, ?_, hpass.tidy.found, ?_⟩
  · rw [Expr.dependencies, hpass.run _ (Nat.lt_succ_self _)]
  · intro f
    constructor
    · intro hf
      exact (hpass.met f hf).resolve_left List.not_mem_nil
    · rintro ⟨l, args, hpath⟩
      have hcall := Walk.Covers.of_path (fun g hg => hpass.grows.bodies g hg List.not_mem_nil) hcovers hpath
      cases hcall with
      | call hf => exact hf

namespace Analyzer

variable {κ : Type} [DecidableEq κ]

def answers (fns : Functions) (expr : κ → Expr) : List κ → Analyzer κ → List (Except Fault (List FuncId))
  | [], _ => []
  | key :: keys, a => (a.analyze fns key (expr key)).1 :: answers fns expr keys (a.analyze fns key (expr key)).2

def Faithful (fns : Functions) (expr : κ → Expr) (a : Analyzer κ) : Prop :=
  ∀ key deps, a.known.lookup key = some deps → (expr key).dependencies fns a.follow = .ok deps

variable {fns : Functions} {expr : κ → Expr} {a : Analyzer κ}

theorem Faithful.analyze (h : a.Faithful fns expr) (key : κ) :
    (a.analyze fns key (expr key)).1 = (expr key).dependencies fns a.follow ∧
      (a.analyze fns key (expr key)).2.follow = a.follow ∧ (a.analyze fns key (expr key)).2.Faithful fns expr := by
  unfold Analyzer.analyze
  cases hknown : a.known.lookup key with
  | some deps => exact ⟨(h key deps hknown).symm, rfl, h⟩
  | none =>
      cases hdeps : (expr key).dependencies fns a.follow with
      | error fault => exact ⟨rfl, rfl, h⟩
      | ok deps =>
          refine ⟨rfl, rfl, ?_⟩
          intro other found hlookup
          rw [List.lookup_cons] at hlookup
          split at hlookup
          · rename_i he
            rw [beq_iff_eq.1 he, hdeps, Option.some.inj hlookup]
          · exact h other found hlookup

theorem Faithful.answers (h : a.Faithful fns expr) (keys : List κ) :
    a.answers fns expr keys = keys.map fun key => (expr key).dependencies fns a.follow := by
  induction keys generalizing a with
  | nil => rfl
  | cons key keys ih =>
      obtain ⟨hanswer, hfollow, hnext⟩ := h.analyze key
      rw [Analyzer.answers, ih hnext, hanswer, hfollow, List.map_cons]

theorem faithful_new (fns : Functions) (expr : κ → Expr) (follow : Bool) : Faithful fns expr { follow } :=
  fun _ _ h => nomatch h

/-- Whatever functions call each other, the answer for an expression is the list of the functions that it reaches,
each once; the walk ends with it however deep it may go beyond the number of functions; and an analyzer answers all
queries one after the other as new analyzers do. -/
theorem analyze_exact (fns : Functions) (follow : Bool) (expr : κ → Expr) :
    (∀ key, (expr key).Walkable fns follow →
      ∃ deps, (analyze { follow } fns key (expr key)).1 = .ok deps ∧ deps.Nodup ∧
        (∀ f, f ∈ deps ↔ (expr key).Reaches fns follow f) ∧
        ∀ depth, fns.size < depth →
          ∃ entered, Walking.visit follow (Walking.enter fns follow depth) (expr key) {} = .ok () ⟨deps, entered⟩) ∧
    ∀ keys : List κ, answers fns expr keys { follow } =
      keys.map fun key => (analyze { follow } fns key (expr key)).1 := by
  have hnew := faithful_new fns expr follow
  constructor
  · intro key hx
    obtain ⟨w, hrun, hdeps, hnodup, hmem⟩ := hx.dependencies
    exact ⟨w.found, (hnew.analyze key).1.trans hdeps, hnodup, hmem, fun depth hdepth => ⟨w.entered, hrun depth hdepth⟩⟩
  · intro keys
    rw [hnew.answers keys]
    apply List.map_congr_left
    exact fun key _ => (hnew.analyze key).1.symm

def ring : Functions :=
  #[{ name := utf8 "ping", kind := .custom, body := .call {} 1 [.closure {} [] (.call {} 2 [])] },
    { name := utf8 "pong", kind := .custom, body := .call {} 0 [] }, { name := utf8 "stop", kind := .native }]

theorem analyze_exact_ring :
    (Expr.call {} 0 []).Walkable ring true ∧
      ∃ deps, (analyze { follow := true } ring () (.call {} 0 [])).1 = .ok deps ∧ deps.Nodup ∧
        ∀ f, f ∈ deps ↔ (Expr.call {} 0 []).Reaches ring true f := by
  have hwalk : (Expr.call {} 0 []).Walkable ring true := by
    apply Expr.walkable_of_invariant (· ∈ [.call {} 0 [], .call {} 1 [.closure {} [] (.call {} 2 [])],
      .closure {} [] (.call {} 2 []), .call {} 2 []]) List.mem_cons_self
    · intro y z hy hlead
      simp only [List.mem_cons, List.not_mem_nil, or_false] at hy ⊢
      rcases hy with rfl | rfl | rfl | rfl
      · cases hlead with
        | argument hx => exact absurd hx List.not_mem_nil
        | body hf _ => exact .inr (.inl (Option.some.inj hf ▸ rfl))
      · cases hlead with
        | argument hx => exact .inr (.inr (.inl (List.mem_singleton.1 hx)))
        | body hf _ => exact .inl (Option.some.inj hf ▸ rfl)
      · cases hlead with
        | closure => exact .inr (.inr (.inr rfl))
      · cases hlead with
        | argument hx => exact absurd hx List.not_mem_nil
        | body hf hk => exact absurd (Option.some.inj hf ▸ hk) (by decide)
    · simp
    · intro l f args hmem
      simp only [List.mem_cons, Expr.call.injEq, List.not_mem_nil, or_false, reduceCtorEq, false_or] at hmem
      rcases hmem with ⟨-, rfl, -⟩ | ⟨-, rfl, -⟩ | ⟨-, rfl, -⟩ <;> exact ⟨_, rfl, by decide⟩
  obtain ⟨deps, hdeps, hnodup, hmem, -⟩ := (analyze_exact ring true fun _ : Unit => .call {} 0 []).1 () hwalk
  exact ⟨hwalk, deps, hdeps, hnodup, hmem⟩

end Analyzer

end Polish
