import Polish.Problem
import Polish.Proofs.Casts

namespace Polish

/-- Texts of which none is the start of the other are different, whatever follows. -/
theorem Bytes.append_ne {a b : Bytes} (hab : ¬ a <+: b) (hba : ¬ b <+: a) (r s : Bytes) : a ++ r ≠ b ++ s := by
  intro h
  rcases List.prefix_or_prefix_of_prefix (List.prefix_append a r) (h ▸ List.prefix_append b s) with hp | hp
  · exact hab hp
  · exact hba hp

theorem Basic.name_append_ne (x : Basic) {start : Bytes}
    (h : start = utf8 "[" ∨ start = utf8 "Function " ∨ start = utf8 " => ") (r s : Bytes) :
    x.name ++ r ≠ start ++ s := by
  rcases h with rfl | rfl | rfl <;> exact Bytes.append_ne (by cases x <;> decide) (by cases x <;> decide) r s

theorem Basic.name_append_inj {x y : Basic} {r s : Bytes} (h : x.name ++ r = y.name ++ s) : x = y ∧ r = s := by
  have hxy : x = y := by
    by_contra hne
    refine Bytes.append_ne ?_ ?_ r s h
    · cases x <;> cases y <;> first | exact absurd rfl hne | decide
    · cases x <;> cases y <;> first | exact absurd rfl hne | decide
  subst hxy
  exact ⟨rfl, List.append_cancel_left h⟩

namespace Ty

mutual

def isSimple : Ty → Bool
  | .basic _ => true
  | .array element => isSimple element
  | .function params result => areSimple params && isSimple result
  | .unknown _ | .object _ _ | .absent => false

def areSimple : List Ty → Bool
  | [] => true
  | t :: ts => isSimple t && areSimple ts

end

theorem areSimple_iff {ts : List Ty} : areSimple ts = true ↔ ∀ t ∈ ts, t.isSimple = true :=
  Companion.all_iff rfl fun _ _ => rfl

def others (ts : List Ty) : Bytes := ts.flatMap fun t => utf8 ", " ++ t.name

theorem nameList_cons (t : Ty) (ts : List Ty) : nameList (t :: ts) = t.name ++ others ts := by
  induction ts generalizing t with
  | nil => rw [nameList, others, List.flatMap_nil, List.append_nil]
  | cons u ts ih =>
      rw [nameList, ih u, others, others, List.flatMap_cons, List.append_assoc, List.append_assoc]
      exact List.cons_ne_nil u ts

theorem name_array_append (element : Ty) (r : Bytes) :
    (Ty.array element).name ++ r = utf8 "[" ++ (element.name ++ (utf8 "]" ++ r)) := by
  rw [name, List.append_assoc, List.append_assoc]

theorem name_function_append (params : List Ty) (result : Ty) (r : Bytes) :
    (Ty.function params result).name ++ r =
      utf8 "Function " ++ (nameList params ++ (utf8 " => " ++ (result.name ++ r))) := by
  rw [name, List.append_assoc, List.append_assoc, List.append_assoc]

theorem arrow_append_ne {t : Ty} (ht : t.isSimple = true) (r s : Bytes) : utf8 " => " ++ r ≠ t.name ++ s := by
  cases t with
  | basic x => exact (x.name_append_ne (.inr (.inr rfl)) s r).symm
  | array element =>
      rw [name_array_append]
      exact Bytes.append_ne (by decide) (by decide) r _
  | function params result =>
      rw [name_function_append]
      exact Bytes.append_ne (by decide) (by decide) r _
  | unknown | object | absent => cases ht

mutual

/-- A name is read from a text in one way, whatever follows. -/
theorem name_append_inj : ∀ {a b : Ty} {r s : Bytes}, a.isSimple = true → b.isSimple = true →
    a.name ++ r = b.name ++ s → a = b ∧ r = s
  | .basic x, b, r, s, _, hb, h => by
      cases b with
      | basic y =>
          obtain ⟨rfl, hrest⟩ := Basic.name_append_inj h
          exact ⟨rfl, hrest⟩
      | array e =>
          rw [name_array_append] at h
          exact absurd h (x.name_append_ne (.inl rfl) r _)
      | function ps t =>
          rw [name_function_append] at h
          exact absurd h (x.name_append_ne (.inr (.inl rfl)) r _)
      | unknown | object | absent => cases hb
  | .array e, b, r, s, ha, hb, h => by
      rw [name_array_append] at h
      cases b with
      | basic y => exact absurd h.symm (y.name_append_ne (.inl rfl) s _)
      | array e' =>
          rw [name_array_append] at h
          obtain ⟨rfl, hrest⟩ := name_append_inj (a := e) (b := e') ha hb (List.append_cancel_left h)
          exact ⟨rfl, List.append_cancel_left hrest⟩
      | function ps t =>
          rw [name_function_append] at h
          exact absurd h (Bytes.append_ne (by decide) (by decide) _ _)
      | unknown | object | absent => cases hb
  | .function ps t, b, r, s, ha, hb, h => by
      rw [name_function_append] at h
      cases b with
      | basic y => exact absurd h.symm (y.name_append_ne (.inr (.inl rfl)) s _)
      | array e =>
          rw [name_array_append] at h
          exact absurd h (Bytes.append_ne (by decide) (by decide) _ _)
      | function us u =>
          rw [name_function_append] at h
          obtain ⟨hps, ht⟩ := Bool.and_eq_true_iff.1 ha
          obtain ⟨hus, hu⟩ := Bool.and_eq_true_iff.1 hb
          obtain ⟨rfl, hresult⟩ := nameList_append_inj hps hus (List.append_cancel_left h)
          obtain ⟨rfl, hrest⟩ := name_append_inj (a := t) ht hu hresult
          exact ⟨rfl, hrest⟩
      | unknown | object | absent => cases hb
  | .unknown _, _, _, _, ha, _, _ | .object _ _, _, _, _, ha, _, _ | .absent, _, _, _, ha, _, _ => by cases ha

/-- The arrow shows where the parameters end, also where there are none. -/
theorem nameList_append_inj : ∀ {as bs : List Ty} {r s : Bytes}, areSimple as = true → areSimple bs = true →
    nameList as ++ (utf8 " => " ++ r) = nameList bs ++ (utf8 " => " ++ s) → as = bs ∧ r = s
  | [], [], _, _, _, _, h => ⟨rfl, List.append_cancel_left (List.append_cancel_left h)⟩
  | [], b :: bs, _, _, _, hb, h => by
      rw [nameList_cons, List.append_assoc] at h
      exact absurd h (arrow_append_ne (Bool.and_eq_true_iff.1 hb).1 _ _)
  | a :: as, [], _, _, ha, _, h => by
      rw [nameList_cons, List.append_assoc] at h
      exact absurd h.symm (arrow_append_ne (Bool.and_eq_true_iff.1 ha).1 _ _)
  | a :: as, b :: bs, _, _, ha, hb, h => by
      obtain ⟨ha, has⟩ := Bool.and_eq_true_iff.1 ha
      obtain ⟨hb, hbs⟩ := Bool.and_eq_true_iff.1 hb
      rw [nameList_cons, nameList_cons, List.append_assoc, List.append_assoc] at h
      obtain ⟨rfl, hothers⟩ := name_append_inj (a := a) ha hb h
      obtain ⟨rfl, hrest⟩ := others_append_inj has hbs hothers
      exact ⟨rfl, hrest⟩

theorem others_append_inj : ∀ {as bs : List Ty} {r s : Bytes}, areSimple as = true → areSimple bs = true →
    others as ++ (utf8 " => " ++ r) = others bs ++ (utf8 " => " ++ s) → as = bs ∧ r = s
  | [], [], _, _, _, _, h => ⟨rfl, List.append_cancel_left (List.append_cancel_left h)⟩
  | [], b :: bs, _, _, _, _, h => by
      rw [others, others, List.flatMap_nil, List.nil_append, List.flatMap_cons, List.append_assoc, List.append_assoc] at h
      exact absurd h (Bytes.append_ne (by decide) (by decide) _ _)
  | a :: as, [], _, _, _, _, h => by
      rw [others, others, List.flatMap_nil, List.nil_append, List.flatMap_cons, List.append_assoc, List.append_assoc] at h
      exact absurd h (Bytes.append_ne (by decide) (by decide) _ _)
  | a :: as, b :: bs, _, _, ha, hb, h => by
      obtain ⟨ha, has⟩ := Bool.and_eq_true_iff.1 ha
      obtain ⟨hb, hbs⟩ := Bool.and_eq_true_iff.1 hb
      simp only [others, List.flatMap_cons, List.append_assoc] at h
      obtain ⟨rfl, hothers⟩ := name_append_inj (a := a) ha hb (List.append_cancel_left h)
      obtain ⟨rfl, hrest⟩ := others_append_inj has hbs hothers
      exact ⟨rfl, hrest⟩

end

theorem name_eq_iff {a b : Ty} (ha : a.isSimple = true) (hb : b.isSimple = true) :
    a.name = b.name ↔ a.same b = true := by
  rw [same_iff]
  constructor
  · intro h
    exact (name_append_inj (r := []) (s := []) ha hb (by rw [h])).1
  · rintro rfl
    rfl

theorem same_absent_of_isSimple {t : Ty} (h : t.isSimple = true) : t.same .absent = false := by
  cases t with
  | absent => cases h
  | basic | unknown | array | function | object => rfl

theorem getLast?_name : ∀ {t : Ty}, t.isSimple = true → ∃ b, t.name.getLast? = some b ∧ b ≠ ascii 'e'
  | .basic x, _ => by cases x <;> exact ⟨_, rfl, by decide⟩
  | .array e, _ => ⟨ascii ']', by rw [name, List.getLast?_append]; rfl, by decide⟩
  | .function ps t, h => by
      obtain ⟨b, hb, hne⟩ := getLast?_name (t := t) (Bool.and_eq_true_iff.1 h).2
      exact ⟨b, by rw [name, List.getLast?_append, hb]; rfl, hne⟩
  | .unknown _, h | .object _ _, h | .absent, h => by cases h

end Ty

namespace Problem

def isSimple : Problem → Bool
  | .unbound _ | .arity _ _ => true
  | .mismatch source target => source.isSimple && target.isSimple
  | .notCallable got => got.isSimple
  | _ => false

variable {source target : Ty} (hs : source.isSimple = true) (ht : target.isSimple = true)
include hs ht

theorem message_mismatch :
    (mismatch source target).message = utf8 "cannot cast from " ++ (source.name ++ (utf8 " to " ++ target.name)) := by
  rw [message, Ty.same_absent_of_isSimple hs, Ty.same_absent_of_isSimple ht, if_neg (by decide), List.append_assoc,
    List.append_assoc]

/-- The text of a mismatch says which types do not cast, and it is the text of no other problem. -/
theorem eq_mismatch_of_message {p : Problem} (hp : p.isSimple = true)
    (h : p.message = (mismatch source target).message) : p = .mismatch source target := by
  rw [message_mismatch hs ht] at h
  cases p with
  | mismatch source' target' =>
      obtain ⟨hs', ht'⟩ := Bool.and_eq_true_iff.1 hp
      rw [message_mismatch hs' ht'] at h
      obtain ⟨rfl, hto⟩ := Ty.name_append_inj hs' hs (List.append_cancel_left h)
      have hname := List.append_cancel_left hto
      obtain ⟨rfl, -⟩ := Ty.name_append_inj (r := []) (s := []) ht' ht (by rw [hname])
      rfl
  | unbound name =>
      -- its text ends in a way in which no name of a type ends
      obtain ⟨b, hb, hne⟩ := Ty.getLast?_name ht
      have hlast := congrArg List.getLast? h
      rw [message, ← List.append_assoc, ← List.append_assoc, List.getLast?_append, List.getLast?_append, hb] at hlast
      exact absurd (Option.some.inj hlast).symm hne
  | arity want got =>
      rw [message, List.append_assoc, List.append_assoc] at h
      exact absurd h (Bytes.append_ne (by decide) (by decide) _ _)
  | notCallable got =>
      rw [message, Ty.same_absent_of_isSimple hp, if_neg (by decide)] at h
      exact absurd h (Bytes.append_ne (by decide) (by decide) _ _)
  | malformed | unknownType | duplicate | unresolved | unreadable | anonymousImport | entry | file => cases hp

end Problem

end Polish
