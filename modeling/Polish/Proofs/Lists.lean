import Polish.Sorting
import Mathlib.Data.List.Sort

namespace Polish

namespace Companion

variable {α β : Type}

/-- A function on lists that is defined beside a function on their items is a fold. -/
theorem eq_foldr {op : α → β → β} {init : β} {g : List α → β} (nil : g [] = init)
    (cons : ∀ x xs, g (x :: xs) = op x (g xs)) (xs : List α) : g xs = xs.foldr op init := by
  induction xs with
  | nil => exact nil
  | cons x xs ih => rw [cons, ih, List.foldr_cons]

theorem eq_map {f : α → β} {g : List α → List β} (nil : g [] = []) (cons : ∀ x xs, g (x :: xs) = f x :: g xs)
    (xs : List α) : g xs = xs.map f := (eq_foldr nil cons xs).trans List.map_eq_foldr.symm

theorem eq_flatMap {f : α → List β} {g : List α → List β} (nil : g [] = [])
    (cons : ∀ x xs, g (x :: xs) = f x ++ g xs) (xs : List α) : g xs = xs.flatMap f :=
  (eq_foldr nil cons xs).trans (eq_foldr List.flatMap_nil (fun _ _ => List.flatMap_cons) xs).symm

theorem all_iff {p : α → Bool} {g : List α → Bool} (nil : g [] = true) (cons : ∀ x xs, g (x :: xs) = (p x && g xs))
    {xs : List α} : g xs = true ↔ ∀ x ∈ xs, p x = true := by
  rw [← List.all_eq_true, eq_foldr nil cons, eq_foldr (g := fun xs => xs.all p) List.all_nil fun _ _ => List.all_cons]

end Companion

namespace Sorting

variable {α : Type} (le : α → α → Bool)

theorem insert_eq_orderedInsert (x : α) (xs : List α) : insert le x xs = xs.orderedInsert (fun a b => le a b) x := by
  induction xs with
  | nil => rfl
  | cons y ys ih => rw [insert, ih, List.orderedInsert]

@[simp]
theorem sort_eq_insertionSort (xs : List α) : sort le xs = xs.insertionSort fun a b => le a b := by
  induction xs with
  | nil => rfl
  | cons x xs ih => rw [sort, ih, insert_eq_orderedInsert, List.insertionSort_cons]

end Sorting

end Polish
