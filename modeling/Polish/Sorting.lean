namespace Polish.Sorting

variable {α : Type} (le : α → α → Bool)

def insert (x : α) : List α → List α
  | [] => [x]
  | y :: ys => if le x y then x :: y :: ys else y :: insert x ys

def sort : List α → List α
  | [] => []
  | x :: xs => insert le x (sort xs)

end Polish.Sorting
