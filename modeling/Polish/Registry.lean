import Polish.Fault
import Polish.Sorting

namespace Polish

structure Registry where
  functions : Functions
  names : List (Bytes × FuncId)
  imported : List Bytes := []

namespace Registry

def natives : List Function :=
  let arithmetic (name : String) (op : Operation) : Function :=
    { name := utf8 name, params := [⟨utf8 "a", .number⟩, ⟨utf8 "b", .number⟩], kind := .native, operation := op }
  [arithmetic "core/add" .add, arithmetic "core/sub" .sub, arithmetic "core/mul" .mul,
    arithmetic "core/div" .div,
    { name := utf8 "core/cat", params := [⟨utf8 "val", .any⟩], kind := .native, operation := .cat }]

def initial : Registry :=
  { functions := natives.toArray, names := natives.mapIdx fun i fn => (fn.name, i) }

def lookup (r : Registry) (name : Bytes) : Option FuncId := r.names.lookup name

def arity (r : Registry) (f : FuncId) : Nat :=
  match r.functions[f]? with
  | some fn => fn.params.length
  | none => 0

def insert (r : Registry) (fn : Function) : FuncId × Registry :=
  (r.functions.size, { r with functions := r.functions.push fn })

def bind (r : Registry) (name : Bytes) (f : FuncId) : Registry :=
  { r with names := (name, f) :: r.names.filter (·.1 != name) }

def declare (r : Registry) (fn : Function) : Registry := (r.insert fn).2.bind fn.name (r.insert fn).1

/-- Removes a function from its name, if the name still stands for it. -/
def remove (r : Registry) (name : Bytes) (f : FuncId) : Registry :=
  if r.lookup name = some f then { r with names := r.names.filter (·.1 != name) } else r

theorem lookup_without_self (names : List (Bytes × FuncId)) (name : Bytes) :
    (names.filter (·.1 != name)).lookup name = none := by
  simp only [List.lookup_eq_none_iff, List.mem_filter]
  intro entry h
  simpa using Ne.symm (bne_iff_ne.1 h.2)

theorem lookup_without_of_ne (names : List (Bytes × FuncId)) {name other : Bytes} (hne : other ≠ name) :
    (names.filter (·.1 != name)).lookup other = names.lookup other := by
  induction names with
  | nil => rfl
  | cons entry names ih =>
      obtain ⟨key, f⟩ := entry
      by_cases h : key = name
      · have hk : (other == key) = false := beq_false_of_ne (h ▸ hne)
        simpa [h ▸ hk, h, List.lookup_cons] using ih
      · simp [h, List.lookup_cons, ih]

theorem lookup_bind_self (r : Registry) (name : Bytes) (f : FuncId) :
    (r.bind name f).lookup name = some f := by
  simp [bind, lookup]

theorem lookup_bind_of_ne (r : Registry) {name other : Bytes} (hne : other ≠ name) (f : FuncId) :
    (r.bind name f).lookup other = r.lookup other := by
  simp [bind, lookup, List.lookup_cons, beq_false_of_ne hne, lookup_without_of_ne r.names hne]

theorem lookup_remove_self (r : Registry) (name : Bytes) (f : FuncId) :
    (r.remove name f).lookup name = if r.lookup name = some f then none else r.lookup name := by
  unfold remove
  split
  · exact lookup_without_self r.names name
  · rfl

theorem lookup_remove_of_ne (r : Registry) {name other : Bytes} (hne : other ≠ name) (f : FuncId) :
    (r.remove name f).lookup other = r.lookup other := by
  unfold remove
  split
  · exact lookup_without_of_ne r.names hne
  · rfl

def isImported (r : Registry) (path : Bytes) : Bool := r.imported.contains path

def markImported (r : Registry) (path : Bytes) : Registry :=
  if r.isImported path then r else { r with imported := path :: r.imported }

theorem isImported_markImported (r : Registry) (path other : Bytes) :
    (r.markImported path).isImported other = (decide (other = path) || r.isImported other) := by
  unfold markImported
  split
  · rename_i h
    by_cases he : other = path
    · subst he; simp [h]
    · simp [he]
  · by_cases he : other = path <;> simp [isImported, he]

def listing (r : Registry) : List FuncId :=
  (Sorting.sort (fun a b => Bytes.le a.1 b.1) r.names).map (·.2)

def pending? (r : Registry) : Option Bytes :=
  r.listing.findSome? fun f => match r.functions[f]? with
    | some fn => if fn.kind = .pending then some fn.name else none
    | none => none

end Registry

end Polish
