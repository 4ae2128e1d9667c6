import Polish.Bytes
import Polish.Sorting

namespace Polish

inductive Basic where
  | string
  | number
  | boolean
  | null
  | any
  deriving DecidableEq

/-- The names of the fields of an object, in increasing order: none of them stands there twice. -/
structure FieldNames where
  list : List Bytes
  increasing : list.Pairwise (· < ·)
  deriving DecidableEq

def FieldNames.zip {α : Type} (names : FieldNames) (items : Fin names.list.length → α) : List (Bytes × α) :=
  List.ofFn fun i => (names.list.get i, items i)

inductive Ty where
  | basic (b : Basic)
  | unknown (code : Int)
  | array (element : Ty)
  | function (params : List Ty) (result : Ty)
  | object (names : FieldNames) (types : Fin names.list.length → Ty)
  | absent

namespace Basic

def all : List Basic := [.string, .number, .boolean, .null, .any]

def name : Basic → Bytes
  | .string => utf8 "string"
  | .number => utf8 "number"
  | .boolean => utf8 "boolean"
  | .null => utf8 "null"
  | .any => utf8 "any"

def ofWord? (word : Bytes) : Option Basic := all.find? (·.name = word)

end Basic

namespace Ty

def string : Ty := .basic .string
def number : Ty := .basic .number
def boolean : Ty := .basic .boolean
def null : Ty := .basic .null
def any : Ty := .basic .any

def ofSorted (fields : List (Bytes × Ty)) : Ty :=
  if h : (fields.map (·.1)).Pairwise (· < ·) then
    .object ⟨fields.map (·.1), h⟩ fun i => (fields.get (i.cast (List.length_map _))).2
  else .absent

def ofFields (fields : List (Bytes × Ty)) : Ty := ofSorted (Sorting.sort (fun a b => Bytes.le a.1 b.1) fields)

mutual

def name : Ty → Bytes
  | .basic b => b.name
  | .unknown _ => utf8 "invalid"
  | .array element => utf8 "[" ++ name element ++ utf8 "]"
  | .function params result => utf8 "Function " ++ nameList params ++ utf8 " => " ++ name result
  | .object _ _ => utf8 "object"
  | .absent => utf8 "<nil>"

def nameList : List Ty → Bytes
  | [] => []
  | [t] => name t
  | t :: ts => name t ++ utf8 ", " ++ nameList ts

end

mutual

def same : Ty → Ty → Bool
  | .basic a, .basic b => a = b
  | .unknown a, .unknown b => a = b
  | .array a, .array b => same a b
  | .function as a, .function bs b => same a b && sameList as bs
  | .object ns as, .object ms bs =>
    if h : ns = ms then (List.finRange _).all fun i => same (as i) (bs (i.cast (by rw [h]))) else false
  | .absent, .absent => true
  | _, _ => false

def sameList : List Ty → List Ty → Bool
  | [], [] => true
  | a :: as, b :: bs => same a b && sameList as bs
  | _, _ => false

end

/-- Whether a value of the first type is accepted where the second is declared: the types are equal, or
anything is accepted, or both are arrays and the elements cast. Function types must be equal. -/
def casts (source target : Ty) : Bool :=
  same source target || same target any ||
    match source, target with
    | .array a, .array b => casts a b
    | _, _ => false

end Ty

end Polish
