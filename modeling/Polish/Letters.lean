import Polish.Letters.Table

namespace Polish

abbrev Letter := Fin 26

class LetterSource (σ : Type) where
  draw : σ → Letter × σ

structure Cycle where
  word : Array Letter
  next : Nat := 0

instance : LetterSource Cycle where
  draw c := (c.word.getD (c.next % c.word.size) 0, { c with next := c.next + 1 })

/-- A sum of two earlier numbers gives the next one: the two are 273 places apart among the last 607. -/
structure Lagged where
  words : Array UInt64
  tap : Nat
  feed : Nat

namespace Lagged

def places : Nat := 607

def modulus : Int := 2147483647

def spread (x : Int) : Int := 48271 * x % modulus

def spreadWord (x : Int) : UInt64 × Int :=
  let a := spread x
  let b := spread a
  let c := spread b
  ((a.toNat.toUInt64 <<< 40) ^^^ (b.toNat.toUInt64 <<< 20) ^^^ c.toNat.toUInt64, c)

def seedStart (seed : Int) : Int :=
  let s := seed % modulus
  if s = 0 then 89482311 else s

def fill : List UInt64 → Int → List UInt64
  | [], _ => []
  | w :: ws, x =>
    let (u, x) := spreadWord x
    (u ^^^ w) :: fill ws x

def ofSeed (seed : Int) : Lagged :=
  let x := (List.range 20).foldl (fun x _ => spread x) (seedStart seed)
  { words := (fill seedWords.toList x).toArray, tap := 0, feed := places - 273 }

def before (i : Nat) : Nat := if i = 0 then places - 1 else i - 1

def next (g : Lagged) : Nat × Lagged :=
  let tap := before g.tap
  let feed := before g.feed
  let v := g.words.getD feed 0 + g.words.getD tap 0
  (((v &&& 0x7fffffffffffffff) >>> 32).toNat, { words := g.words.setIfInBounds feed v, tap, feed })

/-- Numbers from here on are drawn again, so that each letter is as likely as any other. -/
def acceptLimit : Nat := 0x80000000 - 0x80000000 % 26

def nextBelow : Nat → Lagged → Nat × Lagged
  | 0, g => g.next
  | tries + 1, g =>
    let (n, g) := g.next
    if n < acceptLimit then (n, g) else nextBelow tries g

instance : LetterSource Lagged where
  draw g :=
    let (n, g) := nextBelow places g
    (Fin.ofNat 26 n, g)

end Lagged

end Polish
