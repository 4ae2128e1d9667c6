import Polish.Proofs.Emission
import Polish.Proofs.Identifiers.History
import Polish.Proofs.Double.Text

namespace Polish.Script

def reserved : List Bytes :=
  ["await", "break", "case", "catch", "class", "const", "continue", "debugger", "default", "delete", "do", "else",
    "enum", "export", "extends", "false", "finally", "for", "function", "if", "import", "in", "instanceof", "new",
    "null", "return", "super", "switch", "this", "throw", "true", "try", "typeof", "var", "void", "while", "with",
    "yield"].map utf8

def isNameByte (b : UInt8) : Bool := Identifiers.isKept b || b == ascii '_' || 0x80 ≤ b

structure IsName (name : Bytes) : Prop where
  ne_nil : name ≠ []
  bytes : ∀ b ∈ name, isNameByte b = true
  head : ∀ b ∈ name.head?, Bytes.isDigit b = false
  free : name ∉ reserved

theorem isName_iff (name : Bytes) : IsName name ↔
    name ≠ [] ∧ name.all isNameByte = true ∧ name.head?.any Bytes.isDigit = false ∧ name ∉ reserved := by
  rw [List.all_eq_true, Option.any_eq_false]
  exact ⟨fun h => ⟨h.ne_nil, h.bytes, h.head, h.free⟩, fun ⟨hne, hbytes, hhead, hfree⟩ => ⟨hne, hbytes, hhead, hfree⟩⟩

instance (name : Bytes) : Decidable (IsName name) := decidable_of_iff' _ (isName_iff name)

inductive IsWhole : Bytes → Prop
  | zero : IsWhole [ascii '0']
  | digits {b bs} (hb : b ≠ ascii '0') (h : Double.AllDigits (b :: bs)) : IsWhole (b :: bs)

inductive IsFraction : Bytes → Prop
  | none : IsFraction []
  | digits {ds} (hne : ds ≠ []) (h : Double.AllDigits ds) : IsFraction (ascii '.' :: ds)

inductive IsExponent : Bytes → Prop
  | none : IsExponent []
  | digits {sign ds} (hs : sign = ascii '+' ∨ sign = ascii '-') (hne : ds ≠ []) (h : Double.AllDigits ds) :
      IsExponent (ascii 'e' :: sign :: ds)

inductive IsMagnitude : Bytes → Prop
  | nan : IsMagnitude (utf8 "NaN")
  | infinity : IsMagnitude (utf8 "Infinity")
  | decimal {whole fraction exponent} (hw : IsWhole whole) (hf : IsFraction fraction) (he : IsExponent exponent) :
      IsMagnitude (whole ++ (fraction ++ exponent))

inductive IsNumber : Bytes → Prop
  | positive {n} (h : IsMagnitude n) : IsNumber n
  | negative {n} (h : IsMagnitude n) : IsNumber (ascii '-' :: n)

def isHexDigit (b : UInt8) : Bool := Bytes.isDigit b || (ascii 'a' ≤ b && b ≤ ascii 'f')

inductive IsCharacter : Bytes → Prop
  | plain {c} (h : c ∉ ['\"', '\\', '\n', '\r', '\u2028', '\u2029']) : IsCharacter (Text.encode c)
  | escape {c} (h : c ∈ ['"', '\\', 'b', 'f', 'n', 'r', 't']) : IsCharacter [ascii '\\', ascii c]
  | unicode {digits} (hl : digits.length = 4) (hd : ∀ b ∈ digits, isHexDigit b = true) :
      IsCharacter (ascii '\\' :: ascii 'u' :: digits)

def IsLiteral (text : Bytes) : Prop :=
  ∃ characters : List Bytes, (∀ c ∈ characters, IsCharacter c) ∧ text = ascii '"' :: characters.flatten ++ [ascii '"']

def call (callee : Bytes) (args : List Bytes) : Bytes :=
  callee ++ utf8 "(" ++ List.intercalate (utf8 ",") args ++ utf8 ")"

def definition (name : Bytes) (params : List Bytes) (body : Bytes) : Bytes :=
  utf8 "function " ++ name ++ utf8 "(" ++ List.intercalate (utf8 ",") params ++ utf8 ")\x7b" ++ body ++ utf8 "\x7d"

inductive IsExpr : List Bytes → Bytes → Prop
  | number {scope n} (h : IsNumber n) : IsExpr scope n
  | text {scope t} (h : IsLiteral t) : IsExpr scope t
  | var {scope name} (hn : IsName name) (hs : name ∈ scope) : IsExpr scope name
  | operation {scope op x y} (ho : op ∈ [ascii '+', ascii '-', ascii '*', ascii '/']) (hx : IsExpr scope x)
      (hy : IsExpr scope y) : IsExpr scope (x ++ [ascii ' ', op, ascii ' '] ++ y)
  | call {scope callee args} (hn : IsName callee) (ha : ∀ x ∈ args, IsExpr scope x) : IsExpr scope (call callee args)
  | closure {scope params x} (hp : ∀ p ∈ params, IsName p) (hx : IsExpr (params ++ scope) x) :
      IsExpr scope (definition [] params (utf8 " return " ++ x))

/-- What a function does: it gives a value, or it calls a method. -/
inductive IsBody (scope : List Bytes) : Bytes → Prop
  | gives {x} (h : IsExpr scope x) : IsBody scope (utf8 "return " ++ x)
  | calls {object method args} (ho : IsName object) (hm : IsName method) (ha : ∀ x ∈ args, IsExpr scope x) :
      IsBody scope (call (object ++ utf8 "." ++ method) args)
  | blank {body} (h : IsBody scope body) : IsBody scope (utf8 " " ++ body)

inductive IsStatement : Bytes → Prop
  | function {name params body} (hn : IsName name) (hp : ∀ p ∈ params, IsName p) (hb : IsBody params body) :
      IsStatement (definition name params body)

section Numbers

open Double

theorem ascii_digitChar_ne : ∀ n < 10, 0 < n → ascii (Nat.digitChar n) ≠ ascii '0' := by decide

theorem head_decimal {n : Nat} (hn : 0 < n) : ∃ b bs, Bytes.decimal n = b :: bs ∧ b ≠ ascii '0' := by
  induction n using Nat.strongRecOn with
  | ind n ih =>
      unfold Bytes.decimal
      by_cases hlt : n < 10
      · rw [Nat.toDigits_of_lt_base hlt]
        exact ⟨_, [], rfl, ascii_digitChar_ne n hlt hn⟩
      · obtain ⟨b, bs, hdigits, hb⟩ := ih (n / 10) (by omega) (by omega)
        rw [Nat.toDigits_of_base_le (by decide) (Nat.le_of_not_lt hlt), List.map_append, ← Bytes.decimal, hdigits]
        exact ⟨b, _, rfl, hb⟩

def Leads (digits : Bytes) : Prop := ∃ b bs, digits = b :: bs ∧ b ≠ ascii '0' ∧ AllDigits digits

theorem leads_digitsOf {n : Nat} (hn : 0 < n) (place : Int) : Leads (digitsOf n place).digits := by
  obtain ⟨first, rest, hdecimal, hne⟩ := head_decimal hn
  obtain ⟨k, hk⟩ := eq_trimZeros_append (Bytes.decimal n)
  have hall : AllDigits (trimZeros (Bytes.decimal n)) := by
    intro b hb
    apply isDigit_of_mem_decimal (n := n)
    rw [hk]
    exact List.mem_append_left _ hb
  -- zeros are removed from the end only, so the first digit stays
  cases htrim : trimZeros (Bytes.decimal n) with
  | nil =>
      rw [htrim, List.nil_append, hdecimal] at hk
      have hzero : first ∈ List.replicate k (ascii '0') := hk ▸ List.mem_cons_self
      exact absurd (List.eq_of_mem_replicate hzero) hne
  | cons b bs =>
      rw [htrim, List.cons_append, hdecimal] at hk
      refine ⟨b, bs, htrim, ?_, hall⟩
      rwa [← (List.cons.inj hk).1]

theorem leads_shortest {rank : Nat} (hpos : 0 < rank) : Leads (shortest rank).digits :=
  leads_digitsOf (readsAs_first hpos).2 _

theorem isFraction_fraction {digits : Bytes} (h : AllDigits digits) : IsFraction (Layout.fraction digits) := by
  cases digits with
  | nil => exact .none
  | cons d ds => exact .digits (List.cons_ne_nil d ds) h

theorem isMagnitude_positional {d : Digits} (h : Leads d.digits) : IsMagnitude (Layout.positional d) := by
  obtain ⟨digits, point⟩ := d
  obtain ⟨b, bs, rfl, hb, hall⟩ := h
  cases point with
  | ofNat p =>
      cases p with
      | zero =>
          have hmagnitude := IsMagnitude.decimal .zero (isFraction_fraction hall) .none
          rwa [List.append_nil] at hmagnitude
      | succ p =>
          have hwhole := (hall.take (p + 1)).append (allDigits_zeros (p + 1 - (b :: bs).length))
          have hmagnitude := IsMagnitude.decimal (.digits hb hwhole) (isFraction_fraction (hall.drop (p + 1))) .none
          rwa [List.append_nil] at hmagnitude
  | negSucc p =>
      have hmagnitude := IsMagnitude.decimal .zero (isFraction_fraction ((allDigits_zeros (p + 1)).append hall)) .none
      rwa [List.append_nil] at hmagnitude

theorem isMagnitude_scientific {d : Digits} (h : Leads d.digits) : IsMagnitude (Layout.scientific d) := by
  obtain ⟨digits, point⟩ := d
  obtain ⟨b, bs, rfl, hb, hall⟩ := h
  have hsize : AllDigits (Bytes.decimal (point - 1).natAbs) := fun _ => isDigit_of_mem_decimal
  have hexponent := (allDigits_zeros (2 - (Bytes.decimal (point - 1).natAbs).length)).append hsize
  have hsome : List.replicate (2 - (Bytes.decimal (point - 1).natAbs).length) (ascii '0') ++
      Bytes.decimal (point - 1).natAbs ≠ [] := by
    intro hnil
    obtain ⟨hzeros, hdecimal⟩ := List.append_eq_nil_iff.1 hnil
    rw [hdecimal] at hzeros
    cases hzeros
  have hsign : (if point - 1 < 0 then ascii '-' else ascii '+') = ascii '+' ∨
      (if point - 1 < 0 then ascii '-' else ascii '+') = ascii '-' := by
    split
    · exact .inr rfl
    · exact .inl rfl
  have hwhole : IsWhole ((b :: bs).take 1) := .digits hb (hall.take 1)
  have hmagnitude := IsMagnitude.decimal hwhole (isFraction_fraction (hall.drop 1)) (.digits hsign hsome hexponent)
  simpa only [Layout.scientific, List.append_assoc, List.cons_append, List.nil_append] using hmagnitude

theorem isNumber_number (value : Double) : IsNumber (Emitting.number value) := by
  cases value with
  | nan => exact .positive .nan
  | infinite negative =>
      cases negative with
      | false => exact .positive .infinity
      | true => exact .negative .infinity
  | finite negative rank =>
      have hmagnitude : IsMagnitude (if rank.val = 0 then [ascii '0'] else Layout.general.write (shortest rank)) := by
        split
        · exact IsMagnitude.decimal .zero .none .none
        · rename_i hrank
          have hleads := leads_shortest (Nat.pos_of_ne_zero hrank)
          unfold Layout.write
          dsimp only
          split
          · exact isMagnitude_scientific hleads
          · exact isMagnitude_positional hleads
      cases negative with
      | false => exact .positive hmagnitude
      | true => exact .negative hmagnitude

end Numbers

section Literals

theorem length_hex (width n : Nat) : (Bytes.hex width n).length = width := by
  induction width generalizing n with
  | zero => rfl
  | succ width ih => rw [Bytes.hex, List.length_append, ih, List.length_singleton]

theorem isHexDigit_hexDigit : ∀ n < 16, isHexDigit (Bytes.hexDigit n) = true := by decide

theorem isHexDigit_of_mem_hex {width n : Nat} {b : UInt8} (h : b ∈ Bytes.hex width n) : isHexDigit b = true := by
  induction width generalizing n with
  | zero => cases h
  | succ width ih =>
      rcases List.mem_append.1 h with h | h
      · exact ih h
      · rw [List.mem_singleton.1 h]
        exact isHexDigit_hexDigit _ (Nat.mod_lt _ (by decide))

theorem isCharacter_unicode (n : Nat) : IsCharacter (ascii '\\' :: ascii 'u' :: Bytes.hex 4 n) :=
  .unicode (length_hex 4 n) fun _ => isHexDigit_of_mem_hex

theorem isCharacter_literalChar (c : Char) : IsCharacter (Text.literalChar c) := by
  unfold Text.literalChar
  split
  · rename_i hc
    exact .escape (by rcases hc with rfl | rfl <;> decide)
  · rename_i hc
    split
    · exact .escape (c := 'b') (by decide)
    · exact .escape (c := 'f') (by decide)
    · exact .escape (c := 'n') (by decide)
    · exact .escape (c := 'r') (by decide)
    · exact .escape (c := 't') (by decide)
    · rename_i hlf hcr _
      split
      · exact isCharacter_unicode _
      · rename_i hplain
        refine .plain fun hmem => ?_
        simp only [List.mem_cons, List.not_mem_nil, or_false] at hmem
        rcases hmem with hmem | hmem | rfl | rfl | rfl | rfl
        · exact hc (.inl hmem)
        · exact hc (.inr hmem)
        · exact hlf rfl
        · exact hcr rfl
        · exact hplain (by decide)
        · exact hplain (by decide)

theorem isLiteral_literal (text : Bytes) : IsLiteral (Text.literal text) := by
  refine ⟨(Text.pieces text).map Text.literalPiece, ?_, by rw [← List.flatMap_def]; rfl⟩
  rw [List.forall_mem_map]
  intro piece _
  cases piece with
  | scalar c => exact isCharacter_literalChar c
  | stray b => exact .plain (by decide)

end Literals

section Lines

def newline : UInt8 := ascii '\n'

theorem isDigit_newline : Bytes.isDigit newline = false := by decide

theorem newline_notMem_digits {digits : Bytes} (h : Double.AllDigits digits) : newline ∉ digits :=
  fun hmem => Bool.false_ne_true (isDigit_newline.symm.trans (h _ hmem))

theorem IsName.newline_notMem {name : Bytes} (h : IsName name) : newline ∉ name := by
  intro hmem
  have hbyte := h.bytes _ hmem
  revert hbyte
  decide

theorem IsMagnitude.newline_notMem {n : Bytes} (h : IsMagnitude n) : newline ∉ n := by
  cases h with
  | nan | infinity => decide +kernel
  | decimal hw hf he =>
      rw [List.mem_append, List.mem_append, not_or, not_or]
      refine ⟨?_, ?_, ?_⟩
      · cases hw with
        | zero => decide
        | digits _ h => exact newline_notMem_digits h
      · cases hf with
        | none => exact List.not_mem_nil
        | digits _ h =>
            rw [List.mem_cons, not_or]
            exact ⟨by decide, newline_notMem_digits h⟩
      · cases he with
        | none => exact List.not_mem_nil
        | digits hs _ h =>
            rw [List.mem_cons, List.mem_cons, not_or, not_or]
            refine ⟨by decide, ?_, newline_notMem_digits h⟩
            rcases hs with rfl | rfl
            · decide
            · decide

theorem IsNumber.newline_notMem {n : Bytes} (h : IsNumber n) : newline ∉ n := by
  cases h with
  | positive h => exact h.newline_notMem
  | negative h =>
      rw [List.mem_cons, not_or]
      exact ⟨by decide, h.newline_notMem⟩

theorem toNat_of_mem_encode {c : Char} {b : UInt8} (h : b ∈ Text.encode c) (hb : b < 0x80) : c.toNat = b.toNat := by
  have hhigh (n : Nat) (hlow : 0x80 ≤ n) (hlt : n < 256) (he : b = UInt8.ofNat n) : c.toNat = b.toNat := by
    rw [UInt8.lt_iff_toNat_lt, he, UInt8.toNat_ofNat_of_lt' hlt] at hb
    exact absurd hb (Nat.not_lt.2 hlow)
  unfold Text.encode String.utf8EncodeChar at h
  dsimp only at h
  split at h
  · rename_i hle
    rw [List.mem_singleton] at h
    rw [h, UInt8.toNat_ofNat_of_lt' (Nat.lt_of_le_of_lt hle (by decide))]
    rfl
  split at h
  · simp only [List.mem_cons, List.not_mem_nil, or_false] at h
    rcases h with h | h <;> exact hhigh _ (by omega) (by omega) h
  split at h
  · simp only [List.mem_cons, List.not_mem_nil, or_false] at h
    rcases h with h | h | h <;> exact hhigh _ (by omega) (by omega) h
  · simp only [List.mem_cons, List.not_mem_nil, or_false] at h
    rcases h with h | h | h | h <;> exact hhigh _ (by omega) (by omega) h

theorem newline_notMem_escape {c : Char} (h : c ∈ ['"', '\\', 'b', 'f', 'n', 'r', 't']) :
    newline ∉ [ascii '\\', ascii c] := by
  simp only [List.mem_cons, List.not_mem_nil, or_false] at h
  rcases h with rfl | rfl | rfl | rfl | rfl | rfl | rfl <;> decide

theorem newline_notMem_operation {op : UInt8} (h : op ∈ [ascii '+', ascii '-', ascii '*', ascii '/']) :
    newline ∉ [ascii ' ', op, ascii ' '] := by
  simp only [List.mem_cons, List.not_mem_nil, or_false] at h
  rcases h with rfl | rfl | rfl | rfl <;> decide

theorem IsCharacter.newline_notMem {text : Bytes} (h : IsCharacter text) : newline ∉ text := by
  intro hmem
  cases h with
  | @plain c hc =>
      have hcode : c.toNat = '\n'.toNat := toNat_of_mem_encode hmem (by decide)
      have hnewline : c = '\n' := Char.toNat_inj.1 hcode
      rw [hnewline] at hc
      exact hc (by decide)
  | escape hc => exact newline_notMem_escape hc hmem
  | unicode _ hd =>
      rcases List.mem_cons.1 hmem with h | h
      · revert h
        decide
      rcases List.mem_cons.1 h with h | h
      · revert h
        decide
      · have hdigit := hd _ h
        revert hdigit
        decide

theorem IsLiteral.newline_notMem {text : Bytes} (h : IsLiteral text) : newline ∉ text := by
  obtain ⟨characters, hcharacters, rfl⟩ := h
  intro hmem
  rcases List.mem_append.1 hmem with hmem | hmem
  · rcases List.mem_cons.1 hmem with hmem | hmem
    · revert hmem
      decide
    · obtain ⟨text, htext, hmem⟩ := List.mem_flatten.1 hmem
      exact (hcharacters text htext).newline_notMem hmem
  · revert hmem
    decide

theorem newline_notMem_intercalate {parts : List Bytes} (h : ∀ part ∈ parts, newline ∉ part) :
    newline ∉ List.intercalate (utf8 ",") parts := by
  intro hmem
  rcases mem_or_exists_of_mem_intercalate hmem with hseparator | ⟨part, hpart, hmem⟩
  · revert hseparator
    decide +kernel
  · exact h part hpart hmem

theorem newline_notMem_call {callee : Bytes} {args : List Bytes} (hc : newline ∉ callee)
    (ha : ∀ x ∈ args, newline ∉ x) : newline ∉ call callee args := by
  simp only [call, List.mem_append, not_or]
  exact ⟨⟨⟨hc, by decide +kernel⟩, newline_notMem_intercalate ha⟩, by decide +kernel⟩

theorem newline_notMem_definition {name : Bytes} {params : List Bytes} {body : Bytes} (hn : newline ∉ name)
    (hp : ∀ p ∈ params, newline ∉ p) (hb : newline ∉ body) : newline ∉ definition name params body := by
  simp only [definition, List.mem_append, not_or]
  exact ⟨⟨⟨⟨⟨⟨by decide +kernel, hn⟩, by decide +kernel⟩, newline_notMem_intercalate hp⟩, by decide +kernel⟩, hb⟩,
    by decide +kernel⟩

theorem IsExpr.newline_notMem {scope : List Bytes} {x : Bytes} (h : IsExpr scope x) : newline ∉ x := by
  induction h with
  | number h => exact h.newline_notMem
  | text h => exact h.newline_notMem
  | var hn _ => exact hn.newline_notMem
  | operation ho _ _ ihx ihy =>
      rw [List.mem_append, List.mem_append, not_or, not_or]
      exact ⟨⟨ihx, newline_notMem_operation ho⟩, ihy⟩
  | call hn _ ih => exact newline_notMem_call hn.newline_notMem ih
  | closure hp _ ih =>
      apply newline_notMem_definition List.not_mem_nil fun p hmem => (hp p hmem).newline_notMem
      rw [List.mem_append, not_or]
      exact ⟨by decide +kernel, ih⟩

theorem IsBody.newline_notMem {scope : List Bytes} {body : Bytes} (h : IsBody scope body) : newline ∉ body := by
  induction h with
  | gives h =>
      rw [List.mem_append, not_or]
      exact ⟨by decide +kernel, h.newline_notMem⟩
  | calls ho hm ha =>
      apply newline_notMem_call
      · rw [List.mem_append, List.mem_append, not_or, not_or]
        exact ⟨⟨ho.newline_notMem, by decide +kernel⟩, hm.newline_notMem⟩
      · exact fun x hx => (ha x hx).newline_notMem
  | blank _ ih =>
      rw [List.mem_append, not_or]
      exact ⟨by decide +kernel, ih⟩

theorem IsStatement.newline_notMem {line : Bytes} (h : IsStatement line) : newline ∉ line := by
  cases h with
  | function hn hp hb =>
      exact newline_notMem_definition hn.newline_notMem (fun p hmem => (hp p hmem).newline_notMem) hb.newline_notMem

end Lines

end Polish.Script
