import Polish.Proofs.Lists
import Polish.Proofs.Text.Literal

namespace Polish.Script

/-- An expression as far as its code shows it: no places and no types, and callees by their names. -/
inductive Tree where
  | number (value : Double)
  | text (value : Bytes)
  | var (name : Bytes)
  | call (callee : Bytes) (args : List Tree)
  | closure (params : List Bytes) (body : Tree)

namespace Tree

mutual

def write (id : Bytes → Bytes) : Tree → Bytes
  | .number value => Emitting.number value
  | .text value => Text.literal value
  | .var name => name
  | .call callee args => Script.call (id callee) (writeList id args)
  | .closure params body => definition [] params (utf8 " return " ++ write id body)

def writeList (id : Bytes → Bytes) : List Tree → List Bytes
  | [] => []
  | x :: xs => write id x :: writeList id xs

end

theorem writeList_eq (id : Bytes → Bytes) (xs : List Tree) : writeList id xs = xs.map (write id) :=
  Companion.eq_map rfl (fun _ _ => rfl) xs

end Tree

structure IsVariable (name : Bytes) : Prop where
  ne_nil : name ≠ []
  bytes : ∀ b ∈ name, isNameByte b = true
  head : ∀ b ∈ name.head?, Bytes.isDigit b = false
  finite : name ≠ utf8 "NaN" ∧ name ≠ utf8 "Infinity"

inductive Tree.Readable (known : Bytes → Prop) : Tree → Prop
  | number (value) : Readable known (.number value)
  | text {value} (h : Text.wellFormed value = true) : Readable known (.text value)
  | var {name} (h : IsVariable name) : Readable known (.var name)
  | call {callee args} (hc : known callee) (ha : ∀ x ∈ args, Readable known x) : Readable known (.call callee args)
  | closure {params body} (hp : ∀ p ∈ params, IsVariable p) (hb : Readable known body) :
      Readable known (.closure params body)

def isWordByte (b : UInt8) : Bool := isNameByte b || b == ascii '.' || b == ascii '+' || b == ascii '-'

def word (text : Bytes) : Bytes × Bytes := (text.takeWhile isWordByte, text.dropWhile isWordByte)

def number? (word : Bytes) : Option Double :=
  if word = utf8 "NaN" then some .nan
  else if word = utf8 "Infinity" ∨ word.head?.any (fun b => Bytes.isDigit b || b == ascii '-') = true then
    Double.ofToken? word
  else none

section Items

variable {α : Type}

def items (item : Bytes → Option (α × Bytes)) : Nat → Bytes → Option (List α × Bytes)
  | 0, _ => none
  | n + 1, text => do
    let (a, rest) ← item text
    match rest with
    | [] => none
    | b :: rest =>
      if b = ascii ',' then (items item n rest).map (Prod.map (a :: ·) id)
      else if b = ascii ')' then some ([a], rest)
      else none

def list (item : Bytes → Option (α × Bytes)) (text : Bytes) : Option (List α × Bytes) :=
  match text with
  | [] => none
  | b :: rest => if b = ascii ')' then some ([], rest) else items item text.length text

end Items

def skip? (start text : Bytes) : Option Bytes :=
  if start.isPrefixOf text then some (text.drop start.length) else none

def param (text : Bytes) : Option (Bytes × Bytes) := some (word text)

/-- The expression that code starts with, and the code after it. Callees are told by their identifiers. -/
def expr (nameOf? : Bytes → Option Bytes) : Nat → Bytes → Option (Tree × Bytes)
  | 0, _ => none
  | depth + 1, text =>
    if text.head? = some (ascii '"') then (characters text.tail).map (Prod.map .text id)
    else
      let (first, rest) := word text
      if rest.head? = some (ascii '(') then do
        let callee ← nameOf? first
        let (args, rest) ← list (expr nameOf? depth) rest.tail
        return (.call callee args, rest)
      else if rest.head? = some (ascii ' ') then do
        let rest ← skip? (utf8 "function (") text
        let (params, rest) ← list param rest
        let rest ← skip? (utf8 "\x7b return ") rest
        let (body, rest) ← expr nameOf? depth rest
        let rest ← skip? (utf8 "\x7d") rest
        return (.closure params body, rest)
      else some ((number? first).elim (.var first) .number, rest)

def read (nameOf? : Bytes → Option Bytes) (text : Bytes) : Option Tree := do
  let (tree, rest) ← expr nameOf? (text.length + 1) text
  if rest.isEmpty then return tree else none

def Ends (rest : Bytes) : Prop := ∀ b ∈ rest.head?, b = ascii ')' ∨ b = ascii ',' ∨ b = ascii '\x7d'

theorem ends_cons {b : UInt8} (h : b = ascii ')' ∨ b = ascii ',' ∨ b = ascii '\x7d') (rest : Bytes) : Ends (b :: rest) := by
  rintro _ ⟨rfl⟩
  exact h

theorem Ends.isWordByte {rest : Bytes} (h : Ends rest) : ∀ b ∈ rest.head?, isWordByte b = false := by
  intro b hb
  rcases h b hb with rfl | rfl | rfl <;> decide

theorem word_append {w rest : Bytes} (hw : ∀ b ∈ w, isWordByte b = true) (hr : ∀ b ∈ rest.head?, isWordByte b = false) :
    word (w ++ rest) = (w, rest) := by
  have hstop : rest.takeWhile isWordByte = [] ∧ rest.dropWhile isWordByte = rest := by
    cases rest with
    | nil => exact ⟨rfl, rfl⟩
    | cons b rest => simp [hr b rfl]
  rw [word, List.takeWhile_append_of_pos hw, List.dropWhile_append_of_pos hw, hstop.1, hstop.2, List.append_nil]

theorem isWordByte_of_isNameByte {b : UInt8} (h : isNameByte b = true) : isWordByte b = true := by
  simp only [isWordByte, h, Bool.true_or]

theorem isWordByte_of_isDigit {b : UInt8} (h : Bytes.isDigit b = true) : isWordByte b = true := by
  simp only [isWordByte, isNameByte, Identifiers.isKept, h, Bool.or_true, Bool.true_or]

theorem IsVariable.word {name : Bytes} (h : IsVariable name) : ∀ b ∈ name, isWordByte b = true :=
  fun b hb => isWordByte_of_isNameByte (h.bytes b hb)

theorem IsMagnitude.isWordByte {n : Bytes} (h : IsMagnitude n) : ∀ b ∈ n, isWordByte b = true := by
  have hdigits {ds : Bytes} (hds : Double.AllDigits ds) : ∀ b ∈ ds, Script.isWordByte b = true :=
    fun b hb => isWordByte_of_isDigit (hds b hb)
  cases h with
  | nan | infinity => decide +kernel
  | decimal hw hf he =>
      refine List.forall_mem_append.2 ⟨?_, List.forall_mem_append.2 ⟨?_, ?_⟩⟩
      · cases hw with
        | zero => exact List.forall_mem_singleton.2 (by decide)
        | digits _ h => exact hdigits h
      · cases hf with
        | none => exact List.forall_mem_nil _
        | digits _ h => exact List.forall_mem_cons.2 ⟨by decide, hdigits h⟩
      · cases he with
        | none => exact List.forall_mem_nil _
        | digits hs _ h =>
            refine List.forall_mem_cons.2 ⟨by decide, List.forall_mem_cons.2 ⟨?_, hdigits h⟩⟩
            rcases hs with rfl | rfl <;> decide

theorem IsNumber.isWordByte {n : Bytes} (h : IsNumber n) : ∀ b ∈ n, isWordByte b = true := by
  cases h with
  | positive h => exact h.isWordByte
  | negative h => exact List.forall_mem_cons.2 ⟨by decide, h.isWordByte⟩

theorem IsNumber.head {n : Bytes} (h : IsNumber n) : n = utf8 "NaN" ∨ n = utf8 "Infinity" ∨
    n.head?.any (fun b => Bytes.isDigit b || b == ascii '-') = true := by
  cases h with
  | negative h => exact .inr (.inr rfl)
  | positive h =>
      cases h with
      | nan => exact .inl rfl
      | infinity => exact .inr (.inl rfl)
      | decimal hw hf he =>
          refine .inr (.inr ?_)
          cases hw with
          | zero => rfl
          | digits _ h => exact Bool.or_eq_true_iff.2 (.inl (h _ List.mem_cons_self))

theorem IsNumber.ne_nil {n : Bytes} (h : IsNumber n) : n ≠ [] := by
  rintro rfl
  have hhead := h.head
  revert hhead
  decide

theorem number?_number (value : Double) : number? (Emitting.number value) = some value := by
  cases value with
  | nan => decide +kernel
  | infinite negative => cases negative <;> decide +kernel
  | finite negative rank =>
      have htoken := (Double.ofToken?_finiteText negative rank).1
      have hne : Emitting.number (.finite negative rank) ≠ utf8 "NaN" := by
        intro hnan
        have hnone : Double.ofToken? (utf8 "NaN") = none := by decide +kernel
        cases hnone.symm.trans ((congrArg Double.ofToken? hnan).symm.trans htoken)
      have hhead := (isNumber_number (.finite negative rank)).head.resolve_left hne
      rw [number?, if_neg hne, if_pos hhead]
      exact htoken

theorem IsVariable.number? {name : Bytes} (h : IsVariable name) : number? name = none := by
  have hhead : ¬ name.head?.any (fun b => Bytes.isDigit b || b == ascii '-') = true := by
    rw [Option.any_eq_true]
    rintro ⟨b, hb, hstart⟩
    rw [h.head b hb, Bool.false_or, beq_iff_eq] at hstart
    have hbyte := h.bytes b (List.mem_of_mem_head? hb)
    rw [hstart] at hbyte
    revert hbyte
    decide
  rw [Script.number?, if_neg h.finite.1, if_neg (not_or.2 ⟨h.finite.2, hhead⟩)]

def Starts (text : Bytes) : Prop := text ≠ [] ∧ text.head? ≠ some (ascii ')')

theorem Starts.exists_cons {text : Bytes} (h : Starts text) : ∃ b bs, text = b :: bs ∧ b ≠ ascii ')' := by
  cases text with
  | nil => exact absurd rfl h.1
  | cons b bs => exact ⟨b, bs, rfl, fun he => h.2 (congrArg some he)⟩

theorem head_append_ne {w rest : Bytes} {b : UInt8} (hb : isWordByte b = false) (hw : ∀ b ∈ w, isWordByte b = true)
    (hr : rest.head? ≠ some b) : (w ++ rest).head? ≠ some b := by
  cases w with
  | nil => exact hr
  | cons a w =>
      intro he
      have ha := hw a List.mem_cons_self
      rw [Option.some.inj he, hb] at ha
      cases ha

theorem starts_cons {b : UInt8} (hb : b ≠ ascii ')') (bs : Bytes) : Starts (b :: bs) :=
  ⟨List.cons_ne_nil b bs, fun he => hb (Option.some.inj he)⟩

theorem starts_append {w rest : Bytes} (hw : ∀ b ∈ w, isWordByte b = true) (hr : Starts rest) : Starts (w ++ rest) :=
  ⟨List.append_ne_nil_of_right_ne_nil w hr.1, head_append_ne (by decide) hw hr.2⟩

theorem starts_word {w : Bytes} (hne : w ≠ []) (hw : ∀ b ∈ w, isWordByte b = true) : Starts w := by
  have hhead : (w ++ []).head? ≠ some (ascii ')') := head_append_ne (by decide) hw (by decide)
  rw [List.append_nil] at hhead
  exact ⟨hne, hhead⟩

section Lists

variable {α : Type} {item : Bytes → Option (α × Bytes)} {code : α → Bytes}

theorem items_intercalate {as : List α} (hne : as ≠ [])
    (h : ∀ a ∈ as, ∀ rest, Ends rest → item (code a ++ rest) = some (a, rest)) {n : Nat} (hn : as.length ≤ n)
    (rest : Bytes) :
    items item n (List.intercalate (utf8 ",") (as.map code) ++ (utf8 ")" ++ rest)) = some (as, rest) := by
  induction as generalizing n with
  | nil => exact absurd rfl hne
  | cons a as ih =>
      obtain ⟨n, rfl⟩ : ∃ m, n = m + 1 := ⟨n - 1, by simp only [List.length_cons] at hn; omega⟩
      obtain ⟨ha, has⟩ := List.forall_mem_cons.1 h
      have hcomma : ascii ')' ≠ ascii ',' := by decide
      cases as with
      | nil =>
          have hitem := ha (utf8 ")" ++ rest) (ends_cons (.inl rfl) rest)
          rw [List.map_singleton, List.intercalate_singleton, items, hitem]
          rfl
      | cons next as =>
          have hmore := ih (List.cons_ne_nil next as) has (Nat.le_of_succ_le_succ hn)
          have hitem := ha (utf8 "," ++ (List.intercalate (utf8 ",") ((next :: as).map code) ++ (utf8 ")" ++ rest)))
            (ends_cons (.inr (.inl rfl)) _)
          rw [List.map_cons, List.map_cons, List.intercalate_cons_cons, ← List.map_cons, List.append_assoc,
            List.append_assoc, items, hitem]
          exact congrArg (Option.map (Prod.map (a :: ·) id)) hmore

theorem length_le_intercalate (parts : List Bytes) :
    parts.length ≤ (List.intercalate (utf8 ",") parts).length + 1 := by
  induction parts with
  | nil => exact Nat.zero_le _
  | cons part parts ih =>
      cases parts with
      | nil => exact Nat.le_add_left _ _
      | cons next parts =>
          have hcomma : (utf8 ",").length = 1 := rfl
          rw [List.intercalate_cons_cons, List.length_append, List.length_append, hcomma, List.length_cons]
          omega

theorem list_intercalate {as : List α} (hstart : ∀ a ∈ as, Starts (code a))
    (h : ∀ a ∈ as, ∀ rest, Ends rest → item (code a ++ rest) = some (a, rest)) (rest : Bytes) :
    list item (List.intercalate (utf8 ",") (as.map code) ++ (utf8 ")" ++ rest)) = some (as, rest) := by
  cases as with
  | nil => rfl
  | cons a as =>
      have hlen := length_le_intercalate ((a :: as).map code)
      have hitems := items_intercalate (List.cons_ne_nil a as) h (n := (List.intercalate (utf8 ",")
        ((a :: as).map code) ++ (utf8 ")" ++ rest)).length) (by
          have hclose : (utf8 ")").length = 1 := rfl
          rw [List.length_append, List.length_append, hclose]
          rw [List.length_map] at hlen
          omega) rest
      obtain ⟨b, bs, ha, hb⟩ := (hstart a List.mem_cons_self).exists_cons
      obtain ⟨more, htext⟩ :
          ∃ more, List.intercalate (utf8 ",") ((a :: as).map code) ++ (utf8 ")" ++ rest) = b :: more := by
        rw [List.map_cons, ha]
        cases as with
        | nil => exact ⟨_, rfl⟩
        | cons next as =>
            rw [List.map_cons, List.intercalate_cons_cons]
            exact ⟨_, rfl⟩
      rw [htext] at hitems ⊢
      rw [list, if_neg hb, hitems]

end Lists

theorem list_params {params : List Bytes} (h : ∀ p ∈ params, IsVariable p) (rest : Bytes) :
    list param (List.intercalate (utf8 ",") params ++ (utf8 ")" ++ rest)) = some (params, rest) := by
  have hparam (p : Bytes) (hp : p ∈ params) (after : Bytes) (hafter : Ends after) : param (p ++ after) = some (p, after) :=
    congrArg some (word_append (h p hp).word hafter.isWordByte)
  have hlist := list_intercalate (fun p hp => starts_word (h p hp).ne_nil (h p hp).word) hparam rest
  rwa [List.map_id'] at hlist

theorem skip?_append (start rest : Bytes) : skip? start (start ++ rest) = some rest := by
  rw [skip?, if_pos (List.isPrefixOf_iff_prefix.2 (List.prefix_append start rest)), List.drop_left]

theorem length_le_of_mem_intercalate {part : Bytes} {parts : List Bytes} (h : part ∈ parts) :
    part.length ≤ (List.intercalate (utf8 ",") parts).length := by
  induction parts with
  | nil => cases h
  | cons first parts ih =>
      cases parts with
      | nil => rw [List.mem_singleton.1 h, List.intercalate_singleton]
      | cons next parts =>
          rw [List.intercalate_cons_cons, List.length_append, List.length_append]
          rcases List.mem_cons.1 h with rfl | h
          · omega
          · have := ih h
            omega

theorem definition_append (params : List Bytes) (body rest : Bytes) :
    definition [] params (utf8 " return " ++ body) ++ rest =
      utf8 "function (" ++ (List.intercalate (utf8 ",") params ++
        (utf8 ")" ++ (utf8 "\x7b return " ++ (body ++ (utf8 "\x7d" ++ rest))))) := by
  have hopen : utf8 "function (" = utf8 "function " ++ utf8 "(" := rfl
  have hbrace : utf8 ")\x7b" = utf8 ")" ++ utf8 "\x7b" := rfl
  have hreturn : utf8 "\x7b return " = utf8 "\x7b" ++ utf8 " return " := rfl
  simp only [definition, hopen, hbrace, hreturn, List.append_assoc, List.nil_append]

theorem length_lt_definition (name : Bytes) (params : List Bytes) (start body : Bytes) :
    body.length < (definition name params (start ++ body)).length := by
  have hpos : 0 < (utf8 "function ").length := by decide
  simp only [definition, List.length_append]
  omega

theorem length_lt_call (callee : Bytes) {arg : Bytes} {args : List Bytes} (h : arg ∈ args) :
    arg.length < (call callee args).length := by
  have hpos : 0 < (utf8 "(").length := by decide
  have hle := length_le_of_mem_intercalate h
  simp only [call, List.length_append]
  omega

theorem call_append (callee : Bytes) (args : List Bytes) (rest : Bytes) :
    call callee args ++ rest =
      callee ++ (utf8 "(" ++ (List.intercalate (utf8 ",") args ++ (utf8 ")" ++ rest))) := by
  simp only [call, List.append_assoc]

theorem Ends.head_ne {rest : Bytes} (h : Ends rest) {b : UInt8}
    (hb : b ≠ ascii ')' ∧ b ≠ ascii ',' ∧ b ≠ ascii '\x7d') : rest.head? ≠ some b := by
  intro he
  rcases h b he with rfl | rfl | rfl
  · exact hb.1 rfl
  · exact hb.2.1 rfl
  · exact hb.2.2 rfl

def Tells (id : Bytes → Bytes) (nameOf? : Bytes → Option Bytes) (known : Bytes → Prop) : Prop :=
  ∀ name, known name → (∀ b ∈ id name, isWordByte b = true) ∧ nameOf? (id name) = some name

section Trees

variable {id : Bytes → Bytes} {nameOf? : Bytes → Option Bytes} {known : Bytes → Prop}

theorem expr_word {w rest : Bytes} (hw : ∀ b ∈ w, isWordByte b = true) (hr : Ends rest) (depth : Nat) :
    expr nameOf? (depth + 1) (w ++ rest) = some ((number? w).elim (.var w) .number, rest) := by
  have hquote := head_append_ne (by decide) hw (hr.head_ne (b := ascii '"') (by decide))
  have hopen := hr.head_ne (b := ascii '(') (by decide)
  have hblank := hr.head_ne (b := ascii ' ') (by decide)
  rw [expr, if_neg hquote, word_append hw hr.isWordByte]
  simp only [if_neg hopen, if_neg hblank]

theorem expr_call {callee name : Bytes} (hw : ∀ b ∈ callee, isWordByte b = true) (hname : nameOf? callee = some name)
    {depth : Nat} {args : List Tree} {codes rest : Bytes}
    (hargs : list (expr nameOf? depth) (codes ++ (utf8 ")" ++ rest)) = some (args, rest)) :
    expr nameOf? (depth + 1) (callee ++ (utf8 "(" ++ (codes ++ (utf8 ")" ++ rest)))) = some (.call name args, rest) := by
  have hopen : ∀ after : Bytes, (utf8 "(" ++ after).head? = some (ascii '(') := fun _ => rfl
  have hquote : (callee ++ (utf8 "(" ++ (codes ++ (utf8 ")" ++ rest)))).head? ≠ some (ascii '"') :=
    head_append_ne (by decide) hw (by rw [hopen]; decide)
  rw [expr, if_neg hquote, word_append hw (by rw [hopen]; rintro _ ⟨rfl⟩; decide)]
  simp only [hopen, if_true, hname]
  exact congrArg (Option.bind · fun found => some (Tree.call name found.1, found.2)) hargs

theorem expr_closure {depth : Nat} {params : List Bytes} {body : Tree} {codes code rest : Bytes}
    (hparams : ∀ after, list param (codes ++ (utf8 ")" ++ after)) = some (params, after))
    (hbody : expr nameOf? depth (code ++ (utf8 "\x7d" ++ rest)) = some (body, utf8 "\x7d" ++ rest)) :
    expr nameOf? (depth + 1) (utf8 "function (" ++ (codes ++ (utf8 ")" ++ (utf8 "\x7b return " ++
      (code ++ (utf8 "\x7d" ++ rest)))))) = some (.closure params body, rest) := by
  generalize hafter : codes ++ (utf8 ")" ++ (utf8 "\x7b return " ++ (code ++ (utf8 "\x7d" ++ rest)))) = after
  have hword : word (utf8 "function (" ++ after) = (utf8 "function", utf8 " (" ++ after) := by
    have hsplit : utf8 "function (" = utf8 "function" ++ utf8 " (" := rfl
    rw [hsplit, List.append_assoc]
    apply word_append
    · decide +kernel
    · rintro _ ⟨rfl⟩
      decide
  have hquote : (utf8 "function (" ++ after).head? ≠ some (ascii '"') := by
    have hf : (utf8 "function (" ++ after).head? = some (ascii 'f') := rfl
    rw [hf]
    decide
  have hblank : (utf8 " (" ++ after).head? = some (ascii ' ') := rfl
  have hopen : ¬ some (ascii ' ') = some (ascii '(') := by decide
  rw [expr, if_neg hquote, hword]
  simp only [hblank, if_neg hopen, if_true, skip?_append]
  rw [← hafter]
  simp only [Option.bind_eq_bind, Option.bind_some, hparams, skip?_append, hbody]
  rfl

theorem starts_write (hid : Tells id nameOf? known) {t : Tree} (h : t.Readable known) : Starts (t.write id) := by
  cases h with
  | number value => exact starts_word (isNumber_number value).ne_nil (isNumber_number value).isWordByte
  | text h =>
      obtain ⟨inner, htext, -⟩ := characters_literal h []
      rw [List.append_nil] at htext
      rw [Tree.write, htext]
      exact starts_cons (by decide) inner
  | var h => exact starts_word h.ne_nil h.word
  | @call callee args hc _ =>
      have hcall := call_append (id callee) (Tree.writeList id args) []
      rw [List.append_nil] at hcall
      rw [Tree.write, hcall]
      exact starts_append (hid _ hc).1 (starts_cons (by decide) _)
  | closure _ _ => exact starts_cons (by decide) _

/-- Code is read as the tree that it is written from, up to where it ends. -/
theorem expr_write (hid : Tells id nameOf? known) {t : Tree} (h : t.Readable known) {depth : Nat}
    (hd : (t.write id).length < depth) {rest : Bytes} (hr : Ends rest) :
    expr nameOf? depth (t.write id ++ rest) = some (t, rest) := by
  obtain ⟨depth, rfl⟩ : ∃ m, depth = m + 1 := ⟨depth - 1, by omega⟩
  induction h generalizing depth rest with
  | number value =>
      rw [Tree.write, expr_word (isNumber_number value).isWordByte hr, number?_number]
      rfl
  | text h =>
      obtain ⟨inner, htext, hinner⟩ := characters_literal h rest
      rw [Tree.write, htext, expr, if_pos List.head?_cons, List.tail_cons, hinner]
      rfl
  | var h =>
      rw [Tree.write, expr_word h.word hr, h.number?]
      rfl
  | @call callee args hc ha ih =>
      rw [Tree.write, Tree.writeList_eq] at hd ⊢
      rw [call_append]
      obtain ⟨hword, hname⟩ := hid callee hc
      refine expr_call hword hname (list_intercalate (fun x hx => starts_write hid (ha x hx)) ?_ rest)
      intro x hx after hafter
      have hlt := length_lt_call (id callee) (List.mem_map_of_mem (f := Tree.write id) hx)
      obtain ⟨less, rfl⟩ : ∃ m, depth = m + 1 := ⟨depth - 1, by omega⟩
      exact ih x hx hafter less (by omega)
  | @closure params body hp hb ih =>
      rw [Tree.write] at hd ⊢
      rw [definition_append]
      have hlt := length_lt_definition [] params (utf8 " return ") (body.write id)
      obtain ⟨less, rfl⟩ : ∃ m, depth = m + 1 := ⟨depth - 1, by omega⟩
      exact expr_closure (list_params hp) (ih (ends_cons (.inr (.inr rfl)) rest) less (by omega))

end Trees

theorem read_write {id : Bytes → Bytes} {nameOf? : Bytes → Option Bytes} {known : Bytes → Prop}
    (hid : Tells id nameOf? known) {t : Tree} (h : t.Readable known) : read nameOf? (t.write id) = some t := by
  have hends : Ends [] := by rintro _ ⟨⟩
  have hread := expr_write hid h (Nat.lt_succ_self _) hends
  rw [List.append_nil] at hread
  rw [read, hread]
  rfl

end Polish.Script
