import Mathlib.Data.Nat.Digits.Defs
import MiniToolchain.Lib.JsonString

/-!
# JSON values

The grammar of JSON without insignificant blanks, as a relation between bytes and the value that
they denote.  Of the numbers it has the natural ones.

## Main definitions

* `Value` — what a text denotes.
* `Denotes`, `Elements`, `Members` — the grammar.

## Main results

* `Denotes.plain` — a text is UTF-8 and has no control characters.
* `Elements.snoc`, `Members.snoc` — one more element, one more member.
* `Denotes.unique` — the bytes denote no other value.
-/

namespace Json

inductive Value
  | null
  | bool (b : Bool)
  | number (n : ℕ)
  | string (text : List UInt8)
  | array (elements : List Value)
  | object (members : List (List UInt8 × Value))

/-- The value of decimal digits. -/
def digitsValue (digits : List UInt8) : ℕ :=
  Nat.ofDigits 10 (digits.reverse.map fun digit => digit.toNat - 0x30)

/-- A natural number in digits, without leading zeros. -/
structure IsNumber (digits : List UInt8) (n : ℕ) : Prop where
  ne_nil : digits ≠ []
  digit : ∀ digit ∈ digits, 0x30 ≤ digit.toNat ∧ digit.toNat ≤ 0x39
  leading : digits.head? = some 0x30 → digits.length = 1
  value : digitsValue digits = n

/-- A literal for a text. -/
def IsText (literal text : List UInt8) : Prop :=
  JsonString.IsString literal ∧ JsonString.decode literal = some text

abbrev comma : UInt8 := 0x2C

abbrev colon : UInt8 := 0x3A

mutual

/-- The bytes denote the value. -/
inductive Denotes : List UInt8 → Value → Prop
  | null : Denotes [0x6E, 0x75, 0x6C, 0x6C] .null
  | true : Denotes [0x74, 0x72, 0x75, 0x65] (.bool true)
  | false : Denotes [0x66, 0x61, 0x6C, 0x73, 0x65] (.bool false)
  | number {digits : List UInt8} {n : ℕ} (h : IsNumber digits n) : Denotes digits (.number n)
  | string {literal text : List UInt8} (h : IsText literal text) : Denotes literal (.string text)
  | emptyArray : Denotes [0x5B, 0x5D] (.array [])
  | array {inner : List UInt8} {elements : List Value} (h : Elements (comma :: inner) elements) :
      Denotes (0x5B :: (inner ++ [0x5D])) (.array elements)
  | emptyObject : Denotes [0x7B, 0x7D] (.object [])
  | object {inner : List UInt8} {members : List (List UInt8 × Value)}
      (h : Members (comma :: inner) members) : Denotes (0x7B :: (inner ++ [0x7D])) (.object members)

/-- The elements of an array, each with a comma before it. -/
inductive Elements : List UInt8 → List Value → Prop
  | nil : Elements [] []
  | cons {bytes rest : List UInt8} {value : Value} {elements : List Value} (h : Denotes bytes value)
      (tail : Elements rest elements) : Elements (comma :: (bytes ++ rest)) (value :: elements)

/-- The members of an object, each with a comma before it. -/
inductive Members : List UInt8 → List (List UInt8 × Value) → Prop
  | nil : Members [] []
  | cons {literal name bytes rest : List UInt8} {value : Value}
      {members : List (List UInt8 × Value)} (hname : IsText literal name) (h : Denotes bytes value)
      (tail : Members rest members) :
      Members (comma :: (literal ++ colon :: (bytes ++ rest))) ((name, value) :: members)

end

/-! ### The bytes of a text -/

/-- UTF-8 without control characters. -/
def Plain (bytes : List UInt8) : Prop := Utf8.WellFormed bytes ∧ ∀ byte ∈ bytes, 0x20 ≤ byte.toNat

theorem Plain.append {bytes bytes' : List UInt8} (h : Plain bytes) (h' : Plain bytes') :
    Plain (bytes ++ bytes') := by
  refine ⟨h.1.append h'.1, fun byte hmem => ?_⟩
  rcases List.mem_append.mp hmem with hmem | hmem
  · exact h.2 byte hmem
  · exact h'.2 byte hmem

/-- ASCII without control characters. -/
def Ascii (bytes : List UInt8) : Prop := ∀ byte ∈ bytes, 0x20 ≤ byte.toNat ∧ byte.toNat < 0x80

instance (bytes : List UInt8) : Decidable (Ascii bytes) := List.decidableBAll _ bytes

theorem Ascii.append {bytes bytes' : List UInt8} (h : Ascii bytes) (h' : Ascii bytes') :
    Ascii (bytes ++ bytes') := List.forall_mem_append.mpr ⟨h, h'⟩

theorem plain_of_ascii {bytes : List UInt8} (h : Ascii bytes) : Plain bytes :=
  ⟨JsonString.wellFormed_of_ascii h, fun byte hmem => (h byte hmem).1⟩

theorem Plain.cons {byte : UInt8} {bytes : List UInt8} (h : Plain bytes)
    (hbyte : 0x20 ≤ byte.toNat ∧ byte.toNat < 0x80) : Plain (byte :: bytes) := by
  have hfirst : Plain [byte] := plain_of_ascii (List.forall_mem_singleton.mpr hbyte)
  exact hfirst.append h

theorem IsText.plain {literal text : List UInt8} (h : IsText literal text) : Plain literal :=
  ⟨h.1.wellFormed, h.1.printable⟩

theorem IsNumber.plain {digits : List UInt8} {n : ℕ} (h : IsNumber digits n) : Plain digits := by
  refine plain_of_ascii fun digit hmem => ?_
  have := h.digit digit hmem
  omega

/-- Brackets around what is plain. -/
theorem Plain.enclosed {opening closing : UInt8} {inner : List UInt8} (h : Plain inner)
    (hopening : 0x20 ≤ opening.toNat ∧ opening.toNat < 0x80)
    (hclosing : 0x20 ≤ closing.toNat ∧ closing.toNat < 0x80) :
    Plain (opening :: (inner ++ [closing])) :=
  (h.append (plain_of_ascii (List.forall_mem_singleton.mpr hclosing))).cons hopening

/-- **A text is plain.** -/
theorem Denotes.plain {bytes : List UInt8} {value : Value} (h : Denotes bytes value) :
    Plain bytes := by
  have hempty : Plain [] := plain_of_ascii fun _ hmem => absurd hmem List.not_mem_nil
  -- along the grammar; the comma before the first element or member is not part of the text
  refine @Denotes.rec (fun bytes _ _ => Plain bytes)
    (fun inner _ _ => Plain inner.tail ∧ Plain inner) (fun inner _ _ => Plain inner.tail ∧
      Plain inner) ?null ?true ?false ?number ?string ?emptyArray
    ?array ?emptyObject ?object ⟨hempty, hempty⟩ ?element ⟨hempty, hempty⟩ ?member bytes value h
  case null => exact plain_of_ascii (by decide)
  case true => exact plain_of_ascii (by decide)
  case false => exact plain_of_ascii (by decide)
  case number => exact fun hnumber => hnumber.plain
  case string => exact fun htext => htext.plain
  case emptyArray => exact plain_of_ascii (by decide)
  case array => exact fun _ hinner => hinner.1.enclosed (by decide) (by decide)
  case emptyObject => exact plain_of_ascii (by decide)
  case object => exact fun _ hinner => hinner.1.enclosed (by decide) (by decide)
  case element =>
    intro bytes rest value elements _ _ hvalue hrest
    have hplain := hvalue.append hrest.2
    exact ⟨hplain, hplain.cons (by decide)⟩
  case member =>
    intro literal name bytes rest value members hname _ _ hvalue hrest
    have hplain :=
      hname.plain.append ((hvalue.append hrest.2).cons (by decide : 0x20 ≤ colon.toNat ∧ _))
    exact ⟨hplain, hplain.cons (by decide)⟩

/-! ### One more -/

theorem Elements.snoc {inner bytes : List UInt8} {elements : List Value} {value : Value}
    (hfront : Elements inner elements) (h : Denotes bytes value) :
    Elements (inner ++ comma :: bytes) (elements ++ [value]) := by
  refine @Elements.rec (fun _ _ _ => True)
    (fun inner elements _ => Elements (inner ++ comma :: bytes) (elements ++ [value]))
    (fun _ _ _ => True) trivial trivial trivial (fun _ => trivial) (fun _ => trivial) trivial
    (fun _ _ => trivial) trivial (fun _ _ => trivial) ?nil ?cons trivial (fun _ _ _ _ _ => trivial)
    inner elements hfront
  case nil => simpa using Elements.cons h .nil
  case cons =>
    intro bytes' rest value' elements' hvalue _ _ htail
    simpa using Elements.cons hvalue htail

theorem Members.snoc {inner literal name bytes : List UInt8} {members : List (List UInt8 × Value)}
    {value : Value} (hfront : Members inner members) (hname : IsText literal name)
    (h : Denotes bytes value) :
    Members (inner ++ comma :: (literal ++ colon :: bytes)) (members ++ [(name, value)]) := by
  refine @Members.rec (fun _ _ _ => True) (fun _ _ _ => True)
    (fun inner members _ =>
      Members (inner ++ comma :: (literal ++ colon :: bytes)) (members ++ [(name, value)]))
    trivial trivial trivial (fun _ => trivial) (fun _ => trivial) trivial
    (fun _ _ => trivial) trivial (fun _ _ => trivial) trivial (fun _ _ _ _ => trivial) ?nil ?cons
    inner members hfront
  case nil => simpa using Members.cons hname h .nil
  case cons =>
    intro literal' name' bytes' rest value' members' hname' hvalue _ _ htail
    simpa using Members.cons hname' hvalue htail

/-! ### The end of a literal -/

/-- The length of what stands before the quotation mark that closes a literal. -/
def bodyLength : List UInt8 → Option ℕ
  | [] => none
  | byte :: rest =>
    if byte = JsonString.quote then some 0
    else if byte = JsonString.backslash then
      match rest with
      | [] => none
      | _ :: rest => (bodyLength rest).map (· + 2)
    else (bodyLength rest).map (· + 1)

/-- Bytes that are neither quotation marks nor backslashes are part of what a literal has. -/
theorem bodyLength_append {front : List UInt8}
    (h : ∀ byte ∈ front, byte ≠ JsonString.quote ∧ byte ≠ JsonString.backslash)
    (rest : List UInt8) :
    bodyLength (front ++ rest) = (bodyLength rest).map (· + front.length) := by
  induction front with
  | nil => simp
  | cons byte front ih =>
    obtain ⟨⟨hquote, hbackslash⟩, hmore⟩ := List.forall_mem_cons.mp h
    rw [List.cons_append]
    conv_lhs => unfold bodyLength
    rw [if_neg hquote, if_neg hbackslash, ih hmore, Option.map_map]
    rfl

theorem bodyLength_escape (letter : UInt8) (rest : List UInt8) :
    bodyLength (JsonString.backslash :: letter :: rest) = (bodyLength rest).map (· + 2) := by
  conv_lhs => unfold bodyLength
  rw [if_neg (by decide), if_pos rfl]

/-- A hexadecimal digit is no quotation mark and no backslash. -/
theorem ne_of_hexValue {digit : UInt8} {value : ℕ} (h : JsonString.hexValue digit = some value) :
    digit ≠ JsonString.quote ∧ digit ≠ JsonString.backslash := by
  constructor
  · rintro rfl
    cases h
  · rintro rfl
    cases h

theorem bodyLength_body {body : List UInt8} (h : JsonString.Body body) (rest : List UInt8) :
    bodyLength (body ++ JsonString.quote :: rest) = some body.length := by
  induction h with
  | nil =>
    rw [List.nil_append]
    unfold bodyLength
    rw [if_pos rfl]
    rfl
  | @unescaped char tail _ hplain _ ih =>
    rw [List.append_assoc, bodyLength_append fun byte hmem => (hplain byte hmem).2, ih,
      Option.map_some, List.length_append, Nat.add_comm]
  | @escape letter byte tail _ _ ih =>
    rw [List.cons_append, List.cons_append, bodyLength_escape, ih]
    rfl
  | @unicode a b c d unit tail hdigits _ ih =>
    have hplain : ∀ byte ∈ [a, b, c, d], byte ≠ JsonString.quote ∧ byte ≠ JsonString.backslash := by
      unfold JsonString.codeUnit at hdigits
      split at hdigits
      · next ha hb hc hd =>
        simp only [List.forall_mem_cons]
        exact ⟨ne_of_hexValue ha, ne_of_hexValue hb, ne_of_hexValue hc, ne_of_hexValue hd,
          fun _ hmem => absurd hmem List.not_mem_nil⟩
      · cases hdigits
    have hmore := bodyLength_append hplain (tail ++ JsonString.quote :: rest)
    rw [ih] at hmore
    rw [List.cons_append, List.cons_append, bodyLength_escape]
    exact congrArg (Option.map (· + 2)) hmore

/-- No literal is the beginning of another. -/
theorem IsText.unique {literal literal' text text' rest rest' : List UInt8}
    (h : IsText literal text) (h' : IsText literal' text')
    (happend : literal ++ rest = literal' ++ rest') :
    text = text' ∧ rest = rest' := by
  obtain ⟨⟨body, rfl, hbody⟩, hdecode⟩ := h
  obtain ⟨⟨body', rfl, hbody'⟩, hdecode'⟩ := h'
  simp only [List.cons_append, List.append_assoc, List.nil_append, List.cons.injEq, true_and]
    at happend
  have hlength := bodyLength_body hbody rest
  rw [happend, bodyLength_body hbody', Option.some_inj] at hlength
  obtain ⟨rfl, hrest⟩ := List.append_inj happend hlength.symm
  exact ⟨Option.some_inj.mp (hdecode.symm.trans hdecode'), (List.cons.inj hrest).2⟩

/-! ### One value -/

/-- What may follow a value. -/
def Ends (rest : List UInt8) : Prop := ∀ byte ∈ rest.head?, byte = comma ∨ byte = 0x5D ∨ byte = 0x7D

theorem ends_of_elements {inner rest : List UInt8} {elements : List Value}
    (h : Elements inner elements) :
    Ends (inner ++ 0x5D :: rest) := by
  cases h <;> simp [Ends]

theorem ends_of_members {inner rest : List UInt8} {members : List (List UInt8 × Value)}
    (h : Members inner members) : Ends (inner ++ 0x7D :: rest) := by
  cases h <;> simp [Ends]

theorem not_digit_of_ends {byte : UInt8} {rest : List UInt8} (h : Ends (byte :: rest)) :
    ¬(0x30 ≤ byte.toNat ∧ byte.toNat ≤ 0x39) := by
  rcases h byte rfl with rfl | rfl | rfl <;> decide

/-- The digits of a number are all that there are. -/
theorem IsNumber.unique {digits digits' rest rest' : List UInt8} {n n' : ℕ} (h : IsNumber digits n)
    (h' : IsNumber digits' n') (hrest : Ends rest) (hrest' : Ends rest')
    (happend : digits ++ rest = digits' ++ rest') : n = n' ∧ rest = rest' := by
  -- the digits are the longest front of digits
  have hspan : ∀ {digits rest : List UInt8},
      (∀ digit ∈ digits, 0x30 ≤ digit.toNat ∧ digit.toNat ≤ 0x39) → Ends rest →
        (digits ++ rest).takeWhile (fun digit => decide (0x30 ≤ digit.toNat ∧ digit.toNat ≤ 0x39)) =
        digits := by
    intro digits rest hdigits hends
    rw [List.takeWhile_append_of_pos fun digit hmem => decide_eq_true (hdigits digit hmem)]
    cases rest with
    | nil => simp
    | cons byte rest =>
      rw [List.takeWhile_cons_of_neg (by simpa using not_digit_of_ends hends), List.append_nil]
  have hdigits : digits = digits' := by
    rw [← hspan h.digit hrest, happend, hspan h'.digit hrest']
  obtain ⟨-, hsame⟩ := List.append_inj happend (congrArg List.length hdigits)
  exact ⟨by rw [← h.value, ← h'.value, hdigits], hsame⟩

/-- The kinds of values, by the byte that they begin with. -/
inductive Kind
  | null
  | true
  | false
  | number
  | string
  | array
  | object
  deriving DecidableEq

def Value.kind : Value → Kind
  | .null => .null
  | .bool true => .true
  | .bool false => .false
  | .number _ => .number
  | .string _ => .string
  | .array _ => .array
  | .object _ => .object

def kindOf (byte : UInt8) : Option Kind :=
  if 0x30 ≤ byte.toNat ∧ byte.toNat ≤ 0x39 then some .number
  else if byte = 0x6E then some .null
  else if byte = 0x74 then some .true
  else if byte = 0x66 then some .false
  else if byte = JsonString.quote then some .string
  else if byte = 0x5B then some .array
  else if byte = 0x7B then some .object
  else none

theorem IsText.head {literal text : List UInt8} (h : IsText literal text) :
    literal.head? = some JsonString.quote := by
  obtain ⟨⟨body, rfl, -⟩, -⟩ := h
  rfl

theorem Denotes.head {bytes : List UInt8} {value : Value} (h : Denotes bytes value) :
    bytes.head?.bind kindOf = some value.kind := by
  cases h with
  | number hnumber =>
    obtain ⟨digit, digits, rfl⟩ := List.exists_cons_of_ne_nil hnumber.ne_nil
    exact if_pos (hnumber.digit digit List.mem_cons_self)
  | string htext =>
    rw [htext.head]
    rfl
  | null => rfl
  | true => rfl
  | false => rfl
  | emptyArray => rfl
  | array => rfl
  | emptyObject => rfl
  | object => rfl

/-- Values that begin alike are of one kind. -/
theorem Denotes.kind_eq {bytes bytes' rest rest' : List UInt8} {value value' : Value}
    (h : Denotes bytes value) (h' : Denotes bytes' value')
    (happend : bytes ++ rest = bytes' ++ rest') :
    value.kind = value'.kind := by
  have hhead := h.head
  have hhead' := h'.head
  cases bytes with
  | nil => cases hhead
  | cons byte bytes =>
    cases bytes' with
    | nil => cases hhead'
    | cons byte' bytes' =>
      obtain rfl : byte = byte' := (List.cons.inj happend).1
      exact Option.some_inj.mp (hhead.symm.trans hhead')

/-- An array that is not empty does not begin with its end. -/
theorem Elements.ne_close {inner rest rest' : List UInt8} {elements : List Value}
    (h : Elements (comma :: inner) elements) : 0x5D :: rest ≠ inner ++ rest' := by
  intro happend
  cases h with
  | @cons bytes _ _ _ hvalue _ =>
    have hhead := hvalue.head
    cases bytes with
    | nil => cases hhead
    | cons byte bytes =>
      obtain rfl : 0x5D = byte := (List.cons.inj happend).1
      cases hhead

theorem Members.ne_close {inner rest rest' : List UInt8} {members : List (List UInt8 × Value)}
    (h : Members (comma :: inner) members) : 0x7D :: rest ≠ inner ++ rest' := by
  intro happend
  cases h with
  | @cons literal _ _ _ _ _ hname _ _ =>
    have hhead := hname.head
    cases literal with
    | nil => cases hhead
    | cons byte literal =>
      obtain rfl : 0x7D = byte := (List.cons.inj happend).1
      cases hhead

/-- No other value begins with these bytes, up to what may follow. -/
def OneValue (bytes : List UInt8) (value : Value) : Prop :=
  ∀ {bytes' rest rest' : List UInt8} {value' : Value}, Denotes bytes' value' →
    Ends rest → Ends rest' → bytes ++ rest = bytes' ++ rest' → value = value' ∧ rest = rest'

/-- The same for the elements of an array up to its end. -/
def OneArray (inner : List UInt8) (elements : List Value) : Prop :=
  ∀ {inner' rest rest' : List UInt8} {elements' : List Value}, Elements inner' elements' →
    inner ++ 0x5D :: rest = inner' ++ 0x5D :: rest' → elements = elements' ∧ rest = rest'

/-- The same for the members of an object. -/
def OneObject (inner : List UInt8) (members : List (List UInt8 × Value)) : Prop :=
  ∀ {inner' rest rest' : List UInt8} {members' : List (List UInt8 × Value)},
    Members inner' members' → inner ++ 0x7D :: rest = inner' ++ 0x7D :: rest' →
      members = members' ∧ rest = rest'

/-- A value that is the only one of its kind. -/
theorem oneValue_of_kind {bytes : List UInt8} {value : Value} (h : Denotes bytes value)
    (honly : ∀ {bytes' : List UInt8} {value' : Value}, Denotes bytes' value' →
      value.kind = value'.kind →
      bytes = bytes' ∧ value = value') : OneValue bytes value := by
  intro bytes' rest rest' value' h' _ _ happend
  obtain ⟨rfl, rfl⟩ := honly h' (h.kind_eq h' happend)
  exact ⟨rfl, List.append_cancel_left happend⟩

theorem oneValue_number {digits : List UInt8} {n : ℕ} (h : IsNumber digits n) :
    OneValue digits (.number n) := by
  intro bytes' rest rest' value' h' hrest hrest' happend
  have hkind := (Denotes.number h).kind_eq h' happend
  cases h' <;> cases hkind
  next h' =>
    obtain ⟨rfl, hsame⟩ := h.unique h' hrest hrest' happend
    exact ⟨rfl, hsame⟩

theorem oneValue_string {literal text : List UInt8} (h : IsText literal text) :
    OneValue literal (.string text) := by
  intro bytes' rest rest' value' h' _ _ happend
  have hkind := (Denotes.string h).kind_eq h' happend
  cases h' <;> cases hkind
  next h' =>
    obtain ⟨rfl, hsame⟩ := h.unique h' happend
    exact ⟨rfl, hsame⟩

theorem oneValue_emptyArray : OneValue [0x5B, 0x5D] (.array []) := by
  intro bytes' rest rest' value' h' _ _ happend
  have hkind := Denotes.emptyArray.kind_eq h' happend
  cases h' <;> cases hkind
  · exact ⟨rfl, List.append_cancel_left happend⟩
  · next helements =>
    simp only [List.cons_append, List.nil_append, List.append_assoc, List.cons.injEq, true_and]
      at happend
    exact absurd happend helements.ne_close

theorem oneValue_emptyObject : OneValue [0x7B, 0x7D] (.object []) := by
  intro bytes' rest rest' value' h' _ _ happend
  have hkind := Denotes.emptyObject.kind_eq h' happend
  cases h' <;> cases hkind
  · exact ⟨rfl, List.append_cancel_left happend⟩
  · next hmembers =>
    simp only [List.cons_append, List.nil_append, List.append_assoc, List.cons.injEq, true_and]
      at happend
    exact absurd happend hmembers.ne_close

theorem oneValue_array {inner : List UInt8} {elements : List Value}
    (h : Elements (comma :: inner) elements) (hinner : OneArray (comma :: inner) elements) :
    OneValue (0x5B :: (inner ++ [0x5D])) (.array elements) := by
  intro bytes' rest rest' value' h' _ _ happend
  have hkind := (Denotes.array h).kind_eq h' happend
  cases h' <;> cases hkind
  · simp only [List.cons_append, List.nil_append, List.append_assoc, List.cons.injEq, true_and]
      at happend
    exact absurd happend.symm h.ne_close
  · next h' =>
    simp only [List.cons_append, List.nil_append, List.append_assoc, List.cons.injEq, true_and]
      at happend
    obtain ⟨rfl, hsame⟩ := hinner h' (congrArg (comma :: ·) happend)
    exact ⟨rfl, hsame⟩

theorem oneValue_object {inner : List UInt8} {members : List (List UInt8 × Value)}
    (h : Members (comma :: inner) members) (hinner : OneObject (comma :: inner) members) :
    OneValue (0x7B :: (inner ++ [0x7D])) (.object members) := by
  intro bytes' rest rest' value' h' _ _ happend
  have hkind := (Denotes.object h).kind_eq h' happend
  cases h' <;> cases hkind
  · simp only [List.cons_append, List.nil_append, List.append_assoc, List.cons.injEq, true_and]
      at happend
    exact absurd happend.symm h.ne_close
  · next h' =>
    simp only [List.cons_append, List.nil_append, List.append_assoc, List.cons.injEq, true_and]
      at happend
    obtain ⟨rfl, hsame⟩ := hinner h' (congrArg (comma :: ·) happend)
    exact ⟨rfl, hsame⟩

/-- No text is the beginning of another, up to what may follow. -/
theorem Denotes.oneValue {bytes : List UInt8} {value : Value} (h : Denotes bytes value) :
    OneValue bytes value := by
  refine @Denotes.rec (fun bytes value _ => OneValue bytes value)
    (fun inner elements _ => OneArray inner elements)
    (fun inner members _ => OneObject inner members)
    ?null ?true ?false oneValue_number oneValue_string oneValue_emptyArray oneValue_array
    oneValue_emptyObject oneValue_object ?noElement ?element ?noMember ?member bytes value h
  case null =>
    refine oneValue_of_kind .null fun h' hkind => ?_
    cases h' <;> cases hkind
    exact ⟨rfl, rfl⟩
  case true =>
    refine oneValue_of_kind .true fun h' hkind => ?_
    cases h' <;> cases hkind
    exact ⟨rfl, rfl⟩
  case false =>
    refine oneValue_of_kind .false fun h' hkind => ?_
    cases h' <;> cases hkind
    exact ⟨rfl, rfl⟩
  case noElement =>
    intro inner' rest rest' elements' h' happend
    cases h' with
    | nil => exact ⟨rfl, (List.cons.inj happend).2⟩
    | cons => cases (List.cons.inj happend).1
  case element =>
    intro bytes tail value elements hvalue htail ihvalue ihtail inner' rest rest'
      elements' h' happend
    cases h' with
    | nil => cases (List.cons.inj happend).1
    | cons hvalue' htail' =>
      simp only [List.cons_append, List.append_assoc, List.cons.injEq, true_and] at happend
      obtain ⟨rfl, hmore⟩ :=
        ihvalue hvalue' (ends_of_elements htail) (ends_of_elements htail') happend
      obtain ⟨rfl, hsame⟩ := ihtail htail' hmore
      exact ⟨rfl, hsame⟩
  case noMember =>
    intro inner' rest rest' members' h' happend
    cases h' with
    | nil => exact ⟨rfl, (List.cons.inj happend).2⟩
    | cons => cases (List.cons.inj happend).1
  case member =>
    intro literal name bytes tail value members hname hvalue htail ihvalue ihtail inner' rest
      rest' members' h' happend
    cases h' with
    | nil => cases (List.cons.inj happend).1
    | cons hname' hvalue' htail' =>
      simp only [List.cons_append, List.append_assoc, List.cons.injEq, true_and] at happend
      obtain ⟨rfl, hbehind⟩ := hname.unique hname' happend
      obtain ⟨rfl, hmore⟩ := ihvalue hvalue' (ends_of_members htail) (ends_of_members htail')
        (List.cons.inj hbehind).2
      obtain ⟨rfl, hsame⟩ := ihtail htail' hmore
      exact ⟨rfl, hsame⟩

/-- **A text denotes one value.** -/
theorem Denotes.unique {bytes : List UInt8} {value value' : Value} (h : Denotes bytes value)
    (h' : Denotes bytes value') : value = value' := by
  have hends : Ends [] := fun _ hmem => by cases hmem
  exact (h.oneValue h' hends hends rfl).1

end Json
