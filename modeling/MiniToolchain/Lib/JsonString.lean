import MiniToolchain.Lib.Utf8

/-!
# JSON strings

The string literals of JSON as bytes, and the text that such a literal stands for.

## Main definitions

* `Body`, `IsString` — the literals.
* `decode` — their text, in UTF-8.

## Main results

* `IsString.wellFormed`, `IsString.printable` — the bytes of a literal.
* `Piece.unescaped`, `Piece.escape`, `Piece.unicode`, `Piece.append` — the parts of a literal.
* `Piece.literal` — a literal from its parts.
-/

namespace JsonString

abbrev quote : UInt8 := 0x22

abbrev backslash : UInt8 := 0x5C

/-- What a backslash and this letter stand for. -/
def unescape (letter : UInt8) : Option UInt8 :=
  if letter = 0x22 then some 0x22
  else if letter = 0x5C then some 0x5C
  else if letter = 0x2F then some 0x2F
  else if letter = 0x62 then some 0x08
  else if letter = 0x66 then some 0x0C
  else if letter = 0x6E then some 0x0A
  else if letter = 0x72 then some 0x0D
  else if letter = 0x74 then some 0x09
  else none

/-- The `u` of an escaped code unit. -/
abbrev unicodeLetter : UInt8 := 0x75

def hexValue (digit : UInt8) : Option ℕ :=
  if 0x30 ≤ digit ∧ digit ≤ 0x39 then some (digit.toNat - 0x30)
  else if 0x41 ≤ digit ∧ digit ≤ 0x46 then some (digit.toNat - 0x41 + 10)
  else if 0x61 ≤ digit ∧ digit ≤ 0x66 then some (digit.toNat - 0x61 + 10)
  else none

/-- A code unit in four hexadecimal digits. -/
def codeUnit (a b c d : UInt8) : Option ℕ :=
  match hexValue a, hexValue b, hexValue c, hexValue d with
  | some a, some b, some c, some d => some (((a * 16 + b) * 16 + c) * 16 + d)
  | _, _, _, _ => none

/-- What stands between the quotation marks: encodings of characters that need no escape, and
escapes. -/
inductive Body : List UInt8 → Prop where
  | nil : Body []
  | unescaped {char rest : List UInt8} (char_isChar : Utf8.IsChar char)
      (plain : ∀ byte ∈ char, 0x20 ≤ byte.toNat ∧ byte ≠ quote ∧ byte ≠ backslash)
      (tail : Body rest) : Body (char ++ rest)
  | escape {letter byte : UInt8} {rest : List UInt8} (known : unescape letter = some byte)
      (tail : Body rest) : Body (backslash :: letter :: rest)
  | unicode {a b c d : UInt8} {unit : ℕ} {rest : List UInt8} (digits : codeUnit a b c d = some unit)
      (tail : Body rest) : Body (backslash :: unicodeLetter :: a :: b :: c :: d :: rest)

/-- A string literal. -/
def IsString (literal : List UInt8) : Prop :=
  ∃ body, literal = quote :: (body ++ [quote]) ∧ Body body

/-- The text of what follows the first quotation mark.  A code unit above the surrogates or below
them is a character; of the surrogates two make one. -/
def decodeBody : List UInt8 → Option (List UInt8)
  | [] => none
  | byte :: rest =>
    if byte = quote then if rest = [] then some [] else none
    else if byte = backslash then
      match rest with
      | [] => none
      | letter :: rest =>
        if letter = unicodeLetter then
          match rest with
          | a :: b :: c :: d :: rest =>
            match codeUnit a b c d with
            | none => none
            | some unit =>
              if unit < 0xD800 ∨ 0xDFFF < unit then
                (decodeBody rest).map (String.utf8EncodeChar (Char.ofNat unit) ++ ·)
              else
                match rest with
                | slash :: letter :: a :: b :: c :: d :: rest =>
                  match codeUnit a b c d with
                  | none => none
                  | some low =>
                    if slash = backslash ∧ letter = unicodeLetter ∧ unit ≤ 0xDBFF ∧
                        0xDC00 ≤ low ∧ low ≤ 0xDFFF then
                      let code := 0x10000 + (unit - 0xD800) * 0x400 + (low - 0xDC00)
                      (decodeBody rest).map (String.utf8EncodeChar (Char.ofNat code) ++ ·)
                    else none
                | _ => none
          | _ => none
        else
          match unescape letter with
          | none => none
          | some byte => (decodeBody rest).map (byte :: ·)
    else if byte < 0x20 then none
    else (decodeBody rest).map (byte :: ·)

/-- The text of a literal. -/
def decode : List UInt8 → Option (List UInt8)
  | [] => none
  | first :: rest => if first = quote then decodeBody rest else none

/-! ### The bytes of a literal -/

theorem toNat_of_hexValue {digit : UInt8} {value : ℕ} (h : hexValue digit = some value) :
    0x20 ≤ digit.toNat ∧ digit.toNat < 0x80 := by
  unfold hexValue at h
  simp only [UInt8.le_iff_toNat_le] at h
  split_ifs at h with hdigit hupper hlower
  · simp at hdigit
    omega
  · simp at hupper
    omega
  · simp at hlower
    omega

theorem toNat_of_unescape {letter byte : UInt8} (h : unescape letter = some byte) :
    0x20 ≤ letter.toNat ∧ letter.toNat < 0x80 := by
  unfold unescape at h
  split_ifs at h <;> subst_vars <;> decide

/-- The digits of a code unit are plain ASCII. -/
theorem toNat_of_codeUnit {a b c d : UInt8} {unit : ℕ} (h : codeUnit a b c d = some unit) :
    ∀ digit ∈ [a, b, c, d], 0x20 ≤ digit.toNat ∧ digit.toNat < 0x80 := by
  unfold codeUnit at h
  split at h
  · next ha hb hc hd =>
    simp only [List.forall_mem_cons]
    exact ⟨toNat_of_hexValue ha, toNat_of_hexValue hb, toNat_of_hexValue hc, toNat_of_hexValue hd,
      fun _ hmem => absurd hmem List.not_mem_nil⟩
  · cases h

theorem wellFormed_of_ascii {bytes : List UInt8}
    (h : ∀ byte ∈ bytes, 0x20 ≤ byte.toNat ∧ byte.toNat < 0x80) : Utf8.WellFormed bytes := by
  induction bytes with
  | nil => exact .nil
  | cons byte bytes ih =>
    have hchar : Utf8.IsChar [byte] :=
      Utf8.isChar_singleton.mpr (h byte List.mem_cons_self).2
    exact hchar.wellFormed.append (ih fun other hmem => h other (List.mem_cons_of_mem _ hmem))

/-- The escapes are plain ASCII. -/
theorem Body.bytes {body : List UInt8} (h : Body body) :
    Utf8.WellFormed body ∧ ∀ byte ∈ body, 0x20 ≤ byte.toNat := by
  -- what is plain ASCII may stand before it
  have hascii : ∀ (front : List UInt8) {rest : List UInt8},
      (∀ byte ∈ front, 0x20 ≤ byte.toNat ∧ byte.toNat < 0x80) →
      (Utf8.WellFormed rest ∧ ∀ byte ∈ rest, 0x20 ≤ byte.toNat) →
      Utf8.WellFormed (front ++ rest) ∧ ∀ byte ∈ front ++ rest, 0x20 ≤ byte.toNat := by
    intro front rest hfront hrest
    refine ⟨(wellFormed_of_ascii hfront).append hrest.1, fun byte hmem => ?_⟩
    rcases List.mem_append.mp hmem with hmem | hmem
    · exact (hfront byte hmem).1
    · exact hrest.2 byte hmem
  induction h with
  | nil => exact ⟨.nil, fun _ hmem => absurd hmem List.not_mem_nil⟩
  | unescaped hchar hplain _ ih =>
    refine ⟨hchar.wellFormed.append ih.1, fun byte hmem => ?_⟩
    rcases List.mem_append.mp hmem with hmem | hmem
    · exact (hplain byte hmem).1
    · exact ih.2 byte hmem
  | @escape letter byte rest hknown _ ih =>
    refine hascii [backslash, letter] ?_ ih
    simp only [List.forall_mem_cons]
    exact ⟨by decide, toNat_of_unescape hknown, fun _ hmem => absurd hmem List.not_mem_nil⟩
  | @unicode a b c d unit rest hdigits _ ih =>
    refine hascii ([backslash, unicodeLetter] ++ [a, b, c, d]) ?_ ih
    intro digit hmem
    have hfirst : ∀ byte ∈ [backslash, unicodeLetter], 0x20 ≤ byte.toNat ∧ byte.toNat < 0x80 := by
      simp only [List.forall_mem_cons]
      exact ⟨by decide, by decide, fun _ hmem => absurd hmem List.not_mem_nil⟩
    rcases List.mem_append.mp hmem with hmem | hmem
    · exact hfirst digit hmem
    · exact toNat_of_codeUnit hdigits digit hmem

theorem IsString.wellFormed {literal : List UInt8} (h : IsString literal) :
    Utf8.WellFormed literal := by
  obtain ⟨body, rfl, hbody⟩ := h
  have hquote : Utf8.WellFormed [quote] := by
    apply wellFormed_of_ascii
    rw [List.forall_mem_singleton]
    decide
  exact hquote.append (hbody.bytes.1.append hquote)

theorem IsString.printable {literal : List UInt8} (h : IsString literal) :
    ∀ byte ∈ literal, 0x20 ≤ byte.toNat := by
  obtain ⟨body, rfl, hbody⟩ := h
  intro byte hmem
  rcases List.mem_cons.mp hmem with rfl | hmem
  · decide
  · rcases List.mem_append.mp hmem with hmem | hmem
    · exact hbody.bytes.2 byte hmem
    · obtain rfl := List.mem_singleton.mp hmem
      decide

/-! ### The text of a literal -/

theorem decodeBody_quote : decodeBody [quote] = some [] := rfl

theorem decodeBody_byte {byte : UInt8}
    (h : 0x20 ≤ byte.toNat ∧ byte ≠ quote ∧ byte ≠ backslash) (rest : List UInt8) :
    decodeBody (byte :: rest) = (decodeBody rest).map (byte :: ·) := by
  obtain ⟨hlow, hquote, hbackslash⟩ := h
  have hcontrol : ¬byte < 0x20 := by
    rw [UInt8.lt_iff_toNat_lt]
    exact Nat.not_lt.mpr hlow
  conv_lhs => unfold decodeBody
  rw [if_neg hquote, if_neg hbackslash, if_neg hcontrol]

/-- Bytes that can stand between the quotation marks, for the text `value`. -/
structure Piece (bytes value : List UInt8) : Prop where
  body : ∀ {rest : List UInt8}, Body rest → Body (bytes ++ rest)
  text : ∀ rest : List UInt8, decodeBody (bytes ++ rest) = (decodeBody rest).map (value ++ ·)

namespace Piece

theorem nil : Piece [] [] := ⟨fun h => h, fun rest => by simp⟩

theorem append {bytes bytes' value value' : List UInt8} (h : Piece bytes value)
    (h' : Piece bytes' value') : Piece (bytes ++ bytes') (value ++ value') := by
  refine ⟨fun hrest => ?_, fun rest => ?_⟩
  · rw [List.append_assoc]
    exact h.body (h'.body hrest)
  · rw [List.append_assoc, h.text, h'.text, Option.map_map]
    congr 1
    funext text
    exact (List.append_assoc value value' text).symm

/-- A character that needs no escape stands for itself. -/
theorem unescaped {char : List UInt8} (hchar : Utf8.IsChar char)
    (hplain : ∀ byte ∈ char, 0x20 ≤ byte.toNat ∧ byte ≠ quote ∧ byte ≠ backslash) :
    Piece char char := by
  refine ⟨fun hrest => .unescaped hchar hplain hrest, fun rest => ?_⟩
  clear hchar
  induction char with
  | nil => simp
  | cons byte char ih =>
    rw [List.cons_append, decodeBody_byte (hplain byte List.mem_cons_self),
      ih fun other hmem => hplain other (List.mem_cons_of_mem _ hmem), Option.map_map]
    rfl

theorem escape {letter byte : UInt8} (h : unescape letter = some byte) :
    Piece [backslash, letter] [byte] := by
  have hletter : letter ≠ unicodeLetter := by
    rintro rfl
    cases h
  refine ⟨fun hrest => .escape h hrest, fun rest => ?_⟩
  conv_lhs => unfold decodeBody
  dsimp only [List.cons_append, List.nil_append]
  rw [if_neg (by decide), if_pos rfl, if_neg hletter, h]

theorem unicode {a b c d : UInt8} {unit : ℕ} (h : codeUnit a b c d = some unit)
    (hunit : unit < 0xD800) : Piece [backslash, unicodeLetter, a, b, c, d]
      (String.utf8EncodeChar (Char.ofNat unit)) := by
  refine ⟨fun hrest => .unicode h hrest, fun rest => ?_⟩
  conv_lhs => unfold decodeBody
  dsimp only [List.cons_append, List.nil_append]
  rw [if_neg (by decide), if_pos rfl, if_pos rfl, h]
  dsimp only
  rw [if_pos (Or.inl hunit)]

/-- A literal from what stands between its quotation marks. -/
theorem literal {body value : List UInt8} (h : Piece body value) :
    IsString (quote :: (body ++ [quote])) ∧ decode (quote :: (body ++ [quote])) = some value := by
  have hbody := h.body .nil
  rw [List.append_nil] at hbody
  refine ⟨⟨body, rfl, hbody⟩, ?_⟩
  show (if quote = quote then decodeBody (body ++ [quote]) else none) = some value
  rw [if_pos rfl, h.text, decodeBody_quote, Option.map_some, List.append_nil]

end Piece

end JsonString
