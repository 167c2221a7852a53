import MiniToolchain.Common.Types
import MiniToolchain.Lib.JsonString

/-!
# Strings in the answers of the playground

What a program prints is bytes and not always text, and the answers of the playground are JSON.  The
server escapes what JSON requires and repairs what is not UTF-8.

## Main definitions

* `appendJsonString` — the literal for a string of bytes.

## Main results

* `validSequence_iff` — which multi-byte sequences are copied.
* `appendJsonString_denotes` — the literal is one, and its text is the repaired string.
-/

namespace MiniTool
namespace Playground

/-! ### The source -/

/-- The four digits of `{:04x}`. -/
def hexDigits (n : ℕ) : Str :=
  let digit (d : ℕ) : UInt8 := UInt8.ofNat (if d < 10 then 0x30 + d else 0x57 + d)
  [digit (n / 4096 % 16), digit (n / 256 % 16), digit (n / 16 % 16), digit (n % 16)]

/-- The escape of a byte that JSON does not allow in a string. -/
def escapeOf (byte : UInt8) : Option Str :=
  if byte = 0x22 then some (str "\\\"")
  else if byte = 0x5C then some (str "\\\\")
  else if byte = 0x0A then some (str "\\n")
  else if byte = 0x0D then some (str "\\r")
  else if byte = 0x09 then some (str "\\t")
  else if byte < 0x20 then some (str "\\u" ++ hexDigits byte.toNat)
  else none

/-- The length of a multi-byte sequence with this first byte, and the range of its second byte.  The
length is 0 if there is no such sequence. -/
def sequenceOf (byte : UInt8) : ℕ × UInt8 × UInt8 :=
  if 0xC2 ≤ byte ∧ byte ≤ 0xDF then (2, 0x80, 0xBF)
  else if byte = 0xE0 then (3, 0xA0, 0xBF)
  else if 0xE1 ≤ byte ∧ byte ≤ 0xEC then (3, 0x80, 0xBF)
  else if byte = 0xED then (3, 0x80, 0x9F)
  else if 0xEE ≤ byte ∧ byte ≤ 0xEF then (3, 0x80, 0xBF)
  else if byte = 0xF0 then (4, 0x90, 0xBF)
  else if 0xF1 ≤ byte ∧ byte ≤ 0xF3 then (4, 0x80, 0xBF)
  else if byte = 0xF4 then (4, 0x80, 0x8F)
  else (0, 0x80, 0xBF)

/-- The text begins with a whole sequence whose bytes are in their ranges. -/
def validSequence (text : Str) (length : ℕ) (low high : UInt8) : Bool :=
  length ≠ 0 && length ≤ text.length &&
    (List.range' 1 (length - 1)).all fun k =>
      let continuation := text.getD k 0
      let min := if k = 1 then low else 0x80
      let max := if k = 1 then high else 0xBF
      min ≤ continuation && continuation ≤ max

/-- U+FFFD REPLACEMENT CHARACTER. -/
def replacementCharacter : Str := [0xEF, 0xBF, 0xBD]

/-- The loop, over the text that is left. -/
def appendEscaped (out : Str) : Str → Str
  | [] => out
  | byte :: rest =>
    match escapeOf byte with
    | some escape => appendEscaped (out ++ escape) rest
    | none =>
      if byte < 0x80 then appendEscaped (out ++ [byte]) rest
      else
        let (length, low, high) := sequenceOf byte
        if validSequence (byte :: rest) length low high then
          -- a valid sequence has a length of at least two
          appendEscaped (out ++ (byte :: rest).take length) (rest.drop (length - 1))
        else appendEscaped (out ++ replacementCharacter) rest
  termination_by text => text.length
  decreasing_by
    · exact Nat.lt_succ_self _
    · exact Nat.lt_succ_self _
    · rw [List.length_drop, List.length_cons]
      omega
    · exact Nat.lt_succ_self _

/-- Appends a JSON string literal. -/
def appendJsonString (out text : Str) : Str := appendEscaped (out ++ [0x22]) text ++ [0x22]

/-! ### Multi-byte sequences -/

/-- The length, by the value of the first byte. -/
def lengthFrom (first : ℕ) : ℕ :=
  if 0xC2 ≤ first ∧ first ≤ 0xDF then 2
  else if 0xE0 ≤ first ∧ first ≤ 0xEF then 3
  else if 0xF0 ≤ first ∧ first ≤ 0xF4 then 4
  else 0

def leastSecond (first : ℕ) : UInt8 :=
  if first = 0xE0 then 0xA0 else if first = 0xF0 then 0x90 else 0x80

def greatestSecond (first : ℕ) : UInt8 :=
  if first = 0xED then 0x9F else if first = 0xF4 then 0x8F else 0xBF

/-- The table of the source has an exception to the range of the second byte for four first
bytes. -/
theorem sequenceOf_eq (byte : UInt8) : sequenceOf byte =
    (lengthFrom byte.toNat, leastSecond byte.toNat, greatestSecond byte.toNat) := by
  unfold sequenceOf lengthFrom leastSecond greatestSecond
  simp only [UInt8.le_iff_toNat_le, ← UInt8.toNat_inj, UInt8.reduceToNat]
  split_ifs <;> first | rfl | omega

/-- A byte between a lower and an upper bound. -/
def Between (low high byte : UInt8) : Prop := low.toNat ≤ byte.toNat ∧ byte.toNat ≤ high.toNat

theorem validSequence_zero (text : Str) (low high : UInt8) :
    validSequence text 0 low high = false := rfl

theorem validSequence_two {a low high : UInt8} {rest : Str} :
    validSequence (a :: rest) 2 low high = true ↔
      ∃ b after, rest = b :: after ∧ Between low high b := by
  rcases rest with _ | ⟨b, after⟩
  · simp [validSequence]
  · simp [validSequence, Between, UInt8.le_iff_toNat_le]

theorem validSequence_three {a low high : UInt8} {rest : Str} :
    validSequence (a :: rest) 3 low high = true ↔
      ∃ b c after, rest = b :: c :: after ∧ Between low high b ∧ Utf8.Tail c := by
  rcases rest with _ | ⟨b, _ | ⟨c, after⟩⟩
  · simp [validSequence]
  · simp [validSequence]
  · simp [validSequence, Between, Utf8.Tail, UInt8.le_iff_toNat_le, List.range', and_assoc]

theorem validSequence_four {a low high : UInt8} {rest : Str} :
    validSequence (a :: rest) 4 low high = true ↔
      ∃ b c d after, rest = b :: c :: d :: after ∧ Between low high b ∧ Utf8.Tail c ∧
      Utf8.Tail d := by
  rcases rest with _ | ⟨b, _ | ⟨c, _ | ⟨d, after⟩⟩⟩
  · simp [validSequence]
  · simp [validSequence]
  · simp [validSequence]
  · simp [validSequence, Between, Utf8.Tail, UInt8.le_iff_toNat_le, List.range', and_assoc]

/-- The exceptions are those of the encodings. -/
theorem between_second_iff {first : ℕ} {b : UInt8} :
    Between (leastSecond first) (greatestSecond first) b ↔ Utf8.Tail b ∧
      (first = 0xE0 → 0xA0 ≤ b.toNat) ∧ (first = 0xED → b.toNat ≤ 0x9F) ∧
      (first = 0xF0 → 0x90 ≤ b.toNat) ∧ (first = 0xF4 → b.toNat ≤ 0x8F) := by
  unfold Between leastSecond greatestSecond Utf8.Tail
  split_ifs <;> simp only [UInt8.reduceToNat] <;> omega

/-- What the source takes for a sequence is the encoding of a character. -/
theorem exists_char_of_validSequence {byte : UInt8} {rest : Str}
    (h : validSequence (byte :: rest) (sequenceOf byte).1 (sequenceOf byte).2.1
      (sequenceOf byte).2.2 = true) :
    ∃ char after, byte :: rest = char ++ after ∧ Utf8.IsChar char ∧
      char.length = (sequenceOf byte).1 := by
  rw [sequenceOf_eq] at h ⊢
  dsimp only at h ⊢
  unfold lengthFrom at h ⊢
  split_ifs at h ⊢ with htwo hthree hfour
  · obtain ⟨b, after, rfl, hb⟩ := validSequence_two.mp h
    obtain ⟨htail, -⟩ := between_second_iff.mp hb
    exact ⟨[byte, b], after, rfl, Utf8.isChar_iff.mpr ⟨htwo.1, htwo.2, htail⟩, rfl⟩
  · obtain ⟨b, c, after, rfl, hb, hc⟩ := validSequence_three.mp h
    obtain ⟨htail, hoverlong, hsurrogate, -⟩ := between_second_iff.mp hb
    refine ⟨[byte, b, c], after, rfl, Utf8.isChar_iff.mpr ?_, rfl⟩
    exact ⟨hthree.1, hthree.2, htail, hc, hoverlong, hsurrogate⟩
  · obtain ⟨b, c, d, after, rfl, hb, hc, hd⟩ := validSequence_four.mp h
    obtain ⟨htail, -, -, hoverlong, habove⟩ := between_second_iff.mp hb
    refine ⟨[byte, b, c, d], after, rfl, Utf8.isChar_iff.mpr ?_, rfl⟩
    exact ⟨hfour.1, hfour.2, htail, hc, hd, hoverlong, habove⟩
  · rw [validSequence_zero] at h
    cases h

/-- The encoding of a character beyond ASCII is a sequence for the source. -/
theorem validSequence_of_char {byte : UInt8} {rest char after : Str} (hbyte : 0x80 ≤ byte.toNat)
    (happend : byte :: rest = char ++ after) (hchar : Utf8.IsChar char) :
    validSequence (byte :: rest) (sequenceOf byte).1 (sequenceOf byte).2.1
      (sequenceOf byte).2.2 = true := by
  have htable := Utf8.isChar_iff.mp hchar
  rw [sequenceOf_eq]
  dsimp only
  unfold lengthFrom
  unfold Utf8.InTable at htable
  split at htable
  · obtain ⟨rfl, -⟩ := List.cons.inj happend
    omega
  · next a b =>
    obtain ⟨rfl, rfl⟩ := List.cons.inj happend
    obtain ⟨hlow, hhigh, hb⟩ := htable
    rw [if_pos ⟨hlow, hhigh⟩]
    refine validSequence_two.mpr ⟨b, after, rfl, between_second_iff.mpr ⟨hb, ?_⟩⟩
    omega
  · next a b c =>
    obtain ⟨rfl, rfl⟩ := List.cons.inj happend
    obtain ⟨hlow, hhigh, hb, hc, hoverlong, hsurrogate⟩ := htable
    rw [if_neg (by omega), if_pos ⟨hlow, hhigh⟩]
    refine validSequence_three.mpr ⟨b, c, after, rfl, between_second_iff.mpr ?_, hc⟩
    refine ⟨hb, hoverlong, hsurrogate, ?_⟩
    omega
  · next a b c d =>
    obtain ⟨rfl, rfl⟩ := List.cons.inj happend
    obtain ⟨hlow, hhigh, hb, hc, hd, hoverlong, habove⟩ := htable
    rw [if_neg (by omega), if_neg (by omega), if_pos ⟨hlow, hhigh⟩]
    refine validSequence_four.mpr ⟨b, c, d, after, rfl, between_second_iff.mpr ?_, hc, hd⟩
    refine ⟨hb, ?_, ?_, hoverlong, habove⟩
    · omega
    · omega
  · exact htable.elim

/-! ### Escapes -/

/-- The escape of a control character. -/
theorem piece_of_control {byte : UInt8} (h : byte < 0x20) :
    JsonString.Piece (str "\\u" ++ hexDigits byte.toNat) [byte] := by
  -- the digits of each of them
  have hdigits : ∀ n < 32, ∃ a b c d, hexDigits n = [a, b, c, d] ∧
      JsonString.codeUnit a b c d = some n ∧
        String.utf8EncodeChar (Char.ofNat n) = [UInt8.ofNat n] := by
    intro n hn
    refine ⟨_, _, _, _, rfl, ?_⟩
    revert n
    decide
  have hvalue : byte.toNat < 32 := UInt8.lt_iff_toNat_lt.mp h
  obtain ⟨a, b, c, d, heq, hunit, hchar⟩ := hdigits byte.toNat hvalue
  rw [UInt8.ofNat_toNat] at hchar
  rw [heq, ← hchar]
  exact JsonString.Piece.unicode hunit (by omega)

/-- An escape stands for the byte that it is written for, which is ASCII. -/
theorem piece_of_escapeOf {byte : UInt8} {escape : Str} (h : escapeOf byte = some escape) :
    JsonString.Piece escape [byte] ∧ Utf8.IsChar [byte] := by
  -- a letter behind a backslash
  have hletter : ∀ {letter byte : UInt8}, JsonString.unescape letter = some byte →
      byte.toNat < 0x80 → JsonString.Piece [0x5C, letter] [byte] ∧ Utf8.IsChar [byte] :=
    fun hletter hbyte => ⟨JsonString.Piece.escape hletter, Utf8.isChar_singleton.mpr hbyte⟩
  unfold escapeOf at h
  split_ifs at h with hquote hbackslash hnewline hreturn htab hcontrol
  · cases h
    rw [hquote]
    exact @hletter 0x22 0x22 (by decide) (by decide)
  · cases h
    rw [hbackslash]
    exact @hletter 0x5C 0x5C (by decide) (by decide)
  · cases h
    rw [hnewline]
    exact @hletter 0x6E 0x0A (by decide) (by decide)
  · cases h
    rw [hreturn]
    exact @hletter 0x72 0x0D (by decide) (by decide)
  · cases h
    rw [htab]
    exact @hletter 0x74 0x09 (by decide) (by decide)
  · cases h
    refine ⟨piece_of_control hcontrol, Utf8.isChar_singleton.mpr ?_⟩
    have hvalue : byte.toNat < 32 := UInt8.lt_iff_toNat_lt.mp hcontrol
    omega

/-- A byte without an escape can stand in a literal. -/
theorem plain_of_escapeOf {byte : UInt8} (h : escapeOf byte = none) :
    0x20 ≤ byte.toNat ∧ byte ≠ JsonString.quote ∧ byte ≠ JsonString.backslash := by
  unfold escapeOf at h
  split_ifs at h with hquote hbackslash _ _ _ hcontrol
  refine ⟨?_, hquote, hbackslash⟩
  exact Nat.not_lt.mp fun hlt => hcontrol (UInt8.lt_iff_toNat_lt.mpr hlt)

/-- A byte beyond ASCII can stand in a literal. -/
theorem plain_of_high {byte : UInt8} (h : 0x80 ≤ byte.toNat) :
    0x20 ≤ byte.toNat ∧ byte ≠ JsonString.quote ∧ byte ≠ JsonString.backslash := by
  refine ⟨by omega, ?_, ?_⟩
  · rintro rfl
    revert h
    decide
  · rintro rfl
    revert h
    decide

/-! ### The literal -/

theorem isChar_replacementCharacter : Utf8.IsChar replacementCharacter := by
  refine Utf8.isChar_iff.mpr ?_
  unfold replacementCharacter Utf8.InTable Utf8.Tail
  decide

/-- The bytes of an encoding that begins beyond ASCII are all beyond ASCII. -/
theorem high_of_isChar {byte : UInt8} {tail : Str} (h : Utf8.IsChar (byte :: tail))
    (hbyte : 0x80 ≤ byte.toNat) : ∀ other ∈ byte :: tail, 0x80 ≤ other.toNat := by
  intro other hmem
  rcases List.mem_cons.mp hmem with rfl | hmem
  · exact hbyte
  · exact ((Utf8.tail_of_isChar h).2 other hmem).1

/-- What the loop appends stands for the repaired text. -/
theorem appendEscaped_piece (out text : Str) : ∃ body,
    appendEscaped out text = out ++ body ∧ JsonString.Piece body (Utf8.repaired text) := by
  induction hlength : text.length using Nat.strong_induction_on generalizing out text with
  | _ n ih =>
    -- what is left after a piece for the front of the text
    have hstep : ∀ {piece value rest : Str}, rest.length < n → JsonString.Piece piece value →
        ∃ body, appendEscaped (out ++ piece) rest = out ++ body ∧
          JsonString.Piece body (value ++ Utf8.repaired rest) := by
      intro piece value rest hshort hpiece
      obtain ⟨body, heq, hbody⟩ := ih _ hshort (out ++ piece) rest rfl
      exact ⟨piece ++ body, by rw [heq, List.append_assoc], hpiece.append hbody⟩
    unfold appendEscaped
    cases text with
    | nil => exact ⟨[], (List.append_nil out).symm, JsonString.Piece.nil⟩
    | cons byte rest =>
      dsimp only
      have hrest : rest.length < n := by
        rw [← hlength]
        exact Nat.lt_succ_self _
      cases hescape : escapeOf byte with
      | some escape =>
        obtain ⟨hpiece, hchar⟩ := piece_of_escapeOf hescape
        have hrepaired := Utf8.repaired_append hchar rest
        rw [List.singleton_append] at hrepaired
        rw [hrepaired]
        exact hstep hrest hpiece
      | none =>
        dsimp only
        have hplain := plain_of_escapeOf hescape
        split_ifs with hascii hvalid
        · have hchar : Utf8.IsChar [byte] :=
            Utf8.isChar_singleton.mpr (UInt8.lt_iff_toNat_lt.mp hascii)
          have hrepaired := Utf8.repaired_append hchar rest
          rw [List.singleton_append] at hrepaired
          rw [hrepaired]
          refine hstep hrest (JsonString.Piece.unescaped hchar fun other hmem => ?_)
          obtain rfl := List.mem_singleton.mp hmem
          exact hplain
        · have hhigh : 0x80 ≤ byte.toNat :=
            Nat.not_lt.mp fun hlt => hascii (UInt8.lt_iff_toNat_lt.mpr hlt)
          obtain ⟨char, after, happend, hchar, hsize⟩ := exists_char_of_validSequence hvalid
          obtain ⟨first, tail, rfl⟩ := List.exists_cons_of_ne_nil hchar.ne_nil
          obtain ⟨rfl, rfl⟩ := List.cons.inj happend
          -- the sequence and what is behind it
          have hdrop : (tail.append after).drop ((byte :: tail).length - 1) = after :=
            List.drop_left
          rw [← hsize, hdrop, happend, List.take_left, Utf8.repaired_append hchar]
          refine hstep ?_ (JsonString.Piece.unescaped hchar fun other hmem => ?_)
          · have hboth : (tail.append after).length = tail.length + after.length :=
              List.length_append
            omega
          · exact plain_of_high (high_of_isChar hchar hhigh other hmem)
        · have hhigh : 0x80 ≤ byte.toNat :=
            Nat.not_lt.mp fun hlt => hascii (UInt8.lt_iff_toNat_lt.mpr hlt)
          have hstuck : Utf8.Stuck (byte :: rest) := by
            intro char after happend hchar
            exact hvalid (validSequence_of_char hhigh happend hchar)
          rw [Utf8.repaired_cons hstuck]
          have hchar := isChar_replacementCharacter
          refine hstep hrest (JsonString.Piece.unescaped hchar fun other hmem => ?_)
          exact plain_of_high (high_of_isChar hchar (by decide) other hmem)

/-- For every string of bytes a JSON string literal is appended, in UTF-8 and without control
characters, and its text is the string with U+FFFD for each byte outside of the well-formed
sequences; that is the string itself if it is well formed. -/
theorem appendJsonString_denotes (out text : Str) : ∃ literal,
    appendJsonString out text = out ++ literal ∧ JsonString.IsString literal ∧
      Utf8.WellFormed literal ∧ (∀ byte ∈ literal, 0x20 ≤ byte.toNat) ∧
      JsonString.decode literal = some (Utf8.repaired text) ∧
      (Utf8.WellFormed text → JsonString.decode literal = some text) := by
  obtain ⟨body, heq, hbody⟩ := appendEscaped_piece (out ++ [JsonString.quote]) text
  obtain ⟨hstring, hdecode⟩ := hbody.literal
  refine ⟨_, ?_, hstring, hstring.wellFormed, hstring.printable, hdecode, fun htext => ?_⟩
  · unfold appendJsonString
    rw [heq]
    simp
  · rw [hdecode, Utf8.repaired_of_wellFormed htext]

/-- A quotation mark, a byte that is not text, and two that are. -/
example : appendJsonString [] [0x22, 0x80, 0xC3, 0xA9] =
    [0x22, 0x5C, 0x22, 0xEF, 0xBF, 0xBD, 0xC3, 0xA9, 0x22] := by decide +kernel

end Playground
end MiniTool
