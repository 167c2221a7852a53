import MiniToolchain.Isa.Printing
import MiniToolchain.Lexer.Scanning
import Mathlib.Data.List.Induction
import Mathlib.Data.Nat.Digits.Defs

/-!
# Integer literals

A literal is a sign, the mark of a base and a run of characters that could continue an identifier.
The run is all of it whether or not it is well formed, so the lexer goes on behind it.

## Main definitions

* `prefixes`, `Marks` — the marks of a base, and what stands behind them.
* `signText`, `signed` — the sign, and what it makes of a number.

## Main results

* `lexInteger_run` — the lexer on a literal.
* `integer_literals` — the value of a literal, or that it is malformed.
* `reads_number`, `reads_negative`, `reads_hex` — the literals that are printed.
-/

namespace MiniTool
namespace Lexer

open Isa (hexadecimal)

/-- The ways to name a base; 10 goes without. -/
def prefixes : ℕ → List Str
  | 16 => [str "0x", str "0X"]
  | 2 => [str "0b", str "0B"]
  | 8 => [str "0o", str "0O"]
  | 10 => [[]]
  | _ => []

/-- The mark names the base of what is behind it, which without a mark starts with a digit, and not
with the mark of another base. -/
structure Marks (base : ℕ) (mark run : Str) : Prop where
  mem : mark ∈ prefixes base
  plain : base = 10 → isDigit (peekChar run) = true ∧
    ∀ other ≠ 10, ∀ m ∈ prefixes other, ¬m <+: run

def signText (negative : Bool) : Str := if negative then str "-" else []

/-- A number with its sign. -/
def signed (negative : Bool) (n : ℕ) : ℤ := if negative then -n else n

/-! ### Characters -/

theorem digit_facts {c : UInt8} (h : isDigit c = true) :
    isBlank c = false ∧ c ≠ 59 ∧ punctuation c = none ∧ c ≠ 10 ∧ c ≠ 45 ∧ c ≠ 34 ∧ c ≠ 39 ∧
      isIdentifierStart c = false ∧ isDigitOfBase 10 c = true := by
  revert h
  revert c
  apply forall_byte
  decide +kernel

/-- What is not part of an identifier is no base prefix. -/
theorem baseOf_stop {c : UInt8} (h : isIdentifierContinue c = false) : baseOf c = 10 := by
  revert h
  revert c
  apply forall_byte
  decide +kernel

/-- A digit of any base may be part of an identifier. -/
theorem continue_of_digit {base : ℕ} {c : UInt8} (h : isDigitOfBase base c = true) :
    isIdentifierContinue c = true := by
  have hall : ∀ c, (isDigitOfBase 2 c || isDigitOfBase 8 c || isDigitOfBase 16 c ||
      isDigitOfBase 10 c) = true → isIdentifierContinue c = true := by
    apply forall_byte
    decide +kernel
  apply hall
  -- every other base is read like 10
  unfold isDigitOfBase at h ⊢
  dsimp only at h ⊢
  split_ifs at h with htwo height hsixteen
  · simp [h]
  · simp [h]
  · simp [h]
  · simp [h]

/-- A base prefix names the base. -/
theorem mem_prefixes {c : UInt8} (h : baseOf c ≠ 10) : [48, c] ∈ prefixes (baseOf c) := by
  revert h
  revert c
  apply forall_byte
  decide +kernel

theorem exists_of_mem_prefixes {base : ℕ} {mark : Str} (hbase : base ≠ 10)
    (h : mark ∈ prefixes base) :
    ∃ c, mark = [48, c] ∧ baseOf c = base ∧ isIdentifierContinue c = true := by
  have hcases : base = 16 ∨ base = 2 ∨ base = 8 := by
    by_contra hother
    push Not at hother
    have hnone : prefixes base = [] := by
      unfold prefixes
      split <;> first | rfl | omega
    rw [hnone] at h
    cases h
  rcases hcases with rfl | rfl | rfl
  all_goals
    rcases List.mem_cons.mp h with rfl | h
    · exact ⟨_, rfl, by decide, by decide⟩
    · rw [List.mem_singleton.mp h]
      exact ⟨_, rfl, by decide, by decide⟩

/-! ### The lexer on a literal -/

/-- The base the lexer chooses. -/
theorem base_of_marks {base : ℕ} {mark run rest : Str} (h : Marks base mark run)
    (hrest : Stops rest) :
    (if peekChar (mark ++ (run ++ rest)) = 48 then
      baseOf (peekChar ((mark ++ (run ++ rest)).drop 1)) else 10) = base := by
  by_cases hten : base = 10
  · obtain ⟨hdigit, hother⟩ := h.plain hten
    subst hten
    rw [List.mem_singleton.mp h.mem, List.nil_append]
    cases run with
    | nil => cases hdigit
    | cons c run =>
      rw [List.cons_append, List.drop_one, List.tail_cons]
      split_ifs with hzero
      · have hc : c = 48 := hzero
        subst hc
        -- behind the zero there is no letter of another base
        cases run with
        | nil => exact baseOf_stop hrest.peekChar
        | cons d run =>
          by_contra hbase
          exact hother _ hbase _ (mem_prefixes hbase) ⟨run, rfl⟩
      · rfl
  · obtain ⟨c, rfl, hbase, -⟩ := exists_of_mem_prefixes hten h.mem
    rw [if_pos (show peekChar ([48, c] ++ (run ++ rest)) = 48 from rfl)]
    exact hbase

section

variable {l : Lexer} {base : ℕ} {mark digits tail rest start : Str} {negative : Bool}

/-- Digits stop where the lexer stops looking for them. -/
theorem dropWhile_digits (hdigits : ∀ c ∈ digits, isDigitOfBase base c = true)
    (hends : ∀ c ∈ tail.head?, isDigitOfBase base c = false) (hrest : Stops rest) :
    (digits ++ tail ++ rest).dropWhile (isDigitOfBase base) = tail ++ rest := by
  have hnone : ∀ c ∈ (tail ++ rest).head?, isDigitOfBase base c = false := by
    intro c hc
    cases tail with
    | nil =>
      by_contra hdigit
      have hcontinue := continue_of_digit (Bool.eq_true_of_not_eq_false hdigit)
      rw [hrest c hc] at hcontinue
      cases hcontinue
    | cons d tail => exact hends c hc
  rw [List.append_assoc]
  exact dropWhile_word hdigits hnone

/-- A mark other than that of base 10 is skipped. -/
theorem drop_mark {text : Str} (h : Marks base mark (digits ++ tail)) (hten : base ≠ 10)
    (hstart : start = signText negative ++ (mark ++ text)) (hptr : l.ptr = start.drop 1) :
    l.ptr.drop (if negative then 2 else 1) = text := by
  obtain ⟨c, rfl, -⟩ := exists_of_mem_prefixes hten h.mem
  rw [hptr, hstart]
  cases negative with
  | true => rfl
  | false => rfl

/-- The cursor passes the digits; without a mark the first of them may be behind it already. -/
theorem cursor_digits (h : Marks base mark (digits ++ tail))
    (hdigits : ∀ c ∈ digits, isDigitOfBase base c = true)
    (hends : ∀ c ∈ tail.head?, isDigitOfBase base c = false) (hrest : Stops rest)
    (hstart : start = signText negative ++ (mark ++ (digits ++ tail ++ rest)))
    (hptr : l.ptr = start.drop 1) :
    (if base ≠ 10 then l.ptr.drop (if negative then 2 else 1) else l.ptr).dropWhile
      (isDigitOfBase base) = tail ++ rest := by
  have hdrop := dropWhile_digits hdigits hends hrest
  by_cases hten : base = 10
  · obtain ⟨hfirst, -⟩ := h.plain hten
    subst hten
    rw [if_neg (not_not.mpr rfl), hptr, hstart, List.mem_singleton.mp h.mem, List.nil_append]
    cases negative with
    | true => exact hdrop
    | false =>
      cases digits with
      | nil =>
        cases tail with
        | nil => cases hfirst
        | cons d tail =>
          have hdigit := (digit_facts hfirst).2.2.2.2.2.2.2.2
          rw [show peekChar ([] ++ d :: tail) = d from rfl, hends d rfl] at hdigit
          cases hdigit
      | cons d digits =>
        rw [List.cons_append, List.cons_append, List.dropWhile_cons_of_pos
          (hdigits d List.mem_cons_self)] at hdrop
        exact hdrop
  · rw [if_pos hten, drop_mark h hten hstart hptr]
    exact hdrop

/-- **The lexer on a literal**: a sign, a mark, digits of its base and what else could continue an
identifier. -/
theorem lexInteger_run (h : Marks base mark (digits ++ tail))
    (hdigits : ∀ c ∈ digits, isDigitOfBase base c = true)
    (htail : ∀ c ∈ tail, isIdentifierContinue c = true)
    (hends : ∀ c ∈ tail.head?, isDigitOfBase base c = false) (hrest : Stops rest)
    (hstart : start = signText negative ++ (mark ++ (digits ++ tail ++ rest)))
    (hptr : l.ptr = start.drop 1) :
    l.lexInteger start negative =
      (if digits = [] then { l with ptr := rest }.makeError start "malformed integer literal"
        else if tail ≠ [] then
          { l with ptr := rest }.makeError start s!"invalid digit in base-{base} integer literal"
        else { l with ptr := rest }.finishInteger start negative (fromChars base digits),
      { l with ptr := rest }) := by
  have hbegin : (if negative then start.drop 1 else start) = mark ++ (digits ++ tail ++ rest) := by
    rw [hstart]
    cases negative <;> rfl
  have hbase : (if peekChar (if negative then start.drop 1 else start) = 48 then
      baseOf (if negative then peekChar (l.ptr.drop 1) else peekChar l.ptr) else 10) = base := by
    have hpeek : (if negative then peekChar (l.ptr.drop 1) else peekChar l.ptr) =
        peekChar ((mark ++ (digits ++ tail ++ rest)).drop 1) := by
      rw [hptr, hstart]
      cases negative <;> rfl
    rw [hbegin, hpeek]
    exact base_of_marks h hrest
  have hcursor := cursor_digits h hdigits hends hrest hstart hptr
  have hbehind : (if base ≠ 10 then
      (if base ≠ 10 then l.ptr.drop (if negative then 2 else 1) else l.ptr)
      else mark ++ (digits ++ tail ++ rest)) = digits ++ tail ++ rest := by
    by_cases hten : base = 10
    · rw [if_neg (not_not.mpr hten)]
      subst hten
      rw [List.mem_singleton.mp h.mem, List.nil_append]
    · rw [if_pos hten, if_pos hten, drop_mark h hten hstart hptr]
  have hlast : (tail ++ rest).dropWhile isIdentifierContinue = rest := dropWhile_word htail hrest
  have hdistance : distance (digits ++ tail ++ rest) (tail ++ rest) = digits.length := by
    unfold distance
    rw [List.append_assoc, List.length_append]
    omega
  have htake : (digits ++ tail ++ rest).take digits.length = digits := by
    rw [List.append_assoc, List.take_left]
  have hmore : isIdentifierContinue (peekChar (tail ++ rest)) = true ↔ tail ≠ [] := by
    cases tail with
    | nil => simp [hrest.peekChar]
    | cons d tail => exact iff_of_true (htail d List.mem_cons_self) (List.cons_ne_nil d tail)
  unfold lexInteger
  dsimp only
  rw [hbase, hbegin, hcursor, hbehind, hlast, hdistance, htake]
  by_cases hempty : digits = []
  · rw [if_pos hempty, if_pos (by rw [hempty]; rfl)]
  · rw [if_neg hempty, if_neg (by rwa [List.length_eq_zero_iff])]
    by_cases htailNe : tail ≠ []
    · rw [if_pos htailNe, if_pos (hmore.mpr htailNe)]
    · rw [if_neg htailNe, if_neg (fun hpeek => htailNe (hmore.mp hpeek)), not_not.mp htailNe,
        List.nil_append]

end

/-! ### Values -/

theorem digitsValue_concat (base : ℕ) (digits : Str) (c : UInt8) :
    digitsValue base (digits ++ [c]) = digitsValue base digits * base + digitValue c := by
  unfold digitsValue
  rw [List.foldl_concat]

/-- The digits are read in place-value notation. -/
theorem digitsValue_eq (base : ℕ) (digits : Str) :
    digitsValue base digits = Nat.ofDigits base (digits.map digitValue).reverse := by
  induction digits using List.reverseRecOn with
  | nil => rfl
  | append_singleton digits c ih =>
    rw [digitsValue_concat, ih, List.map_append, List.map_singleton, List.reverse_append,
      List.reverse_singleton, List.singleton_append, Nat.ofDigits_cons, Nat.add_comm,
      Nat.mul_comm base]

/-- The number is an `i64`. -/
def Fits (n : ℤ) : Prop := Int64.minValue.toInt ≤ n ∧ n ≤ Int64.maxValue.toInt

instance (n : ℤ) : Decidable (Fits n) := inferInstanceAs (Decidable (_ ∧ _))

theorem fits_signed (negative : Bool) (n : ℕ) :
    Fits (signed negative n) ↔ n ≤ if negative then 2 ^ 63 else 2 ^ 63 - 1 := by
  have hmin : Int64.minValue.toInt = -2 ^ 63 := by decide
  have hmax : Int64.maxValue.toInt = 2 ^ 63 - 1 := by decide
  unfold Fits signed
  rw [hmin, hmax]
  cases negative with
  | true =>
    simp only [if_true]
    omega
  | false =>
    simp only [Bool.false_eq_true, if_false]
    omega

/-- The code negates a magnitude without a signed number that does not exist. -/
theorem ofInt_signed (negative : Bool) (n : ℕ) : Int64.ofInt (signed negative n) =
    if negative then (~~~UInt64.ofNat n + 1).toInt64 else (UInt64.ofNat n).toInt64 := by
  unfold signed
  cases negative with
  | true =>
    simp only [if_true]
    rw [← UInt64.neg_eq_not_add, Int64.ofInt_neg, Int64.ofInt_eq_ofNat]
    rfl
  | false =>
    simp only [Bool.false_eq_true, if_false]
    rw [Int64.ofInt_eq_ofNat]
    rfl

/-- The end of a literal: its value, or that it has none. -/
theorem finishInteger_eq (l : Lexer) (start : Str) (negative : Bool) (base : ℕ) (digits : Str) :
    l.finishInteger start negative (fromChars base digits) =
      if Fits (signed negative (digitsValue base digits)) then
        { l.makeToken .integer start with
          intValue := Int64.ofInt (signed negative (digitsValue base digits)) }
      else l.makeError start "integer literal does not fit in 64 bits" := by
  generalize hn : digitsValue base digits = n
  unfold fromChars
  rw [hn]
  have hmost : (if negative then kMaxNegativeMagnitude else Int64.maxValue.toUInt64).toNat =
      if negative then 2 ^ 63 else 2 ^ 63 - 1 := by
    cases negative <;> decide
  by_cases hword : n < 2 ^ 64
  · rw [if_pos hword]
    unfold finishInteger
    dsimp only
    have hgt : (UInt64.ofNat n > if negative then kMaxNegativeMagnitude
        else Int64.maxValue.toUInt64) ↔ ¬Fits (signed negative n) := by
      rw [fits_signed, gt_iff_lt, UInt64.lt_iff_toNat_lt, hmost,
        UInt64.toNat_ofNat_of_lt' hword, not_le]
    by_cases hfits : Fits (signed negative n)
    · rw [if_pos hfits, if_neg (fun hlarge => hgt.mp hlarge hfits)]
      rw [ofInt_signed]
    · rw [if_neg hfits, if_pos (hgt.mpr hfits)]
  · have hfits : ¬Fits (signed negative n) := by
      rw [fits_signed]
      cases negative with
      | true =>
        simp only [if_true]
        omega
      | false =>
        simp only [Bool.false_eq_true, if_false]
        omega
    rw [if_neg hword, if_neg hfits]
    rfl

/-! ### Literals -/

/-- A literal starts with a digit, behind its sign. -/
theorem exists_digit {base : ℕ} {mark run : Str} (h : Marks base mark run) (rest : Str) :
    ∃ c more, mark ++ (run ++ rest) = c :: more ∧ isDigit c = true := by
  by_cases hten : base = 10
  · obtain ⟨hdigit, -⟩ := h.plain hten
    subst hten
    rw [List.mem_singleton.mp h.mem, List.nil_append]
    cases run with
    | nil => cases hdigit
    | cons c run => exact ⟨c, run ++ rest, rfl, hdigit⟩
  · obtain ⟨c, rfl, -⟩ := exists_of_mem_prefixes hten h.mem
    exact ⟨48, _, rfl, by decide⟩

/-- What the lexer does at a literal. -/
theorem lexToken_digit (l : Lexer) {c : UInt8} (h : isDigit c = true) (start : Str) :
    l.lexToken start c = l.lexInteger start false := by
  obtain ⟨-, -, hpunctuation, hnewline, hminus, hquote, hchar, hstart, -⟩ := digit_facts h
  unfold lexToken
  rw [hpunctuation]
  dsimp only
  rw [if_neg hnewline, if_neg hminus, if_neg hquote, if_neg hchar,
    if_neg (by rw [hstart]; decide), if_pos h]

theorem lexToken_minus {l : Lexer} (h : isDigit (peekChar l.ptr) = true) (start : Str) :
    l.lexToken start 45 = l.lexInteger start true := by
  unfold lexToken
  rw [show punctuation 45 = none by decide]
  dsimp only
  rw [if_neg (by decide), if_pos rfl, if_pos h]

/-- **A literal is one token**, whatever it is like: its value, if it is nothing but digits and
fits. -/
theorem reads_literal {base : ℕ} {mark digits tail rest : Str} (negative : Bool)
    (h : Marks base mark (digits ++ tail)) (hdigits : ∀ c ∈ digits, isDigitOfBase base c = true)
    (htail : ∀ c ∈ tail, isIdentifierContinue c = true)
    (hends : ∀ c ∈ tail.head?, isDigitOfBase base c = false) (hrest : Stops rest) :
    Reads (signText negative ++ (mark ++ (digits ++ tail ++ rest)))
      (if digits ≠ [] ∧ tail = [] ∧ Fits (signed negative (digitsValue base digits)) then
        ⟨.integer, signText negative ++ (mark ++ digits),
          Int64.ofInt (signed negative (digitsValue base digits))⟩
      else ⟨.error, signText negative ++ (mark ++ (digits ++ tail)), 0⟩) rest := by
  obtain ⟨c, more, hfront, hc⟩ := exists_digit h rest
  have htext := take_distance (signText negative ++ (mark ++ (digits ++ tail))) rest
  rw [List.append_assoc, List.append_assoc] at htext
  -- what the lexer returns behind the first character
  have htoken : ∀ l : Lexer,
      l.ptr = (signText negative ++ (mark ++ (digits ++ tail ++ rest))).drop 1 → ∀ result,
        l.lexInteger (signText negative ++ (mark ++ (digits ++ tail ++ rest))) negative = result →
          shapeOf result.1 =
              (if digits ≠ [] ∧ tail = [] ∧ Fits (signed negative (digitsValue base digits)) then
            ⟨.integer, signText negative ++ (mark ++ digits),
              Int64.ofInt (signed negative (digitsValue base digits))⟩
          else ⟨.error, signText negative ++ (mark ++ (digits ++ tail)), 0⟩) ∧
              result.2.ptr = rest := by
    rintro l hptr result rfl
    rw [lexInteger_run h hdigits htail hends hrest rfl hptr]
    refine ⟨?_, rfl⟩
    dsimp only
    by_cases hne : digits = []
    · rw [if_pos hne, if_neg (fun hall => hall.1 hne)]
      simp only [shapeOf, makeError, makeToken, htext]
    rw [if_neg hne]
    by_cases hmore : tail = []
    · rw [if_neg (not_not.mpr hmore), finishInteger_eq]
      by_cases hfits : Fits (signed negative (digitsValue base digits))
      · rw [if_pos hfits, if_pos ⟨hne, hmore, hfits⟩]
        simp only [shapeOf, makeToken, htext]
        rw [hmore, List.append_nil]
      · rw [if_neg hfits, if_neg (fun hall => hfits hall.2.2)]
        simp only [shapeOf, makeError, makeToken, htext]
    · rw [if_pos hmore, if_neg (fun hall => hmore hall.2.1)]
      simp only [shapeOf, makeError, makeToken, htext]
  cases negative with
  | true =>
    have hstart : signText true ++ (mark ++ (digits ++ tail ++ rest)) =
        45 :: (mark ++ (digits ++ tail ++ rest)) := by
      rw [show signText true = [45] by decide]
      rfl
    rw [hstart] at htoken ⊢
    apply reads_of_lexToken (by decide) (by decide)
    intro l hptr
    have hfirst : isDigit (peekChar l.ptr) = true := by
      rw [hptr, hfront]
      exact hc
    rw [lexToken_minus hfirst]
    exact htoken l hptr _ rfl
  | false =>
    obtain ⟨hblank, hcomment, -⟩ := digit_facts hc
    have hstart : signText false ++ (mark ++ (digits ++ tail ++ rest)) = c :: more := hfront
    rw [hstart] at htoken ⊢
    apply reads_of_lexToken hblank hcomment
    intro l hptr
    rw [lexToken_digit l hc]
    exact htoken l hptr _ rfl

/-- Digits of a base are behind any mark of it. -/
theorem Marks.of_digits {base : ℕ} {mark digits : Str} (hmark : mark ∈ prefixes base)
    (hne : digits ≠ []) (hdigits : ∀ c ∈ digits, isDigitOfBase base c = true) :
    Marks base mark digits := by
  refine ⟨hmark, ?_⟩
  rintro rfl
  constructor
  · cases digits with
    | nil => exact absurd rfl hne
    | cons c digits =>
      have hdecimal : ∀ c, isDigitOfBase 10 c = true → isDigit c = true := by
        apply forall_byte
        decide +kernel
      exact hdecimal c (hdigits c List.mem_cons_self)
  · intro other hother m hm hstarts
    obtain ⟨c, rfl, hbase, -⟩ := exists_of_mem_prefixes hother hm
    have hc : isDigitOfBase 10 c = true :=
      hdigits c (hstarts.subset (List.mem_cons_of_mem 48 (List.mem_singleton.mpr rfl)))
    -- the letters of the marks are no decimal digits
    have hletter : ∀ c, isDigitOfBase 10 c = true → baseOf c = 10 := by
      apply forall_byte
      decide +kernel
    exact hother (hbase.symm.trans (hletter c hc))

/-- Every run that starts with a digit is a mark and what is behind it. -/
theorem exists_marks {run : Str} (h : isDigit (peekChar run) = true) :
    ∃ base mark tail, run = mark ++ tail ∧ Marks base mark tail := by
  by_cases hmarked : ∃ other, other ≠ 10 ∧ ∃ m ∈ prefixes other, m <+: run
  · obtain ⟨other, hother, m, hm, tail, rfl⟩ := hmarked
    exact ⟨other, m, tail, rfl, hm, fun hten => absurd hten hother⟩
  · refine ⟨10, [], run, rfl, List.mem_singleton.mpr rfl, fun _ => ⟨h, ?_⟩⟩
    intro other hother m hm hstarts
    exact hmarked ⟨other, hother, m, hm, hstarts⟩

/-! ### Printed numbers -/

theorem reads_number {digits rest : Str} (hne : digits ≠ [])
    (hdigits : ∀ c ∈ digits, isDigit c = true) (hrest : Stops rest)
    (hfits : digitsValue 10 digits < 2 ^ 63) :
    Reads (digits ++ rest) ⟨.integer, digits, (UInt64.ofNat (digitsValue 10 digits)).toInt64⟩
      rest := by
  have hvalid : ∀ c ∈ digits, isDigitOfBase 10 c = true := fun c hc =>
    (digit_facts (hdigits c hc)).2.2.2.2.2.2.2.2
  have hmarks : Marks 10 [] (digits ++ []) := by
    rw [List.append_nil]
    exact .of_digits (List.mem_singleton.mpr rfl) hne hvalid
  have hread := reads_literal false hmarks hvalid (by simp) (by simp) hrest
  have hall : digits ≠ [] ∧ ([] : Str) = [] ∧ Fits (signed false (digitsValue 10 digits)) :=
    ⟨hne, rfl, (fits_signed _ _).mpr (Nat.le_sub_one_of_lt hfits)⟩
  rw [if_pos hall, List.append_nil] at hread
  exact hread

theorem reads_negative {digits rest : Str} (hne : digits ≠ [])
    (hdigits : ∀ c ∈ digits, isDigit c = true) (hrest : Stops rest)
    (hfits : digitsValue 10 digits ≤ 2 ^ 63) :
    Reads (45 :: (digits ++ rest)) ⟨.integer, 45 :: digits,
      (~~~UInt64.ofNat (digitsValue 10 digits) + 1).toInt64⟩ rest := by
  have hvalid : ∀ c ∈ digits, isDigitOfBase 10 c = true := fun c hc =>
    (digit_facts (hdigits c hc)).2.2.2.2.2.2.2.2
  have hmarks : Marks 10 [] (digits ++ []) := by
    rw [List.append_nil]
    exact .of_digits (List.mem_singleton.mpr rfl) hne hvalid
  have hread := reads_literal true hmarks hvalid (by simp) (by simp) hrest
  have hall : digits ≠ [] ∧ ([] : Str) = [] ∧ Fits (signed true (digitsValue 10 digits)) :=
    ⟨hne, rfl, (fits_signed _ _).mpr hfits⟩
  rw [if_pos hall, List.append_nil, ofInt_signed, show signText true = [45] by decide] at hread
  exact hread

theorem str_ofList (cs : List Char) :
    str (String.ofList cs) = cs.flatMap String.utf8EncodeChar := by
  unfold str
  simp [String.toUTF8_eq_toByteArray, String.toByteArray_ofList, List.utf8Encode]

/-- The upper-case character of a digit below 16. -/
def hexDigit (d : ℕ) : UInt8 := UInt8.ofNat (if d < 10 then 48 + d else 55 + d)

theorem hexDigit_facts : ∀ d < 16, String.utf8EncodeChar (Nat.digitChar d).toUpper = [hexDigit d] ∧
    isDigitOfBase 16 (hexDigit d) = true ∧ digitValue (hexDigit d) = d := by decide

theorem hexadecimal_eq (n : ℕ) : hexadecimal n =
    (Nat.toDigits 16 n).flatMap fun c => String.utf8EncodeChar c.toUpper := by
  unfold hexadecimal Binary.hexText
  dsimp only
  rw [Nat.zero_sub, List.replicate_zero, List.nil_append, str_ofList, List.flatMap_map]

/-- A number is the value of its digits, which are digits of the base, and there is one. -/
theorem hexadecimal_spec (n : ℕ) : hexadecimal n ≠ [] ∧
    (∀ c ∈ hexadecimal n, isDigitOfBase 16 c = true) ∧ digitsValue 16 (hexadecimal n) = n := by
  induction n using Nat.strong_induction_on with
  | _ n ih =>
    rw [hexadecimal_eq]
    by_cases hlt : n < 16
    · obtain ⟨htext, hdigit, hvalue⟩ := hexDigit_facts n hlt
      rw [Nat.toDigits_of_lt_base hlt, List.flatMap_singleton, htext]
      refine ⟨by simp, by simpa using hdigit, ?_⟩
      exact (digitsValue_concat 16 [] _).trans ((Nat.zero_add _).trans hvalue)
    · obtain ⟨-, hdigits, hvalue⟩ := ih (n / 16) (by omega)
      obtain ⟨htext, hdigit, hlast⟩ := hexDigit_facts (n % 16) (Nat.mod_lt _ (by decide))
      rw [Nat.toDigits_of_base_le (by decide) (not_lt.mp hlt), List.flatMap_append,
        List.flatMap_singleton, htext, ← hexadecimal_eq]
      refine ⟨by simp, ?_, ?_⟩
      · intro c hc
        rcases List.mem_append.mp hc with hc | hc
        · exact hdigits c hc
        · rw [List.mem_singleton.mp hc]
          exact hdigit
      · rw [digitsValue_concat, hvalue, hlast]
        exact Nat.div_add_mod' n 16

/-- The token of a hexadecimal number, which says its value if that is an `i64`. -/
theorem reads_hex (n : ℕ) {rest : Str} (hrest : Stops rest) :
    Reads (48 :: 120 :: (hexadecimal n ++ rest))
      (if n < 2 ^ 63 then
        ⟨.integer, 48 :: 120 :: hexadecimal n, (UInt64.ofNat n).toInt64⟩
      else ⟨.error, 48 :: 120 :: hexadecimal n, 0⟩) rest := by
  obtain ⟨hne, hdigits, hvalue⟩ := hexadecimal_spec n
  have hmark : [48, 120] ∈ prefixes 16 := by decide
  have hmarks : Marks 16 [48, 120] (hexadecimal n ++ []) := by
    rw [List.append_nil]
    exact .of_digits hmark hne hdigits
  have hread := reads_literal false hmarks hdigits (by simp) (by simp) hrest
  rw [hvalue, List.append_nil] at hread
  have hfits := fits_signed false n
  by_cases hsmall : n < 2 ^ 63
  · rw [if_pos ⟨hne, rfl, hfits.mpr (Nat.le_sub_one_of_lt hsmall)⟩] at hread
    rw [if_pos hsmall]
    exact hread
  · rw [if_neg fun hall => hsmall (Nat.lt_of_le_sub_one (by decide) (hfits.mp hall.2.2))] at hread
    rw [if_neg hsmall]
    exact hread

/-- **Integer literals.**  Every spelling of an `i64` is one token with its value; digits whose
value is no `i64`, a mark without digits and a literal with another character behind its digits are
one malformed token.  There are no other literals. -/
theorem integer_literals :
    (∀ (n : Int64) (negative : Bool) (base : ℕ) (mark digits rest : Str), mark ∈ prefixes base →
      digits ≠ [] → (∀ c ∈ digits, isDigitOfBase base c = true) →
      n.toInt = signed negative (Nat.ofDigits base (digits.map digitValue).reverse) → Stops rest →
      Reads (signText negative ++ (mark ++ (digits ++ rest)))
        ⟨.integer, signText negative ++ (mark ++ digits), n⟩ rest) ∧
    (∀ (negative : Bool) (base : ℕ) (mark digits rest : Str), mark ∈ prefixes base →
      digits ≠ [] → (∀ c ∈ digits, isDigitOfBase base c = true) →
      ¬Fits (signed negative (Nat.ofDigits base (digits.map digitValue).reverse)) → Stops rest →
      Reads (signText negative ++ (mark ++ (digits ++ rest)))
        ⟨.error, signText negative ++ (mark ++ digits), 0⟩ rest) ∧
    (∀ (negative : Bool) (base : ℕ) (mark run rest : Str), Marks base mark run →
      (∀ c ∈ run, isIdentifierContinue c = true) →
      ¬(run ≠ [] ∧ ∀ c ∈ run, isDigitOfBase base c = true) → Stops rest →
      Reads (signText negative ++ (mark ++ (run ++ rest)))
        ⟨.error, signText negative ++ (mark ++ run), 0⟩ rest) ∧
    ∀ run : Str, isDigit (peekChar run) = true →
      ∃ base mark tail, run = mark ++ tail ∧ Marks base mark tail := by
  refine ⟨?_, ?_, ?_, fun run => exists_marks⟩
  · intro n negative base mark digits rest hmark hne hdigits hvalue hrest
    rw [← digitsValue_eq] at hvalue
    have hmarks : Marks base mark (digits ++ []) := by
      rw [List.append_nil]
      exact .of_digits hmark hne hdigits
    have hread := reads_literal negative hmarks hdigits (by simp) (by simp) hrest
    have hfits : Fits (signed negative (digitsValue base digits)) := by
      rw [← hvalue]
      exact ⟨n.minValue_le_toInt, n.toInt_le⟩
    rwa [if_pos ⟨hne, rfl, hfits⟩, ← hvalue, Int64.ofInt_toInt, List.append_nil] at hread
  · intro negative base mark digits rest hmark hne hdigits hvalue hrest
    rw [← digitsValue_eq] at hvalue
    have hmarks : Marks base mark (digits ++ []) := by
      rw [List.append_nil]
      exact .of_digits hmark hne hdigits
    have hread := reads_literal negative hmarks hdigits (by simp) (by simp) hrest
    rwa [if_neg (fun hall => hvalue hall.2.2), List.append_nil] at hread
  · intro negative base mark run rest hmarks hrun hbad hrest
    have hsplit := List.takeWhile_append_dropWhile (p := isDigitOfBase base) (l := run)
    rw [← hsplit] at hmarks
    have hread := reads_literal negative hmarks (fun c hc => List.mem_takeWhile_imp hc)
      (fun c hc => hrun c ((List.dropWhile_suffix _).subset hc)) ?_ hrest
    · rw [hsplit] at hread
      rwa [if_neg] at hread
      rintro ⟨hne, htail, -⟩
      rw [htail, List.append_nil] at hsplit
      refine hbad ⟨?_, ?_⟩
      · rw [← hsplit]
        exact hne
      · intro c hc
        rw [← hsplit] at hc
        exact List.mem_takeWhile_imp hc
    · intro c hc
      have hhead := List.head?_dropWhile_not (isDigitOfBase base) run
      rw [hc] at hhead
      simpa using hhead

example : (lexAll (str "-0X8000000000000000, 0o18") 0).map shapeOf =
    [⟨.integer, str "-0X8000000000000000", Int64.minValue⟩, ⟨.comma, str ",", 0⟩,
      ⟨.error, str "0o18", 0⟩, ⟨.eof, [], 0⟩] := by decide

end Lexer
end MiniTool
