import MiniToolchain.Isa.Registers
import MiniToolchain.Lexer.Token
import Mathlib.Data.List.TakeWhile

/-!
# The lexer

A scanner over the bytes of one file.  A position in the file is what is left of it from there, so
the distance of two positions is the difference of their lengths.

## Main definitions

* `Lexer`, `startLexer` — the cursor, and the start of the line it is on.
* `lexInteger`, `lexString`, `lexCharacter`, `lexIdentifierOrRegister`, `lexNext` — one token.
* `lexAll` — what repeated calls return, up to the end of the file.

## Main results

* `lexNext_progress` — every token but the last consumes input.
* `lexAll_eq` — the tokens of a file end with its only end of file.
-/

namespace MiniTool

structure Lexer where
  /-- From the cursor on. -/
  ptr : Str
  file : FileId
  line : UInt32 := 1
  /-- From the start of the line on. -/
  lineStart : Str
  deriving DecidableEq, Repr

namespace Lexer

/-! ### Characters -/

def isDigit (c : UInt8) : Bool := 48 ≤ c && c ≤ 57

def isIdentifierStart (c : UInt8) : Bool :=
  (97 ≤ c && c ≤ 122) || (65 ≤ c && c ≤ 90) || c = 95

def isIdentifierContinue (c : UInt8) : Bool := isIdentifierStart c || isDigit c

def lower (c : UInt8) : UInt8 := if 65 ≤ c && c ≤ 90 then c - 65 + 97 else c

def isDigitOfBase (base : ℕ) (c : UInt8) : Bool :=
  let c := lower c
  if base = 2 then c = 48 || c = 49
  else if base = 8 then 48 ≤ c && c ≤ 55
  else if base = 16 then isDigit c || (97 ≤ c && c ≤ 102)
  else isDigit c

/-- The value of a digit. -/
def digitValue (c : UInt8) : ℕ :=
  let c := lower c
  if isDigit c then c.toNat - 48 else c.toNat - 97 + 10

/-- The value of a string of digits. -/
def digitsValue (base : ℕ) (digits : Str) : ℕ :=
  digits.foldl (fun value c => value * base + digitValue c) 0

/-- `std::from_chars` on digits of the base: `none` when the value is out of range. -/
def fromChars (base : ℕ) (digits : Str) : Option UInt64 :=
  if digitsValue base digits < 2 ^ 64 then some (UInt64.ofNat (digitsValue base digits)) else none

/-- Horizontal white space: space, tab, carriage return, form feed, vertical tab. -/
def isBlank (c : UInt8) : Bool := c = 32 || c = 9 || c = 13 || c = 12 || c = 11

/-! ### Tokens -/

/-- The lexer at the start of a file. -/
def startLexer (source : Str) (file : FileId) : Lexer :=
  { ptr := source, file, lineStart := source }

/-- How many bytes lie between two positions. -/
def distance (first last : Str) : ℕ := first.length - last.length

/-- The token from a position up to the cursor. -/
def makeToken (l : Lexer) (type : TokenType) (start : Str) : Token where
  type
  text := start.take (distance start l.ptr)
  location :=
    { file := l.file
      line := l.line
      column := UInt32.ofNat (distance l.lineStart start) + 1
      length := UInt32.ofNat (distance start l.ptr) }

/-- A malformed token; its message travels in `strValue`. -/
def makeError (l : Lexer) (start : Str) (message : String) : Token :=
  { l.makeToken .error start with strValue := Str.ofText message }

@[simp] theorem type_makeToken (l : Lexer) (type : TokenType) (start : Str) :
    (l.makeToken type start).type = type := rfl

@[simp] theorem type_makeError (l : Lexer) (start : Str) (message : String) :
    (l.makeError start message).type = .error := rfl

/-- A comment runs up to the end of the line, which stops the loop. -/
def skipHorizontalWhitespaceAndComments : Str → Str
  | [] => []
  | c :: rest =>
    if isBlank c then skipHorizontalWhitespaceAndComments rest
    else if c = 59 then rest.dropWhile (· ≠ 10)
    else c :: rest

/-- `Lexer::peekChar`: the character at a position, 0 at the end. -/
def peekChar (ptr : Str) : UInt8 := ptr.headD 0

def lexIdentifierOrRegister (l : Lexer) (start : Str) : Token × Lexer :=
  let l := { l with ptr := l.ptr.dropWhile isIdentifierContinue }
  let token := l.makeToken .identifier start
  if (Isa.parseRegister token.text).isSome then ({ token with type := .register }, l)
  else (token, l)

/-- The base a prefix names. -/
def baseOf (prefixChar : UInt8) : ℕ :=
  let c := lower prefixChar
  if c = 120 then 16 else if c = 98 then 2 else if c = 111 then 8 else 10

/-- The magnitude of the smallest `i64`, which is not itself an `i64`. -/
abbrev kMaxNegativeMagnitude : UInt64 := (1 : UInt64) <<< 63

/-- The end of an integer whose digits are in order, and what they say when it fits in a `u64`. -/
def finishInteger (l : Lexer) (start : Str) (negative : Bool) : Option UInt64 → Token
  | none => l.makeError start "integer literal does not fit in 64 bits"
  | some magnitude =>
    let most := if negative then kMaxNegativeMagnitude else Int64.maxValue.toUInt64
    if magnitude > most then l.makeError start "integer literal does not fit in 64 bits"
    else
      { l.makeToken .integer start with
        intValue := if negative then (~~~magnitude + 1).toInt64 else magnitude.toInt64 }

/-- On entry the sign, or the first digit, is consumed. -/
def lexInteger (l : Lexer) (start : Str) (negative : Bool) : Token × Lexer :=
  let digitsBegin := if negative then start.drop 1 else start
  let base :=
    if peekChar digitsBegin = 48 then
      baseOf (if negative then peekChar (l.ptr.drop 1) else peekChar l.ptr)
    else 10
  let ptr := if base ≠ 10 then l.ptr.drop (if negative then 2 else 1) else l.ptr
  let digitsBegin := if base ≠ 10 then ptr else digitsBegin
  let ptr := ptr.dropWhile (isDigitOfBase base)
  let rest := ptr.dropWhile isIdentifierContinue
  if distance digitsBegin ptr = 0 then
    ({ l with ptr := rest }.makeError start "malformed integer literal", { l with ptr := rest })
  else if isIdentifierContinue (peekChar ptr) then
    ({ l with ptr := rest }.makeError start s!"invalid digit in base-{base} integer literal",
      { l with ptr := rest })
  else
    ({ l with ptr }.finishInteger start negative
      (fromChars base (digitsBegin.take (distance digitsBegin ptr))), { l with ptr })

/-- The escape sequence after a backslash, and what is left after it. -/
def decodeEscape : Str → Except String Int64 × Str
  | [] => (.error "unterminated escape sequence", [])
  | c :: ptr =>
    if c = 110 then (.ok 10, ptr)
    else if c = 116 then (.ok 9, ptr)
    else if c = 114 then (.ok 13, ptr)
    else if c = 48 then (.ok 0, ptr)
    else if c = 92 then (.ok 92, ptr)
    else if c = 39 then (.ok 39, ptr)
    else if c = 34 then (.ok 34, ptr)
    else if c = 120 then
      let digits := (ptr.take 2).takeWhile (isDigitOfBase 16)
      if digits = [] then (.error "\\x needs at least one hexadecimal digit", ptr)
      else (.ok (Int64.ofNat (digitsValue 16 digits)), ptr.drop digits.length)
    else
      let shown := Str.text [c]
      (.error s!"unknown escape sequence '\\{shown}'", ptr)

/-- The rest of a string literal, with what is decoded so far; the fuel is the bytes left. -/
def lexStringFrom (start : Str) : ℕ → Lexer → Str → Token × Lexer
  | 0, l, _ => (l.makeError start "unterminated string literal", l)
  | fuel + 1, l, decoded =>
    match l.ptr with
    | [] => (l.makeError start "unterminated string literal", l)
    | c :: rest =>
      if c = 10 then (l.makeError start "unterminated string literal", l)
      else
        let l := { l with ptr := rest }
        if c = 34 then ({ l.makeToken .string start with strValue := decoded }, l)
        else if c = 92 then
          match decodeEscape rest with
          | (.error message, ptr) =>
            ({ l with ptr }.makeError start message, { l with ptr })
          | (.ok value, ptr) =>
            lexStringFrom start fuel { l with ptr } (decoded ++ [value.toUInt64.toUInt8])
        else lexStringFrom start fuel l (decoded ++ [c])

def lexString (l : Lexer) (start : Str) : Token × Lexer := lexStringFrom start l.ptr.length l []

/-- The closing quote of a character literal. -/
def closeCharacter (l : Lexer) (start : Str) (value : Int64) : Token × Lexer :=
  match l.ptr with
  | 39 :: rest =>
    let l := { l with ptr := rest }
    ({ l.makeToken .character start with intValue := value }, l)
  | _ => (l.makeError start "unterminated character literal", l)

def lexCharacter (l : Lexer) (start : Str) : Token × Lexer :=
  match l.ptr with
  | [] => (l.makeError start "unterminated character literal", l)
  | c :: rest =>
    if c = 10 then (l.makeError start "unterminated character literal", l)
    else
      let l := { l with ptr := rest }
      if c = 92 then
        match decodeEscape rest with
        | (.error message, ptr) => ({ l with ptr }.makeError start message, { l with ptr })
        | (.ok value, ptr) => { l with ptr }.closeCharacter start value
      else if c = 39 then (l.makeError start "empty character literal", l)
      else l.closeCharacter start (Int64.ofNat c.toNat)

/-- The type of a token that is one character, other than a newline or a minus. -/
def punctuation (c : UInt8) : Option TokenType :=
  if c = 58 then some .colon
  else if c = 44 then some .comma
  else if c = 43 then some .plus
  else if c = 46 then some .dot
  else if c = 35 then some .hash
  else if c = 91 then some .lBracket
  else if c = 93 then some .rBracket
  else none

/-- The token that starts with a character, which is consumed. -/
def lexToken (l : Lexer) (start : Str) (c : UInt8) : Token × Lexer :=
  match punctuation c with
  | some type => (l.makeToken type start, l)
  | none =>
    if c = 10 then
      (l.makeToken .newline start, { l with line := l.line + 1, lineStart := l.ptr })
    else if c = 45 then
      -- `-5` is one token; a minus before anything else is an operator
      if isDigit (peekChar l.ptr) then l.lexInteger start true else (l.makeToken .minus start, l)
    else if c = 34 then l.lexString start
    else if c = 39 then l.lexCharacter start
    else if isIdentifierStart c then l.lexIdentifierOrRegister start
    else if isDigit c then l.lexInteger start false
    else
      let shown := Str.text [c]
      (l.makeError start s!"unexpected character '{shown}'", l)

def lexNext (l : Lexer) : Token × Lexer :=
  match skipHorizontalWhitespaceAndComments l.ptr with
  | [] => let l := { l with ptr := [] }; (l.makeToken .eof [], l)
  | c :: rest => { l with ptr := rest }.lexToken (c :: rest) c

/-- The tokens of the file from the cursor on, the end of the file included. -/
def lexFrom : ℕ → Lexer → List Token
  | 0, _ => []
  | fuel + 1, l =>
    let (token, l) := l.lexNext
    if token.type = .eof then [token] else token :: lexFrom fuel l

def lexAll (source : Str) (file : FileId) : List Token :=
  lexFrom (source.length + 1) (startLexer source file)

/-! ### Progress -/

/-- What is left after a token is a part of what was left before it. -/
def Within (result : Token × Lexer) (ptr : Str) : Prop :=
  result.1.type ≠ .eof ∧ result.2.ptr <:+ ptr

theorem finishInteger_ne_eof (l : Lexer) (start : Str) (negative : Bool) (value : Option UInt64) :
    (l.finishInteger start negative value).type ≠ .eof := by
  cases value with
  | none => simp [finishInteger]
  | some magnitude =>
    unfold finishInteger
    dsimp only
    split_ifs <;> simp

theorem lexInteger_within (l : Lexer) (start : Str) (negative : Bool) :
    Within (l.lexInteger start negative) l.ptr := by
  unfold lexInteger
  dsimp only
  generalize (if peekChar (if negative = true then start.drop 1 else start) = 48 then _ else 10) =
    base
  have hptr : (if base ≠ 10 then l.ptr.drop (if negative = true then 2 else 1) else l.ptr) <:+
      l.ptr := by
    split_ifs
    · exact List.drop_suffix _ _
    · exact List.drop_suffix _ _
    · exact List.suffix_refl _
  generalize (if base ≠ 10 then l.ptr.drop (if negative = true then 2 else 1) else l.ptr) = ptr
    at hptr
  have hdigits : ptr.dropWhile (isDigitOfBase base) <:+ l.ptr :=
    (List.dropWhile_suffix _).trans hptr
  have hrest := (List.dropWhile_suffix isIdentifierContinue).trans hdigits
  generalize (if base ≠ 10 then ptr else _) = digitsBegin
  split_ifs
  · exact ⟨by simp, hrest⟩
  · exact ⟨by simp, hrest⟩
  · exact ⟨finishInteger_ne_eof _ _ _ _, hdigits⟩

theorem decodeEscape_suffix (ptr : Str) : (decodeEscape ptr).2 <:+ ptr := by
  cases ptr with
  | nil => exact List.suffix_refl _
  | cons c ptr =>
    unfold decodeEscape
    dsimp only
    split_ifs
    all_goals first
      | exact List.suffix_cons _ _
      | exact (List.drop_suffix _ _).trans (List.suffix_cons _ _)

theorem lexStringFrom_within (start : Str) (fuel : ℕ) (l : Lexer) (decoded : Str) :
    Within (lexStringFrom start fuel l decoded) l.ptr := by
  induction fuel generalizing l decoded with
  | zero => exact ⟨by simp [lexStringFrom], List.suffix_refl _⟩
  | succ fuel ih =>
    unfold lexStringFrom
    cases hptr : l.ptr with
    | nil => exact ⟨by simp, by simp [hptr]⟩
    | cons c rest =>
      dsimp only
      have hrest : rest <:+ c :: rest := List.suffix_cons _ _
      split_ifs
      · exact ⟨by simp, by simp [hptr]⟩
      · exact ⟨by simp, hrest⟩
      · have hescape := (decodeEscape_suffix rest).trans hrest
        cases hdecode : decodeEscape rest with
        | mk result ptr =>
          rw [hdecode] at hescape
          cases result with
          | error message => exact ⟨by simp, hescape⟩
          | ok value => exact ⟨(ih _ _).1, (ih _ _).2.trans hescape⟩
      · exact ⟨(ih _ _).1, (ih _ _).2.trans hrest⟩

theorem closeCharacter_within (l : Lexer) (start : Str) (value : Int64) :
    Within (l.closeCharacter start value) l.ptr := by
  unfold closeCharacter
  split
  · next rest hptr => exact ⟨by simp, by rw [hptr]; exact List.suffix_cons _ _⟩
  · exact ⟨by simp, List.suffix_refl _⟩

theorem lexCharacter_within (l : Lexer) (start : Str) :
    Within (l.lexCharacter start) l.ptr := by
  unfold lexCharacter
  cases hptr : l.ptr with
  | nil => exact ⟨by simp, by simp [hptr]⟩
  | cons c rest =>
    dsimp only
    have hrest : rest <:+ c :: rest := List.suffix_cons _ _
    split_ifs
    · exact ⟨by simp, by simp [hptr]⟩
    · have hescape := (decodeEscape_suffix rest).trans hrest
      cases hdecode : decodeEscape rest with
      | mk result ptr =>
        rw [hdecode] at hescape
        cases result with
        | error message => exact ⟨by simp, hescape⟩
        | ok value =>
          have hclose := closeCharacter_within { l with ptr } start value
          exact ⟨hclose.1, hclose.2.trans hescape⟩
    · exact ⟨by simp, hrest⟩
    · have hclose := closeCharacter_within { l with ptr := rest } start (Int64.ofNat c.toNat)
      exact ⟨hclose.1, hclose.2.trans hrest⟩

theorem lexToken_within (l : Lexer) (start : Str) (c : UInt8) :
    Within (l.lexToken start c) l.ptr := by
  have hsame : l.ptr <:+ l.ptr := List.suffix_refl _
  unfold lexToken
  cases hpunctuation : punctuation c with
  | some type =>
    refine ⟨?_, hsame⟩
    rintro rfl
    unfold punctuation at hpunctuation
    split_ifs at hpunctuation <;> cases hpunctuation
  | none =>
    dsimp only
    split_ifs
    · exact ⟨by simp, hsame⟩
    · exact lexInteger_within l start true
    · exact ⟨by simp, hsame⟩
    · exact lexStringFrom_within start _ l []
    · exact lexCharacter_within l start
    · unfold lexIdentifierOrRegister
      dsimp only
      split_ifs
      · exact ⟨by simp, List.dropWhile_suffix _⟩
      · exact ⟨by simp, List.dropWhile_suffix _⟩
    · exact lexInteger_within l start false
    · exact ⟨by simp, hsame⟩

theorem skip_suffix (ptr : Str) : skipHorizontalWhitespaceAndComments ptr <:+ ptr := by
  induction ptr with
  | nil => exact List.suffix_refl _
  | cons c rest ih =>
    unfold skipHorizontalWhitespaceAndComments
    split_ifs
    · exact ih.trans (List.suffix_cons _ _)
    · exact (List.dropWhile_suffix _).trans (List.suffix_cons _ _)
    · exact List.suffix_refl _

/-- Every token but the end of the file consumes input. -/
theorem lexNext_progress (l : Lexer) (h : l.lexNext.1.type ≠ .eof) :
    l.lexNext.2.ptr.length < l.ptr.length := by
  have hskip := (skip_suffix l.ptr).length_le
  unfold lexNext at h ⊢
  cases hstart : skipHorizontalWhitespaceAndComments l.ptr with
  | nil =>
    rw [hstart] at h
    exact absurd rfl h
  | cons c rest =>
    have hwithin := (lexToken_within { l with ptr := rest } (c :: rest) c).2.length_le
    rw [hstart, List.length_cons] at hskip
    dsimp only at hwithin ⊢
    omega

/-- With enough fuel the tokens end with the only end of file among them. -/
theorem lexFrom_eq {fuel : ℕ} {l : Lexer} (h : l.ptr.length < fuel) :
    ∃ body eof, lexFrom fuel l = body ++ [eof] ∧ eof.type = .eof ∧
      ∀ token ∈ body, token.type ≠ .eof := by
  induction fuel generalizing l with
  | zero => omega
  | succ fuel ih =>
    unfold lexFrom
    dsimp only
    by_cases heof : l.lexNext.1.type = .eof
    · rw [if_pos heof]
      exact ⟨[], _, rfl, heof, by simp⟩
    · rw [if_neg heof]
      have hprogress := lexNext_progress l heof
      obtain ⟨body, eof, hrest, hlast, hbody⟩ := @ih l.lexNext.2 (by omega)
      refine ⟨l.lexNext.1 :: body, eof, by rw [hrest]; rfl, hlast, ?_⟩
      exact List.forall_mem_cons.mpr ⟨heof, hbody⟩

theorem lexAll_eq (source : Str) (file : FileId) :
    ∃ body eof, lexAll source file = body ++ [eof] ∧ eof.type = .eof ∧
      ∀ token ∈ body, token.type ≠ .eof :=
  lexFrom_eq (Nat.lt_succ_self _)

/-- The message for a byte that starts no token holds that byte. -/
example : (lexAll [0xE9] 0).map (·.strValue) =
    [str "unexpected character '" ++ [0xE9] ++ str "'", []] := by decide

end Lexer
end MiniTool
