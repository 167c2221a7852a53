import MiniToolchain.Lexer.Integers
import Mathlib.Data.List.Infix

/-!
# Where tokens are

The lexer counts lines as it returns newlines, so its locations are right as long as nothing but a
token takes a newline.  Behind a backslash a literal does.

## Main definitions

* `lexedAll` — the tokens of a file, and what is left of the file from each on.
* `Located`, `newlines`, `KeepsLines` — the locations of the tokens, and the newlines among them,
  are right.
* `Mode`, `escapedNewlines` — the newlines that stand behind a backslash in a literal.

## Main results

* `countP_newline` — the newlines that are no tokens are those.
* `keepsLines_iff` — when the lexer keeps the lines of a file.
* `shifted_lines` — a file whose lines it does not keep.
-/

namespace MiniTool
namespace Lexer

/-! ### The tokens and their places -/

/-- The tokens from the cursor on, each with what is left of the file from it on. -/
def lexedFrom : ℕ → Lexer → List (Str × Token)
  | 0, _ => []
  | fuel + 1, l =>
    let (token, next) := l.lexNext
    (skipHorizontalWhitespaceAndComments l.ptr, token) ::
      if token.type = .eof then [] else lexedFrom fuel next

def lexedAll (source : Str) (file : FileId) : List (Str × Token) :=
  lexedFrom (source.length + 1) (startLexer source file)

/-- A token stands at the front of what is left, behind what has been seen, and its location says
so: lines and columns count from 1. -/
def Located (source start : Str) (token : Token) : Prop :=
  ∃ seen, source = seen ++ start ∧ token.text <+: start ∧
    token.location.line.toNat = 1 + seen.count 10 ∧
    token.location.column.toNat = 1 + (seen.reverse.takeWhile (· ≠ 10)).length

/-- The newlines of a text, each with what is behind it. -/
def newlines (source : Str) : List Str := source.tails.filter fun rest => rest.head? = some 10

/-- Every token is where it says, and there is one newline for each in the file. -/
def KeepsLines (source : Str) (file : FileId) : Prop :=
  (∀ p ∈ lexedAll source file, Located source p.1 p.2) ∧
    ((lexedAll source file).filter fun p => p.2.type = .newline).map Prod.fst = newlines source

/-! ### Escaped newlines -/

/-- What a character is part of. -/
inductive Mode
  | code
  | comment
  /-- A string literal. -/
  | string
  /-- Behind the first quote of a character literal. -/
  | character
  /-- Before the second one. -/
  | closing
  /-- Behind a backslash, and what comes after the escape sequence. -/
  | escape (back : Mode)
  /-- Behind the `x` of one. -/
  | hex (back : Mode)
  /-- Behind the first digit of one. -/
  | digit (back : Mode)

/-- The escape sequences of one character. -/
def isEscape (c : UInt8) : Bool :=
  c = 110 || c = 116 || c = 114 || c = 48 || c = 92 || c = 39 || c = 34

/-- What a character outside of literals and comments starts. -/
def Mode.opened (c : UInt8) : Mode :=
  if c = 59 then .comment else if c = 34 then .string else if c = 39 then .character else .code

/-- What comes after a character; what cannot go on in a literal is no part of it. -/
def Mode.step : Mode → UInt8 → Mode
  | .code, c => opened c
  | .comment, c => if c = 10 then .code else .comment
  | .string, c => if c = 10 ∨ c = 34 then .code else if c = 92 then .escape .string else .string
  | .character, c => if c = 10 ∨ c = 39 then .code
    else if c = 92 then .escape .closing else .closing
  | .closing, c => if c = 39 then .code else opened c
  | .escape back, c => if isEscape c then back else if c = 120 then .hex back else .code
  | .hex back, c => if isDigitOfBase 16 c then .digit back else opened c
  | .digit back, c => if isDigitOfBase 16 c then back else step back c

def Mode.isEscape : Mode → Bool
  | .escape _ => true
  | _ => false

/-- How many newlines stand behind a backslash in a literal. -/
def escapedNewlines : Mode → Str → ℕ
  | _, [] => 0
  | mode, c :: rest =>
    (if c = 10 ∧ mode.isEscape = true then 1 else 0) + escapedNewlines (mode.step c) rest

/-- Between two places all newlines are behind a backslash in a literal. -/
def Eats (mode mode' : Mode) (ptr rest : Str) : Prop :=
  ∃ eaten, ptr = eaten ++ rest ∧
    escapedNewlines mode ptr = eaten.count 10 + escapedNewlines mode' rest

namespace Eats

variable {a b c : Mode} {x y z : Str}

theorem trans (h : Eats a b x y) (h' : Eats b c y z) : Eats a c x z := by
  obtain ⟨eaten, rfl, hcount⟩ := h
  obtain ⟨eaten', rfl, hcount'⟩ := h'
  refine ⟨eaten ++ eaten', (List.append_assoc _ _ _).symm, ?_⟩
  rw [hcount, hcount', List.count_append, Nat.add_assoc]

/-- Nothing is eaten, but the rest is read differently. -/
theorem of_eq (h : escapedNewlines a x = escapedNewlines b x) : Eats a b x x :=
  ⟨[], rfl, by rw [h, List.count_nil, Nat.zero_add]⟩

theorem refl (a : Mode) (x : Str) : Eats a a x x := of_eq rfl

theorem nil (a b : Mode) : Eats a b [] [] := of_eq rfl

/-- One character that is no newline. -/
theorem char {c : UInt8} (h : c ≠ 10) : Eats a (a.step c) (c :: x) x := by
  refine ⟨[c], rfl, ?_⟩
  conv_lhs => unfold escapedNewlines
  rw [if_neg (fun hboth => h hboth.1), List.count_singleton, if_neg (by simpa using h)]

/-- A place where two modes go on alike. -/
theorem of_step {c : UInt8} (hstep : a.step c = b.step c) (ha : a.isEscape = false)
    (hb : b.isEscape = false) : Eats a b (c :: x) (c :: x) := by
  apply of_eq
  unfold escapedNewlines
  rw [hstep, ha, hb]

end Eats

/-! ### Literals -/

/-- The characters of an escape sequence that are not in the table of the lexer. -/
theorem isEscape_eq_false {c : UInt8} (h : c ≠ 110 ∧ c ≠ 116 ∧ c ≠ 114 ∧ c ≠ 48 ∧ c ≠ 92 ∧ c ≠ 39 ∧
    c ≠ 34) : isEscape c = false := by
  obtain ⟨h1, h2, h3, h4, h5, h6, h7⟩ := h
  simp [isEscape, h1, h2, h3, h4, h5, h6, h7]

/-- A digit is no newline. -/
theorem hex_ne_newline {c : UInt8} (h : isDigitOfBase 16 c = true) : c ≠ 10 := by
  rintro rfl
  cases h

/-- The digits behind `\\x`. -/
theorem eats_hex (back : Mode) (hback : back.isEscape = false) (ptr : Str) :
    if (ptr.take 2).takeWhile (isDigitOfBase 16) = [] then Eats (.hex back) .code ptr ptr
    else Eats (.hex back) back ptr
      (ptr.drop ((ptr.take 2).takeWhile (isDigitOfBase 16)).length) := by
  cases ptr with
  | nil => exact Eats.nil _ _
  | cons c ptr =>
    rw [List.take_succ_cons]
    by_cases hc : isDigitOfBase 16 c = true
    · rw [List.takeWhile_cons_of_pos hc, if_neg (List.cons_ne_nil _ _), List.length_cons,
        List.drop_succ_cons]
      have hfirst : Eats (.hex back) (.digit back) (c :: ptr) ptr := by
        have hchar := Eats.char (a := .hex back) (x := ptr) (hex_ne_newline hc)
        rwa [show Mode.step (.hex back) c = .digit back from if_pos hc] at hchar
      refine hfirst.trans ?_
      cases ptr with
      | nil => exact Eats.nil _ _
      | cons d ptr =>
        rw [List.take_succ_cons, List.take_zero]
        by_cases hd : isDigitOfBase 16 d = true
        · rw [List.takeWhile_cons_of_pos hd]
          have hchar := Eats.char (a := .digit back) (x := ptr) (hex_ne_newline hd)
          rwa [show Mode.step (.digit back) d = back from if_pos hd] at hchar
        · rw [List.takeWhile_cons_of_neg hd]
          exact Eats.of_step (if_neg hd) rfl hback
    · rw [List.takeWhile_cons_of_neg hc, if_pos rfl]
      exact Eats.of_step (if_neg hc) rfl rfl

/-- An escape sequence. -/
theorem eats_decodeEscape (back : Mode) (hback : back.isEscape = false) (ptr : Str) :
    match decodeEscape ptr with
    | (.ok _, rest) => Eats (.escape back) back ptr rest
    | (.error _, rest) => Eats (.escape back) .code ptr rest := by
  cases ptr with
  | nil => exact Eats.nil _ _
  | cons c ptr =>
    have hplain : isEscape c = true → Eats (.escape back) back (c :: ptr) ptr := by
      intro hc
      have hne : c ≠ 10 := by
        rintro rfl
        cases hc
      have hchar := Eats.char (a := .escape back) (x := ptr) hne
      rwa [show Mode.step (.escape back) c = back from if_pos hc] at hchar
    have hletter : c = 120 → Eats (.escape back) (.hex back) (c :: ptr) ptr := by
      rintro rfl
      exact Eats.char (by decide)
    unfold decodeEscape
    dsimp only
    split_ifs with h1 h2 h3 h4 h5 h6 h7 hx hdigits
    · exact hplain (by rw [h1]; rfl)
    · exact hplain (by rw [h2]; rfl)
    · exact hplain (by rw [h3]; rfl)
    · exact hplain (by rw [h4]; rfl)
    · exact hplain (by rw [h5]; rfl)
    · exact hplain (by rw [h6]; rfl)
    · exact hplain (by rw [h7]; rfl)
    · -- the digits are missing
      have hdigit := eats_hex back hback ptr
      rw [if_pos hdigits] at hdigit
      exact (hletter hx).trans hdigit
    · have hdigit := eats_hex back hback ptr
      rw [if_neg hdigits] at hdigit
      exact (hletter hx).trans hdigit
    · -- any character may be the one that is no escape sequence, and a newline is one
      have hno := isEscape_eq_false ⟨h1, h2, h3, h4, h5, h6, h7⟩
      refine ⟨[c], rfl, ?_⟩
      conv_lhs => unfold escapedNewlines
      rw [show Mode.step (.escape back) c = .code from
        (if_neg (by rw [hno]; decide)).trans (if_neg hx), List.count_singleton]
      by_cases hnewline : c = 10
      · rw [if_pos ⟨hnewline, rfl⟩, if_pos (by simpa using hnewline)]
      · rw [if_neg (fun hboth => hnewline hboth.1), if_neg (by simpa using hnewline)]

/-- What a token other than a newline does: it is from its start up to the cursor, on the line of
the lexer, and the newlines in it are behind backslashes. -/
structure Scanned (mode : Mode) (l : Lexer) (start : Str) (result : Token × Lexer) : Prop where
  newline : result.1.type ≠ .newline
  eof : result.1.type ≠ .eof
  next : result.2 = { l with ptr := result.2.ptr }
  text : result.1.text = start.take (distance start result.2.ptr)
  line : result.1.location.line = l.line
  column : result.1.location.column = UInt32.ofNat (distance l.lineStart start) + 1
  eats : Eats mode .code l.ptr result.2.ptr

namespace Scanned

variable {mode : Mode} {l : Lexer} {start ptr : Str}

theorem of_makeError {message : String} (h : Eats mode .code l.ptr ptr) :
    Scanned mode l start ({ l with ptr }.makeError start message, { l with ptr }) :=
  ⟨by simp, by simp, rfl, rfl, rfl, rfl, h⟩

/-- A part of a token before the rest of it. -/
theorem of_eats {mode' : Mode} (h : Eats mode mode' l.ptr ptr) {result : Token × Lexer}
    (hscanned : Scanned mode' { l with ptr } start result) : Scanned mode l start result :=
  { hscanned with eats := h.trans hscanned.eats }

end Scanned

theorem scanned_lexStringFrom {start : Str} {fuel : ℕ} {l : Lexer} {decoded : Str}
    (h : l.ptr.length ≤ fuel) : Scanned .string l start (lexStringFrom start fuel l decoded) := by
  induction fuel generalizing l decoded with
  | zero =>
    have hptr : l.ptr = [] := List.eq_nil_of_length_eq_zero (Nat.le_zero.mp h)
    have heats : Eats .string .code l.ptr l.ptr := by
      rw [hptr]
      exact Eats.nil _ _
    exact Scanned.of_makeError heats
  | succ fuel ih =>
    unfold lexStringFrom
    cases hptr : l.ptr with
    | nil =>
      have heats : Eats .string .code l.ptr l.ptr := by
        rw [hptr]
        exact Eats.nil _ _
      exact Scanned.of_makeError heats
    | cons c rest =>
      rw [hptr, List.length_cons] at h
      dsimp only
      split_ifs with hnewline hquote hescape
      · -- the newline is left for the next token
        have heats : Eats .string .code l.ptr l.ptr := by
          rw [hptr, hnewline]
          exact Eats.of_step rfl rfl rfl
        exact Scanned.of_makeError heats
      · have heats : Eats .string .code l.ptr rest := by
          rw [hptr, hquote]
          exact Eats.char (by decide)
        exact ⟨by simp, by simp, rfl, rfl, rfl, rfl, heats⟩
      · have hback : Eats .string (.escape .string) l.ptr rest := by
          rw [hptr, hescape]
          exact Eats.char (by decide)
        have hdecode := eats_decodeEscape .string rfl rest
        have hlength := (decodeEscape_suffix rest).length_le
        cases hresult : decodeEscape rest with
        | mk result ptr =>
          rw [hresult] at hdecode hlength
          cases result with
          | error message => exact Scanned.of_makeError (hback.trans hdecode)
          | ok value =>
            exact Scanned.of_eats (hback.trans hdecode) (@ih { l with ptr } _ (by
              dsimp only at hlength ⊢
              omega))
      · have heats : Eats .string .string l.ptr rest := by
          rw [hptr]
          have hchar := Eats.char (a := .string) (x := rest) hnewline
          rwa [show Mode.step .string c = .string from
            (if_neg (not_or.mpr ⟨hnewline, hquote⟩)).trans (if_neg hescape)] at hchar
        exact Scanned.of_eats heats (@ih { l with ptr := rest } _ (by
          dsimp only
          omega))

theorem scanned_closeCharacter {start : Str} (l : Lexer) (value : Int64) :
    Scanned .closing l start (l.closeCharacter start value) := by
  unfold closeCharacter
  split
  · next rest hptr =>
    have heats : Eats .closing .code l.ptr rest := by
      rw [hptr]
      exact Eats.char (by decide)
    exact ⟨by simp, by simp, rfl, rfl, rfl, rfl, heats⟩
  · next hother =>
    have heats : Eats .closing .code l.ptr l.ptr := by
      cases hptr : l.ptr with
      | nil => exact Eats.nil _ _
      | cons c rest =>
        refine Eats.of_step (if_neg ?_) rfl rfl
        rintro rfl
        exact hother rest hptr
    exact Scanned.of_makeError heats

theorem scanned_lexCharacter {start : Str} (l : Lexer) :
    Scanned .character l start (l.lexCharacter start) := by
  unfold lexCharacter
  cases hptr : l.ptr with
  | nil =>
    have heats : Eats .character .code l.ptr l.ptr := by
      rw [hptr]
      exact Eats.nil _ _
    exact Scanned.of_makeError heats
  | cons c rest =>
    dsimp only
    split_ifs with hnewline hescape hquote
    · have heats : Eats .character .code l.ptr l.ptr := by
        rw [hptr, hnewline]
        exact Eats.of_step rfl rfl rfl
      exact Scanned.of_makeError heats
    · have hback : Eats .character (.escape .closing) l.ptr rest := by
        rw [hptr, hescape]
        exact Eats.char (by decide)
      have hdecode := eats_decodeEscape .closing rfl rest
      cases hresult : decodeEscape rest with
      | mk result ptr =>
        rw [hresult] at hdecode
        cases result with
        | error message => exact Scanned.of_makeError (hback.trans hdecode)
        | ok value => exact Scanned.of_eats (hback.trans hdecode) (scanned_closeCharacter _ value)
    · have heats : Eats .character .code l.ptr rest := by
        rw [hptr, hquote]
        exact Eats.char (by decide)
      exact Scanned.of_makeError heats
    · have heats : Eats .character .closing l.ptr rest := by
        rw [hptr]
        have hchar := Eats.char (a := .character) (x := rest) hnewline
        rwa [show Mode.step .character c = .closing from
          (if_neg (not_or.mpr ⟨hnewline, hquote⟩)).trans (if_neg hescape)] at hchar
      exact Scanned.of_eats heats (scanned_closeCharacter _ _)

/-! ### Words and numbers -/

theorem continue_facts {c : UInt8} (h : isIdentifierContinue c = true) :
    c ≠ 10 ∧ c ≠ 59 ∧ c ≠ 34 ∧ c ≠ 39 := by
  revert h
  revert c
  apply forall_byte
  decide +kernel

/-- What starts no comment and no literal. -/
theorem opened_eq_code {c : UInt8} (hcomment : c ≠ 59) (hquote : c ≠ 34) (hchar : c ≠ 39) :
    Mode.opened c = .code := by
  unfold Mode.opened
  rw [if_neg hcomment, if_neg hquote, if_neg hchar]

theorem eats_word (ptr : Str) : Eats .code .code ptr (ptr.dropWhile isIdentifierContinue) := by
  induction ptr with
  | nil => exact Eats.nil _ _
  | cons c ptr ih =>
    by_cases hc : isIdentifierContinue c = true
    · obtain ⟨hnewline, hcomment, hquote, hchar⟩ := continue_facts hc
      rw [List.dropWhile_cons_of_pos hc]
      have hfirst := Eats.char (a := .code) (x := ptr) hnewline
      rw [show Mode.step .code c = .code from opened_eq_code hcomment hquote hchar] at hfirst
      exact hfirst.trans ih
    · rw [List.dropWhile_cons_of_neg hc]
      exact Eats.refl _ _

theorem scanned_lexIdentifierOrRegister {start : Str} (l : Lexer) :
    Scanned .code l start (l.lexIdentifierOrRegister start) := by
  unfold lexIdentifierOrRegister
  dsimp only
  split_ifs
  · exact ⟨by simp, by simp, rfl, rfl, rfl, rfl, eats_word l.ptr⟩
  · exact ⟨by simp, by simp, rfl, rfl, rfl, rfl, eats_word l.ptr⟩

theorem scanned_lexInteger {l : Lexer} {start text : Str} {negative : Bool}
    (hstart : start = signText negative ++ text) (hptr : l.ptr = start.drop 1)
    (hdigit : isDigit (peekChar text) = true) :
    Scanned .code l start (l.lexInteger start negative) := by
  cases text with
  | nil => cases hdigit
  | cons c text =>
    -- the run of a literal, and what stops it
    have hc : isIdentifierContinue c = true :=
      continue_of_digit (digit_facts hdigit).2.2.2.2.2.2.2.2
    have hsplit := List.takeWhile_append_dropWhile (p := isIdentifierContinue) (l := c :: text)
    have hrest : Stops ((c :: text).dropWhile isIdentifierContinue) := by
      intro d hd
      have hhead := List.head?_dropWhile_not isIdentifierContinue (c :: text)
      rw [hd] at hhead
      simpa using hhead
    have heats : Eats .code .code l.ptr ((c :: text).dropWhile isIdentifierContinue) := by
      rw [hptr, hstart]
      cases negative with
      | true => exact eats_word (c :: text)
      | false =>
        rw [List.dropWhile_cons_of_pos hc]
        exact eats_word text
    have hrun : ∀ d ∈ (c :: text).takeWhile isIdentifierContinue, isIdentifierContinue d = true :=
      fun d hd => List.mem_takeWhile_imp hd
    have hpeek : isDigit (peekChar ((c :: text).takeWhile isIdentifierContinue)) = true := by
      rw [List.takeWhile_cons_of_pos hc]
      exact hdigit
    obtain ⟨base, mark, tail, hmark, hmarks⟩ := exists_marks hpeek
    have hdigits := List.takeWhile_append_dropWhile (p := isDigitOfBase base) (l := tail)
    rw [← hdigits] at hmarks
    have hends : ∀ d ∈ (tail.dropWhile (isDigitOfBase base)).head?,
        isDigitOfBase base d = false := by
      intro d hd
      have hhead := List.head?_dropWhile_not (isDigitOfBase base) tail
      rw [hd] at hhead
      simpa using hhead
    have htail : ∀ d ∈ tail.dropWhile (isDigitOfBase base), isIdentifierContinue d = true := by
      intro d hd
      apply hrun
      rw [hmark]
      exact List.mem_append_right _ ((List.dropWhile_suffix _).subset hd)
    rw [lexInteger_run hmarks (fun d hd => List.mem_takeWhile_imp hd) htail hends hrest
      (by rw [hdigits, ← List.append_assoc mark, ← hmark, hsplit, hstart]) hptr]
    split_ifs
    · exact Scanned.of_makeError heats
    · exact Scanned.of_makeError heats
    · rw [finishInteger_eq]
      split_ifs
      · exact ⟨by simp, by simp, rfl, rfl, rfl, rfl, heats⟩
      · exact Scanned.of_makeError heats

/-- Characters that are tokens of their own. -/
theorem punctuation_facts {c : UInt8} {type : TokenType} (h : punctuation c = some type) :
    type ≠ .newline ∧ type ≠ .eof ∧ Mode.opened c = .code := by
  have hall : ∀ c, punctuation c ≠ none → punctuation c ≠ some .newline ∧
      punctuation c ≠ some .eof ∧ c ≠ 59 ∧ c ≠ 34 ∧ c ≠ 39 := by
    apply forall_byte
    decide +kernel
  obtain ⟨hnewline, heof, hcomment, hquote, hchar⟩ := hall c (by rw [h]; simp)
  rw [h] at hnewline heof
  refine ⟨?_, ?_, opened_eq_code hcomment hquote hchar⟩
  · rintro rfl
    exact hnewline rfl
  · rintro rfl
    exact heof rfl

/-- **A token that is no newline.** -/
theorem scanned_lexToken {l : Lexer} {c : UInt8} (hc : c ≠ 10) (hcomment : c ≠ 59) :
    Scanned (Mode.opened c) l (c :: l.ptr) (l.lexToken (c :: l.ptr) c) := by
  have hstay : Mode.opened c = .code → Eats (Mode.opened c) .code l.ptr l.ptr := by
    intro hcode
    rw [hcode]
    exact Eats.refl _ _
  unfold lexToken
  cases hpunctuation : punctuation c with
  | some type =>
    obtain ⟨hnewline, heof, hcode⟩ := punctuation_facts hpunctuation
    exact ⟨hnewline, heof, rfl, rfl, rfl, rfl, hstay hcode⟩
  | none =>
    dsimp only
    rw [if_neg hc]
    split_ifs with hminus hdigit hquote hchar hstart hdigit
    · subst hminus
      have hsign : 45 :: l.ptr = signText true ++ l.ptr := by
        rw [show signText true = [45] by decide]
        rfl
      exact scanned_lexInteger hsign rfl hdigit
    · subst hminus
      exact ⟨by simp, by simp, rfl, rfl, rfl, rfl, hstay rfl⟩
    · subst hquote
      exact scanned_lexStringFrom le_rfl
    · subst hchar
      exact scanned_lexCharacter l
    · rw [opened_eq_code hcomment hquote hchar]
      exact scanned_lexIdentifierOrRegister l
    · rw [opened_eq_code hcomment hquote hchar]
      exact scanned_lexInteger (show _ = signText false ++ (c :: l.ptr) from rfl) rfl hdigit
    · exact ⟨by simp, by simp, rfl, rfl, rfl, rfl, hstay (opened_eq_code hcomment hquote hchar)⟩

/-- A comment runs up to the end of its line. -/
theorem escapedNewlines_comment (ptr : Str) :
    escapedNewlines .comment ptr = escapedNewlines .code (ptr.dropWhile (· ≠ 10)) := by
  induction ptr with
  | nil => rfl
  | cons c ptr ih =>
    by_cases hc : c = 10
    · rw [List.dropWhile_cons_of_neg (by simpa using hc), hc]
      rfl
    · rw [List.dropWhile_cons_of_pos (by simpa using hc), ← ih]
      conv_lhs => unfold escapedNewlines
      rw [if_neg (fun hboth => hc hboth.1), Nat.zero_add,
        show Mode.step .comment c = .comment from if_neg hc]

/-- What is skipped is on one line. -/
theorem eats_skip (ptr : Str) :
    ∃ skipped, ptr = skipped ++ skipHorizontalWhitespaceAndComments ptr ∧
    10 ∉ skipped ∧ escapedNewlines .code ptr =
      escapedNewlines .code (skipHorizontalWhitespaceAndComments ptr) ∧
    ∀ c ∈ (skipHorizontalWhitespaceAndComments ptr).head?, c ≠ 59 := by
  induction ptr with
  | nil => exact ⟨[], rfl, List.not_mem_nil, rfl, by simp [skipHorizontalWhitespaceAndComments]⟩
  | cons c ptr ih =>
    unfold skipHorizontalWhitespaceAndComments
    split_ifs with hblank hcomment
    · obtain ⟨skipped, hsplit, hnone, hcount, hhead⟩ := ih
      have hfacts : ∀ c, isBlank c = true → c ≠ 10 ∧ c ≠ 59 ∧ c ≠ 34 ∧ c ≠ 39 := by
        apply forall_byte
        decide +kernel
      obtain ⟨hnewline, hother, hquote, hchar⟩ := hfacts c hblank
      refine ⟨c :: skipped, by rw [List.cons_append, ← hsplit], ?_, ?_, hhead⟩
      · rw [List.mem_cons, not_or]
        exact ⟨hnewline.symm, hnone⟩
      · rw [← hcount]
        conv_lhs => unfold escapedNewlines
        rw [if_neg (fun hboth => hnewline hboth.1), Nat.zero_add,
          show Mode.step .code c = .code from opened_eq_code hother hquote hchar]
    · subst hcomment
      have hsplit := List.takeWhile_append_dropWhile (p := (· ≠ (10 : UInt8))) (l := ptr)
      refine ⟨59 :: ptr.takeWhile (· ≠ 10), by rw [List.cons_append, hsplit], ?_, ?_, ?_⟩
      · rw [List.mem_cons, not_or]
        refine ⟨by decide, fun hmem => ?_⟩
        simpa using List.mem_takeWhile_imp hmem
      · rw [← escapedNewlines_comment]
        conv_lhs => unfold escapedNewlines
        exact Nat.zero_add _
      · intro c hc
        have hhead := List.head?_dropWhile_not (· ≠ (10 : UInt8)) ptr
        rw [hc] at hhead
        rintro rfl
        simp at hhead
    · refine ⟨[], rfl, List.not_mem_nil, rfl, ?_⟩
      intro d hd
      cases hd
      exact hcomment

/-! ### One token -/

/-- What the lexer does for a token: the end of the file, a newline, or anything else, behind what
it skips. -/
inductive Next (l : Lexer) : Str → Token × Lexer → Prop
  | eof (h : skipHorizontalWhitespaceAndComments l.ptr = []) :
      Next l [] ({ l with ptr := [] }.makeToken .eof [], { l with ptr := [] })
  | newline {rest : Str} (h : skipHorizontalWhitespaceAndComments l.ptr = 10 :: rest) :
      Next l (10 :: rest) ({ l with ptr := rest }.makeToken .newline (10 :: rest),
        { l with ptr := rest, line := l.line + 1, lineStart := rest })
  | other {c : UInt8} {rest : Str} {result : Token × Lexer}
      (h : skipHorizontalWhitespaceAndComments l.ptr = c :: rest) (hc : c ≠ 10)
      (hscanned : Scanned (Mode.opened c) { l with ptr := rest } (c :: rest) result) :
      Next l (c :: rest) result

theorem next_lexNext (l : Lexer) :
    Next l (skipHorizontalWhitespaceAndComments l.ptr) l.lexNext := by
  obtain ⟨-, -, -, -, hhead⟩ := eats_skip l.ptr
  unfold lexNext
  cases hskip : skipHorizontalWhitespaceAndComments l.ptr with
  | nil => exact .eof hskip
  | cons c rest =>
    by_cases hc : c = 10
    · subst hc
      exact .newline hskip
    · rw [hskip] at hhead
      exact .other hskip hc (scanned_lexToken hc (hhead c rfl))

/-! ### Counting newlines -/

/-- A newline is either a token or behind a backslash. -/
theorem countP_newline {fuel : ℕ} {l : Lexer} (h : l.ptr.length < fuel) :
    (lexedFrom fuel l).countP (fun p => p.2.type = .newline) + escapedNewlines .code l.ptr =
      l.ptr.count 10 := by
  induction fuel generalizing l with
  | zero => omega
  | succ fuel ih =>
    obtain ⟨skipped, hsplit, hnone, hescaped, -⟩ := eats_skip l.ptr
    have hprogress := lexNext_progress l
    have hcount : l.ptr.count 10 = (skipHorizontalWhitespaceAndComments l.ptr).count 10 := by
      conv_lhs => rw [hsplit]
      rw [List.count_append, List.count_eq_zero_of_not_mem hnone, Nat.zero_add]
    have hnext := next_lexNext l
    unfold lexedFrom
    dsimp only
    rw [hescaped, hcount]
    generalize l.lexNext = result at hnext hprogress
    generalize skipHorizontalWhitespaceAndComments l.ptr = start at hnext ⊢
    cases hnext with
    | eof _ => rfl
    | @newline rest _ =>
      have hrest := @ih { l with ptr := rest, line := l.line + 1, lineStart := rest } (by
        have := hprogress (by simp)
        dsimp only at this ⊢
        omega)
      rw [if_neg (by simp), List.countP_cons_of_pos (by simp), List.count_cons_self, ← hrest]
      have hplain : escapedNewlines .code (10 :: rest) = escapedNewlines .code rest :=
        Nat.zero_add _
      rw [hplain]
      dsimp only
      omega
    | @other c rest _ _ hc hscanned =>
      have hrest := @ih result.2 (by
        have := hprogress hscanned.eof
        omega)
      obtain ⟨eaten, hptr, heats⟩ := hscanned.eats
      dsimp only at hptr heats
      have hplain : escapedNewlines .code (c :: rest) = escapedNewlines (Mode.opened c) rest := by
        conv_lhs => unfold escapedNewlines
        rw [if_neg (fun hboth => hc hboth.1), Nat.zero_add]
        rfl
      rw [if_neg hscanned.eof, List.countP_cons_of_neg (by simpa using hscanned.newline),
        List.count_cons_of_ne hc, hplain, heats]
      conv_rhs => rw [hptr]
      rw [List.count_append, ← hrest]
      omega

/-! ### Locations -/

/-- The file has neither too many lines nor too long ones for locations of 32 bits. -/
structure Small (source : Str) : Prop where
  lines : source.count 10 + 1 < 2 ^ 32
  columns : ∀ before line after, source = before ++ (line ++ after) → 10 ∉ line →
    line.length + 1 < 2 ^ 32

/-- The lexer knows the line it is on. -/
def OnLine (source : Str) (l : Lexer) : Prop :=
  ∃ earlier current, source = earlier ++ (current ++ l.ptr) ∧ l.lineStart = current ++ l.ptr ∧
    10 ∉ current ∧ (earlier = [] ∨ ∃ e, earlier = e ++ [10]) ∧
    l.line = UInt32.ofNat (1 + earlier.count 10)

theorem onLine_startLexer (source : Str) (file : FileId) : OnLine source (startLexer source file) :=
  ⟨[], [], rfl, rfl, List.not_mem_nil, Or.inl rfl, rfl⟩

/-- The characters behind the last newline. -/
theorem takeWhile_reverse {earlier current : Str}
    (hearlier : earlier = [] ∨ ∃ e, earlier = e ++ [10]) (hcurrent : 10 ∉ current) :
    ((earlier ++ current).reverse.takeWhile (· ≠ 10)).length = current.length := by
  have hall : ∀ c ∈ current.reverse, decide (c ≠ 10) = true := by
    intro c hc
    rw [decide_eq_true_iff]
    rintro rfl
    exact hcurrent (List.mem_reverse.mp hc)
  rw [List.reverse_append, List.takeWhile_append_of_pos hall]
  rcases hearlier with rfl | ⟨e, rfl⟩
  · rw [List.reverse_nil, List.takeWhile_nil, List.append_nil, List.length_reverse]
  · rw [List.reverse_append, List.reverse_singleton, List.singleton_append,
      List.takeWhile_cons_of_neg (by simp), List.append_nil, List.length_reverse]

section

variable {source : Str} {l : Lexer} {start : Str} {result : Token × Lexer}

/-- What a token says about its place. -/
theorem Next.token (h : Next l start result) :
    result.1.text <+: start ∧ result.1.location.line = l.line ∧
      result.1.location.column = UInt32.ofNat (distance l.lineStart start) + 1 := by
  cases h with
  | eof _ => exact ⟨List.prefix_rfl, rfl, rfl⟩
  | newline _ => exact ⟨List.take_prefix _ _, rfl, rfl⟩
  | other _ _ hscanned =>
    refine ⟨?_, hscanned.line, hscanned.column⟩
    rw [hscanned.text]
    exact List.take_prefix _ _

/-- The end of the file is where nothing is left. -/
theorem Next.start_eof (h : Next l start result) (heof : result.1.type = .eof) : start = [] := by
  cases h with
  | eof _ => rfl
  | newline _ => cases heof
  | other _ _ hscanned => exact absurd heof hscanned.eof

/-- A token is where it says. -/
theorem OnLine.located (hsmall : Small source) (h : OnLine source l)
    (hnext : Next l (skipHorizontalWhitespaceAndComments l.ptr) result) :
    Located source (skipHorizontalWhitespaceAndComments l.ptr) result.1 := by
  obtain ⟨earlier, current, hsource, hstart, hcurrent, hearlier, hline⟩ := h
  obtain ⟨skipped, hsplit, hskipped, -, -⟩ := eats_skip l.ptr
  obtain ⟨htext, htokenLine, htokenColumn⟩ := hnext.token
  generalize skipHorizontalWhitespaceAndComments l.ptr = start at hsplit htext htokenColumn ⊢
  have hnone : 10 ∉ current ++ skipped := by
    rw [List.mem_append, not_or]
    exact ⟨hcurrent, hskipped⟩
  have hwhole : source = earlier ++ (current ++ skipped ++ start) := by
    rw [hsource, hsplit, List.append_assoc]
  have hcount : earlier.count 10 ≤ source.count 10 := by
    rw [hwhole, List.count_append]
    exact Nat.le_add_right _ _
  have hlines := hsmall.lines
  have hcolumns := hsmall.columns _ _ _ hwhole hnone
  refine ⟨earlier ++ (current ++ skipped), by rw [hwhole, List.append_assoc earlier], htext, ?_, ?_⟩
  · rw [htokenLine, hline, List.count_append, List.count_eq_zero_of_not_mem hnone, Nat.add_zero]
    exact UInt32.toNat_ofNat_of_lt' (by simp only [UInt32.size]; omega)
  · have hdistance : distance l.lineStart start = (current ++ skipped).length := by
      unfold distance
      rw [hstart, hsplit, ← List.append_assoc, List.length_append]
      omega
    have hofNat : (UInt32.ofNat (current ++ skipped).length).toNat = (current ++ skipped).length :=
      UInt32.toNat_ofNat_of_lt' (by simp only [UInt32.size]; omega)
    rw [htokenColumn, hdistance, takeWhile_reverse hearlier hnone, UInt32.toNat_add, hofNat,
      UInt32.toNat_one, Nat.mod_eq_of_lt (by omega)]
    omega

theorem newlines_cons (rest : Str) : newlines (10 :: rest) = (10 :: rest) :: newlines rest := by
  unfold newlines
  rw [List.tails_cons, List.filter_cons_of_pos (by simp)]

/-- Only newlines count. -/
theorem newlines_append {seen rest : Str} (h : 10 ∉ seen) :
    newlines (seen ++ rest) = newlines rest := by
  induction seen with
  | nil => rfl
  | cons c seen ih =>
    rw [List.mem_cons, not_or] at h
    rw [← ih h.2]
    unfold newlines
    rw [List.cons_append, List.tails_cons, List.filter_cons_of_neg]
    simpa using fun hc : c = 10 => h.1 hc.symm

/-- **One token**: without an escaped newline the lexer still knows its line behind it, and it is a
newline if it is one in the file. -/
theorem OnLine.next (h : OnLine source l) (hclean : escapedNewlines .code l.ptr = 0)
    (hnext : Next l (skipHorizontalWhitespaceAndComments l.ptr) result)
    (heof : result.1.type ≠ .eof) :
    OnLine source result.2 ∧ escapedNewlines .code result.2.ptr = 0 ∧
      newlines l.ptr = (if result.1.type = .newline then
        [skipHorizontalWhitespaceAndComments l.ptr] else []) ++ newlines result.2.ptr := by
  obtain ⟨earlier, current, hsource, hstart, hcurrent, hearlier, hline⟩ := h
  obtain ⟨skipped, hsplit, hskipped, hescaped, -⟩ := eats_skip l.ptr
  rw [hescaped] at hclean
  have hnewlines : newlines l.ptr = newlines (skipHorizontalWhitespaceAndComments l.ptr) := by
    conv_lhs => rw [hsplit]
    exact newlines_append hskipped
  rw [hnewlines]
  have hnone : 10 ∉ current ++ skipped := by
    rw [List.mem_append, not_or]
    exact ⟨hcurrent, hskipped⟩
  generalize skipHorizontalWhitespaceAndComments l.ptr = start at hnext hsplit hclean ⊢
  cases hnext with
  | eof _ => exact absurd rfl heof
  | @newline rest _ =>
    refine ⟨⟨earlier ++ (current ++ skipped ++ [10]), [], ?_, rfl, List.not_mem_nil, Or.inr ?_, ?_⟩,
      ?_, ?_⟩
    · rw [hsource, hsplit]
      simp
    · exact ⟨earlier ++ (current ++ skipped), (List.append_assoc _ _ _).symm⟩
    · have hcount : (earlier ++ (current ++ skipped ++ [10])).count 10 = earlier.count 10 + 1 := by
        rw [List.count_append, List.count_append, List.count_eq_zero_of_not_mem hnone]
        rfl
      rw [hcount, ← Nat.add_assoc, UInt32.ofNat_add, ← hline]
      rfl
    · exact (Nat.zero_add _).symm.trans hclean
    · rw [if_pos (type_makeToken _ _ _), newlines_cons]
      rfl
  | @other c rest _ _ hc hscanned =>
    obtain ⟨eaten, hptr, heats⟩ := hscanned.eats
    dsimp only at hptr heats
    have hplain : escapedNewlines .code (c :: rest) = escapedNewlines (Mode.opened c) rest := by
      conv_lhs => unfold escapedNewlines
      rw [if_neg (fun hboth => hc hboth.1), Nat.zero_add]
      rfl
    rw [hplain, heats] at hclean
    -- nothing is eaten that is a newline
    have heaten : 10 ∉ c :: eaten := by
      rw [List.mem_cons, not_or]
      exact ⟨hc.symm, List.count_eq_zero.mp (by omega)⟩
    refine ⟨⟨earlier, current ++ skipped ++ (c :: eaten), ?_, ?_, ?_, hearlier, ?_⟩, by omega, ?_⟩
    · rw [hsource, hsplit, hptr]
      simp
    · rw [hscanned.next, hstart, hsplit, hptr]
      simp
    · rw [List.mem_append, not_or]
      exact ⟨hnone, heaten⟩
    · rw [hscanned.next]
      exact hline
    · rw [if_neg hscanned.newline, hptr, ← List.cons_append, newlines_append heaten]
      rfl

/-- **All tokens** of a file without escaped newlines. -/
theorem OnLine.lexedFrom {fuel : ℕ} (hfuel : l.ptr.length < fuel) (hsmall : Small source)
    (h : OnLine source l) (hclean : escapedNewlines .code l.ptr = 0) :
    (∀ p ∈ Lexer.lexedFrom fuel l, Located source p.1 p.2) ∧
      ((Lexer.lexedFrom fuel l).filter fun p => p.2.type = .newline).map Prod.fst =
        newlines l.ptr := by
  induction fuel generalizing l with
  | zero => omega
  | succ fuel ih =>
    have hlocated := h.located hsmall (next_lexNext l)
    have hprogress := lexNext_progress l
    unfold Lexer.lexedFrom
    dsimp only
    by_cases heof : l.lexNext.1.type = .eof
    · have hnone : newlines l.ptr = [] := by
        obtain ⟨skipped, hsplit, hskipped, -, -⟩ := eats_skip l.ptr
        rw [hsplit, (next_lexNext l).start_eof heof]
        exact newlines_append hskipped
      rw [if_pos heof, List.filter_cons_of_neg (by rw [heof]; simp), hnone]
      exact ⟨List.forall_mem_cons.mpr ⟨hlocated, by simp⟩, rfl⟩
    · obtain ⟨honLine, hrest, hnewlines⟩ := h.next hclean (next_lexNext l) heof
      obtain ⟨hall, hfilter⟩ := ih (by have := hprogress heof; omega) honLine hrest
      rw [if_neg heof]
      refine ⟨List.forall_mem_cons.mpr ⟨hlocated, hall⟩, ?_⟩
      rw [hnewlines, List.filter_cons, ← hfilter]
      by_cases hnewline : l.lexNext.1.type = .newline
      · rw [if_pos (by simpa using hnewline), if_pos hnewline]
        rfl
      · rw [if_neg (by simpa using hnewline), if_neg hnewline]
        rfl

/-- The end of the file is among the tokens. -/
theorem exists_eof {fuel : ℕ} (h : l.ptr.length < fuel) :
    ∃ token, ([], token) ∈ Lexer.lexedFrom fuel l := by
  induction fuel generalizing l with
  | zero => omega
  | succ fuel ih =>
    have hprogress := lexNext_progress l
    unfold Lexer.lexedFrom
    dsimp only
    by_cases heof : l.lexNext.1.type = .eof
    · refine ⟨l.lexNext.1, ?_⟩
      rw [(next_lexNext l).start_eof heof]
      exact List.mem_cons_self
    · obtain ⟨token, htoken⟩ := @ih l.lexNext.2 (by have := hprogress heof; omega)
      rw [if_neg heof]
      exact ⟨token, List.mem_cons_of_mem _ htoken⟩

end

/-- These are the tokens of the lexer. -/
theorem map_snd_lexedFrom (fuel : ℕ) (l : Lexer) :
    (lexedFrom fuel l).map Prod.snd = lexFrom fuel l := by
  induction fuel generalizing l with
  | zero => rfl
  | succ fuel ih =>
    unfold lexedFrom lexFrom
    dsimp only
    rw [List.map_cons]
    split_ifs
    · rfl
    · rw [ih]

theorem length_newlines (source : Str) : (newlines source).length = source.count 10 := by
  induction source with
  | nil => rfl
  | cons c source ih =>
    by_cases hc : c = 10
    · rw [hc, newlines_cons, List.length_cons, ih, List.count_cons_self]
    · have hskip : newlines ([c] ++ source) = newlines source :=
        newlines_append (by simpa using Ne.symm hc)
      rw [List.singleton_append] at hskip
      rw [hskip, ih, List.count_cons_of_ne hc]

/-- The rest of a line. -/
theorem exists_line (text : Str) :
    ∃ tail rest, text = tail ++ rest ∧ 10 ∉ tail ∧ (rest = [] ∨ ∃ more, rest = 10 :: more) := by
  induction text with
  | nil => exact ⟨[], [], rfl, List.not_mem_nil, Or.inl rfl⟩
  | cons c text ih =>
    by_cases hc : c = 10
    · exact ⟨[], c :: text, rfl, List.not_mem_nil, Or.inr ⟨text, by rw [hc]⟩⟩
    · obtain ⟨tail, rest, rfl, hnone, hrest⟩ := ih
      refine ⟨c :: tail, rest, rfl, ?_, hrest⟩
      rw [List.mem_cons, not_or]
      exact ⟨Ne.symm hc, hnone⟩

/-- **The lexer keeps the lines of a file** if and only if no newline stands behind a backslash in a
literal, and lines and columns fit in 32 bits. -/
theorem keepsLines_iff (source : Str) (file : FileId) :
    KeepsLines source file ↔ escapedNewlines .code source = 0 ∧ Small source := by
  have hfuel : (startLexer source file).ptr.length < source.length + 1 := Nat.lt_succ_self _
  constructor
  · rintro ⟨hlocated, hnewlines⟩
    have hcounted := countP_newline hfuel
    have hlength := congrArg List.length hnewlines
    rw [List.length_map, ← List.countP_eq_length_filter, length_newlines] at hlength
    refine ⟨?_, ?_, ?_⟩
    · unfold lexedAll at hlength
      have hptr : (startLexer source file).ptr = source := rfl
      rw [hptr] at hcounted
      omega
    · obtain ⟨token, htoken⟩ := exists_eof hfuel
      obtain ⟨seen, hseen, -, hline, -⟩ := hlocated _ htoken
      rw [List.append_nil] at hseen
      have hlt := token.location.line.toNat_lt
      dsimp only at hline
      rw [hseen]
      omega
    · intro before line after hsource hnone
      -- there is a token where the line ends
      obtain ⟨tail, rest, rfl, htail, hrest⟩ := exists_line after
      obtain ⟨token, htoken⟩ : ∃ token, (rest, token) ∈ lexedAll source file := by
        rcases hrest with rfl | ⟨more, rfl⟩
        · exact exists_eof hfuel
        · have hmem : 10 :: more ∈ newlines source := by
            refine List.mem_filter.mpr ⟨(List.mem_tails _ _).mpr ?_, by simp⟩
            exact ⟨before ++ (line ++ tail), by rw [hsource]; simp⟩
          rw [← hnewlines] at hmem
          obtain ⟨p, hp, hstart⟩ := List.mem_map.mp hmem
          refine ⟨p.2, ?_⟩
          rw [← hstart]
          exact List.mem_of_mem_filter hp
      obtain ⟨seen, hseen, -, -, hcolumn⟩ := hlocated _ htoken
      have heq : seen = before ++ (line ++ tail) := by
        have hsame : seen ++ rest = before ++ (line ++ tail) ++ rest := by
          rw [← hseen, hsource]
          simp
        exact List.append_cancel_right hsame
      have hall : ∀ c ∈ (line ++ tail).reverse, decide (c ≠ 10) = true := by
        intro c hc
        rw [decide_eq_true_iff]
        rintro rfl
        rcases List.mem_append.mp (List.mem_reverse.mp hc) with hmem | hmem
        · exact hnone hmem
        · exact htail hmem
      have hlt := token.location.column.toNat_lt
      rw [heq, List.reverse_append, List.takeWhile_append_of_pos hall, List.length_append,
        List.length_reverse, List.length_append] at hcolumn
      dsimp only at hcolumn
      omega
  · rintro ⟨hclean, hsmall⟩
    exact (onLine_startLexer source file).lexedFrom hfuel hsmall hclean

/-- The newline after the backslash is no token, so `HALT` behind it is said to be on the first
line. -/
theorem shifted_lines :
    (lexedAll (str "DB \"\\\nHALT\n") 0).map
        (fun p => (p.2.type, p.2.location.line, p.2.location.column)) =
      [(.identifier, 1, 1), (.error, 1, 4), (.identifier, 1, 7), (.newline, 1, 11), (.eof, 2, 1)] ∧
    ¬KeepsLines (str "DB \"\\\nHALT\n") 0 :=
  ⟨by decide, fun h => absurd h.2 (by decide)⟩

end Lexer
end MiniTool
