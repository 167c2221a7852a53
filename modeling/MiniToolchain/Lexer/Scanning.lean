import MiniToolchain.Lexer.Lexer

/-!
# What the lexer reads off a text

One lemma for each kind of token, about the text it stands at the front of, and the tokens of a text
that is put together from such fronts.

## Main definitions

* `Reads`, `Scans` — one token, and all of them, but for where they are.

## Main results

* `reads_word`, `reads_punctuation` — identifiers, registers and single characters.
* `lexAll_of_scans` — the tokens of a file.
-/

namespace MiniTool
namespace Lexer

/-- What a token says, but for where it is. -/
structure Shape where
  type : TokenType
  text : Str := []
  value : Int64 := 0
  deriving DecidableEq

def shapeOf (token : Token) : Shape := ⟨token.type, token.text, token.intValue⟩

/-- At this place the lexer returns such a token, and this is left. -/
def Reads (ptr : Str) (shape : Shape) (rest : Str) : Prop :=
  ∀ l : Lexer, l.ptr = ptr → shapeOf l.lexNext.1 = shape ∧ l.lexNext.2.ptr = rest

/-- The tokens of a text, without the end of the file. -/
inductive Scans : Str → List Shape → Prop
  | done {ptr text : Str} (h : Reads ptr ⟨.eof, text, 0⟩ []) : Scans ptr []
  | token {ptr rest : Str} {shape : Shape} {shapes : List Shape} (h : Reads ptr shape rest)
      (heof : shape.type ≠ .eof) (hrest : Scans rest shapes) : Scans ptr (shape :: shapes)

theorem lexFrom_of_scans {ptr : Str} {shapes : List Shape} (h : Scans ptr shapes) :
    ∀ {fuel : ℕ} (l : Lexer), l.ptr = ptr → ptr.length < fuel →
      ∃ body eof, lexFrom fuel l = body ++ [eof] ∧ eof.type = .eof ∧ body.map shapeOf = shapes := by
  induction h with
  | @done ptr text h =>
    intro fuel l hptr hfuel
    obtain ⟨fuel, rfl⟩ := Nat.exists_eq_succ_of_ne_zero (Nat.ne_zero_of_lt hfuel)
    have heof : l.lexNext.1.type = .eof := congrArg Shape.type (h l hptr).1
    refine ⟨[], l.lexNext.1, ?_, heof, rfl⟩
    unfold lexFrom
    dsimp only
    rw [if_pos heof]
    rfl
  | @token ptr rest shape shapes h hne hrest ih =>
    intro fuel l hptr hfuel
    obtain ⟨fuel, rfl⟩ := Nat.exists_eq_succ_of_ne_zero (Nat.ne_zero_of_lt hfuel)
    obtain ⟨hshape, hleft⟩ := h l hptr
    have heof : l.lexNext.1.type ≠ .eof := by
      have : l.lexNext.1.type = shape.type := congrArg Shape.type hshape
      rw [this]
      exact hne
    have hprogress := lexNext_progress l heof
    rw [hleft, hptr] at hprogress
    obtain ⟨body, eof, htokens, hlast, hbody⟩ := @ih fuel l.lexNext.2 hleft (by omega)
    refine ⟨l.lexNext.1 :: body, eof, ?_, hlast, by rw [List.map_cons, hshape, hbody]⟩
    unfold lexFrom
    dsimp only
    rw [if_neg heof, htokens]
    rfl

/-- The tokens of a file. -/
theorem lexAll_of_scans {source : Str} {shapes : List Shape} (h : Scans source shapes)
    (file : FileId) : ∃ body eof, lexAll source file = body ++ [eof] ∧ eof.type = .eof ∧
      body.map shapeOf = shapes :=
  lexFrom_of_scans h (startLexer source file) rfl (Nat.lt_succ_self _)

/-! ### Single tokens -/

/-- The text between two positions. -/
theorem take_distance (word rest : Str) :
    (word ++ rest).take (distance (word ++ rest) rest) = word := by
  have hlength : distance (word ++ rest) rest = word.length := by
    unfold distance
    rw [List.length_append]
    omega
  rw [hlength, List.take_left]

theorem reads_end : Reads [] ⟨.eof, [], 0⟩ [] := by
  intro l hptr
  unfold lexNext
  rw [hptr]
  exact ⟨rfl, rfl⟩

/-- White space in front of a token is skipped. -/
theorem reads_blank {ptr rest : Str} {shape : Shape} (h : Reads ptr shape rest) {c : UInt8}
    (hc : isBlank c = true) : Reads (c :: ptr) shape rest := by
  intro l hptr
  have hskip : skipHorizontalWhitespaceAndComments (c :: ptr) =
      skipHorizontalWhitespaceAndComments ptr := by
    conv_lhs => unfold skipHorizontalWhitespaceAndComments
    rw [if_pos hc]
  have hsame : l.lexNext = { l with ptr }.lexNext := by
    unfold lexNext
    rw [hptr, hskip]
  rw [hsame]
  exact h _ rfl

/-- The characters that start a token are not skipped. -/
theorem reads_of_lexToken {c : UInt8} {more rest : Str} {shape : Shape}
    (hblank : isBlank c = false) (hcomment : c ≠ 59)
    (h : ∀ l : Lexer, l.ptr = more → shapeOf (l.lexToken (c :: more) c).1 = shape ∧
      (l.lexToken (c :: more) c).2.ptr = rest) : Reads (c :: more) shape rest := by
  intro l hptr
  have hskip : skipHorizontalWhitespaceAndComments (c :: more) = c :: more := by
    unfold skipHorizontalWhitespaceAndComments
    rw [if_neg (by rw [hblank]; decide), if_neg hcomment]
  have hnext : l.lexNext = { l with ptr := more }.lexToken (c :: more) c := by
    unfold lexNext
    rw [hptr, hskip]
  rw [hnext]
  exact h _ rfl

theorem reads_punctuation {c : UInt8} {type : TokenType} (h : punctuation c = some type)
    (hblank : isBlank c = false) (hcomment : c ≠ 59) (rest : Str) :
    Reads (c :: rest) ⟨type, [c], 0⟩ rest := by
  apply reads_of_lexToken hblank hcomment
  intro l hptr
  unfold lexToken
  rw [h]
  have htext := take_distance [c] rest
  refine ⟨?_, hptr⟩
  simp only [shapeOf, makeToken, hptr]
  rw [← List.singleton_append, htext]

theorem reads_minus {rest : Str} (h : isDigit (peekChar rest) = false) :
    Reads (45 :: rest) ⟨.minus, [45], 0⟩ rest := by
  apply reads_of_lexToken (by decide) (by decide)
  intro l hptr
  have htoken : l.lexToken (45 :: rest) 45 = (l.makeToken .minus (45 :: rest), l) := by
    unfold lexToken
    rw [show punctuation 45 = none by decide]
    dsimp only
    rw [if_neg (by decide), if_pos rfl, hptr, if_neg (by rw [h]; decide)]
  rw [htoken]
  have htext := take_distance [45] rest
  refine ⟨?_, hptr⟩
  simp only [shapeOf, makeToken, hptr]
  rw [← List.singleton_append, htext]

/-- What holds of the 256 bytes. -/
theorem forall_byte {p : UInt8 → Prop} (h : ∀ n < 256, p (UInt8.ofNat n)) (c : UInt8) : p c := by
  have := h c.toNat c.toNat_lt
  rwa [UInt8.ofNat_toNat] at this

/-- An identifier goes on as long as it can. -/
theorem dropWhile_word {p : UInt8 → Bool} {word rest : Str} (hword : ∀ c ∈ word, p c = true)
    (hrest : ∀ c ∈ rest.head?, p c = false) : (word ++ rest).dropWhile p = rest := by
  induction word with
  | nil =>
    cases rest with
    | nil => rfl
    | cons c rest =>
      rw [List.nil_append, List.dropWhile_cons_of_neg]
      rw [hrest c rfl]
      decide
  | cons c word ih =>
    rw [List.cons_append, List.dropWhile_cons_of_pos (hword c List.mem_cons_self)]
    exact ih fun d hd => hword d (List.mem_cons_of_mem c hd)

/-- What follows a word or a number. -/
def Stops (rest : Str) : Prop := ∀ c ∈ rest.head?, isIdentifierContinue c = false

theorem stops_nil : Stops [] := by simp [Stops]

theorem stops_cons {c : UInt8} (h : isIdentifierContinue c = false) (rest : Str) :
    Stops (c :: rest) := by simpa [Stops] using h

theorem Stops.peekChar {rest : Str} (h : Stops rest) :
    isIdentifierContinue (peekChar rest) = false := by
  cases rest with
  | nil => rfl
  | cons c rest => exact h c rfl

/-- The type of a word. -/
def wordType (word : Str) : TokenType :=
  if (Isa.parseRegister word).isSome then .register else .identifier

theorem start_facts {c : UInt8} (h : isIdentifierStart c = true) :
    isBlank c = false ∧ c ≠ 59 ∧ punctuation c = none ∧ c ≠ 10 ∧ c ≠ 45 ∧ c ≠ 34 ∧ c ≠ 39 := by
  revert h
  revert c
  apply forall_byte
  decide +kernel

/-- A text that is one identifier or register. -/
def isWord : Str → Bool
  | [] => false
  | c :: more => isIdentifierStart c && more.all isIdentifierContinue

theorem reads_word {word rest : Str} (hword : isWord word = true) (hrest : Stops rest) :
    Reads (word ++ rest) ⟨wordType word, word, 0⟩ rest := by
  cases word with
  | nil => cases hword
  | cons c word =>
    obtain ⟨hstart, hmore⟩ := Bool.and_eq_true_iff.mp hword
    obtain ⟨hblank, hcomment, hpunctuation, hnewline, hminus, hquote, hchar⟩ := start_facts hstart
    apply reads_of_lexToken hblank hcomment
    intro l hptr
    have htoken : l.lexToken (c :: (word ++ rest)) c =
        l.lexIdentifierOrRegister (c :: (word ++ rest)) := by
      unfold lexToken
      rw [hpunctuation]
      dsimp only
      rw [if_neg hnewline, if_neg hminus, if_neg hquote, if_neg hchar, if_pos hstart]
    have hdrop : l.ptr.dropWhile isIdentifierContinue = rest := by
      rw [hptr]
      exact dropWhile_word (List.all_eq_true.mp hmore) hrest
    have htext := take_distance (c :: word) rest
    rw [List.cons_append] at htext
    rw [List.append_eq, htoken]
    unfold lexIdentifierOrRegister wordType
    simp only [makeToken, hdrop, htext]
    split_ifs
    · exact ⟨rfl, rfl⟩
    · exact ⟨rfl, rfl⟩

end Lexer
end MiniTool
