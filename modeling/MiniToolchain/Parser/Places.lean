import MiniToolchain.Parser.Derivation

/-!
# Where the parser says things are

Whatever the tokens of a file are, malformed ones included, the parser comes to an end, and
everything it reports and returns is at a token of the file.

## Main definitions

* `AtToken`, `PointsAt` — a location at a token, and a diagnostic about what the file says.
* `Closed`, `Within` — tokens that end with the end of the file, and a parser on such tokens.

## Main results

* `gives_parseOperand` and the like — each function stays within the tokens.
* `exists_parse` — parsing ends, with everything at a token.
-/

namespace MiniTool
namespace Parser

open Ast Diag Lexer

/-- The place of a token. -/
def AtToken (all : List Token) (location : SourceLocation) : Prop :=
  ∃ token ∈ all, location.file = token.location.file ∧ location.line = token.location.line ∧
    location.column = token.location.column

/-- A diagnostic about what the file says: it and its notes are at tokens. -/
structure PointsAt (all : List Token) (d : Diagnostic) : Prop where
  code : d.code ≠ .internalError
  location : AtToken all d.location
  notes : ∀ note ∈ d.notes, AtToken all note.location

/-- The tokens end with the end of the file. -/
def Closed (tokens : List Token) : Prop := ∃ front eof, tokens = front ++ [eof] ∧ eof.type = .eof

/-- At most `n` tokens are left, and what has been reported is at tokens. -/
structure Within (all : List Token) (n : ℕ) (p : Parser) : Prop where
  tokens : ∀ token ∈ p.tokens, token ∈ all
  closed : Closed p.tokens
  left : p.tokens.length ≤ n
  reports : ∀ d ∈ p.diagnostics.diagnostics, PointsAt all d

/-- What a function returns is located, and the parser is still within the tokens. -/
structure Gives {α : Type} (all : List Token) (n : ℕ) (located : α → Prop)
    (result : Option α × Parser) :
    Prop where
  within : Within all n result.2
  located : ∀ value, result.1 = some value → located value

/-- The function consumes a token, if it returns something. -/
structure Consumes {α : Type} (all : List Token) (n : ℕ) (located : α → Prop)
    (result : Option α × Parser) : Prop where
  within : Within all n result.2
  located : ∀ value, result.1 = some value → located value ∧ ∃ k, n = k + 1 ∧ Within all k result.2

variable {all : List Token} {n k : ℕ} {p : Parser} {token : Token} {rest : List Token}
  {diagnostics : DiagnosticEngine} {failed : Bool} {location : SourceLocation}

theorem atToken_of_mem (h : token ∈ all) : AtToken all token.location := ⟨token, h, rfl, rfl, rfl⟩

/-- The length says nothing about the place. -/
theorem AtToken.withLength (h : AtToken all location) (length : UInt32) :
    AtToken all { location with length } := h

theorem pointsAt_error (h : AtToken all location) (code : ErrorCode) (message : String)
    (hcode : code ≠ .internalError) : PointsAt all (Diag.error code location message) :=
  ⟨hcode, h, fun _ hnote => absurd hnote List.not_mem_nil⟩

namespace Closed

theorem ne_nil {tokens : List Token} (h : Closed tokens) : tokens ≠ [] := by
  obtain ⟨front, eof, rfl, -⟩ := h
  simp

/-- The end of the file is not dropped with another token. -/
theorem tail (h : Closed (token :: rest)) (htoken : token.type ≠ .eof) : Closed rest := by
  obtain ⟨front, eof, heq, heof⟩ := h
  cases front with
  | nil =>
    obtain ⟨rfl, -⟩ := List.cons.inj heq
    exact absurd heof htoken
  | cons first front => exact ⟨front, eof, (List.cons.inj heq).2, heof⟩

theorem cons (h : Closed rest) (token : Token) : Closed (token :: rest) := by
  obtain ⟨front, eof, rfl, heof⟩ := h
  exact ⟨token :: front, eof, rfl, heof⟩

end Closed

namespace Within

theorem mono (h : Within all k p) (hk : k ≤ n) : Within all n p :=
  ⟨h.tokens, h.closed, h.left.trans hk, h.reports⟩

theorem head_mem (h : Within all n ⟨token :: rest, diagnostics, failed⟩) : token ∈ all :=
  h.tokens token List.mem_cons_self

/-- The parser has as many tokens left as it has. -/
theorem self (h : Within all n p) : Within all p.tokens.length p :=
  ⟨h.tokens, h.closed, le_rfl, h.reports⟩

/-- There is a token left. -/
theorem exists_succ (h : Within all n p) : ∃ k, n = k + 1 := by
  have hpos := List.length_pos_iff.mpr h.closed.ne_nil
  have hleft := h.left
  exact Nat.exists_eq_succ_of_ne_zero (by omega)

/-- Behind a token that is not the end of the file. -/
theorem tail (h : Within all (n + 1) ⟨token :: rest, diagnostics, failed⟩)
    (htoken : token.type ≠ .eof) :
    Within all n ⟨rest, diagnostics, failed⟩ :=
  ⟨fun t ht => h.tokens t (List.mem_cons_of_mem _ ht), h.closed.tail htoken,
    Nat.le_of_succ_le_succ h.left, h.reports⟩

theorem report (h : Within all n p) {d : Diagnostic} (hd : PointsAt all d) (failed : Bool) :
    Within all n { p with diagnostics := p.diagnostics.report d, failed } := by
  refine ⟨h.tokens, h.closed, h.left, fun other hother => ?_⟩
  rcases List.mem_append.mp hother with hother | hother
  · exact h.reports other hother
  · rw [List.mem_singleton.mp hother]
    exact hd

theorem error (h : Within all n p) (htoken : token ∈ all) (code : ErrorCode) (message : String)
    (hcode : code ≠ .internalError) : Within all n (p.error token code message) :=
  h.report (pointsAt_error (atToken_of_mem htoken) code message hcode) true

theorem reportErrors {errors : List Token} (h : Within all n p) (herrors : ∀ e ∈ errors, e ∈ all) :
    Within all n (p.reportErrors errors) := by
  have hreports : ∀ (errors : List Token) (diagnostics : DiagnosticEngine),
      (∀ e ∈ errors, e ∈ all) → (∀ d ∈ diagnostics.diagnostics, PointsAt all d) →
      ∀ d ∈ (errors.foldl (fun diagnostics token => diagnostics.report
        (Diag.error .lexicalError token.location token.strValue.text)) diagnostics).diagnostics,
        PointsAt all d := by
    intro errors
    induction errors with
    | nil => exact fun diagnostics _ hold => hold
    | cons e errors ih =>
      intro diagnostics hall hold
      obtain ⟨he, hmore⟩ := List.forall_mem_cons.mp hall
      refine ih _ hmore fun d hd => ?_
      rcases List.mem_append.mp hd with hd | hd
      · exact hold d hd
      · rw [List.mem_singleton.mp hd]
        exact pointsAt_error (atToken_of_mem he) _ _ (by decide)
  exact ⟨h.tokens, h.closed, h.left, hreports errors p.diagnostics herrors h.reports⟩

end Within

/-! ### Tokens -/

/-- Before the end of the file there is a token that is not malformed. -/
theorem exists_settled {tokens : List Token} (h : Closed tokens) : ∃ token rest errors,
    settleTokens tokens 1 = (token :: rest, errors) ∧ token.type ≠ .error ∧ Closed (token :: rest) ∧
      (token :: rest).length ≤ tokens.length ∧ (∀ t ∈ token :: rest, t ∈ tokens) ∧
      ∀ e ∈ errors, e ∈ tokens := by
  induction tokens with
  | nil => exact absurd rfl h.ne_nil
  | cons first tokens ih =>
    unfold settleTokens
    by_cases herror : first.type = .error
    · have hne : first.type ≠ .eof := by
        rw [herror]
        decide
      obtain ⟨token, rest, errors, heq, htoken, hclosed, hlength, hmem, herrors⟩ := ih (h.tail hne)
      rw [if_pos herror, heq]
      refine ⟨token, rest, first :: errors, rfl, htoken, hclosed, Nat.le_succ_of_le hlength,
        fun t ht => List.mem_cons_of_mem _ (hmem t ht), fun e he => ?_⟩
      rcases List.mem_cons.mp he with rfl | he
      · exact List.mem_cons_self
      · exact List.mem_cons_of_mem _ (herrors e he)
    · rw [if_neg herror]
      have hzero : settleTokens tokens 0 = (tokens, []) := by
        cases tokens <;> rfl
      rw [hzero]
      exact ⟨first, tokens, [], rfl, herror, h, le_rfl, fun t ht => ht, by simp⟩

/-- The next token. -/
theorem Within.exists_head (h : Within all n p) : ∃ token rest diagnostics failed,
    p.peek 0 = (token, ⟨token :: rest, diagnostics, failed⟩) ∧ token.type ≠ .error ∧
      Within all n ⟨token :: rest, diagnostics, failed⟩ := by
  obtain ⟨token, rest, errors, heq, htoken, hclosed, hlength, hmem, herrors⟩ :=
    exists_settled h.closed
  unfold peek
  rw [heq]
  refine ⟨token, rest, _, _, rfl, htoken, ?_⟩
  have hwithin : Within all n { p with tokens := token :: rest } :=
    ⟨fun t ht => h.tokens t (hmem t ht), hclosed, hlength.trans h.left, h.reports⟩
  exact hwithin.reportErrors fun e he => h.tokens e (herrors e he)

/-- The one behind it. -/
theorem Within.exists_second (h : Within all n ⟨token :: rest, diagnostics, failed⟩)
    (htoken : token.type ≠ .error) (hne : token.type ≠ .eof) : ∃ second rest' diagnostics' failed',
    peek ⟨token :: rest, diagnostics, failed⟩ 1 =
        (second, ⟨token :: second :: rest', diagnostics', failed'⟩) ∧
      second.type ≠ .error ∧ Within all n ⟨token :: second :: rest', diagnostics', failed'⟩ := by
  obtain ⟨second, rest', errors, heq, hsecond, hclosed, hlength, hmem, herrors⟩ :=
    exists_settled (h.closed.tail hne)
  unfold peek settleTokens
  dsimp only
  rw [if_neg htoken, heq]
  refine ⟨second, rest', _, _, rfl, hsecond, ?_⟩
  have hleft : rest.length + 1 ≤ n := h.left
  have hwithin : Within all n ⟨token :: second :: rest', diagnostics, failed⟩ := by
    refine ⟨fun t ht => ?_, hclosed.cons token, ?_, h.reports⟩
    · rcases List.mem_cons.mp ht with rfl | ht
      · exact h.head_mem
      · exact h.tokens t (List.mem_cons_of_mem _ (hmem t ht))
    · show (second :: rest').length + 1 ≤ n
      omega
  exact hwithin.reportErrors fun e he => h.tokens e (List.mem_cons_of_mem _ (herrors e he))

/-- The third, which the parser looks at behind the dot of a local label. -/
theorem Within.exists_third {second : Token}
    (h : Within all n ⟨token :: second :: rest, diagnostics, failed⟩) (htoken : token.type ≠ .error)
    (hne : token.type ≠ .eof) (hsecond : second.type ≠ .error) (hne' : second.type ≠ .eof) :
    ∃ third rest' diagnostics' failed', peek ⟨token :: second :: rest, diagnostics, failed⟩ 2 =
        (third, ⟨token :: second :: third :: rest', diagnostics', failed'⟩) ∧
      third.type ≠ .error ∧
      Within all n ⟨token :: second :: third :: rest', diagnostics', failed'⟩ := by
  obtain ⟨third, rest', errors, heq, hthird, hclosed, hlength, hmem, herrors⟩ :=
    exists_settled ((h.closed.tail hne).tail hne')
  unfold peek settleTokens settleTokens
  dsimp only
  rw [if_neg htoken, if_neg hsecond, heq]
  refine ⟨third, rest', _, _, rfl, hthird, ?_⟩
  have hleft : rest.length + 2 ≤ n := h.left
  have hwithin : Within all n ⟨token :: second :: third :: rest', diagnostics, failed⟩ := by
    refine ⟨fun t ht => ?_, (hclosed.cons second).cons token, ?_, h.reports⟩
    · rcases List.mem_cons.mp ht with rfl | ht
      · exact h.head_mem
      · rcases List.mem_cons.mp ht with rfl | ht
        · exact h.tokens t (List.mem_cons_of_mem _ List.mem_cons_self)
        · exact h.tokens t (List.mem_cons_of_mem _ (List.mem_cons_of_mem _ (hmem t ht)))
    · show (third :: rest').length + 2 ≤ n
      omega
  exact hwithin.reportErrors fun e he =>
    h.tokens e (List.mem_cons_of_mem _ (List.mem_cons_of_mem _ (herrors e he)))

/-- An expected token is consumed. -/
theorem Within.expect (h : Within all n p) (type : TokenType) (htype : type ≠ .eof)
    (what : String) :
    Consumes all n (fun token => token ∈ all) (p.expect type what) := by
  obtain ⟨token, rest, diagnostics, failed, hpeek, htoken, hwithin⟩ := h.exists_head
  unfold Parser.expect
  rw [hpeek]
  dsimp only
  split_ifs with heq
  · rw [advance_cons htoken]
    obtain ⟨k, rfl⟩ := hwithin.exists_succ
    have htail := hwithin.tail (by rw [heq]; exact htype)
    refine ⟨htail.mono (Nat.le_succ k), fun value hvalue => ?_⟩
    cases hvalue
    exact ⟨hwithin.head_mem, k, rfl, htail⟩
  · exact ⟨hwithin.error hwithin.head_mem _ _ (by decide), nofun⟩

/-- An accepted newline is consumed. -/
theorem Within.accept (h : Within all n p) (type : TokenType) (htype : type ≠ .eof) :
    Within all n (p.accept type).2 ∧
      ((p.accept type).1 = true → ∃ k, n = k + 1 ∧ Within all k (p.accept type).2) := by
  obtain ⟨token, rest, diagnostics, failed, hpeek, htoken, hwithin⟩ := h.exists_head
  unfold Parser.accept
  rw [hpeek]
  dsimp only
  split_ifs with heq
  · rw [advance_cons htoken]
    obtain ⟨k, rfl⟩ := hwithin.exists_succ
    have htail := hwithin.tail (by rw [heq]; exact htype)
    exact ⟨htail.mono (Nat.le_succ k), fun _ => ⟨k, rfl, htail⟩⟩
  · exact ⟨hwithin, nofun⟩

/-! ### Operands -/

/-- An operand at a token. -/
def Placed (all : List Token) (operand : Operand) : Prop := AtToken all operand.location

/-- After a token that was expected. -/
theorem Consumes.cases {α : Type} {located : α → Prop} {result : Option α × Parser}
    (h : Consumes all n located result) :
    (∃ p, result = (none, p) ∧ Within all n p) ∨
      ∃ value p k, result = (some value, p) ∧ located value ∧ n = k + 1 ∧ Within all k p := by
  obtain ⟨value, p⟩ := result
  cases value with
  | none => exact .inl ⟨p, rfl, h.within⟩
  | some value =>
    obtain ⟨hlocated, k, hk, hwithin⟩ := h.located value rfl
    exact .inr ⟨value, p, k, rfl, hlocated, hk, hwithin⟩

theorem Gives.mono {α : Type} {located : α → Prop} {result : Option α × Parser}
    (h : Gives all k located result) (hk : k ≤ n) : Gives all n located result :=
  ⟨h.within.mono hk, h.located⟩

theorem Gives.of_none {α : Type} {located : α → Prop} (h : Within all n p) :
    Gives all n located (none, p) := ⟨h, nofun⟩

theorem Gives.of_some {α : Type} {located : α → Prop} {value : α} (h : Within all n p)
    (hvalue : located value) : Gives all n located (some value, p) := by
  refine ⟨h, ?_⟩
  rintro _ ⟨⟩
  exact hvalue

/-- What comes after the first token of an operand. -/
theorem Gives.consumes {α : Type} {located : α → Prop} {result : Option α × Parser}
    (h : Gives all k located result) : Consumes all (k + 1) located result :=
  ⟨h.within.mono (Nat.le_succ k), fun value hvalue => ⟨h.located value hvalue, k, rfl, h.within⟩⟩

theorem gives_parseSymbolExpression (h : Within all n p) (name : Str)
    (hlocation : AtToken all location) :
    Gives all n (Placed all) (p.parseSymbolExpression name location) := by
  obtain ⟨token, rest, diagnostics, failed, hpeek, htoken, hwithin⟩ := h.exists_head
  unfold parseSymbolExpression
  dsimp only
  rw [hpeek]
  dsimp only
  split_ifs with hsign
  · have hne : token.type ≠ .eof := by
      rcases hsign with hsign | hsign <;> rw [hsign] <;> decide
    obtain ⟨k, rfl⟩ := hwithin.exists_succ
    have htail := hwithin.tail hne
    rw [advance_cons htoken]
    dsimp only
    rcases (htail.expect .integer (by decide) "an integer addend").cases with
      ⟨p', heq, hp'⟩ | ⟨addend, p', j, heq, -, rfl, hp'⟩
    · rw [heq]
      exact (Gives.of_none hp').mono (Nat.le_succ k)
    · rw [heq]
      refine (Gives.of_some hp' ?_).mono (Nat.le_add_right j 2)
      exact hlocation.withLength _
  · exact Gives.of_some hwithin hlocation

theorem gives_closeMemory (h : Within all n p) {operand : Operand} (hoperand : Placed all operand) :
    Gives all n (Placed all) (p.closeMemory operand) := by
  unfold closeMemory
  rcases (h.expect .rBracket (by decide) "']' to close the memory operand").cases with
    ⟨p', heq, hp'⟩ | ⟨close, p', k, heq, -, rfl, hp'⟩
  · rw [heq]
    exact Gives.of_none hp'
  · rw [heq]
    refine (Gives.of_some hp' ?_).mono (Nat.le_succ k)
    exact AtToken.withLength hoperand _

theorem gives_parseMemoryOperand (h : Within all n ⟨token :: rest, diagnostics, failed⟩)
    (htoken : token.type ≠ .error) (hne : token.type ≠ .eof) :
    ∃ k, n = k + 1 ∧ Gives all k (Placed all)
      (parseMemoryOperand ⟨token :: rest, diagnostics, failed⟩) := by
  obtain ⟨k, rfl⟩ := h.exists_succ
  have htail := h.tail hne
  refine ⟨k, rfl, ?_⟩
  unfold parseMemoryOperand
  rw [advance_cons htoken]
  dsimp only
  rcases (htail.expect .register (by decide) "a base register inside '[...]'").cases with
    ⟨p', heq, hp'⟩ | ⟨base, p', j, heq, -, rfl, hp'⟩
  · rw [heq]
    exact Gives.of_none hp'
  · rw [heq]
    dsimp only
    obtain ⟨next, later, diagnostics', failed', hpeek, hnext, hwithin⟩ := hp'.exists_head
    have hplaced : AtToken all token.location := atToken_of_mem h.head_mem
    rw [hpeek]
    dsimp only
    split_ifs with hsign hinteger
    · have hne' : next.type ≠ .eof := by
        rcases hsign with hsign | hsign <;> rw [hsign] <;> decide
      obtain ⟨i, rfl⟩ := hwithin.exists_succ
      have htail' := hwithin.tail hne'
      rw [advance_cons hnext]
      dsimp only
      rcases (htail'.expect .integer (by decide) "an integer displacement").cases with
        ⟨p'', heq', hp''⟩ | ⟨displacement, p'', l, heq', -, rfl, hp''⟩
      · rw [heq']
        exact (Gives.of_none hp'').mono (by omega)
      · rw [heq']
        refine (gives_closeMemory hp'' ?_).mono (by omega)
        exact hplaced
    · exact (Gives.of_none (hwithin.error hwithin.head_mem _ _ (by decide))).mono (Nat.le_succ j)
    · refine (gives_closeMemory hwithin ?_).mono (Nat.le_succ j)
      exact hplaced

theorem gives_parseOperand (h : Within all n p) : Consumes all n (Placed all) p.parseOperand := by
  obtain ⟨token, rest, diagnostics, failed, hpeek, htoken, hwithin⟩ := h.exists_head
  have hplaced : AtToken all token.location := atToken_of_mem hwithin.head_mem
  unfold parseOperand
  rw [hpeek]
  dsimp only
  split
  · next htype =>
    obtain ⟨k, rfl⟩ := hwithin.exists_succ
    have htail := hwithin.tail (by rw [htype]; decide)
    rw [advance_cons htoken]
    refine (Gives.of_some htail ?_).consumes
    exact hplaced
  · next htype =>
    obtain ⟨k, rfl⟩ := hwithin.exists_succ
    have htail := hwithin.tail (by rw [htype]; decide)
    rw [advance_cons htoken]
    refine (Gives.of_some htail ?_).consumes
    exact hplaced
  · next htype =>
    obtain ⟨k, rfl⟩ := hwithin.exists_succ
    have htail := hwithin.tail (by rw [htype]; decide)
    rw [advance_cons htoken]
    refine (Gives.of_some htail ?_).consumes
    exact hplaced
  · next htype =>
    obtain ⟨k, rfl⟩ := hwithin.exists_succ
    have htail := hwithin.tail (by rw [htype]; decide)
    rw [advance_cons htoken]
    refine (Gives.of_some htail ?_).consumes
    exact hplaced
  · next htype =>
    obtain ⟨k, rfl⟩ := hwithin.exists_succ
    have htail := hwithin.tail (by rw [htype]; decide)
    rw [advance_cons htoken]
    dsimp only
    rcases (htail.expect .integer (by decide) "an integer after '#'").cases with
      ⟨p', heq, hp'⟩ | ⟨value, p', j, heq, -, rfl, hp'⟩
    · rw [heq]
      exact (Gives.of_none hp').consumes
    · rw [heq]
      refine ((Gives.of_some hp' ?_).mono (Nat.le_succ j)).consumes
      exact hplaced
  · next htype =>
    obtain ⟨k, rfl⟩ := hwithin.exists_succ
    have htail := hwithin.tail (by rw [htype]; decide)
    rw [advance_cons htoken]
    exact (gives_parseSymbolExpression htail token.text hplaced).consumes
  · next htype =>
    obtain ⟨k, rfl⟩ := hwithin.exists_succ
    have htail := hwithin.tail (by rw [htype]; decide)
    rw [advance_cons htoken]
    dsimp only
    rcases (htail.expect .identifier (by decide) "a name after '.'").cases with
      ⟨p', heq, hp'⟩ | ⟨name, p', j, heq, -, rfl, hp'⟩
    · rw [heq]
      exact (Gives.of_none hp').consumes
    · rw [heq]
      exact ((gives_parseSymbolExpression hp' _ (hplaced.withLength _)).mono
        (Nat.le_succ j)).consumes
  · next htype =>
    obtain ⟨k, rfl, hgives⟩ := gives_parseMemoryOperand hwithin htoken (by rw [htype]; decide)
    exact hgives.consumes
  · exact ⟨hwithin.error hwithin.head_mem _ _ (by decide), nofun⟩

/-- The operands of a statement. -/
theorem exists_parseOperands_placed {fuel : ℕ} {operands : List Operand} (h : Within all n p)
    (hfuel : n < fuel) (hoperands : ∀ operand ∈ operands, Placed all operand) : ∃ result,
    parseOperands fuel p operands = some result ∧
      Gives all n (fun operands => ∀ operand ∈ operands, Placed all operand) result := by
  induction fuel generalizing n p operands with
  | zero => omega
  | succ fuel ih =>
    obtain ⟨token, rest, diagnostics, failed, hpeek, htoken, hwithin⟩ := h.exists_head
    unfold parseOperands
    rw [hpeek]
    dsimp only
    split_ifs with hends
    · exact ⟨_, rfl, Gives.of_some hwithin hoperands⟩
    · rcases (gives_parseOperand hwithin).cases with
        ⟨p', heq, hp'⟩ | ⟨operand, p', k, heq, hoperand, rfl, hp'⟩
      · rw [heq]
        exact ⟨_, rfl, Gives.of_none hp'⟩
      · rw [heq]
        dsimp only
        have hmore : ∀ o ∈ operands ++ [operand], Placed all o := by
          intro o ho
          rcases List.mem_append.mp ho with ho | ho
          · exact hoperands o ho
          · rw [List.mem_singleton.mp ho]
            exact hoperand
        obtain ⟨hall, hcomma⟩ := hp'.accept .comma (by decide)
        cases haccept : p'.accept .comma with
        | mk accepted p'' =>
          rw [haccept] at hall hcomma
          cases accepted with
          | false => exact ⟨_, rfl, (Gives.of_some hall hmore).mono (Nat.le_succ k)⟩
          | true =>
            obtain ⟨j, rfl, hp''⟩ := hcomma rfl
            obtain ⟨next, later, diagnostics', failed', hpeek', hnext, hwithin'⟩ := hp''.exists_head
            dsimp only
            rw [hpeek']
            dsimp only
            split_ifs
            · exact ⟨_, rfl,
                (Gives.of_none (hwithin'.error hwithin'.head_mem _ _ (by decide))).mono (by omega)⟩
            · obtain ⟨result, hresult, hgives⟩ := ih hwithin' (by omega) hmore
              exact ⟨result, hresult, hgives.mono (by omega)⟩

/-! ### Statements -/

/-- A statement whose parts are at tokens. -/
def PlacedStatement (all : List Token) : Statement → Prop
  | .instruction node =>
    AtToken all node.location ∧ ∀ operand ∈ node.operands, Placed all operand
  | .label node => AtToken all node.location
  | .directive node =>
    AtToken all node.location ∧ ∀ operand ∈ node.operands, Placed all operand

theorem exists_parseInstruction (h : Within all (n + 1) ⟨token :: rest, diagnostics, failed⟩)
    (htoken : token.type ≠ .error) (hne : token.type ≠ .eof) : ∃ result,
    parseInstruction ⟨token :: rest, diagnostics, failed⟩ = some result ∧
      Gives all n (fun node => PlacedStatement all (.instruction node)) result := by
  have htail := h.tail hne
  have hplaced : AtToken all token.location := atToken_of_mem h.head_mem
  obtain ⟨⟨operands, p'⟩, hresult, hgives⟩ := exists_parseOperands_placed htail.self
    (Nat.lt_succ_self _) (fun operand hmem => absurd hmem List.not_mem_nil)
  unfold parseInstruction
  rw [advance_cons htoken]
  dsimp only
  rw [hresult]
  cases operands with
  | none => exact ⟨_, rfl, (Gives.of_none hgives.within).mono htail.left⟩
  | some operands =>
    refine ⟨_, rfl, (Gives.of_some hgives.within ?_).mono htail.left⟩
    exact ⟨hplaced, hgives.located operands rfl⟩

theorem exists_parseDirective (h : Within all (n + 1) ⟨token :: rest, diagnostics, failed⟩)
    (htoken : token.type ≠ .error) (hne : token.type ≠ .eof) : ∃ result,
    parseDirective ⟨token :: rest, diagnostics, failed⟩ = some result ∧
      Gives all n (fun node => PlacedStatement all (.directive node)) result := by
  have htail := h.tail hne
  have hplaced : AtToken all token.location := atToken_of_mem h.head_mem
  unfold parseDirective
  rw [advance_cons htoken]
  dsimp only
  rcases (htail.expect .identifier (by decide) "a directive name").cases with
    ⟨p', heq, hp'⟩ | ⟨name, p', k, heq, hname, rfl, hp'⟩
  · rw [heq]
    exact ⟨_, rfl, Gives.of_none hp'⟩
  · rw [heq]
    dsimp only
    cases findDirective name.text with
    | none => exact ⟨_, rfl, (Gives.of_none (hp'.error hname _ _ (by decide))).mono (Nat.le_succ k)⟩
    | some spelling =>
      have hjoined : AtToken all (joined token.location name.location) := hplaced.withLength _
      dsimp only
      split_ifs
      · refine ⟨_, rfl, (Gives.of_some hp' ?_).mono (Nat.le_succ k)⟩
        refine ⟨hjoined, fun operand hmem => ?_⟩
        rw [List.mem_singleton.mp hmem]
        exact hjoined
      · obtain ⟨⟨operands, later⟩, hresult, hgives⟩ := exists_parseOperands_placed hp'.self
          (Nat.lt_succ_self _) (fun operand hmem => absurd hmem List.not_mem_nil)
        have hleft := hp'.left.trans (Nat.le_succ k)
        rw [hresult]
        cases operands with
        | none => exact ⟨_, rfl, (Gives.of_none hgives.within).mono hleft⟩
        | some operands =>
          refine ⟨_, rfl, (Gives.of_some hgives.within ?_).mono hleft⟩
          exact ⟨hjoined, hgives.located operands rfl⟩

/-- The labels in front of a statement.  If there are none, the next token is the same. -/
theorem exists_parseLabels_placed {fuel : ℕ} {out : List Statement} (h : Within all n p)
    (hfuel : n < fuel) (hout : ∀ statement ∈ out, PlacedStatement all statement) : ∃ out' p',
    parseLabels fuel p out = some (out', p') ∧ (∀ statement ∈ out', PlacedStatement all statement) ∧
      Within all n p' ∧
      ((∃ k, n = k + 1 ∧ Within all k p') ∨ (p'.peek 0).1 = (p.peek 0).1) := by
  induction fuel generalizing n p out with
  | zero => omega
  | succ fuel ih =>
    obtain ⟨first, rest, diagnostics, failed, hpeek, hfirst, hwithin⟩ := h.exists_head
    -- the next label, at a token
    have hmore : ∀ {label : LabelNode}, AtToken all label.location →
        ∀ statement ∈ out ++ [.label label], PlacedStatement all statement := by
      intro label hlabel statement hmem
      rcases List.mem_append.mp hmem with hmem | hmem
      · exact hout statement hmem
      · rw [List.mem_singleton.mp hmem]
        exact hlabel
    unfold parseLabels
    rw [hpeek]
    dsimp only
    by_cases hname : first.type = .identifier
    · have hne : first.type ≠ .eof := by
        rw [hname]
        decide
      obtain ⟨second, rest', diagnostics', failed', hpeek', hsecond, hwithin'⟩ :=
        hwithin.exists_second hfirst hne
      rw [if_pos hname, hpeek']
      dsimp only
      split_ifs with hcolon
      · have hne' : second.type ≠ .eof := by
          rw [hcolon]
          decide
        obtain ⟨k, rfl⟩ := hwithin'.exists_succ
        have htail := hwithin'.tail hne
        obtain ⟨j, rfl⟩ := htail.exists_succ
        have htail' := htail.tail hne'
        rw [advance_cons hfirst]
        dsimp only
        rw [advance_cons hsecond]
        obtain ⟨out', p', heq, hall, hp', -⟩ := ih htail' (by omega)
          (@hmore { name := first.text, location := first.location }
            (atToken_of_mem hwithin'.head_mem))
        exact ⟨out', p', heq, hall, hp'.mono (by omega),
          .inl ⟨j + 1, rfl, hp'.mono (Nat.le_succ j)⟩⟩
      · exact ⟨out, _, rfl, hout, hwithin', .inr (by rw [peek_cons hfirst])⟩
    · rw [if_neg hname]
      by_cases hdot : first.type = .dot
      · have hne : first.type ≠ .eof := by
          rw [hdot]
          decide
        obtain ⟨second, rest', diagnostics', failed', hpeek', hsecond, hwithin'⟩ :=
          hwithin.exists_second hfirst hne
        rw [if_pos hdot, hpeek']
        dsimp only
        by_cases hidentifier : second.type = .identifier
        · have hne' : second.type ≠ .eof := by
            rw [hidentifier]
            decide
          obtain ⟨third, rest'', diagnostics'', failed'', hpeek'', hthird, hwithin''⟩ :=
            hwithin'.exists_third hfirst hne hsecond hne'
          rw [if_pos hidentifier, hpeek'']
          dsimp only
          split_ifs with hcolon
          · have hne'' : third.type ≠ .eof := by
              rw [hcolon]
              decide
            obtain ⟨k, rfl⟩ := hwithin''.exists_succ
            have htail := hwithin''.tail hne
            obtain ⟨j, rfl⟩ := htail.exists_succ
            have htail' := htail.tail hne'
            obtain ⟨i, rfl⟩ := htail'.exists_succ
            have htail'' := htail'.tail hne''
            rw [advance_cons hfirst]
            dsimp only
            rw [advance_cons hsecond]
            dsimp only
            rw [advance_cons hthird]
            obtain ⟨out', p', heq, hall, hp', -⟩ := ih htail'' (by omega)
              (@hmore { name := str "." ++ second.text, isLocal := true,
                        location := joined first.location second.location }
                ((atToken_of_mem hwithin''.head_mem).withLength _))
            exact ⟨out', p', heq, hall, hp'.mono (by omega), .inl ⟨i + 2, rfl, hp'.mono (by omega)⟩⟩
          · exact ⟨out, _, rfl, hout, hwithin'', .inr (by rw [peek_cons hfirst])⟩
        · rw [if_neg hidentifier]
          exact ⟨out, _, rfl, hout, hwithin', .inr (by rw [peek_cons hfirst])⟩
      · rw [if_neg hdot]
        exact ⟨out, _, rfl, hout, hwithin, .inr (by rw [peek_cons hfirst])⟩

theorem within_finishLine (h : Within all n p) (out : List Statement) :
    Within all n (p.finishLine out).2.2 ∧ (p.finishLine out).2.1 = out := by
  obtain ⟨token, rest, diagnostics, failed, hpeek, htoken, hwithin⟩ := h.exists_head
  unfold finishLine
  rw [hpeek]
  dsimp only
  split_ifs
  · exact ⟨(hwithin.accept .newline (by decide)).1, rfl⟩
  · exact ⟨hwithin.error hwithin.head_mem _ _ (by decide), rfl⟩

/-- Recovery drops tokens only. -/
theorem skipTokens_within {tokens : List Token} (h : Closed tokens) :
    Closed (skipTokens tokens).1 ∧ (∀ t ∈ (skipTokens tokens).1, t ∈ tokens) ∧
      (∀ t ∈ (skipTokens tokens).2, t ∈ tokens) ∧ (skipTokens tokens).1.length ≤ tokens.length := by
  induction tokens with
  | nil => exact absurd rfl h.ne_nil
  | cons first tokens ih =>
    unfold skipTokens
    split_ifs with herror hends
    · obtain ⟨hclosed, hmem, herrors, hlength⟩ := ih (h.tail (by rw [herror]; decide))
      refine ⟨hclosed, fun t ht => List.mem_cons_of_mem _ (hmem t ht), fun t ht => ?_,
        Nat.le_succ_of_le hlength⟩
      rcases List.mem_cons.mp ht with rfl | ht
      · exact List.mem_cons_self
      · exact List.mem_cons_of_mem _ (herrors t ht)
    · exact ⟨h, fun t ht => ht, fun t ht => absurd ht List.not_mem_nil, le_rfl⟩
    · have hne : first.type ≠ .eof := by
        intro heof
        exact hends (endsStatement_iff.mpr (.inr heof))
      obtain ⟨hclosed, hmem, herrors, hlength⟩ := ih (h.tail hne)
      exact ⟨hclosed, fun t ht => List.mem_cons_of_mem _ (hmem t ht),
        fun t ht => List.mem_cons_of_mem _ (herrors t ht), Nat.le_succ_of_le hlength⟩

theorem within_skipToEndOfLine (h : Within all n p) : Within all n p.skipToEndOfLine := by
  obtain ⟨hclosed, hmem, herrors, hlength⟩ := skipTokens_within h.closed
  have hwithin : Within all n { p with tokens := (skipTokens p.tokens).1 } :=
    ⟨fun t ht => h.tokens t (hmem t ht), hclosed, hlength.trans h.left, h.reports⟩
  exact ((hwithin.reportErrors fun e he => h.tokens e (herrors e he)).accept .newline (by decide)).1

/-- A token that ends no line is dropped. -/
theorem within_skip_cons (h : Within all (n + 1) ⟨token :: rest, diagnostics, failed⟩)
    (htoken : token.type ≠ .error) (hends : ¬endsStatement token = true) :
    Within all n (skipToEndOfLine ⟨token :: rest, diagnostics, failed⟩) := by
  have hne : token.type ≠ .eof := fun heof => hends (endsStatement_iff.mpr (.inr heof))
  have hsame : skipToEndOfLine ⟨token :: rest, diagnostics, failed⟩ =
      skipToEndOfLine ⟨rest, diagnostics, failed⟩ := by
    unfold skipToEndOfLine
    dsimp only
    rw [skipTokens, if_neg htoken, if_neg hends]
  rw [hsame]
  exact within_skipToEndOfLine (h.tail hne)

/-- The parser behind a line: after one that is malformed it recovers. -/
def behindLine (result : Bool × List Statement × Parser) : Parser :=
  if result.1 then result.2.2 else result.2.2.skipToEndOfLine

theorem within_behindLine {result : Bool × List Statement × Parser} (h : Within all n result.2.2) :
    Within all n (behindLine result) := by
  unfold behindLine
  split_ifs
  · exact h
  · exact within_skipToEndOfLine h

/-- A line is consumed, and what it returns is at tokens. -/
theorem exists_parseLine_placed {out : List Statement} (h : Within all n p)
    (hhead : ¬endsStatement (p.peek 0).1 = true)
    (hout : ∀ statement ∈ out, PlacedStatement all statement) : ∃ result k,
    p.parseLine out = some result ∧ (∀ statement ∈ result.2.1, PlacedStatement all statement) ∧
      n = k + 1 ∧ Within all k (behindLine result) := by
  obtain ⟨out', p', heq, hall, hp', hconsumed⟩ :=
    exists_parseLabels_placed h.self (Nat.lt_succ_self _) hout
  -- the tokens that may be left afterwards
  obtain ⟨k, rfl⟩ := h.exists_succ
  have hlabels : Within all k p' ∨ Within all (k + 1) p' ∧ (p'.peek 0).1 = (p.peek 0).1 := by
    rcases hconsumed with ⟨j, hj, hp'⟩ | hsame
    · left
      have hleft := h.left
      exact hp'.mono (by omega)
    · exact .inr ⟨hp'.mono h.left, hsame⟩
  have hfinish : ∀ {m : ℕ} {statement : Statement} {p'' : Parser}, Within all m p'' →
      PlacedStatement all statement → Within all m (p''.finishLine (out' ++ [statement])).2.2 ∧
        ∀ other ∈ (p''.finishLine (out' ++ [statement])).2.1, PlacedStatement all other := by
    intro m statement p'' hp'' hstatement
    obtain ⟨hfinished, hsame⟩ := within_finishLine hp'' (out' ++ [statement])
    refine ⟨hfinished, fun other hmem => ?_⟩
    rw [hsame] at hmem
    rcases List.mem_append.mp hmem with hmem | hmem
    · exact hall other hmem
    · rw [List.mem_singleton.mp hmem]
      exact hstatement
  -- what is behind the labels
  have hbody : ∀ m, Within all m p' → ∃ result, p.parseLine out = some result ∧
      (∀ statement ∈ result.2.1, PlacedStatement all statement) ∧ Within all m result.2.2 ∧
      (¬endsStatement (p'.peek 0).1 = true → ∀ j, m = j + 1 →
          Within all j (behindLine result)) := by
    intro m hm
    obtain ⟨token, rest, diagnostics, failed, hpeek, htoken, hwithin⟩ := hm.exists_head
    obtain ⟨i, rfl⟩ := hwithin.exists_succ
    unfold parseLine
    rw [heq]
    dsimp only
    rw [hpeek]
    dsimp only
    split_ifs with hends hdot hname
    · exact ⟨_, rfl, hall, (hwithin.accept .newline (by decide)).1, fun h => absurd hends h⟩
    · obtain ⟨⟨directive, p''⟩, hresult, hgives⟩ :=
        exists_parseDirective hwithin htoken (by rw [hdot]; decide)
      rw [hresult]
      cases directive with
      | none =>
        refine ⟨_, rfl, hall, hgives.within.mono (Nat.le_succ i), fun _ j hj => ?_⟩
        obtain rfl := Nat.succ.inj hj
        exact within_behindLine hgives.within
      | some directive =>
        obtain ⟨hfinished, hplaced⟩ := hfinish hgives.within (hgives.located directive rfl)
        refine ⟨_, rfl, hplaced, hfinished.mono (Nat.le_succ i), fun _ j hj => ?_⟩
        obtain rfl := Nat.succ.inj hj
        exact within_behindLine hfinished
    · obtain ⟨⟨node, p''⟩, hresult, hgives⟩ :=
        exists_parseInstruction hwithin htoken (by rw [hname]; decide)
      rw [hresult]
      cases node with
      | none =>
        refine ⟨_, rfl, hall, hgives.within.mono (Nat.le_succ i), fun _ j hj => ?_⟩
        obtain rfl := Nat.succ.inj hj
        exact within_behindLine hgives.within
      | some node =>
        obtain ⟨hfinished, hplaced⟩ := hfinish hgives.within (hgives.located node rfl)
        refine ⟨_, rfl, hplaced, hfinished.mono (Nat.le_succ i), fun _ j hj => ?_⟩
        obtain rfl := Nat.succ.inj hj
        exact within_behindLine hfinished
    · have herror := hwithin.error hwithin.head_mem .parseError
        (s!"expected a label, instruction or directive, found {tokenTypeName token.type}")
        (by decide)
      refine ⟨_, rfl, hall, herror, fun _ j hj => ?_⟩
      obtain rfl := Nat.succ.inj hj
      exact within_skip_cons herror htoken hends
  rcases hlabels with hk | ⟨hk, hsame⟩
  · obtain ⟨result, hresult, hplaced, hwithin, -⟩ := hbody k hk
    exact ⟨result, k, hresult, hplaced, rfl, within_behindLine hwithin⟩
  · obtain ⟨result, hresult, hplaced, -, hless⟩ := hbody (k + 1) hk
    rw [hsame] at hless
    exact ⟨result, k, hresult, hplaced, rfl, hless hhead k rfl⟩

/-- The lines of a file. -/
theorem exists_parseLines_placed {fuel : ℕ} {out : List Statement} (h : Within all n p)
    (hfuel : n < fuel) (hout : ∀ statement ∈ out, PlacedStatement all statement) : ∃ out' p',
    parseLines fuel p out = some (out', p') ∧ Within all n p' ∧
      ∀ statement ∈ out', PlacedStatement all statement := by
  induction fuel generalizing n p out with
  | zero => omega
  | succ fuel ih =>
    obtain ⟨token, rest, diagnostics, failed, hpeek, htoken, hwithin⟩ := h.exists_head
    unfold parseLines
    rw [hpeek]
    dsimp only
    by_cases heof : token.type = .eof
    · rw [if_pos heof]
      exact ⟨out, _, rfl, hwithin, hout⟩
    · rw [if_neg heof, accept_cons htoken]
      obtain ⟨k, rfl⟩ := hwithin.exists_succ
      by_cases hnewline : token.type = .newline
      · rw [if_pos hnewline]
        obtain ⟨out', p', heq, hp', hall⟩ := ih (hwithin.tail heof) (by omega) hout
        exact ⟨out', p', heq, hp'.mono (Nat.le_succ k), hall⟩
      · rw [if_neg hnewline]
        have hhead : ¬endsStatement (peek ⟨token :: rest, diagnostics, failed⟩ 0).1 = true := by
          rw [peek_cons htoken, endsStatement_iff]
          exact not_or.mpr ⟨hnewline, heof⟩
        obtain ⟨⟨good, out', p'⟩, j, heq, hall, hj, hp'⟩ :=
          exists_parseLine_placed hwithin hhead hout
        obtain rfl := Nat.succ.inj hj
        dsimp only
        rw [heq]
        cases good with
        | true =>
          obtain ⟨out'', p'', heq', hp'', hall'⟩ := ih hp' (by omega) hall
          exact ⟨out'', p'', heq', hp''.mono (Nat.le_succ k), hall'⟩
        | false =>
          obtain ⟨out'', p'', heq', hp'', hall'⟩ := ih hp' (by omega) hall
          exact ⟨out'', p'', heq', hp''.mono (Nat.le_succ k), hall'⟩

/-- **Parsing ends**, whatever the tokens of the file are, and what it reports and returns is at
tokens. -/
theorem exists_parse {tokens : List Token} (h : Closed tokens) : ∃ result p,
    parse { tokens } = some (result, p) ∧ (∀ d ∈ p.diagnostics.diagnostics, PointsAt tokens d) ∧
      ∀ program, result = .ok program →
        ∀ statement ∈ program.statements, PlacedStatement tokens statement := by
  have hwithin : Within tokens tokens.length { tokens } :=
    ⟨fun t ht => ht, h, le_rfl, fun d hd => absurd hd List.not_mem_nil⟩
  obtain ⟨statements, p, heq, hp, hall⟩ := exists_parseLines_placed hwithin (Nat.lt_succ_self _)
    (fun statement hmem => absurd hmem List.not_mem_nil)
  unfold parse
  dsimp only
  rw [heq]
  dsimp only
  split_ifs
  · exact ⟨_, p, rfl, hp.reports, nofun⟩
  · refine ⟨_, p, rfl, hp.reports, ?_⟩
    rintro program ⟨⟩
    exact hall

end Parser
end MiniTool
