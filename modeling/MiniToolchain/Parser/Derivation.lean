import MiniToolchain.Parser.Grammar

/-!
# The parser accepts its grammar

Each function of the parser is described twice: what it returns is derived by the grammar, or it
reported something; and what the grammar derives is returned, when what follows cannot continue it.

## Main results

* `parse_iff_derives` — the parser accepts exactly the grammar, and returns what is derived.
-/

namespace MiniTool
namespace Parser

open Ast Diag Lexer

/-- No token is malformed. -/
def Clean (tokens : List Token) : Prop := ∀ token ∈ tokens, token.type ≠ .error

theorem Clean.head {token : Token} {rest : List Token} (h : Clean (token :: rest)) :
    token.type ≠ .error := h token List.mem_cons_self

theorem Clean.tail {token : Token} {rest : List Token} (h : Clean (token :: rest)) : Clean rest :=
  fun t ht => h t (List.mem_cons_of_mem _ ht)

theorem Clean.of_append {used rest : List Token} (h : Clean (used ++ rest)) : Clean rest :=
  fun t ht => h t (List.mem_append_right _ ht)

/-! ### Tokens -/

section

variable {token : Token} {rest : List Token} {diagnostics : DiagnosticEngine} {failed : Bool}

@[simp] theorem reportErrors_nil (p : Parser) : p.reportErrors [] = p := by
  simp [reportErrors]

@[simp] theorem peek_nil (ahead : ℕ) :
    peek ⟨[], diagnostics, failed⟩ ahead = (endOfFile, ⟨[], diagnostics, failed⟩) := by
  simp [peek, settleTokens]

theorem peek_cons (h : token.type ≠ .error) :
    peek ⟨token :: rest, diagnostics, failed⟩ 0 =
      (token, ⟨token :: rest, diagnostics, failed⟩) := by
  simp [peek, settleTokens, h]

theorem settleTokens_of_clean {tokens : List Token} (h : Clean tokens) (n : ℕ) :
    settleTokens tokens n = (tokens, []) := by
  induction tokens generalizing n with
  | nil => cases n <;> rfl
  | cons token rest ih =>
    cases n with
    | zero => rfl
    | succ n =>
      unfold settleTokens
      rw [if_neg h.head, ih h.tail]

theorem peek_of_clean {tokens : List Token} (h : Clean tokens) (ahead : ℕ) :
    peek ⟨tokens, diagnostics, failed⟩ ahead =
      (tokens.getD ahead endOfFile, ⟨tokens, diagnostics, failed⟩) := by
  simp [peek, settleTokens_of_clean h]

theorem advance_cons (h : token.type ≠ .error) :
    advance ⟨token :: rest, diagnostics, failed⟩ = (token, ⟨rest, diagnostics, failed⟩) := by
  simp [advance, peek_cons h]

theorem accept_cons (h : token.type ≠ .error) (type : TokenType) :
    accept ⟨token :: rest, diagnostics, failed⟩ type =
      if token.type = type then (true, ⟨rest, diagnostics, failed⟩)
      else (false, ⟨token :: rest, diagnostics, failed⟩) := by
  simp [accept, peek_cons h, advance_cons h]

theorem accept_nil {type : TokenType} (h : type ≠ .eof) :
    accept ⟨[], diagnostics, failed⟩ type = (false, ⟨[], diagnostics, failed⟩) := by
  simp [accept, endOfFile, h.symm]

theorem expect_cons (htype : token.type ≠ .error) {type : TokenType} (h : token.type = type)
    (what : String) : expect ⟨token :: rest, diagnostics, failed⟩ type what =
      (some token, ⟨rest, diagnostics, failed⟩) := by
  simp [expect, peek_cons htype, advance_cons htype, h]

end

/-! ### What is returned is derived -/

/-- The parser reported something, and consumed some of the tokens. -/
def Fails (tokens : List Token) (p : Parser) : Prop := p.failed = true ∧ p.tokens <:+ tokens

theorem Fails.mono {tokens more : List Token} {p : Parser} (h : Fails tokens p)
    (hmore : tokens <:+ more) : Fails more p := ⟨h.1, h.2.trans hmore⟩

theorem Fails.cons {tokens : List Token} {p : Parser} (h : Fails tokens p) (token : Token) :
    Fails (token :: tokens) p := h.mono (List.suffix_cons _ _)

theorem signed_true (value : Int64) : signed true value = -value := by
  apply Int64.toBitVec_inj.mp
  show ~~~value.toBitVec + 1 = -value.toBitVec
  exact (BitVec.neg_eq_not_add value.toBitVec).symm

section

variable {tokens : List Token} (diagnostics : DiagnosticEngine) (failed : Bool)

theorem expect_spec (hclean : Clean tokens) (type : TokenType) (htype : type ≠ .eof)
    (what : String) :
    (∃ token rest, tokens = token :: rest ∧ token.type = type ∧
        expect ⟨tokens, diagnostics, failed⟩ type what =
          (some token, ⟨rest, diagnostics, failed⟩)) ∨
      ∃ p, expect ⟨tokens, diagnostics, failed⟩ type what = (none, p) ∧ Fails tokens p := by
  cases tokens with
  | nil =>
    right
    simp only [expect, peek_nil]
    rw [if_neg (show endOfFile.type ≠ type from htype.symm)]
    exact ⟨_, rfl, rfl, List.suffix_refl _⟩
  | cons token rest =>
    by_cases h : token.type = type
    · exact Or.inl ⟨token, rest, rfl, h, expect_cons hclean.head h what⟩
    · right
      simp only [expect, peek_cons hclean.head]
      rw [if_neg h]
      exact ⟨_, rfl, rfl, List.suffix_refl _⟩

/-- An offset after `+` or `-`. -/
theorem offset_spec {sign : Token} (hclean : Clean (sign :: tokens))
    (hsign : sign.type = .plus ∨ sign.type = .minus) (what : String) :
    (∃ value rest, tokens = value :: rest ∧
        expect ⟨tokens, diagnostics, failed⟩ .integer what =
          (some value, ⟨rest, diagnostics, failed⟩) ∧
        DerivesOffset [sign, value] (signed (sign.type = .minus) value.intValue) value.location) ∨
      ∃ p, expect ⟨tokens, diagnostics, failed⟩ .integer what = (none, p) ∧ Fails tokens p := by
  rcases expect_spec diagnostics failed hclean.tail .integer (by decide) what with
    ⟨value, rest, htokens, hvalue, h⟩ | hfails
  · refine Or.inl ⟨value, rest, htokens, h, ?_⟩
    rcases hsign with hplus | hminus
    · have hsigned : signed (sign.type = .minus) value.intValue = value.intValue := by
        simp [hplus, signed]
      rw [hsigned]
      exact .plus hplus hvalue
    · have hsigned : signed (sign.type = .minus) value.intValue = -value.intValue := by
        simp [hminus, signed_true]
      rw [hsigned]
      exact .minus hminus hvalue
  · exact Or.inr hfails

/-- What a symbol and what follows it are read as. -/
theorem parseSymbolExpression_spec (hclean : Clean tokens) {before : List Token} {name : Str}
    {location : SourceLocation} (hsymbol : DerivesSymbol before name location) :
    (∃ operand used rest, tokens = used ++ rest ∧ DerivesOperand (before ++ used) operand ∧
        parseSymbolExpression ⟨tokens, diagnostics, failed⟩ name location =
          (some operand, ⟨rest, diagnostics, failed⟩)) ∨
      ∃ p, parseSymbolExpression ⟨tokens, diagnostics, failed⟩ name location = (none, p) ∧
        Fails tokens p := by
  cases tokens with
  | nil =>
    left
    refine ⟨{ type := .symbol, symbol := name, location }, [], [], rfl, ?_, ?_⟩
    · rw [List.append_nil]
      exact .symbol hsymbol
    · simp [parseSymbolExpression, endOfFile]
  | cons sign rest =>
    unfold parseSymbolExpression
    simp only [peek_cons hclean.head, advance_cons hclean.head]
    by_cases hsign : sign.type = .plus ∨ sign.type = .minus
    · rw [if_pos hsign]
      rcases offset_spec diagnostics failed hclean hsign "an integer addend" with
        ⟨value, rest, rfl, h, hoffset⟩ | ⟨p, h, hfails⟩
      · left
        rw [h]
        exact ⟨_, [sign, value], rest, rfl, .symbolOffset hsymbol hoffset, rfl⟩
      · right
        rw [h]
        exact ⟨p, rfl, hfails.cons sign⟩
    · left
      rw [if_neg hsign]
      refine ⟨_, [], _, rfl, ?_, rfl⟩
      rw [List.append_nil]
      exact .symbol hsymbol

theorem closeMemory_spec (hclean : Clean tokens) (operand : Operand) :
    (∃ closing rest, tokens = closing :: rest ∧ closing.type = .rBracket ∧
        closeMemory ⟨tokens, diagnostics, failed⟩ operand =
          (some { operand with location := spanTo operand.location closing.location },
            ⟨rest, diagnostics, failed⟩)) ∨
      ∃ p, closeMemory ⟨tokens, diagnostics, failed⟩ operand = (none, p) ∧ Fails tokens p := by
  unfold closeMemory
  rcases expect_spec diagnostics failed hclean .rBracket (by decide)
      "']' to close the memory operand" with
    ⟨closing, rest, rfl, hclosing, h⟩ | ⟨p, h, hfails⟩
  · rw [h]
    exact Or.inl ⟨closing, rest, rfl, hclosing, rfl⟩
  · rw [h]
    exact Or.inr ⟨p, rfl, hfails⟩

theorem parseMemoryOperand_spec {opening : Token} (hclean : Clean (opening :: tokens))
    (hopening : opening.type = .lBracket) :
    (∃ operand used rest, opening :: tokens = used ++ rest ∧ used ≠ [] ∧
        DerivesOperand used operand ∧
        parseMemoryOperand ⟨opening :: tokens, diagnostics, failed⟩ =
          (some operand, ⟨rest, diagnostics, failed⟩)) ∨
      ∃ p, parseMemoryOperand ⟨opening :: tokens, diagnostics, failed⟩ = (none, p) ∧
        Fails (opening :: tokens) p := by
  unfold parseMemoryOperand
  simp only [advance_cons hclean.head]
  rcases expect_spec diagnostics failed hclean.tail .register (by decide)
      "a base register inside '[...]'" with ⟨base, rest, rfl, hbase, h⟩ | ⟨p, h, hfails⟩
  · rw [h]
    dsimp only
    cases rest with
    | nil =>
      right
      simp only [peek_nil]
      rw [if_neg (by decide), if_neg (by decide)]
      rcases closeMemory_spec diagnostics failed hclean.tail.tail
          { type := .memory, location := opening.location,
            reg := (Isa.parseRegister base.text).getD .R0 } with
        ⟨closing, rest, hnil, -⟩ | ⟨p, h, hfails⟩
      · cases hnil
      · exact ⟨p, h, (hfails.cons base).cons opening⟩
    | cons sign rest =>
      simp only [peek_cons hclean.tail.tail.head, advance_cons hclean.tail.tail.head]
      by_cases hsign : sign.type = .plus ∨ sign.type = .minus
      · rw [if_pos hsign]
        rcases offset_spec diagnostics failed hclean.tail.tail hsign
            "an integer displacement" with ⟨value, rest, rfl, h, hoffset⟩ | ⟨p, h, hfails⟩
        · rw [h]
          dsimp only
          rcases closeMemory_spec diagnostics failed hclean.tail.tail.tail.tail
              { type := .memory, location := opening.location,
                reg := (Isa.parseRegister base.text).getD .R0,
                immediate := signed (sign.type = .minus) value.intValue } with
            ⟨closing, rest, rfl, hclosing, h⟩ | ⟨p, h, hfails⟩
          · exact Or.inl ⟨_, [opening, base, sign, value, closing], rest, rfl, by simp,
              .memoryOffset hopening hbase hoffset hclosing, h⟩
          · exact Or.inr ⟨p, h, (((hfails.cons value).cons sign).cons base).cons opening⟩
        · rw [h]
          exact Or.inr ⟨p, rfl, ((hfails.cons sign).cons base).cons opening⟩
      · rw [if_neg hsign]
        by_cases hslip : sign.type = .integer
        · right
          rw [if_pos hslip]
          refine ⟨_, rfl, rfl, ?_⟩
          exact (List.suffix_cons base _).trans (List.suffix_cons opening _)
        · rw [if_neg hslip]
          rcases closeMemory_spec diagnostics failed hclean.tail.tail
              { type := .memory, location := opening.location,
                reg := (Isa.parseRegister base.text).getD .R0 } with
            ⟨closing, rest, heq, hclosing, h⟩ | ⟨p, h, hfails⟩
          · exact Or.inl ⟨_, [opening, base, closing], rest, by rw [heq]; rfl, by simp,
              .memory hopening hbase hclosing, h⟩
          · exact Or.inr ⟨p, h, (hfails.cons base).cons opening⟩
  · rw [h]
    exact Or.inr ⟨p, rfl, hfails.cons opening⟩

theorem parseOperand_spec (hclean : Clean tokens) :
    (∃ operand used rest, tokens = used ++ rest ∧ used ≠ [] ∧ DerivesOperand used operand ∧
        parseOperand ⟨tokens, diagnostics, failed⟩ =
          (some operand, ⟨rest, diagnostics, failed⟩)) ∨
      ∃ p, parseOperand ⟨tokens, diagnostics, failed⟩ = (none, p) ∧ Fails tokens p := by
  cases tokens with
  | nil =>
    right
    simp only [parseOperand, peek_nil]
    exact ⟨_, rfl, rfl, List.suffix_refl _⟩
  | cons token rest =>
    unfold parseOperand
    simp only [peek_cons hclean.head, advance_cons hclean.head]
    split
    · next h => exact Or.inl ⟨_, [token], rest, rfl, by simp, .register h, rfl⟩
    · next h => exact Or.inl ⟨_, [token], rest, rfl, by simp, .constant (Or.inl h), rfl⟩
    · next h => exact Or.inl ⟨_, [token], rest, rfl, by simp, .constant (Or.inr h), rfl⟩
    · next h => exact Or.inl ⟨_, [token], rest, rfl, by simp, .string h, rfl⟩
    · next hhash =>
      rcases expect_spec diagnostics failed hclean.tail .integer (by decide)
          "an integer after '#'" with ⟨value, rest, rfl, hvalue, h⟩ | ⟨p, h, hfails⟩
      · rw [h]
        exact Or.inl ⟨_, [token, value], rest, rfl, by simp, .hash hhash hvalue, rfl⟩
      · rw [h]
        exact Or.inr ⟨p, rfl, hfails.cons token⟩
    · next hname =>
      rcases parseSymbolExpression_spec diagnostics failed hclean.tail (.plain hname) with
        ⟨operand, used, rest, rfl, hoperand, h⟩ | ⟨p, h, hfails⟩
      · exact Or.inl ⟨operand, [token] ++ used, rest, rfl, by simp, hoperand, h⟩
      · exact Or.inr ⟨p, h, hfails.cons token⟩
    · next hdot =>
      rcases expect_spec diagnostics failed hclean.tail .identifier (by decide)
          "a name after '.'" with ⟨name, rest, rfl, hname, h⟩ | ⟨p, h, hfails⟩
      · rw [h]
        dsimp only
        rcases parseSymbolExpression_spec diagnostics failed hclean.tail.tail
            (.dotted hdot hname) with ⟨operand, used, rest, rfl, hoperand, h⟩ | ⟨p, h, hfails⟩
        · exact Or.inl ⟨operand, [token, name] ++ used, rest, rfl, by simp, hoperand, h⟩
        · exact Or.inr ⟨p, h, (hfails.cons name).cons token⟩
      · rw [h]
        exact Or.inr ⟨p, rfl, hfails.cons token⟩
    · next hopening => exact parseMemoryOperand_spec diagnostics failed hclean hopening
    · exact Or.inr ⟨_, rfl, rfl, List.suffix_refl _⟩

theorem endsStatement_iff {token : Token} :
    endsStatement token = true ↔ token.type = .newline ∨ token.type = .eof := by
  simp [endsStatement]

theorem not_endsStatement {token : Token} {type : TokenType} (h : token.type = type)
    (hnewline : type ≠ .newline) (heof : type ≠ .eof) : ¬endsStatement token = true := by
  rw [endsStatement_iff, h]
  exact not_or.mpr ⟨hnewline, heof⟩

/-- The next token ends a statement. -/
def Ends (tokens : List Token) : Prop := endsStatement (tokens.headD endOfFile) = true

theorem peek_head (hclean : Clean tokens) :
    peek ⟨tokens, diagnostics, failed⟩ 0 =
      (tokens.headD endOfFile, ⟨tokens, diagnostics, failed⟩) := by
  rw [peek_of_clean hclean]
  cases tokens <;> rfl

theorem parseOperands_spec {fuel : ℕ} : ∀ {tokens : List Token} (operands : List Operand),
    Clean tokens → tokens.length < fuel →
      (∃ more used rest, tokens = used ++ rest ∧
          (Ends tokens ∧ used = [] ∧ more = [] ∨ DerivesOperands used more) ∧
          parseOperands fuel ⟨tokens, diagnostics, failed⟩ operands =
            some (some (operands ++ more), ⟨rest, diagnostics, failed⟩)) ∨
        ∃ p, parseOperands fuel ⟨tokens, diagnostics, failed⟩ operands = some (none, p) ∧
          Fails tokens p := by
  induction fuel with
  | zero => exact fun _ _ hfuel => absurd hfuel (Nat.not_lt_zero _)
  | succ fuel ih =>
    intro tokens operands hclean hfuel
    unfold parseOperands
    simp only [peek_head diagnostics failed hclean]
    by_cases hends : endsStatement (tokens.headD endOfFile) = true
    · rw [if_pos hends]
      exact Or.inl ⟨[], [], tokens, rfl, Or.inl ⟨hends, rfl, rfl⟩, by rw [List.append_nil]⟩
    · rw [if_neg hends]
      rcases parseOperand_spec diagnostics failed hclean with
        ⟨operand, used, rest, rfl, hused, hoperand, h⟩ | ⟨p, h, hfails⟩
      · rw [h]
        dsimp only
        have hrest : Clean rest := hclean.of_append
        have hlen : 0 < used.length := List.length_pos_iff.mpr hused
        rw [List.length_append] at hfuel
        cases rest with
        | nil =>
          rw [accept_nil (by decide)]
          exact Or.inl ⟨[operand], used, [], rfl, Or.inr (.one hoperand), rfl⟩
        | cons comma rest =>
          rw [accept_cons hrest.head]
          by_cases hcomma : comma.type = .comma
          · rw [if_pos hcomma]
            dsimp only
            rw [peek_head diagnostics failed hrest.tail]
            dsimp only
            by_cases htrailing : endsStatement (rest.headD endOfFile) = true
            · right
              rw [if_pos htrailing]
              refine ⟨_, rfl, rfl, ?_⟩
              exact (List.suffix_cons comma rest).trans (List.suffix_append used _)
            · rw [if_neg htrailing]
              rw [List.length_cons] at hfuel
              rcases ih (operands ++ [operand]) hrest.tail (by omega) with
                ⟨more, used', rest', rfl, hmore, h⟩ | ⟨p, h, hfails⟩
              · left
                rcases hmore with ⟨hends', -⟩ | hmore
                · exact absurd hends' htrailing
                · refine ⟨operand :: more, used ++ comma :: used', rest', by simp,
                    Or.inr (.cons hoperand hcomma hmore), ?_⟩
                  rw [h, List.append_assoc]
                  rfl
              · exact Or.inr ⟨p, h,
                  (hfails.cons comma).mono (List.suffix_append used _)⟩
          · rw [if_neg hcomma]
            exact Or.inl ⟨[operand], used, comma :: rest, rfl, Or.inr (.one hoperand), rfl⟩
      · rw [h]
        exact Or.inr ⟨p, rfl, hfails⟩

theorem parseInstruction_spec {name : Token} (hclean : Clean (name :: tokens))
    (hname : name.type = .identifier) :
    (∃ node used rest, name :: tokens = used ++ rest ∧ used ≠ [] ∧
        DerivesStatement used (.instruction node) ∧
        parseInstruction ⟨name :: tokens, diagnostics, failed⟩ =
          some (some node, ⟨rest, diagnostics, failed⟩)) ∨
      ∃ p, parseInstruction ⟨name :: tokens, diagnostics, failed⟩ = some (none, p) ∧
        Fails (name :: tokens) p := by
  unfold parseInstruction
  simp only [advance_cons hclean.head]
  rcases parseOperands_spec diagnostics failed [] hclean.tail (Nat.lt_succ_self _) with
    ⟨operands, used, rest, rfl, hoperands, h⟩ | ⟨p, h, hfails⟩
  · rw [h]
    left
    refine ⟨_, name :: used, rest, rfl, List.cons_ne_nil _ _, .instruction hname ?_, rfl⟩
    rcases hoperands with ⟨-, rfl, rfl⟩ | hoperands
    · exact .none
    · exact .some hoperands
  · rw [h]
    exact Or.inr ⟨p, rfl, hfails.cons name⟩

theorem parseDirective_spec {dot : Token} (hclean : Clean (dot :: tokens))
    (hdot : dot.type = .dot) :
    (∃ node used rest, dot :: tokens = used ++ rest ∧ used ≠ [] ∧
        DerivesStatement used (.directive node) ∧
        parseDirective ⟨dot :: tokens, diagnostics, failed⟩ =
          some (some node, ⟨rest, diagnostics, failed⟩)) ∨
      ∃ p, parseDirective ⟨dot :: tokens, diagnostics, failed⟩ = some (none, p) ∧
        Fails (dot :: tokens) p := by
  unfold parseDirective
  simp only [advance_cons hclean.head]
  rcases expect_spec diagnostics failed hclean.tail .identifier (by decide)
      "a directive name" with ⟨name, rest, rfl, hname, h⟩ | ⟨p, h, hfails⟩
  · rw [h]
    dsimp only
    cases hspelling : findDirective name.text with
    | none =>
      refine Or.inr ⟨_, rfl, rfl, ?_⟩
      exact (List.suffix_cons name rest).trans (List.suffix_cons dot _)
    | some spelling =>
      dsimp only
      by_cases hsection : spelling.implicitSection ≠ ""
      · rw [if_pos hsection]
        exact Or.inl ⟨_, [dot, name], rest, rfl, List.cons_ne_nil _ _,
          .shorthand hdot hname hspelling hsection, rfl⟩
      · rw [if_neg hsection]
        rcases parseOperands_spec diagnostics failed [] hclean.tail.tail
            (Nat.lt_succ_self _) with ⟨operands, used, rest, rfl, hoperands, h⟩ | ⟨p, h, hfails⟩
        · rw [h]
          left
          refine ⟨_, dot :: name :: used, rest, rfl, List.cons_ne_nil _ _,
            .directive hdot hname hspelling (not_not.mp hsection) ?_, rfl⟩
          rcases hoperands with ⟨-, rfl, rfl⟩ | hoperands
          · exact .none
          · exact .some hoperands
        · rw [h]
          exact Or.inr ⟨p, rfl, (hfails.cons name).cons dot⟩
  · rw [h]
    exact Or.inr ⟨p, rfl, hfails.cons dot⟩

/-- The labels of a line, in front of whatever the rest of it derives. -/
theorem parseLabels_spec {fuel : ℕ} : ∀ {tokens : List Token} (out : List Statement),
    Clean tokens → tokens.length < fuel → ∃ labels used rest, tokens = used ++ rest ∧
      (∀ {more : List Token} {statements : List Statement}, DerivesLine more statements →
        DerivesLine (used ++ more) (labels ++ statements)) ∧
      parseLabels fuel ⟨tokens, diagnostics, failed⟩ out =
        some (out ++ labels, ⟨rest, diagnostics, failed⟩) := by
  induction fuel with
  | zero => exact fun _ _ hfuel => absurd hfuel (Nat.not_lt_zero _)
  | succ fuel ih =>
    intro tokens out hclean hfuel
    have hnone : ∃ labels used rest, tokens = used ++ rest ∧
        (∀ {more : List Token} {statements : List Statement}, DerivesLine more statements →
          DerivesLine (used ++ more) (labels ++ statements)) ∧
        (some (out, ⟨tokens, diagnostics, failed⟩) : Option (List Statement × Parser)) =
          some (out ++ labels, ⟨rest, diagnostics, failed⟩) :=
      ⟨[], [], tokens, rfl, fun h => h, by rw [List.append_nil]⟩
    unfold parseLabels
    simp only [peek_of_clean hclean]
    by_cases hfirst : (tokens.getD 0 endOfFile).type = .identifier
    · rw [if_pos hfirst]
      by_cases hsecond : (tokens.getD 1 endOfFile).type = .colon
      · rw [if_pos hsecond]
        match tokens, hclean, hfuel, hfirst, hsecond with
        | name :: colon :: rest, hclean, hfuel, hfirst, hsecond =>
          simp only [advance_cons hclean.head, advance_cons hclean.tail.head]
          simp only [List.length_cons] at hfuel
          let node : LabelNode := { name := name.text, location := name.location }
          have hlabel : DerivesLabel [name, colon] node := .plain hfirst hsecond
          obtain ⟨labels, used, rest, rfl, hline, h⟩ :=
            ih (out ++ [.label node]) hclean.tail.tail (by omega)
          refine ⟨.label node :: labels, [name, colon] ++ used, rest, rfl, fun hmore => ?_, ?_⟩
          · rw [List.append_assoc]
            exact .label hlabel (hline hmore)
          · rw [h, List.append_assoc]
            rfl
      · rw [if_neg hsecond]
        exact hnone
    · rw [if_neg hfirst]
      by_cases hdot : (tokens.getD 0 endOfFile).type = .dot
      · rw [if_pos hdot]
        by_cases hsecond : (tokens.getD 1 endOfFile).type = .identifier
        · rw [if_pos hsecond]
          by_cases hthird : (tokens.getD 2 endOfFile).type = .colon
          · rw [if_pos hthird]
            match tokens, hclean, hfuel, hdot, hsecond, hthird with
            | dot :: name :: colon :: rest, hclean, hfuel, hdot, hsecond, hthird =>
              simp only [advance_cons hclean.head, advance_cons hclean.tail.head,
                advance_cons hclean.tail.tail.head]
              simp only [List.length_cons] at hfuel
              let node : LabelNode :=
                { name := str "." ++ name.text, isLocal := true,
                  location := joined dot.location name.location }
              have hlabel : DerivesLabel [dot, name, colon] node := .dotted hdot hsecond hthird
              obtain ⟨labels, used, rest, rfl, hline, h⟩ :=
                ih (out ++ [.label node]) hclean.tail.tail.tail (by omega)
              refine ⟨.label node :: labels, [dot, name, colon] ++ used, rest, rfl,
                fun hmore => ?_, ?_⟩
              · rw [List.append_assoc]
                exact .label hlabel (hline hmore)
              · rw [h, List.append_assoc]
                rfl
          · rw [if_neg hthird]
            exact hnone
        · rw [if_neg hsecond]
          exact hnone
      · rw [if_neg hdot]
        exact hnone

/-- The file ends here. -/
def Ended (tokens : List Token) : Prop := (tokens.headD endOfFile).type = .eof

/-- What is left after the end of a line. -/
def LineEnds (tokens rest : List Token) : Prop :=
  (∃ newline : Token, newline.type = .newline ∧ tokens = newline :: rest) ∨
    (Ended tokens ∧ rest = tokens)

theorem accept_newline_of_ends (hclean : Clean tokens) (h : Ends tokens) :
    ∃ rest, LineEnds tokens rest ∧
      (accept ⟨tokens, diagnostics, failed⟩ .newline).2 = ⟨rest, diagnostics, failed⟩ := by
  cases tokens with
  | nil => exact ⟨[], Or.inr ⟨rfl, rfl⟩, by rw [accept_nil (by decide)]⟩
  | cons token rest =>
    rw [accept_cons hclean.head]
    by_cases hnewline : token.type = .newline
    · exact ⟨rest, Or.inl ⟨token, hnewline, rfl⟩, by rw [if_pos hnewline]⟩
    · have heof := (endsStatement_iff.mp h).resolve_left hnewline
      exact ⟨token :: rest, Or.inr ⟨heof, rfl⟩, by rw [if_neg hnewline]⟩

theorem finishLine_spec (hclean : Clean tokens) (out : List Statement) :
    (∃ rest, LineEnds tokens rest ∧
        finishLine ⟨tokens, diagnostics, failed⟩ out =
          (true, out, ⟨rest, diagnostics, failed⟩)) ∨
      ∃ p, finishLine ⟨tokens, diagnostics, failed⟩ out = (false, out, p) ∧ Fails tokens p := by
  unfold finishLine
  simp only [peek_head diagnostics failed hclean]
  by_cases hends : endsStatement (tokens.headD endOfFile) = true
  · obtain ⟨rest, hrest, h⟩ := accept_newline_of_ends diagnostics failed hclean hends
    rw [if_pos hends, h]
    exact Or.inl ⟨rest, hrest, rfl⟩
  · rw [if_neg hends]
    exact Or.inr ⟨_, rfl, rfl, List.suffix_refl _⟩

theorem parseLine_spec (hclean : Clean tokens) (out : List Statement) :
    (∃ statements used ending rest, tokens = used ++ ending ∧ LineEnds ending rest ∧
        DerivesLine used statements ∧
        parseLine ⟨tokens, diagnostics, failed⟩ out =
          some (true, out ++ statements, ⟨rest, diagnostics, failed⟩)) ∨
      ∃ out' p, parseLine ⟨tokens, diagnostics, failed⟩ out = some (false, out', p) ∧
        Fails tokens p := by
  unfold parseLine
  obtain ⟨labels, used, rest, rfl, hline, h⟩ :=
    parseLabels_spec diagnostics failed out hclean (Nat.lt_succ_self _)
  have hrest := hclean.of_append
  rw [h]
  simp only [peek_head diagnostics failed hrest]
  by_cases hends : endsStatement (rest.headD endOfFile) = true
  · obtain ⟨rest', hends', haccept⟩ := accept_newline_of_ends diagnostics failed hrest hends
    rw [if_pos hends, haccept]
    left
    refine ⟨labels, used, rest, rest', rfl, hends', ?_, rfl⟩
    simpa using hline .empty
  · rw [if_neg hends]
    have hstatement : ∀ {statement : Statement} {body after : List Token},
        rest = body ++ after → DerivesStatement body statement →
        (∃ statements used' ending rest', used ++ rest = used' ++ ending ∧
            LineEnds ending rest' ∧ DerivesLine used' statements ∧
            some (finishLine ⟨after, diagnostics, failed⟩ (out ++ labels ++ [statement])) =
              some (true, out ++ statements, ⟨rest', diagnostics, failed⟩)) ∨
          ∃ out' p, some (finishLine ⟨after, diagnostics, failed⟩ (out ++ labels ++ [statement])) =
              some (false, out', p) ∧ Fails (used ++ rest) p := by
      intro statement body after hbody hderives
      subst hbody
      rcases finishLine_spec diagnostics failed hrest.of_append (out ++ labels ++ [statement]) with
        ⟨rest', hends', h⟩ | ⟨p, h, hfails⟩
      · rw [h]
        exact Or.inl ⟨labels ++ [statement], used ++ body, after, rest',
          by rw [List.append_assoc], hends', hline (.statement hderives),
          by rw [List.append_assoc]⟩
      · rw [h]
        refine Or.inr ⟨_, p, rfl, hfails.mono ?_⟩
        exact (List.suffix_append body after).trans (List.suffix_append used _)
    by_cases hdot : (rest.headD endOfFile).type = .dot
    · rw [if_pos hdot]
      cases rest with
      | nil => exact absurd rfl hends
      | cons token rest =>
        rcases parseDirective_spec diagnostics failed hrest hdot with
          ⟨node, body, after, hbody, -, hderives, h⟩ | ⟨p, h, hfails⟩
        · rw [h]
          exact hstatement hbody hderives
        · rw [h]
          exact Or.inr ⟨_, p, rfl, hfails.mono (List.suffix_append used _)⟩
    · rw [if_neg hdot]
      by_cases hname : (rest.headD endOfFile).type = .identifier
      · rw [if_pos hname]
        cases rest with
        | nil => exact absurd rfl hends
        | cons token rest =>
          rcases parseInstruction_spec diagnostics failed hrest hname with
            ⟨node, body, after, hbody, -, hderives, h⟩ | ⟨p, h, hfails⟩
          · rw [h]
            exact hstatement hbody hderives
          · rw [h]
            exact Or.inr ⟨_, p, rfl, hfails.mono (List.suffix_append used _)⟩
      · rw [if_neg hname]
        exact Or.inr ⟨_, _, rfl, rfl, List.suffix_append used _⟩

theorem skipTokens_suffix (tokens : List Token) : (skipTokens tokens).1 <:+ tokens := by
  induction tokens with
  | nil => exact List.suffix_refl _
  | cons token rest ih =>
    unfold skipTokens
    split_ifs
    · exact ih.trans (List.suffix_cons _ _)
    · exact List.suffix_refl _
    · exact ih.trans (List.suffix_cons _ _)

theorem skipTokens_lt (hclean : Clean tokens) (h : ¬Ends tokens) :
    (skipTokens tokens).1.length < tokens.length := by
  cases tokens with
  | nil => exact absurd rfl h
  | cons token rest =>
    unfold skipTokens
    rw [if_neg hclean.head, if_neg (show ¬endsStatement token = true from h)]
    exact Nat.lt_succ_of_le (skipTokens_suffix rest).length_le

theorem skipTokens_of_clean (hclean : Clean tokens) : (skipTokens tokens).2 = [] := by
  induction tokens with
  | nil => rfl
  | cons token rest ih =>
    unfold skipTokens
    rw [if_neg hclean.head]
    split_ifs
    · rfl
    · exact ih hclean.tail

/-- After a malformed line the parser goes on with the next one. -/
theorem skipToEndOfLine_spec {p : Parser} (hclean : Clean tokens) (hends : ¬Ends tokens)
    (h : Fails tokens p) : p.skipToEndOfLine.failed = true ∧
      p.skipToEndOfLine.tokens <:+ tokens ∧
      p.skipToEndOfLine.tokens.length < tokens.length := by
  obtain ⟨hfailed, hsuffix⟩ := h
  have hp : Clean p.tokens := fun t ht => hclean t (hsuffix.subset ht)
  have hlt : (skipTokens p.tokens).1.length < tokens.length := by
    rcases Nat.lt_or_ge p.tokens.length tokens.length with hlt | hge
    · exact lt_of_le_of_lt (skipTokens_suffix _).length_le hlt
    · rw [hsuffix.eq_of_length (le_antisymm hsuffix.length_le hge)]
      exact skipTokens_lt hclean hends
  have hskip := (skipTokens_suffix p.tokens).trans hsuffix
  unfold skipToEndOfLine
  simp only [skipTokens_of_clean hp, reportErrors_nil]
  have hrest : Clean (skipTokens p.tokens).1 := fun t ht => hclean t (hskip.subset ht)
  generalize (skipTokens p.tokens).1 = rest at hlt hskip hrest
  cases rest with
  | nil =>
    rw [accept_nil (by decide)]
    exact ⟨hfailed, hskip, hlt⟩
  | cons token rest =>
    rw [accept_cons hrest.head]
    split_ifs
    · exact ⟨hfailed, (List.suffix_cons _ _).trans hskip, Nat.lt_of_succ_lt hlt⟩
    · exact ⟨hfailed, hskip, hlt⟩

/-- The loop over the lines ends, with a program that is derived or with something reported. -/
theorem parseLines_spec {fuel : ℕ} : ∀ {tokens : List Token} (diagnostics : DiagnosticEngine)
    (failed : Bool) (out : List Statement), Clean tokens → tokens.length < fuel →
      ∃ out' p, parseLines fuel ⟨tokens, diagnostics, failed⟩ out = some (out', p) ∧
        ((∃ statements used rest, tokens = used ++ rest ∧ Ended rest ∧
            DerivesProgram used statements ∧ out' = out ++ statements ∧
            p = ⟨rest, diagnostics, failed⟩) ∨ p.failed = true) := by
  induction fuel with
  | zero => exact fun _ _ _ _ hfuel => absurd hfuel (Nat.not_lt_zero _)
  | succ fuel ih =>
    intro tokens diagnostics failed out hclean hfuel
    by_cases heof : (tokens.headD endOfFile).type = .eof
    · unfold parseLines
      simp only [peek_head diagnostics failed hclean]
      rw [if_pos heof]
      exact ⟨out, _, rfl, Or.inl ⟨[], [], tokens, rfl, heof, .last .empty,
        by rw [List.append_nil], rfl⟩⟩
    cases tokens with
    | nil => exact absurd rfl heof
    | cons token rest =>
      unfold parseLines
      simp only [peek_head diagnostics failed hclean]
      rw [if_neg heof, accept_cons hclean.head]
      by_cases hnewline : token.type = .newline
      · rw [if_pos hnewline]
        dsimp only
        rw [List.length_cons] at hfuel
        obtain ⟨out', p, hlines, hresult⟩ := ih diagnostics failed out hclean.tail (by omega)
        refine ⟨out', p, hlines, ?_⟩
        rcases hresult with ⟨later, used, rest', rfl, hended, hlater, rfl, rfl⟩ | hfailed
        · exact Or.inl ⟨later, token :: used, rest', rfl, hended,
            .line .empty hnewline hlater, rfl, rfl⟩
        · exact Or.inr hfailed
      · -- the first token ends no line: the rest of the line is parsed
        have hends : ¬Ends (token :: rest) := by
          intro hends
          rcases endsStatement_iff.mp hends with h | h
          · exact hnewline h
          · exact heof h
        rw [if_neg hnewline]
        dsimp only
        generalize token :: rest = tokens at hclean hfuel heof hends ⊢
        rcases parseLine_spec diagnostics failed hclean out with
          ⟨statements, used, ending, rest, rfl, hending, hderives, h⟩ | ⟨out', p, h, hfails⟩
        · rw [h]
          dsimp only
          rcases hending with ⟨newline, hnewline, rfl⟩ | ⟨hended, rfl⟩
          · rw [List.length_append, List.length_cons] at hfuel
            obtain ⟨out', p, hlines, hresult⟩ := ih diagnostics failed (out ++ statements)
              hclean.of_append.tail (by omega)
            refine ⟨out', p, hlines, ?_⟩
            rcases hresult with ⟨later, used', rest', rfl, hended, hlater, rfl, rfl⟩ | hfailed
            · exact Or.inl ⟨statements ++ later, used ++ newline :: used', rest', by simp, hended,
                .line hderives hnewline hlater, by rw [List.append_assoc], rfl⟩
            · exact Or.inr hfailed
          · have hused : used ≠ [] := by
              rintro rfl
              exact heof hended
            have hlen := List.length_pos_iff.mpr hused
            rw [List.length_append] at hfuel
            have hzero : fuel ≠ 0 := by omega
            obtain ⟨fuel, rfl⟩ := Nat.exists_eq_succ_of_ne_zero hzero
            refine ⟨out ++ statements, _, ?_, Or.inl ⟨statements, used, rest, rfl, hended,
              .last hderives, rfl, rfl⟩⟩
            unfold parseLines
            simp only [peek_head diagnostics failed hclean.of_append]
            rw [if_pos (show (rest.headD endOfFile).type = .eof from hended)]
        · rw [h]
          dsimp only
          obtain ⟨hfailed, hsuffix, hlt⟩ := skipToEndOfLine_spec hclean hends hfails
          obtain ⟨out'', p', hlines, hresult⟩ := ih p.skipToEndOfLine.diagnostics
            p.skipToEndOfLine.failed out' (fun t ht => hclean t (hsuffix.subset ht)) (by omega)
          refine ⟨out'', p', hlines, Or.inr ?_⟩
          rcases hresult with ⟨_, _, _, -, -, -, -, rfl⟩ | hfailed'
          · exact hfailed
          · exact hfailed'

/-! ### What is derived is returned -/

/-- What follows cannot continue a symbol. -/
def NoOffset (tokens : List Token) : Prop :=
  ¬((tokens.headD endOfFile).type = .plus ∨ (tokens.headD endOfFile).type = .minus)

theorem ne_error {token : Token} {type : TokenType} (h : token.type = type)
    (htype : type ≠ .error) : token.type ≠ .error := h ▸ htype

theorem parseSymbolExpression_of_noOffset (hclean : Clean tokens) (h : NoOffset tokens) (name : Str)
    (location : SourceLocation) :
    parseSymbolExpression ⟨tokens, diagnostics, failed⟩ name location =
      (some { type := .symbol, symbol := name, location }, ⟨tokens, diagnostics, failed⟩) := by
  unfold parseSymbolExpression
  simp only [peek_head diagnostics failed hclean]
  rw [if_neg h]

theorem parseSymbolExpression_of_offset {offset : List Token} {value : Int64}
    {last : SourceLocation} (h : DerivesOffset offset value last) (rest : List Token) (name : Str)
    (location : SourceLocation) :
    parseSymbolExpression ⟨offset ++ rest, diagnostics, failed⟩ name location =
      (some { type := .symbol, symbol := name, immediate := value,
              location := spanTo location last }, ⟨rest, diagnostics, failed⟩) := by
  cases h with
  | plus hsign hvalue =>
    simp [parseSymbolExpression, peek_cons (ne_error hsign (by decide)),
      advance_cons (ne_error hsign (by decide)), expect_cons (ne_error hvalue (by decide)) hvalue,
      hsign, signed]
  | minus hsign hvalue =>
    simp [parseSymbolExpression, peek_cons (ne_error hsign (by decide)),
      advance_cons (ne_error hsign (by decide)), expect_cons (ne_error hvalue (by decide)) hvalue,
      hsign, signed_true]

theorem parseOperand_of_symbol {name : Str} {location : SourceLocation}
    (h : DerivesSymbol tokens name location) (rest : List Token) :
    parseOperand ⟨tokens ++ rest, diagnostics, failed⟩ =
      parseSymbolExpression ⟨rest, diagnostics, failed⟩ name location := by
  cases h with
  | plain hname =>
    simp [parseOperand, peek_cons (ne_error hname (by decide)),
      advance_cons (ne_error hname (by decide)), hname]
  | dotted hdot hname =>
    simp [parseOperand, peek_cons (ne_error hdot (by decide)),
      advance_cons (ne_error hdot (by decide)), expect_cons (ne_error hname (by decide)) hname,
      hdot]

theorem parseOperand_of_derives {operand : Operand} (h : DerivesOperand tokens operand)
    {rest : List Token} (hclean : Clean rest) (hrest : NoOffset rest) :
    parseOperand ⟨tokens ++ rest, diagnostics, failed⟩ =
      (some operand, ⟨rest, diagnostics, failed⟩) := by
  cases h with
  | register h =>
    simp [parseOperand, peek_cons (ne_error h (by decide)),
      advance_cons (ne_error h (by decide)), h, registerOf]
  | hash hhash hvalue =>
    simp [parseOperand, peek_cons (ne_error hhash (by decide)),
      advance_cons (ne_error hhash (by decide)), expect_cons (ne_error hvalue (by decide)) hvalue,
      hhash]
  | constant h =>
    rcases h with h | h <;>
      simp [parseOperand, peek_cons (ne_error h (by decide)), advance_cons (ne_error h (by decide)),
        h]
  | symbol h =>
    rw [parseOperand_of_symbol diagnostics failed h,
      parseSymbolExpression_of_noOffset diagnostics failed hclean hrest]
  | symbolOffset h hoffset =>
    rw [List.append_assoc, parseOperand_of_symbol diagnostics failed h,
      parseSymbolExpression_of_offset diagnostics failed hoffset]
  | memory hopening hbase hclosing =>
    simp [parseOperand, peek_cons (ne_error hopening (by decide)), parseMemoryOperand,
      advance_cons (ne_error hopening (by decide)), expect_cons (ne_error hbase (by decide)) hbase,
      peek_cons (ne_error hclosing (by decide)), closeMemory,
      expect_cons (ne_error hclosing (by decide)) hclosing, hopening, hclosing, registerOf]
  | memoryOffset hopening hbase hoffset hclosing =>
    cases hoffset with
    | plus hsign hvalue =>
      simp [parseOperand, peek_cons (ne_error hopening (by decide)), parseMemoryOperand,
        advance_cons (ne_error hopening (by decide)),
          expect_cons (ne_error hbase (by decide)) hbase,
        peek_cons (ne_error hsign (by decide)), advance_cons (ne_error hsign (by decide)),
        expect_cons (ne_error hvalue (by decide)) hvalue, closeMemory,
        expect_cons (ne_error hclosing (by decide)) hclosing, hopening, hsign, registerOf, signed]
    | minus hsign hvalue =>
      simp [parseOperand, peek_cons (ne_error hopening (by decide)), parseMemoryOperand,
        advance_cons (ne_error hopening (by decide)),
          expect_cons (ne_error hbase (by decide)) hbase,
        peek_cons (ne_error hsign (by decide)), advance_cons (ne_error hsign (by decide)),
        expect_cons (ne_error hvalue (by decide)) hvalue, closeMemory,
        expect_cons (ne_error hclosing (by decide)) hclosing, hopening, hsign, registerOf,
        signed_true]
  | string h =>
    simp [parseOperand, peek_cons (ne_error h (by decide)),
      advance_cons (ne_error h (by decide)), h]

/-- An operand starts with none of the tokens that end a statement or a label. -/
theorem head_of_derivesOperand {operand : Operand} (h : DerivesOperand tokens operand) :
    ∃ token rest, tokens = token :: rest ∧ endsStatement token = false ∧ token.type ≠ .colon := by
  have hhead : ∀ {token : Token} {type : TokenType}, token.type = type → type ≠ .newline →
      type ≠ .eof → type ≠ .colon → endsStatement token = false ∧ token.type ≠ .colon := by
    intro token type h hnewline heof hcolon
    rw [h]
    exact ⟨by simp [endsStatement, h, hnewline, heof], hcolon⟩
  have hsymbol : ∀ {tokens : List Token} {name : Str} {location : SourceLocation},
      DerivesSymbol tokens name location →
      ∃ token rest, tokens = token :: rest ∧ endsStatement token = false ∧ token.type ≠ .colon := by
    intro tokens name location h
    cases h with
    | plain hname => exact ⟨_, _, rfl, hhead hname (by decide) (by decide) (by decide)⟩
    | dotted hdot hname => exact ⟨_, _, rfl, hhead hdot (by decide) (by decide) (by decide)⟩
  cases h with
  | register h => exact ⟨_, _, rfl, hhead h (by decide) (by decide) (by decide)⟩
  | hash hhash hvalue => exact ⟨_, _, rfl, hhead hhash (by decide) (by decide) (by decide)⟩
  | constant h =>
    rcases h with h | h
    · exact ⟨_, _, rfl, hhead h (by decide) (by decide) (by decide)⟩
    · exact ⟨_, _, rfl, hhead h (by decide) (by decide) (by decide)⟩
  | symbol h => exact hsymbol h
  | symbolOffset h hoffset =>
    obtain ⟨token, rest, rfl, hends, hcolon⟩ := hsymbol h
    exact ⟨token, _, rfl, hends, hcolon⟩
  | memory hopening hbase hclosing =>
    exact ⟨_, _, rfl, hhead hopening (by decide) (by decide) (by decide)⟩
  | memoryOffset hopening hbase hoffset hclosing =>
    exact ⟨_, _, rfl, hhead hopening (by decide) (by decide) (by decide)⟩
  | string h => exact ⟨_, _, rfl, hhead h (by decide) (by decide) (by decide)⟩

theorem head_of_derivesOperands {operands : List Operand} (h : DerivesOperands tokens operands) :
    ∃ token rest, tokens = token :: rest ∧ endsStatement token = false ∧ token.type ≠ .colon := by
  cases h with
  | one h => exact head_of_derivesOperand h
  | cons h hcomma hrest =>
    obtain ⟨token, rest, rfl, hends, hcolon⟩ := head_of_derivesOperand h
    exact ⟨token, _, rfl, hends, hcolon⟩

theorem noOffset_of_ends (h : Ends tokens) : NoOffset tokens := by
  unfold NoOffset
  rcases endsStatement_iff.mp h with h | h
  · rw [h]
    decide
  · rw [h]
    decide

theorem parseOperands_of_derives {more : List Operand} (h : DerivesOperands tokens more)
    {rest : List Token} (hends : Ends rest) :
    ∀ {fuel : ℕ} (operands : List Operand), Clean (tokens ++ rest) → tokens.length < fuel →
      parseOperands fuel ⟨tokens ++ rest, diagnostics, failed⟩ operands =
        some (some (operands ++ more), ⟨rest, diagnostics, failed⟩) := by
  induction h with
  | @one tokens operand h =>
    intro fuel operands hclean hfuel
    obtain ⟨fuel, rfl⟩ := Nat.exists_eq_succ_of_ne_zero (Nat.ne_zero_of_lt hfuel)
    have hrest : Clean rest := hclean.of_append
    have hstart : endsStatement ((tokens ++ rest).headD endOfFile) = false := by
      obtain ⟨token, _, rfl, hstart, -⟩ := head_of_derivesOperand h
      exact hstart
    unfold parseOperands
    simp only [peek_head diagnostics failed hclean]
    rw [if_neg (by rw [hstart]; decide),
      parseOperand_of_derives diagnostics failed h hrest (noOffset_of_ends hends)]
    dsimp only
    cases rest with
    | nil => rw [accept_nil (by decide)]
    | cons token rest =>
      have hcomma : token.type ≠ .comma := fun hcomma =>
        not_endsStatement hcomma (by decide) (by decide) hends
      rw [accept_cons hrest.head, if_neg hcomma]
  | @cons tokens later comma operand more h hcomma hlater ih =>
    intro fuel operands hclean hfuel
    rw [List.append_assoc, List.cons_append] at hclean ⊢
    obtain ⟨fuel, rfl⟩ := Nat.exists_eq_succ_of_ne_zero (Nat.ne_zero_of_lt hfuel)
    have hafter : Clean (comma :: (later ++ rest)) := hclean.of_append
    have hstart : endsStatement ((tokens ++ comma :: (later ++ rest)).headD endOfFile) = false := by
      obtain ⟨token, _, rfl, hstart, -⟩ := head_of_derivesOperand h
      exact hstart
    have hnext : endsStatement ((later ++ rest).headD endOfFile) = false := by
      obtain ⟨token, _, rfl, hstart, -⟩ := head_of_derivesOperands hlater
      exact hstart
    have hno : NoOffset (comma :: (later ++ rest)) := by
      show ¬(comma.type = .plus ∨ comma.type = .minus)
      rw [hcomma]
      decide
    rw [List.length_append, List.length_cons] at hfuel
    unfold parseOperands
    simp only [peek_head diagnostics failed hclean]
    rw [if_neg (by rw [hstart]; decide), parseOperand_of_derives diagnostics failed h hafter hno]
    dsimp only
    rw [accept_cons hafter.head, if_pos hcomma]
    dsimp only
    rw [peek_head diagnostics failed hafter.tail]
    dsimp only
    rw [if_neg (by rw [hnext]; decide), ih (operands ++ [operand]) hafter.tail (by omega),
      List.append_assoc]
    rfl

theorem parseOperands_of_arguments {operands : List Operand}
    (h : DerivesArguments tokens operands) {rest : List Token} (hends : Ends rest)
    (hclean : Clean (tokens ++ rest)) :
    parseOperands ((tokens ++ rest).length + 1) ⟨tokens ++ rest, diagnostics, failed⟩ [] =
      some (some operands, ⟨rest, diagnostics, failed⟩) := by
  cases h with
  | none =>
    unfold parseOperands
    rw [List.nil_append] at hclean ⊢
    rw [peek_head diagnostics failed hclean]
    dsimp only
    rw [if_pos (show endsStatement (rest.headD endOfFile) = true from hends)]
  | some h =>
    exact parseOperands_of_derives diagnostics failed h hends [] hclean
      (by rw [List.length_append]; omega)

/-- The arguments of a statement and what ends it do not start with a colon. -/
theorem head_arguments_ne_colon {operands : List Operand} (h : DerivesArguments tokens operands)
    {rest : List Token} (hends : Ends rest) :
    ((tokens ++ rest).headD endOfFile).type ≠ .colon := by
  cases h with
  | none =>
    rw [List.nil_append]
    rcases endsStatement_iff.mp hends with h | h
    · rw [h]
      decide
    · rw [h]
      decide
  | some h =>
    obtain ⟨token, _, rfl, -, hcolon⟩ := head_of_derivesOperands h
    exact hcolon

/-- A statement does not look like a label. -/
theorem parseLabels_of_statement {statement : Statement} (h : DerivesStatement tokens statement)
    {rest : List Token} (hends : Ends rest) (hclean : Clean (tokens ++ rest)) {fuel : ℕ}
    (hfuel : 0 < fuel) (out : List Statement) :
    parseLabels fuel ⟨tokens ++ rest, diagnostics, failed⟩ out =
      some (out, ⟨tokens ++ rest, diagnostics, failed⟩) := by
  obtain ⟨fuel, rfl⟩ := Nat.exists_eq_succ_of_ne_zero (Nat.ne_of_gt hfuel)
  unfold parseLabels
  simp only [peek_of_clean hclean]
  have hgetD : ∀ tokens : List Token, tokens.getD 0 endOfFile = tokens.headD endOfFile := by
    intro tokens
    cases tokens <;> rfl
  cases h with
  | instruction hname harguments =>
    have hcolon := head_arguments_ne_colon harguments hends
    simp only [List.cons_append, List.getD_cons_succ, hgetD, List.headD_cons, hname, if_true]
    rw [if_neg hcolon]
  | directive hdot hname hspelling hplain harguments =>
    have hcolon := head_arguments_ne_colon harguments hends
    simp only [List.cons_append, List.getD_cons_succ, hgetD, List.headD_cons, hdot, hname]
    rw [if_neg (by decide), if_pos trivial, if_pos trivial, if_neg hcolon]
  | shorthand hdot hname hspelling hsection =>
    have hcolon : (rest.headD endOfFile).type ≠ .colon := head_arguments_ne_colon .none hends
    simp only [List.cons_append, List.nil_append, List.getD_cons_succ, hgetD, List.headD_cons, hdot,
      hname]
    rw [if_neg (by decide), if_pos trivial, if_pos trivial, if_neg hcolon]

/-- The labels of a line, and the statement they leave. -/
theorem parseLabels_of_derives {statements : List Statement} (h : DerivesLine tokens statements)
    {rest : List Token} (hends : Ends rest) :
    ∀ {fuel : ℕ} (out : List Statement), Clean (tokens ++ rest) → tokens.length < fuel →
      ∃ labels body later, statements = labels ++ later ∧
        (body = [] ∧ later = [] ∨ ∃ statement, DerivesStatement body statement ∧
          later = [statement]) ∧ Clean (body ++ rest) ∧
        parseLabels fuel ⟨tokens ++ rest, diagnostics, failed⟩ out =
          some (out ++ labels, ⟨body ++ rest, diagnostics, failed⟩) := by
  induction h with
  | empty =>
    intro fuel out hclean hfuel
    obtain ⟨fuel, rfl⟩ := Nat.exists_eq_succ_of_ne_zero (Nat.ne_of_gt hfuel)
    refine ⟨[], [], [], rfl, Or.inl ⟨rfl, rfl⟩, hclean, ?_⟩
    have hhead : (rest.getD 0 endOfFile).type = .newline ∨
        (rest.getD 0 endOfFile).type = .eof := by
      cases rest with
      | nil => exact Or.inr rfl
      | cons token rest => exact endsStatement_iff.mp hends
    unfold parseLabels
    rw [List.nil_append] at hclean ⊢
    simp only [peek_of_clean hclean, List.append_nil]
    rcases hhead with h | h
    · rw [h, if_neg (by decide), if_neg (by decide)]
    · rw [h, if_neg (by decide), if_neg (by decide)]
  | @statement tokens statement h =>
    intro fuel out hclean hfuel
    refine ⟨[], tokens, [statement], rfl, Or.inr ⟨statement, h, rfl⟩, hclean, ?_⟩
    rw [parseLabels_of_statement diagnostics failed h hends hclean (Nat.zero_lt_of_lt hfuel),
      List.append_nil]
  | @label tokens more node statements h hrest ih =>
    intro fuel out hclean hfuel
    rw [List.append_assoc] at hclean ⊢
    obtain ⟨fuel, rfl⟩ := Nat.exists_eq_succ_of_ne_zero (Nat.ne_zero_of_lt hfuel)
    rw [List.length_append] at hfuel
    have hmore : Clean (more ++ rest) := hclean.of_append
    have hlen : 0 < tokens.length := by cases h <;> exact Nat.succ_pos _
    have hstep : parseLabels (fuel + 1) ⟨tokens ++ (more ++ rest), diagnostics, failed⟩ out =
        parseLabels fuel ⟨more ++ rest, diagnostics, failed⟩ (out ++ [.label node]) := by
      conv_lhs => unfold parseLabels
      simp only [peek_of_clean hclean]
      cases h with
      | plain hname hcolon =>
        simp [hname, hcolon, advance_cons (ne_error hname (by decide)),
          advance_cons (ne_error hcolon (by decide))]
      | dotted hdot hname hcolon =>
        simp [hdot, hname, hcolon, advance_cons (ne_error hdot (by decide)),
          advance_cons (ne_error hname (by decide)), advance_cons (ne_error hcolon (by decide))]
    obtain ⟨labels, body, later, rfl, hbody, hclean', h'⟩ :=
      ih (out ++ [.label node]) hmore (show more.length < fuel by omega)
    refine ⟨.label node :: labels, body, later, rfl, hbody, hclean', ?_⟩
    rw [hstep, h', List.append_assoc]
    rfl

theorem finishLine_of_ends {rest rest' : List Token} (hclean : Clean rest)
    (hrest : LineEnds rest rest') (out : List Statement) :
    finishLine ⟨rest, diagnostics, failed⟩ out = (true, out, ⟨rest', diagnostics, failed⟩) := by
  unfold finishLine
  simp only [peek_head diagnostics failed hclean]
  rcases hrest with ⟨newline, hnewline, rfl⟩ | ⟨hended, rfl⟩
  · rw [List.headD_cons, if_pos (endsStatement_iff.mpr (Or.inl hnewline)),
      accept_cons hclean.head, if_pos hnewline]
  · rw [if_pos (endsStatement_iff.mpr (Or.inr hended))]
    cases rest' with
    | nil => rw [accept_nil (by decide)]
    | cons token rest =>
      have hnewline : token.type ≠ .newline := by
        intro hnewline
        rw [show token.type = .eof from hended] at hnewline
        cases hnewline
      rw [accept_cons hclean.head, if_neg hnewline]

theorem ends_of_lineEnds {rest rest' : List Token} (h : LineEnds rest rest') : Ends rest := by
  rcases h with ⟨newline, hnewline, rfl⟩ | ⟨hended, rfl⟩
  · exact endsStatement_iff.mpr (Or.inl hnewline)
  · exact endsStatement_iff.mpr (Or.inr hended)

theorem parseLine_of_derives {statements : List Statement} (h : DerivesLine tokens statements)
    {rest rest' : List Token} (hrest : LineEnds rest rest') (hclean : Clean (tokens ++ rest))
    (out : List Statement) :
    parseLine ⟨tokens ++ rest, diagnostics, failed⟩ out =
      some (true, out ++ statements, ⟨rest', diagnostics, failed⟩) := by
  have hends := ends_of_lineEnds hrest
  have hcleanRest : Clean rest := hclean.of_append
  obtain ⟨labels, body, later, rfl, hbody, hclean', hlabels⟩ :=
    parseLabels_of_derives diagnostics failed h hends out hclean
      (show tokens.length < (tokens ++ rest).length + 1 by rw [List.length_append]; omega)
  have hfinish := finishLine_of_ends diagnostics failed hcleanRest hrest
  unfold parseLine
  rw [hlabels]
  simp only [peek_head diagnostics failed hclean']
  rcases hbody with ⟨rfl, rfl⟩ | ⟨statement, hstatement, rfl⟩
  · have hline := hfinish (out ++ labels)
    unfold finishLine at hline
    rw [peek_head diagnostics failed hcleanRest] at hline
    dsimp only at hline
    rw [List.nil_append, if_pos (show endsStatement (rest.headD endOfFile) = true from hends),
      List.append_nil]
    rw [if_pos (show endsStatement (rest.headD endOfFile) = true from hends)] at hline
    exact congrArg some hline
  · cases hstatement with
    | @instruction name arguments operands hname harguments =>
      have hhead : ((name :: arguments ++ rest).headD endOfFile).type = .identifier := hname
      rw [if_neg (not_endsStatement hhead (by decide) (by decide)), if_neg (by rw [hhead]; decide),
        if_pos hhead]
      rw [List.cons_append] at hclean' ⊢
      unfold parseInstruction
      simp only [advance_cons hclean'.head]
      rw [parseOperands_of_arguments diagnostics failed harguments hends hclean'.tail]
      dsimp only
      rw [hfinish, List.append_assoc]
    | @directive dot name arguments operands spelling hdot hname hspelling hplain harguments =>
      have hhead : ((dot :: name :: arguments ++ rest).headD endOfFile).type = .dot := hdot
      rw [if_neg (not_endsStatement hhead (by decide) (by decide)), if_pos hhead]
      rw [List.cons_append, List.cons_append] at hclean' ⊢
      unfold parseDirective
      simp only [advance_cons hclean'.head]
      rw [expect_cons hclean'.tail.head hname]
      dsimp only
      rw [hspelling]
      dsimp only
      rw [if_neg (not_not.mpr hplain),
        parseOperands_of_arguments diagnostics failed harguments hends hclean'.tail.tail]
      dsimp only
      rw [hfinish, List.append_assoc]
    | @shorthand dot name spelling hdot hname hspelling hsection =>
      have hhead : (([dot, name] ++ rest).headD endOfFile).type = .dot := hdot
      rw [if_neg (not_endsStatement hhead (by decide) (by decide)), if_pos hhead]
      rw [List.cons_append, List.cons_append, List.nil_append] at hclean' ⊢
      unfold parseDirective
      simp only [advance_cons hclean'.head]
      rw [expect_cons hclean'.tail.head hname]
      dsimp only
      rw [hspelling]
      dsimp only
      rw [if_pos hsection]
      dsimp only
      rw [hfinish, List.append_assoc]

/-- The end of the file is not among the tokens. -/
def NoEof (tokens : List Token) : Prop := ∀ token ∈ tokens, token.type ≠ .eof

theorem noEof_nil : NoEof [] := by simp [NoEof]

theorem noEof_cons {token : Token} {type : TokenType} (h : token.type = type) (htype : type ≠ .eof)
    (htokens : NoEof tokens) : NoEof (token :: tokens) := by
  intro t ht
  rcases List.mem_cons.mp ht with rfl | ht
  · rw [h]
    exact htype
  · exact htokens t ht

theorem noEof_append {more : List Token} (h : NoEof tokens) (hmore : NoEof more) :
    NoEof (tokens ++ more) := by
  intro t ht
  rcases List.mem_append.mp ht with ht | ht
  · exact h t ht
  · exact hmore t ht

theorem noEof_of_derivesSymbol {name : Str} {location : SourceLocation}
    (h : DerivesSymbol tokens name location) : NoEof tokens := by
  cases h with
  | plain hname => exact noEof_cons hname (by decide) noEof_nil
  | dotted hdot hname =>
    exact noEof_cons hdot (by decide) (noEof_cons hname (by decide) noEof_nil)

theorem noEof_of_derivesOffset {value : Int64} {last : SourceLocation}
    (h : DerivesOffset tokens value last) : NoEof tokens := by
  cases h with
  | plus hsign hvalue =>
    exact noEof_cons hsign (by decide) (noEof_cons hvalue (by decide) noEof_nil)
  | minus hsign hvalue =>
    exact noEof_cons hsign (by decide) (noEof_cons hvalue (by decide) noEof_nil)

theorem noEof_of_derivesOperand {operand : Operand} (h : DerivesOperand tokens operand) :
    NoEof tokens := by
  cases h with
  | register h => exact noEof_cons h (by decide) noEof_nil
  | hash hhash hvalue =>
    exact noEof_cons hhash (by decide) (noEof_cons hvalue (by decide) noEof_nil)
  | constant h =>
    rcases h with h | h
    · exact noEof_cons h (by decide) noEof_nil
    · exact noEof_cons h (by decide) noEof_nil
  | symbol h => exact noEof_of_derivesSymbol h
  | symbolOffset h hoffset =>
    exact noEof_append (noEof_of_derivesSymbol h) (noEof_of_derivesOffset hoffset)
  | memory hopening hbase hclosing =>
    exact noEof_cons hopening (by decide)
      (noEof_cons hbase (by decide) (noEof_cons hclosing (by decide) noEof_nil))
  | memoryOffset hopening hbase hoffset hclosing =>
    exact noEof_cons hopening (by decide) (noEof_cons hbase (by decide)
      (noEof_append (noEof_of_derivesOffset hoffset) (noEof_cons hclosing (by decide) noEof_nil)))
  | string h => exact noEof_cons h (by decide) noEof_nil

theorem noEof_of_derivesOperands {operands : List Operand} (h : DerivesOperands tokens operands) :
    NoEof tokens := by
  induction h with
  | one h => exact noEof_of_derivesOperand h
  | cons h hcomma _ ih =>
    exact noEof_append (noEof_of_derivesOperand h) (noEof_cons hcomma (by decide) ih)

theorem noEof_of_derivesArguments {operands : List Operand}
    (h : DerivesArguments tokens operands) : NoEof tokens := by
  cases h with
  | none => exact noEof_nil
  | some h => exact noEof_of_derivesOperands h

theorem noEof_of_derivesLine {statements : List Statement} (h : DerivesLine tokens statements) :
    NoEof tokens := by
  induction h with
  | empty => exact noEof_nil
  | statement h =>
    cases h with
    | instruction hname harguments =>
      exact noEof_cons hname (by decide) (noEof_of_derivesArguments harguments)
    | directive hdot hname _ _ harguments =>
      exact noEof_cons hdot (by decide)
        (noEof_cons hname (by decide) (noEof_of_derivesArguments harguments))
    | shorthand hdot hname _ _ =>
      exact noEof_cons hdot (by decide) (noEof_cons hname (by decide) noEof_nil)
  | label h _ ih =>
    cases h with
    | plain hname hcolon =>
      exact noEof_append
        (noEof_cons hname (by decide) (noEof_cons hcolon (by decide) noEof_nil)) ih
    | dotted hdot hname hcolon =>
      exact noEof_append (noEof_cons hdot (by decide)
        (noEof_cons hname (by decide) (noEof_cons hcolon (by decide) noEof_nil))) ih

theorem noEof_of_derivesProgram {statements : List Statement}
    (h : DerivesProgram tokens statements) : NoEof tokens := by
  induction h with
  | last h => exact noEof_of_derivesLine h
  | line h hnewline _ ih =>
    exact noEof_append (noEof_of_derivesLine h) (noEof_cons hnewline (by decide) ih)

/-- A line that derives something starts with a name or a dot. -/
theorem nil_or_head_of_derivesLine {statements : List Statement}
    (h : DerivesLine tokens statements) : (tokens = [] ∧ statements = []) ∨
      ∃ token rest, tokens = token :: rest ∧
        (token.type = .identifier ∨ token.type = .dot) := by
  cases h with
  | empty => exact Or.inl ⟨rfl, rfl⟩
  | statement h =>
    right
    cases h with
    | instruction hname _ => exact ⟨_, _, rfl, Or.inl hname⟩
    | directive hdot _ _ _ _ => exact ⟨_, _, rfl, Or.inr hdot⟩
    | shorthand hdot _ _ _ => exact ⟨_, _, rfl, Or.inr hdot⟩
  | label h hrest =>
    right
    cases h with
    | plain hname _ => exact ⟨_, _, rfl, Or.inl hname⟩
    | dotted hdot _ _ => exact ⟨_, _, rfl, Or.inr hdot⟩

theorem head_of_derivesLine {statements : List Statement} (h : DerivesLine tokens statements)
    (hne : tokens ≠ []) : ∃ token rest, tokens = token :: rest ∧ token.type ≠ .newline := by
  rcases nil_or_head_of_derivesLine h with ⟨hnil, -⟩ | ⟨token, rest, rfl, htype⟩
  · exact absurd hnil hne
  · refine ⟨token, rest, rfl, ?_⟩
    rcases htype with h | h
    · rw [h]
      decide
    · rw [h]
      decide

/-- What is derived up to the end of the file is returned. -/
theorem parseLines_of_derives {statements : List Statement}
    (h : DerivesProgram tokens statements) {rest : List Token} (hended : Ended rest) :
    ∀ {fuel : ℕ} (out : List Statement), Clean (tokens ++ rest) →
      (tokens ++ rest).length < fuel →
      parseLines fuel ⟨tokens ++ rest, diagnostics, failed⟩ out =
        some (out ++ statements, ⟨rest, diagnostics, failed⟩) := by
  have hend : ∀ {fuel : ℕ} (out : List Statement), Clean rest → 0 < fuel →
      parseLines fuel ⟨rest, diagnostics, failed⟩ out =
        some (out, ⟨rest, diagnostics, failed⟩) := by
    intro fuel out hclean hfuel
    obtain ⟨fuel, rfl⟩ := Nat.exists_eq_succ_of_ne_zero (Nat.ne_of_gt hfuel)
    unfold parseLines
    simp only [peek_head diagnostics failed hclean]
    rw [if_pos (show (rest.headD endOfFile).type = .eof from hended)]
  -- one line, when it is not empty
  have hline : ∀ {fuel : ℕ} {line ending after : List Token} {statements : List Statement}
      (out : List Statement), DerivesLine line statements → line ≠ [] → LineEnds ending after →
      Clean (line ++ ending) →
      parseLines (fuel + 1) ⟨line ++ ending, diagnostics, failed⟩ out =
        parseLines fuel ⟨after, diagnostics, failed⟩ (out ++ statements) := by
    intro fuel line ending after statements out hderives hne hends hclean
    conv_lhs => unfold parseLines
    have hparse := parseLine_of_derives diagnostics failed hderives hends hclean out
    cases line with
    | nil => exact absurd rfl hne
    | cons token line =>
      have heof := noEof_of_derivesLine hderives token List.mem_cons_self
      have hnewline : token.type ≠ .newline := by
        obtain ⟨token', _, heq, hhead⟩ := head_of_derivesLine hderives hne
        cases heq
        exact hhead
      have hhead : ((token :: line ++ ending).headD endOfFile).type ≠ .eof := heof
      simp only [peek_head diagnostics failed hclean]
      rw [if_neg hhead]
      rw [List.cons_append] at hclean hparse ⊢
      rw [accept_cons hclean.head, if_neg hnewline]
      dsimp only
      rw [hparse]
  induction h with
  | @last tokens statements hderives =>
    intro fuel out hclean hfuel
    obtain ⟨fuel, rfl⟩ := Nat.exists_eq_succ_of_ne_zero (Nat.ne_zero_of_lt hfuel)
    by_cases hne : tokens = []
    · subst hne
      have hnil : statements = [] := by
        obtain hnil | ⟨token, more, heq, -⟩ := nil_or_head_of_derivesLine hderives
        · exact hnil.2
        · cases heq
      rw [hnil, List.append_nil, List.nil_append]
      exact hend out hclean.of_append (Nat.succ_pos _)
    · have hlen := List.length_pos_iff.mpr hne
      rw [List.length_append] at hfuel
      rw [hline out hderives hne (Or.inr ⟨hended, rfl⟩) hclean]
      exact hend _ hclean.of_append (by omega)
  | @line tokens later newline statements more hderives hnewline hlater ih =>
    intro fuel out hclean hfuel
    obtain ⟨fuel, rfl⟩ := Nat.exists_eq_succ_of_ne_zero (Nat.ne_zero_of_lt hfuel)
    rw [List.append_assoc, List.cons_append] at hclean ⊢
    rw [List.append_assoc, List.cons_append, List.length_append, List.length_cons] at hfuel
    have hafter : Clean (newline :: (later ++ rest)) := hclean.of_append
    by_cases hne : tokens = []
    · subst hne
      have hnil : statements = [] := by
        obtain hnil | ⟨token, more, heq, -⟩ := nil_or_head_of_derivesLine hderives
        · exact hnil.2
        · cases heq
      rw [hnil, List.nil_append, List.nil_append]
      conv_lhs => unfold parseLines
      simp only [peek_cons hafter.head]
      rw [if_neg (by rw [hnewline]; decide), accept_cons hafter.head, if_pos hnewline]
      exact ih out hafter.tail (by omega)
    · rw [hline out hderives hne (Or.inl ⟨newline, hnewline, rfl⟩) hclean,
        ih (out ++ statements) hafter.tail (by omega), List.append_assoc]

end

/-! ### The parser -/

theorem errorCount_empty : ({} : DiagnosticEngine).errorCount = 0 := rfl

/-- What the grammar derives is parsed. -/
theorem parse_of_derives {body : List Token} {eof : Token} (hclean : Clean (body ++ [eof]))
    (heof : eof.type = .eof) {statements : List Statement} (h : DerivesProgram body statements) :
    parse { tokens := body ++ [eof] } = some (.ok { statements }, { tokens := [eof] }) := by
  have hended : Ended [eof] := heof
  unfold parse
  rw [parseLines_of_derives {} false h hended [] hclean (Nat.lt_succ_self _)]
  simp [errorCount_empty]

/-- On a file without malformed tokens the parser ends; it succeeds exactly on what the grammar
derives, and returns what is derived. -/
theorem parse_iff_derives {body : List Token} {eof : Token} (hbody : ∀ token ∈ body,
    token.type ≠ .error ∧ token.type ≠ .eof) (heof : eof.type = .eof) :
    ∃ result p, parse { tokens := body ++ [eof] } = some (result, p) ∧
      ∀ statements : List Statement,
        result = .ok { statements } ↔ DerivesProgram body statements := by
  have hclean : Clean (body ++ [eof]) := by
    intro token htoken
    rcases List.mem_append.mp htoken with htoken | htoken
    · exact (hbody token htoken).1
    · rw [List.mem_singleton.mp htoken, heof]
      decide
  have hcomplete : ∀ statements, DerivesProgram body statements →
      parse { tokens := body ++ [eof] } = some (.ok { statements }, { tokens := [eof] }) :=
    fun statements hderives => parse_of_derives hclean heof hderives
  obtain ⟨out, p, hlines, hresult⟩ :=
    parseLines_spec {} false [] hclean (Nat.lt_succ_self _)
  rcases hresult with ⟨statements, used, rest, hsplit, hrest, hderives, -, -⟩ | hfailed
  · have hused : used = body := by
      have hnoEof := noEof_of_derivesProgram hderives
      rcases List.append_eq_append_iff.mp hsplit with ⟨later, rfl, h⟩ | ⟨later, rfl, h⟩
      · cases later with
        | nil => exact List.append_nil _
        | cons token later =>
          rw [List.cons_append, List.cons.injEq] at h
          exact absurd (h.1 ▸ heof) (hnoEof token (by simp))
      · cases later with
        | nil => exact (List.append_nil _).symm
        | cons token later =>
          rw [h] at hrest
          exact absurd hrest (hbody token (by simp)).2
    subst hused
    refine ⟨_, _, hcomplete statements hderives, fun statements' => ?_⟩
    constructor
    · intro h
      cases h
      exact hderives
    · intro hderives'
      have hsame := (hcomplete statements hderives).symm.trans (hcomplete statements' hderives')
      simp only [Option.some.injEq, Prod.mk.injEq] at hsame
      exact hsame.1
  · have hparse : parse { tokens := body ++ [eof] } =
        some (.error s!"{p.diagnostics.errorCount} parse error(s)", p) := by
      unfold parse
      rw [hlines]
      simp [hfailed]
    refine ⟨_, _, hparse, fun statements => ⟨fun h => (by cases h), fun hderives => ?_⟩⟩
    rw [hcomplete statements hderives] at hparse
    simp at hparse

/-- `loop: ADD R1, R2` and the end of the line. -/
def addLine : List Token :=
  [⟨.identifier, str "loop", {}, 0, []⟩, ⟨.colon, str ":", {}, 0, []⟩,
   ⟨.identifier, str "ADD", {}, 0, []⟩, ⟨.register, str "R1", {}, 0, []⟩,
   ⟨.comma, str ",", {}, 0, []⟩, ⟨.register, str "R2", {}, 0, []⟩,
   ⟨.newline, str "\n", {}, 0, []⟩]

theorem parse_iff_derives_add : ∃ result p,
    parse { tokens := addLine ++ [endOfFile] } = some (result, p) ∧
      ∀ statements : List Statement,
        result = .ok { statements } ↔ DerivesProgram addLine statements :=
  parse_iff_derives (by decide) rfl

end Parser
end MiniTool
