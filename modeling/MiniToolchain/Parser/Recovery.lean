import MiniToolchain.Parser.Derivation

/-!
# Recovery from malformed lines

What the parser makes of a line, and what it reports about it, depends on nothing but the line: not
on what is behind its end, and not on what has been reported before.

## Main definitions

* `Context`, `Outcome`, `Local` — what is around a line, and what the parser does on one.
* `lines`, `ReadsLines` — the lines of a file, and what the loop over them does.
* `reported`, `statementsOf` — what parsing reports and returns.

## Main results

* `local_parseOperand`, `exists_parseLine` and the like — each function of the parser stays on its
  line.
* `exists_parseLines` — one line in the loop over the lines.
* `recovery_by_line` — a file is parsed line by line.
-/

namespace MiniTool
namespace Parser

open Ast Diag Lexer

/-- A token that ends no line and is not malformed. -/
def Inner (token : Token) : Prop :=
  token.type ≠ .error ∧ token.type ≠ .newline ∧ token.type ≠ .eof

/-- The token ends a line. -/
def Ending (token : Token) : Prop := token.type = .newline ∨ token.type = .eof

/-- What is around a line: what is behind its end, and what has been reported so far. -/
structure Context where
  rest : List Token
  diagnostics : DiagnosticEngine
  failed : Bool

/-- The parser, when this is left of its line. -/
def Context.at (c : Context) (line : List Token) (ending : Token) : Parser :=
  ⟨line ++ ending :: c.rest, c.diagnostics, c.failed⟩

/-- The parser behind the line: a newline is consumed, the end of the file is not. -/
def Context.behind (c : Context) (ending : Token) : Parser :=
  if ending.type = .newline then ⟨c.rest, c.diagnostics, c.failed⟩ else c.at [] ending

/-- With this reported as well. -/
def Context.report (c : Context) (diagnostic : Diagnostic) : Context :=
  { c with diagnostics := c.diagnostics.report diagnostic, failed := true }

/-- What the parser does on a line: it returns something, or it reports something and gives up. -/
inductive Outcome (α : Type)
  | returns (value : α) (left : List Token)
  | reports (diagnostic : Diagnostic) (left : List Token)

namespace Outcome

variable {α : Type}

/-- What is left of the line. -/
def left : Outcome α → List Token
  | returns _ left => left
  | reports _ left => left

def result (ending : Token) (c : Context) : Outcome α → Option α × Parser
  | returns value left => (some value, c.at left ending)
  | reports diagnostic left => (none, (c.report diagnostic).at left ending)

end Outcome

/-- What the function does depends on the line only. -/
def Local {α : Type} (f : Parser → Option α × Parser) (line : List Token) (ending : Token) : Prop :=
  ∃ outcome : Outcome α, outcome.left <:+ line ∧
    ∀ c : Context, f (c.at line ending) = outcome.result ending c

namespace Local

variable {α β : Type} {f : Parser → Option α × Parser} {line : List Token} {ending : Token}

/-- One function after another, and after the tokens that are consumed before it. -/
theorem bind {left : List Token} (hleft : left <:+ line) (hf : Local f left ending)
    {g : α → Parser → Option β × Parser}
    (hg : ∀ value later, later <:+ left → Local (g value) later ending)
    {both : Parser → Option β × Parser}
    (hboth : ∀ (c : Context) result, f (c.at left ending) = result → both (c.at line ending) =
      match result with
      | (none, p) => (none, p)
      | (some value, p) => g value p) : Local both line ending := by
  obtain ⟨outcome, hfirst, hf⟩ := hf
  cases outcome with
  | reports diagnostic later =>
    exact ⟨.reports diagnostic later, hfirst.trans hleft, fun c => hboth c _ (hf c)⟩
  | returns value later =>
    obtain ⟨outcome, hsecond, hg⟩ := hg value later hfirst
    exact ⟨outcome, (hsecond.trans hfirst).trans hleft, fun c => (hboth c _ (hf c)).trans (hg c)⟩

/-- The same function under another name. -/
theorem congr {g : Parser → Option α × Parser}
    (h : ∀ c : Context, f (c.at line ending) = g (c.at line ending)) (hg : Local g line ending) :
    Local f line ending := by
  obtain ⟨outcome, hleft, hg⟩ := hg
  exact ⟨outcome, hleft, fun c => (h c).trans (hg c)⟩

/-- The function consumes a token first. -/
theorem cons {g : Parser → Option α × Parser} {token : Token}
    (h : ∀ c : Context, f (c.at (token :: line) ending) = g (c.at line ending))
    (hg : Local g line ending) : Local f (token :: line) ending := by
  obtain ⟨outcome, hleft, hg⟩ := hg
  exact ⟨outcome, hleft.trans (List.suffix_cons _ _), fun c => (h c).trans (hg c)⟩

theorem of_returns {value : α}
    (h : ∀ c : Context, f (c.at line ending) = (some value, c.at line ending)) :
    Local f line ending := ⟨.returns value line, List.suffix_refl _, h⟩

theorem of_reports {diagnostic : Diagnostic} (h : ∀ c : Context, f (c.at line ending) =
    (none, (c.report diagnostic).at line ending)) :
      Local f line ending := ⟨.reports diagnostic line, List.suffix_refl _, h⟩

end Local

/-! ### Looking ahead -/

section

variable {line : List Token} {ending token second : Token} (c : Context)

theorem Ending.ne_error (h : Ending ending) : ending.type ≠ .error := by
  rcases h with h | h <;> rw [h] <;> decide

/-- The next token. -/
theorem peek_at (hline : ∀ token ∈ line, Inner token) (hending : Ending ending) :
    (c.at line ending).peek 0 = (line.headD ending, c.at line ending) := by
  cases line with
  | nil => exact peek_cons hending.ne_error
  | cons token line => exact peek_cons (hline token List.mem_cons_self).1

/-- The one behind it: the end of the line at most. -/
theorem peek_one (hline : ∀ other ∈ token :: line, Inner other) (hending : Ending ending) :
    (c.at (token :: line) ending).peek 1 = (line.headD ending, c.at (token :: line) ending) := by
  have hfirst := (hline token List.mem_cons_self).1
  cases line with
  | nil => simp [Context.at, peek, settleTokens, hfirst, hending.ne_error]
  | cons second line =>
    have hsecond := (hline second (by simp)).1
    simp [Context.at, peek, settleTokens, hfirst, hsecond]

theorem peek_two (hline : ∀ other ∈ token :: second :: line, Inner other)
    (hending : Ending ending) : (c.at (token :: second :: line) ending).peek 2 =
      (line.headD ending, c.at (token :: second :: line) ending) := by
  have hfirst := (hline token List.mem_cons_self).1
  have hsecond := (hline second (by simp)).1
  cases line with
  | nil => simp [Context.at, peek, settleTokens, hfirst, hsecond, hending.ne_error]
  | cons third line =>
    have hthird := (hline third (by simp)).1
    simp [Context.at, peek, settleTokens, hfirst, hsecond, hthird]

theorem advance_at (h : Inner token) :
    (c.at (token :: line) ending).advance = (token, c.at line ending) :=
  advance_cons h.1

end

/-! ### Operands -/

section

variable {line : List Token} {ending : Token}

theorem inner_of_suffix {left : List Token} (hline : ∀ token ∈ line, Inner token)
    (hleft : left <:+ line) : ∀ token ∈ left, Inner token :=
  fun token htoken => hline token (hleft.subset htoken)

theorem inner_tail {token : Token} (hline : ∀ other ∈ token :: line, Inner other) :
    ∀ other ∈ line, Inner other := inner_of_suffix hline (List.suffix_cons _ _)

theorem Ending.ne (h : Ending ending) {type : TokenType} (hnewline : type ≠ .newline)
    (heof : type ≠ .eof) : ending.type ≠ type := by
  rcases h with h | h
  · rw [h]
    exact hnewline.symm
  · rw [h]
    exact heof.symm

theorem local_expect (hline : ∀ token ∈ line, Inner token) (hending : Ending ending)
    (type : TokenType) (hnewline : type ≠ .newline) (heof : type ≠ .eof) (what : String) :
    Local (fun p => p.expect type what) line ending := by
  cases line with
  | nil =>
    apply Local.of_reports
    intro c
    unfold expect
    rw [peek_at c hline hending]
    exact if_neg (hending.ne hnewline heof)
  | cons token line =>
    by_cases htype : token.type = type
    · refine Local.cons (g := fun p => (some token, p)) (fun c => ?_)
        (Local.of_returns fun c => rfl)
      exact expect_cons (hline token List.mem_cons_self).1 htype what
    · apply Local.of_reports
      intro c
      unfold expect
      rw [peek_at c hline hending]
      exact if_neg htype

/-- No line ends with a sign. -/
theorem Ending.not_sign (h : Ending ending) : ¬(ending.type = .plus ∨ ending.type = .minus) :=
  not_or.mpr ⟨h.ne (by decide) (by decide), h.ne (by decide) (by decide)⟩

theorem local_parseSymbolExpression (hline : ∀ token ∈ line, Inner token) (hending : Ending ending)
    (name : Str) (location : SourceLocation) :
    Local (fun p => p.parseSymbolExpression name location) line ending := by
  cases line with
  | nil =>
    apply Local.of_returns
    intro c
    unfold parseSymbolExpression
    rw [peek_at c hline hending]
    exact if_neg hending.not_sign
  | cons token line =>
    by_cases hsign : token.type = .plus ∨ token.type = .minus
    · have haddend := local_expect (inner_tail hline) hending .integer (by decide) (by decide)
        "an integer addend"
      refine haddend.bind (List.suffix_cons _ _) (g := fun addend p =>
        (some { type := .symbol, symbol := name
                immediate := signed (token.type = .minus) addend.intValue
                location := spanTo location addend.location }, p))
        (fun _ _ _ => Local.of_returns fun _ => rfl) fun c result h => ?_
      unfold parseSymbolExpression
      rw [peek_at c hline hending]
      dsimp only at h ⊢
      rw [List.headD_cons, if_pos hsign, advance_at c (hline token List.mem_cons_self), h]
      obtain ⟨_ | _, _⟩ := result <;> rfl
    · apply Local.of_returns
      intro c
      unfold parseSymbolExpression
      rw [peek_at c hline hending]
      exact if_neg hsign

theorem local_closeMemory (hline : ∀ token ∈ line, Inner token) (hending : Ending ending)
    (operand : Operand) : Local (fun p => p.closeMemory operand) line ending := by
  refine (local_expect hline hending .rBracket (by decide) (by decide)
    "']' to close the memory operand").bind (List.suffix_refl _) (g := fun close p =>
      (some { operand with location := spanTo operand.location close.location }, p))
    (fun _ _ _ => Local.of_returns fun _ => rfl) fun c result h => ?_
  unfold closeMemory
  rw [h]
  obtain ⟨_ | _, _⟩ := result <;> rfl

/-- Inside the brackets, behind the base register. -/
theorem local_displacement (hline : ∀ token ∈ line, Inner token) (hending : Ending ending)
    (operand : Operand) :
    Local (fun p =>
      let (token, p) := p.peek 0
      if token.type = .plus ∨ token.type = .minus then
        match p.advance.2.expect .integer "an integer displacement" with
        | (none, p) => (none, p)
        | (some displacement, p) =>
          p.closeMemory { operand with
            immediate := signed (token.type = .minus) displacement.intValue }
      else if token.type = .integer then
        (none, p.error token .invalidOperand "expected '+' or '-' before the displacement")
      else p.closeMemory operand) line ending := by
  have hclose := local_closeMemory hline hending operand
  cases line with
  | nil =>
    refine Local.congr (fun c => ?_) hclose
    rw [peek_at c hline hending]
    dsimp only
    rw [List.headD_nil, if_neg hending.not_sign, if_neg (hending.ne (by decide) (by decide))]
  | cons token line =>
    by_cases hsign : token.type = .plus ∨ token.type = .minus
    · have hvalue := local_expect (inner_tail hline) hending .integer (by decide)
        (by decide) "an integer displacement"
      refine hvalue.bind (List.suffix_cons _ _) (g := fun displacement p =>
        p.closeMemory { operand with
          immediate := signed (token.type = .minus) displacement.intValue })
        (fun _ _ hleft => local_closeMemory (inner_of_suffix (inner_tail hline) hleft) hending _)
        fun c result h => ?_
      rw [peek_at c hline hending]
      dsimp only at h ⊢
      rw [List.headD_cons, if_pos hsign, advance_at c (hline token List.mem_cons_self), h]
      obtain ⟨_ | _, _⟩ := result <;> rfl
    · by_cases hinteger : token.type = .integer
      · apply Local.of_reports
        intro c
        rw [peek_at c hline hending]
        dsimp only
        rw [List.headD_cons, if_neg hsign, if_pos hinteger]
        rfl
      · refine Local.congr (fun c => ?_) hclose
        rw [peek_at c hline hending]
        dsimp only
        rw [List.headD_cons, if_neg hsign, if_neg hinteger]

theorem local_parseMemoryOperand {opening : Token} (hline : ∀ token ∈ opening :: line, Inner token)
    (hending : Ending ending) : Local parseMemoryOperand (opening :: line) ending := by
  have hbase := local_expect (inner_tail hline) hending .register (by decide) (by decide)
    "a base register inside '[...]'"
  refine hbase.bind (List.suffix_cons _ _) (fun base _ hleft =>
    local_displacement (inner_of_suffix (inner_tail hline) hleft) hending
      { type := .memory, location := opening.location
        reg := (Isa.parseRegister base.text).getD .R0 }) fun c result h => ?_
  unfold parseMemoryOperand
  rw [advance_at c (hline opening List.mem_cons_self)]
  dsimp only at h ⊢
  rw [h]
  obtain ⟨_ | _, _⟩ := result <;> rfl

theorem local_parseOperand (hline : ∀ token ∈ line, Inner token) (hending : Ending ending) :
    Local parseOperand line ending := by
  cases line with
  | nil =>
    have hpeek : ∀ c : Context, (c.at [] ending).peek 0 = (ending, c.at [] ending) :=
      fun c => peek_at c hline hending
    rcases hending with h | h
    · apply Local.of_reports
      intro c
      simp only [parseOperand, hpeek, h]
      rfl
    · apply Local.of_reports
      intro c
      simp only [parseOperand, hpeek, h]
      rfl
  | cons token line =>
    have hpeek : ∀ c : Context, (c.at (token :: line) ending).peek 0 =
        (token, c.at (token :: line) ending) := fun c => peek_at c hline hending
    have hadvance : ∀ c : Context, (c.at (token :: line) ending).advance =
        (token, c.at line ending) :=
      fun c => advance_at c (hline token List.mem_cons_self)
    -- a token that is an operand
    have hone : ∀ operand : Operand, (∀ c : Context, (c.at (token :: line) ending).parseOperand =
        (some operand, c.at line ending)) → Local parseOperand (token :: line) ending :=
      fun operand h => ⟨.returns operand line, List.suffix_cons _ _, h⟩
    have hsuffix := List.suffix_cons token line
    cases htype : token.type with
    | register =>
      refine hone { type := .register, reg := (Isa.parseRegister token.text).getD .R0,
                    location := token.location } fun c => ?_
      simp only [parseOperand, hpeek, htype, hadvance]
    | integer =>
      refine hone { type := .immediate, immediate := token.intValue, location := token.location }
        fun c => ?_
      simp only [parseOperand, hpeek, htype, hadvance]
    | character =>
      refine hone { type := .immediate, immediate := token.intValue, location := token.location }
        fun c => ?_
      simp only [parseOperand, hpeek, htype, hadvance]
    | string =>
      refine hone { type := .string, text := token.strValue, location := token.location }
        fun c => ?_
      simp only [parseOperand, hpeek, htype, hadvance]
    | hash =>
      have hvalue := local_expect (inner_tail hline) hending .integer (by decide) (by decide)
        "an integer after '#'"
      refine hvalue.bind hsuffix (g := fun value p => (some
          { type := .immediate, immediate := value.intValue, location := token.location }, p))
        (fun _ _ _ => Local.of_returns fun _ => rfl) fun c result h => ?_
      simp only [parseOperand, hpeek, htype, hadvance, h]
      obtain ⟨_ | _, _⟩ := result <;> rfl
    | identifier =>
      refine Local.cons (fun c => ?_) (local_parseSymbolExpression (inner_tail hline) hending
        token.text token.location)
      simp only [parseOperand, hpeek, htype, hadvance]
    | dot =>
      have hname := local_expect (inner_tail hline) hending .identifier (by decide) (by decide)
        "a name after '.'"
      refine hname.bind hsuffix (fun name _ hleft => local_parseSymbolExpression
        (inner_of_suffix (inner_tail hline) hleft) hending (str "." ++ name.text)
        (joined token.location name.location)) fun c result h => ?_
      simp only [parseOperand, hpeek, htype, hadvance, h]
      obtain ⟨_ | _, _⟩ := result <;> rfl
    | lBracket =>
      refine Local.congr (fun c => ?_) (local_parseMemoryOperand hline hending)
      simp only [parseOperand, hpeek, htype]
    | error => exact absurd htype (hline token List.mem_cons_self).1
    | newline => exact absurd htype (hline token List.mem_cons_self).2.1
    | eof => exact absurd htype (hline token List.mem_cons_self).2.2
    | _ =>
      apply Local.of_reports
      intro c
      simp only [parseOperand, hpeek, htype]
      rfl

/-! ### Statements -/

/-- The same for what may run out of fuel, and does not. -/
def LocalSome {α : Type} (f : Parser → Option (Option α × Parser)) (line : List Token)
    (ending : Token) : Prop :=
  ∃ outcome : Outcome α, outcome.left <:+ line ∧
    ∀ c : Context, f (c.at line ending) = some (outcome.result ending c)

theorem Ending.endsStatement (h : Ending ending) : endsStatement ending = true :=
  endsStatement_iff.mpr h

theorem Inner.not_endsStatement {token : Token} (h : Inner token) : ¬endsStatement token = true :=
  fun hends => (endsStatement_iff.mp hends).elim h.2.1 h.2.2

/-- A token of a type is accepted if it is the next one of the line. -/
theorem accept_at (c : Context) (hline : ∀ token ∈ line, Inner token) (hending : Ending ending)
    (type : TokenType) (hnewline : type ≠ .newline) (heof : type ≠ .eof) :
    (c.at line ending).accept type =
      if (line.headD ending).type = type then (true, c.at line.tail ending)
      else (false, c.at line ending) := by
  cases line with
  | nil =>
    unfold accept
    rw [peek_at c hline hending]
    dsimp only
    rw [List.headD_nil, if_neg (hending.ne hnewline heof), if_neg (hending.ne hnewline heof)]
  | cons token line => exact accept_cons (hline token List.mem_cons_self).1 type

/-- One turn of the loop, behind an operand: a comma and more, a comma and nothing more, or the end
of the list. -/
theorem parseOperands_cons {token : Token} {left : List Token} {operand : Operand}
    (hline : ∀ other ∈ token :: line, Inner other) (hending : Ending ending)
    (hleft : left <:+ token :: line) {c : Context}
    (hoperand : (c.at (token :: line) ending).parseOperand = (some operand, c.at left ending))
    (fuel : ℕ) (operands : List Operand) :
    parseOperands (fuel + 1) (c.at (token :: line) ending) operands =
      if (left.headD ending).type = .comma then
        if left.tail = [] then
          some (none, (c.report (Diag.error .invalidOperand ending.location
            "expected an operand after ','")).at [] ending)
        else parseOperands fuel (c.at left.tail ending) (operands ++ [operand])
      else some (some (operands ++ [operand]), c.at left ending) := by
  have hinner : ∀ token ∈ left, Inner token := inner_of_suffix hline hleft
  have hrest : ∀ token ∈ left.tail, Inner token := fun other hother =>
    hinner other (List.mem_of_mem_tail hother)
  conv_lhs => unfold parseOperands
  rw [peek_at c hline hending]
  dsimp only
  rw [List.headD_cons, if_neg (hline token List.mem_cons_self).not_endsStatement, hoperand]
  dsimp only
  rw [accept_at c hinner hending .comma (by decide) (by decide)]
  by_cases hcomma : (left.headD ending).type = .comma
  · rw [if_pos hcomma, if_pos hcomma]
    dsimp only
    rw [peek_at c hrest hending]
    dsimp only
    cases htail : left.tail with
    | nil =>
      rw [List.headD_nil, if_pos hending.endsStatement, if_pos rfl]
      rfl
    | cons next more =>
      have hnext : Inner next := hrest next (by rw [htail]; exact List.mem_cons_self)
      rw [List.headD_cons, if_neg hnext.not_endsStatement, if_neg (List.cons_ne_nil next more)]
  · rw [if_neg hcomma, if_neg hcomma]

theorem exists_parseOperands (hline : ∀ token ∈ line, Inner token) (hending : Ending ending)
    (operands : List Operand) : ∃ outcome : Outcome (List Operand), outcome.left <:+ line ∧
      ∀ (c : Context) (fuel : ℕ), line.length < fuel →
        parseOperands fuel (c.at line ending) operands = some (outcome.result ending c) := by
  induction hlength : line.length using Nat.strong_induction_on generalizing line operands with
  | _ n ih =>
    subst hlength
    cases line with
    | nil =>
      refine ⟨.returns operands [], List.suffix_refl _, fun c fuel hfuel => ?_⟩
      obtain ⟨fuel, rfl⟩ := Nat.exists_eq_succ_of_ne_zero (Nat.ne_zero_of_lt hfuel)
      unfold parseOperands
      rw [peek_at c hline hending]
      exact if_pos hending.endsStatement
    | cons token line =>
      obtain ⟨outcome, hleft, hoperand⟩ := local_parseOperand hline hending
      cases outcome with
      | reports diagnostic left =>
        refine ⟨.reports diagnostic left, hleft, fun c fuel hfuel => ?_⟩
        obtain ⟨fuel, rfl⟩ := Nat.exists_eq_succ_of_ne_zero (Nat.ne_zero_of_lt hfuel)
        unfold parseOperands
        rw [peek_at c hline hending]
        dsimp only
        rw [List.headD_cons, if_neg (hline token List.mem_cons_self).not_endsStatement, hoperand c]
        rfl
      | returns operand left =>
        have hleft : left <:+ token :: line := hleft
        have hturn := fun (c : Context) (fuel : ℕ) =>
          parseOperands_cons hline hending hleft (hoperand c) fuel operands
        by_cases hcomma : (left.headD ending).type = .comma
        · have htail : left.tail <:+ token :: line := (List.tail_suffix left).trans hleft
          have hshort : left.tail.length < (token :: line).length := by
            have hle := hleft.length_le
            cases left with
            | nil => exact absurd hcomma (hending.ne (by decide) (by decide))
            | cons comma left => exact Nat.lt_of_succ_le hle
          by_cases hempty : left.tail = []
          · refine ⟨.reports (Diag.error .invalidOperand ending.location
              "expected an operand after ','") [], List.nil_suffix, fun c fuel hfuel => ?_⟩
            obtain ⟨fuel, rfl⟩ := Nat.exists_eq_succ_of_ne_zero (Nat.ne_zero_of_lt hfuel)
            rw [hturn, if_pos hcomma, if_pos hempty]
            rfl
          · obtain ⟨outcome, hlater, hmore⟩ := ih left.tail.length hshort
              (inner_of_suffix hline htail) (operands ++ [operand]) rfl
            refine ⟨outcome, hlater.trans htail, fun c fuel hfuel => ?_⟩
            obtain ⟨fuel, rfl⟩ := Nat.exists_eq_succ_of_ne_zero (Nat.ne_zero_of_lt hfuel)
            rw [hturn, if_pos hcomma, if_neg hempty, hmore c fuel (by omega)]
        · refine ⟨.returns (operands ++ [operand]) left, hleft, fun c fuel hfuel => ?_⟩
          obtain ⟨fuel, rfl⟩ := Nat.exists_eq_succ_of_ne_zero (Nat.ne_zero_of_lt hfuel)
          rw [hturn, if_neg hcomma]
          rfl

/-- There is fuel for every token. -/
theorem length_lt (c : Context) : line.length < (c.at line ending).tokens.length + 1 := by
  unfold Context.at
  rw [List.length_append]
  omega

theorem localSome_parseInstruction {mnemonic : Token}
    (hline : ∀ token ∈ mnemonic :: line, Inner token) (hending : Ending ending) :
    LocalSome parseInstruction (mnemonic :: line) ending := by
  obtain ⟨outcome, hleft, hoperands⟩ := exists_parseOperands (inner_tail hline) hending []
  have hadvance : ∀ c : Context, (c.at (mnemonic :: line) ending).advance =
      (mnemonic, c.at line ending) := fun c => advance_at c (hline mnemonic List.mem_cons_self)
  have hsuffix := hleft.trans (List.suffix_cons mnemonic line)
  cases outcome with
  | reports diagnostic left =>
    refine ⟨.reports diagnostic left, hsuffix, fun c => ?_⟩
    simp only [parseInstruction, hadvance, hoperands c _ (length_lt c)]
    rfl
  | returns operands left =>
    refine ⟨.returns { mnemonic := mnemonic.text, operands, location := mnemonic.location } left,
      hsuffix, fun c => ?_⟩
    simp only [parseInstruction, hadvance, hoperands c _ (length_lt c)]
    rfl

theorem localSome_parseDirective {dot : Token} (hline : ∀ token ∈ dot :: line, Inner token)
    (hending : Ending ending) : LocalSome parseDirective (dot :: line) ending := by
  have hadvance : ∀ c : Context, (c.at (dot :: line) ending).advance = (dot, c.at line ending) :=
    fun c => advance_at c (hline dot List.mem_cons_self)
  obtain ⟨outcome, hleft, hname⟩ := local_expect (inner_tail hline) hending .identifier (by decide)
    (by decide) "a directive name"
  have hsuffix := hleft.trans (List.suffix_cons dot line)
  have hinner := inner_of_suffix (inner_tail hline) hleft
  cases outcome with
  | reports diagnostic left =>
    refine ⟨.reports diagnostic left, hsuffix, fun c => ?_⟩
    simp only [parseDirective, hadvance, hname]
    rfl
  | returns name left =>
    have hinner : ∀ token ∈ left, Inner token := hinner
    cases hfind : findDirective name.text with
    | none =>
      let spelled := name.text.text
      refine ⟨.reports (Diag.error .invalidDirective name.location
        s!"unknown directive '.{spelled}'") left, hsuffix, fun c => ?_⟩
      simp only [parseDirective, hadvance, hname, Outcome.result, hfind]
      rfl
    | some spelling =>
      by_cases hsection : spelling.implicitSection ≠ ""
      · refine ⟨.returns { type := spelling.type, location := joined dot.location name.location
                           operands := [{ type := .symbol, symbol := str spelling.implicitSection
                                          location := joined dot.location name.location }] } left,
          hsuffix, fun c => ?_⟩
        simp only [parseDirective, hadvance, hname, Outcome.result, hfind]
        rw [if_pos hsection]
      · obtain ⟨outcome, hlater, hoperands⟩ := exists_parseOperands hinner hending []
        cases outcome with
        | reports diagnostic later =>
          refine ⟨.reports diagnostic later, hlater.trans hsuffix, fun c => ?_⟩
          simp only [parseDirective, hadvance, hname, Outcome.result, hfind]
          rw [if_neg hsection]
          simp only [hoperands c _ (length_lt c)]
          rfl
        | returns operands later =>
          refine ⟨.returns { type := spelling.type, operands
                             location := joined dot.location name.location } later,
            hlater.trans hsuffix, fun c => ?_⟩
          simp only [parseDirective, hadvance, hname, Outcome.result, hfind]
          rw [if_neg hsection]
          simp only [hoperands c _ (length_lt c)]
          rfl

/-- The labels that a line starts with are read whatever surrounds it, and the rest is left. -/
def ReadsLabels (line : List Token) (ending : Token) : Prop :=
  ∃ (labels : List Statement) (left : List Token), left <:+ line ∧
    ∀ (c : Context) (fuel : ℕ) (out : List Statement), line.length < fuel →
      parseLabels fuel (c.at line ending) out = some (out ++ labels, c.at left ending)

/-- A label, and what is behind it. -/
theorem ReadsLabels.cons {later : List Token} (h : ReadsLabels later ending) (label : Statement)
    (used : List Token) (hpos : 0 < used.length)
    (hstep : ∀ (c : Context) (fuel : ℕ) (out : List Statement),
      parseLabels (fuel + 1) (c.at (used ++ later) ending) out =
        parseLabels fuel (c.at later ending) (out ++ [label])) :
    ReadsLabels (used ++ later) ending := by
  obtain ⟨labels, left, hleft, hmore⟩ := h
  refine ⟨label :: labels, left, hleft.trans (List.suffix_append used later), ?_⟩
  intro c fuel out hfuel
  obtain ⟨fuel, rfl⟩ := Nat.exists_eq_succ_of_ne_zero (Nat.ne_zero_of_lt hfuel)
  rw [List.length_append] at hfuel
  rw [hstep, hmore c fuel _ (by omega), List.append_assoc, List.singleton_append]

/-- No label. -/
theorem readsLabels_of_none (hstep : ∀ (c : Context) (fuel : ℕ) (out : List Statement),
      parseLabels (fuel + 1) (c.at line ending) out = some (out, c.at line ending)) :
    ReadsLabels line ending := by
  refine ⟨[], line, List.suffix_refl _, ?_⟩
  intro c fuel out hfuel
  obtain ⟨fuel, rfl⟩ := Nat.exists_eq_succ_of_ne_zero (Nat.ne_zero_of_lt hfuel)
  rw [hstep, List.append_nil]

/-- The labels of a line. -/
theorem exists_parseLabels (hline : ∀ token ∈ line, Inner token) (hending : Ending ending) :
    ReadsLabels line ending := by
  induction hlength : line.length using Nat.strong_induction_on generalizing line with
  | _ n ih =>
    subst hlength
    have hpeek := fun c : Context => peek_at c hline hending
    cases line with
    | nil =>
      refine readsLabels_of_none fun c fuel out => ?_
      unfold parseLabels
      simp only [hpeek]
      rw [List.headD_nil, if_neg (hending.ne (by decide) (by decide)),
        if_neg (hending.ne (by decide) (by decide))]
    | cons first line =>
      have hone := fun c : Context => peek_one c hline hending
      have hfirst := hline first List.mem_cons_self
      by_cases hidentifier : first.type = .identifier
      · by_cases hcolon : (line.headD ending).type = .colon
        · cases line with
          | nil => exact absurd hcolon (hending.ne (by decide) (by decide))
          | cons colon line =>
            have hsecond := inner_tail hline colon List.mem_cons_self
            have hshort : line.length < (first :: colon :: line).length := by
              rw [List.length_cons, List.length_cons]
              omega
            have hlater := ih line.length hshort (inner_tail (inner_tail hline)) rfl
            refine hlater.cons (.label { name := first.text, location := first.location })
              [first, colon] (by simp) fun c fuel out => ?_
            rw [List.cons_append, List.singleton_append]
            conv_lhs => unfold parseLabels
            simp only [hpeek, hone]
            rw [List.headD_cons, if_pos hidentifier, if_pos hcolon]
            simp only [advance_at _ hfirst, advance_at _ hsecond]
        · refine readsLabels_of_none fun c fuel out => ?_
          unfold parseLabels
          simp only [hpeek, hone]
          rw [List.headD_cons, if_pos hidentifier, if_neg hcolon]
      · by_cases hdot : first.type = .dot
        · by_cases hname : (line.headD ending).type = .identifier
          · cases line with
            | nil => exact absurd hname (hending.ne (by decide) (by decide))
            | cons name line =>
              have hsecond := inner_tail hline name List.mem_cons_self
              have htwo := fun c : Context => peek_two c hline hending
              by_cases hcolon : (line.headD ending).type = .colon
              · cases line with
                | nil => exact absurd hcolon (hending.ne (by decide) (by decide))
                | cons colon line =>
                  have hthird := inner_tail (inner_tail hline) colon List.mem_cons_self
                  have hshort : line.length < (first :: name :: colon :: line).length := by
                    rw [List.length_cons, List.length_cons, List.length_cons]
                    omega
                  have hlater := ih line.length hshort
                    (inner_tail (inner_tail (inner_tail hline))) rfl
                  refine hlater.cons (.label
                    { name := str "." ++ name.text, isLocal := true,
                      location := joined first.location name.location }) [first, name, colon]
                    (by simp) fun c fuel out => ?_
                  rw [List.cons_append, List.cons_append, List.singleton_append]
                  conv_lhs => unfold parseLabels
                  simp only [hpeek, hone, htwo]
                  rw [List.headD_cons, if_neg hidentifier, if_pos hdot, if_pos hname, if_pos hcolon]
                  simp only [advance_at _ hfirst, advance_at _ hsecond, advance_at _ hthird]
              · refine readsLabels_of_none fun c fuel out => ?_
                unfold parseLabels
                simp only [hpeek, hone, htwo]
                rw [List.headD_cons, if_neg hidentifier, if_pos hdot, if_pos hname, if_neg hcolon]
          · refine readsLabels_of_none fun c fuel out => ?_
            unfold parseLabels
            simp only [hpeek, hone]
            rw [List.headD_cons, if_neg hidentifier, if_pos hdot, if_neg hname]
        · refine readsLabels_of_none fun c fuel out => ?_
          unfold parseLabels
          simp only [hpeek, hone]
          rw [List.headD_cons, if_neg hidentifier, if_neg hdot]

/-- Behind a statement nothing may be left of the line. -/
theorem exists_finishLine (hline : ∀ token ∈ line, Inner token) (hending : Ending ending) :
    (∀ (c : Context) (out : List Statement),
        (c.at line ending).finishLine out = (true, out, c.behind ending)) ∨
      ∃ diagnostic, ∀ (c : Context) (out : List Statement),
        (c.at line ending).finishLine out = (false, out, (c.report diagnostic).at line ending) := by
  cases line with
  | nil =>
    left
    intro c out
    unfold finishLine
    rw [peek_at c hline hending]
    dsimp only
    rw [List.headD_nil, if_pos hending.endsStatement]
    unfold Context.behind Context.at
    rw [List.nil_append, accept_cons hending.ne_error]
    split_ifs <;> rfl
  | cons token line =>
    right
    let found := tokenTypeName token.type
    refine ⟨Diag.error .parseError token.location s!"unexpected {found} after end of statement",
      fun c out => ?_⟩
    unfold finishLine
    rw [peek_at c hline hending]
    exact if_neg (hline token List.mem_cons_self).not_endsStatement

/-- A line gives some statements and is left behind, or gives them and is reported. -/
def ReadsLine (line : List Token) (ending : Token) : Prop :=
  ∃ statements : List Statement,
    (∀ (c : Context) (out : List Statement), (c.at line ending).parseLine out =
      some (true, out ++ statements, c.behind ending)) ∨
    ∃ diagnostic left, left <:+ line ∧ ∀ (c : Context) (out : List Statement),
      (c.at line ending).parseLine out =
        some (false, out ++ statements, (c.report diagnostic).at left ending)

/-- What `parseLine` does with an instruction or a directive. -/
def finishStatement {α : Type} (make : α → Statement) (result : Option α × Parser)
    (out : List Statement) : Bool × List Statement × Parser :=
  match result with
  | (none, p) => (false, out, p)
  | (some value, p) => p.finishLine (out ++ [make value])

/-- Labels, and a statement behind them. -/
theorem readsLine_of_outcome {α : Type} {outcome : Outcome α} (labels : List Statement)
    (make : α → Statement) (hline : ∀ token ∈ line, Inner token) (hending : Ending ending)
    (hleft : outcome.left <:+ line) (h : ∀ (c : Context) (out : List Statement),
      (c.at line ending).parseLine out =
        some (finishStatement make (outcome.result ending c) (out ++ labels))) :
    ReadsLine line ending := by
  cases outcome with
  | reports diagnostic left => exact ⟨labels, Or.inr ⟨diagnostic, left, hleft, h⟩⟩
  | returns value left =>
    rcases exists_finishLine (inner_of_suffix hline hleft) hending with
      hfinish | ⟨diagnostic, hfinish⟩
    · refine ⟨labels ++ [make value], Or.inl ?_⟩
      intro c out
      rw [h, ← List.append_assoc]
      exact congrArg some (hfinish c _)
    · refine ⟨labels ++ [make value], Or.inr ⟨diagnostic, left, hleft, ?_⟩⟩
      intro c out
      rw [h, ← List.append_assoc]
      exact congrArg some (hfinish c _)

/-- **One line**: what is behind it and what was reported before makes no difference. -/
theorem exists_parseLine (hline : ∀ token ∈ line, Inner token) (hending : Ending ending) :
    ReadsLine line ending := by
  obtain ⟨labels, left, hleft, hlabels⟩ := exists_parseLabels hline hending
  have hinner := inner_of_suffix hline hleft
  have hfirst : ∀ (c : Context) (out : List Statement),
      parseLabels ((c.at line ending).tokens.length + 1) (c.at line ending) out =
        some (out ++ labels, c.at left ending) := fun c out => hlabels c _ out (length_lt c)
  have hpeek := fun c : Context => peek_at c hinner hending
  cases left with
  | nil =>
    refine ⟨labels, Or.inl fun c out => ?_⟩
    unfold parseLine
    simp only [hfirst, hpeek]
    rw [List.headD_nil, if_pos hending.endsStatement]
    unfold Context.behind Context.at
    rw [List.nil_append, accept_cons hending.ne_error]
    split_ifs <;> rfl
  | cons token left =>
    have hnotEnds := (hinner token List.mem_cons_self).not_endsStatement
    by_cases hdot : token.type = .dot
    · obtain ⟨outcome, hlater, hdirective⟩ := localSome_parseDirective hinner hending
      refine readsLine_of_outcome labels .directive hline hending (hlater.trans hleft) ?_
      intro c out
      unfold parseLine
      simp only [hfirst, hpeek]
      rw [List.headD_cons, if_neg hnotEnds, if_pos hdot, hdirective c]
      cases outcome <;> rfl
    · by_cases hidentifier : token.type = .identifier
      · obtain ⟨outcome, hlater, hinstruction⟩ := localSome_parseInstruction hinner hending
        refine readsLine_of_outcome labels .instruction hline hending (hlater.trans hleft) ?_
        intro c out
        unfold parseLine
        simp only [hfirst, hpeek]
        rw [List.headD_cons, if_neg hnotEnds, if_neg hdot, if_pos hidentifier, hinstruction c]
        cases outcome <;> rfl
      · let found := tokenTypeName token.type
        refine ⟨labels, Or.inr ⟨Diag.error .parseError token.location
          s!"expected a label, instruction or directive, found {found}", token :: left, hleft,
          fun c out => ?_⟩⟩
        unfold parseLine
        simp only [hfirst, hpeek]
        rw [List.headD_cons, if_neg hnotEnds, if_neg hdot, if_neg hidentifier]
        rfl

theorem skipTokens_at (hline : ∀ token ∈ line, Inner token) (hending : Ending ending)
    (rest : List Token) : skipTokens (line ++ ending :: rest) = (ending :: rest, []) := by
  induction line with
  | nil =>
    rw [List.nil_append]
    unfold skipTokens
    rw [if_neg hending.ne_error, if_pos hending.endsStatement]
  | cons token line ih =>
    have htoken := hline token List.mem_cons_self
    rw [List.cons_append]
    unfold skipTokens
    rw [if_neg htoken.1, if_neg htoken.not_endsStatement]
    exact ih (inner_tail hline)

/-- The rest of a malformed line is skipped, and no more. -/
theorem skipToEndOfLine_at (c : Context) (hline : ∀ token ∈ line, Inner token)
    (hending : Ending ending) : (c.at line ending).skipToEndOfLine = c.behind ending := by
  unfold skipToEndOfLine Context.at
  dsimp only
  rw [skipTokens_at hline hending, reportErrors_nil, accept_cons hending.ne_error]
  unfold Context.behind Context.at
  split_ifs <;> rfl

/-- With this reported as well, if anything. -/
def Context.reported (c : Context) : Option Diagnostic → Context
  | none => c
  | some diagnostic => c.report diagnostic

/-- **One line** in the loop over the lines, unless the file ends there. -/
theorem exists_parseLines (hline : ∀ token ∈ line, Inner token) (hending : Ending ending)
    (hmore : line ≠ [] ∨ ending.type = .newline) :
    ∃ (statements : List Statement) (diagnostic : Option Diagnostic),
      ∀ (c : Context) (fuel : ℕ) (out : List Statement),
        parseLines (fuel + 1) (c.at line ending) out =
          parseLines fuel ((c.reported diagnostic).behind ending) (out ++ statements) := by
  have hpeek := fun c : Context => peek_at c hline hending
  cases line with
  | nil =>
    have hnewline := hmore.resolve_left (not_not.mpr rfl)
    refine ⟨[], none, fun c fuel out => ?_⟩
    conv_lhs => unfold parseLines
    simp only [hpeek]
    have haccept : (c.at [] ending).accept .newline = (true, c.behind ending) := by
      unfold Context.behind Context.at
      rw [List.nil_append, accept_cons hending.ne_error, if_pos hnewline, if_pos hnewline]
    rw [List.headD_nil, if_neg (by rw [hnewline]; decide), haccept, List.append_nil]
    rfl
  | cons token line =>
    have htoken := hline token List.mem_cons_self
    have haccept : ∀ c : Context, (c.at (token :: line) ending).accept .newline =
        (false, c.at (token :: line) ending) :=
      fun c => (accept_cons htoken.1 .newline).trans (if_neg htoken.2.1)
    obtain ⟨statements, hparse | ⟨diagnostic, left, hleft, hparse⟩⟩ :=
      exists_parseLine hline hending
    · refine ⟨statements, none, fun c fuel out => ?_⟩
      conv_lhs => unfold parseLines
      simp only [hpeek]
      rw [List.headD_cons, if_neg htoken.2.2, haccept]
      simp only [hparse]
      rfl
    · refine ⟨statements, some diagnostic, fun c fuel out => ?_⟩
      conv_lhs => unfold parseLines
      simp only [hpeek]
      rw [List.headD_cons, if_neg htoken.2.2, haccept]
      simp only [hparse]
      rw [skipToEndOfLine_at _ (inner_of_suffix hline hleft) hending]
      rfl

/-- At the end of the file the loop ends. -/
theorem parseLines_eof (c : Context) (heof : ending.type = .eof) (fuel : ℕ) (out : List Statement) :
    parseLines (fuel + 1) (c.at [] ending) out = some (out, c.at [] ending) := by
  unfold parseLines
  rw [peek_at c (by simp) (Or.inr heof)]
  exact if_pos heof

end

/-! ### Files -/

/-- The lines of a file, each with the newline that ends it; the file ends the last one. -/
def lines : List Token → List (List Token)
  | [] => [[]]
  | token :: rest =>
    if token.type = .newline then [token] :: lines rest
    else match lines rest with
      | [] => [[token]]
      | line :: more => (token :: line) :: more

/-- What parsing the tokens reports. -/
def reported (tokens : List Token) : List Diagnostic :=
  match parse { tokens } with
  | some (_, p) => p.diagnostics.diagnostics
  | none => []

/-- The statements of a program the parser accepts. -/
def statementsOf (tokens : List Token) : List Statement :=
  match parse { tokens } with
  | some (.ok program, _) => program.statements
  | _ => []

theorem lines_of_inner {line : List Token} (hline : ∀ token ∈ line, Inner token) :
    lines line = [line] := by
  induction line with
  | nil => rfl
  | cons token line ih =>
    unfold lines
    rw [if_neg (hline token List.mem_cons_self).2.1, ih (inner_tail hline)]

theorem lines_append {line : List Token} (hline : ∀ token ∈ line, Inner token) {newline : Token}
    (hnewline : newline.type = .newline) (rest : List Token) :
    lines (line ++ newline :: rest) = (line ++ [newline]) :: lines rest := by
  induction line with
  | nil =>
    rw [List.nil_append]
    conv_lhs => unfold lines
    rw [if_pos hnewline]
    rfl
  | cons token line ih =>
    rw [List.cons_append]
    conv_lhs => unfold lines
    rw [if_neg (hline token List.mem_cons_self).2.1, ih (inner_tail hline)]
    rfl

/-- A file is one line, or one and a file. -/
theorem exists_split {body : List Token} (hbody : ∀ token ∈ body,
    token.type ≠ .error ∧ token.type ≠ .eof) : (∀ token ∈ body, Inner token) ∨
      ∃ line newline rest, body = line ++ newline :: rest ∧ (∀ token ∈ line, Inner token) ∧
        newline.type = .newline := by
  induction body with
  | nil => exact Or.inl (by simp)
  | cons token body ih =>
    obtain ⟨htoken, hrest⟩ := List.forall_mem_cons.mp hbody
    by_cases hnewline : token.type = .newline
    · exact Or.inr ⟨[], token, body, rfl, by simp, hnewline⟩
    · have hinner : Inner token := ⟨htoken.1, hnewline, htoken.2⟩
      rcases ih hrest with hall | ⟨line, newline, rest, rfl, hline, hend⟩
      · exact Or.inl (List.forall_mem_cons.mpr ⟨hinner, hall⟩)
      · exact Or.inr ⟨token :: line, newline, rest, rfl, List.forall_mem_cons.mpr ⟨hinner, hline⟩,
          hend⟩

/-- The parser, with this reported as well. -/
theorem reported_at (c : Context) (diagnostic : Option Diagnostic) (ending : Token) :
    (c.reported diagnostic).at [] ending = ⟨ending :: c.rest,
      ⟨c.diagnostics.diagnostics ++ diagnostic.toList⟩,
        c.failed || !diagnostic.toList.isEmpty⟩ := by
  cases diagnostic with
  | none => simp [Context.reported, Context.at]
  | some diagnostic => simp [Context.reported, Context.report, Context.at, DiagnosticEngine.report]

theorem reported_behind (c : Context) (diagnostic : Option Diagnostic) {newline : Token}
    (hnewline : newline.type = .newline) : (c.reported diagnostic).behind newline = ⟨c.rest,
      ⟨c.diagnostics.diagnostics ++ diagnostic.toList⟩,
        c.failed || !diagnostic.toList.isEmpty⟩ := by
  unfold Context.behind
  rw [if_pos hnewline]
  cases diagnostic with
  | none => simp [Context.reported]
  | some diagnostic => simp [Context.reported, Context.report, DiagnosticEngine.report]

/-- The last line of a file. -/
theorem exists_last {line : List Token} {eof : Token} (hline : ∀ token ∈ line, Inner token)
    (heof : eof.type = .eof) :
    ∃ (statements : List Statement) (diagnostic : Option Diagnostic),
      ∀ (c : Context) (fuel : ℕ) (out : List Statement),
        parseLines (fuel + 2) (c.at line eof) out =
          some (out ++ statements, (c.reported diagnostic).at [] eof) := by
  by_cases hempty : line = []
  · subst hempty
    refine ⟨[], none, fun c fuel out => ?_⟩
    rw [List.append_nil]
    exact parseLines_eof c heof (fuel + 1) out
  · obtain ⟨statements, diagnostic, hread⟩ :=
      exists_parseLines hline (Or.inr heof) (Or.inl hempty)
    refine ⟨statements, diagnostic, fun c fuel out => ?_⟩
    have hbehind : (c.reported diagnostic).behind eof = (c.reported diagnostic).at [] eof :=
      if_neg (by rw [heof]; decide)
    rw [hread, hbehind]
    exact parseLines_eof _ heof fuel _

/-- What is reported for a file, when that is known of the loop over its lines. -/
theorem reported_of_parseLines {tokens rest : List Token} {statements : List Statement}
    {diagnostic : Option Diagnostic}
    (h : parseLines (tokens.length + 1) { tokens } [] =
      some (statements, ⟨rest, ⟨diagnostic.toList⟩, !diagnostic.toList.isEmpty⟩)) :
    reported tokens = diagnostic.toList ∧
      (diagnostic = none → statementsOf tokens = statements) := by
  constructor
  · unfold reported parse
    dsimp only
    rw [h]
    dsimp only
    split_ifs <;> rfl
  · rintro rfl
    unfold statementsOf parse
    dsimp only
    rw [h]
    rfl

/-- The loop over the lines of a file reads these statements, and reports what is reported for the
lines, whatever was reported before it. -/
structure ReadsLines (eof : Token) (body : List Token) (statements : List Statement) : Prop where
  runs : ∀ (diagnostics : DiagnosticEngine) (failed : Bool) (fuel : ℕ) (out : List Statement),
    body.length + 2 ≤ fuel → parseLines fuel ⟨body ++ [eof], diagnostics, failed⟩ out =
      some (out ++ statements, ⟨[eof],
        ⟨diagnostics.diagnostics ++ (lines body).flatMap fun line => reported (line ++ [eof])⟩,
        failed || !((lines body).flatMap fun line => reported (line ++ [eof])).isEmpty⟩)
  single : ∀ line ∈ lines body, (reported (line ++ [eof])).length ≤ 1
  clean : ((lines body).flatMap fun line => reported (line ++ [eof])) = [] →
    statements = (lines body).flatMap fun line => statementsOf (line ++ [eof])

/-- A file of one line. -/
theorem exists_readsLines_of_inner {eof : Token} (heof : eof.type = .eof) {line : List Token}
    (hline : ∀ token ∈ line, Inner token) : ∃ statements, ReadsLines eof line statements := by
  obtain ⟨statements, diagnostic, hread⟩ := exists_last hline heof
  have hread : ∀ (diagnostics : DiagnosticEngine) (failed : Bool) (fuel : ℕ)
      (out : List Statement), parseLines (fuel + 2) ⟨line ++ [eof], diagnostics, failed⟩ out =
        some (out ++ statements, ⟨[eof], ⟨diagnostics.diagnostics ++ diagnostic.toList⟩,
          failed || !diagnostic.toList.isEmpty⟩) := by
    intro diagnostics failed fuel out
    rw [← reported_at ⟨[], diagnostics, failed⟩ diagnostic eof]
    exact hread ⟨[], diagnostics, failed⟩ fuel out
  have hself := hread {} false line.length []
  obtain ⟨hreported, hstatements⟩ := @reported_of_parseLines (line ++ [eof]) _ _ _ (by
    rw [List.length_append]
    exact hself)
  refine ⟨statements, ?_, ?_, ?_⟩
  · intro diagnostics failed fuel out hfuel
    obtain ⟨fuel, rfl⟩ := Nat.exists_eq_add_of_le' (show 2 ≤ fuel by omega)
    rw [hread, lines_of_inner hline, List.flatMap_singleton, hreported]
  · rw [lines_of_inner hline]
    intro other hmem
    rw [List.mem_singleton.mp hmem, hreported]
    cases diagnostic <;> simp
  · rw [lines_of_inner hline, List.flatMap_singleton, List.flatMap_singleton, hreported]
    intro hnone
    refine (hstatements ?_).symm
    cases diagnostic with
    | none => rfl
    | some diagnostic => cases hnone

/-- A line in front of a file. -/
theorem ReadsLines.cons {eof : Token} (heof : eof.type = .eof) {line rest : List Token}
    (hline : ∀ token ∈ line, Inner token) {newline : Token} (hnewline : newline.type = .newline)
    {later : List Statement} (h : ReadsLines eof rest later) :
    ∃ statements, ReadsLines eof (line ++ newline :: rest) statements := by
  obtain ⟨statements, diagnostic, hread⟩ :=
    exists_parseLines hline (Or.inl hnewline) (Or.inr hnewline)
  have hread : ∀ (rest : List Token) (diagnostics : DiagnosticEngine) (failed : Bool) (fuel : ℕ)
      (out : List Statement),
      parseLines (fuel + 1) ⟨line ++ newline :: rest, diagnostics, failed⟩ out =
        parseLines fuel ⟨rest, ⟨diagnostics.diagnostics ++ diagnostic.toList⟩,
          failed || !diagnostic.toList.isEmpty⟩ (out ++ statements) := by
    intro rest diagnostics failed fuel out
    rw [← reported_behind ⟨rest, diagnostics, failed⟩ diagnostic hnewline]
    exact hread ⟨rest, diagnostics, failed⟩ fuel out
  -- the line alone
  have hself : parseLines ((line ++ [newline] ++ [eof]).length + 1)
      { tokens := line ++ [newline] ++ [eof] } [] =
        some (statements, ⟨[eof], ⟨diagnostic.toList⟩, !diagnostic.toList.isEmpty⟩) := by
    rw [List.append_assoc, List.singleton_append]
    refine (hread [eof] {} false _ []).trans ?_
    rw [List.length_append]
    exact parseLines_eof ⟨[], ⟨diagnostic.toList⟩, !diagnostic.toList.isEmpty⟩ heof _ statements
  obtain ⟨hreported, hstatements⟩ := reported_of_parseLines hself
  have hempty : ∀ more : List Diagnostic, (diagnostic.toList ++ more).isEmpty =
      (diagnostic.toList.isEmpty && more.isEmpty) := by
    intro more
    cases diagnostic <;> rfl
  have hlines := lines_append hline hnewline rest
  refine ⟨statements ++ later, ?_, ?_, ?_⟩
  · intro diagnostics failed fuel out hfuel
    obtain ⟨fuel, rfl⟩ := Nat.exists_eq_succ_of_ne_zero (show fuel ≠ 0 by omega)
    rw [List.length_append, List.length_cons] at hfuel
    rw [hlines, List.flatMap_cons, hreported, List.append_assoc, List.cons_append, hread,
      h.runs _ _ fuel _ (by omega), List.append_assoc, List.append_assoc, hempty, Bool.not_and,
      Bool.or_assoc]
  · intro other hmem
    rw [hlines] at hmem
    rcases List.mem_cons.mp hmem with rfl | hmem
    · rw [hreported]
      cases diagnostic <;> simp
    · exact h.single other hmem
  · rw [hlines, List.flatMap_cons, List.flatMap_cons, hreported]
    intro hnone
    obtain ⟨hfirst, hothers⟩ := List.append_eq_nil_iff.mp hnone
    have hfirst : diagnostic = none := by
      cases diagnostic with
      | none => rfl
      | some diagnostic => cases hfirst
    rw [hstatements hfirst, h.clean hothers]

/-- Every file is read line by line. -/
theorem exists_readsLines {eof : Token} (heof : eof.type = .eof) {body : List Token}
    (hbody : ∀ token ∈ body, token.type ≠ .error ∧ token.type ≠ .eof) :
    ∃ statements, ReadsLines eof body statements := by
  induction hlength : body.length using Nat.strong_induction_on generalizing body with
  | _ n ih =>
    subst hlength
    rcases exists_split hbody with hline | ⟨line, newline, rest, rfl, hline, hnewline⟩
    · exact exists_readsLines_of_inner heof hline
    · have hrest : ∀ token ∈ rest, token.type ≠ .error ∧ token.type ≠ .eof :=
        fun token htoken => hbody token (List.mem_append_right _ (List.mem_cons_of_mem _ htoken))
      have hshort : rest.length < (line ++ newline :: rest).length := by
        rw [List.length_append, List.length_cons]
        omega
      obtain ⟨later, hlater⟩ := ih rest.length hshort hrest rfl
      exact hlater.cons heof hline hnewline

/-- **Recovery is line by line.**  What is reported for a file is what is reported for each of its
lines alone, at most one thing a line; and when there is nothing, its statements are those of the
lines. -/
theorem recovery_by_line {body : List Token} {eof : Token}
    (hbody : ∀ token ∈ body, token.type ≠ .error ∧ token.type ≠ .eof) (heof : eof.type = .eof)
    (diagnostics : DiagnosticEngine) :
    ∃ result p, parse { tokens := body ++ [eof], diagnostics } = some (result, p) ∧
      p.diagnostics.diagnostics = diagnostics.diagnostics ++
        (lines body).flatMap (fun line => reported (line ++ [eof])) ∧
      (∀ line ∈ lines body, (reported (line ++ [eof])).length ≤ 1) ∧
      ((lines body).flatMap (fun line => reported (line ++ [eof])) = [] →
        diagnostics.errorCount = 0 →
          result = .ok {
            statements := (lines body).flatMap fun line => statementsOf (line ++ [eof]) }) := by
  obtain ⟨statements, hparse, hone, hall⟩ := exists_readsLines heof hbody
  have hrun := hparse diagnostics false ((body ++ [eof]).length + 1) [] (by
    rw [List.length_append]
    exact le_rfl)
  unfold parse
  dsimp only
  rw [hrun]
  dsimp only
  split_ifs with hbad
  · refine ⟨_, _, rfl, rfl, hone, fun hnone hclean => ?_⟩
    -- nothing was reported, so the parser has not failed
    rw [hnone, List.append_nil] at hbad
    have hcount : (⟨diagnostics.diagnostics⟩ : DiagnosticEngine).errorCount = 0 := hclean
    rw [hcount] at hbad
    exact absurd hbad (by decide)
  · refine ⟨_, _, rfl, rfl, hone, fun hnone _ => ?_⟩
    rw [List.nil_append, hall hnone]

/-- A line that starts with a comma, and one that is right. -/
def commaLines : List Token :=
  ⟨.comma, str ",", {}, 0, []⟩ :: ⟨.newline, str "\n", {}, 0, []⟩ :: addLine

theorem recovery_by_line_comma : ∃ result p,
    parse { tokens := commaLines ++ [endOfFile] } = some (result, p) ∧
      p.diagnostics.diagnostics =
        (lines commaLines).flatMap fun line => reported (line ++ [endOfFile]) := by
  obtain ⟨result, p, hparse, hreported, -⟩ :=
    @recovery_by_line commaLines endOfFile (by decide) rfl {}
  exact ⟨result, p, hparse, hreported⟩

example : (lines commaLines).map (fun line => (reported (line ++ [endOfFile])).length) =
    [1, 0, 0] := by
  decide

end Parser
end MiniTool
