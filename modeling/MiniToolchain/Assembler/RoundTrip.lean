import MiniToolchain.Assembler.Pipeline
import MiniToolchain.Lexer.Integers
import MiniToolchain.Parser.Derivation

/-!
# Assembling a printed instruction

The text of a decoded instruction that is not a branch, assembled as a file of one line.

## Main definitions

* `Printed.shapes`, `Printed.Means` — an operand as tokens, and as an operand of the parse tree.
* `OneStatement`, `HoldsWord` — a file of one instruction, and an object of one word.

## Main results

* `scans_line` — the tokens of a printed instruction.
* `assembleSource_accepted`, `assembleSource_rejected` — a file of one instruction.
* `assemble_toString` — assembling it gives its bytes back.
-/

namespace MiniTool

open Lexer Isa

/-! ### Numbers -/

theorem decimal_ne_nil (n : ℕ) : decimal n ≠ [] := by
  unfold decimal
  split_ifs with h
  · simp
  · simpa [Nat.digits_eq_nil_iff_eq_zero] using h

/-- The character of a digit. -/
theorem digit_char : ∀ d < 10, isDigit (UInt8.ofNat (48 + d)) = true ∧
    digitValue (UInt8.ofNat (48 + d)) = d := by decide

theorem isDigit_of_mem_decimal (n : ℕ) : ∀ c ∈ decimal n, isDigit c = true := by
  intro c hc
  unfold decimal at hc
  split_ifs at hc with h
  · rw [List.mem_singleton.mp hc]
    decide
  · obtain ⟨d, hd, rfl⟩ := List.mem_map.mp hc
    exact (digit_char d (Nat.digits_lt_base (by decide) (List.mem_reverse.mp hd))).1

theorem digitsValue_decimal (n : ℕ) : digitsValue 10 (decimal n) = n := by
  have hfold : ∀ digits : List ℕ, (∀ d ∈ digits, d < 10) →
      digits.foldr (fun d value => value * 10 + digitValue (UInt8.ofNat (48 + d))) 0 =
        Nat.ofDigits 10 digits := by
    intro digits
    induction digits with
    | nil => exact fun _ => rfl
    | cons d digits ih =>
      intro h
      obtain ⟨hd, hmore⟩ := List.forall_mem_cons.mp h
      rw [List.foldr_cons, ih hmore, Nat.ofDigits_cons, (digit_char d hd).2]
      ring
  unfold decimal
  split_ifs with h
  · rw [h]
    rfl
  · unfold digitsValue
    rw [List.foldl_map, List.foldl_reverse, hfold _ fun d hd => Nat.digits_lt_base (by decide) hd,
      Nat.ofDigits_digits]

/-! ### The tokens of an operand -/

/-- A number in front of what stops it. -/
theorem reads_decimal (n : ℕ) (h : n < 2 ^ 63) {rest : Str} (hrest : Stops rest) :
    Reads (decimal n ++ rest) ⟨.integer, decimal n, (UInt64.ofNat n).toInt64⟩ rest := by
  have hread := reads_number (decimal_ne_nil n) (isDigit_of_mem_decimal n) hrest
    (by rwa [digitsValue_decimal])
  rwa [digitsValue_decimal] at hread

theorem magnitude_eq (value : Int64) :
    magnitude value = if value < 0 then -value.toUInt64 else value.toUInt64 := by
  unfold magnitude
  rw [UInt64.neg_eq_not_add]

/-- The absolute value is printed without its sign. -/
theorem magnitude_toNat (value : Int64) : (magnitude value).toNat = value.toInt.natAbs := by
  have hvalue := ByteOrder.toInt_eq_ite value
  have hlt := value.toUInt64.toNat_lt
  have hzero : (0 : Int64).toInt = 0 := rfl
  have hlower := value.le_toInt
  by_cases hneg : value < 0
  · rw [magnitude_eq, if_pos hneg, UInt64.toNat_neg, show UInt64.size = 2 ^ 64 from rfl]
    rw [Int64.lt_iff_toInt_lt, hzero] at hneg
    split_ifs at hvalue <;> omega
  · rw [magnitude_eq, if_neg hneg]
    rw [Int64.lt_iff_toInt_lt, hzero] at hneg
    split_ifs at hvalue <;> omega

theorem reads_signedDecimal (value : Int64) {rest : Str} (hrest : Stops rest) :
    Reads (signedDecimal value ++ rest) ⟨.integer, signedDecimal value, value⟩ rest := by
  have hzero : (0 : Int64).toInt = 0 := rfl
  have hmagnitude := magnitude_toNat value
  have hbounds := And.intro value.le_toInt value.toInt_lt
  by_cases hneg : value < 0
  · have hread := reads_negative (decimal_ne_nil (magnitude value).toNat)
      (isDigit_of_mem_decimal _) hrest (by rw [digitsValue_decimal]; omega)
    rw [digitsValue_decimal, UInt64.ofNat_toNat, ← UInt64.neg_eq_not_add] at hread
    have hvalue : (-magnitude value).toInt64 = value := by
      rw [magnitude_eq, if_pos hneg, UInt64.neg_neg]
      exact Int64.toInt64_toUInt64 value
    rw [hvalue] at hread
    unfold signedDecimal
    rw [if_pos hneg]
    exact hread
  · have hge : 0 ≤ value.toInt := by
      rw [Int64.lt_iff_toInt_lt, hzero] at hneg
      omega
    have hread := reads_decimal (magnitude value).toNat (by omega) hrest
    have hvalue : (magnitude value).toInt64 = value := by
      rw [magnitude_eq, if_neg hneg]
      exact Int64.toInt64_toUInt64 value
    rw [UInt64.ofNat_toNat, hvalue] at hread
    unfold signedDecimal
    rw [if_neg hneg, List.nil_append]
    exact hread

/-! ### Operands -/

namespace Isa.Printed

def shapes : Printed → List Shape
  | .reg r => [⟨.register, str (registerName r), 0⟩]
  | .imm value => [⟨.integer, signedDecimal value, value⟩]
  | .mem base displacement =>
    [⟨.lBracket, str "[", 0⟩, ⟨.register, str (registerName base), 0⟩,
     ⟨if displacement < 0 then .minus else .plus, signOf displacement, 0⟩,
     ⟨.integer, decimal (magnitude displacement).toNat, (magnitude displacement).toInt64⟩,
     ⟨.rBracket, str "]", 0⟩]

/-- The registers exist, and the displacement has an absolute value. -/
def Valid : Printed → Prop
  | .reg r => isValidRegister r = true
  | .imm _ => True
  | .mem base displacement => isValidRegister base = true ∧ displacement.toInt.natAbs < 2 ^ 63

/-- The operand of the parse tree that is printed so. -/
def Means (operand : Printed) (parsed : Ast.Operand) : Prop :=
  match operand with
  | .reg r => parsed.type = .register ∧ parsed.reg = r
  | .imm value => parsed.type = .immediate ∧ parsed.immediate = value
  | .mem base displacement =>
    parsed.type = .memory ∧ parsed.reg = base ∧ parsed.immediate = displacement

end Isa.Printed

theorem registerName_word_ofNat : ∀ n < 16, isWord (str (registerName (Reg.ofNat n))) = true ∧
    wordType (str (registerName (Reg.ofNat n))) = .register := by decide

theorem reads_register {r : Reg} (h : isValidRegister r = true) {rest : Str} (hrest : Stops rest) :
    Reads (str (registerName r) ++ rest) ⟨.register, str (registerName r), 0⟩ rest := by
  have hlt : registerIndex r < 16 := by simpa [isValidRegister] using h
  have hword := registerName_word_ofNat _ hlt
  have hreg : Reg.ofNat (registerIndex r) = r := by
    cases r with
    | mk index => simp [Reg.ofNat, registerIndex]
  rw [hreg] at hword
  have hread := reads_word hword.1 hrest
  rwa [hword.2] at hread

theorem reads_sign (displacement : Int64) (rest : Str) :
    Reads (signOf displacement ++ 32 :: rest)
      ⟨if displacement < 0 then .minus else .plus, signOf displacement, 0⟩ (32 :: rest) := by
  unfold signOf
  by_cases h : displacement < 0
  · rw [if_pos h, if_pos h]
    exact reads_minus rfl
  · rw [if_neg h, if_neg h]
    exact reads_punctuation rfl (by decide) (by decide) _

theorem scans_blank {ptr : Str} {shapes : List Shape} (h : Scans ptr shapes) :
    Scans (32 :: ptr) shapes := by
  cases h with
  | done h => exact .done (reads_blank h (by decide))
  | token h heof hrest => exact .token (reads_blank h (by decide)) heof hrest

theorem scans_operand {operand : Printed} (hvalid : operand.Valid) {rest : Str}
    {shapes : List Shape} (hstops : Stops rest) (h : Scans rest shapes) :
    Scans (operand.text ++ rest) (operand.shapes ++ shapes) := by
  cases operand with
  | reg r => exact .token (reads_register hvalid hstops) TokenType.noConfusion h
  | imm value => exact .token (reads_signedDecimal value hstops) TokenType.noConfusion h
  | mem base displacement =>
    obtain ⟨hbase, hfits⟩ := hvalid
    have hmagnitude := magnitude_toNat displacement
    have hclose : Scans (93 :: rest) (⟨.rBracket, str "]", 0⟩ :: shapes) :=
      .token (reads_punctuation rfl (by decide) (by decide) rest) TokenType.noConfusion h
    have hclosing : Stops (93 :: rest) := stops_cons (by decide) rest
    have hlt : (magnitude displacement).toNat < 2 ^ 63 := by omega
    have hnumber := reads_decimal _ hlt hclosing
    rw [UInt64.ofNat_toNat] at hnumber
    have hsign := reads_sign displacement
      (decimal (magnitude displacement).toNat ++ 93 :: rest)
    have hregister :=
      reads_register hbase (stops_cons (show isIdentifierContinue 32 = false by decide)
        (signOf displacement ++ 32 :: (decimal (magnitude displacement).toNat ++ 93 :: rest)))
    have htext : (Printed.mem base displacement).text ++ rest =
        91 :: (str (registerName base) ++ 32 :: (signOf displacement ++ 32 ::
          (decimal (magnitude displacement).toNat ++ 93 :: rest))) := by
      have hopening : str "[" = [91] := by decide
      have hblank : str " " = [32] := by decide
      have hbracket : str "]" = [93] := by decide
      simp only [Printed.text, hopening, hblank, hbracket, List.append_assoc,
        List.cons_append, List.nil_append]
    rw [htext]
    refine .token (reads_punctuation rfl (by decide) (by decide) _) TokenType.noConfusion ?_
    refine .token hregister TokenType.noConfusion (scans_blank ?_)
    refine .token hsign (by dsimp only; split_ifs <;> decide) (scans_blank ?_)
    exact .token hnumber TokenType.noConfusion hclose

/-- The tokens of the operands after the first. -/
def moreShapes : List Printed → List Shape
  | [] => []
  | operand :: rest => ⟨.comma, str ",", 0⟩ :: (operand.shapes ++ moreShapes rest)

def operandShapes : List Printed → List Shape
  | [] => []
  | operand :: rest => operand.shapes ++ moreShapes rest

theorem stops_moreText (operands : List Printed) : Stops (moreText operands) := by
  cases operands with
  | nil => exact stops_nil
  | cons operand rest => exact stops_cons (by decide) _

theorem scans_moreText {operands : List Printed} (hvalid : ∀ operand ∈ operands, operand.Valid) :
    Scans (moreText operands) (moreShapes operands) := by
  induction operands with
  | nil => exact .done reads_end
  | cons operand rest ih =>
    obtain ⟨hfirst, hrest⟩ := List.forall_mem_cons.mp hvalid
    have hcomma : str ", " = [44, 32] := by decide
    have hscans := scans_operand hfirst (stops_moreText rest) (ih hrest)
    unfold moreText moreShapes
    rw [hcomma]
    exact .token (reads_punctuation rfl (by decide) (by decide) _) TokenType.noConfusion
      (scans_blank hscans)

/-- The tokens of a printed instruction. -/
theorem scans_line {name : Str} (hword : isWord name = true) {operands : List Printed}
    (hvalid : ∀ operand ∈ operands, operand.Valid) :
    Scans (name ++ operandsText operands) (⟨wordType name, name, 0⟩ :: operandShapes operands) := by
  have htype : wordType name ≠ .eof := by
    unfold wordType
    split_ifs <;> decide
  cases operands with
  | nil => exact .token (reads_word hword stops_nil) htype (.done reads_end)
  | cons operand rest =>
    obtain ⟨hfirst, hrest⟩ := List.forall_mem_cons.mp hvalid
    have hblank : str " " = [32] := by decide
    have hscans := scans_operand hfirst (stops_moreText rest) (scans_moreText hrest)
    unfold operandsText operandShapes
    rw [hblank]
    exact .token (reads_word hword (stops_cons (by decide) _)) htype (scans_blank hscans)

theorem type_of_mem_shapes {operands : List Printed} :
    ∀ shape ∈ operandShapes operands, shape.type ≠ .error := by
  have hone : ∀ operand : Printed, ∀ shape ∈ operand.shapes, shape.type ≠ .error := by
    intro operand shape hmem
    cases operand with
    | reg r => simp_all [Printed.shapes]
    | imm value => simp_all [Printed.shapes]
    | mem base displacement =>
      simp only [Printed.shapes, List.mem_cons, List.not_mem_nil, or_false] at hmem
      rcases hmem with rfl | rfl | rfl | rfl | rfl
      · simp
      · simp
      · dsimp only
        split_ifs <;> decide
      · simp
      · simp
  have hmore : ∀ operands, ∀ shape ∈ moreShapes operands, shape.type ≠ .error := by
    intro operands
    induction operands with
    | nil => simp [moreShapes]
    | cons operand rest ih =>
      intro shape hmem
      rcases List.mem_cons.mp hmem with rfl | hmem
      · decide
      · rcases List.mem_append.mp hmem with hmem | hmem
        · exact hone operand shape hmem
        · exact ih shape hmem
  cases operands with
  | nil => simp [operandShapes]
  | cons operand rest =>
    intro shape hmem
    rcases List.mem_append.mp hmem with hmem | hmem
    · exact hone operand shape hmem
    · exact hmore rest shape hmem

/-! ### The parse tree -/

open MiniTool.Parser

theorem derives_operand {operand : Printed} (hvalid : operand.Valid) {tokens : List Token}
    (h : tokens.map shapeOf = operand.shapes) :
    ∃ parsed, DerivesOperand tokens parsed ∧ operand.Means parsed := by
  cases operand with
  | reg r =>
    obtain ⟨token, rfl, hshape⟩ := List.map_eq_singleton_iff.mp h
    simp only [shapeOf, Shape.mk.injEq] at hshape
    obtain ⟨htype, htext, -⟩ := hshape
    refine ⟨_, .register htype, rfl, ?_⟩
    show registerOf token = r
    rw [registerOf, htext, parseRegister_registerName hvalid]
    rfl
  | imm value =>
    obtain ⟨token, rfl, hshape⟩ := List.map_eq_singleton_iff.mp h
    simp only [shapeOf, Shape.mk.injEq] at hshape
    exact ⟨_, .constant (Or.inl hshape.1), rfl, hshape.2.2⟩
  | mem base displacement =>
    simp only [Printed.shapes, List.map_eq_cons_iff, List.map_eq_nil_iff] at h
    obtain ⟨opening, _, rfl, hopening, register, _, rfl, hregister, sign, _, rfl, hsign, number, _,
      rfl, hnumber, closing, _, rfl, hclosing, rfl⟩ := h
    simp only [shapeOf, Shape.mk.injEq] at hopening hregister hsign hnumber hclosing
    have hbase : registerOf register = base := by
      rw [registerOf, hregister.2.1, parseRegister_registerName hvalid.1]
      rfl
    by_cases hneg : displacement < 0
    · rw [if_pos hneg] at hsign
      refine ⟨_, .memoryOffset hopening.1 hregister.1 (.minus hsign.1 hnumber.1) hclosing.1,
        rfl, hbase, ?_⟩
      show -number.intValue = displacement
      rw [hnumber.2.2, magnitude_eq, if_pos hneg, UInt64.toInt64_neg, Int64.neg_neg]
      exact Int64.toInt64_toUInt64 displacement
    · rw [if_neg hneg] at hsign
      refine ⟨_, .memoryOffset hopening.1 hregister.1 (.plus hsign.1 hnumber.1) hclosing.1,
        rfl, hbase, ?_⟩
      show number.intValue = displacement
      rw [hnumber.2.2, magnitude_eq, if_neg hneg]
      exact Int64.toInt64_toUInt64 displacement

theorem derives_operands {operand : Printed} {rest : List Printed} {tokens : List Token}
    (hvalid : ∀ other ∈ operand :: rest, other.Valid)
    (h : tokens.map shapeOf = operandShapes (operand :: rest)) :
    ∃ parsed, DerivesOperands tokens parsed ∧
      List.Forall₂ Printed.Means (operand :: rest) parsed := by
  induction rest generalizing operand tokens with
  | nil =>
    simp only [operandShapes, moreShapes, List.append_nil] at h
    obtain ⟨parsed, hderives, hmeans⟩ := derives_operand (hvalid operand List.mem_cons_self) h
    exact ⟨[parsed], .one hderives, .cons hmeans .nil⟩
  | cons next rest ih =>
    obtain ⟨hfirst, hrest⟩ := List.forall_mem_cons.mp hvalid
    simp only [operandShapes, moreShapes] at h
    obtain ⟨used, later, rfl, hused, hlater⟩ := List.map_eq_append_iff.mp h
    obtain ⟨comma, later, rfl, hcomma, hlater⟩ := List.map_eq_cons_iff.mp hlater
    simp only [shapeOf, Shape.mk.injEq] at hcomma
    obtain ⟨parsed, hderives, hmeans⟩ := derives_operand hfirst hused
    obtain ⟨more, hmore, hall⟩ := ih hrest hlater
    exact ⟨parsed :: more, .cons hderives hcomma.1 hmore, .cons hmeans hall⟩

theorem derives_arguments {operands : List Printed} {tokens : List Token}
    (hvalid : ∀ operand ∈ operands, operand.Valid)
    (h : tokens.map shapeOf = operandShapes operands) :
    ∃ parsed, DerivesArguments tokens parsed ∧ List.Forall₂ Printed.Means operands parsed := by
  cases operands with
  | nil =>
    simp only [operandShapes, List.map_eq_nil_iff] at h
    rw [h]
    exact ⟨[], .none, .nil⟩
  | cons operand rest =>
    obtain ⟨parsed, hderives, hmeans⟩ := derives_operands hvalid h
    exact ⟨parsed, .some hderives, hmeans⟩

/-! ### Analysis and lowering -/

theorem findMnemonic_of_mem : ∀ info ∈ kOpcodes, findMnemonic (str info.mnemonic) = some info ∧
    isWord (str info.mnemonic) = true ∧ wordType (str info.mnemonic) = .identifier := by
  decide

theorem isValidRegister_of_lt {r : Reg} (h : registerIndex r < 16) : isValidRegister r = true := by
  simpa [isValidRegister] using h

section

variable {info : OpcodeInfo} {i : Instruction}

theorem printed_valid (hc : Canonical (fieldsOf info.format) i) :
    ∀ operand ∈ printedOperands info i, operand.Valid := by
  have hdst := isValidRegister_of_lt hc.dstValid
  have hsrc := isValidRegister_of_lt hc.srcValid
  unfold printedOperands
  cases hformat : info.format with
  | none => simp
  | reg1 => simpa [Printed.Valid] using hdst
  | reg2 => simpa [Printed.Valid] using ⟨hdst, hsrc⟩
  | regImm => simpa [Printed.Valid] using hdst
  | mem =>
    rw [hformat] at hc
    have hrange := hc.signed rfl rfl
    have hfits : i.imm.toInt.natAbs < 2 ^ 63 := by omega
    dsimp only
    split_ifs
    · simpa [Printed.Valid] using ⟨⟨hdst, hfits⟩, hsrc⟩
    · simpa [Printed.Valid] using ⟨hdst, hsrc, hfits⟩
  | jump => simp
  | sysImm => simp [Printed.Valid]

/-- The immediate of an instruction passes the range check on a literal. -/
theorem checkSignedRange_of_fits (operand : Ast.Operand) (what : String)
    (h : -2 ^ 47 ≤ operand.immediate.toInt ∧ operand.immediate.toInt < 2 ^ 47) :
    Sema.checkSignedRange operand kImmediateBits what = [] := by
  unfold Sema.checkSignedRange
  rw [if_pos ((signedImm_iff _).mpr h)]
  split_ifs <;> rfl

/-- The operands of a printed instruction pass their checks, and are lowered to the instruction. -/
theorem accepts_printed (hinfo : findOpcode i.opcode = some info)
    (hc : Canonical (fieldsOf info.format) i) (hjump : info.format ≠ .jump)
    {parsed : List Ast.Operand}
    (hmeans : List.Forall₂ Printed.Means (printedOperands info i) parsed) (mnemonic : Str)
    (location : SourceLocation) :
    parsed.length = operandCount info.format ∧
      Sema.checkOperands info (parsed.getD 0 {}) (parsed.getD 1 {}) = [] ∧
      Ir.lowerInstruction info { mnemonic, operands := parsed, location } =
        some { machine := i, location } := by
  have hopcode := opcode_of_findOpcode hinfo
  unfold printedOperands at hmeans
  unfold Sema.checkOperands Ir.lowerInstruction
  cases i with
  | mk opcode dst src imm =>
  cases hformat : info.format with
  | jump => exact absurd hformat hjump
  | none =>
    rw [hformat] at hmeans hc
    cases hmeans
    have hd : dst = .R0 := hc.dst rfl
    have hs : src = .R0 := hc.src rfl
    have hi : imm = 0 := hc.imm rfl
    subst hd hs hi
    exact ⟨rfl, rfl, by simp [hopcode]⟩
  | reg1 =>
    rw [hformat] at hmeans hc
    obtain ⟨first, _, ⟨htype, hreg⟩, hnil, rfl⟩ := List.forall₂_cons_left_iff.mp hmeans
    cases hnil
    have hs : src = .R0 := hc.src rfl
    have hi : imm = 0 := hc.imm rfl
    subst hs hi
    exact ⟨rfl, by simp [Sema.requireKind, htype], by simp [hopcode, hreg]⟩
  | reg2 =>
    rw [hformat] at hmeans hc
    obtain ⟨first, _, ⟨htype, hreg⟩, hmore, rfl⟩ := List.forall₂_cons_left_iff.mp hmeans
    obtain ⟨second, _, ⟨htype', hreg'⟩, hnil, rfl⟩ := List.forall₂_cons_left_iff.mp hmore
    cases hnil
    have hi : imm = 0 := hc.imm rfl
    subst hi
    exact ⟨rfl, by simp [Sema.requireKind, htype, htype'], by simp [hopcode, hreg, hreg']⟩
  | regImm =>
    rw [hformat] at hmeans hc
    obtain ⟨first, _, ⟨htype, hreg⟩, hmore, rfl⟩ := List.forall₂_cons_left_iff.mp hmeans
    obtain ⟨second, _, ⟨htype', himm⟩, hnil, rfl⟩ := List.forall₂_cons_left_iff.mp hmore
    cases hnil
    have hs : src = .R0 := hc.src rfl
    subst hs
    have hrange := checkSignedRange_of_fits second "immediate" (by
      rw [himm]
      exact hc.signed rfl rfl)
    refine ⟨rfl, ?_, by simp [hopcode, hreg, Ir.setValue, htype', himm]⟩
    simp only [List.getD_cons_zero, List.getD_cons_succ, hrange]
    simp [Sema.requireKind, htype, Sema.isValueOperand, htype']
  | mem =>
    rw [hformat] at hmeans hc
    dsimp only at hmeans hopcode
    rw [hopcode]
    by_cases hstore : opcode = .STORE
    · rw [if_pos hstore] at hmeans
      obtain ⟨first, _, ⟨htype, hreg, himm⟩, hmore, rfl⟩ := List.forall₂_cons_left_iff.mp hmeans
      obtain ⟨second, _, ⟨htype', hreg'⟩, hnil, rfl⟩ := List.forall₂_cons_left_iff.mp hmore
      cases hnil
      have hrange := checkSignedRange_of_fits first "displacement" (by
        rw [himm]
        exact hc.signed rfl rfl)
      refine ⟨rfl, ?_, by simp [hstore, hreg, hreg', himm]⟩
      simp only [List.getD_cons_zero, List.getD_cons_succ, hstore, if_true, hrange]
      simp [Sema.requireKind, htype, htype']
    · rw [if_neg hstore] at hmeans
      obtain ⟨first, _, ⟨htype, hreg⟩, hmore, rfl⟩ := List.forall₂_cons_left_iff.mp hmeans
      obtain ⟨second, _, ⟨htype', hreg', himm⟩, hnil, rfl⟩ := List.forall₂_cons_left_iff.mp hmore
      cases hnil
      have hrange := checkSignedRange_of_fits second "displacement" (by
        rw [himm]
        exact hc.signed rfl rfl)
      refine ⟨rfl, ?_, by simp [hstore, hreg, hreg', himm]⟩
      simp only [List.getD_cons_zero, List.getD_cons_succ, hstore, if_false, hrange]
      simp [Sema.requireKind, htype, htype']
  | sysImm =>
    rw [hformat] at hmeans hc
    obtain ⟨first, _, ⟨htype, himm⟩, hnil, rfl⟩ := List.forall₂_cons_left_iff.mp hmeans
    cases hnil
    have hd : dst = .R0 := hc.dst rfl
    have hs : src = .R0 := hc.src rfl
    subst hd hs
    have hrange := (unsignedImm_iff imm).mpr (hc.unsigned rfl rfl)
    refine ⟨rfl, ?_, by simp [hopcode, himm]⟩
    simp only [List.getD_cons_zero, htype, himm]
    rw [if_neg (by simp), if_neg hrange]

end

/-! ### The whole pipeline -/

/-- A module of one instruction that needs no linking. -/
def oneSection (i : Instruction) (location : SourceLocation) : Ir.Section :=
  { kind := .text, name := Ir.sectionName .text,
    items := [.instruction { machine := i, location }] }

def oneInstruction (sourceName : Str) (i : Instruction) (location : SourceLocation) : Ir.Module :=
  { sourceName, sections := [oneSection i location] }

theorem lower_oneInstruction (node : Ast.InstructionNode) {info : OpcodeInfo} {i : Instruction}
    (hmnemonic : findMnemonic node.mnemonic = some info)
    (hlower : Ir.lowerInstruction info node = some { machine := i, location := node.location })
    (sourceName : Str) (diagnostics : Diag.DiagnosticEngine) :
    Ir.lower { statements := [.instruction node] } sourceName diagnostics =
      .ok (oneInstruction sourceName i node.location, diagnostics) := by
  have hstep : Ir.lowerStatement (Ir.startLowerer sourceName diagnostics) (.instruction node) =
      some ((Ir.startLowerer sourceName diagnostics).emit
        (.instruction { machine := i, location := node.location })) := by
    simp only [Ir.lowerStatement, Ir.lowerInstructionNode, hmnemonic, hlower]
    rfl
  unfold Ir.lower
  rw [List.foldlM_cons, hstep]
  rfl

/-- The object is a `.text` section of one word, with nothing to relocate. -/
structure HoldsWord (o : Object.ObjectFile) (w : UInt64) : Prop where
  code : ∃ s, o.sections = [s] ∧ s.type = .text ∧ s.size = 8 ∧ s.data = ByteOrder.littleEndian 8 w
  relocations : o.relocations = []

/-- What assembling one instruction gives. -/
theorem assemble_oneInstruction {memory : ℕ} (hmemory : kInstructionSize ≤ memory)
    {i : Instruction} {w : UInt64} (h : encode i = .ok w) (sourceName : Str)
    (location : SourceLocation) (diagnostics : Diag.DiagnosticEngine) :
    ∃ o, Assembler.assemble memory (oneInstruction sourceName i location) diagnostics =
        .ok (o, diagnostics) ∧ HoldsWord o w := by
  have hencode : encodeInto (List.replicate kInstructionSize 0) i =
      .ok (ByteOrder.littleEndian 8 w) :=
    (encodeInto_eq_ok List.length_replicate).mpr ⟨w, h, rfl⟩
  -- the state after the first pass
  let text : Object.Section :=
    { name := Ir.sectionName .text, type := .text, flags := Assembler.sectionFlagsOf .text
      alignment := 8, size := 8, index := 0 }
  let c : Assembler.AssemblyContext :=
    { object := { sections := [text], sourceFiles := [sourceName] }, diagnostics }
  let entry : Object.DebugEntry :=
    { sectionId := 0, file := 0, offset := 0, line := location.line, column := location.column }
  have hfirst : Assembler.AssemblyContext.applyBindings
      (Assembler.AssemblyContext.layoutAndDefineSymbols
        (Assembler.AssemblyContext.collectSections { diagnostics }
          (oneInstruction sourceName i location)) (oneInstruction sourceName i location))
      (oneInstruction sourceName i location) = c := rfl
  have hfits : kInstructionSize ≤ Assembler.capacity memory := le_min (by decide) hmemory
  have hitem : c.emitInstruction memory { machine := i, location } 0 [] =
      .ok (c.pushDebug entry, ByteOrder.littleEndian 8 w) := by
    unfold Assembler.AssemblyContext.emitInstruction
    have hplace : Assembler.AssemblyContext.placeholder { machine := i, location } = i := rfl
    simp only [hplace, hencode]
    rw [Assembler.AssemblyContext.append_of_le (by rw [ByteOrder.length_littleEndian]; exact hfits)]
    rfl
  have hfinish : (c.pushDebug entry).finishSection (oneSection i location) 0
      (ByteOrder.littleEndian 8 w) =
      (c.pushDebug entry).modifySection 0 fun s =>
          { s with data := ByteOrder.littleEndian 8 w } := by
    have hsize : ¬UInt64.ofNat (ByteOrder.littleEndian 8 w).length ≠
        ((c.pushDebug entry).object.sections.getD 0 {}).size := by
      rw [ByteOrder.length_littleEndian]
      exact not_not.mpr rfl
    unfold Assembler.AssemblyContext.finishSection
    dsimp only
    rw [if_pos (show Ir.sectionHasData (oneSection i location).kind = true from rfl), if_neg hsize]
  have hsection : c.emitSection memory (oneSection i location, 0) =
      .ok ((c.pushDebug entry).modifySection 0
        fun s => { s with data := ByteOrder.littleEndian 8 w }) := by
    unfold Assembler.AssemblyContext.emitSection
    have hreserve : Assembler.allocate memory (c.object.sections.getD 0 {}).size.toNat = .ok () :=
      Assembler.allocate_eq_ok.mpr hfits
    dsimp only
    rw [hreserve]
    show (c.emitInstruction memory { machine := i, location } 0 [] >>= _) >>= _ = _
    rw [hitem]
    exact congrArg Except.ok hfinish
  have hemit : c.emit memory (oneInstruction sourceName i location) =
      .ok ((c.pushDebug entry).modifySection 0
        fun s => { s with data := ByteOrder.littleEndian 8 w }) := by
    show (c.emitSection memory (oneSection i location, 0) >>= fun c => pure c) = _
    rw [hsection]
    rfl
  refine ⟨((c.pushDebug entry).modifySection 0
    fun s => { s with data := ByteOrder.littleEndian 8 w }).object, ?_,
      ⟨_, rfl, rfl, rfl, rfl⟩, rfl⟩
  unfold Assembler.assemble
  dsimp only
  rw [hfirst, hemit]
  rfl

/-- The tokens of one statement, and what is derived from them. -/
structure OneStatement (text : Str) (file : FileId) (node : Ast.InstructionNode) : Prop where
  tokens : ∃ body eof, lexAll text file = body ++ [eof] ∧ eof.type = .eof ∧ Clean (body ++ [eof]) ∧
    DerivesProgram body [.instruction node]

section

variable {sources : SourceManager} {file : FileId} {name text : Str} {node : Ast.InstructionNode}
  {info : OpcodeInfo}

/-- A file of one statement goes on to the analysis. -/
theorem assembleSource_of_oneStatement (oob : ℕ → Bool) (memory : ℕ)
    (hsource : sources[file.toNat]? = some ⟨name, text⟩) (h : OneStatement text file node)
    (options : AssembleOptions) :
    assembleSource oob memory sources file {} options =
      some (assembleProgram oob memory { statements := [.instruction node] } name {} options) := by
  obtain ⟨body, eof, htokens, heof, hclean, hderives⟩ := h.tokens
  unfold assembleSource
  simp only [hsource, htokens, parse_of_derives hclean heof hderives]

/-- What the analysis finds in one statement. -/
theorem analyze_oneStatement (hmnemonic : findMnemonic node.mnemonic = some info)
    (hlength : node.operands.length = operandCount info.format) :
    Sema.analyze {} { statements := [.instruction node] } =
      ((Sema.checkOperands info (node.operands.getD 0 {}) (node.operands.getD 1 {})).isEmpty,
        { diagnostics :=
            Sema.checkOperands info (node.operands.getD 0 {}) (node.operands.getD 1 {}) }) := by
  have hcheck : Sema.checkInstruction node =
      Sema.checkOperands info (node.operands.getD 0 {}) (node.operands.getD 1 {}) := by
    unfold Sema.checkInstruction
    simp only [hmnemonic, hlength, ne_eq, not_true_eq_false, if_false]
  unfold Sema.analyze Sema.analyzeFrom Sema.analyzeFrom
  rw [hcheck, List.append_nil]
  rfl

/-- A file of one instruction that passes its checks is assembled to the word of the instruction. -/
theorem assembleSource_accepted {oob : ℕ → Bool} {memory : ℕ}
    (hmemory : kInstructionSize ≤ memory) {options : AssembleOptions}
    (hsource : sources[file.toNat]? = some ⟨name, text⟩) (h : OneStatement text file node)
    (hmnemonic : findMnemonic node.mnemonic = some info)
    (hlength : node.operands.length = operandCount info.format)
    (hchecks : Sema.checkOperands info (node.operands.getD 0 {}) (node.operands.getD 1 {}) = [])
    {i : Instruction}
    (hlower : Ir.lowerInstruction info node = some { machine := i, location := node.location })
    (hkept : (Optimizer.run oob options.optLevel (oneInstruction name i node.location)).1 =
      oneInstruction name i node.location)
    {w : UInt64} (hencode : encode i = .ok w) :
    ∃ result, assembleSource oob memory sources file {} options = some (.ok result, {}) ∧
      HoldsWord result.object w := by
  have hmodule := lower_oneInstruction node hmnemonic hlower name {}
  obtain ⟨o, hassemble, hword⟩ :=
    assemble_oneInstruction hmemory hencode name node.location {}
  refine ⟨{ object := if options.emitDebugInfo then o else withoutDebugInfo o,
            stats := (Optimizer.run oob options.optLevel (oneInstruction name i node.location)).2,
            module := oneInstruction name i node.location }, ?_, ?_⟩
  · rw [assembleSource_of_oneStatement oob memory hsource h options]
    unfold assembleProgram
    rw [analyze_oneStatement hmnemonic hlength, hchecks]
    dsimp only [List.isEmpty_nil]
    rw [hmodule]
    dsimp only
    unfold assembleModule
    simp only [hkept, hassemble]
  · cases options.emitDebugInfo with
    | true => exact hword
    | false => exact ⟨hword.code, hword.relocations⟩

/-- A file of one instruction that does not pass its checks is rejected with what they report. -/
theorem assembleSource_rejected (oob : ℕ → Bool) (memory : ℕ) (options : AssembleOptions)
    (hsource : sources[file.toNat]? = some ⟨name, text⟩) (h : OneStatement text file node)
    (hmnemonic : findMnemonic node.mnemonic = some info)
    (hlength : node.operands.length = operandCount info.format)
    {found : Diag.Diagnostic} {rest : List Diag.Diagnostic}
    (hchecks : Sema.checkOperands info (node.operands.getD 0 {}) (node.operands.getD 1 {}) =
      found :: rest) :
    assembleSource oob memory sources file {} options =
      some (.error (.message "semantic analysis failed"), { diagnostics := found :: rest }) := by
  rw [assembleSource_of_oneStatement oob memory hsource h options]
  unfold assembleProgram
  rw [analyze_oneStatement hmnemonic hlength, hchecks]
  rfl

end

/-- Printing a decoded instruction that is not a branch, and assembling the text as a file of one
line, succeeds without diagnostics and gives the bytes of the word back, if there is memory for
them. -/
theorem assemble_toString {memory : ℕ} (hmemory : kInstructionSize ≤ memory) {w : UInt64}
    {i : Instruction} (hdecode : decode w = .ok i)
    (hformat : formatOf i.opcode ≠ some .jump) (oob : ℕ → Bool) (sources : SourceManager)
    (file : FileId) (name : Str) (hsource : sources[file.toNat]? = some ⟨name, toString i⟩)
    (emitDebugInfo : Bool) :
    ∃ result, assembleSource oob memory sources file {} { optLevel := .O0, emitDebugInfo } =
        some (.ok result, {}) ∧
      (∃ s, result.object.sections = [s] ∧ s.type = .text ∧
        s.data = ByteOrder.littleEndian 8 w) ∧
      result.object.relocations = [] := by
  obtain ⟨info, hinfo, hc, -⟩ := decode_eq_ok_iff.mp hdecode
  have hjump : info.format ≠ .jump := by
    intro heq
    apply hformat
    unfold formatOf
    rw [hinfo, Option.map_some, heq]
  obtain ⟨hmnemonic, hword, htype⟩ := findMnemonic_of_mem info (mem_of_findOpcode hinfo)
  -- lexing
  have hscans := scans_line hword (printed_valid hc)
  rw [← toString_eq hinfo hjump, htype] at hscans
  obtain ⟨body, eof, htokens, heof, hbody⟩ := lexAll_of_scans hscans file
  obtain ⟨head, tokens, rfl, hhead, hrest⟩ := List.map_eq_cons_iff.mp hbody
  simp only [shapeOf, Shape.mk.injEq] at hhead
  obtain ⟨hheadType, hheadText, -⟩ := hhead
  -- parsing
  obtain ⟨parsed, harguments, hmeans⟩ := derives_arguments (printed_valid hc) hrest
  have hderives : DerivesProgram (head :: tokens) [.instruction
      { mnemonic := head.text, operands := parsed, location := head.location }] :=
    .last (.statement (.instruction hheadType harguments))
  have hclean : Clean (head :: tokens ++ [eof]) := by
    intro token htoken
    rcases List.mem_append.mp htoken with htoken | htoken
    · rcases List.mem_cons.mp htoken with rfl | htoken
      · rw [hheadType]
        decide
      · have hshape : shapeOf token ∈ tokens.map shapeOf := List.mem_map_of_mem htoken
        rw [hrest] at hshape
        exact type_of_mem_shapes _ hshape
    · rw [List.mem_singleton.mp htoken, heof]
      decide
  -- the stages after it
  obtain ⟨hlength, hchecks, hlower⟩ := accepts_printed hinfo hc hjump hmeans head.text head.location
  rw [← hheadText] at hmnemonic
  let options : AssembleOptions := { optLevel := .O0, emitDebugInfo }
  have hkept : (Optimizer.run oob options.optLevel (oneInstruction name i head.location)).1 =
      oneInstruction name i head.location := rfl
  obtain ⟨result, hresult, hholds⟩ := assembleSource_accepted hmemory hsource
    ⟨_, _, htokens, heof, hclean, hderives⟩ hmnemonic hlength hchecks hlower hkept
    (encode_decode hdecode)
  obtain ⟨s, hsections, hsType, -, hdata⟩ := hholds.code
  exact ⟨result, hresult, ⟨s, hsections, hsType, hdata⟩, hholds.relocations⟩

/-- `STORE [R1 - 8], R2`. -/
def storeExample : Instruction := { opcode := .STORE, dst := ⟨1⟩, src := ⟨2⟩, imm := -8 }

theorem assemble_toString_store : ∃ result,
    assembleSource (fun _ => false) 8 [⟨str "store.asm", toString storeExample⟩] 0 {}
        { optLevel := .O0, emitDebugInfo := true } = some (.ok result, {}) ∧
      (∃ s, result.object.sections = [s] ∧ s.type = .text ∧
        s.data = ByteOrder.littleEndian 8 0x1312FFFFFFFFFFF8) ∧
      result.object.relocations = [] :=
  assemble_toString le_rfl (by decide) (by decide) _ _ _ (str "store.asm") rfl _

end MiniTool
