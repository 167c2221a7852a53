import MiniToolchain.Assembler.Throws
import MiniToolchain.Diagnostics.Rendering
import MiniToolchain.Optimizer.Accounting
import MiniToolchain.Parser.Places

/-!
# Where the front end says things are

Every stage reports at a token of the file, so that what is shown of a report is the line of that
token with a caret below it.

## Main definitions

* `PointsAll`, `Traced`, `Reports` — what has been reported and lowered so far is at tokens.
* `Shown` — a location that is shown with the line and the place of a token.

## Main results

* `pointsAll_analyzeFrom`, `exists_lowerStatement`, `reports_emit` — the stages.
* `reports_assembleProgram` — the stages behind the parser.
* `exists_assembleSource`, `reports_shown` — the whole front end.
-/

namespace MiniTool

open Ast Diag MiniTool.Parser
open Lexer (Token)

/-! ### The file of a token -/

namespace Lexer

/-- The token and the lexer behind it are in the file. -/
def OfFile (file : FileId) (result : Token × Lexer) : Prop :=
  result.1.location.file = file ∧ result.2.file = file

theorem file_finishInteger (l : Lexer) (start : Str) (negative : Bool) (value : Option UInt64) :
    (l.finishInteger start negative value).location.file = l.file := by
  cases value with
  | none => rfl
  | some magnitude =>
    unfold finishInteger
    dsimp only
    split_ifs
    all_goals rfl

theorem ofFile_lexInteger (l : Lexer) (start : Str) (negative : Bool) :
    OfFile l.file (l.lexInteger start negative) := by
  unfold lexInteger
  dsimp only
  split_ifs
  all_goals first
    | exact ⟨rfl, rfl⟩
    | exact ⟨file_finishInteger _ _ _ _, rfl⟩

theorem ofFile_lexStringFrom (start : Str) (fuel : ℕ) (l : Lexer) (decoded : Str) :
    OfFile l.file (lexStringFrom start fuel l decoded) := by
  induction fuel generalizing l decoded with
  | zero => exact ⟨rfl, rfl⟩
  | succ fuel ih =>
    unfold lexStringFrom
    cases l.ptr with
    | nil => exact ⟨rfl, rfl⟩
    | cons c rest =>
      dsimp only
      split_ifs
      · exact ⟨rfl, rfl⟩
      · exact ⟨rfl, rfl⟩
      · cases decodeEscape rest with
        | mk result ptr =>
          cases result with
          | error message => exact ⟨rfl, rfl⟩
          | ok value => exact ih { l with ptr } _
      · exact ih { l with ptr := rest } _

theorem ofFile_closeCharacter (l : Lexer) (start : Str) (value : Int64) :
    OfFile l.file (l.closeCharacter start value) := by
  unfold closeCharacter
  split
  all_goals exact ⟨rfl, rfl⟩

theorem ofFile_lexCharacter (l : Lexer) (start : Str) : OfFile l.file (l.lexCharacter start) := by
  unfold lexCharacter
  cases l.ptr with
  | nil => exact ⟨rfl, rfl⟩
  | cons c rest =>
    dsimp only
    split_ifs
    · exact ⟨rfl, rfl⟩
    · cases decodeEscape rest with
      | mk result ptr =>
        cases result with
        | error message => exact ⟨rfl, rfl⟩
        | ok value => exact ofFile_closeCharacter { l with ptr } start value
    · exact ⟨rfl, rfl⟩
    · exact ofFile_closeCharacter { l with ptr := rest } start _

theorem ofFile_lexNext (l : Lexer) : OfFile l.file l.lexNext := by
  unfold lexNext
  cases skipHorizontalWhitespaceAndComments l.ptr with
  | nil => exact ⟨rfl, rfl⟩
  | cons c rest =>
    dsimp only
    unfold lexToken
    cases punctuation c with
    | some type => exact ⟨rfl, rfl⟩
    | none =>
      dsimp only
      split_ifs
      · exact ⟨rfl, rfl⟩
      · exact ofFile_lexInteger { l with ptr := rest } _ _
      · exact ⟨rfl, rfl⟩
      · exact ofFile_lexStringFrom _ _ { l with ptr := rest } _
      · exact ofFile_lexCharacter { l with ptr := rest } _
      · unfold lexIdentifierOrRegister
        dsimp only
        split_ifs
        all_goals exact ⟨rfl, rfl⟩
      · exact ofFile_lexInteger { l with ptr := rest } _ _
      · exact ⟨rfl, rfl⟩

theorem file_lexedFrom (fuel : ℕ) (l : Lexer) :
    ∀ p ∈ lexedFrom fuel l, p.2.location.file = l.file := by
  induction fuel generalizing l with
  | zero => exact fun p hp => absurd hp List.not_mem_nil
  | succ fuel ih =>
    obtain ⟨htoken, hnext⟩ := ofFile_lexNext l
    unfold lexedFrom
    dsimp only
    refine List.forall_mem_cons.mpr ⟨htoken, ?_⟩
    split_ifs
    · exact fun p hp => absurd hp List.not_mem_nil
    · rw [← hnext]
      exact ih _

/-- Each token of a file without escaped newlines is where it says, in this file. -/
theorem located_of_mem {source : Str} {file : FileId} (hsmall : Small source)
    (hclean : escapedNewlines .code source = 0) {token : Token} (h : token ∈ lexAll source file) :
    token.location.file = file ∧ ∃ start, Located source start token := by
  unfold lexAll at h
  rw [← map_snd_lexedFrom] at h
  obtain ⟨p, hp, rfl⟩ := List.mem_map.mp h
  have hall := (onLine_startLexer source file).lexedFrom (Nat.lt_succ_self _) hsmall hclean
  exact ⟨file_lexedFrom _ _ p hp, p.1, hall.1 p hp⟩

theorem closed_lexAll (source : Str) (file : FileId) : Closed (lexAll source file) := by
  obtain ⟨body, eof, heq, heof, -⟩ := lexAll_eq source file
  exact ⟨body, eof, heq, heof⟩

end Lexer

/-! ### Analysis -/

/-- Diagnostics at tokens. -/
def PointsAll (all : List Token) (found : List Diagnostic) : Prop := ∀ d ∈ found, PointsAt all d

namespace PointsAll

variable {all : List Token} {found more : List Diagnostic} {location : SourceLocation}

theorem nil : PointsAll all [] := fun _ hd => absurd hd List.not_mem_nil

theorem singleton {d : Diagnostic} (h : PointsAt all d) : PointsAll all [d] :=
  fun _ hd => List.mem_singleton.mp hd ▸ h

theorem error (h : AtToken all location) (code : ErrorCode) (message : String)
    (hcode : code ≠ .internalError) :
    PointsAll all [Diag.error code location message] :=
  singleton (pointsAt_error h code message hcode)

theorem append (h : PointsAll all found) (h' : PointsAll all more) :
    PointsAll all (found ++ more) :=
  fun d hd => (List.mem_append.mp hd).elim (h d) (h' d)

theorem flatMap {α : Type} {xs : List α} {f : α → List Diagnostic}
    (h : ∀ x ∈ xs, PointsAll all (f x)) :
    PointsAll all (xs.flatMap f) := by
  intro d hd
  obtain ⟨x, hx, hd⟩ := List.mem_flatMap.mp hd
  exact h x hx d hd

end PointsAll

namespace Sema

variable {all : List Token}

theorem pointsAll_checkSignedRange {operand : Operand} (h : Placed all operand) (bits : ℕ)
    (what : String) :
    PointsAll all (checkSignedRange operand bits what) := by
  unfold checkSignedRange
  split_ifs
  · exact .nil
  · exact .nil
  · exact .error h _ _ (by decide)

theorem pointsAll_requireKind {operand : Operand} (h : Placed all operand) (info : Isa.OpcodeInfo)
    (wanted : OperandType) (described : String) :
    PointsAll all (requireKind info operand wanted described) := by
  unfold requireKind
  split_ifs
  · exact .error h _ _ (by decide)
  · exact .nil

/-- The operands that the format has are at tokens. -/
theorem pointsAll_checkOperands {info : Isa.OpcodeInfo} {first second : Operand}
    (hfirst : 1 ≤ Isa.operandCount info.format → Placed all first)
    (hsecond : 2 ≤ Isa.operandCount info.format → Placed all second) :
    PointsAll all (checkOperands info first second) := by
  unfold checkOperands
  cases hformat : info.format <;> rw [hformat] at hfirst hsecond <;> dsimp only
  case none => exact .nil
  case reg1 => exact pointsAll_requireKind (hfirst (by decide)) _ _ _
  case reg2 =>
    exact (pointsAll_requireKind (hfirst (by decide)) _ _ _).append
      (pointsAll_requireKind (hsecond (by decide)) _ _ _)
  case regImm =>
    split_ifs
    · exact .error (hsecond (by decide)) _ _ (by decide)
    · exact (pointsAll_requireKind (hfirst (by decide)) _ _ _).append
        (pointsAll_checkSignedRange (hsecond (by decide)) _ _)
  case mem =>
    have hmemory : Placed all (if info.opcode = .STORE then first else second) := by
      split_ifs
      · exact hfirst (by decide)
      · exact hsecond (by decide)
    have hreg : Placed all (if info.opcode = .STORE then second else first) := by
      split_ifs
      · exact hsecond (by decide)
      · exact hfirst (by decide)
    refine (pointsAll_requireKind hreg _ _ _).append ?_
    by_cases hkind : requireKind info (if info.opcode = .STORE then first else second) .memory
        "a '[base + disp]' memory operand" = []
    · rw [if_pos hkind]
      exact pointsAll_checkSignedRange hmemory _ _
    · rw [if_neg hkind]
      exact pointsAll_requireKind hmemory _ _ _
  case jump =>
    split_ifs
    · exact .error (hfirst (by decide)) _ _ (by decide)
    · exact pointsAll_checkSignedRange (hfirst (by decide)) _ _
    · exact .error (hfirst (by decide)) _ _ (by decide)
    · exact .nil
  case sysImm =>
    split_ifs
    · exact .error (hfirst (by decide)) _ _ (by decide)
    · exact .error (hfirst (by decide)) _ _ (by decide)
    · exact .nil

/-- An operand that is there. -/
theorem placed_getD {operands : List Operand} (h : ∀ operand ∈ operands, Placed all operand) {i : ℕ}
    (hi : i < operands.length) : Placed all (operands.getD i {}) := by
  rw [List.getD_eq_getElem _ _ hi]
  exact h _ (List.getElem_mem hi)

theorem pointsAll_checkInstruction {node : InstructionNode}
    (h : PlacedStatement all (.instruction node)) : PointsAll all (checkInstruction node) := by
  obtain ⟨hlocation, hoperands⟩ := h
  unfold checkInstruction
  cases Isa.findMnemonic node.mnemonic with
  | none => exact .error hlocation _ _ (by decide)
  | some info =>
    dsimp only
    by_cases hcount : node.operands.length ≠ Isa.operandCount info.format
    · rw [if_pos hcount]
      exact .error hlocation _ _ (by decide)
    · rw [if_neg hcount]
      rw [not_not] at hcount
      exact pointsAll_checkOperands (fun hone => placed_getD hoperands (by omega))
        fun htwo => placed_getD hoperands (by omega)

theorem pointsAll_requireOperandCount {directive : DirectiveNode}
    (h : AtToken all directive.location) (least most : ℕ) :
    PointsAll all (requireOperandCount directive least most) := by
  unfold requireOperandCount
  dsimp only
  split_ifs
  all_goals first
    | exact .error h _ _ (by decide)
    | exact .nil

/-- A directive with as many operands as it asks for has the first one. -/
theorem length_of_requireOperandCount {directive : DirectiveNode} {least most : ℕ}
    (h : requireOperandCount directive least most = []) : least ≤ directive.operands.length := by
  unfold requireOperandCount at h
  dsimp only at h
  by_contra hless
  rw [if_pos (Or.inl (not_le.mp hless))] at h
  exact absurd h (List.cons_ne_nil _ _)

theorem pointsAll_checkNames {directive : DirectiveNode}
    (h : PlacedStatement all (.directive directive)) : PointsAll all (checkNames directive) := by
  unfold checkNames
  dsimp only
  by_cases hnone : directive.operands = []
  · rw [if_pos hnone]
    exact .error h.1 _ _ (by decide)
  · rw [if_neg hnone]
    refine .flatMap fun operand hoperand => ?_
    split_ifs
    · exact .error (h.2 operand hoperand) _ _ (by decide)
    · exact .nil

theorem pointsAll_checkData {directive : DirectiveNode}
    (h : PlacedStatement all (.directive directive)) : PointsAll all (checkData directive) := by
  unfold checkData
  dsimp only
  by_cases hnone : directive.operands = []
  · rw [if_pos hnone]
    exact .error h.1 _ _ (by decide)
  · rw [if_neg hnone]
    refine .flatMap fun operand hoperand => ?_
    unfold checkDataOperand
    split_ifs
    · exact .error (h.2 operand hoperand) _ _ (by decide)
    · exact .error (h.2 operand hoperand) _ _ (by decide)
    · exact .error (h.2 operand hoperand) _ _ (by decide)
    · exact .nil

theorem pointsAll_checkDirective {directive : DirectiveNode}
    (h : PlacedStatement all (.directive directive)) :
    PointsAll all (checkDirective directive) := by
  have hcount := pointsAll_requireOperandCount h.1
  have hfirst : ∀ {most : ℕ}, requireOperandCount directive 1 most = [] →
      Placed all (directive.operands.getD 0 {}) := by
    intro most hok
    exact placed_getD h.2 (length_of_requireOperandCount hok)
  unfold checkDirective
  cases htype : directive.type <;> dsimp only
  case global | external | weak => exact pointsAll_checkNames h
  case byte | word | dword | qword => exact pointsAll_checkData h
  case section_ | asciz | align =>
    by_cases hok : requireOperandCount directive 1 1 = []
    · rw [if_neg (not_not.mpr hok)]
      split_ifs
      all_goals first
        | exact .error (hfirst hok) _ _ (by decide)
        | exact .nil
    · rw [if_pos hok]
      exact hcount 1 1
  case space =>
    by_cases hok : requireOperandCount directive 1 2 = []
    · rw [if_neg (not_not.mpr hok)]
      refine PointsAll.append ?_ ?_
      · split_ifs
        · exact .error (hfirst hok) _ _ (by decide)
        · exact .nil
      · cases hfill : directive.operands[1]? with
        | none => exact .nil
        | some fill =>
          dsimp only
          split_ifs
          · exact .error (h.2 fill (List.mem_of_getElem? hfill)) _ _ (by decide)
          · exact .nil
    · rw [if_pos hok]
      exact hcount 1 2

/-- The analysis of statements, with labels at tokens before them. -/
theorem pointsAll_analyzeFrom {labels : List (Str × SourceLocation)} {statements : List Statement}
    (hlabels : ∀ label ∈ labels, AtToken all label.2)
    (h : ∀ statement ∈ statements, PlacedStatement all statement) :
    PointsAll all (analyzeFrom labels statements) := by
  induction statements generalizing labels with
  | nil => exact .nil
  | cons statement rest ih =>
    obtain ⟨hstatement, hrest⟩ := List.forall_mem_cons.mp h
    cases statement with
    | instruction node => exact (pointsAll_checkInstruction hstatement).append (ih hlabels hrest)
    | directive node => exact (pointsAll_checkDirective hstatement).append (ih hlabels hrest)
    | label node =>
      have hnode : AtToken all node.location := hstatement
      unfold analyzeFrom checkLabel
      cases hprevious : labels.lookup node.name with
      | none =>
        exact PointsAll.append .nil (ih (List.forall_mem_cons.mpr ⟨hnode, hlabels⟩) hrest)
      | some previous =>
        have hmem : (node.name, previous) ∈ labels := by
          obtain ⟨front, back, rfl, -⟩ := List.lookup_eq_some_iff.mp hprevious
          exact List.mem_append_right _ List.mem_cons_self
        refine PointsAll.append (.singleton ⟨ErrorCode.noConfusion, hnode, fun note hnote => ?_⟩)
          (ih hlabels hrest)
        rw [List.mem_singleton.mp hnote]
        exact hlabels _ hmem

end Sema

/-! ### Lowering -/

namespace Ir

variable {all : List Token} {m : Module} {l : Lowerer}

/-- The items of the sections are at tokens. -/
def Module.Traced (all : List Token) (m : Module) : Prop :=
  ∀ s ∈ m.sections, ∀ item ∈ s.items, AtToken all (itemLocation item)

theorem Module.Traced.sectionFor (h : m.Traced all) (kind : SectionKind) :
    (m.sectionFor kind).Traced all := by
  unfold Module.sectionFor
  cases m.findSection kind with
  | some s => exact h
  | none =>
    intro s hs
    rcases List.mem_append.mp hs with hs | hs
    · exact h s hs
    · rw [List.mem_singleton.mp hs]
      exact fun item hitem => absurd hitem List.not_mem_nil

theorem Module.Traced.push (h : m.Traced all) (kind : SectionKind) {item : Item}
    (hitem : AtToken all (itemLocation item)) : (m.push kind item).Traced all := by
  intro s hs other hother
  rcases mem_sections_push hs with hs | ⟨s', hs', -, rfl⟩
  · exact h.sectionFor kind s hs other hother
  · rcases List.mem_append.mp hother with hother | hother
    · exact h.sectionFor kind s' hs' other hother
    · rw [List.mem_singleton.mp hother]
      exact hitem

namespace Lowerer

/-- What has been lowered and reported so far is at tokens. -/
structure Traced (all : List Token) (l : Lowerer) : Prop where
  items : l.module.Traced all
  reports : PointsAll all l.diagnostics.diagnostics

theorem Traced.error (h : l.Traced all) {location : SourceLocation}
    (hlocation : AtToken all location) (code : ErrorCode) (message : String)
    (hcode : code ≠ .internalError) : (l.error location code message).Traced all :=
  ⟨h.items, h.reports.append (.error hlocation code message hcode)⟩

theorem Traced.emit (h : l.Traced all) {item : Item} (hitem : AtToken all (itemLocation item)) :
    (l.emit item).Traced all := ⟨h.items.push l.currentKind hitem, h.reports⟩

theorem Traced.emitAll (h : l.Traced all) {items : List Item}
    (hitems : ∀ item ∈ items, AtToken all (itemLocation item)) : (l.emitAll items).Traced all := by
  unfold Lowerer.emitAll
  induction items generalizing l with
  | nil => exact h
  | cons item items ih =>
    obtain ⟨hitem, hrest⟩ := List.forall_mem_cons.mp hitems
    exact ih (h.emit hitem) hrest

theorem Traced.emitInitialised (h : l.Traced all) {location : SourceLocation}
    (hlocation : AtToken all location) (what : String) {items : List Item}
    (hitems : ∀ item ∈ items, AtToken all (itemLocation item)) :
    (l.emitInitialised location what items).Traced all := by
  unfold Lowerer.emitInitialised
  split_ifs
  · exact h.error hlocation _ _ (by decide)
  · exact h.emitAll hitems

end Lowerer

/-- The items of a data directive are at the directive or at one of its operands. -/
theorem atToken_dataItems {location : SourceLocation} (hlocation : AtToken all location)
    (width : UInt32) {operands : List Operand}
    (hoperands : ∀ operand ∈ operands, Placed all operand) (pending : List UInt8) :
    ∀ item ∈ dataItems location width pending operands, AtToken all (itemLocation item) := by
  have hflush : ∀ pending, ∀ item ∈ flush location pending, AtToken all (itemLocation item) := by
    intro pending item hitem
    unfold flush at hitem
    split_ifs at hitem
    · cases hitem
    · rw [List.mem_singleton.mp hitem]
      exact hlocation
  induction operands generalizing pending with
  | nil => exact hflush pending
  | cons operand rest ih =>
    obtain ⟨hoperand, hrest⟩ := List.forall_mem_cons.mp hoperands
    unfold dataItems
    split_ifs
    · intro item hitem
      rcases List.mem_append.mp hitem with hitem | hitem
      · rcases List.mem_append.mp hitem with hitem | hitem
        · exact hflush pending item hitem
        · rw [List.mem_singleton.mp hitem]
          exact hoperand
      · exact ih hrest [] item hitem
    · exact ih hrest _

theorem location_setValue (i : Instruction) (operand : Operand) :
    (setValue i operand).location = i.location := by
  unfold setValue
  split_ifs
  all_goals rfl

/-- An instruction is where its statement is. -/
theorem location_lowerInstruction {info : Isa.OpcodeInfo} {node : InstructionNode} {i : Instruction}
    (h : lowerInstruction info node = some i) : i.location = node.location := by
  unfold lowerInstruction at h
  cases hformat : info.format <;> rw [hformat] at h <;>
    simp only [Option.bind_eq_bind, Option.pure_def] at h
  case none =>
    cases h
    rfl
  case reg1 | sysImm =>
    obtain ⟨first, -, h⟩ := Option.bind_eq_some_iff.mp h
    cases h
    rfl
  case jump =>
    obtain ⟨first, -, h⟩ := Option.bind_eq_some_iff.mp h
    cases h
    exact location_setValue _ _
  case reg2 | mem =>
    obtain ⟨first, -, h⟩ := Option.bind_eq_some_iff.mp h
    obtain ⟨second, -, h⟩ := Option.bind_eq_some_iff.mp h
    cases h
    rfl
  case regImm =>
    obtain ⟨first, -, h⟩ := Option.bind_eq_some_iff.mp h
    obtain ⟨second, -, h⟩ := Option.bind_eq_some_iff.mp h
    cases h
    exact location_setValue _ _

/-- A checked directive has the operand that lowering reads. -/
theorem exists_first {directive : DirectiveNode} (hcheck : Sema.checkDirective directive = [])
    (htype : directive.type = .section_ ∨ directive.type = .asciz ∨ directive.type = .align ∨
      directive.type = .space) : ∃ first, directive.operands[0]? = some first := by
  have hget : ∀ {most : ℕ}, Sema.requireOperandCount directive 1 most = [] →
      ∃ first, directive.operands[0]? = some first := fun hcount =>
    ⟨_, List.getElem?_eq_getElem (Sema.length_of_requireOperandCount hcount)⟩
  unfold Sema.checkDirective at hcheck
  rcases htype with htype | htype | htype | htype <;> rw [htype] at hcheck <;> dsimp only at hcheck
  case inr.inr.inr =>
    by_cases hcount : Sema.requireOperandCount directive 1 2 = []
    · exact hget hcount
    · rw [if_pos hcount] at hcheck
      exact absurd hcheck hcount
  all_goals
    by_cases hcount : Sema.requireOperandCount directive 1 1 = []
    · exact hget hcount
    · rw [if_pos hcount] at hcheck
      exact absurd hcheck hcount

theorem exists_lowerDirective (h : l.Traced all) {directive : DirectiveNode}
    (hcheck : Sema.checkDirective directive = [])
    (hplaced : PlacedStatement all (.directive directive)) :
    ∃ l', lowerDirective l directive = some l' ∧ l'.Traced all := by
  obtain ⟨hlocation, hoperands⟩ := hplaced
  have hfirst := exists_first hcheck
  unfold lowerDirective
  cases htype : directive.type <;> rw [htype] at hfirst <;> dsimp only
  case section_ =>
    obtain ⟨first, hget⟩ := hfirst (by simp)
    rw [hget]
    refine ⟨_, rfl, ?_⟩
    dsimp only
    cases sectionKindFromName first.symbol with
    | none => exact h.error hlocation _ _ (by decide)
    | some kind => exact ⟨h.items.sectionFor kind, h.reports⟩
  case global | external | weak => exact ⟨_, rfl, h.items, h.reports⟩
  case byte | word | dword | qword =>
    exact ⟨_, rfl, h.emitInitialised hlocation _ (atToken_dataItems hlocation _ hoperands [])⟩
  case asciz =>
    split_ifs
    · exact ⟨_, rfl, h.emitInitialised hlocation _ fun item hitem => absurd hitem List.not_mem_nil⟩
    · obtain ⟨first, hget⟩ := hfirst (by simp)
      rw [hget]
      refine ⟨_, rfl, h.emitInitialised hlocation _ fun item hitem => ?_⟩
      rw [List.mem_singleton.mp hitem]
      exact hlocation
  case align =>
    obtain ⟨first, hget⟩ := hfirst (by simp)
    rw [hget]
    exact ⟨_, rfl, h.emit hlocation⟩
  case space =>
    obtain ⟨first, hget⟩ := hfirst (by simp)
    rw [hget]
    refine ⟨_, rfl, ?_⟩
    dsimp only
    split_ifs
    · refine h.emitInitialised hlocation _ fun item hitem => ?_
      rw [List.mem_singleton.mp hitem]
      exact hlocation
    · exact h.emit hlocation

/-- **A checked statement is lowered**, and what comes of it is at tokens. -/
theorem exists_lowerStatement (h : l.Traced all) {statement : Statement}
    (hcheck : Sema.checkStatement statement = []) (hplaced : PlacedStatement all statement) :
    ∃ l', lowerStatement l statement = some l' ∧ l'.Traced all := by
  cases statement with
  | label node => exact ⟨_, rfl, h.emit hplaced⟩
  | directive node => exact exists_lowerDirective h hcheck hplaced
  | instruction node =>
    show ∃ l', lowerInstructionNode l node = some l' ∧ l'.Traced all
    change Sema.checkInstruction node = [] at hcheck
    unfold lowerInstructionNode
    unfold Sema.checkInstruction at hcheck
    cases hinfo : Isa.findMnemonic node.mnemonic with
    | none => exact ⟨_, rfl, h.error hplaced.1 _ _ (by decide)⟩
    | some info =>
      rw [hinfo] at hcheck
      dsimp only at hcheck ⊢
      split_ifs with hkind
      · exact ⟨_, rfl, h.error hplaced.1 _ _ (by decide)⟩
      · split_ifs at hcheck with hcount
        obtain ⟨i, hi⟩ := Assembler.exists_lowerInstruction (not_not.mp hcount)
        rw [hi]
        refine ⟨_, rfl, h.emit ?_⟩
        show AtToken all i.location
        rw [location_lowerInstruction hi]
        exact hplaced.1

/-- Lowering an accepted file, with everything at tokens. -/
theorem lower_cases {program : Program} (haccepts : Sema.Accepts program)
    (hplaced : ∀ statement ∈ program.statements, PlacedStatement all statement) (sourceName : Str)
    {diagnostics : DiagnosticEngine} (hold : PointsAll all diagnostics.diagnostics) :
    (∃ m diagnostics', lower program sourceName diagnostics = .ok (m, diagnostics') ∧ m.Traced all ∧
      PointsAll all diagnostics'.diagnostics) ∨
    ∃ message diagnostics', lower program sourceName diagnostics = .error
      (.failed message diagnostics') ∧ PointsAll all diagnostics'.diagnostics := by
  have hempty : Module.Traced all { sourceName } := fun s hs => absurd hs List.not_mem_nil
  have hstart : (startLowerer sourceName diagnostics).Traced all := ⟨hempty.sectionFor .text, hold⟩
  have hrun : ∀ (statements : List Statement) (l : Lowerer), l.Traced all →
      (∀ statement ∈ statements, Sema.checkStatement statement = [] ∧
        PlacedStatement all statement) →
      ∃ l', statements.foldlM lowerStatement l = some l' ∧ l'.Traced all := by
    intro statements
    induction statements with
    | nil => exact fun l hl _ => ⟨l, rfl, hl⟩
    | cons statement rest ih =>
      intro l hl hall
      obtain ⟨⟨hcheck, hstatement⟩, hrest⟩ := List.forall_mem_cons.mp hall
      obtain ⟨l₁, hstep, hl₁⟩ := exists_lowerStatement hl hcheck hstatement
      rw [List.foldlM_cons, hstep]
      exact ih l₁ hl₁ hrest
  obtain ⟨l, hfold, hl⟩ := hrun program.statements _ hstart fun statement hs =>
    ⟨Sema.accepted_statement haccepts hs, hplaced statement hs⟩
  unfold lower
  rw [hfold]
  dsimp only
  split_ifs
  · exact .inr ⟨_, _, rfl, hl.reports⟩
  · exact .inl ⟨_, _, rfl, hl.items, hl.reports⟩

/-- The optimizer makes no places up. -/
theorem Module.Traced.run (h : m.Traced all) (oob : ℕ → Bool) (level : Optimizer.OptLevel) :
    (Optimizer.run oob level m).1.Traced all := by
  have hkept := (Optimizer.run_accounted oob level m).2.2.2.1
  generalize (Optimizer.run oob level m).1 = m' at hkept ⊢
  unfold Module.Traced at h ⊢
  generalize m.sections = sections at h hkept
  generalize m'.sections = sections' at hkept ⊢
  induction hkept with
  | nil => exact fun s hs => absurd hs List.not_mem_nil
  | @cons s s' rest rest' hone _ ih =>
    obtain ⟨hs, hrest⟩ := List.forall_mem_cons.mp h
    refine List.forall_mem_cons.mpr ⟨fun item hitem => ?_, ih hrest⟩
    have hmem := hone.sublist_location.subset (List.mem_map_of_mem hitem)
    obtain ⟨old, hold, hlocation⟩ := List.mem_map.mp hmem
    rw [← hlocation]
    exact hs old hold

end Ir

/-! ### The assembler -/

namespace Assembler

variable {all : List Token} {m : Ir.Module} {memory : ℕ} {c : AssemblyContext}

/-- The one report without a place: a name is declared `.extern`, and defined. -/
def Placeless (d : Diagnostic) : Prop :=
  ∃ name : Str, d = Diag.error .symbolVisibilityConflict {}
    s!"'{name.text}' is declared .extern but also defined in this file"

/-- What has been reported is at tokens, where it has a place. -/
def Reports (all : List Token) (engine : DiagnosticEngine) : Prop :=
  ∀ d ∈ engine.diagnostics, PointsAt all d ∨ Placeless d

theorem Reports.report {engine : DiagnosticEngine} (h : Reports all engine) {d : Diagnostic}
    (hd : PointsAt all d ∨ Placeless d) : Reports all (engine.report d) := by
  intro other hother
  rcases List.mem_append.mp hother with hother | hother
  · exact h other hother
  · rw [List.mem_singleton.mp hother]
    exact hd

theorem Reports.error (h : Reports all c.diagnostics) {location : SourceLocation}
    (hlocation : AtToken all location) (code : ErrorCode) (message : String)
    (hcode : code ≠ .internalError) :
    Reports all (c.error location code message).diagnostics :=
  h.report (.inl (pointsAt_error hlocation code message hcode))

theorem reports_layoutItem (index : ℕ) {state : AssemblyContext × AssemblyContext.Cursor}
    {item : Ir.Item} (h : Reports all state.1.diagnostics)
    (hitem : AtToken all (Ir.itemLocation item)) :
    Reports all (AssemblyContext.layoutItem index state item).1.diagnostics := by
  cases item with
  | label label =>
    unfold AssemblyContext.layoutItem AssemblyContext.defineLabel
    dsimp only
    split_ifs
    · exact Reports.error h hitem _ _ (by decide)
    · exact h
    · exact h
  | instruction _ | bytes _ | symbolValue _ | space _ | align _ => exact h

theorem reports_layout (h : Reports all c.diagnostics) (hm : m.Traced all) :
    Reports all (c.layoutAndDefineSymbols m).diagnostics := by
  have hitems : ∀ (index : ℕ) (items : List Ir.Item)
      (state : AssemblyContext × AssemblyContext.Cursor),
      (∀ item ∈ items, AtToken all (Ir.itemLocation item)) → Reports all state.1.diagnostics →
      Reports all (items.foldl (AssemblyContext.layoutItem index) state).1.diagnostics := by
    intro index items
    induction items with
    | nil => exact fun state _ hstate => hstate
    | cons item items ih =>
      intro state hall hstate
      obtain ⟨hitem, hrest⟩ := List.forall_mem_cons.mp hall
      exact ih _ hrest (reports_layoutItem index hstate hitem)
  have hsections : ∀ (entries : List (Ir.Section × ℕ)) (c : AssemblyContext),
      (∀ entry ∈ entries, ∀ item ∈ entry.1.items, AtToken all (Ir.itemLocation item)) →
      Reports all c.diagnostics →
      Reports all (entries.foldl AssemblyContext.layoutSection c).diagnostics := by
    intro entries
    induction entries with
    | nil => exact fun c _ hc => hc
    | cons entry entries ih =>
      intro c hall hc
      obtain ⟨hentry, hrest⟩ := List.forall_mem_cons.mp hall
      exact ih _ hrest (hitems entry.2 entry.1.items _ hentry hc)
  refine hsections _ c (fun entry hentry => hm entry.1 ?_) h
  exact mem_of_mem_orderedSections (List.mem_of_getElem? (List.mem_zipIdx_iff_getElem?.mp hentry))

theorem reports_applyBindings (h : Reports all c.diagnostics) :
    Reports all (c.applyBindings m).diagnostics := by
  have hbinding : ∀ (binding : SymbolBinding) (names : List Str) (c : AssemblyContext),
      (names.foldl (AssemblyContext.setBinding binding) c).diagnostics = c.diagnostics := by
    intro binding names
    induction names with
    | nil => exact fun c => rfl
    | cons name names ih => exact fun c => ih _
  have hextern : ∀ (names : List Str) (c : AssemblyContext), Reports all c.diagnostics →
      Reports all (names.foldl AssemblyContext.declareExtern c).diagnostics := by
    intro names
    induction names with
    | nil => exact fun c hc => hc
    | cons name names ih =>
      intro c hc
      refine ih _ ?_
      unfold AssemblyContext.declareExtern
      dsimp only
      split_ifs
      · exact Reports.report hc (.inr ⟨name, rfl⟩)
      · exact hc
  unfold AssemblyContext.applyBindings
  refine hextern _ _ ?_
  rw [hbinding, hbinding]
  exact h

theorem reports_referenceSymbol (h : Reports all c.diagnostics) (reference : Ir.SymbolRef)
    {location : SourceLocation} (hlocation : AtToken all location) :
    Reports all (c.referenceSymbol reference location).2.diagnostics := by
  unfold AssemblyContext.referenceSymbol
  dsimp only
  split_ifs
  · exact Reports.error h hlocation _ _ (by decide)
  · exact h
  · exact h

theorem reports_relocateInstruction (h : Reports all c.diagnostics) {i : Ir.Instruction}
    (hlocation : AtToken all i.location) (index : ℕ) (offset : UInt64) :
    Reports all (c.relocateInstruction i index offset).diagnostics := by
  unfold AssemblyContext.relocateInstruction
  cases i.symbol with
  | none => exact h
  | some reference => exact reports_referenceSymbol h reference hlocation

theorem reports_emitItem {index : ℕ} {c' : AssemblyContext} {bytes bytes' : List UInt8}
    {item : Ir.Item} (h : Reports all c.diagnostics) (hitem : AtToken all (Ir.itemLocation item))
    (hemit : AssemblyContext.emitItem memory index (c, bytes) item = .ok (c', bytes')) :
    Reports all c'.diagnostics := by
  unfold AssemblyContext.emitItem at hemit
  cases item with
  | label l =>
    cases hemit
    exact h
  | bytes _ | space _ | align _ =>
    obtain ⟨result, -, hemit⟩ := Checked.bind_eq_ok.mp hemit
    cases hemit
    exact h
  | symbolValue v =>
    obtain ⟨result, -, hemit⟩ := Checked.bind_eq_ok.mp hemit
    cases hemit
    exact reports_referenceSymbol h v.symbol hitem
  | instruction i =>
    have hlocation : AtToken all i.location := hitem
    unfold AssemblyContext.emitInstruction at hemit
    dsimp only at hemit
    have hrelocate := reports_relocateInstruction h hlocation index (UInt64.ofNat bytes.length)
    split at hemit
    · obtain ⟨result, -, hemit⟩ := Checked.bind_eq_ok.mp hemit
      cases hemit
      exact Reports.error hrelocate hlocation _ _ (by decide)
    · obtain ⟨result, -, hemit⟩ := Checked.bind_eq_ok.mp hemit
      cases hemit
      exact hrelocate

/-- **The second pass** reports at items, and its own checks at the end of a section report
nothing. -/
theorem reports_emit {diagnostics : DiagnosticEngine} {c' : AssemblyContext} (hm : m.Traced all)
    (hzero : m.ZeroFilled) (h : Reports all diagnostics)
    (hemit : (beforeEmit m diagnostics).emit memory m = .ok c') : Reports all c'.diagnostics := by
  have hsize : ∀ source ∈ AssemblyContext.orderedSections m, endOf source.items < 2 ^ 64 :=
    fun source hsource => (fits_of_emit hemit source hsource).trans_lt
      (capacity_le.trans_lt (by decide))
  refine (Checked.foldlM_induction (p := fun c => Sized m c ∧ Reports all c.diagnostics) ?_
    ⟨sized_beforeEmit hsize, reports_applyBindings (reports_layout h hm)⟩ hemit).2
  intro c entry c₂ hentry hkeep hstep
  have hsized := (proceeds_emitSection hkeep.1 hzero hentry hstep).2
  obtain ⟨c₁, bytes, hitems, rfl⟩ := emitSection_cases hstep
  have htraced : ∀ item ∈ entry.1.items, AtToken all (Ir.itemLocation item) := hm entry.1
    (mem_of_mem_orderedSections (List.mem_of_getElem? (List.mem_zipIdx_iff_getElem?.mp hentry)))
  have hreports : Reports all c₁.diagnostics :=
    Checked.foldlM_induction
      (p := fun state : AssemblyContext × List UInt8 => Reports all state.1.diagnostics)
      (fun state item state' hitem hstate => reports_emitItem hstate (htraced item hitem))
      hkeep.2 hitems
  refine ⟨hsized, ?_⟩
  rw [(size_of_emitItems hkeep.1 hzero hentry hitems).2.2]
  split_ifs
  · exact hreports
  · exact hreports

/-- What the assembler reports of a module. -/
theorem reports_assemble {diagnostics : DiagnosticEngine} (hm : m.Traced all) (hzero : m.ZeroFilled)
    (h : Reports all diagnostics) :
    (∀ o diagnostics', assemble memory m diagnostics = .ok (o, diagnostics') →
      Reports all diagnostics') ∧
    ∀ message diagnostics', assemble memory m diagnostics = .error (.failed message diagnostics') →
      Reports all diagnostics' := by
  have hassemble : assemble memory m diagnostics =
      (beforeEmit m diagnostics).emit memory m >>= fun c =>
        if c.failed then
          .error (.failed s!"{c.diagnostics.errorCount} error(s) while assembling" c.diagnostics)
        else .ok (c.object, c.diagnostics) := rfl
  rw [hassemble]
  cases hemit : (beforeEmit m diagnostics).emit memory m with
  | error e =>
    refine ⟨nofun, ?_⟩
    rintro message diagnostics' hfailed
    cases hfailed
    rcases emit_error _ hemit with he | ⟨he, -⟩
    · cases he
    · cases he
  | ok c =>
    have hreports := reports_emit hm hzero h hemit
    rw [Checked.ok_bind]
    split_ifs
    · refine ⟨nofun, ?_⟩
      rintro message diagnostics' ⟨⟩
      exact hreports
    · refine ⟨?_, nofun⟩
      rintro o diagnostics' ⟨⟩
      exact hreports

end Assembler

/-! ### The front end -/

section

variable {all : List Token}

theorem PointsAll.reports {engine : DiagnosticEngine} (h : PointsAll all engine.diagnostics) :
    Assembler.Reports all engine := fun d hd => .inl (h d hd)

/-- **The stages behind the parser** report at tokens, and read no operand that is not there. -/
theorem reports_assembleProgram (oob : ℕ → Bool) (memory : ℕ) {program : Program}
    (hplaced : ∀ statement ∈ program.statements, PlacedStatement all statement) (sourceName : Str)
    {diagnostics : DiagnosticEngine} (hold : PointsAll all diagnostics.diagnostics)
    (options : AssembleOptions) :
    (assembleProgram oob memory program sourceName diagnostics options).1 ≠ .error .outOfRange ∧
      Assembler.Reports all
        (assembleProgram oob memory program sourceName diagnostics options).2 := by
  have hfound : PointsAll all (Sema.analyzeFrom [] program.statements) :=
    Sema.pointsAll_analyzeFrom (fun label hlabel => absurd hlabel List.not_mem_nil) hplaced
  unfold assembleProgram
  cases hanalyze : Sema.analyze diagnostics program with
  | mk accepted engine =>
    have hengine : PointsAll all engine.diagnostics := by
      have heq := congrArg (fun result : Bool × DiagnosticEngine => result.2.diagnostics) hanalyze
      rw [← show _ = engine.diagnostics from heq]
      exact hold.append hfound
    cases accepted with
    | false => exact ⟨by simp, hengine.reports⟩
    | true =>
      have haccepts : Sema.Accepts program := Sema.analyze_eq_true.mp (congrArg Prod.fst hanalyze)
      dsimp only
      rcases Ir.lower_cases haccepts hplaced sourceName hengine with
        ⟨m, engine', hlower, hm, hengine'⟩ | ⟨message, engine', hlower, hengine'⟩
      · rw [hlower]
        dsimp only
        have hzero := Assembler.zeroFilled_of_translated
          ⟨m, oob, options.optLevel, ⟨program, sourceName, engine, engine', hlower⟩, rfl⟩
        obtain ⟨hok, hfailed⟩ :=
          Assembler.reports_assemble (hm.run oob options.optLevel) hzero hengine'.reports
        unfold assembleModule
        dsimp only
        cases hassemble :
            Assembler.assemble memory (Optimizer.run oob options.optLevel m).1 engine' with
        | error e =>
          cases e with
          | lengthError | badAlloc => exact ⟨by simp, hengine'.reports⟩
          | failed message engine'' => exact ⟨by simp, hfailed message engine'' hassemble⟩
        | ok pair => exact ⟨by simp, hok pair.1 pair.2 hassemble⟩
      · rw [hlower]
        exact ⟨by simp, hengine'.reports⟩

end

/-- A location is that of a token, and it is shown with the line of the token and a caret below the
start of the token, unless there is nothing on the line. -/
def Shown (sources : SourceManager) (source : Str) (location : SourceLocation) : Prop :=
  ∃ token ∈ Lexer.lexAll source location.file, location.file = token.location.file ∧
    location.line = token.location.line ∧ location.column = token.location.column ∧
    ∃ seen start, source = seen ++ start ∧ token.text <+: start ∧
      location.line.toNat = 1 + seen.count 10 ∧
      location.column.toNat = 1 + (lastLine seen).length ∧
      (lineAround seen start = [] → excerpt sources location = []) ∧
      (lineAround seen start ≠ [] →
        Marks location.line.toNat seen start (excerpt sources location))

theorem shown_of_atToken {sources : SourceManager} {file : FileId} {source : SourceFile}
    (hvalid : file ≠ kInvalidFileId) (hsource : sources[file.toNat]? = some source)
    (hsmall : Lexer.Small source.text) (hclean : Lexer.escapedNewlines .code source.text = 0)
    {location : SourceLocation} (h : AtToken (Lexer.lexAll source.text file) location) :
    Shown sources source.text location := by
  obtain ⟨token, htoken, hfile, hline, hcolumn⟩ := h
  obtain ⟨htokenFile, start, seen, hsplit, htext, htokenLine, htokenColumn⟩ :=
    Lexer.located_of_mem hsmall hclean htoken
  have hsame : location.file = file := hfile.trans htokenFile
  have hnumber : location.line.toNat = 1 + seen.count 10 := by
    rw [hline]
    exact htokenLine
  have hplace : location.column.toNat = 1 + (lastLine seen).length := by
    unfold lastLine
    rw [hcolumn, htokenColumn, List.length_reverse]
  subst hsame
  refine ⟨token, htoken, hfile, hline, hcolumn, seen, start, hsplit, htext, hnumber, hplace,
    fun hempty => ?_, fun hshown => marks_excerpt hvalid hsource hsplit hnumber hplace hshown⟩
  unfold excerpt
  dsimp only
  rw [if_neg hvalid, line_of_place hsource hsplit hnumber, hempty, if_neg (by simp)]

/-- **The front end comes to an end on every file**, without reading an operand that is not there,
and what it reports is at tokens. -/
theorem exists_assembleSource (oob : ℕ → Bool) (memory : ℕ) {sources : SourceManager}
    {file : FileId} {source : SourceFile} (hsource : sources[file.toNat]? = some source)
    (options : AssembleOptions) :
    ∃ result engine, assembleSource oob memory sources file {} options = some (result, engine) ∧
      result ≠ .error .outOfRange ∧ Assembler.Reports (Lexer.lexAll source.text file) engine := by
  obtain ⟨result, p, hparse, hreports, hplaced⟩ :=
    exists_parse (Lexer.closed_lexAll source.text file)
  unfold assembleSource
  rw [hsource]
  dsimp only
  rw [hparse]
  cases result with
  | error message => exact ⟨_, _, rfl, by simp, PointsAll.reports hreports⟩
  | ok program =>
    obtain ⟨hresult, hengine⟩ :=
      reports_assembleProgram oob memory (hplaced program rfl) source.name hreports options
    exact ⟨_, _, rfl, hresult, hengine⟩

/-- **The front end points into the file.**  On every file it comes to an end, and what it has
reported by then is at tokens and no internal error; the one report without a place is that of a
name declared `.extern` and defined.  In a file without escaped newlines, each report with a place
and each of its notes is shown with the line of its token and a caret below the token. -/
theorem reports_shown (oob : ℕ → Bool) (memory : ℕ) {sources : SourceManager} {file : FileId}
    {source : SourceFile} (hsource : sources[file.toNat]? = some source)
    (options : AssembleOptions) :
    ∃ result engine, assembleSource oob memory sources file {} options = some (result, engine) ∧
      result ≠ .error .outOfRange ∧
      (∀ d ∈ engine.diagnostics, d.code ≠ .internalError ∧
        (Assembler.Placeless d ∨ PointsAt (Lexer.lexAll source.text file) d)) ∧
      (file ≠ kInvalidFileId → Lexer.Small source.text →
        Lexer.escapedNewlines .code source.text = 0 → ∀ d ∈ engine.diagnostics,
          Assembler.Placeless d ∨ (Shown sources source.text d.location ∧
            ∀ note ∈ d.notes, Shown sources source.text note.location)) := by
  obtain ⟨result, engine, hresult, hrange, hreports⟩ :=
    exists_assembleSource oob memory hsource options
  refine ⟨result, engine, hresult, hrange, fun d hd => ?_, fun hvalid hsmall hclean d hd => ?_⟩
  · rcases hreports d hd with hpoints | hplaceless
    · exact ⟨hpoints.code, .inr hpoints⟩
    · refine ⟨?_, .inl hplaceless⟩
      obtain ⟨name, rfl⟩ := hplaceless
      exact ErrorCode.noConfusion
  · rcases hreports d hd with hpoints | hplaceless
    · exact .inr ⟨shown_of_atToken hvalid hsource hsmall hclean hpoints.location,
        fun note hnote => shown_of_atToken hvalid hsource hsmall hclean (hpoints.notes note hnote)⟩
    · exact .inl hplaceless

/-- A file with an operand that is missing. -/
def missingOperand : SourceFile := { name := str "a.asm", text := str "\tADD R0\n" }

theorem small_missingOperand : Lexer.Small missingOperand.text := by
  have hlength : missingOperand.text.length = 8 := by decide
  refine ⟨by decide, fun before line after heq _ => ?_⟩
  rw [heq, List.length_append, List.length_append] at hlength
  omega

theorem reports_shown_missingOperand : ∃ result engine,
    assembleSource (fun _ => false) 8 [missingOperand] 0 {} {} = some (result, engine) ∧
      result ≠ .error .outOfRange ∧
      (∀ d ∈ engine.diagnostics, d.code ≠ .internalError ∧
        (Assembler.Placeless d ∨ PointsAt (Lexer.lexAll missingOperand.text 0) d)) ∧
      ∀ d ∈ engine.diagnostics, Assembler.Placeless d ∨
        (Shown [missingOperand] missingOperand.text d.location ∧
          ∀ note ∈ d.notes, Shown [missingOperand] missingOperand.text note.location) := by
  obtain ⟨result, engine, hresult, hrange, hplaced, hshown⟩ :=
    @reports_shown (fun _ => false) 8 [missingOperand] 0 missingOperand rfl {}
  exact ⟨result, engine, hresult, hrange, hplaced,
    hshown (by decide) small_missingOperand (by decide)⟩

end MiniTool
