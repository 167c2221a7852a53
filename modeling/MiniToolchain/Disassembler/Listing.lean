import MiniToolchain.Common.ByteOrder
import MiniToolchain.Disassembler.Disassembler
import MiniToolchain.Assembler.RoundTrip

/-!
# Listings

The disassembler shows code word by word, each with its address, and names the places where symbols
are.  A listing with the bytes of the words can be read back.

## Main definitions

* `ListingOptions`, `disassemble`, `disassembleExecutable`.
* `listedWords` — the words that a listing shows, with their addresses.

## Main results

* `listedWords_disassemble` — they are the words of the code.
* `listing_shows_code` — the words of the executable segments, in order, are what a listing of an
  image shows.
-/

namespace MiniTool

namespace Executable

/-- `rwx`, with dashes for what is missing. -/
def flagsToString (flags : SegmentFlags) : Str :=
  (if hasFlag flags SegmentFlags.read then str "r" else str "-") ++
    (if hasFlag flags SegmentFlags.write then str "w" else str "-") ++
    if hasFlag flags SegmentFlags.exec then str "x" else str "-"

end Executable

namespace Disassembler

open Executable Isa Lexer

/-! ### The source -/

structure ListingOptions extends Options where
  /-- Print the raw word next to each instruction. -/
  showBytes : Bool := true
  /-- Emit a line where a symbol starts. -/
  showLabels : Bool := true

/-- `{:016X}`. -/
def paddedHex (value : UInt64) : Str := str (Binary.hexText 16 value.toNat)

/-- The lines that name the symbols at an address. -/
def labelLines (options : ListingOptions) (address : UInt64) (executable : Option Executable) :
    Str :=
  match executable with
  | none => []
  | some executable =>
    if options.showLabels then
      (executable.symbols.filter fun symbol => symbol.address = address).flatMap fun symbol =>
        str "\n" ++ paddedHex address ++ str " <" ++ symbol.name ++ str ">:\n"
    else []

/-- The line of one word.  What is no instruction is shown as data with the reason. -/
def wordLine (options : ListingOptions) (address word : UInt64) (executable : Option Executable) :
    Str :=
  paddedHex address ++ str ":  " ++
    (if options.showBytes then paddedHex word ++ str "  " else []) ++ (match decode word with
      | .ok instruction => formatInstruction options.toOptions address instruction executable
      | .error e => str ".qword 0x" ++ paddedHex word ++ str "    ; " ++ str (decodeErrorName e)) ++
    str "\n"

/-- Shows code that begins at an address. -/
def disassemble (options : ListingOptions) (code : List UInt8) (baseAddress : UInt64)
    (executable : Option Executable) : Str :=
  let offsets := (List.range (code.length / kInstructionSize)).map (kInstructionSize * ·)
  let lines := offsets.flatMap fun offset =>
    let address := baseAddress + UInt64.ofNat offset
    let word := ByteOrder.load 8 ((code.drop offset).take kInstructionSize)
    labelLines options address executable ++ wordLine options address word executable
  let tail := code.length % kInstructionSize
  if tail ≠ 0 then
    lines ++ paddedHex (baseAddress + UInt64.ofNat code.length - UInt64.ofNat tail) ++
      str ":  ; " ++ decimal tail ++ str " trailing byte(s) do not form an instruction\n"
  else lines

/-- Shows every executable segment. -/
def disassembleExecutable (options : ListingOptions) (executable : Executable) : Str :=
  let out :=
    (executable.segments.filter fun segment => hasFlag segment.flags SegmentFlags.exec).flatMap
    fun segment =>
      str "segment " ++ segment.name ++ str " at 0x" ++ hexadecimal segment.virtualAddress.toNat ++
        str " (" ++ decimal segment.virtualSize.toNat ++ str " bytes, " ++
        flagsToString segment.flags ++ str ")\n" ++
        disassemble options segment.data segment.virtualAddress (some executable)
  if out = [] then str "this executable contains no executable segments\n" else out

/-! ### Reading a listing -/

/-- Sixteen hexadecimal digits in front of a text. -/
def readPadded (text : Str) : Option (UInt64 × Str) :=
  if (text.take 16).length = 16 ∧ (text.take 16).all (isDigitOfBase 16) then
    some (UInt64.ofNat (digitsValue 16 (text.take 16)), text.drop 16)
  else none

/-- The address and the word of a line that shows a word. -/
def listedWord (line : Str) : Option (UInt64 × UInt64) :=
  match readPadded line with
  | none => none
  | some (address, rest) =>
    if (str ":  ").isPrefixOf rest then
      match readPadded (rest.drop 3) with
      | none => none
      | some (word, rest) => if (str "  ").isPrefixOf rest then some (address, word) else none
    else none

/-- The words that a listing shows, with their addresses. -/
def listedWords (listing : Str) : List (UInt64 × UInt64) :=
  (listing.splitOn 10).filterMap listedWord

/-! ### Padded numbers -/

theorem length_hexadecimal (n : ℕ) : (hexadecimal n).length = (Nat.toDigits 16 n).length := by
  induction n using Nat.strong_induction_on with
  | _ n ih =>
    rw [hexadecimal_eq]
    by_cases hlt : n < 16
    · obtain ⟨htext, -, -⟩ := hexDigit_facts n hlt
      rw [Nat.toDigits_of_lt_base hlt, List.flatMap_singleton, htext]
      rfl
    · obtain ⟨htext, -, -⟩ := hexDigit_facts (n % 16) (Nat.mod_lt _ (by decide))
      rw [Nat.toDigits_of_base_le (by decide) (not_lt.mp hlt), List.flatMap_append,
        List.flatMap_singleton, htext, ← hexadecimal_eq, List.length_append, ih (n / 16) (by omega),
        List.length_append]
      rfl

theorem paddedHex_eq (value : UInt64) : paddedHex value =
    List.replicate (16 - (hexadecimal value.toNat).length) 48 ++ hexadecimal value.toNat := by
  have hzeros : ∀ k, (List.replicate k '0').flatMap String.utf8EncodeChar =
      List.replicate k 48 := by
    intro k
    induction k with
    | zero => rfl
    | succ k ih =>
      rw [List.replicate_succ, List.flatMap_cons, ih]
      rfl
  rw [length_hexadecimal, hexadecimal_eq]
  unfold paddedHex Binary.hexText
  dsimp only
  rw [str_ofList, List.flatMap_append, hzeros, List.length_map, List.flatMap_map]

theorem digitsValue_zeros (k : ℕ) (digits : Str) :
    digitsValue 16 (List.replicate k 48 ++ digits) = digitsValue 16 digits := by
  have hfold : (List.replicate k 48).foldl (fun value c => value * 16 + digitValue c) 0 = 0 := by
    induction k with
    | zero => rfl
    | succ k ih => exact ih
  unfold digitsValue
  rw [List.foldl_append, hfold]

/-- The digits, sixteen of them, and their value. -/
theorem paddedHex_spec (value : UInt64) : (paddedHex value).length = 16 ∧
    (∀ c ∈ paddedHex value, isDigitOfBase 16 c = true) ∧
      digitsValue 16 (paddedHex value) = value.toNat := by
  obtain ⟨-, hdigits, hvalue⟩ := hexadecimal_spec value.toNat
  have hshort : (hexadecimal value.toNat).length ≤ 16 := by
    rw [length_hexadecimal, Nat.length_toDigits_le_iff (by decide) (by decide)]
    exact value.toNat_lt
  rw [paddedHex_eq]
  refine ⟨?_, fun c hc => ?_, ?_⟩
  · rw [List.length_append, List.length_replicate]
    omega
  · rcases List.mem_append.mp hc with hc | hc
    · rw [List.eq_of_mem_replicate hc]
      decide
    · exact hdigits c hc
  · rw [digitsValue_zeros, hvalue]

theorem readPadded_paddedHex (value : UInt64) (rest : Str) :
    readPadded (paddedHex value ++ rest) = some (value, rest) := by
  obtain ⟨hlength, hdigits, hvalue⟩ := paddedHex_spec value
  have htake : (paddedHex value ++ rest).take 16 = paddedHex value := List.take_left' hlength
  have hdrop : (paddedHex value ++ rest).drop 16 = rest := List.drop_left' hlength
  unfold readPadded
  rw [htake, hdrop, if_pos ⟨hlength, List.all_eq_true.mpr hdigits⟩, hvalue, UInt64.ofNat_toNat]

/-! ### Lines -/

theorem listedWords_line (text rest : Str) :
    listedWords (text ++ 10 :: rest) = listedWords text ++ listedWords rest := by
  unfold listedWords
  rw [List.splitOn_append_cons_self, List.filterMap_append]

theorem listedWords_nil : listedWords [] = [] := rfl

theorem listedWords_of_not_mem {line : Str} (h : 10 ∉ line) :
    listedWords line = (listedWord line).toList := by
  unfold listedWords
  rw [List.splitOn_eq_singleton h, List.filterMap_cons]
  cases listedWord line with
  | none => rfl
  | some word => rfl

/-- A text that ends with a newline. -/
theorem listedWords_append {text : Str} (h : text = [] ∨ ∃ front, text = front ++ [10])
    (rest : Str) :
    listedWords (text ++ rest) = listedWords text ++ listedWords rest := by
  rcases h with rfl | ⟨front, rfl⟩
  · rfl
  · rw [List.append_assoc, List.singleton_append, listedWords_line, listedWords_line,
      listedWords_nil, List.append_nil]

/-! ### What has no newline -/

theorem not_mem_of_digits {text : Str} (h : ∀ c ∈ text, isDigitOfBase 16 c = true) : 10 ∉ text := by
  intro hmem
  have := h 10 hmem
  revert this
  decide

theorem not_mem_hexadecimal (n : ℕ) : 10 ∉ hexadecimal n :=
  not_mem_of_digits (hexadecimal_spec n).2.1

theorem not_mem_paddedHex (value : UInt64) : 10 ∉ paddedHex value :=
  not_mem_of_digits (paddedHex_spec value).2.1

theorem not_mem_decimal (n : ℕ) : 10 ∉ decimal n := by
  intro hmem
  have := isDigit_of_mem_decimal n 10 hmem
  revert this
  decide

theorem not_mem_signedDecimal (value : Int64) : 10 ∉ signedDecimal value := by
  unfold signedDecimal
  rw [List.mem_append, not_or]
  refine ⟨?_, not_mem_decimal _⟩
  split_ifs <;> decide

theorem not_mem_registerName (r : Reg) : 10 ∉ str (registerName r) := by
  have hnames : ∀ name ∈ kNames, 10 ∉ str name := by decide
  unfold registerName
  split_ifs
  · decide
  · rw [List.getD_eq_getElem?_getD]
    cases hname : kNames[registerIndex r]? with
    | none => decide
    | some name => exact hnames name (List.mem_of_getElem? hname)

theorem not_mem_printed (operand : Printed) : 10 ∉ operand.text := by
  cases operand with
  | reg r => exact not_mem_registerName r
  | imm value => exact not_mem_signedDecimal value
  | mem base displacement =>
    have hsign : 10 ∉ signOf displacement := by
      unfold signOf
      split_ifs <;> decide
    have hopen : 10 ∉ str "[" := by decide
    have hblank : 10 ∉ str " " := by decide
    have hclose : 10 ∉ str "]" := by decide
    simp only [Printed.text, List.mem_append, not_or]
    exact ⟨hopen, not_mem_registerName base, hblank, hsign, hblank, not_mem_decimal _, hclose⟩

theorem not_mem_operandsText (operands : List Printed) : 10 ∉ operandsText operands := by
  have hmore : ∀ operands, 10 ∉ moreText operands := by
    intro operands
    induction operands with
    | nil => exact List.not_mem_nil
    | cons operand rest ih =>
      have hcomma : 10 ∉ str ", " := by decide
      simp only [moreText, List.mem_append, not_or]
      exact ⟨hcomma, not_mem_printed operand, ih⟩
  cases operands with
  | nil => exact List.not_mem_nil
  | cons operand rest =>
    have hblank : 10 ∉ str " " := by decide
    simp only [operandsText, List.mem_append, not_or]
    exact ⟨hblank, not_mem_printed operand, hmore rest⟩

/-- A search that keeps what it has or takes the next element finds one of the elements. -/
theorem mem_of_foldl {α : Type} {step : Option α → α → Option α}
    (hstep : ∀ best a, step best a = best ∨ step best a = some a) {xs : List α}
    {best : Option α} {found : α} (h : xs.foldl step best = some found) :
    best = some found ∨ found ∈ xs := by
  induction xs generalizing best with
  | nil => exact .inl h
  | cons a xs ih =>
    rcases ih h with hbest | hmem
    · rcases hstep best a with hkeep | htake
      · exact .inl (hkeep.symm.trans hbest)
      · rw [htake] at hbest
        cases hbest
        exact .inr List.mem_cons_self
    · exact .inr (List.mem_cons_of_mem a hmem)

theorem mem_of_symbolContaining {executable : Executable} {address : UInt64} {symbol : SymbolEntry}
    (h : executable.symbolContaining address = some symbol) : symbol ∈ executable.symbols := by
  unfold Executable.symbolContaining at h
  refine (mem_of_foldl (fun best s => ?_) h).resolve_left (Option.some_ne_none symbol).symm
  cases best <;> dsimp only <;> split_ifs <;> simp

/-- The names of the symbols are on one line. -/
def PlainNames (executable : Option Executable) : Prop :=
  ∀ e, executable = some e → ∀ symbol ∈ e.symbols, 10 ∉ symbol.name

theorem not_mem_describeTarget {executable : Option Executable} (h : PlainNames executable)
    (address : UInt64) : 10 ∉ describeTarget address executable := by
  have hnumber : 10 ∉ str "0x" ++ hexadecimal address.toNat := by
    rw [List.mem_append, not_or]
    exact ⟨by decide, not_mem_hexadecimal _⟩
  have hopen : 10 ∉ str " (" := by decide
  have hclose : 10 ∉ str ")" := by decide
  have hplus : 10 ∉ str "+" := by decide
  unfold describeTarget
  dsimp only
  cases executable with
  | none => exact hnumber
  | some e =>
    dsimp only
    cases hfind : e.symbols.find? fun symbol => symbol.address = address with
    | some symbol =>
      have hname := h e rfl symbol (List.mem_of_find?_eq_some hfind)
      dsimp only
      rw [List.mem_append, List.mem_append, List.mem_append, not_or, not_or, not_or]
      exact ⟨⟨⟨hname, hopen⟩, hnumber⟩, hclose⟩
    | none =>
      dsimp only
      cases hcontaining : e.symbolContaining address with
      | none => exact hnumber
      | some symbol =>
        have hname := h e rfl symbol (mem_of_symbolContaining hcontaining)
        dsimp only
        split_ifs
        · rw [List.mem_append, List.mem_append, List.mem_append, List.mem_append, List.mem_append]
          simp only [not_or]
          exact ⟨⟨⟨⟨⟨hname, hplus⟩, not_mem_decimal _⟩, hopen⟩, hnumber⟩, hclose⟩
        · exact hnumber

theorem not_mem_mnemonic {opcode : Opcode} {info : OpcodeInfo} (h : findOpcode opcode = some info) :
    10 ∉ str info.mnemonic := by
  have hnames : ∀ info ∈ kOpcodes, 10 ∉ str info.mnemonic := by decide
  exact hnames info (List.mem_of_find?_eq_some h)

theorem not_mem_formatInstruction (options : Options) (address : UInt64) {instruction : Instruction}
    {word : UInt64} (hdecode : decode word = .ok instruction) {executable : Option Executable}
    (h : PlainNames executable) :
    10 ∉ formatInstruction options address instruction executable := by
  obtain ⟨info, hinfo⟩ : ∃ info, findOpcode instruction.opcode = some info := by
    obtain ⟨info, hinfo, -⟩ := decode_eq_ok_iff.mp hdecode
    exact ⟨info, hinfo⟩
  have hmnemonic := not_mem_mnemonic hinfo
  unfold formatInstruction leftAligned
  rw [hinfo]
  dsimp only
  split_ifs with hformat hsymbols
  · rw [List.mem_append, List.mem_append, not_or, not_or]
    refine ⟨⟨hmnemonic, fun hblank => ?_⟩, not_mem_describeTarget h _⟩
    cases List.eq_of_mem_replicate hblank
  · have hbegins : 10 ∉ str "0x" := by decide
    rw [List.mem_append, List.mem_append, List.mem_append, not_or, not_or, not_or]
    refine ⟨⟨hmnemonic, fun hblank => ?_⟩, hbegins, not_mem_hexadecimal _⟩
    cases List.eq_of_mem_replicate hblank
  · rw [toString_eq hinfo hformat, List.mem_append, not_or]
    exact ⟨hmnemonic, not_mem_operandsText _⟩

/-! ### What a listing shows -/

/-- A number behind which no address can be read. -/
theorem listedWord_paddedHex (address : UInt64) (rest : Str) :
    listedWord (paddedHex address ++ rest) =
    if (str ":  ").isPrefixOf rest then
      match readPadded (rest.drop 3) with
      | none => none
      | some (word, rest) => if (str "  ").isPrefixOf rest then some (address, word) else none
    else none := by
  unfold listedWord
  rw [readPadded_paddedHex]

theorem listedWords_wordLine {options : ListingOptions} (hbytes : options.showBytes = true)
    {executable : Option Executable} (h : PlainNames executable) (address word : UInt64) :
    listedWords (wordLine options address word executable) = [(address, word)] := by
  have hcolon : 10 ∉ str ":  " := by decide
  have hblanks : 10 ∉ str "  " := by decide
  have hnewline : str "\n" = [10] := by decide
  have hbegins : ∀ (front rest : Str), front.isPrefixOf (front ++ rest) = true := fun front rest =>
    List.isPrefixOf_iff_prefix.mpr (List.prefix_append front rest)
  have hdrop : ∀ rest, (str ":  " ++ rest).drop 3 = rest := fun rest => List.drop_left' (by decide)
  unfold wordLine
  rw [if_pos hbytes, hnewline, listedWords_line, listedWords_nil, List.append_nil]
  generalize hbody : (match decode word with
    | .ok instruction => formatInstruction options.toOptions address instruction executable
    | .error e => str ".qword 0x" ++ paddedHex word ++ str "    ; " ++ str (decodeErrorName e)) =
      body
  have hplain : 10 ∉ body := by
    rw [← hbody]
    cases hdecode : decode word with
    | ok instruction => exact not_mem_formatInstruction _ _ hdecode h
    | error e =>
      have hdirective : 10 ∉ str ".qword 0x" := by decide
      have hcomment : 10 ∉ str "    ; " := by decide
      have hreason : 10 ∉ str (decodeErrorName e) := by cases e <;> decide
      simp only [List.mem_append, not_or]
      exact ⟨⟨⟨hdirective, not_mem_paddedHex word⟩, hcomment⟩, hreason⟩
  have hline : 10 ∉ paddedHex address ++ str ":  " ++ (paddedHex word ++ str "  ") ++ body := by
    simp only [List.mem_append, not_or]
    exact ⟨⟨⟨not_mem_paddedHex address, hcolon⟩, not_mem_paddedHex word, hblanks⟩, hplain⟩
  rw [listedWords_of_not_mem hline, List.append_assoc, List.append_assoc, listedWord_paddedHex,
    List.append_assoc, if_pos (hbegins _ _), hdrop, readPadded_paddedHex]
  dsimp only
  rw [if_pos (hbegins _ _)]
  rfl

/-- The lines that name symbols show no words. -/
theorem listedWords_labelLines (options : ListingOptions) (address : UInt64)
    {executable : Option Executable} (h : PlainNames executable) (rest : Str) :
    listedWords (labelLines options address executable ++ rest) = listedWords rest := by
  have hnewline : str "\n" = [10] := by decide
  have hclose : str ">:\n" = str ">:" ++ [10] := by decide
  have hopen : 10 ∉ str " <" := by decide
  have hend : 10 ∉ str ">:" := by decide
  unfold labelLines
  cases executable with
  | none => rfl
  | some e =>
    dsimp only
    split_ifs
    · have hnames : ∀ symbol ∈ e.symbols.filter fun symbol => symbol.address = address,
          10 ∉ symbol.name := fun symbol hmem => h e rfl symbol (List.mem_of_mem_filter hmem)
      generalize e.symbols.filter (fun symbol => symbol.address = address) = symbols at hnames ⊢
      induction symbols with
      | nil => rfl
      | cons symbol symbols ih =>
        obtain ⟨hname, hmore⟩ := List.forall_mem_cons.mp hnames
        have hline : 10 ∉ paddedHex address ++ (str " <" ++ (symbol.name ++ str ">:")) := by
          simp only [List.mem_append, not_or]
          exact ⟨not_mem_paddedHex address, hopen, hname, hend⟩
        have hsplit : str "\n" ++ paddedHex address ++ str " <" ++ symbol.name ++ str ">:\n" =
            [] ++ 10 :: (paddedHex address ++ (str " <" ++ (symbol.name ++ str ">:")) ++ [10]) := by
          rw [hnewline, hclose]
          simp
        rw [List.flatMap_cons, List.append_assoc, hsplit, List.append_assoc, List.cons_append,
          listedWords_line, List.append_assoc, List.singleton_append, listedWords_line, ih hmore,
          listedWords_of_not_mem hline, listedWord_paddedHex]
        rfl
    · rfl

/-- The words of code that begins at an address. -/
def codeWords (code : List UInt8) (baseAddress : UInt64) : List (UInt64 × UInt64) :=
  (List.range (code.length / kInstructionSize)).map fun i =>
    (baseAddress + UInt64.ofNat (kInstructionSize * i),
      ByteOrder.load 8 ((code.drop (kInstructionSize * i)).take kInstructionSize))

theorem ends_wordLine (options : ListingOptions) (address word : UInt64)
    (executable : Option Executable) :
    ∃ front, wordLine options address word executable = front ++ [10] :=
  ⟨_, rfl⟩

/-- A listing ends with a newline, if it is not empty, and shows the words of the code. -/
theorem listedWords_disassemble {options : ListingOptions} (hbytes : options.showBytes = true)
    {executable : Option Executable} (h : PlainNames executable) (code : List UInt8)
    (baseAddress : UInt64) (rest : Str) :
    listedWords (disassemble options code baseAddress executable ++ rest) =
      codeWords code baseAddress ++ listedWords rest := by
  have hlines : ∀ (indices : List ℕ) (rest : Str),
      listedWords ((indices.map (kInstructionSize * ·)).flatMap (fun offset =>
        labelLines options (baseAddress + UInt64.ofNat offset) executable ++
          wordLine options (baseAddress + UInt64.ofNat offset)
            (ByteOrder.load 8 ((code.drop offset).take kInstructionSize)) executable) ++ rest) =
        indices.map (fun i => (baseAddress + UInt64.ofNat (kInstructionSize * i),
          ByteOrder.load 8 ((code.drop (kInstructionSize * i)).take kInstructionSize))) ++
          listedWords rest := by
    intro indices rest
    induction indices with
    | nil => rfl
    | cons i indices ih =>
      rw [List.map_cons, List.flatMap_cons, List.append_assoc, List.append_assoc,
        listedWords_labelLines options _ h, listedWords_append (.inr (ends_wordLine _ _ _ _)),
        listedWords_wordLine hbytes h, ih]
      rfl
  unfold disassemble codeWords
  dsimp only
  split_ifs with htail
  · have hend : str " trailing byte(s) do not form an instruction\n" =
        str " trailing byte(s) do not form an instruction" ++ [10] := by decide
    have hcolon : 10 ∉ str ":  ; " := by decide
    have htext : 10 ∉ str " trailing byte(s) do not form an instruction" := by decide
    rw [List.append_assoc, List.append_assoc, List.append_assoc, List.append_assoc, hlines, hend]
    congr 1
    generalize baseAddress + UInt64.ofNat code.length -
      UInt64.ofNat (code.length % kInstructionSize) = address
    have hline : 10 ∉ paddedHex address ++
        (str ":  ; " ++
            (decimal (code.length % kInstructionSize) ++
                str " trailing byte(s) do not form an instruction")) := by
      simp only [List.mem_append, not_or]
      exact ⟨not_mem_paddedHex address, hcolon, not_mem_decimal _, htext⟩
    have hsplit : ∀ (a b c d : Str), a ++ (b ++ (c ++ (d ++ [10] ++ rest))) =
        a ++ (b ++ (c ++ d)) ++ 10 :: rest := by
      intro a b c d
      simp
    rw [hsplit, listedWords_line, listedWords_of_not_mem hline, listedWord_paddedHex]
    -- a comment is no number
    have hnone : ∀ more, readPadded ((str ":  ; " ++ more).drop 3) = none := by
      intro more
      unfold readPadded
      rw [if_neg]
      rintro ⟨-, hall⟩
      exact absurd (List.all_eq_true.mp hall 59 List.mem_cons_self) (by decide)
    rw [hnone]
    split_ifs <;> rfl
  · exact hlines _ rest

/-- **What a listing shows.**  With the bytes of the words, the listing of an image can be read
back: it shows every word of the executable segments with its address, in order, and no others. -/
theorem listing_shows_code {options : ListingOptions} (hbytes : options.showBytes = true)
    {executable : Executable} (hsymbols : ∀ symbol ∈ executable.symbols, 10 ∉ symbol.name)
    (hsegments : ∀ segment ∈ executable.segments, 10 ∉ segment.name) :
    listedWords (disassembleExecutable options executable) =
      (executable.segments.filter fun segment => hasFlag segment.flags SegmentFlags.exec).flatMap
        fun segment => codeWords segment.data segment.virtualAddress := by
  have hplain : PlainNames (some executable) := by
    rintro e ⟨⟩ symbol hmem
    exact hsymbols symbol hmem
  have hclose : str ")\n" = str ")" ++ [10] := by decide
  have hflags : ∀ flags, 10 ∉ flagsToString flags := by
    intro flags
    unfold flagsToString
    split_ifs <;> decide
  -- the line above the code of a segment
  have hheading : ∀ (front rest : Str), 10 ∉ str "segment " ++ front →
      listedWords (str "segment " ++ front ++ 10 :: rest) = listedWords rest := by
    intro front rest hfront
    have hnone : readPadded (str "segment " ++ front) = none := by
      unfold readPadded
      rw [if_neg]
      rintro ⟨-, hall⟩
      exact absurd (List.all_eq_true.mp hall 115 List.mem_cons_self) (by decide)
    rw [listedWords_line, listedWords_of_not_mem hfront]
    unfold listedWord
    rw [hnone]
    rfl
  have hmem : ∀ segment ∈ executable.segments.filter fun segment =>
      hasFlag segment.flags SegmentFlags.exec, 10 ∉ segment.name :=
    fun segment hmem => hsegments segment (List.mem_of_mem_filter hmem)
  unfold disassembleExecutable
  dsimp only
  generalize executable.segments.filter (fun segment => hasFlag segment.flags SegmentFlags.exec) =
    segments at hmem ⊢
  cases segments with
  | nil => rfl
  | cons segment segments =>
    rw [if_neg (by simp [show str "segment " ≠ [] by decide]), hclose]
    revert hmem
    generalize segment :: segments = segments
    intro hmem
    induction segments with
    | nil => rfl
    | cons segment segments ih =>
      obtain ⟨hname, hmore⟩ := List.forall_mem_cons.mp hmem
      have hsplit : ∀ (a b c d e f g h i rest : Str),
          a ++ b ++ c ++ d ++ e ++ f ++ g ++ h ++ (str ")" ++ [10]) ++ i ++ rest =
            a ++ (b ++ (c ++ (d ++ (e ++ (f ++ (g ++ (h ++ str ")"))))))) ++ 10 :: (i ++ rest) := by
        intro a b c d e f g h i rest
        simp
      have hline : 10 ∉ str "segment " ++ (segment.name ++ (str " at 0x" ++
          (hexadecimal segment.virtualAddress.toNat ++ (str " (" ++
            (decimal segment.virtualSize.toNat ++ (str " bytes, " ++
              (flagsToString segment.flags ++ str ")"))))))) := by
        simp only [List.mem_append, not_or]
        exact ⟨by decide, hname, by decide, not_mem_hexadecimal _, by decide, not_mem_decimal _,
          by decide, hflags _, by decide⟩
      rw [List.flatMap_cons, List.flatMap_cons, hsplit, hheading _ _ hline,
        listedWords_disassemble hbytes hplain, ih hmore]

/-- `start: HALT`, and three bytes behind it. -/
def haltImage : Executable where
  entryPoint := 0x10000
  segments := [
    { type := .text, flags := SegmentFlags.read ||| SegmentFlags.exec, name := str ".text",
      virtualAddress := 0x10000, virtualSize := 11, data := [0, 0, 0, 0, 0, 0, 0, 1, 7, 8, 9] }]
  symbols := [{ name := str "start", address := 0x10000, size := 0, kind := .function }]

theorem listing_shows_halt : listedWords (disassembleExecutable {} haltImage) =
    [(0x10000, 0x0100000000000000)] :=
  listing_shows_code rfl
    (by
      intro symbol hmem
      rw [List.mem_singleton.mp hmem]
      decide)
    (by
      intro segment hmem
      rw [List.mem_singleton.mp hmem]
      decide)

/-- The listing of `haltImage`. -/
example : disassembleExecutable {} haltImage =
    str ("segment .text at 0x10000 (11 bytes, r-x)\n\n0000000000010000 <start>:\n" ++
      "0000000000010000:  0100000000000000  HALT\n" ++
      "0000000000010008:  ; 3 trailing byte(s) do not form an instruction\n") := by decide +kernel

end Disassembler
end MiniTool
