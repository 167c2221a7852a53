import Mathlib.Data.Nat.Digits.Lemmas
import MiniToolchain.Assembler.RoundTrip
import MiniToolchain.Lib.Json
import MiniToolchain.Playground.Api

/-!
# Reports as JSON

The page reads a report with a parser of JSON, whatever bytes the program printed and whatever the
source of the error message is made of.

## Main definitions

* `reportValue` — what the page reads.
* `Lists` — the fields so far are the members of an object.

## Main results

* `lists_appendRaw`, `lists_appendField` — a field is one more member.
* `toJson_denotes` — the answer denotes the report.
-/

namespace MiniTool
namespace Playground

open Isa (decimal)
open Json (Ascii)

/-! ### What the page reads -/

/-- A string of bytes as the text that the page gets. -/
noncomputable def textValue (text : Str) : Json.Value := .string (Utf8.repaired text)

/-- A quantity of 64 bits, in decimal. -/
def quantityValue (n : ℕ) : Json.Value := .string (decimal n)

def statsValue (stats : Optimizer.OptStats) : Json.Value :=
  .object [(str "total", .number (statsTotal stats).toNat),
    (str "summary", .string (statsSummary stats))]

/-- The object for a report. -/
noncomputable def reportValue (report : RunReport) : Json.Value :=
  .object [
    (str "ok", .bool report.ok),
    (str "stage", .string (str (stageName report.stage))),
    (str "diagnostics", textValue report.diagnostics),
    (str "error", textValue report.error),
    (str "output", textValue report.output),
    (str "output_truncated", .bool report.outputTruncated),
    (str "disassembly", textValue report.disassembly),
    (str "ran", .bool (report.stage = .execute || report.stage = .finished)),
    (str "exit_code", quantityValue report.exitCode.toNat),
    (str "instructions", quantityValue report.instructions.toNat),
    (str "pc", quantityValue report.pc.toNat),
    (str "sp", quantityValue report.sp.toNat),
    (str "flags", quantityValue report.flags.toNat),
    (str "registers",
      .array ((List.finRange 16).map fun i => quantityValue (report.registers i).toNat)),
    (str "stats", statsValue report.stats)]

/-! ### Plain ASCII -/

theorem repaired_of_ascii {text : Str} (h : Ascii text) : Utf8.repaired text = text :=
  Utf8.repaired_of_wellFormed (JsonString.wellFormed_of_ascii h)

theorem ascii_stageName (stage : Stage) : Ascii (str (stageName stage)) := by
  cases stage <;> decide

/-- A digit by its value. -/
theorem bounds_of_isDigit {c : UInt8} (h : Lexer.isDigit c = true) :
    0x30 ≤ c.toNat ∧ c.toNat ≤ 0x39 := by
  unfold Lexer.isDigit at h
  simp only [Bool.and_eq_true, decide_eq_true_eq, UInt8.le_iff_toNat_le] at h
  exact h

theorem ascii_decimal (n : ℕ) : Ascii (decimal n) := by
  intro c hmem
  have := bounds_of_isDigit (isDigit_of_mem_decimal n c hmem)
  omega

theorem ascii_statsSummary (stats : Optimizer.OptStats) : Ascii (statsSummary stats) := by
  have hstr : ∀ text ∈ [str " -> ", str " instructions (", str " folded, ", str " identities, ",
      str " dead stores, ", str " unreachable, ", str " peepholes)"],
      Ascii text := by decide
  simp only [List.forall_mem_cons] at hstr
  obtain ⟨harrow, hopening, hfolded, hidentities, hdead, hunreachable, hclosing, -⟩ := hstr
  unfold statsSummary
  refine Ascii.append (Ascii.append ?_ (ascii_decimal _)) hclosing
  refine Ascii.append (Ascii.append ?_ (ascii_decimal _)) hunreachable
  refine Ascii.append (Ascii.append ?_ (ascii_decimal _)) hdead
  refine Ascii.append (Ascii.append ?_ (ascii_decimal _)) hidentities
  refine Ascii.append (Ascii.append ?_ (ascii_decimal _)) hfolded
  refine Ascii.append (Ascii.append ?_ (ascii_decimal _)) hopening
  exact (ascii_decimal _).append harrow

/-- A number is printed as JSON has it. -/
theorem isNumber_decimal (n : ℕ) : Json.IsNumber (decimal n) n := by
  refine ⟨decimal_ne_nil n, fun c hmem => bounds_of_isDigit (isDigit_of_mem_decimal n c hmem), ?_,
    ?_⟩
  · unfold decimal
    split_ifs with hzero
    · exact fun _ => rfl
    · intro hhead
      -- the digit that leads is the last of `Nat.digits`
      have hne : Nat.digits 10 n ≠ [] := Nat.digits_ne_nil_iff_ne_zero.mpr hzero
      rw [List.head?_map, List.head?_reverse, List.getLast?_eq_some_getLast hne, Option.map_some,
        Option.some_inj] at hhead
      have hlt := Nat.digits_lt_base (by decide) (List.getLast_mem hne)
      have hnonzero : ∀ d < 10, UInt8.ofNat (48 + d) = 0x30 → d = 0 := by decide
      exact absurd (hnonzero _ hlt hhead) (Nat.getLast_digit_ne_zero 10 hzero)
  · unfold decimal Json.digitsValue
    split_ifs with hzero
    · rw [hzero]
      rfl
    · rw [← List.map_reverse, List.reverse_reverse, List.map_map]
      have hdigits : (Nat.digits 10 n).map ((fun digit : UInt8 => digit.toNat - 0x30) ∘
          fun digit => UInt8.ofNat (48 + digit)) = Nat.digits 10 n := by
        have hback : ∀ d < 10, (UInt8.ofNat (48 + d)).toNat - 0x30 = d := by decide
        calc _ = (Nat.digits 10 n).map id :=
              List.map_congr_left fun d hmem => hback d (Nat.digits_lt_base (by decide) hmem)
          _ = Nat.digits 10 n := List.map_id _
      rw [hdigits, Nat.ofDigits_digits]

/-! ### Literals -/

/-- What `appendJsonString` appends. -/
theorem exists_literal (out text : Str) :
    ∃ literal, appendJsonString out text = out ++ literal ∧ Json.IsText literal
      (Utf8.repaired text) := by
  obtain ⟨body, heq, hbody⟩ := appendEscaped_piece (out ++ [JsonString.quote]) text
  refine ⟨JsonString.quote :: (body ++ [JsonString.quote]), ?_, hbody.literal⟩
  unfold appendJsonString
  rw [heq]
  simp

/-- A text of plain ASCII is read as it is. -/
theorem exists_literal_ascii (out : Str) {text : Str} (h : Ascii text) :
    ∃ literal, appendJsonString out text = out ++ literal ∧ Json.IsText literal text := by
  obtain ⟨literal, heq, htext⟩ := exists_literal out text
  rw [repaired_of_ascii h] at htext
  exact ⟨literal, heq, htext⟩

/-- A literal that the source writes out. -/
theorem isText_of_eq {literal text : Str} (h : Ascii text)
    (heq : appendJsonString [] text = literal) :
    Json.IsText literal text := by
  obtain ⟨literal', hliteral, htext⟩ := exists_literal_ascii [] h
  rw [← heq, hliteral]
  exact htext

theorem denotes_jsonBool (b : Bool) : Json.Denotes (jsonBool b) (.bool b) := by
  cases b with
  | false => exact .false
  | true => exact .true

/-! ### The fields of an object -/

/-- The fields so far are these members: each has a comma before it but the first. -/
def Lists (fields : Fields) (members : List (Str × Json.Value)) : Prop :=
  ∃ inner, fields.1 = 0x7B :: inner ∧
    if fields.2 then inner = [] ∧ members = [] else Json.Members (Json.comma :: inner) members

theorem lists_start : Lists (str "\x7b", true) [] := ⟨[], rfl, rfl, rfl⟩

variable {fields : Fields} {members : List (Str × Json.Value)} {name : Str}

/-- One more member behind what `appendRaw` and `appendField` write first. -/
theorem Lists.snoc (h : Lists fields members) {literal bytes : Str} {value : Json.Value}
    (hname : Json.IsText literal name) (hvalue : Json.Denotes bytes value) :
    Lists ((if fields.2 then fields.1 else fields.1 ++ [0x2C]) ++ literal ++ [0x3A] ++ bytes, false)
      (members ++ [(name, value)]) := by
  obtain ⟨inner, hfields, hinner⟩ := h
  rw [hfields]
  cases hfirst : fields.2 with
  | true =>
    rw [hfirst, if_pos rfl] at hinner
    obtain ⟨rfl, rfl⟩ := hinner
    refine ⟨literal ++ [0x3A] ++ bytes, by simp, ?_⟩
    rw [if_neg Bool.false_ne_true]
    simpa using Json.Members.nil.snoc hname hvalue
  | false =>
    rw [hfirst, if_neg Bool.false_ne_true] at hinner
    refine ⟨inner ++ [0x2C] ++ literal ++ [0x3A] ++ bytes, by simp, ?_⟩
    rw [if_neg Bool.false_ne_true]
    simpa using hinner.snoc hname hvalue

theorem lists_appendRaw (h : Lists fields members) (hname : Ascii name) {bytes : Str}
    {value : Json.Value} (hvalue : Json.Denotes bytes value) :
    Lists (appendRaw fields name bytes) (members ++ [(name, value)]) := by
  obtain ⟨literal, hliteral, htext⟩ :=
    exists_literal_ascii (if fields.2 then fields.1 else fields.1 ++ [0x2C]) hname
  unfold appendRaw
  dsimp only
  rw [hliteral]
  exact h.snoc htext hvalue

theorem lists_appendField (h : Lists fields members) (hname : Ascii name) (text : Str) :
    Lists (appendField fields name text) (members ++ [(name, textValue text)]) := by
  obtain ⟨literal, hliteral, hkey⟩ :=
    exists_literal_ascii (if fields.2 then fields.1 else fields.1 ++ [0x2C]) hname
  obtain ⟨literal', hliteral', htext⟩ :=
    exists_literal ((if fields.2 then fields.1 else fields.1 ++ [0x2C]) ++ literal ++ [0x3A]) text
  unfold appendField
  dsimp only
  rw [hliteral, hliteral']
  exact h.snoc hkey (.string htext)

/-- A text of plain ASCII is a member as it is. -/
theorem lists_appendField_ascii (h : Lists fields members) (hname : Ascii name) {text : Str}
    (htext : Ascii text) :
    Lists (appendField fields name text) (members ++ [(name, .string text)]) := by
  have hlists := lists_appendField h hname text
  rwa [textValue, repaired_of_ascii htext] at hlists

theorem Lists.close (h : Lists fields members) (hsome : fields.2 = false) :
    Json.Denotes (fields.1 ++ str "\x7d") (.object members) := by
  obtain ⟨inner, hfields, hinner⟩ := h
  rw [hsome, if_neg Bool.false_ne_true] at hinner
  rw [hfields]
  exact .object hinner

/-! ### The report -/

/-- The registers after the first. -/
theorem elements_registers (registers : Vm.Registers) {rest : List (Fin 16)}
    (hrest : ∀ i ∈ rest, i ≠ 0) {inner : Str} {elements : List Json.Value}
    (h : Json.Elements (Json.comma :: inner) elements) :
    ∃ inner', rest.foldl (fun out i => appendJsonString (if i ≠ 0 then out ++ [0x2C] else out)
        (decimal (registers i).toNat)) (0x5B :: inner) = 0x5B :: inner' ∧
      Json.Elements (Json.comma :: inner')
        (elements ++ rest.map fun i => quantityValue (registers i).toNat) := by
  induction rest generalizing inner elements with
  | nil => exact ⟨inner, rfl, by simpa using h⟩
  | cons i rest ih =>
    obtain ⟨hi, hmore⟩ := List.forall_mem_cons.mp hrest
    obtain ⟨literal, hliteral, htext⟩ :=
      exists_literal_ascii (0x5B :: inner ++ [0x2C]) (ascii_decimal (registers i).toNat)
    have hnext : Json.Elements (Json.comma :: (inner ++ [0x2C] ++ literal))
        (elements ++ [quantityValue (registers i).toNat]) := by
      simpa [quantityValue] using h.snoc (.string htext)
    obtain ⟨inner', hfold, helements⟩ := ih hmore hnext
    refine ⟨inner', ?_, ?_⟩
    · rw [List.foldl_cons, if_pos hi, hliteral, ← hfold]
      simp
    · simpa using helements

theorem denotes_jsonRegisters (registers : Vm.Registers) : Json.Denotes (jsonRegisters registers)
    (.array ((List.finRange 16).map fun i => quantityValue (registers i).toNat)) := by
  obtain ⟨literal, hliteral, htext⟩ :=
    exists_literal_ascii (str "[") (ascii_decimal (registers 0).toNat)
  have hrest : ∀ i ∈ (List.finRange 15).map Fin.succ, i ≠ 0 := by
    intro i hmem
    obtain ⟨j, -, rfl⟩ := List.mem_map.mp hmem
    exact Fin.succ_ne_zero j
  have hfirst : Json.Elements (Json.comma :: literal) [quantityValue (registers 0).toNat] := by
    simpa [quantityValue] using Json.Elements.cons (.string htext) .nil
  obtain ⟨inner, hfold, helements⟩ := elements_registers registers hrest hfirst
  unfold jsonRegisters
  -- the first register has no comma before it
  rw [List.finRange_succ, List.foldl_cons, List.map_cons, if_neg (by simp), hliteral]
  have hopening : str "[" ++ literal = 0x5B :: literal := rfl
  rw [hopening, hfold]
  exact .array helements

theorem denotes_jsonStats (stats : Optimizer.OptStats) :
    Json.Denotes (jsonStats stats) (statsValue stats) := by
  have htotal : Json.IsText (str "\"total\"") (str "total") :=
    isText_of_eq (by decide) (by decide +kernel)
  have hsummary : Json.IsText (str "\"summary\"") (str "summary") :=
    isText_of_eq (by decide) (by decide +kernel)
  obtain ⟨literal, hliteral, htext⟩ := exists_literal_ascii
    (str "\x7b\"total\":" ++ decimal (statsTotal stats).toNat ++ str "," ++ str "\"summary\":")
    (ascii_statsSummary stats)
  have hmembers := Json.Members.cons htotal (.number (isNumber_decimal (statsTotal stats).toNat))
    (.cons hsummary (.string htext) .nil)
  unfold jsonStats
  rw [hliteral]
  have hopening : str "\x7b\"total\":" = 0x7B :: (str "\"total\"" ++ [Json.colon]) := by decide
  have hnext : str "\"summary\":" = str "\"summary\"" ++ [Json.colon] := by decide
  have hcomma : str "," = [Json.comma] := by decide
  have hclosing : str "\x7d" = [0x7D] := by decide
  -- the names and the signs are written out in the source
  rw [hopening, hnext, hcomma, hclosing]
  simpa [statsValue] using Json.Denotes.object hmembers

/-- The object for the report is one of the values that the answer denotes. -/
theorem denotes_toJson (report : RunReport) :
    Json.Denotes (toJson report) (reportValue report) := by
  -- the fields in the order of the source
  have h := lists_appendRaw lists_start (by decide : Ascii (str "ok")) (denotes_jsonBool report.ok)
  have h := lists_appendField_ascii h (by decide : Ascii (str "stage"))
    (ascii_stageName report.stage)
  have h := lists_appendField h (by decide : Ascii (str "diagnostics")) report.diagnostics
  have h := lists_appendField h (by decide : Ascii (str "error")) report.error
  have h := lists_appendField h (by decide : Ascii (str "output")) report.output
  have h := lists_appendRaw h (by decide : Ascii (str "output_truncated"))
    (denotes_jsonBool report.outputTruncated)
  have h := lists_appendField h (by decide : Ascii (str "disassembly")) report.disassembly
  have h := lists_appendRaw h (by decide : Ascii (str "ran"))
    (denotes_jsonBool (report.stage = .execute || report.stage = .finished))
  have h := lists_appendField_ascii h (by decide : Ascii (str "exit_code"))
    (ascii_decimal report.exitCode.toNat)
  have h := lists_appendField_ascii h (by decide : Ascii (str "instructions"))
    (ascii_decimal report.instructions.toNat)
  have h := lists_appendField_ascii h (by decide : Ascii (str "pc")) (ascii_decimal report.pc.toNat)
  have h := lists_appendField_ascii h (by decide : Ascii (str "sp")) (ascii_decimal report.sp.toNat)
  have h := lists_appendField_ascii h (by decide : Ascii (str "flags"))
    (ascii_decimal report.flags.toNat)
  have h := lists_appendRaw h (by decide : Ascii (str "registers"))
    (denotes_jsonRegisters report.registers)
  have h := lists_appendRaw h (by decide : Ascii (str "stats")) (denotes_jsonStats report.stats)
  exact h.close rfl

/-- **The answer denotes the report** and nothing else: it is a text of JSON in UTF-8 without
control characters, from which the page reads every field of the report, the quantities of 64 bits
to the last digit and the texts with U+FFFD for what is not UTF-8. -/
theorem toJson_denotes (report : RunReport) : Json.Plain (toJson report) ∧
    ∀ value, Json.Denotes (toJson report) value ↔ value = reportValue report := by
  have hdenotes := denotes_toJson report
  refine ⟨hdenotes.plain, fun value => ⟨fun h => h.unique hdenotes, fun h => ?_⟩⟩
  rw [h]
  exact hdenotes

end Playground
end MiniTool
