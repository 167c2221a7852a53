import MiniToolchain.Assembler.Pipeline
import MiniToolchain.Isa.Printing
import MiniToolchain.Lexer.Lines
import Mathlib.Data.List.DropRight

/-!
# Diagnostics as text

A diagnostic is shown with the line of the source it is about and a caret below the place.

## Main definitions

* `lineStarts`, `SourceManager.line` — the lines of a file.
* `DiagnosticEngine.renderInto`, `DiagnosticEngine.renderAll` — diagnostics as text.
* `lineAround`, `Marks` — the line around a place, and a caret below it.

## Main results

* `line_of_place` — the line that a location names is the line around its place.
* `marks_excerpt` — the caret is at the place.
-/

namespace MiniTool

open Isa (decimal)

/-! ### The lines of a file -/

/-- The offsets behind the newlines, from the offset `i` on. -/
def lineStartsFrom : ℕ → Str → List ℕ
  | _, [] => []
  | i, c :: rest => if c = 10 then (i + 1) :: lineStartsFrom (i + 1) rest
    else lineStartsFrom (i + 1) rest

/-- The offset of each line. -/
def lineStarts (text : Str) : List ℕ := 0 :: lineStartsFrom 0 text

/-- The characters that end a line. -/
def endsLine (c : UInt8) : Bool := c = 10 || c = 13

namespace SourceManager

/-- A line without its terminator; lines count from 1. -/
def line (sources : SourceManager) (id : FileId) (line : UInt32) : Str :=
  match sources[id.toNat]? with
  | none => []
  | some file =>
    if line = 0 then []
    else
      let starts := lineStarts file.text
      let index := (line - 1).toNat
      match starts[index]? with
      | none => []
      | some first =>
        let last := starts[index + 1]?.getD file.text.length
        ((file.text.drop first).take (last - first)).rdropWhile endsLine

end SourceManager

namespace Diag

def severityName : Severity → String
  | .note => "note"
  | .warning => "warning"
  | .error => "error"
  | .fatal => "fatal error"

/-- Tabs as blanks. -/
def detab (text : Str) : Str := text.map fun c => if c = 9 then 32 else c

/-- `{:>5}`: a text with blanks before it, up to a width. -/
def rightAligned (text : Str) : Str := List.replicate (5 - text.length) 32 ++ text

/-- The caret below a column, and the underline behind it. -/
def caretLine (line : Str) (location : SourceLocation) : Str :=
  let col := min (location.column - 1).toNat line.length
  let remaining := line.length - col
  let span := min (max location.length 1).toNat (max remaining 1)
  List.replicate col 32 ++ str "^" ++ if span > 1 then List.replicate (span - 1) 126 else []

/-- The first line of a message. -/
def heading (sources : SourceManager) (severity : Severity) (location : SourceLocation)
    (message : String) : Str :=
  let text := str (severityName severity) ++ str ": " ++ Str.ofText message ++ str "\n"
  match sources[location.file.toNat]? with
  | none => text
  | some file =>
    if location.file = kInvalidFileId then text
    else
      file.name ++ str ":" ++ decimal location.line.toNat ++ str ":" ++
        decimal location.column.toNat ++ str ": " ++ text

/-- The line of the source that a message is about. -/
def excerpt (sources : SourceManager) (location : SourceLocation) : Str :=
  let rawLine :=
    if location.file = kInvalidFileId then [] else sources.line location.file location.line
  if rawLine ≠ [] ∧ location.column > 0 then
    let line := detab rawLine
    let gutter := rightAligned (decimal location.line.toNat)
    gutter ++ str " | " ++ line ++ str "\n" ++
      (List.replicate gutter.length 32 ++ str " | " ++ caretLine line location ++ str "\n")
  else []

/-- One message; nothing makes suggestions. -/
def renderMessage (sources : SourceManager) (severity : Severity) (location : SourceLocation)
    (message : String) : Str :=
  heading sources severity location message ++ excerpt sources location

/-- A diagnostic, and its notes behind it. -/
def renderInto (sources : SourceManager) (out : Str) (d : Diagnostic) : Str :=
  d.notes.foldl (fun out note => out ++ renderMessage sources .note note.location note.message)
    (out ++ renderMessage sources d.severity d.location d.message)

/-- Every diagnostic, in order. -/
def DiagnosticEngine.renderAll (engine : DiagnosticEngine) (sources : SourceManager) : Str :=
  engine.diagnostics.foldl (renderInto sources) []

end Diag

/-! ### The line around a place -/

theorem lineStartsFrom_append (i : ℕ) (text rest : Str) :
    lineStartsFrom i (text ++ rest) = lineStartsFrom i text ++ lineStartsFrom
      (i + text.length) rest := by
  induction text generalizing i with
  | nil => rfl
  | cons c text ih =>
    have hlength : i + 1 + text.length = i + (c :: text).length := by
      rw [List.length_cons]
      omega
    rw [List.cons_append, lineStartsFrom, lineStartsFrom, ih, hlength]
    split_ifs
    · rfl
    · rfl

theorem length_lineStartsFrom (i : ℕ) (text : Str) :
    (lineStartsFrom i text).length = text.count 10 := by
  induction text generalizing i with
  | nil => rfl
  | cons c text ih =>
    unfold lineStartsFrom
    split_ifs with hc
    · rw [hc, List.length_cons, ih, List.count_cons_self]
    · rw [ih, List.count_cons_of_ne hc]

/-- A text without newlines starts no line. -/
theorem lineStartsFrom_of_not_mem {text : Str} (h : 10 ∉ text) (i : ℕ) :
    lineStartsFrom i text = [] := by
  rw [← List.length_eq_zero_iff, length_lineStartsFrom, List.count_eq_zero_of_not_mem h]

/-- The last line that is started begins at the end of what ends with a newline. -/
theorem lineStarts_last {text : Str} (h : text = [] ∨ ∃ front, text = front ++ [10]) (rest : Str) :
    (lineStarts (text ++ rest))[text.count 10]? = some text.length := by
  unfold lineStarts
  rw [lineStartsFrom_append, ← List.cons_append]
  rcases h with rfl | ⟨front, rfl⟩
  · rfl
  · have hlength := length_lineStartsFrom 0 front
    have hstarts : 0 :: lineStartsFrom 0 (front ++ [10]) =
        (0 :: lineStartsFrom 0 front) ++ [front.length + 1] := by
      rw [lineStartsFrom_append, Nat.zero_add]
      rfl
    have hcount : (front ++ [10]).count 10 = (0 :: lineStartsFrom 0 front).length := by
      rw [List.count_append, List.length_cons, hlength]
      rfl
    rw [hstarts, hcount, List.append_assoc, List.getElem?_append_right le_rfl, Nat.sub_self,
      List.length_append]
    rfl

/-- Where the next line starts, if there is one. -/
theorem lineStarts_next {text line rest : Str} (hline : 10 ∉ line)
    (hrest : rest = [] ∨ ∃ more, rest = 10 :: more) :
    (lineStarts (text ++ (line ++ rest)))[text.count 10 + 1]?.getD (text ++ (line ++ rest)).length =
      (text ++ line).length + (rest.take 1).length := by
  unfold lineStarts
  rw [lineStartsFrom_append, lineStartsFrom_append, lineStartsFrom_of_not_mem hline,
    List.nil_append, List.getElem?_cons_succ,
    List.getElem?_append_right (by rw [length_lineStartsFrom]), length_lineStartsFrom, Nat.sub_self]
  rcases hrest with rfl | ⟨more, rfl⟩
  · simp [lineStartsFrom]
  · simp [lineStartsFrom]

/-- The part of a text behind its last newline. -/
def lastLine (text : Str) : Str := (text.reverse.takeWhile (· ≠ 10)).reverse

/-- The line around the place between two parts of a text, as it is shown. -/
def lineAround (seen start : Str) : Str :=
  (lastLine seen ++ start.takeWhile (· ≠ 10)).rdropWhile endsLine

theorem not_mem_lastLine (text : Str) : 10 ∉ lastLine text := by
  intro h
  simpa using List.mem_takeWhile_imp (List.mem_reverse.mp h)

theorem dropWhile_newline (text : Str) :
    text.dropWhile (· ≠ 10) = [] ∨ ∃ behind, text.dropWhile (· ≠ 10) = 10 :: behind := by
  induction text with
  | nil => exact .inl rfl
  | cons c text ih =>
    by_cases hc : c = 10
    · exact .inr ⟨text, by simp [hc]⟩
    · rwa [List.dropWhile_cons_of_pos (by simpa using hc)]

/-- What is before it ends with a newline. -/
theorem exists_lastLine (text : Str) : ∃ earlier, text = earlier ++ lastLine text ∧
    (earlier = [] ∨ ∃ front, earlier = front ++ [10]) := by
  refine ⟨(text.reverse.dropWhile (· ≠ 10)).reverse, ?_, ?_⟩
  · unfold lastLine
    rw [← List.reverse_append, List.takeWhile_append_dropWhile, List.reverse_reverse]
  · rcases dropWhile_newline text.reverse with hdrop | ⟨behind, hdrop⟩
    · left
      rw [hdrop]
      rfl
    · exact .inr ⟨behind.reverse, by rw [hdrop, List.reverse_cons]⟩

/-- **The line that a location names** is the line around its place. -/
theorem line_of_place {sources : SourceManager} {id : FileId} {file : SourceFile}
    (hfile : sources[id.toNat]? = some file) {seen start : Str}
    (hsource : file.text = seen ++ start) {line : UInt32} (hline : line.toNat = 1 + seen.count 10) :
    sources.line id line = lineAround seen start := by
  obtain ⟨earlier, hseen, hearlier⟩ := exists_lastLine seen
  have hcount : seen.count 10 = earlier.count 10 := by
    conv_lhs => rw [hseen]
    rw [List.count_append, List.count_eq_zero_of_not_mem (not_mem_lastLine seen), Nat.add_zero]
  -- the line ends where the text does, or before a newline
  obtain ⟨more, hstart, hrest⟩ : ∃ more, start = start.takeWhile (· ≠ 10) ++ more ∧
      (more = [] ∨ ∃ behind, more = 10 :: behind) :=
    ⟨_, List.takeWhile_append_dropWhile.symm, dropWhile_newline start⟩
  have hnone : 10 ∉ lastLine seen ++ start.takeWhile (· ≠ 10) := by
    rw [List.mem_append, not_or]
    refine ⟨not_mem_lastLine seen, fun h => ?_⟩
    simpa using List.mem_takeWhile_imp h
  have htext : file.text = earlier ++ (lastLine seen ++ start.takeWhile (· ≠ 10) ++ more) := by
    rw [hsource, List.append_assoc, ← hstart, ← List.append_assoc, ← hseen]
  have hzero : line ≠ 0 := by
    rintro rfl
    rw [UInt32.toNat_zero] at hline
    omega
  have hindex : (line - 1).toNat = earlier.count 10 := by
    have hone : (1 : UInt32) ≤ line := by
      rw [UInt32.le_iff_toNat_le, UInt32.toNat_one]
      omega
    rw [UInt32.toNat_sub_of_le _ _ hone, UInt32.toNat_one]
    omega
  unfold SourceManager.line lineAround
  rw [hfile]
  dsimp only
  rw [if_neg hzero, hindex, htext, lineStarts_last hearlier, lineStarts_next hnone hrest]
  dsimp only
  rw [List.drop_left, List.length_append, Nat.add_assoc, Nat.add_sub_cancel_left]
  rcases hrest with rfl | ⟨behind, rfl⟩
  · rw [List.append_nil, List.take_nil, List.length_nil, Nat.add_zero, List.take_length]
  · have htake : (lastLine seen ++ start.takeWhile (· ≠ 10) ++ 10 :: behind).take
        ((lastLine seen ++ start.takeWhile (· ≠ 10)).length + (List.take 1 (10 :: behind)).length) =
          lastLine seen ++ start.takeWhile (· ≠ 10) ++ [10] := by
      rw [List.take_length_add_append]
      rfl
    rw [htake, List.rdropWhile_concat_pos _ _ _ rfl]

/-! ### The caret -/

namespace Diag

/-- The line around a place with its number, and below it a caret at the place with an underline
that ends with the line. -/
def Marks (number : ℕ) (seen start shown : Str) : Prop :=
  ∃ gutter underline, gutter = rightAligned (decimal number) ∧
    shown = gutter ++ str " | " ++ detab (lineAround seen start) ++ str "\n" ++
      (List.replicate gutter.length 32 ++ str " | " ++
        (List.replicate (min (lastLine seen).length (lineAround seen start).length) 32 ++ str "^" ++
          List.replicate underline 126) ++ str "\n") ∧
    (underline ≠ 0 → (lastLine seen).length + 1 + underline ≤ (lineAround seen start).length)

theorem length_detab (text : Str) : (detab text).length = text.length := List.length_map _

/-- **The caret is at the place** that a location says. -/
theorem marks_excerpt {sources : SourceManager} {location : SourceLocation} {file : SourceFile}
    (hvalid : location.file ≠ kInvalidFileId) (hfile : sources[location.file.toNat]? = some file)
    {seen start : Str} (hsource : file.text = seen ++ start)
    (hline : location.line.toNat = 1 + seen.count 10)
    (hcolumn : location.column.toNat = 1 + (lastLine seen).length)
    (hshown : lineAround seen start ≠ []) :
    Marks location.line.toNat seen start (excerpt sources location) := by
  have hpos : location.column > 0 := by
    rw [gt_iff_lt, UInt32.lt_iff_toNat_lt, UInt32.toNat_zero]
    omega
  have hcol : (location.column - 1).toNat = (lastLine seen).length := by
    have hone : (1 : UInt32) ≤ location.column := by
      rw [UInt32.le_iff_toNat_le, UInt32.toNat_one]
      omega
    rw [UInt32.toNat_sub_of_le _ _ hone, UInt32.toNat_one]
    omega
  unfold excerpt caretLine
  dsimp only
  rw [if_neg hvalid, line_of_place hfile hsource hline, if_pos ⟨hshown, hpos⟩, hcol, length_detab]
  split_ifs with hspan
  · refine ⟨_, _, rfl, rfl, fun _ => ?_⟩
    omega
  · refine ⟨_, 0, rfl, rfl, fun h => absurd rfl h⟩

/-- The second line of a file, with a carriage return, and the operand that is wrong. -/
example : excerpt [{ name := str "a", text := str "NOP\n\tPUSH 1\x0D\n" }]
    { file := 0, line := 2, column := 7, length := 1 } =
    str "    2 |  PUSH 1\n      |       ^\n" := by
  decide

end Diag

end MiniTool
