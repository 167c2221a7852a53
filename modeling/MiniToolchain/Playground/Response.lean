import MiniToolchain.Assembler.RoundTrip
import MiniToolchain.Playground.Report

/-!
# What a client reads

An answer is a head of lines, a blank line and a body.  A client finds the end of the head and takes
as many bytes behind it as the head says.

## Main definitions

* `headOf` — lines without terminators inside.
* `Reads` — what a client reads of an answer.
* `Answer` — what the playground answers.

## Main results

* `find_headOf`, `contentLengthFrom_headOf` — the end of a head, and the content length that it
  gives.
* `reads_sendResponse` — an answer is read as it was meant.
* `serve_answers` — so is all that is ever sent.
* `form_answered` — a form is answered with the JSON of the report of its run.
-/

namespace MiniTool
namespace Playground

open Isa (decimal)

/-! ### Heads -/

/-- The lines of a head, with a terminator between them. -/
def headOf : List Str → Str
  | [] => []
  | [line] => line
  | line :: next :: rest => line ++ lineTerminator ++ headOf (next :: rest)

/-- A line of a head: it is not blank, and no carriage return is part of it. -/
def IsLine (line : Str) : Prop := line ≠ [] ∧ 0x0D ∉ line

/-- A head begins with a byte that is no carriage return. -/
theorem exists_head {line : Str} (hline : IsLine line) (rest : List Str) :
    ∃ byte tail, headOf (line :: rest) = byte :: tail ∧ byte ≠ 0x0D := by
  obtain ⟨byte, tail, rfl⟩ := List.exists_cons_of_ne_nil hline.1
  have hbyte : byte ≠ 0x0D := fun heq => hline.2 (heq ▸ List.mem_cons_self)
  cases rest with
  | nil => exact ⟨byte, tail, rfl, hbyte⟩
  | cons next rest => exact ⟨byte, _, rfl, hbyte⟩

/-- The terminator of a line that is not the last one. -/
theorem find_lineTerminator {byte : UInt8} (hbyte : byte ≠ 0x0D) (tail : Str) :
    find headerTerminator (lineTerminator ++ byte :: tail) =
      (find headerTerminator (byte :: tail)).map (· + 2) := by
  rw [show lineTerminator ++ byte :: tail = 0x0D :: 0x0A :: byte :: tail from rfl]
  conv_lhs =>
    unfold find
    rw [if_neg (by simp [List.isPrefixOf, Ne.symm hbyte])]
    unfold find
    rw [if_neg (by simp [List.isPrefixOf])]
  rw [Option.map_map]
  rfl

/-- The head of a message ends at the first blank line. -/
theorem find_headOf {lines : List Str} (hlines : ∀ line ∈ lines, IsLine line) (hne : lines ≠ [])
    (body : Str) : find headerTerminator (headOf lines ++ headerTerminator ++ body) =
      some (headOf lines).length := by
  induction lines with
  | nil => exact absurd rfl hne
  | cons line lines ih =>
    obtain ⟨hline, hmore⟩ := List.forall_mem_cons.mp hlines
    cases lines with
    | nil =>
      rw [headOf, List.append_assoc, find_skip hline.2, find_here (by decide)]
      simp
    | cons next rest =>
      -- behind the terminator comes the first byte of the next line
      obtain ⟨hnext, -⟩ := List.forall_mem_cons.mp hmore
      obtain ⟨byte, tail, hhead, hbyte⟩ := exists_head hnext rest
      have hskip := find_lineTerminator hbyte (tail ++ (headerTerminator ++ body))
      rw [← List.cons_append, ← hhead, ← List.append_assoc (headOf _),
        ih hmore (List.cons_ne_nil _ _)] at hskip
      rw [headOf, List.append_assoc, List.append_assoc, List.append_assoc, find_skip hline.2,
        ← List.append_assoc (headOf _), hskip]
      simp
      omega

/-- The lines of a head one after the other. -/
theorem contentLengthFrom_headOf {lines : List Str} (hlines : ∀ line ∈ lines, IsLine line) (n : ℕ) :
    contentLengthFrom (headOf lines) n = lines.foldl (fun n line => headerLine line n) n := by
  induction lines generalizing n with
  | nil =>
    unfold contentLengthFrom
    rfl
  | cons line lines ih =>
    obtain ⟨hline, hmore⟩ := List.forall_mem_cons.mp hlines
    cases lines with
    | nil =>
      unfold contentLengthFrom
      have hnone : find lineTerminator line = none := by
        have hskip := find_skip hline.2 [0x0A] []
        rwa [List.append_nil] at hskip
      rw [headOf, if_neg hline.1, hnone]
      rfl
    | cons next rest =>
      have hfind : find lineTerminator (headOf (line :: next :: rest)) = some line.length := by
        rw [headOf, List.append_assoc, find_skip hline.2, find_here (by decide)]
        simp
      have hne : headOf (line :: next :: rest) ≠ [] := by
        rw [headOf]
        simp
      have hbehind : (headOf (line :: next :: rest)).drop (line.length + 2) =
          headOf (next :: rest) :=
        List.drop_left' (by simp)
      have hfront : (headOf (line :: next :: rest)).take line.length = line := by
        rw [headOf, List.append_assoc, List.take_left]
      unfold contentLengthFrom
      rw [if_neg hne, hfind]
      dsimp only
      rw [hbehind, hfront, ih hmore]
      rfl

/-! ### The content length -/

theorem digitValue_of_isDigit {c : UInt8} (h : Lexer.isDigit c = true) :
    Lexer.digitValue c = c.toNat - 0x30 := by
  revert h
  revert c
  apply Lexer.forall_byte
  decide +kernel

/-- A number that is printed is read back. -/
theorem fromChars_decimal {n : ℕ} (h : n < 2 ^ 64) (value : ℕ) :
    fromChars (decimal n) value = n := by
  have hdigit : ∀ c ∈ decimal n, (0x30 ≤ c && c ≤ 0x39) = true := isDigit_of_mem_decimal n
  have htake : (decimal n).takeWhile (fun byte => 0x30 ≤ byte && byte ≤ 0x39) = decimal n :=
    List.takeWhile_eq_self_iff.mpr hdigit
  have hvalue : (decimal n).foldl (fun n byte => n * 10 + (byte.toNat - 0x30)) 0 = n := by
    calc _ = Lexer.digitsValue 10 (decimal n) :=
          List.foldl_ext _ _ _ fun value c hmem => by
            rw [digitValue_of_isDigit (isDigit_of_mem_decimal n c hmem)]
      _ = n := digitsValue_decimal n
  unfold fromChars
  rw [htake]
  dsimp only
  rw [hvalue, if_neg]
  rw [not_or]
  exact ⟨decimal_ne_nil n, Nat.not_le.mpr h⟩

/-- The header line of a content length. -/
theorem headerLine_contentLength {n : ℕ} (h : n < 2 ^ 64) (value : ℕ) :
    headerLine (str "Content-Length: " ++ decimal n) value = n := by
  have hfind : find [0x3A] (str "Content-Length: " ++ decimal n) = some 14 :=
    find_byte (by decide : 0x3A ∉ str "Content-Length") (0x20 :: decimal n)
  have hname : ((str "Content-Length: " ++ decimal n).take 14).map toLower =
      str "content-length" := by
    rw [List.take_append_of_le_length (by decide)]
    decide
  have hdrop : (str "Content-Length: " ++ decimal n).drop (14 + 1) = 0x20 :: decimal n := rfl
  have hblank : (decimal n).dropWhile (fun byte => decide (byte = 0x20)) = decimal n := by
    obtain ⟨c, digits, heq⟩ := List.exists_cons_of_ne_nil (decimal_ne_nil n)
    have hc := isDigit_of_mem_decimal n c (heq ▸ List.mem_cons_self)
    rw [heq]
    refine List.dropWhile_cons_of_neg ?_
    rw [decide_eq_true_eq]
    rintro rfl
    cases hc
  unfold headerLine
  rw [hfind]
  dsimp only
  rw [hname, if_pos rfl, hdrop, List.dropWhile_cons_of_pos (by decide), hblank]
  exact fromChars_decimal h value

/-! ### Answers -/

/-- The lines of the head of an answer. -/
def responseLines (response : HttpResponse) : List Str := [
  str "HTTP/1.1 " ++ decimal response.status ++ str " " ++ statusText response.status,
  str "Content-Type: " ++ response.contentType,
  str "Content-Length: " ++ decimal response.body.length,
  str "Cache-Control: no-store",
  str "Connection: close"]

theorem sendResponse_eq (response : HttpResponse) : sendResponse response =
    headOf (responseLines response) ++ headerTerminator ++ response.body := by
  have hterminator : headerTerminator = lineTerminator ++ lineTerminator := rfl
  unfold sendResponse responseLines headOf headOf headOf headOf headOf
  rw [hterminator]
  simp only [List.append_assoc]

/-- What a client reads of an answer: the head ends at the first blank line, its lines say what the
body is and how long, and behind it is the body and no more. -/
structure Reads (sent : Str) (response : HttpResponse) : Prop where
  head : find headerTerminator sent = some (headOf (responseLines response)).length
  lines : sent.take (headOf (responseLines response)).length = headOf (responseLines response)
  length : contentLength (headOf (responseLines response)) = response.body.length
  body : sent.drop ((headOf (responseLines response)).length + 4) = response.body

theorem not_mem_decimal_of {c : UInt8} (h : Lexer.isDigit c = false) (n : ℕ) : c ∉ decimal n := by
  intro hmem
  rw [isDigit_of_mem_decimal n c hmem] at h
  cases h

theorem not_mem_statusText (status : ℕ) : 0x0D ∉ statusText status := by
  unfold statusText
  split <;> decide

theorem isLine_responseLines {response : HttpResponse} (htype : 0x0D ∉ response.contentType) :
    ∀ line ∈ responseLines response, IsLine line := by
  have hdecimal : ∀ n, 0x0D ∉ decimal n := not_mem_decimal_of rfl
  simp only [responseLines, List.forall_mem_cons]
  -- each line begins with a name
  have hline : ∀ {name rest : Str}, name ≠ [] → 0x0D ∉ name → 0x0D ∉ rest → IsLine (name ++ rest) :=
    fun hne hname hrest => ⟨List.append_ne_nil_of_left_ne_nil hne _,
      fun hmem => (List.mem_append.mp hmem).elim hname hrest⟩
  have hstatus : 0x0D ∉ decimal response.status ++ (str " " ++ statusText response.status) := by
    rw [List.mem_append, List.mem_append, not_or, not_or]
    exact ⟨hdecimal _, by decide, not_mem_statusText _⟩
  refine ⟨?_, hline (by decide) (by decide) htype, hline (by decide) (by decide) (hdecimal _),
    ⟨by decide, by decide⟩, ⟨by decide, by decide⟩, fun _ hmem => absurd hmem List.not_mem_nil⟩
  rw [List.append_assoc, List.append_assoc]
  exact hline (by decide) (by decide) hstatus

/-- **An answer is read as it was meant.** -/
theorem reads_sendResponse {response : HttpResponse} (htype : 0x0D ∉ response.contentType)
    (hlength : response.body.length < 2 ^ 64) : Reads (sendResponse response) response := by
  have hlines := isLine_responseLines htype
  rw [sendResponse_eq]
  refine ⟨find_headOf hlines (List.cons_ne_nil _ _) _, ?_, ?_, ?_⟩
  · rw [List.append_assoc, List.take_left]
  · unfold contentLength
    rw [contentLengthFrom_headOf hlines]
    -- the lines behind that of the content length leave it alone
    have hcache : ∀ n, headerLine (str "Cache-Control: no-store") n = n := fun n => rfl
    have hconnection : ∀ n, headerLine (str "Connection: close") n = n := fun n => rfl
    simp only [responseLines, List.foldl_cons, List.foldl_nil]
    rw [hconnection, hcache, headerLine_contentLength hlength]
  · exact List.drop_left' (by simp)

/-- What the playground answers: its page, a report, or a refusal with its text. -/
inductive Answer (page : Str) : HttpResponse → Prop
  | page :
    Answer page { status := 200, contentType := str "text/html; charset=utf-8", body := page }
  | report (report : RunReport) : Answer page (jsonResponse report)
  | refusal {status : ℕ} (text : String)
      (h : status = 400 ∨ status = 404 ∨ status = 405 ∨ status = 413) :
    Answer page (plainText status text)

theorem Answer.type {page : Str} {response : HttpResponse} (h : Answer page response) :
    0x0D ∉ response.contentType := by
  cases h with
  | page => exact (by decide : 0x0D ∉ str "text/html; charset=utf-8")
  | report => exact (by decide : 0x0D ∉ str "application/json; charset=utf-8")
  | refusal => exact (by decide : 0x0D ∉ str "text/plain; charset=utf-8")

/-- What comes of a request that arrives: an answer, or what running the body throws. -/
structure Handled (oob : ℕ → Bool) (memory : ℕ) (page body : Str)
    (outcome : Except Exception HttpResponse) : Prop where
  answer : ∀ response, outcome = .ok response → Answer page response
  exception : ∀ e, outcome = .error e →
    ∃ request : RunRequest, request.source = body ∧
      Overfills oob request (Assembler.capacity memory)

theorem Handled.of_answer {oob : ℕ → Bool} {memory : ℕ} {page body : Str} {response : HttpResponse}
    (h : Answer page response) : Handled oob memory page body (.ok response) :=
  ⟨fun _ heq => Except.ok.inj heq ▸ h, fun _ heq => nomatch heq⟩

theorem exists_handled (oob : ℕ → Bool) (memory : ℕ) (page method target body : Str) :
    ∃ outcome, handleRequest oob memory page method target body = some outcome ∧
      Handled oob memory page body outcome := by
  unfold handleRequest
  dsimp only
  by_cases hpage : pathOf target = str "/" ∨ pathOf target = str "/index.html"
  · rw [if_pos hpage]
    by_cases hget : method ≠ str "GET"
    · rw [if_pos hget]
      exact ⟨_, rfl, .of_answer (.refusal _ (by decide))⟩
    · rw [if_neg hget]
      exact ⟨_, rfl, .of_answer .page⟩
  · rw [if_neg hpage]
    by_cases hrun : pathOf target = str "/api/run"
    · rw [if_pos hrun]
      by_cases hpost : method ≠ str "POST"
      · rw [if_pos hpost]
        exact ⟨_, rfl, .of_answer (.refusal _ (by decide))⟩
      · rw [if_neg hpost]
        by_cases hlong : body.length > kMaxSourceBytes
        · rw [if_pos hlong]
          exact ⟨_, rfl, .of_answer (.refusal _ (by decide))⟩
        · rw [if_neg hlong]
          obtain ⟨outcome, houtcome, h⟩ := exists_outcome oob memory
            { source := body
              input := queryValue (queryOf target) (str "stdin")
              optLevel := if queryValue (queryOf target) (str "opt") = str "1" then .O1 else .O0 }
          rw [houtcome]
          refine ⟨_, rfl, ?_⟩
          cases outcome with
          | error e =>
            exact ⟨fun _ heq => (nomatch heq), fun _ _ => ⟨_, rfl, h.throws.mp ⟨e, rfl⟩⟩⟩
          | ok report => exact .of_answer (.report report)
    · rw [if_neg hrun]
      exact ⟨_, rfl, .of_answer (.refusal _ (by decide))⟩

theorem sendResponse_ne_nil (response : HttpResponse) : sendResponse response ≠ [] := by
  rw [sendResponse_eq]
  simp

/-- What is sent on a connection: nothing exactly if there is no request, else one answer of the
playground, which the client reads as it was meant. -/
structure Sends (page : Str) (chunks : List Str) (sent : Str) : Prop where
  nothing : sent = [] ↔ respond chunks = .rejected ∨ respond chunks = .incomplete
  answer : sent ≠ [] → ∃ response, sent = sendResponse response ∧ Answer page response ∧
    (response.body.length < 2 ^ 64 → Reads sent response)

theorem Sends.of_answer {page : Str} {chunks : List Str} {response : HttpResponse}
    (h : Answer page response)
    (hrequest : ¬(respond chunks = .rejected ∨ respond chunks = .incomplete)) :
    Sends page chunks (sendResponse response) :=
  ⟨iff_of_false (sendResponse_ne_nil response) hrequest,
    fun _ => ⟨response, rfl, h, reads_sendResponse h.type⟩⟩

/-- **All that is sent** on a connection is one answer of the playground, which the client reads as
it was meant; nothing is sent exactly if there is no request.  Only a body that is lowered to a
section that does not fit into the memory makes the server throw before it answers. -/
theorem serve_answers (oob : ℕ → Bool) (memory : ℕ) (page : Str) (chunks : List Str) :
    ∃ outcome, serveConnection oob memory page chunks = some outcome ∧
      (∀ sent, outcome = .ok sent → Sends page chunks sent) ∧
      ∀ e, outcome = .error e → ∃ method target body, respond chunks = .handled method target body ∧
        ∃ request : RunRequest, request.source = body ∧
          Overfills oob request (Assembler.capacity memory) := by
  unfold serveConnection
  -- by what became of the connection
  cases hrespond : respond chunks with
  | rejected =>
    refine ⟨_, rfl, ?_, fun _ h => nomatch h⟩
    rintro sent ⟨⟩
    exact ⟨iff_of_true rfl (.inl hrespond), fun hne => absurd rfl hne⟩
  | incomplete =>
    refine ⟨_, rfl, ?_, fun _ h => nomatch h⟩
    rintro sent ⟨⟩
    exact ⟨iff_of_true rfl (.inr hrespond), fun hne => absurd rfl hne⟩
  | badRequest text =>
    refine ⟨_, rfl, ?_, fun _ h => nomatch h⟩
    rintro sent ⟨⟩
    exact .of_answer (.refusal text (by decide)) (by simp [hrespond])
  | handled method target body =>
    obtain ⟨outcome, houtcome, h⟩ := exists_handled oob memory page method target body
    dsimp only
    rw [houtcome]
    refine ⟨_, rfl, ?_⟩
    cases outcome with
    | error e => exact ⟨fun _ h => (nomatch h), fun _ _ => ⟨_, _, _, rfl, h.exception e rfl⟩⟩
    | ok response =>
      refine ⟨?_, fun _ h => nomatch h⟩
      rintro sent ⟨⟩
      exact .of_answer (h.answer response rfl) (by simp [hrespond])

/-! ### A form and its answer -/

/-- **A form and its answer**: in whatever chunks the form arrives, the client reads the JSON of a
report, and it is that of the run of the body with the fields of the form.  The server throws
instead exactly if the body is lowered to a section that does not fit into the memory. -/
theorem form_answered (oob : ℕ → Bool) (memory : ℕ) (page : Str) {stream : Str} {headerEnd : ℕ}
    {pairs : List (Str × Str)} (hcomplete : Complete stream headerEnd stream.length)
    (hshort : stream.length ≤ kMaxRequestBytes + 1) (hline : requestLine stream = formLine pairs)
    (hfits : (stream.drop (headerEnd + 4)).length ≤ kMaxSourceBytes) {chunks : List Str}
    (hsplits : Chunks.Splits kReceiveBytes chunks stream) :
    (Overfills oob (formRequest pairs (stream.drop (headerEnd + 4))) (Assembler.capacity memory) ∧
      ∃ e, serveConnection oob memory page chunks = some (.error e)) ∨
    (¬Overfills oob (formRequest pairs (stream.drop (headerEnd + 4))) (Assembler.capacity memory) ∧
      ∃ report, serveConnection oob memory page chunks =
          some (.ok (sendResponse (jsonResponse report))) ∧
        Consistent report ∧
        Answers oob memory (formRequest pairs (stream.drop (headerEnd + 4))) report ∧
        ((toJson report).length < 2 ^ 64 →
          Reads (sendResponse (jsonResponse report)) (jsonResponse report)) ∧
        ∀ value, Json.Denotes (jsonResponse report).body value ↔ value = reportValue report) := by
  obtain ⟨outcome, houtcome, h⟩ :=
    exists_outcome oob memory (formRequest pairs (stream.drop (headerEnd + 4)))
  -- the form comes as a whole, and its body is not too long
  rw [serveConnection_form oob memory page hcomplete hshort hline hsplits, handleRequest_form,
    if_neg (Nat.not_lt.mpr hfits), houtcome]
  cases outcome with
  | error e => exact .inl ⟨h.throws.mp ⟨e, rfl⟩, e, rfl⟩
  | ok report =>
    have hroom : ¬Overfills oob (formRequest pairs (stream.drop (headerEnd + 4)))
        (Assembler.capacity memory) := fun hover => by
      obtain ⟨e, he⟩ := h.throws.mpr hover
      cases he
    obtain ⟨-, hconsistent, hanswers⟩ := h.report report rfl
    have htype := (Answer.report report : Answer page (jsonResponse report)).type
    have hdenotes := denotes_toJson report
    refine .inr ⟨hroom, report, rfl, hconsistent, hanswers, reads_sendResponse htype,
      fun value => ?_⟩
    exact ⟨fun h => h.unique hdenotes, fun h => h ▸ hdenotes⟩

theorem form_answered_posted :
    (Overfills (fun _ => false) (formRequest [(str "opt", str "1"), (str "stdin", str "a &")]
        (postedForm.drop (59 + 4))) (Assembler.capacity 8) ∧
      ∃ e, serveConnection (fun _ => false) 8 [] [postedForm.take 50, postedForm.drop 50] =
        some (.error e)) ∨
    (¬Overfills (fun _ => false) (formRequest [(str "opt", str "1"), (str "stdin", str "a &")]
        (postedForm.drop (59 + 4))) (Assembler.capacity 8) ∧
      ∃ report, serveConnection (fun _ => false) 8 [] [postedForm.take 50, postedForm.drop 50] =
          some (.ok (sendResponse (jsonResponse report))) ∧
        Consistent report ∧
        Answers (fun _ => false) 8 (formRequest [(str "opt", str "1"), (str "stdin", str "a &")]
          (postedForm.drop (59 + 4))) report ∧
        ((toJson report).length < 2 ^ 64 →
          Reads (sendResponse (jsonResponse report)) (jsonResponse report)) ∧
        ∀ value, Json.Denotes (jsonResponse report).body value ↔ value = reportValue report) :=
  form_answered (fun _ => false) 8 [] ⟨by decide +kernel, by decide, by decide⟩ (by decide)
    (by decide) (by decide) ⟨by decide, by decide, by decide⟩

end Playground
end MiniTool
