import MiniToolchain.Lib.UrlEncoded
import MiniToolchain.Playground.Json
import MiniToolchain.Playground.Run

/-!
# The interface of the playground

A form in the query of the target says how to run the source in the body, and the report is answered
as JSON.

## Main definitions

* `urlDecode`, `queryValue` — the fields of a query.
* `toJson`, `handleRequest`, `sendResponse`, `serveConnection` — from a connection to its answer.

## Main results

* `urlDecode_encode`, `queryValue_serialize` — a form is read back.
* `serve_form` — a form that is posted is answered with the report of exactly its fields.
-/

namespace MiniTool
namespace Playground

open Isa (decimal)
open UrlEncoded

/-! ### The source -/

/-- `none` for what is no digit; the source has -1. -/
def hexDigit (c : UInt8) : Option ℕ :=
  if 0x30 ≤ c ∧ c ≤ 0x39 then some (c.toNat - 0x30)
  else if 0x61 ≤ c ∧ c ≤ 0x66 then some (c.toNat - 0x61 + 10)
  else if 0x41 ≤ c ∧ c ≤ 0x46 then some (c.toNat - 0x41 + 10)
  else none

/-- Decodes `%XX` escapes and `+`.  A malformed escape is kept. -/
def urlDecode : Str → Str
  | c :: high :: low :: rest =>
    if c = 0x2B then 0x20 :: urlDecode (high :: low :: rest)
    else if c = 0x25 then
      match hexDigit high, hexDigit low with
      | some h, some l => UInt8.ofNat (h <<< 4 ||| l) :: urlDecode rest
      | _, _ => 0x25 :: urlDecode (high :: low :: rest)
    else c :: urlDecode (high :: low :: rest)
  -- too little is left for an escape
  | c :: rest => (if c = 0x2B then 0x20 else c) :: urlDecode rest
  | [] => []

def pathOf (target : Str) : Str :=
  match find [0x3F] target with
  | none => target
  | some question => target.take question

def queryOf (target : Str) : Str :=
  match find [0x3F] target with
  | none => []
  | some question => target.drop (question + 1)

/-- The decoded value of a pair, if the pair has the key. -/
def pairValue (pair key : Str) : Option Str :=
  match find [0x3D] pair with
  | none => none
  | some equals => if pair.take equals = key then some (urlDecode (pair.drop (equals + 1)))
    else none

/-- The decoded value of a key, or an empty string if the key is absent. -/
def queryValue (query key : Str) : Str :=
  match _hend : find [0x26] query with
  | none => (pairValue query key).getD []
  | some pairEnd =>
    match pairValue (query.take pairEnd) key with
    | some value => value
    | none => queryValue (query.drop (pairEnd + 1)) key
  termination_by query.length
  decreasing_by
    have hlength := add_length_le_of_find _hend
    rw [List.length_singleton] at hlength
    rw [List.length_drop]
    omega

/-- The fields of an object so far, and whether the next one is the first. -/
abbrev Fields := Str × Bool

def appendRaw (fields : Fields) (name value : Str) : Fields :=
  let out := if fields.2 then fields.1 else fields.1 ++ [0x2C]
  (appendJsonString out name ++ [0x3A] ++ value, false)

def appendField (fields : Fields) (name value : Str) : Fields :=
  let out := if fields.2 then fields.1 else fields.1 ++ [0x2C]
  (appendJsonString (appendJsonString out name ++ [0x3A]) value, false)

/-- `OptStats::total`. -/
def statsTotal (stats : Optimizer.OptStats) : UInt32 :=
  stats.constantsFolded + stats.identitiesEliminated + stats.deadStoresRemoved +
    stats.unreachableRemoved + stats.peepholesApplied

/-- `OptStats::summary`. -/
def statsSummary (stats : Optimizer.OptStats) : Str :=
  decimal stats.instructionsBefore ++ str " -> " ++ decimal stats.instructionsAfter ++
    str " instructions (" ++ decimal stats.constantsFolded.toNat ++ str " folded, " ++
    decimal stats.identitiesEliminated.toNat ++ str " identities, " ++
    decimal stats.deadStoresRemoved.toNat ++ str " dead stores, " ++
    decimal stats.unreachableRemoved.toNat ++ str " unreachable, " ++
    decimal stats.peepholesApplied.toNat ++ str " peepholes)"

def jsonBool (b : Bool) : Str := if b then str "true" else str "false"

/-- The registers as an array of strings. -/
def jsonRegisters (registers : Vm.Registers) : Str :=
  (List.finRange 16).foldl (fun out i =>
    appendJsonString (if i ≠ 0 then out ++ [0x2C] else out) (decimal (registers i).toNat))
      (str "[") ++ str "]"

def jsonStats (stats : Optimizer.OptStats) : Str :=
  appendJsonString (str "\x7b\"total\":" ++ decimal (statsTotal stats).toNat ++ str "," ++
    str "\"summary\":") (statsSummary stats) ++ str "\x7d"

/-- A report as the JSON that the page expects; quantities of 64 bits are strings. -/
def toJson (report : RunReport) : Str :=
  let ran := report.stage = .execute || report.stage = .finished
  let fields : Fields := (str "\x7b", true)
  let fields := appendRaw fields (str "ok") (jsonBool report.ok)
  let fields := appendField fields (str "stage") (str (stageName report.stage))
  let fields := appendField fields (str "diagnostics") report.diagnostics
  let fields := appendField fields (str "error") report.error
  let fields := appendField fields (str "output") report.output
  let fields := appendRaw fields (str "output_truncated") (jsonBool report.outputTruncated)
  let fields := appendField fields (str "disassembly") report.disassembly
  let fields := appendRaw fields (str "ran") (jsonBool ran)
  let fields := appendField fields (str "exit_code") (decimal report.exitCode.toNat)
  let fields := appendField fields (str "instructions") (decimal report.instructions.toNat)
  let fields := appendField fields (str "pc") (decimal report.pc.toNat)
  let fields := appendField fields (str "sp") (decimal report.sp.toNat)
  let fields := appendField fields (str "flags") (decimal report.flags.toNat)
  let fields := appendRaw fields (str "registers") (jsonRegisters report.registers)
  let fields := appendRaw fields (str "stats") (jsonStats report.stats)
  fields.1 ++ str "\x7d"

structure HttpResponse where
  status : ℕ
  contentType : Str
  body : Str
  deriving DecidableEq

def statusText (status : ℕ) : Str :=
  match status with
  | 200 => str "OK"
  | 400 => str "Bad Request"
  | 404 => str "Not Found"
  | 405 => str "Method Not Allowed"
  | 413 => str "Payload Too Large"
  | _ => str "Internal Server Error"

def plainText (status : ℕ) (body : String) : HttpResponse :=
  { status, contentType := str "text/plain; charset=utf-8", body := str body }

/-- The answer to a request that runs a program. -/
def jsonResponse (report : RunReport) : HttpResponse :=
  { status := 200, contentType := str "application/json; charset=utf-8", body := toJson report }

/-- `page` is `kIndexHtml`; running a program may throw. -/
def handleRequest (oob : ℕ → Bool) (memory : ℕ) (page : Str) (method target body : Str) :
    Option (Except Exception HttpResponse) :=
  let path := pathOf target
  if path = str "/" ∨ path = str "/index.html" then
    if method ≠ str "GET" then some (.ok (plainText 405 "method not allowed\n"))
    else some (.ok { status := 200, contentType := str "text/html; charset=utf-8", body := page })
  else if path = str "/api/run" then
    if method ≠ str "POST" then some (.ok (plainText 405 "method not allowed\n"))
    else if body.length > kMaxSourceBytes then some (.ok (plainText 413 "source too large\n"))
    else
      let query := queryOf target
      let request : RunRequest :=
        { source := body
          input := queryValue query (str "stdin")
          optLevel := if queryValue query (str "opt") = str "1" then .O1 else .O0 }
      (runSource oob memory request).map fun outcome => outcome.map jsonResponse
  else some (.ok (plainText 404 "not found\n"))

/-- The bytes of a response. -/
def sendResponse (response : HttpResponse) : Str :=
  str "HTTP/1.1 " ++ decimal response.status ++ str " " ++ statusText response.status ++
    lineTerminator ++ (str "Content-Type: " ++ response.contentType ++ lineTerminator) ++
    (str "Content-Length: " ++ decimal response.body.length ++ lineTerminator) ++
    (str "Cache-Control: no-store" ++ lineTerminator) ++
    (str "Connection: close" ++ lineTerminator) ++ lineTerminator ++ response.body

/-- What `serve` sends on a connection before it closes it. -/
def serveConnection (oob : ℕ → Bool) (memory : ℕ) (page : Str) (chunks : List Str) :
    Option (Except Exception Str) :=
  match respond chunks with
  | .rejected => some (.ok [])
  | .incomplete => some (.ok [])
  | .badRequest text => some (.ok (sendResponse (plainText 400 text)))
  | .handled method target body =>
    (handleRequest oob memory page method target body).map fun outcome => outcome.map sendResponse

/-! ### The first place of a byte -/

/-- A pattern that begins with a byte is not found where the byte is not. -/
theorem find_skip {first : UInt8} {front : Str} (h : first ∉ front) (pattern rest : Str) :
    find (first :: pattern) (front ++ rest) =
      (find (first :: pattern) rest).map (· + front.length) := by
  induction front with
  | nil => simp
  | cons byte front ih =>
    rw [List.mem_cons, not_or] at h
    rw [List.cons_append]
    conv_lhs => unfold find
    rw [if_neg (by simp [List.isPrefixOf, h.1]), ih h.2, Option.map_map]
    rfl

theorem find_here {pattern : Str} (hpattern : pattern ≠ []) (rest : Str) :
    find pattern (pattern ++ rest) = some 0 := by
  obtain ⟨first, pattern, rfl⟩ := List.exists_cons_of_ne_nil hpattern
  have hprefix := List.isPrefixOf_iff_prefix.mpr (List.prefix_append (first :: pattern) rest)
  rw [List.cons_append] at hprefix ⊢
  unfold find
  rw [if_pos hprefix]

/-- The first place of a byte. -/
theorem find_byte {c : UInt8} {front : Str} (h : c ∉ front) (rest : Str) :
    find [c] (front ++ c :: rest) = some front.length := by
  have hhere : find [c] (c :: rest) = some 0 := find_here (List.cons_ne_nil c []) rest
  rw [find_skip h, hhere]
  simp

theorem find_byte_eq_none {c : UInt8} {text : Str} (h : c ∉ text) : find [c] text = none := by
  have hskip := find_skip h [] []
  rwa [List.append_nil] at hskip

/-! ### Reading a form -/

theorem hexDigit_digit {n : ℕ} (h : n < 16) : hexDigit (digit n) = some n := by
  have hall : ∀ n < 16, hexDigit (digit n) = some n := by decide
  exact hall n h

theorem combine_nibbles (byte : UInt8) :
    UInt8.ofNat ((byte.toNat / 16) <<< 4 ||| byte.toNat % 16) = byte := by
  have hall : ∀ n < 256, UInt8.ofNat ((n / 16) <<< 4 ||| n % 16) = UInt8.ofNat n :=
    by decide +kernel
  rw [hall byte.toNat byte.toNat_lt, UInt8.ofNat_toNat]

theorem ne_of_unreserved {byte : UInt8} (h : unreserved byte = true) :
    byte ≠ 0x2B ∧ byte ≠ 0x25 := by
  constructor
  · rintro rfl
    exact absurd h (by decide)
  · rintro rfl
    exact absurd h (by decide)

/-- A byte that starts no escape. -/
theorem urlDecode_cons {c : UInt8} (h : c ≠ 0x25) (rest : Str) :
    urlDecode (c :: rest) = (if c = 0x2B then 0x20 else c) :: urlDecode rest := by
  cases rest with
  | nil => rfl
  | cons d rest =>
    cases rest with
    | nil => rfl
    | cons e rest =>
      conv_lhs => unfold urlDecode
      rw [if_neg h]
      split_ifs
      · rfl
      · rfl

/-- One byte is read back. -/
theorem urlDecode_encodeByte (byte : UInt8) (rest : Str) :
    urlDecode (encodeByte byte ++ rest) = byte :: urlDecode rest := by
  unfold encodeByte
  split_ifs with hplain hblank
  · obtain ⟨hplus, hpercent⟩ := ne_of_unreserved hplain
    rw [List.singleton_append, urlDecode_cons hpercent, if_neg hplus]
  · rw [List.singleton_append, urlDecode_cons (by decide), if_pos rfl, hblank]
  · have hhigh : byte.toNat / 16 < 16 := by
      have hlt := byte.toNat_lt
      omega
    show urlDecode (0x25 :: digit (byte.toNat / 16) :: digit (byte.toNat % 16) :: rest) = _
    conv_lhs => unfold urlDecode
    rw [if_neg (by decide), if_pos rfl, hexDigit_digit hhigh,
      hexDigit_digit (Nat.mod_lt _ (by decide))]
    dsimp only
    rw [combine_nibbles]

/-- **A component is read back.** -/
theorem urlDecode_encode (text : Str) : urlDecode (encode text) = text := by
  have hmore : ∀ rest, urlDecode (encode text ++ rest) = text ++ urlDecode rest := by
    intro rest
    induction text with
    | nil => rfl
    | cons byte text ih =>
      have hcons : encode (byte :: text) = encodeByte byte ++ encode text := List.flatMap_cons
      rw [hcons, List.append_assoc, urlDecode_encodeByte, ih]
      rfl
  have hall := hmore []
  rwa [List.append_nil, show urlDecode [] = [] from rfl, List.append_nil] at hall

theorem pairValue_encodePair (pair : Str × Str) (key : Str) :
    pairValue (encodePair pair) key = if encode pair.1 = key then some pair.2 else none := by
  unfold pairValue encodePair
  rw [find_byte (not_mem_encode (by decide) _)]
  dsimp only
  have hdrop : (encode pair.1 ++ 0x3D :: encode pair.2).drop ((encode pair.1).length + 1) =
      encode pair.2 := by
    rw [← List.singleton_append, ← List.append_assoc]
    exact List.drop_left' (by simp)
  rw [List.take_left, hdrop, urlDecode_encode]

/-- **A form is read back**: the value of a key is that of the first pair with it. -/
theorem queryValue_serialize (pairs : List (Str × Str)) (key : Str) :
    queryValue (serialize pairs) key =
      ((pairs.find? fun pair => encode pair.1 = key).map Prod.snd).getD [] := by
  induction pairs with
  | nil =>
    rw [serialize, queryValue]
    rfl
  | cons pair rest ih =>
    have hpair : (0x26 : UInt8) ∉ encodePair pair := not_mem_encodePair (by decide) (by decide) pair
    rw [List.find?_cons]
    cases rest with
    | nil =>
      rw [serialize, queryValue]
      split
      · rw [pairValue_encodePair]
        by_cases hkey : encode pair.1 = key
        · simp [hkey]
        · simp [hkey]
      · next pairEnd hend =>
        rw [find_byte_eq_none hpair] at hend
        cases hend
    | cons next rest =>
      rw [serialize, queryValue]
      split
      · next hend =>
        rw [find_byte hpair] at hend
        cases hend
      · next pairEnd hend =>
        rw [find_byte hpair] at hend
        cases hend
        have hdrop : (encodePair pair ++ 0x26 :: serialize (next :: rest)).drop
            ((encodePair pair).length + 1) = serialize (next :: rest) := by
          rw [← List.singleton_append, ← List.append_assoc]
          exact List.drop_left' (by simp)
        rw [List.take_left, pairValue_encodePair, hdrop, ih]
        by_cases hkey : encode pair.1 = key
        · simp [hkey]
        · simp [hkey]

/-! ### A form that is posted -/

/-- The request line of a form that is posted to the interface. -/
def formLine (pairs : List (Str × Str)) : Str :=
  str "POST" ++ 0x20 :: ((str "/api/run" ++ 0x3F :: serialize pairs) ++ 0x20 :: str "HTTP/1.1")

/-- The request that a form stands for. -/
def formRequest (pairs : List (Str × Str)) (source : Str) : RunRequest :=
  let value (name : Str) := ((pairs.find? fun pair => pair.1 = name).map Prod.snd).getD []
  { source
    input := value (str "stdin")
    optLevel := if value (str "opt") = str "1" then .O1 else .O0 }

theorem splitLine_formLine (pairs : List (Str × Str)) :
    splitLine (formLine pairs) = some (str "POST", str "/api/run" ++ 0x3F :: serialize pairs) := by
  have htarget : (0x20 : UInt8) ∉ str "/api/run" ++ 0x3F :: serialize pairs := by
    rw [List.mem_append, List.mem_cons, not_or, not_or]
    exact ⟨by decide, by decide, not_mem_serialize (by decide) (by decide) (by decide) pairs⟩
  have hspace : find [0x20] (formLine pairs) = some 4 := find_byte (by decide) _
  unfold splitLine
  rw [hspace]
  dsimp only
  have hdrop : (formLine pairs).drop 5 =
      (str "/api/run" ++ 0x3F :: serialize pairs) ++ 0x20 :: str "HTTP/1.1" := rfl
  rw [hdrop, find_byte htarget]
  dsimp only [Option.map_some]
  have hlength : (str "/api/run" ++ 0x3F :: serialize pairs).length + (4 + 1) - 4 - 1 =
      (str "/api/run" ++ 0x3F :: serialize pairs).length := by omega
  rw [hlength, List.take_left]
  rfl

theorem pathOf_form (pairs : List (Str × Str)) :
    pathOf (str "/api/run" ++ 0x3F :: serialize pairs) = str "/api/run" := by
  unfold pathOf
  rw [find_byte (by decide)]
  exact List.take_left

theorem queryOf_form (pairs : List (Str × Str)) :
    queryOf (str "/api/run" ++ 0x3F :: serialize pairs) = serialize pairs := by
  unfold queryOf
  rw [find_byte (by decide)]
  rfl

/-- A key that stands for itself is compared with the names of the form. -/
theorem value_form (pairs : List (Str × Str)) {key : Str} (hkey : encode key = key) :
    queryValue (serialize pairs) key = ((pairs.find? fun pair => pair.1 = key).map Prod.snd).getD
      [] := by
  rw [queryValue_serialize]
  have hsame : (fun pair : Str × Str => decide (encode pair.1 = key)) =
      fun pair => decide (pair.1 = key) := by
    funext pair
    refine decide_eq_decide.mpr ⟨fun h => ?_, fun h => ?_⟩
    · have heq := congrArg urlDecode (h.trans hkey.symm)
      rwa [urlDecode_encode, urlDecode_encode] at heq
    · rw [h, hkey]
  rw [hsame]

/-- What the interface does with a form. -/
theorem handleRequest_form (oob : ℕ → Bool) (memory : ℕ) (page : Str) (pairs : List (Str × Str))
    (body : Str) :
    handleRequest oob memory page (str "POST") (str "/api/run" ++ 0x3F :: serialize pairs) body =
      if body.length > kMaxSourceBytes then some (.ok (plainText 413 "source too large\n"))
      else (runSource oob memory (formRequest pairs body)).map fun outcome =>
        outcome.map jsonResponse := by
  unfold handleRequest
  rw [pathOf_form, queryOf_form]
  dsimp only
  rw [if_neg (by decide), if_pos rfl, if_neg (by decide), value_form pairs (by decide),
    value_form pairs (by decide)]
  rfl

/-- A form that is posted is handled as a whole. -/
theorem serveConnection_form (oob : ℕ → Bool) (memory : ℕ) (page : Str) {stream : Str}
    {headerEnd : ℕ} {pairs : List (Str × Str)} (hcomplete : Complete stream headerEnd stream.length)
    (hshort : stream.length ≤ kMaxRequestBytes + 1) (hline : requestLine stream = formLine pairs)
    {chunks : List Str} (hsplits : Chunks.Splits kReceiveBytes chunks stream) :
    serveConnection oob memory page chunks =
      (handleRequest oob memory page (str "POST") (str "/api/run" ++ 0x3F :: serialize pairs)
        (stream.drop (headerEnd + 4))).map fun outcome => outcome.map sendResponse := by
  obtain ⟨k, hdone, hk, hrespond⟩ := respond_of_near hcomplete hshort hsplits
  obtain rfl : k = stream.length := le_antisymm hk hdone
  unfold serveConnection
  rw [hrespond, hline, splitLine_formLine]
  dsimp only
  rw [List.take_length]

/-- **A form that is posted**, in whatever chunks it arrives, is answered with the report of running
the body with exactly the fields of the form. -/
theorem serve_form (oob : ℕ → Bool) (memory : ℕ) (page : Str) {stream : Str} {headerEnd : ℕ}
    {pairs : List (Str × Str)}
    (hcomplete : Complete stream headerEnd stream.length)
    (hshort : stream.length ≤ kMaxRequestBytes + 1) (hline : requestLine stream = formLine pairs)
    {chunks : List Str} (hsplits : Chunks.Splits kReceiveBytes chunks stream) :
    serveConnection oob memory page chunks =
      if (stream.drop (headerEnd + 4)).length > kMaxSourceBytes then
        some (.ok (sendResponse (plainText 413 "source too large\n")))
      else
        (runSource oob memory (formRequest pairs (stream.drop (headerEnd + 4)))).map fun outcome =>
          outcome.map fun report => sendResponse (jsonResponse report) := by
  rw [serveConnection_form oob memory page hcomplete hshort hline hsplits, handleRequest_form]
  split_ifs
  · rfl
  · cases runSource oob memory (formRequest pairs (stream.drop (headerEnd + 4))) with
    | none => rfl
    | some outcome =>
      cases outcome with
      | error e => rfl
      | ok report => rfl

/-- `HALT`, with `a &` as the input of the program. -/
def postedForm : Str :=
  str "POST /api/run?opt=1&stdin=a+%26 HTTP/1.1\r\nContent-Length: 5\r\n\r\nHALT\n"

theorem serve_form_posted :
    serveConnection (fun _ => false) 8 [] [postedForm.take 50, postedForm.drop 50] =
      if (postedForm.drop (59 + 4)).length > kMaxSourceBytes then
        some (.ok (sendResponse (plainText 413 "source too large\n")))
      else
        (runSource (fun _ => false) 8
          (formRequest [(str "opt", str "1"), (str "stdin", str "a &")]
            (postedForm.drop (59 + 4)))).map
            fun outcome => outcome.map fun report => sendResponse (jsonResponse report) :=
  serve_form (fun _ => false) 8 [] ⟨by decide +kernel, by decide, by decide⟩ (by decide)
    (by decide +kernel) ⟨by decide, by decide, by decide⟩

end Playground
end MiniTool
