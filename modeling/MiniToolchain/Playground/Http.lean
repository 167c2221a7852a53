import MiniToolchain.Common.Types
import MiniToolchain.Lib.Chunks

/-!
# Requests of the playground

The server appends what it receives to a buffer and looks at it between the chunks: whether the
request is complete, and whether it is too long.  Both depend on where the chunks end.

## Main definitions

* `readRequest`, `splitRequest`, `respond` — from the chunks to the arguments of `handleRequest`.
* `requestEnd` — where the request in a stream ends.
* `Framed` — the chunks make no difference.

## Main results

* `readRequest_eq_read` — the loop gives its verdict on the buffer.
* `framed_iff` — the streams for which the chunks make no difference.
-/

namespace MiniTool
namespace Playground

/-! ### The source -/

/-- Largest request this server will read, headers and body together. -/
abbrev kMaxRequestBytes : ℕ := 1048576

/-- The most that one `recv` returns. -/
abbrev kReceiveBytes : ℕ := 8192

/-- The first place of a pattern that is not empty. -/
def find (pattern : Str) : Str → Option ℕ
  | [] => none
  | byte :: rest =>
    if pattern.isPrefixOf (byte :: rest) then some 0 else (find pattern rest).map (· + 1)

abbrev lineTerminator : Str := [0x0D, 0x0A]

abbrev headerTerminator : Str := [0x0D, 0x0A, 0x0D, 0x0A]

def toLower (byte : UInt8) : UInt8 := if 0x41 ≤ byte ∧ byte ≤ 0x5A then byte + 0x20 else byte

/-- `from_chars` for a `size_t`, which leaves the value alone when it fails. -/
def fromChars (text : Str) (value : ℕ) : ℕ :=
  let digits := text.takeWhile fun byte => 0x30 ≤ byte && byte ≤ 0x39
  let parsed := digits.foldl (fun n byte => n * 10 + (byte.toNat - 0x30)) 0
  if digits = [] ∨ 2 ^ 64 ≤ parsed then value else parsed

/-- The content length after a header line. -/
def headerLine (line : Str) (contentLength : ℕ) : ℕ :=
  match find [0x3A] line with
  | none => contentLength
  | some colon =>
    let name := (line.take colon).map toLower
    if name = str "content-length" then
      let value := (line.drop (colon + 1)).dropWhile fun byte => byte = 0x20
      fromChars value contentLength
    else contentLength

/-- The content length after the header lines that are left. -/
def contentLengthFrom (headers : Str) (contentLength : ℕ) : ℕ :=
  if headers = [] then contentLength
  else
    match find lineTerminator headers with
    | none => headerLine headers contentLength
    | some lineEnd =>
      contentLengthFrom (headers.drop (lineEnd + 2))
        (headerLine (headers.take lineEnd) contentLength)
  termination_by headers.length
  decreasing_by
    rw [List.length_drop]
    have hpos := List.length_pos_iff.mpr ‹headers ≠ []›
    omega

def contentLength (headers : Str) : ℕ := contentLengthFrom headers 0

/-- What `readRequest` returns: the source has `false` for the first two. -/
inductive ReadResult
  | rejected
  | incomplete
  | complete (request : Str)
  deriving DecidableEq, Repr

/-- What the loop decides before it receives more. -/
def decideAt (request : Str) (headerEnd : Option ℕ) : Option ReadResult :=
  let tooLong := if request.length > kMaxRequestBytes then some .rejected else none
  match headerEnd with
  | none => tooLong
  | some headerEnd =>
    let contentLength := contentLength (request.take headerEnd)
    if contentLength > kMaxRequestBytes then some .rejected
    else if request.length ≥ headerEnd + 4 + contentLength then some (.complete request)
    else tooLong

/-- Reads one complete request from what the calls of `recv` return.  After the last chunk the peer
has disconnected. -/
def readRequest (request : Str) (headerEnd : Option ℕ) (chunks : List Str) : ReadResult :=
  let headerEnd := match headerEnd with
    | none => find headerTerminator request
    | some headerEnd => some headerEnd
  match decideAt request headerEnd with
  | some result => result
  | none =>
    match chunks with
    | [] => .incomplete
    | chunk :: rest => readRequest (request ++ chunk) headerEnd rest

/-- What becomes of a connection. -/
inductive Verdict
  | rejected
  | incomplete
  | badRequest (text : String)
  | handled (method target body : Str)
  deriving DecidableEq, Repr

/-- The method and the target of a request line. -/
def splitLine (line : Str) : Option (Str × Str) :=
  match find [0x20] line with
  | none => none
  | some firstSpace =>
    match (find [0x20] (line.drop (firstSpace + 1))).map (· + (firstSpace + 1)) with
    | none => none
    | some secondSpace =>
      some (line.take firstSpace, (line.drop (firstSpace + 1)).take (secondSpace - firstSpace - 1))

/-- Splits a request into what `handleRequest` is passed. -/
def splitRequest (request : Str) : Verdict :=
  match find lineTerminator request, find headerTerminator request with
  | some lineEnd, some headerEnd =>
    match splitLine (request.take lineEnd) with
    | none => .badRequest "bad request line\n"
    | some (method, target) => .handled method target (request.drop (headerEnd + 4))
  | _, _ => .badRequest "bad request\n"

/-- What `serve` does with a connection. -/
def respond (chunks : List Str) : Verdict :=
  match readRequest [] none chunks with
  | .rejected => .rejected
  | .incomplete => .incomplete
  | .complete request => splitRequest request

/-! ### The first place of a pattern -/

theorem find_eq_some {pattern text : Str} {i : ℕ} : find pattern text = some i ↔
    i < text.length ∧ pattern <+: text.drop i ∧ ∀ j < i, ¬pattern <+: text.drop j := by
  induction text generalizing i with
  | nil => simp [find]
  | cons byte rest ih =>
    unfold find
    split_ifs with hhere
    · have hprefix : pattern <+: byte :: rest := List.isPrefixOf_iff_prefix.mp hhere
      constructor
      · intro h
        cases h
        exact ⟨Nat.succ_pos _, hprefix, nofun⟩
      · rintro ⟨-, -, hfirst⟩
        cases i with
        | zero => rfl
        | succ i => exact absurd hprefix (hfirst 0 (Nat.succ_pos i))
    · have hprefix : ¬pattern <+: byte :: rest := fun h => hhere (List.isPrefixOf_iff_prefix.mpr h)
      rw [Option.map_eq_some_iff]
      constructor
      · rintro ⟨i, hi, rfl⟩
        obtain ⟨hlt, hat, hfirst⟩ := ih.mp hi
        refine ⟨Nat.succ_lt_succ hlt, hat, fun j hj => ?_⟩
        cases j with
        | zero => exact hprefix
        | succ j => exact hfirst j (Nat.lt_of_succ_lt_succ hj)
      · rintro ⟨hlt, hat, hfirst⟩
        cases i with
        | zero => exact absurd hat hprefix
        | succ i =>
          refine ⟨i, ih.mpr ⟨Nat.lt_of_succ_lt_succ hlt, hat, fun j hj => ?_⟩, rfl⟩
          exact hfirst (j + 1) (Nat.succ_lt_succ hj)

theorem find_eq_none {pattern text : Str} (hpattern : pattern ≠ []) :
    find pattern text = none ↔ ∀ i, ¬pattern <+: text.drop i := by
  induction text with
  | nil =>
    refine ⟨fun _ i hprefix => hpattern ?_, fun _ => rfl⟩
    rw [List.drop_nil] at hprefix
    exact List.prefix_nil.mp hprefix
  | cons byte rest ih =>
    unfold find
    split_ifs with hhere
    · refine ⟨nofun, fun h => absurd (List.isPrefixOf_iff_prefix.mp hhere) (h 0)⟩
    · rw [Option.map_eq_none_iff, ih]
      constructor
      · intro h i
        cases i with
        | zero => exact fun hprefix => hhere (List.isPrefixOf_iff_prefix.mpr hprefix)
        | succ i => exact h i
      · exact fun h i => h (i + 1)

/-- A pattern is at a place of a beginning of the text if it is there in the text and ends in
time. -/
theorem prefix_drop_take {pattern text : Str} (hpattern : pattern ≠ []) {i k : ℕ} :
    pattern <+: (text.take k).drop i ↔ pattern <+: text.drop i ∧ i + pattern.length ≤ k := by
  have hpos := List.length_pos_iff.mpr hpattern
  rw [List.drop_take, List.prefix_take_iff]
  refine and_congr_right fun _ => ?_
  omega

/-- What is found in a beginning of a text: the place in the text, if the pattern ends in time. -/
theorem find_take {pattern text : Str} (hpattern : pattern ≠ []) {i k : ℕ} :
    find pattern (text.take k) = some i ↔ find pattern text = some i ∧ i + pattern.length ≤ k := by
  have hpos := List.length_pos_iff.mpr hpattern
  rw [find_eq_some, find_eq_some, prefix_drop_take hpattern, List.length_take]
  constructor
  · rintro ⟨hlt, ⟨hat, hends⟩, hfirst⟩
    refine ⟨⟨by omega, hat, fun j hj hearlier => hfirst j hj ?_⟩, hends⟩
    exact (prefix_drop_take hpattern).mpr ⟨hearlier, by omega⟩
  · rintro ⟨⟨hlt, hat, hfirst⟩, hends⟩
    refine ⟨by omega, ⟨hat, hends⟩, fun j hj hearlier => hfirst j hj ?_⟩
    exact ((prefix_drop_take hpattern).mp hearlier).1

/-- A pattern that is found ends within the text. -/
theorem add_length_le_of_find {pattern text : Str} {i : ℕ} (h : find pattern text = some i) :
    i + pattern.length ≤ text.length := by
  obtain ⟨hlt, hat, -⟩ := find_eq_some.mp h
  have hlength := hat.length_le
  rw [List.length_drop] at hlength
  omega

/-! ### The loop -/

/-- What the loop decides on a buffer. -/
def verdictOf (request : Str) : Option ReadResult :=
  decideAt request (find headerTerminator request)

/-- The place of the terminator is looked up once and kept; it would be found there again. -/
theorem readRequest_eq_read (chunks : List Str) : ∀ (request : Str) (headerEnd : Option ℕ),
    (∀ place, headerEnd = some place → find headerTerminator request = some place) →
    readRequest request headerEnd chunks = Chunks.read verdictOf .incomplete request chunks := by
  have hnow : ∀ (request : Str) (headerEnd : Option ℕ),
      (∀ place, headerEnd = some place → find headerTerminator request = some place) →
      (match headerEnd with
        | none => find headerTerminator request
        | some place => some place) = find headerTerminator request := by
    intro request headerEnd hkept
    cases headerEnd with
    | none => rfl
    | some place => exact (hkept place rfl).symm
  induction chunks with
  | nil =>
    intro request headerEnd hkept
    unfold readRequest Chunks.read verdictOf
    dsimp only
    rw [hnow request headerEnd hkept]
    cases decideAt request (find headerTerminator request) with
    | none => rfl
    | some result => rfl
  | cons chunk rest ih =>
    intro request headerEnd hkept
    unfold readRequest Chunks.read
    dsimp only
    rw [hnow request headerEnd hkept]
    have hverdict : verdictOf request = decideAt request (find headerTerminator request) := rfl
    rw [hverdict]
    cases decideAt request (find headerTerminator request) with
    | some result => rfl
    | none =>
      refine ih (request ++ chunk) _ fun place hplace => ?_
      -- the buffer is a beginning of the longer one
      have htake : (request ++ chunk).take request.length = request := List.take_left
      rw [← htake] at hplace
      exact ((find_take (by decide)).mp hplace).1

/-! ### The request in a stream -/

/-- Where the headers of the request end, and where its body does. -/
def requestEnd (stream : Str) : Option (ℕ × ℕ) :=
  (find headerTerminator stream).map fun headerEnd =>
    (headerEnd, headerEnd + 4 + contentLength (stream.take headerEnd))

/-- A buffer that is too long. -/
def tooLong (k : ℕ) : Option ReadResult := if k > kMaxRequestBytes then some .rejected else none

theorem verdictOf_take_of_none {stream : Str} {k : ℕ} (hk : k ≤ stream.length)
    (h : requestEnd stream = none) : verdictOf (stream.take k) = tooLong k := by
  have hnone : find headerTerminator (stream.take k) = none := by
    cases hfind : find headerTerminator (stream.take k) with
    | none => rfl
    | some place =>
      have hwhole := ((find_take (by decide)).mp hfind).1
      unfold requestEnd at h
      rw [hwhole] at h
      cases h
  unfold verdictOf decideAt tooLong
  rw [hnone]
  dsimp only
  rw [List.length_take, min_eq_left hk]

theorem verdictOf_take_of_some {stream : Str} {headerEnd bodyEnd k : ℕ} (hk : k ≤ stream.length)
    (h : requestEnd stream = some (headerEnd, bodyEnd)) : verdictOf (stream.take k) =
      if headerEnd + 4 ≤ k then
        if bodyEnd > headerEnd + 4 + kMaxRequestBytes then some .rejected
        else if bodyEnd ≤ k then some (.complete (stream.take k))
        else tooLong k
      else tooLong k := by
  unfold requestEnd at h
  obtain ⟨place, hfind, heq⟩ := Option.map_eq_some_iff.mp h
  obtain ⟨rfl, rfl⟩ := Prod.mk.inj heq
  have hlength : (stream.take k).length = k := by
    rw [List.length_take, min_eq_left hk]
  have hlong : (if k > kMaxRequestBytes then some ReadResult.rejected else none) = tooLong k := rfl
  unfold verdictOf decideAt
  rw [hlength, hlong]
  by_cases harrived : place + 4 ≤ k
  · have hplace : find headerTerminator (stream.take k) = some place :=
      (find_take (by decide)).mpr ⟨hfind, harrived⟩
    have hheaders : (stream.take k).take place = stream.take place := by
      rw [List.take_take, min_eq_left (by omega)]
    have hover : contentLength (stream.take place) > kMaxRequestBytes ↔
        place + 4 + contentLength (stream.take place) > place + 4 + kMaxRequestBytes := by omega
    rw [hplace, if_pos harrived]
    dsimp only
    rw [hheaders]
    exact if_congr hover rfl rfl
  · have hplace : find headerTerminator (stream.take k) = none := by
      cases hearly : find headerTerminator (stream.take k) with
      | none => rfl
      | some place' =>
        obtain ⟨hfind', hends⟩ := (find_take (by decide)).mp hearly
        rw [hfind] at hfind'
        cases hfind'
        exact absurd hends harrived
    rw [hplace, if_neg harrived]

/-- The stream holds a whole request, whose body is not longer than the limit. -/
structure Complete (stream : Str) (headerEnd bodyEnd : ℕ) : Prop where
  ends : requestEnd stream = some (headerEnd, bodyEnd)
  short : bodyEnd ≤ headerEnd + 4 + kMaxRequestBytes
  arrives : bodyEnd ≤ stream.length

theorem Complete.header_le {stream : Str} {headerEnd bodyEnd : ℕ}
    (h : Complete stream headerEnd bodyEnd) : headerEnd + 4 ≤ bodyEnd := by
  obtain ⟨place, -, heq⟩ := Option.map_eq_some_iff.mp h.ends
  obtain ⟨rfl, rfl⟩ := Prod.mk.inj heq
  exact Nat.le_add_right _ _

/-- In such a stream the loop decides by the number of bytes that have arrived. -/
theorem Complete.verdictOf_take {stream : Str} {headerEnd bodyEnd k : ℕ}
    (h : Complete stream headerEnd bodyEnd) (hk : k ≤ stream.length) :
    verdictOf (stream.take k) =
      if bodyEnd ≤ k then some (.complete (stream.take k)) else tooLong k := by
  have hheader := h.header_le
  have hshort := h.short
  rw [verdictOf_take_of_some hk h.ends]
  by_cases harrived : headerEnd + 4 ≤ k
  · rw [if_pos harrived, if_neg (by omega)]
  · rw [if_neg harrived, if_neg (by omega)]

/-- What the loop makes of a stream without a complete request, wherever the chunks end. -/
def failure (stream : Str) : ReadResult :=
  if stream.length > kMaxRequestBytes then .rejected
  else
    match requestEnd stream with
    | some (headerEnd, bodyEnd) =>
      if bodyEnd > headerEnd + 4 + kMaxRequestBytes then .rejected else .incomplete
    | none => .incomplete

theorem failure_cases (stream : Str) :
    failure stream = .rejected ∨ failure stream = .incomplete := by
  unfold failure
  by_cases hlong : stream.length > kMaxRequestBytes
  · exact .inl (if_pos hlong)
  · rw [if_neg hlong]
    cases requestEnd stream with
    | none => exact .inr rfl
    | some ends =>
      by_cases hover : ends.2 > ends.1 + 4 + kMaxRequestBytes
      · exact .inl (if_pos hover)
      · exact .inr (if_neg hover)

/-- Without a complete request the loop only ever rejects. -/
theorem verdictOf_take_of_not_complete {stream : Str}
    (h : ¬∃ headerEnd bodyEnd, Complete stream headerEnd bodyEnd) {k : ℕ} (hk : k ≤ stream.length)
    {result : ReadResult} (hresult : verdictOf (stream.take k) = some result) :
    result = .rejected ∧ failure stream = .rejected := by
  have hlong : tooLong k = some result → result = .rejected ∧ failure stream = .rejected := by
    intro hresult
    unfold tooLong at hresult
    split_ifs at hresult with hlong
    cases hresult
    refine ⟨rfl, ?_⟩
    unfold failure
    rw [if_pos (by omega)]
  cases hends : requestEnd stream with
  | none =>
    rw [verdictOf_take_of_none hk hends] at hresult
    exact hlong hresult
  | some ends =>
    obtain ⟨headerEnd, bodyEnd⟩ := ends
    rw [verdictOf_take_of_some hk hends] at hresult
    split_ifs at hresult with harrived hover hdone
    · cases hresult
      refine ⟨rfl, ?_⟩
      unfold failure
      rw [hends]
      dsimp only
      rw [if_pos hover, ite_self]
    · exact absurd ⟨headerEnd, bodyEnd, hends, Nat.not_lt.mp hover, hdone.trans hk⟩ h
    · exact hlong hresult
    · exact hlong hresult

/-- A stream on the whole of which the loop gives no verdict. -/
theorem failure_of_none {stream : Str} (h : verdictOf stream = none) :
    failure stream = .incomplete := by
  have hshort : tooLong stream.length = none → ¬stream.length > kMaxRequestBytes := by
    intro hnone hlong
    unfold tooLong at hnone
    rw [if_pos hlong] at hnone
    cases hnone
  rw [← List.take_length (l := stream)] at h
  unfold failure
  cases hends : requestEnd stream with
  | none =>
    rw [verdictOf_take_of_none (le_refl _) hends] at h
    rw [if_neg (hshort h)]
  | some ends =>
    obtain ⟨headerEnd, bodyEnd⟩ := ends
    have harrived : headerEnd + 4 ≤ stream.length := by
      obtain ⟨place, hfind, heq⟩ := Option.map_eq_some_iff.mp hends
      obtain ⟨rfl, rfl⟩ := Prod.mk.inj heq
      exact add_length_le_of_find hfind
    rw [verdictOf_take_of_some (le_refl _) hends, if_pos harrived] at h
    split_ifs at h with hover hdone
    rw [if_neg (hshort h)]
    exact if_neg hover

/-- Without a complete request the chunks make no difference. -/
theorem readRequest_of_not_complete {stream : Str} {chunks : List Str}
    (h : ¬∃ headerEnd bodyEnd, Complete stream headerEnd bodyEnd)
    (hsplits : Chunks.Splits kReceiveBytes chunks stream) :
    readRequest [] none chunks = failure stream := by
  rw [readRequest_eq_read chunks [] none nofun]
  rcases Chunks.read_cases chunks [] hsplits.bounded with ⟨hnone, hread⟩ | ⟨k, hk, hsome, -⟩
  · rw [List.nil_append, hsplits.flatten] at hnone
    rw [hread, failure_of_none hnone]
  · rw [List.nil_append, hsplits.flatten] at hk hsome
    obtain ⟨hresult, hfailure⟩ := verdictOf_take_of_not_complete h hk hsome
    rw [hresult, hfailure]

/-- As long as the request is not complete and the buffer not too long the loop goes on. -/
theorem Complete.verdictOf_take_eq_none {stream : Str} {headerEnd bodyEnd k : ℕ}
    (h : Complete stream headerEnd bodyEnd) (hk : k ≤ stream.length) :
    verdictOf (stream.take k) = none ↔ k < bodyEnd ∧ k ≤ kMaxRequestBytes := by
  rw [h.verdictOf_take hk]
  unfold tooLong
  split_ifs with hdone hlong
  · exact ⟨nofun, fun hearly => absurd hearly.1 (Nat.not_lt.mpr hdone)⟩
  · exact ⟨nofun, fun hearly => absurd hlong (Nat.not_lt.mpr hearly.2)⟩
  · exact ⟨fun _ => ⟨Nat.not_le.mp hdone, Nat.not_lt.mp hlong⟩, fun _ => rfl⟩

/-- With a complete request the loop ends with the first buffer that holds it or is too long. -/
theorem readRequest_of_complete {stream : Str} {headerEnd bodyEnd limit : ℕ} {chunks : List Str}
    (h : Complete stream headerEnd bodyEnd) (hsplits : Chunks.Splits limit chunks stream) :
    ∃ k, k ≤ kMaxRequestBytes + limit ∧ k ≤ stream.length ∧
      (bodyEnd ≤ k ∧ readRequest [] none chunks = .complete (stream.take k) ∨
        k < bodyEnd ∧ kMaxRequestBytes < k ∧ readRequest [] none chunks = .rejected) := by
  have hheader := h.header_le
  rw [readRequest_eq_read chunks [] none nofun]
  have hcases := @Chunks.read_cases _ _ verdictOf .incomplete limit chunks [] hsplits.bounded
  rw [List.nil_append, hsplits.flatten] at hcases
  rcases hcases with ⟨hnone, -⟩ | ⟨k, hk, hsome, hbefore⟩
  · exfalso
    rw [← List.take_length (l := stream), h.verdictOf_take_eq_none (le_refl _)] at hnone
    exact absurd h.arrives (Nat.not_le.mpr hnone.1)
  · have hstarted : k ≠ 0 := by
      rintro rfl
      have hempty := (h.verdictOf_take_eq_none (Nat.zero_le _)).mpr
        ⟨by omega, Nat.zero_le kMaxRequestBytes⟩
      rw [hempty] at hsome
      cases hsome
    obtain ⟨j, hnone, hgrown⟩ := hbefore.resolve_left hstarted
    -- the buffer before was not too long
    have hj : j ≤ kMaxRequestBytes ∨ stream.length < j := by
      rcases Nat.lt_or_ge stream.length j with hlt | hge
      · exact Or.inr hlt
      · exact Or.inl ((h.verdictOf_take_eq_none hge).mp hnone).2
    have hshort : j ≤ stream.length := by
      by_contra hlong
      rw [List.take_of_length_le (Nat.le_of_not_le hlong), ← List.take_length (l := stream),
        h.verdictOf_take_eq_none (le_refl _)] at hnone
      exact absurd h.arrives (Nat.not_le.mpr hnone.1)
    refine ⟨k, by omega, hk, ?_⟩
    rw [h.verdictOf_take hk] at hsome
    unfold tooLong at hsome
    split_ifs at hsome with hdone hlong
    · exact Or.inl ⟨hdone, (Option.some.inj hsome).symm⟩
    · exact Or.inr ⟨Nat.not_le.mp hdone, hlong, (Option.some.inj hsome).symm⟩

/-! ### What is passed on -/

/-- The request line of a stream with headers. -/
def requestLine (stream : Str) : Str :=
  match find lineTerminator stream with
  | some lineEnd => stream.take lineEnd
  | none => stream

/-- The first line ends no later than the headers. -/
theorem exists_lineEnd {stream : Str} {headerEnd : ℕ}
    (h : find headerTerminator stream = some headerEnd) :
    ∃ lineEnd, find lineTerminator stream = some lineEnd ∧ lineEnd ≤ headerEnd := by
  obtain ⟨-, hat, -⟩ := find_eq_some.mp h
  have hline : lineTerminator <+: stream.drop headerEnd :=
    List.IsPrefix.trans ⟨[0x0D, 0x0A], rfl⟩ hat
  cases hfind : find lineTerminator stream with
  | none => exact absurd hline ((find_eq_none (by decide)).mp hfind headerEnd)
  | some lineEnd =>
    refine ⟨lineEnd, rfl, ?_⟩
    by_contra hlater
    exact (find_eq_some.mp hfind).2.2 headerEnd (Nat.not_le.mp hlater) hline

/-- From a buffer that holds the headers the same method and target are passed on, with all of the
buffer behind the headers. -/
theorem splitRequest_take {stream : Str} {headerEnd k : ℕ}
    (h : find headerTerminator stream = some headerEnd) (hk : headerEnd + 4 ≤ k) :
    splitRequest (stream.take k) =
      match splitLine (requestLine stream) with
      | none => .badRequest "bad request line\n"
      | some (method, target) => .handled method target ((stream.take k).drop (headerEnd + 4)) := by
  obtain ⟨lineEnd, hline, hbefore⟩ := exists_lineEnd h
  have hheaders : find headerTerminator (stream.take k) = some headerEnd :=
    (find_take (by decide)).mpr ⟨h, hk⟩
  have hfirst : find lineTerminator (stream.take k) = some lineEnd :=
    (find_take (by decide)).mpr ⟨hline, show lineEnd + 2 ≤ k by omega⟩
  have htake : (stream.take k).take lineEnd = stream.take lineEnd := by
    rw [List.take_take, min_eq_left (by omega)]
  unfold splitRequest requestLine
  rw [hheaders, hfirst, hline]
  dsimp only
  rw [htake]

/-- However the stream arrives, the outcome is the same, and a body that is passed on is as long as
the headers say. -/
structure Framed (stream : Str) : Prop where
  same : ∀ chunks chunks', Chunks.Splits kReceiveBytes chunks stream →
    Chunks.Splits kReceiveBytes chunks' stream → respond chunks = respond chunks'
  exact : ∀ chunks method target body, Chunks.Splits kReceiveBytes chunks stream →
    respond chunks = .handled method target body →
      ∃ headerEnd, find headerTerminator stream = some headerEnd ∧
        body = (stream.drop (headerEnd + 4)).take (contentLength (stream.take headerEnd)) ∧
        body.length = contentLength (stream.take headerEnd)

theorem exists_content {stream : Str} {headerEnd bodyEnd : ℕ}
    (h : Complete stream headerEnd bodyEnd) : find headerTerminator stream = some headerEnd ∧
      bodyEnd = headerEnd + 4 + contentLength (stream.take headerEnd) := by
  obtain ⟨place, hfind, heq⟩ := Option.map_eq_some_iff.mp h.ends
  obtain ⟨rfl, rfl⟩ := Prod.mk.inj heq
  exact ⟨hfind, rfl⟩

/-- A stream with the same outcome for all chunks, and the body that it should have. -/
theorem Framed.of_forall {stream : Str} {verdict : Verdict}
    (h : ∀ chunks, Chunks.Splits kReceiveBytes chunks stream → respond chunks = verdict)
    (hbody : ∀ method target body, verdict = .handled method target body →
      ∃ headerEnd, find headerTerminator stream = some headerEnd ∧
        body = (stream.drop (headerEnd + 4)).take (contentLength (stream.take headerEnd)) ∧
        body.length = contentLength (stream.take headerEnd)) : Framed stream := by
  refine ⟨fun chunks chunks' hsplits hsplits' => ?_,
    fun chunks method target body hsplits heq => ?_⟩
  · rw [h chunks hsplits, h chunks' hsplits']
  · rw [h chunks hsplits] at heq
    exact hbody method target body heq

/-- A stream without a complete request. -/
theorem framed_of_not_complete {stream : Str}
    (h : ¬∃ headerEnd bodyEnd, Complete stream headerEnd bodyEnd) : Framed stream := by
  have hrespond : ∀ chunks, Chunks.Splits kReceiveBytes chunks stream → respond chunks =
      match failure stream with
      | .rejected => .rejected
      | .incomplete => .incomplete
      | .complete request => splitRequest request := by
    intro chunks hsplits
    unfold respond
    rw [readRequest_of_not_complete h hsplits]
  refine Framed.of_forall hrespond fun method target body heq => ?_
  -- nothing is passed on
  exfalso
  rcases failure_cases stream with hfailure | hfailure
  · rw [hfailure] at heq
    cases heq
  · rw [hfailure] at heq
    cases heq

/-- A stream with a request that no buffer can reach in time. -/
theorem framed_of_far {stream : Str} {headerEnd bodyEnd : ℕ} (h : Complete stream headerEnd bodyEnd)
    (hfar : bodyEnd > kMaxRequestBytes + kReceiveBytes) : Framed stream := by
  refine @Framed.of_forall stream .rejected (fun chunks hsplits => ?_) nofun
  obtain ⟨k, hgrown, -, ⟨hdone, -⟩ | ⟨-, -, hread⟩⟩ := readRequest_of_complete h hsplits
  · omega
  · unfold respond
    rw [hread]

/-- A stream with a request within the limit, which is accepted with a buffer that holds it. -/
theorem respond_of_near {stream : Str} {headerEnd bodyEnd : ℕ}
    (h : Complete stream headerEnd bodyEnd) (hnear : bodyEnd ≤ kMaxRequestBytes + 1)
    {chunks : List Str} (hsplits : Chunks.Splits kReceiveBytes chunks stream) :
    ∃ k, bodyEnd ≤ k ∧ k ≤ stream.length ∧ respond chunks =
      match splitLine (requestLine stream) with
      | none => .badRequest "bad request line\n"
      | some (method, target) => .handled method target ((stream.take k).drop (headerEnd + 4)) := by
  obtain ⟨k, -, hk, ⟨hdone, hread⟩ | ⟨hearly, hlong, -⟩⟩ := readRequest_of_complete h hsplits
  · refine ⟨k, hdone, hk, ?_⟩
    unfold respond
    rw [hread]
    exact splitRequest_take (exists_content h).1 (h.header_le.trans hdone)
  · omega

theorem framed_of_near {stream : Str} {headerEnd bodyEnd : ℕ}
    (h : Complete stream headerEnd bodyEnd) (hnear : bodyEnd ≤ kMaxRequestBytes + 1)
    (hexact : bodyEnd = stream.length ∨ splitLine (requestLine stream) = none) : Framed stream := by
  obtain ⟨hfind, hcontent⟩ := exists_content h
  cases hline : splitLine (requestLine stream) with
  | none =>
    refine @Framed.of_forall stream (.badRequest "bad request line\n")
      (fun chunks hsplits => ?_) nofun
    obtain ⟨k, -, -, hrespond⟩ := respond_of_near h hnear hsplits
    rw [hrespond, hline]
  | some parts =>
    obtain ⟨method, target⟩ := parts
    have hwhole : bodyEnd = stream.length := hexact.resolve_right (by rw [hline]; exact nofun)
    refine @Framed.of_forall stream (.handled method target (stream.drop (headerEnd + 4)))
      (fun chunks hsplits => ?_) fun method' target' body heq => ?_
    · obtain ⟨k, hdone, hk, hrespond⟩ := respond_of_near h hnear hsplits
      rw [hrespond, hline]
      dsimp only
      rw [List.take_of_length_le (by omega)]
    · cases heq
      -- the body is all that is left
      have hlength : (stream.drop (headerEnd + 4)).length = contentLength
          (stream.take headerEnd) := by
        rw [List.length_drop]
        omega
      exact ⟨headerEnd, hfind, by rw [← hlength, List.take_length], hlength⟩

/-- A request a little above the limit is accepted only if it arrives in large chunks. -/
theorem not_framed_of_above {stream : Str} {headerEnd bodyEnd : ℕ}
    (h : Complete stream headerEnd bodyEnd) (habove : kMaxRequestBytes + 1 < bodyEnd)
    (hreach : bodyEnd ≤ kMaxRequestBytes + kReceiveBytes) : ¬Framed stream := by
  intro hframed
  have harrives := h.arrives
  have hsingles := Chunks.splits_singles stream
  have hrejected : respond (stream.map fun byte => [byte]) = .rejected := by
    obtain ⟨k, hgrown, -, ⟨hdone, -⟩ | ⟨-, -, hread⟩⟩ := readRequest_of_complete h hsingles
    · omega
    · unfold respond
      rw [hread]
  obtain ⟨chunks, hsplits, hread⟩ := @Chunks.exists_splits _ _ verdictOf .incomplete kReceiveBytes
    stream kMaxRequestBytes bodyEnd (.complete (stream.take bodyEnd)) (by omega) harrives hreach
    (fun i hi => (h.verdictOf_take_eq_none (by omega)).mpr ⟨by omega, hi⟩)
    (by rw [h.verdictOf_take harrives, if_pos (le_refl _)])
  have hsame := hframed.same _ chunks (hsingles.mono (by decide)) hsplits
  rw [hrejected] at hsame
  unfold respond at hsame
  rw [readRequest_eq_read chunks [] none nofun, hread] at hsame
  dsimp only at hsame
  rw [splitRequest_take (exists_content h).1 h.header_le] at hsame
  cases hline : splitLine (requestLine stream) with
  | none =>
    rw [hline] at hsame
    cases hsame
  | some parts =>
    rw [hline] at hsame
    cases hsame

/-- What follows a request becomes part of its body if it arrives with its end. -/
theorem not_framed_of_more {stream : Str} {headerEnd bodyEnd : ℕ}
    (h : Complete stream headerEnd bodyEnd) (hnear : bodyEnd ≤ kMaxRequestBytes + 1)
    (hmore : bodyEnd < stream.length) (hline : splitLine (requestLine stream) ≠ none) :
    ¬Framed stream := by
  intro hframed
  have hheader := h.header_le
  obtain ⟨hfind, hcontent⟩ := exists_content h
  obtain ⟨chunks, hsplits, hread⟩ := @Chunks.exists_splits _ _ verdictOf .incomplete kReceiveBytes
    stream (bodyEnd - 1) (bodyEnd + 1) (.complete (stream.take (bodyEnd + 1))) (by omega) hmore
    (by show bodyEnd + 1 ≤ bodyEnd - 1 + 8192; omega)
    (fun i hi => (h.verdictOf_take_eq_none (by omega)).mpr ⟨by omega, by omega⟩)
    (by rw [h.verdictOf_take hmore, if_pos (Nat.le_succ _)])
  have hrespond : respond chunks = splitRequest (stream.take (bodyEnd + 1)) := by
    unfold respond
    rw [readRequest_eq_read chunks [] none nofun, hread]
  rw [splitRequest_take hfind (by omega)] at hrespond
  cases hparts : splitLine (requestLine stream) with
  | none => exact hline hparts
  | some parts =>
    obtain ⟨method, target⟩ := parts
    rw [hparts] at hrespond
    obtain ⟨headerEnd', hfind', -, hlength⟩ := hframed.exact chunks _ _ _ hsplits hrespond
    rw [hfind] at hfind'
    cases hfind'
    rw [List.length_drop, List.length_take] at hlength
    omega

/-- The chunks make no difference exactly to a stream in which there is no complete request; or one
that is far too long; or one within the limit, with nothing behind it or with a request line that is
refused. -/
theorem framed_iff (stream : Str) : Framed stream ↔
    ∀ headerEnd bodyEnd, Complete stream headerEnd bodyEnd →
      bodyEnd > kMaxRequestBytes + kReceiveBytes ∨
        bodyEnd ≤ kMaxRequestBytes + 1 ∧
          (bodyEnd = stream.length ∨ splitLine (requestLine stream) = none) := by
  constructor
  · intro hframed headerEnd bodyEnd h
    by_contra hnot
    push Not at hnot
    obtain ⟨hreach, hnear⟩ := hnot
    rcases Nat.lt_or_ge (kMaxRequestBytes + 1) bodyEnd with habove | hwithin
    · exact not_framed_of_above h habove hreach hframed
    · obtain ⟨hmore, hline⟩ := hnear hwithin
      exact not_framed_of_more h hwithin (Nat.lt_of_le_of_ne h.arrives hmore) hline hframed
  · intro hcondition
    by_cases hcomplete : ∃ headerEnd bodyEnd, Complete stream headerEnd bodyEnd
    · obtain ⟨headerEnd, bodyEnd, h⟩ := hcomplete
      rcases hcondition headerEnd bodyEnd h with hfar | ⟨hnear, hexact⟩
      · exact framed_of_far h hfar
      · exact framed_of_near h hnear hexact
    · exact framed_of_not_complete hcomplete

/-- A request without a body, and one more byte. -/
def withTrailingByte : Str := str "POST /api/run HTTP/1.1\r\nContent-Length: 0\r\n\r\nX"

/-- The byte is the body if it comes with the request, and not if it comes later. -/
theorem trailing_byte_not_framed : ¬Framed withTrailingByte := by
  intro hframed
  have hsame := hframed.same [withTrailingByte] [withTrailingByte.take 45, withTrailingByte.drop 45]
    ⟨by decide, by decide, by decide⟩ ⟨by decide, by decide, by decide⟩
  revert hsame
  decide +kernel

end Playground
end MiniTool
