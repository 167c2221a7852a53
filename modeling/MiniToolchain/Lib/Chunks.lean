import Mathlib.Data.List.Basic
import Mathlib.Order.Nat

/-!
# Reading a stream in chunks

A reader that collects the chunks of a stream in a buffer, and looks at the buffer between them.
What it sees depends on where the chunks end.

## Main definitions

* `Splits` — a stream in chunks.
* `read` — what a reader finds that gives its verdict on the buffer as soon as it can.

## Main results

* `read_cases` — the verdict is one on some beginning of the stream, which the chunk before had not
  reached.
* `exists_splits` — chunks that end where one wants.
-/

namespace Chunks

variable {α β : Type}

/-- The chunks, none of them empty or longer than `limit`, make up the stream. -/
structure Splits (limit : ℕ) (chunks : List (List α)) (stream : List α) : Prop where
  flatten : chunks.flatten = stream
  nonempty : ∀ chunk ∈ chunks, chunk ≠ []
  bounded : ∀ chunk ∈ chunks, chunk.length ≤ limit

/-- Looks at the buffer before each chunk and after the last. -/
def read (verdict : List α → Option β) (ended : β) (buffer : List α) : List (List α) → β
  | [] => (verdict buffer).getD ended
  | chunk :: rest =>
    match verdict buffer with
    | some result => result
    | none => read verdict ended (buffer ++ chunk) rest

variable {verdict : List α → Option β} {ended : β}

theorem read_of_some {buffer : List α} {result : β} (h : verdict buffer = some result)
    (chunks : List (List α)) : read verdict ended buffer chunks = result := by
  cases chunks with
  | nil =>
    unfold read
    rw [h]
    rfl
  | cons chunk rest =>
    unfold read
    rw [h]

theorem read_of_none {buffer : List α} (h : verdict buffer = none) (chunk : List α)
    (rest : List (List α)) : read verdict ended buffer (chunk :: rest) =
      read verdict ended (buffer ++ chunk) rest := by
  conv_lhs => unfold read
  rw [h]

/-- Either there is no verdict on the whole stream, or the reader gives the verdict on a beginning
of it: on the buffer it started with, or on one that has grown by one chunk from one without a
verdict. -/
theorem read_cases {limit : ℕ} (chunks : List (List α)) : ∀ buffer : List α,
    (∀ chunk ∈ chunks, chunk.length ≤ limit) →
    (verdict (buffer ++ chunks.flatten) = none ∧ read verdict ended buffer chunks = ended) ∨
      ∃ k, k ≤ (buffer ++ chunks.flatten).length ∧
        verdict ((buffer ++ chunks.flatten).take k) = some (read verdict ended buffer chunks) ∧
        (k = buffer.length ∨ ∃ j, verdict ((buffer ++ chunks.flatten).take j) = none ∧
          k ≤ j + limit) := by
  induction chunks with
  | nil =>
    intro buffer _
    rw [List.flatten_nil, List.append_nil]
    cases hverdict : verdict buffer with
    | none =>
      refine Or.inl ⟨rfl, ?_⟩
      unfold read
      rw [hverdict]
      rfl
    | some result =>
      refine Or.inr ⟨buffer.length, le_refl _, ?_, Or.inl rfl⟩
      rw [List.take_length, hverdict, read_of_some hverdict]
  | cons chunk rest ih =>
    intro buffer hbounded
    have hfirst : (buffer ++ (chunk :: rest).flatten).take buffer.length = buffer := List.take_left
    cases hverdict : verdict buffer with
    | some result =>
      refine Or.inr ⟨buffer.length, ?_, ?_, Or.inl rfl⟩
      · rw [List.length_append]
        exact Nat.le_add_right _ _
      · rw [hfirst, hverdict, read_of_some hverdict]
    | none =>
      rw [read_of_none hverdict]
      have hsame : buffer ++ (chunk :: rest).flatten = buffer ++ chunk ++ rest.flatten := by
        rw [List.flatten_cons, List.append_assoc]
      rw [hsame] at hfirst ⊢
      rcases ih (buffer ++ chunk) fun other hmem =>
          hbounded other (List.mem_cons_of_mem _ hmem) with
        hnone | ⟨k, hk, hsome, hk' | hbefore⟩
      · exact Or.inl hnone
      · -- the chunk before is the buffer
        refine Or.inr ⟨k, hk, hsome, Or.inr ⟨buffer.length, by rw [hfirst, hverdict], ?_⟩⟩
        rw [hk', List.length_append]
        exact Nat.add_le_add_left (hbounded chunk List.mem_cons_self) _
      · exact Or.inr ⟨k, hk, hsome, Or.inr hbefore⟩

/-! ### Chunks of one -/

theorem flatten_singles (stream : List α) : (stream.map fun a => [a]).flatten = stream := by
  rw [← List.flatMap_def, List.flatMap_singleton']

/-- A stream can be cut into single elements. -/
theorem splits_singles (stream : List α) : Splits 1 (stream.map fun a => [a]) stream := by
  refine ⟨flatten_singles stream, fun chunk hmem => ?_, fun chunk hmem => ?_⟩
  · obtain ⟨a, -, rfl⟩ := List.mem_map.mp hmem
    exact List.cons_ne_nil a []
  · obtain ⟨a, -, rfl⟩ := List.mem_map.mp hmem
    exact le_refl 1

theorem Splits.mono {limit limit' : ℕ} {chunks : List (List α)} {stream : List α}
    (h : Splits limit chunks stream) (hlimit : limit ≤ limit') : Splits limit' chunks stream :=
  ⟨h.flatten, h.nonempty, fun chunk hmem => (h.bounded chunk hmem).trans hlimit⟩

theorem Splits.append {limit : ℕ} {chunks chunks' : List (List α)} {stream stream' : List α}
    (h : Splits limit chunks stream) (h' : Splits limit chunks' stream') :
    Splits limit (chunks ++ chunks') (stream ++ stream') := by
  refine ⟨by rw [List.flatten_append, h.flatten, h'.flatten], fun chunk hmem => ?_,
    fun chunk hmem => ?_⟩
  · exact (List.mem_append.mp hmem).elim (h.nonempty chunk) (h'.nonempty chunk)
  · exact (List.mem_append.mp hmem).elim (h.bounded chunk) (h'.bounded chunk)

/-- As long as there is no verdict the single elements end up in the buffer. -/
theorem read_singles (stream : List α) (rest : List (List α)) {j : ℕ}
    (hnone : ∀ i < j, verdict (stream.take i) = none) :
    read verdict ended [] ((stream.take j).map (fun a => [a]) ++ rest) =
      read verdict ended (stream.take j) rest := by
  induction j generalizing rest with
  | zero => rfl
  | succ j ih =>
    rcases Nat.lt_or_ge j stream.length with hlt | hge
    · have htake : stream.take (j + 1) = stream.take j ++ [stream[j]] :=
        (List.take_append_getElem hlt).symm
      rw [htake, List.map_append, List.append_assoc, List.map_singleton, List.singleton_append,
        ih _ fun i hi => hnone i (Nat.lt_succ_of_lt hi),
        read_of_none (hnone j (Nat.lt_succ_self j))]
    · have hsame : stream.take (j + 1) = stream.take j := by
        rw [List.take_of_length_le hge, List.take_of_length_le (Nat.le_succ_of_le hge)]
      rw [hsame]
      exact ih rest fun i hi => hnone i (Nat.lt_succ_of_lt hi)

/-- A stream can be cut so that the reader sees its first `j` elements, and next the first `k`. -/
theorem exists_splits {limit : ℕ} {stream : List α} {j k : ℕ} {result : β} (hjk : j < k)
    (hk : k ≤ stream.length) (hlimit : k ≤ j + limit)
    (hnone : ∀ i ≤ j, verdict (stream.take i) = none)
    (hsome : verdict (stream.take k) = some result) :
    ∃ chunks, Splits limit chunks stream ∧ read verdict ended [] chunks = result := by
  have hpos : 1 ≤ limit := by omega
  have hmiddle : (stream.drop j).take (k - j) ≠ [] := by
    intro hnil
    have hlength := congrArg List.length hnil
    rw [List.length_take, List.length_drop, List.length_nil] at hlength
    omega
  have hchunk : Splits limit [(stream.drop j).take (k - j)] ((stream.drop j).take (k - j)) := by
    refine ⟨by rw [List.flatten_singleton], fun chunk hmem => ?_, fun chunk hmem => ?_⟩
    · rw [List.mem_singleton.mp hmem]
      exact hmiddle
    · rw [List.mem_singleton.mp hmem, List.length_take]
      omega
  have htake : stream.take j ++ (stream.drop j).take (k - j) = stream.take k := by
    rw [← List.take_add, Nat.add_sub_cancel' hjk.le]
  refine ⟨(stream.take j).map (fun a => [a]) ++
    ([(stream.drop j).take (k - j)] ++ (stream.drop k).map (fun a => [a])), ?_, ?_⟩
  · have hsplits := ((splits_singles (stream.take j)).mono hpos).append
      (hchunk.append ((splits_singles (stream.drop k)).mono hpos))
    have hwhole : stream.take j ++ ((stream.drop j).take (k - j) ++ stream.drop k) = stream := by
      rw [← List.append_assoc, htake, List.take_append_drop]
    rw [hwhole] at hsplits
    exact hsplits
  · rw [read_singles stream _ fun i hi => hnone i hi.le, List.singleton_append,
      read_of_none (hnone j (le_refl j)), htake, read_of_some hsome]

end Chunks
