import Mathlib.Data.List.Basic

/-!
# Forms in the query of an address

The pairs of a form as `application/x-www-form-urlencoded`, byte by byte.

## Main definitions

* `encode`, `serialize` — a component, and the pairs of a form.

## Main results

* `not_mem_encode` — what does not appear in a component.
-/

namespace UrlEncoded

/-- The bytes that stand for themselves. -/
def unreserved (byte : UInt8) : Bool :=
  (0x30 ≤ byte && byte ≤ 0x39) || (0x41 ≤ byte && byte ≤ 0x5A) || (0x61 ≤ byte && byte ≤ 0x7A) ||
    byte = 0x2A || byte = 0x2D || byte = 0x2E || byte = 0x5F

/-- A hexadecimal digit. -/
def digit (n : ℕ) : UInt8 := if n < 10 then UInt8.ofNat (0x30 + n) else UInt8.ofNat (0x37 + n)

/-- A blank is a plus, and every other byte that does not stand for itself is a percent sign and two
digits. -/
def encodeByte (byte : UInt8) : List UInt8 :=
  if unreserved byte then [byte]
  else if byte = 0x20 then [0x2B]
  else [0x25, digit (byte.toNat / 16), digit (byte.toNat % 16)]

def encode (text : List UInt8) : List UInt8 := text.flatMap encodeByte

/-- A name and its value, with an equals sign in between. -/
def encodePair (pair : List UInt8 × List UInt8) : List UInt8 := encode pair.1 ++
    0x3D :: encode pair.2

/-- The pairs of a form, with ampersands in between. -/
def serialize : List (List UInt8 × List UInt8) → List UInt8
  | [] => []
  | [pair] => encodePair pair
  | pair :: next :: rest => encodePair pair ++ 0x26 :: serialize (next :: rest)

/-- The bytes of a component. -/
def inComponent (byte : UInt8) : Bool := unreserved byte || byte = 0x2B || byte = 0x25

theorem inComponent_of_mem_encodeByte (byte : UInt8) :
    ∀ c ∈ encodeByte byte, inComponent c = true := by
  have hall : ∀ n < 256, ∀ c ∈ encodeByte (UInt8.ofNat n), inComponent c = true := by decide +kernel
  have hbyte := hall byte.toNat byte.toNat_lt
  rwa [UInt8.ofNat_toNat] at hbyte

/-- No other byte appears in a component. -/
theorem not_mem_encode {c : UInt8} (hc : inComponent c = false) (text : List UInt8) :
    c ∉ encode text := by
  intro h
  obtain ⟨byte, -, hmem⟩ := List.mem_flatMap.mp h
  rw [inComponent_of_mem_encodeByte byte c hmem] at hc
  cases hc

theorem not_mem_encodePair {c : UInt8} (hc : inComponent c = false) (hequals : c ≠ 0x3D)
    (pair : List UInt8 × List UInt8) : c ∉ encodePair pair := by
  intro h
  rcases List.mem_append.mp h with h | h
  · exact not_mem_encode hc _ h
  · rcases List.mem_cons.mp h with h | h
    · exact hequals h
    · exact not_mem_encode hc _ h

/-- No other byte appears in a form, but for the two signs. -/
theorem not_mem_serialize {c : UInt8} (hc : inComponent c = false) (hequals : c ≠ 0x3D)
    (hampersand : c ≠ 0x26) (pairs : List (List UInt8 × List UInt8)) : c ∉ serialize pairs := by
  induction pairs with
  | nil => exact List.not_mem_nil
  | cons pair rest ih =>
    cases rest with
    | nil => exact not_mem_encodePair hc hequals pair
    | cons next rest =>
      intro h
      rcases List.mem_append.mp h with h | h
      · exact not_mem_encodePair hc hequals pair h
      · rcases List.mem_cons.mp h with h | h
        · exact hampersand h
        · exact ih h

end UrlEncoded
