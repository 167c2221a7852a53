import Mathlib.Data.List.Infix
import Mathlib.Tactic.SplitIfs

/-!
# The discipline of a call stack

A stack of saved values and return addresses, used so that a return finds the address its call
pushed and a pop finds a value of the same frame.  A run that keeps to this leaves what is below a
slot alone for as long as the stack is no shorter than up to it.

## Main definitions

* `Slot`, `Event` — what is on the stack, and what an instruction does to it.
* `Event.apply` — the stack afterwards, if the instruction keeps to the discipline.
* `Follows` — the stacks of a run.

## Main results

* `Follows.exists_append` — what stays below.
* `Follows.first_shorter` — how a slot that was on top is removed.
-/

namespace CallStack

/-- A word of the stack, over return addresses in `α`. -/
inductive Slot (α : Type) where
  /-- A value that the frame saved. -/
  | value : Slot α
  /-- Pushed by a call. -/
  | ret (address : α) : Slot α
  deriving DecidableEq, Repr

/-- What an instruction does to the stack. -/
inductive Event (α : Type) where
  | none : Event α
  | push : Event α
  | pop : Event α
  /-- A call whose return address is this. -/
  | call (address : α) : Event α
  /-- A return to this address. -/
  | ret (address : α) : Event α
  deriving DecidableEq, Repr

variable {α : Type}

/-- A pop removes a saved value and a return removes the address it goes to; nothing else is
allowed. -/
def Event.apply [DecidableEq α] : Event α → List (Slot α) → Option (List (Slot α))
  | .none, slots => some slots
  | .push, slots => some (.value :: slots)
  | .call address, slots => some (.ret address :: slots)
  | .pop, .value :: slots => some slots
  | .ret address, .ret saved :: slots => if address = saved then some slots else Option.none
  | _, _ => Option.none

variable [DecidableEq α]

/-- An event adds a slot, removes the top one or leaves the stack alone. -/
theorem apply_cases {event : Event α} {slots slots' : List (Slot α)}
    (h : event.apply slots = some slots') :
    (event = .none ∧ slots' = slots) ∨
      (event = .push ∧ slots' = .value :: slots) ∨
      (∃ address, event = .call address ∧ slots' = .ret address :: slots) ∨
      (event = .pop ∧ slots = .value :: slots') ∨
      ∃ address, event = .ret address ∧ slots = .ret address :: slots' := by
  cases event with
  | none =>
    cases h
    exact Or.inl ⟨rfl, rfl⟩
  | push =>
    cases h
    exact Or.inr (Or.inl ⟨rfl, rfl⟩)
  | call address =>
    cases h
    exact Or.inr (Or.inr (Or.inl ⟨address, rfl, rfl⟩))
  | pop =>
    rcases slots with _ | ⟨_ | saved, slots⟩
    · cases h
    · cases h
      exact Or.inr (Or.inr (Or.inr (Or.inl ⟨rfl, rfl⟩)))
    · cases h
  | ret address =>
    rcases slots with _ | ⟨_ | saved, slots⟩
    · cases h
    · cases h
    · dsimp only [Event.apply] at h
      split_ifs at h with heq
      cases h
      exact Or.inr (Or.inr (Or.inr (Or.inr ⟨address, rfl, by rw [heq]⟩)))

/-- The stacks of a run that keeps to the discipline. -/
def Follows (events : ℕ → Event α) (slotsAt : ℕ → List (Slot α)) : Prop :=
  ∀ k, (events k).apply (slotsAt k) = some (slotsAt (k + 1))

namespace Follows

variable {events : ℕ → Event α} {slotsAt : ℕ → List (Slot α)}

/-- While the stack is no shorter than it was, it only has grown. -/
theorem exists_append (h : Follows events slotsAt) (m : ℕ) {n : ℕ}
    (hlong : ∀ k ≤ n, (slotsAt m).length ≤ (slotsAt (m + k)).length) :
    ∃ inner, slotsAt (m + n) = inner ++ slotsAt m := by
  induction n with
  | zero => exact ⟨[], rfl⟩
  | succ n ih =>
    obtain ⟨inner, hinner⟩ := ih fun k hk => hlong k (Nat.le_succ_of_le hk)
    have hnext := hlong (n + 1) (le_refl _)
    rw [← Nat.add_assoc] at hnext ⊢
    -- what is removed is of the part that has grown
    have hremoved : ∀ slot, slotsAt (m + n) = slot :: slotsAt (m + n + 1) →
        ∃ inner, slotsAt (m + n + 1) = inner ++ slotsAt m := by
      intro slot hslot
      rw [hslot] at hinner
      cases inner with
      | nil =>
        have hlength := congrArg List.length hinner
        simp only [List.nil_append, List.length_cons] at hlength
        omega
      | cons slot' inner => exact ⟨inner, (List.cons.inj hinner).2⟩
    rcases apply_cases (h (m + n)) with
      ⟨-, heq⟩ | ⟨-, heq⟩ | ⟨address, -, heq⟩ | ⟨-, heq⟩ | ⟨address, -, heq⟩
    · exact ⟨inner, heq.trans hinner⟩
    · exact ⟨.value :: inner, by rw [heq, hinner]; rfl⟩
    · exact ⟨.ret address :: inner, by rw [heq, hinner]; rfl⟩
    · exact hremoved _ heq
    · exact hremoved _ heq

/-- When the stack becomes shorter than it was, it was as before and its top slot is removed: by a
pop if that is a value, by the return to it if it is an address. -/
theorem first_shorter (h : Follows events slotsAt) (m : ℕ) {n : ℕ}
    (hlong : ∀ k ≤ n, (slotsAt m).length ≤ (slotsAt (m + k)).length)
    (hshort : (slotsAt (m + n + 1)).length < (slotsAt m).length) :
    slotsAt (m + n) = slotsAt m ∧
      ((events (m + n) = .pop ∧ slotsAt m = .value :: slotsAt (m + n + 1)) ∨
        ∃ address, events (m + n) = .ret address ∧
          slotsAt m = .ret address :: slotsAt (m + n + 1)) := by
  obtain ⟨inner, hinner⟩ := h.exists_append m hlong
  have hlength := congrArg List.length hinner
  rw [List.length_append] at hlength
  have hsame : (slotsAt (m + n)).length ≤ (slotsAt (m + n + 1)).length + 1 →
      slotsAt (m + n) = slotsAt m := by
    intro hone
    have hnil : inner = [] := List.length_eq_zero_iff.mp (by omega)
    rw [hinner, hnil]
    rfl
  rcases apply_cases (h (m + n)) with
    ⟨-, heq⟩ | ⟨-, heq⟩ | ⟨address, -, heq⟩ | ⟨hevent, heq⟩ | ⟨address, hevent, heq⟩
  · rw [heq] at hshort
    omega
  · rw [heq, List.length_cons] at hshort
    omega
  · rw [heq, List.length_cons] at hshort
    omega
  · have hstack := hsame (by rw [heq]; rfl)
    exact ⟨hstack, Or.inl ⟨hevent, hstack.symm.trans heq⟩⟩
  · have hstack := hsame (by rw [heq]; rfl)
    exact ⟨hstack, Or.inr ⟨address, hevent, hstack.symm.trans heq⟩⟩

end Follows

end CallStack
