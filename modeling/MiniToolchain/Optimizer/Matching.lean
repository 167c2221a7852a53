import MiniToolchain.Optimizer.Meaning

/-!
# The same instruction in two sections

An instruction that a pass keeps does the same in both sections, as long as it looks at nothing in
which the machines differ: registers and FLAGS that are not live, and bytes whose content is not
specified.

## Main definitions

* `Mapped` — where the positions of a section are found in another.
* `Linked` — machines at corresponding positions that agree on what is live.

## Main results

* `move_kept` — a move of an instruction that is kept is matched.
-/

namespace MiniTool
namespace Optimizer

open Ir Vm Vm.VirtualMemory Vm.VirtualMachine

/-- The labels and what follows a `CALL` are found in the other section. -/
structure Mapped (p q : Program) (φ : ℕ → ℕ) : Prop where
  symbol : q.symbol = p.symbol
  target : ∀ name, q.target name = (p.target name).map φ
  call : ∀ c instruction, p.place c = .run instruction → instruction.machine.opcode = .CALL →
    φ (c + 1) = φ c + 1

/-- The machines stand at corresponding positions and agree on what is live. -/
structure Linked (φ : ℕ → ℕ) (live : Set (Fin 16)) (flags : Prop) (s t : State) : Prop where
  position : t.position = φ s.position
  frames : t.frames = s.frames.map fun f => (f.1, φ f.2)
  hidden : t.hidden = s.hidden
  close : Close {x | s.Unspecified x} live flags s.vm t.vm

namespace Linked

variable {φ : ℕ → ℕ} {live live' : Set (Fin 16)} {flags flags' : Prop} {s t : State}

theorem mono (h : Linked φ live flags s t) (hlive : ∀ r ∈ live', r ∈ live)
    (hflags : flags' → flags) : Linked φ live' flags' s t :=
  ⟨h.position, h.frames, h.hidden, h.close.mono (fun _ hx => hx) hlive hflags⟩

theorem unspecified_iff (h : Linked φ live flags s t) (x : UInt64) :
    t.Unspecified x ↔ s.Unspecified x := by
  unfold State.Unspecified
  rw [h.hidden, h.close.sp, h.close.stackLimit]

/-- Control goes elsewhere, and nothing else happens. -/
theorem goto (h : Linked φ live flags s t) {position position' : ℕ}
    (hposition : position' = φ position) :
    Linked φ live flags (s.goto position) (t.goto position') :=
  ⟨hposition, h.frames, h.hidden, h.close⟩

end Linked

/-! ### What an instruction depends on, with its symbol resolved -/

theorem looksAt_resolve (p : Program) (instruction : Instruction) (r : Fin 16) :
    looksAt (p.resolve instruction) r = looksAt instruction.machine r := by
  unfold looksAt
  rw [p.resolve_opcode, p.resolve_dst, p.resolve_src]

theorem definesRegister_resolve (p : Program) (instruction : Instruction) (r : Fin 16) :
    definesRegister (p.resolve instruction) r ↔ definesRegister instruction.machine r := by
  unfold definesRegister
  rw [p.resolve_opcode, p.resolve_dst]

theorem writesFlags_eq (opcode : Isa.Opcode) :
    writesFlags opcode = (Isa.findOpcode opcode).any (·.writesFlags) := by
  unfold writesFlags
  cases Isa.findOpcode opcode <;> rfl

/-- A branch writes no register, and no FLAGS. -/
theorem branch_writes {opcode : Isa.Opcode} (h : isBranch opcode = true) :
    (Isa.findOpcode opcode).any (·.writesDst) = false ∧ writesFlags opcode = false := by
  cases opcode <;> first | exact ⟨rfl, rfl⟩ | cases h

/-- What does not read FLAGS goes the same way whatever they are. -/
theorem branchTaken_congr {opcode : Isa.Opcode} {f f' : UInt64}
    (h : Isa.readsFlags opcode = true → f = f') :
    Isa.branchTaken opcode f = Isa.branchTaken opcode f' := by
  by_cases hreads : Isa.readsFlags opcode = true
  · rw [h hreads]
  · cases opcode <;> first | rfl | exact absurd rfl hreads

section

variable {p q : Program} {φ : ℕ → ℕ} {live : Set (Fin 16)} {flags : Prop} {s t s' : State} {c : ℕ}
  {instruction : Instruction}

/-- What is not specified after an instruction was not before, or is not written. -/
theorem unspecified_plain {vm : VirtualMachine} (hinv : Invariant p s)
    (hbranch : isBranch instruction.machine.opcode = false)
    (hexecute : s.vm.execute (p.resolve instruction) 0 = (.ok (), vm)) {x : UInt64}
    (hx : s.Unspecified x) (hstores : ¬s.vm.stores (p.resolve instruction) x) :
    State.Unspecified
      { s with
        position := s.position + 1
        vm
        hidden := {x | x ∈ s.hidden ∧ ¬s.vm.stores (p.resolve instruction) x} } x := by
  have heffect := effect_of_execute s.vm (p.resolve instruction) 0
  rw [hexecute] at heffect
  have hlimit : vm.stackLimit = s.vm.stackLimit :=
    (hinv.stack.effect heffect).limit.trans hinv.stack.limit.symm
  rcases hx with hx | ⟨hlow, hhigh⟩
  · exact .inl ⟨hx, hstores⟩
  · refine .inr ⟨by rw [hlimit]; exact hlow, ?_⟩
    have hbranch' : transfers (p.resolve instruction).opcode = false := by
      rw [p.resolve_opcode]
      exact hbranch
    rcases toNat_sp_of_execute hbranch' hexecute with
      ⟨hpush, hmoved, hsp⟩ | ⟨-, -, hsp⟩ | ⟨-, -, hsp⟩
    · -- what a push wrote is specified
      have hout : ¬InRange vm.cpu.sp 8 x := by
        intro hrange
        rw [hmoved] at hrange
        exact hstores (.inr (.inl ⟨by rw [hpush]; rfl, hrange⟩))
      unfold InRange at hout
      show x.toNat < vm.cpu.sp.toNat
      by_contra hle
      exact hout ⟨not_lt.mp hle, by omega⟩
    · show x.toNat < vm.cpu.sp.toNat
      omega
    · show x.toNat < vm.cpu.sp.toNat
      rw [hsp]
      exact hhigh

/-- An instruction that is no branch. -/
theorem plain_kept {vm : VirtualMachine} (hmapped : Mapped p q φ) (hinv : Invariant p s)
    (h : Linked φ live flags s t) (hplace : q.place (φ s.position) = .run instruction)
    (hnext : φ (s.position + 1) = φ s.position + 1)
    (hlooks : ∀ r, looksAt instruction.machine r = true → r ∈ live)
    (hall : instruction.machine.opcode = .SYSCALL → ∀ r, r ∈ live)
    (hbranch : isBranch instruction.machine.opcode = false)
    (hsymbol : instruction.isSymbolic = true → takesSymbol instruction.machine.opcode = true)
    (hspecified : s.Specified (p.resolve instruction))
    (hexecute : s.vm.execute (p.resolve instruction) 0 = (.ok (), vm)) :
    ∃ t', Move q t 1 t' ∧ Linked φ {r | r ∈ live ∨ definesRegister instruction.machine r}
      (flags ∨ writesFlags instruction.machine.opcode = true)
      { s with
        position := s.position + 1
        vm
        hidden := {x | x ∈ s.hidden ∧ ¬s.vm.stores (p.resolve instruction) x} } t' := by
  have hresolve : q.resolve instruction = p.resolve instruction := by
    unfold Program.resolve
    rw [hmapped.symbol]
  have hlooks' : ∀ r, looksAt (p.resolve instruction) r = true → r ∈ live := by
    intro r hr
    rw [looksAt_resolve] at hr
    exact hlooks r hr
  have hall' : (p.resolve instruction).opcode = .SYSCALL → ∀ r, r ∈ live := by
    rw [p.resolve_opcode]
    exact hall
  have hbranch' : transfers (p.resolve instruction).opcode = false := by
    rw [p.resolve_opcode]
    exact hbranch
  obtain ⟨vm', hexecute', hclose⟩ := h.close.execute hbranch' hexecute hlooks' hall'
    hspecified.loads (fun hpop x hrange hx => by
      rcases hx with hx | ⟨-, hlt⟩
      · exact hspecified.pop hpop x hrange hx
      · exact absurd hrange.1 (not_le.mpr hlt))
  have hspecified' : t.Specified (q.resolve instruction) := by
    rw [hresolve]
    refine ⟨fun x hx => ?_, fun hpop x hrange => ?_⟩
    · rw [h.unspecified_iff]
      exact hspecified.loads x ((h.close.loads_iff hlooks' hall' x).mp hx)
    · rw [h.hidden]
      rw [h.close.sp] at hrange
      exact hspecified.pop hpop x hrange
  rw [← h.position] at hplace
  rw [← hresolve] at hexecute'
  refine ⟨_, .plain hplace hbranch hsymbol hspecified' hexecute', ?_, h.frames, ?_, ?_⟩
  · show t.position + 1 = φ (s.position + 1)
    rw [hnext, h.position]
  · rw [hresolve, h.hidden]
    ext x
    exact and_congr_right fun _ => not_congr (h.close.stores_iff hlooks' hall' x)
  · refine hclose.mono (fun x hx => unspecified_plain hinv hbranch hexecute hx.1 hx.2) ?_ ?_
    · rintro r (hr | hr)
      · exact .inl hr
      · exact .inr ((definesRegister_resolve p instruction r).mpr hr)
    · rw [p.resolve_opcode, ← writesFlags_eq]
      exact id

/-- **A move of an instruction that is kept is matched.** -/
theorem move_kept (hmapped : Mapped p q φ) (hinv : Invariant p s) (h : Linked φ live flags s t)
    (hplace : p.place s.position = .run instruction)
    (hplace' : q.place (φ s.position) = .run instruction)
    (hnext : φ (s.position + 1) = φ s.position + 1)
    (hlooks : ∀ r, looksAt instruction.machine r = true → r ∈ live)
    (hall : instruction.machine.opcode = .SYSCALL → ∀ r, r ∈ live)
    (hflags : Isa.readsFlags instruction.machine.opcode = true → flags) (hmove : Move p s c s') :
    ∃ t', Move q t c t' ∧ Linked φ {r | r ∈ live ∨ definesRegister instruction.machine r}
      (flags ∨ writesFlags instruction.machine.opcode = true) s' t' := by
  have hsame : Isa.branchTaken instruction.machine.opcode t.vm.cpu.flags =
      Isa.branchTaken instruction.machine.opcode s.vm.cpu.flags :=
    branchTaken_congr fun hreads => h.close.flags (hflags hreads)
  have hstay : isBranch instruction.machine.opcode = true → ∀ {u v : State},
      Linked φ live flags u v → Linked φ {r | r ∈ live ∨ definesRegister instruction.machine r}
        (flags ∨ writesFlags instruction.machine.opcode = true) u v := by
    intro hbranch u v hlinked
    obtain ⟨hwrites, hwritesFlags⟩ := branch_writes hbranch
    refine hlinked.mono ?_ ?_
    · rintro r (hr | hdefines)
      · exact hr
      · exact absurd hdefines.1 (by simp [hwrites])
    · rintro (hlive | hwritten)
      · exact hlive
      · exact absurd hwritten (by simp [hwritesFlags])
  rw [← h.position] at hplace'
  cases hmove with
  | skip hskip =>
    rw [hplace] at hskip
    cases hskip
  | plain hat hbranch hsymbol hspecified hexecute =>
    rw [hplace] at hat
    cases hat
    rw [h.position] at hplace'
    exact plain_kept hmapped hinv h hplace' hnext hlooks hall hbranch hsymbol hspecified hexecute
  | fall hat hbranch hret htaken =>
    rw [hplace] at hat
    cases hat
    rw [← hsame] at htaken
    exact ⟨_, .fall hplace' hbranch hret htaken,
      hstay hbranch (h.goto (by rw [hnext, h.position]))⟩
  | jump hat hbranch hcall htaken hsymbol haddend htarget =>
    rw [hplace] at hat
    cases hat
    rw [← hsame] at htaken
    have htarget' : q.target _ = some (φ _) := (hmapped.target _).trans (by rw [htarget]; rfl)
    exact ⟨_, .jump hplace' hbranch hcall htaken hsymbol haddend htarget',
      hstay hbranch (h.goto rfl)⟩
  | call hat hcall hsymbol haddend htarget hpush =>
    rw [hplace] at hat
    cases hat
    have htarget' : q.target _ = some (φ _) := (hmapped.target _).trans (by rw [htarget]; rfl)
    obtain ⟨vm', hpush', hclose⟩ := h.close.push hpush (q.returnAddress t.position)
    have hsp := hclose.sp
    refine ⟨_, .call hplace' hcall hsymbol haddend htarget' hpush', hstay (by rw [hcall]; rfl) ?_⟩
    refine ⟨rfl, ?_, ?_, ?_⟩
    · show (vm'.cpu.sp, t.position) :: t.frames = _
      rw [hsp, h.position, h.frames]
      rfl
    · show t.hidden ∪ {x | InRange vm'.cpu.sp 8 x} = _
      rw [hsp, h.hidden]
    · refine hclose.mono ?_ (fun _ hr => hr) id
      obtain ⟨memory, -, -, rfl, hmoved⟩ := push_eq_ok hpush
      rintro x ((hx | ⟨hlow, hhigh⟩) | hrange)
      · exact .inl (.inl hx)
      · by_cases hlt : x.toNat < (s.vm.cpu.sp - 8).toNat
        · exact .inr ⟨hlow, hlt⟩
        · exact .inl (.inr ⟨not_lt.mp hlt, by dsimp only; omega⟩)
      · exact .inl (.inr hrange)
  | @ret _ callAt frames _ _ hat hret hsymbol hframes hintact hpop =>
    rw [hplace] at hat
    cases hat
    obtain ⟨value', vm', hpop', hclose⟩ := h.close.pop hpop
    have hframes' : t.frames = (t.vm.cpu.sp, φ callAt) :: frames.map fun f => (f.1, φ f.2) := by
      rw [h.frames, hframes, h.close.sp]
      rfl
    have hintact' : ∀ x, InRange t.vm.cpu.sp 8 x → x ∈ t.hidden := by
      rw [h.close.sp, h.hidden]
      exact hintact
    obtain ⟨i, hi, hcall⟩ :=
      hinv.frames (s.vm.cpu.sp, callAt) (by rw [hframes]; exact List.mem_cons_self)
    refine ⟨_, .ret hplace' hret hsymbol hframes' hintact' hpop', hstay (by rw [hret]; rfl) ?_⟩
    refine ⟨(hmapped.call _ i hi hcall).symm, rfl, ?_, ?_⟩
    · show {x | x ∈ t.hidden ∧ ¬InRange t.vm.cpu.sp 8 x} = _
      rw [h.close.sp, h.hidden]
    · refine hclose.mono ?_ (fun _ hr => hr) id
      have hlow := hinv.stack.low
      have hlimit : s.vm.stackLimit.toNat = kStackTop.toNat - kStackSize.toNat := by
        rw [hinv.stack.limit]
        rfl
      obtain ⟨-, -, rfl, hmoved⟩ := pop_eq_ok hpop
      rintro x (hx | ⟨hle, hlt⟩)
      · by_cases hrange : InRange s.vm.cpu.sp 8 x
        · exact .inr ⟨by rw [hlimit]; exact hlow.trans hrange.1, by rw [hmoved]; exact hrange.2⟩
        · exact .inl ⟨hx, hrange⟩
      · exact .inr ⟨hle, by rw [hmoved]; omega⟩

end

/-! ### Sections that mean the same -/

/-- A machine that starts to execute at a position. -/
def State.enter (vm : VirtualMachine) (position : ℕ) : State := { position, vm }

/-- Every run of the first section that halts is matched by one of the second that halts with the
same result, after no more instructions. -/
def Refines (p q : Program) (φ : ℕ → ℕ) (entry : ℕ → Prop) : Prop :=
  ∀ vm i, StackInvariant vm → entry i → ∀ n f, (meaning p).Halts (.enter vm i) n f →
    ∃ m ≤ n, ∃ g, (meaning q).Halts (.enter vm (φ i)) m g ∧ SameResult f.vm g.vm

theorem Refines.trans {p q r : Program} {φ ψ : ℕ → ℕ} {entry entry' : ℕ → Prop}
    (h : Refines p q φ entry) (h' : Refines q r ψ entry') (hentry : ∀ i, entry i → entry' (φ i)) :
    Refines p r (ψ ∘ φ) entry := by
  intro vm i hstack hi n f hrun
  obtain ⟨m, hm, g, hrun', hsame⟩ := h vm i hstack hi n f hrun
  obtain ⟨k, hk, e, hrun'', hsame'⟩ := h' vm (φ i) hstack (hentry i hi) m g hrun'
  exact ⟨k, hk.trans hm, e, hrun'', hsame.trans hsame'⟩

theorem Refines.congr {p q : Program} {φ ψ : ℕ → ℕ} {entry : ℕ → Prop} (h : Refines p q φ entry)
    (hsame : ∀ i, entry i → φ i = ψ i) : Refines p q ψ entry := by
  intro vm i hstack hi n f hrun
  rw [← hsame i hi]
  exact h vm i hstack hi n f hrun

section

variable {p q : Program} {φ : ℕ → ℕ} {entry : ℕ → Prop}

theorem invariant_enter (p : Program) {vm : VirtualMachine} (h : StackInvariant vm) (i : ℕ) :
    Invariant p (.enter vm i) where
  stack := h
  hidden _ hx := absurd hx (Set.notMem_empty _)
  frames _ hf := absurd hf List.not_mem_nil

theorem linked_enter (φ : ℕ → ℕ) (live : Set (Fin 16)) (flags : Prop)
    (vm : VirtualMachine) (i : ℕ) :
    Linked φ live flags (.enter vm i) (.enter vm (φ i)) := ⟨rfl, rfl, rfl, .refl _ _ _ _⟩

/-- Machines that agree on all registers have the same result. -/
theorem Linked.sameResult {live : Set (Fin 16)} {flags : Prop} {s t : State}
    (h : Linked φ live flags s t) (hall : ∀ r, r ∈ live) : SameResult s.vm t.vm where
  registers := (h.close.registers_eq hall).symm
  sp := h.close.sp.symm
  exitCode := by rw [h.close.frame]
  output := by rw [h.close.frame]

/-- A relation that every move keeps, up to moves of the second section, and under which the results
of machines that halt are the same. -/
theorem refines_of_simulates {R : State → State → Prop}
    (hstart : ∀ vm i, StackInvariant vm → entry i → R (.enter vm i) (.enter vm (φ i)))
    (hmove : ∀ s t c s', R s t → s.vm.cpu.halted = false → Move p s c s' →
      ∃ d ≤ c, ∃ t', (meaning q).Reaches t d t' ∧ R s' t')
    (hfinal : ∀ s t, R s t → s.vm.cpu.halted = true →
      t.vm.cpu.halted = true ∧ SameResult s.vm t.vm) : Refines p q φ entry := by
  have hsimulates : Simulation.System.Simulates (meaning p) (meaning q) R :=
    { move := fun s t c s' hst hrun => hmove s t c s' hst (Bool.eq_false_iff.mpr hrun)
      final := fun s t hst hhalt => (hfinal s t hst hhalt).1 }
  intro vm i hstack hi n f hrun
  obtain ⟨m, hm, g, hrun', hrel⟩ := hsimulates.halts hrun (hstart vm i hstack hi)
  exact ⟨m, hm, g, hrun', (hfinal f g hrel hrun.2).2⟩

/-- The machines agree on everything that is specified. -/
abbrev Same (φ : ℕ → ℕ) : State → State → Prop := Linked φ Set.univ True

variable {s t s' : State} {c : ℕ}

/-- An instruction that both sections have at corresponding positions. -/
theorem same_kept {instruction : Instruction} (hmapped : Mapped p q φ) (hinv : Invariant p s)
    (h : Same φ s t) (hplace : p.place s.position = .run instruction)
    (hplace' : q.place (φ s.position) = .run instruction)
    (hnext : φ (s.position + 1) = φ s.position + 1) (hmove : Move p s c s') :
    ∃ t', Move q t c t' ∧ Same φ s' t' := by
  obtain ⟨t', hmove', h'⟩ := move_kept hmapped hinv h hplace hplace' hnext (fun _ _ => trivial)
    (fun _ _ => trivial) (fun _ => trivial) hmove
  exact ⟨t', hmove', h'.mono (fun _ _ => .inl trivial) fun _ => .inl trivial⟩

/-- The place of a position from which there is a move. -/
theorem Move.place_ne_stop (h : Move p s c s') : p.place s.position ≠ .stop := by
  intro hstop
  cases h with
  | skip h => exact Place.noConfusion (h.symm.trans hstop)
  | plain h => exact Place.noConfusion (h.symm.trans hstop)
  | fall h => exact Place.noConfusion (h.symm.trans hstop)
  | jump h => exact Place.noConfusion (h.symm.trans hstop)
  | call h => exact Place.noConfusion (h.symm.trans hstop)
  | ret h => exact Place.noConfusion (h.symm.trans hstop)

/-- A move from a place with nothing to execute. -/
theorem Move.eq_of_skip (h : Move p s c s') (hskip : p.place s.position = .skip) :
    c = 0 ∧ s' = s.goto (s.position + 1) := by
  cases h with
  | skip => exact ⟨rfl, rfl⟩
  | plain h => exact Place.noConfusion (h.symm.trans hskip)
  | fall h => exact Place.noConfusion (h.symm.trans hskip)
  | jump h => exact Place.noConfusion (h.symm.trans hskip)
  | call h => exact Place.noConfusion (h.symm.trans hskip)
  | ret h => exact Place.noConfusion (h.symm.trans hskip)

/-- A move of an instruction that is no branch. -/
theorem Move.eq_of_plain {instruction : Instruction} (h : Move p s c s')
    (hplace : p.place s.position = .run instruction)
    (hbranch : isBranch instruction.machine.opcode = false) :
    c = 1 ∧ (instruction.isSymbolic = true → takesSymbol instruction.machine.opcode = true) ∧
      s.Specified (p.resolve instruction) ∧
      ∃ vm, s.vm.execute (p.resolve instruction) 0 = (.ok (), vm) ∧
        s' = { s with
          position := s.position + 1
          vm
          hidden := {x | x ∈ s.hidden ∧ ¬s.vm.stores (p.resolve instruction) x} } := by
  cases h with
  | skip hat => exact Place.noConfusion (hplace.symm.trans hat)
  | plain hat _ hsymbol hspecified hexecute =>
    rw [hplace] at hat
    cases hat
    exact ⟨rfl, hsymbol, hspecified, _, hexecute, rfl⟩
  | fall hat hbranch' =>
    rw [hplace] at hat
    cases hat
    exact absurd (hbranch.symm.trans hbranch') Bool.false_ne_true
  | jump hat hbranch' =>
    rw [hplace] at hat
    cases hat
    exact absurd (hbranch.symm.trans hbranch') Bool.false_ne_true
  | call hat hcall =>
    rw [hplace] at hat
    cases hat
    rw [hcall] at hbranch
    cases hbranch
  | ret hat hret =>
    rw [hplace] at hat
    cases hat
    rw [hret] at hbranch
    cases hbranch

/-- What takes no symbol has none. -/
theorem resolve_of_takesSymbol (p : Program) (instruction : Instruction)
    (hsymbol : instruction.isSymbolic = true → takesSymbol instruction.machine.opcode = true)
    (hnone : takesSymbol instruction.machine.opcode = false) :
    instruction.isSymbolic = false ∧ p.resolve instruction = instruction.machine := by
  have hnot : instruction.isSymbolic = false := by
    by_contra hyes
    exact Bool.false_ne_true (hnone.symm.trans (hsymbol (Bool.eq_true_of_not_eq_false hyes)))
  exact ⟨hnot, p.resolve_of_not_symbolic hnot⟩

theorem Move.reaches (hrun : t.vm.cpu.halted = false) (h : Move q t c s') :
    (meaning q).Reaches t c s' := .single (Bool.eq_false_iff.mp hrun) h

/-- A position where both sections have the same. -/
theorem same_of_place (hmapped : Mapped p q id) (hinv : Invariant p s) (h : Same id s t)
    (hrun : s.vm.cpu.halted = false) (hplace : q.place s.position = p.place s.position)
    (hmove : Move p s c s') : ∃ d ≤ c, ∃ t', (meaning q).Reaches t d t' ∧ Same id s' t' := by
  have hrun' : t.vm.cpu.halted = false := h.close.halted.trans hrun
  have hposition : t.position = s.position := h.position
  cases hat : p.place s.position with
  | stop => exact absurd hat hmove.place_ne_stop
  | skip =>
    obtain ⟨rfl, rfl⟩ := hmove.eq_of_skip hat
    have hskip : Move q t 0 (t.goto (t.position + 1)) :=
      .skip (by rw [hposition, hplace, hat])
    exact ⟨0, le_rfl, _, hskip.reaches hrun', h.goto (by rw [hposition]; rfl)⟩
  | run instruction =>
    obtain ⟨t', hmove', h'⟩ := same_kept hmapped hinv h hat (hplace.trans hat) rfl hmove
    exact ⟨c, le_rfl, t', hmove'.reaches hrun', h'⟩

/-- Positions at which the second section has nothing to execute. -/
theorem reaches_of_skips (hrun : t.vm.cpu.halted = false) {i : ℕ} (hle : t.position ≤ i)
    (hskips : ∀ k, t.position ≤ k → k < i → q.place k = .skip) :
    (meaning q).Reaches t 0 (t.goto i) := by
  induction i with
  | zero =>
    have hposition : t.position = 0 := Nat.le_zero.mp hle
    rw [show t.goto 0 = t by rw [← hposition]; rfl]
    exact .refl t
  | succ i ih =>
    rcases Nat.lt_or_ge i t.position with hlt | hge
    · have hposition : t.position = i + 1 := by omega
      rw [show t.goto (i + 1) = t by rw [← hposition]; rfl]
      exact .refl t
    · have hbefore := ih hge fun k hk hki => hskips k hk (by omega)
      have hlast : Move q (t.goto i) 0 (t.goto (i + 1)) := .skip (hskips i hge (by omega))
      exact hbefore.trans (hlast.reaches hrun)

end

end Optimizer
end MiniTool
