import MiniToolchain.Optimizer.Machine
import MiniToolchain.Vm.Monitored

/-!
# A section means what the machine does

The converse of `step_of_move`: what the machine does when it runs the code of a section, and looks
at no address, is a run of the section.

## Main definitions

* `Confined` — a section whose branches go to its own labels.
* `Tracks` — a run of a section that stands where a monitored machine stands.

## Main results

* `Tracks.step` — a step of the machine is a move of the section.
* `halts_of_monitored` — a monitored run that halts is a run of the section that halts.
-/

namespace MiniTool
namespace Optimizer

open Ir Vm Vm.VirtualMemory Vm.VirtualMachine

/-- Every branch goes to a label of the section, and what else has a symbol takes its address. -/
structure Confined (p : Program) : Prop where
  branch : ∀ i instruction, p.place i = .run instruction →
    isBranch instruction.machine.opcode = true → instruction.machine.opcode ≠ .RET → ∃ reference t,
      instruction.symbol = some reference ∧ reference.addend = 0 ∧ p.target reference.name = some t
  ret : ∀ i instruction, p.place i = .run instruction → instruction.machine.opcode = .RET →
    instruction.symbol = none
  plain : ∀ i instruction, p.place i = .run instruction →
    isBranch instruction.machine.opcode = false → instruction.isSymbolic = true →
      takesSymbol instruction.machine.opcode = true
  /-- The section ends. -/
  stop : ∃ n, ∀ i, n ≤ i → p.place i = .stop

/-- A run of a section stands where a monitored machine stands, with the same calls open. -/
structure Tracks (p : Program) (address : ℕ → UInt64) (code : VirtualMemory) (s : State)
    (w : Monitored) : Prop where
  shows : Shows p address code s w.vm
  apart : Apart code s.vm.memory w.vm.memory
  calls : w.calls = s.frames.map Prod.fst
  hidden : w.hidden = s.hidden

/-- What is data stays data. -/
theorem apart_of_shapes {code m m' n n' : VirtualMemory} (h : Apart code m m')
    (hextends : Extends code n n') (hshapes : n'.shapes = m'.shapes) : Apart code n n' where
  toExtends := hextends
  exec := h.exec
  readOnly := h.readOnly
  data r hr := by
    have hsame : n.regions.map Region.shape = m.regions.map Region.shape := by
      have hboth : n'.regions.map Region.shape = m'.regions.map Region.shape := hshapes
      rw [hextends.regions, h.regions, List.map_append, List.map_append] at hboth
      exact List.append_cancel_left hboth
    obtain ⟨r', hr', hshape⟩ := List.mem_map.mp (hsame ▸ List.mem_map_of_mem (f := Region.shape) hr)
    have hpermissions : r'.permissions = r.permissions := congrArg (fun s => s.2.2.2) hshape
    rw [← hpermissions]
    exact h.data r' hr'

/-- An address has one instruction. -/
theorem fetches_unique {code : VirtualMemory} {address : UInt64} {a b : Isa.Instruction}
    (ha : Fetches code address a) (hb : Fetches code address b) : a = b := by
  obtain ⟨-, word, hword, hdecode⟩ := ha
  obtain ⟨-, word', hword', hdecode'⟩ := hb
  rw [hword] at hword'
  cases hword'
  rw [hdecode] at hdecode'
  cases hdecode'
  rfl

/-- A call that succeeds has pushed the return address. -/
theorem push_of_execute {vm after : VirtualMachine} {machine : Isa.Instruction} {pc : UInt64}
    (hop : machine.opcode = .CALL) (h : vm.execute machine pc = (.ok (), after)) :
    ∃ vm', vm.push vm.cpu.pc pc = (.ok (), vm') := by
  have hvalid := validRegisters_of_execute_ok (by rw [h] : (vm.execute machine pc).1 = .ok ())
  unfold execute at h
  rw [hvalid.1, hvalid.2, if_neg (by decide), hop] at h
  dsimp only at h
  rcases push_cases vm vm.cpu.pc pc with ⟨fault, hpush⟩ | ⟨memory, -, -, hpush⟩
  · rw [hpush] at h
    cases h
  · exact ⟨_, hpush⟩

/-- A return that succeeds has popped an address. -/
theorem pop_of_execute {vm after : VirtualMachine} {machine : Isa.Instruction} {pc : UInt64}
    (hop : machine.opcode = .RET) (h : vm.execute machine pc = (.ok (), after)) :
    ∃ value vm', vm.pop pc = (.ok value, vm') := by
  have hvalid := validRegisters_of_execute_ok (by rw [h] : (vm.execute machine pc).1 = .ok ())
  unfold execute at h
  rw [hvalid.1, hvalid.2, if_neg (by decide), hop] at h
  dsimp only at h
  rcases pop_cases vm pc with ⟨fault, hpop⟩ | ⟨value, -, -, hpop⟩
  · rw [hpop] at h
    cases h
  · exact ⟨_, _, hpop⟩

section

variable {p : Program} {address : ℕ → UInt64} {code : VirtualMemory} {s : State} {w w' : Monitored}

/-- The next item that is no label, or the end. -/
theorem exists_place (hconfined : Confined p) (hholds : Holds p address code)
    (hrun : s.vm.cpu.halted = false) : ∃ j, (meaning p).Reaches s 0 (s.goto j) ∧
      address j = address s.position ∧ p.place j ≠ .skip := by
  obtain ⟨n, hstop⟩ := hconfined.stop
  have hsearch : ∀ k (s : State), n ≤ s.position + k → s.vm.cpu.halted = false →
      ∃ j, (meaning p).Reaches s 0 (s.goto j) ∧ address j = address s.position ∧
        p.place j ≠ .skip := by
    intro k
    induction k with
    | zero =>
      intro s hn _
      refine ⟨s.position, .refl s, rfl, fun hskip => ?_⟩
      rw [hstop s.position hn] at hskip
      cases hskip
    | succ k ih =>
      intro s hn hrun
      by_cases hplace : p.place s.position = .skip
      · obtain ⟨j, hreaches, haddress, hj⟩ := ih (s.goto (s.position + 1))
          (by show n ≤ s.position + 1 + k; omega) hrun
        refine ⟨j, ?_, haddress.trans (hholds.skip _ hplace), hj⟩
        exact .step (Bool.eq_false_iff.mp hrun) (Move.skip hplace) hreaches
      · exact ⟨s.position, .refl s, rfl, hplace⟩
  exact hsearch n s (Nat.le_add_left _ _) hrun

/-- A move of the section that the machine makes as well. -/
theorem Tracks.of_move (h : Tracks p address code s w) (hholds : Holds p address code)
    (hinv : Invariant p s) (hrun : s.vm.cpu.halted = false) {s' : State} (hmove : Move p s 1 s')
    (hstep : w.vm.step = (.ok (), w'.vm)) (hcalls : w'.vm.cpu.sp = s'.vm.cpu.sp →
      w'.calls = s'.frames.map Prod.fst ∧ w'.hidden = s'.hidden) : Tracks p address code s' w' := by
  rcases step_of_move hholds hinv h.shows hrun hmove with ⟨hzero, -⟩ | ⟨-, vm', hstep', hshows, -⟩
  · cases hzero
  · rw [hstep] at hstep'
    obtain rfl : w'.vm = vm' := (Prod.mk.inj hstep').2
    have hsp : w'.vm.cpu.sp = s'.vm.cpu.sp := by
      obtain ⟨memory, count, hvm, -⟩ := hshows.beside
      rw [hvm]
      rfl
    obtain ⟨hframes, hhidden⟩ := hcalls hsp
    have hextends : Extends code s'.vm.memory w'.vm.memory := by
      obtain ⟨memory, count, hvm, hmemory⟩ := hshows.beside
      rw [hvm]
      exact hmemory
    refine ⟨hshows, apart_of_shapes h.apart hextends ?_, hframes, hhidden⟩
    have hchange := change_of_step w.vm
    rw [hstep] at hchange
    exact hchange.shapes_eq

/-- A step at an item that is no label. -/
theorem Tracks.move (h : Tracks p address code s w) (hconfined : Confined p)
    (hholds : Holds p address code)
    (hstops : ∀ i machine, p.place i = .stop → ¬Fetches code (address i) machine)
    (hinv : Invariant p s) (hrun : s.vm.cpu.halted = false) (hskip : p.place s.position ≠ .skip)
    (hstep : w.Step w') : ∃ s', Move p s 1 s' ∧ Tracks p address code s' w' := by
  have hpc : w.vm.cpu.pc = address s.position := by
    obtain ⟨memory, count, hvm, -⟩ := h.shows.beside
    rw [hvm]
    rfl
  have hfetched : ∀ machine, w.vm.fetch = .ok machine → ∃ instruction,
      p.place s.position = .run instruction ∧ Encodes p address s.position instruction machine := by
    intro machine hfetch
    have hfetches := fetches_of_apart h.apart hfetch
    rw [hpc] at hfetches
    cases hplace : p.place s.position with
    | skip => exact absurd hplace hskip
    | stop => exact absurd hfetches (hstops _ _ hplace)
    | run instruction =>
      obtain ⟨machine', hfetches', hencodes⟩ := hholds.fetches _ _ hplace
      rw [fetches_unique hfetches hfetches']
      exact ⟨instruction, rfl, hencodes⟩
  have hexecutes : ∀ machine vm', w.vm.fetch = .ok machine → w.vm.step = (.ok (), vm') →
      ∀ instruction, p.place s.position = .run instruction →
      (s.vm.beside w.vm.memory (address (s.position + 1)) (w.vm.cpu.instructionCount + 1)).execute
        machine (address s.position) = (.ok (), vm') := by
    intro machine vm' hfetch hok instruction hplace
    have hrun' : w.vm.cpu.halted = false := h.shows.halted.trans hrun
    have hloaded : w.vm.loaded = true := by
      obtain ⟨memory, count, hvm, -⟩ := h.shows.beside
      rw [hvm]
      exact h.shows.loaded
    rw [step_of_fetch hloaded hrun' hfetch, hpc] at hok
    rw [← hok, hholds.next _ _ hplace]
    obtain ⟨memory, count, hvm, -⟩ := h.shows.beside
    rw [hvm]
    rfl
  have hsame : ∃ memory count, w.vm = s.vm.beside memory (address s.position) count := by
    obtain ⟨memory, count, hvm, -⟩ := h.shows.beside
    exact ⟨memory, count, hvm⟩
  cases hstep with
  | @plain machine vm hfetch hbranch hallows hok =>
    obtain ⟨instruction, hplace, hencodes⟩ := hfetched machine hfetch
    have hbranch' : isBranch instruction.machine.opcode = false := by
      rw [← hencodes.opcode]
      exact hbranch
    obtain rfl := hencodes.plain hbranch'
    obtain ⟨hvalid, hdoes⟩ := (execute_eq_ok hbranch).mp (hexecutes _ _ hfetch hok _ hplace)
    have hreads : ∀ x, w.vm.loads (p.resolve instruction) x ↔
        s.vm.loads (p.resolve instruction) x := by
      obtain ⟨memory, count, hvm⟩ := hsame
      intro x
      rw [hvm]
      exact Iff.rfl
    have hsp : w.vm.cpu.sp = s.vm.cpu.sp ∧ w.vm.stackLimit = s.vm.stackLimit := by
      obtain ⟨memory, count, hvm⟩ := hsame
      rw [hvm]
      exact ⟨rfl, rfl⟩
    obtain ⟨after, hafter⟩ := hdoes.data h.apart hinv.stack
      fun x hx => hallows.code x ((hreads x).mpr hx)
    have hspecified : s.Specified (p.resolve instruction) := by
      refine ⟨fun x hx hun => ?_, fun hop x hx => ?_⟩
      · have hx' := (hreads x).mpr hx
        rcases hun with hun | hun
        · exact hallows.hidden x hx' (by rw [h.hidden]; exact hun)
        · exact hallows.stack x hx' (by rw [hsp.1, hsp.2]; exact hun)
      · rw [← h.hidden]
        exact hallows.pop hop x (by rw [hsp.1]; exact hx)
    have hmove := Move.plain hplace hbranch' (hconfined.plain _ _ hplace hbranch') hspecified
      ((execute_eq_ok hbranch).mpr ⟨hvalid, hafter⟩)
    refine ⟨_, hmove, h.of_move hholds hinv hrun hmove hok fun _ => ⟨h.calls, ?_⟩⟩
    have hwrites : ∀ x, w.vm.stores (p.resolve instruction) x ↔
        s.vm.stores (p.resolve instruction) x := by
      obtain ⟨memory, count, hvm⟩ := hsame
      intro x
      rw [hvm]
      exact Iff.rfl
    simp only [hwrites, h.hidden]
  | @jump machine vm hfetch hbranch hcall hret hok =>
    obtain ⟨instruction, hplace, hencodes⟩ := hfetched machine hfetch
    rw [hencodes.opcode] at hbranch hcall hret
    obtain ⟨reference, t, hsymbol, haddend, htarget⟩ := hconfined.branch _ _ hplace hbranch hret
    cases htaken : Isa.branchTaken instruction.machine.opcode s.vm.cpu.flags with
    | true =>
      have hmove := Move.jump hplace hbranch hcall htaken hsymbol haddend htarget
      exact ⟨_, hmove, h.of_move hholds hinv hrun hmove hok fun _ => ⟨h.calls, h.hidden⟩⟩
    | false =>
      have hmove := Move.fall hplace hbranch hret htaken
      exact ⟨_, hmove, h.of_move hholds hinv hrun hmove hok fun _ => ⟨h.calls, h.hidden⟩⟩
  | @call machine vm hfetch hcall hok =>
    obtain ⟨instruction, hplace, hencodes⟩ := hfetched machine hfetch
    have hexecute := hexecutes _ _ hfetch hok _ hplace
    obtain ⟨pushed, hpush⟩ := push_of_execute hcall hexecute
    obtain ⟨after, hafter⟩ := push_data h.apart hpush
    have hcall' : instruction.machine.opcode = .CALL := hencodes.opcode.symm.trans hcall
    obtain ⟨reference, t, hsymbol, haddend, htarget⟩ :=
      hconfined.branch _ _ hplace (by rw [hcall']; rfl)
        (by rw [hcall']; exact Isa.Opcode.noConfusion)
    have hvalue : (s.vm.beside w.vm.memory (address (s.position + 1))
        (w.vm.cpu.instructionCount + 1)).cpu.pc = p.returnAddress s.position :=
      (hholds.call _ _ hplace hcall').symm
    rw [hvalue] at hafter
    have hmove := Move.call hplace hcall' hsymbol haddend htarget hafter
    refine ⟨_, hmove, h.of_move hholds hinv hrun hmove hok fun hsp => ?_⟩
    dsimp only at hsp ⊢
    rw [hsp, h.calls, h.hidden]
    exact ⟨rfl, rfl⟩
  | @ret machine vm calls hfetch hret hcalls hintact hok =>
    obtain ⟨instruction, hplace, hencodes⟩ := hfetched machine hfetch
    obtain ⟨value, popped, hpop⟩ := pop_of_execute hret (hexecutes _ _ hfetch hok _ hplace)
    obtain ⟨after, hafter⟩ := pop_data h.apart hinv.stack hpop
    have hret' : instruction.machine.opcode = .RET := hencodes.opcode.symm.trans hret
    have hsp : w.vm.cpu.sp = s.vm.cpu.sp := by
      obtain ⟨memory, count, hvm⟩ := hsame
      rw [hvm]
      rfl
    rw [hsp] at hcalls hintact ⊢
    rw [h.calls] at hcalls
    obtain ⟨f, frames, hframes, hf, rfl⟩ := List.map_eq_cons_iff.mp hcalls
    have hmove := Move.ret hplace hret' (hconfined.ret _ _ hplace hret')
      (show s.frames = (s.vm.cpu.sp, f.2) :: frames by rw [hframes, ← hf])
      (fun x hx => by rw [← h.hidden]; exact hintact x hx) hafter
    refine ⟨_, hmove, h.of_move hholds hinv hrun hmove hok fun _ => ⟨rfl, ?_⟩⟩
    rw [h.hidden]

/-- **A step of the machine is a move of the section.** -/
theorem Tracks.step (h : Tracks p address code s w) (hconfined : Confined p)
    (hholds : Holds p address code)
    (hstops : ∀ i machine, p.place i = .stop → ¬Fetches code (address i) machine)
    (hinv : Invariant p s) (hrun : s.vm.cpu.halted = false) (hstep : w.Step w') :
    ∃ s', (meaning p).Reaches s 1 s' ∧ Tracks p address code s' w' := by
  obtain ⟨j, hreaches, haddress, hskip⟩ := exists_place hconfined hholds hrun
  -- the machine stands at the next item as well
  have hgoto : Tracks p address code (s.goto j) w := by
    obtain ⟨memory, count, hvm, hmemory⟩ := h.shows.beside
    refine ⟨⟨⟨memory, count, ?_, hmemory⟩, h.shows.loaded, h.shows.saved⟩, h.apart,
      h.calls, h.hidden⟩
    rw [hvm, ← haddress]
    rfl
  obtain ⟨s', hmove, htracks⟩ :=
    hgoto.move hconfined hholds hstops ⟨hinv.stack, hinv.hidden, hinv.frames⟩ hrun hskip hstep
  have hsingle : (meaning p).Reaches (s.goto j) 1 s' := .single (Bool.eq_false_iff.mp hrun) hmove
  have hboth := hreaches.trans hsingle
  rw [Nat.zero_add] at hboth
  exact ⟨s', hboth, htracks⟩

/-- **A monitored run that halts is a run of the section that halts.** -/
theorem halts_of_monitored (hconfined : Confined p) (hholds : Holds p address code)
    (hstops : ∀ i machine, p.place i = .stop → ¬Fetches code (address i) machine) {n : ℕ}
    (hhalts : Monitored.monitor.Halts w n w') (hinv : Invariant p s)
    (h : Tracks p address code s w) :
    ∃ s', (meaning p).Halts s n s' ∧ Tracks p address code s' w' := by
  obtain ⟨hreaches, hfinal⟩ := hhalts
  induction hreaches generalizing s with
  | refl w => exact ⟨s, ⟨.refl s, h.shows.halted.symm.trans hfinal⟩, h⟩
  | @step w w₁ w' c n hrun hmove hrest ih =>
    obtain ⟨rfl, hstep⟩ := hmove
    have hrun' : s.vm.cpu.halted = false := by
      rw [← h.shows.halted]
      exact Bool.eq_false_iff.mpr hrun
    obtain ⟨s₁, hreaches, htracks⟩ := h.step hconfined hholds hstops hinv hrun' hstep
    have hinv₁ : Invariant p s₁ :=
      hreaches.invariant (fun a c b ha _ hmove => invariant_move ha hmove) hinv
    obtain ⟨s', hhalts', htracks'⟩ := ih hinv₁ htracks hfinal
    exact ⟨s', .of_reaches hreaches hhalts', htracks'⟩

end

end Optimizer
end MiniTool
