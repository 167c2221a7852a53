import MiniToolchain.Assembler.Encoding
import MiniToolchain.Assembler.Pipeline

/-!
# When the front end throws

Everything that is wrong with a file is reported.  What is thrown comes from the vectors that hold
the bytes of the sections, and from nothing else: a section is too long for a vector, or for the
memory.

## Main definitions

* `Lowers` — the module that the assembler gets for a file.

## Main results

* `exceeds_of_emit` — the second pass throws for a section that is too long.
* `assembleSource_throws` — so does the front end.
* `exists_throws` — and a section that is too long makes it throw.
-/

namespace MiniTool
namespace Assembler

open Object AssemblyContext Diag

section

variable {memory : ℕ} {m : Ir.Module} {diagnostics : DiagnosticEngine} {e : AssembleError}

/-- An item throws for the bytes up to its end. -/
theorem exceeds_of_emitItem {index : ℕ} {c : AssemblyContext} {bytes : List UInt8} {item : Ir.Item}
    (hlength : bytes.length ≤ capacity memory)
    (h : emitItem memory index (c, bytes) item = .error e) :
    Exceeds memory (item.advance bytes.length) e := by
  have happend : ∀ {added : List UInt8} {α : Type} {f : List UInt8 → Except AssembleError α},
      (append memory bytes added >>= f) = .error e → (∀ result, f result ≠ .error e) →
      Exceeds memory (bytes.length + added.length) e := by
    intro added α f h hf
    rcases Checked.bind_eq_error.mp h with h | ⟨result, -, h⟩
    · rcases Checked.bind_eq_error.mp h with h | ⟨_, -, h⟩
      · exact allocate_eq_error h
      · cases h
    · exact absurd h (hf result)
  have hfill : ∀ {count : ℕ} {value : UInt8} {α : Type} {f : List UInt8 → Except AssembleError α},
      (appendFill memory bytes count value >>= f) = .error e → (∀ result, f result ≠ .error e) →
      Exceeds memory (bytes.length + count) e := by
    intro count value α f h hf
    rcases Checked.bind_eq_error.mp h with h | ⟨result, -, h⟩
    · rcases Checked.bind_eq_error.mp h with h | ⟨_, -, h⟩
      · exact allocate_eq_error h
      · cases h
    · exact absurd h (hf result)
  unfold AssemblyContext.emitItem at h
  cases item with
  | label l => cases h
  | bytes b => exact happend h fun _ => nofun
  | space s => exact hfill h fun _ => nofun
  | symbolValue v => exact hfill h fun _ => nofun
  | align a =>
    have hsmall : bytes.length < 2 ^ 63 := (hlength.trans capacity_le).trans_lt (by decide)
    have htoNat : (UInt64.ofNat bytes.length).toNat = bytes.length :=
      UInt64.toNat_ofNat_of_lt' (hsmall.trans (by decide))
    have hup := @alignUp_toNat (UInt64.ofNat bytes.length) a.alignment
      (by rw [htoNat]; exact hsmall)
    rw [htoNat] at hup
    have hle := Ir.le_alignUp bytes.length a.alignment.toNat
    have hexceeds := hfill h fun _ => nofun
    rw [hup] at hexceeds
    refine hexceeds.mono ?_
    show bytes.length + (Ir.alignUp bytes.length a.alignment.toNat - bytes.length) ≤
      Ir.alignUp bytes.length a.alignment.toNat
    omega
  | instruction i =>
    unfold AssemblyContext.emitInstruction at h
    dsimp only at h
    split at h
    · exact happend h fun _ => nofun
    · next encoded hencode =>
      obtain ⟨w, -, rfl⟩ := (Isa.encodeInto_eq_ok List.length_replicate).mp hencode
      exact happend h fun _ => nofun

/-- The items of a section throw for the bytes up to their end. -/
theorem exceeds_of_emitItems {index : ℕ} {items : List Ir.Item} {c : AssemblyContext}
    {bytes : List UInt8} (hlength : bytes.length ≤ capacity memory)
    (h : items.foldlM (emitItem memory index) (c, bytes) = .error e) :
    Exceeds memory (Emission.endOf Ir.Item.advance bytes.length items) e := by
  induction items generalizing c bytes with
  | nil => cases h
  | cons item items ih =>
    rw [List.foldlM_cons] at h
    rw [Emission.endOf_cons]
    rcases Checked.bind_eq_error.mp h with h | ⟨⟨c₁, bytes₁⟩, hone, h⟩
    · exact (exceeds_of_emitItem hlength h).mono (Emission.le_endOf Ir.Item.le_advance _ _)
    · obtain ⟨hbytes, hlength₁⟩ := emitItem_bytes hlength hone
      have hadvance : bytes₁.length = item.advance bytes.length := by
        rw [hbytes, List.length_append, length_itemBytes]
      rw [← hadvance]
      exact ih hlength₁ h

/-- A section throws for its bytes. -/
theorem exceeds_of_emitSection {c : AssemblyContext} (hsized : Sized m c)
    {entry : Ir.Section × ℕ} (hentry : entry ∈ (orderedSections m).zipIdx)
    (hsize : endOf entry.1.items < 2 ^ 64) (h : c.emitSection memory entry = .error e) :
    Exceeds memory (endOf entry.1.items) e := by
  unfold AssemblyContext.emitSection at h
  rcases Checked.bind_eq_error.mp h with h | ⟨_, -, h⟩
  · rw [hsized entry.1 entry.2 hentry, UInt64.toNat_ofNat_of_lt' hsize] at h
    exact allocate_eq_error h
  · rcases Checked.bind_eq_error.mp h with h | ⟨_, -, h⟩
    · exact exceeds_of_emitItems (Nat.zero_le _) h
    · cases h

/-- Whatever is thrown is one of two exceptions. -/
theorem emit_error (c : AssemblyContext) (h : c.emit memory m = .error e) :
    e = .lengthError ∨ (e = .badAlloc ∧ memory < kMaxSize) := by
  by_contra hnone
  have hexceeds : ∀ {length : ℕ}, ¬Exceeds memory length e := by
    rintro length (⟨he, -⟩ | ⟨he, -, hsmall⟩)
    · exact hnone (.inl he)
    · exact hnone (.inr ⟨he, hsmall⟩)
  refine Checked.foldlM_ne_error (fun c entry hstep => ?_) _ c h
  unfold AssemblyContext.emitSection at hstep
  rcases Checked.bind_eq_error.mp hstep with hstep | ⟨_, -, hstep⟩
  · exact hexceeds (allocate_eq_error hstep)
  · rcases Checked.bind_eq_error.mp hstep with hstep | ⟨_, -, hstep⟩
    · exact hexceeds (exceeds_of_emitItems (Nat.zero_le _) hstep)
    · cases hstep

/-- **The second pass throws for a section** that is too long for a vector or for the memory. -/
theorem exceeds_of_emit (hzero : m.ZeroFilled)
    (h : (beforeEmit m diagnostics).emit memory m = .error e) :
    ∃ source ∈ orderedSections m, Exceeds memory (endOf source.items) e := by
  by_cases hsize : ∀ source ∈ orderedSections m, endOf source.items < 2 ^ 64
  · by_contra hnone
    push Not at hnone
    have hsource : ∀ entry ∈ (orderedSections m).zipIdx, entry.1 ∈ orderedSections m :=
      fun entry hentry => List.mem_of_getElem? (List.mem_zipIdx_iff_getElem?.mp hentry)
    refine Checked.foldlM_ne_error_of (p := Sized m) ?_ ?_ (sized_beforeEmit hsize) h
    · exact fun c entry c' hentry hsized hstep =>
        (proceeds_emitSection hsized hzero hentry hstep).2
    · exact fun c entry hentry hsized hstep => hnone _ (hsource entry hentry)
        (exceeds_of_emitSection hsized hentry (hsize _ (hsource entry hentry)) hstep)
  · -- a section whose size is no `u64` is too long for everything
    push Not at hsize
    obtain ⟨source, hsource, hlong⟩ := hsize
    have hmax : kMaxSize < 2 ^ 64 := by decide
    refine ⟨source, hsource, ?_⟩
    rcases emit_error _ h with rfl | ⟨rfl, hsmall⟩
    · exact .inl ⟨rfl, by omega⟩
    · exact .inr ⟨rfl, by omega, hsmall⟩

/-- **A section that is too long makes the second pass throw.** -/
theorem exists_emit_error (h : ∃ source ∈ orderedSections m, capacity memory < endOf source.items) :
    ∃ e, (beforeEmit m diagnostics).emit memory m = .error e := by
  obtain ⟨source, hsource, hlong⟩ := h
  cases hemit : (beforeEmit m diagnostics).emit memory m with
  | error e => exact ⟨e, rfl⟩
  | ok c => exact absurd (fits_of_emit hemit source hsource) (Nat.not_le.mpr hlong)

/-- What leaves the assembler as an exception left its second pass. -/
theorem emit_of_assemble (h : assemble memory m diagnostics = .error e)
    (he : ∀ message engine, e ≠ .failed message engine) :
    (beforeEmit m diagnostics).emit memory m = .error e := by
  unfold assemble at h
  rcases Checked.bind_eq_error.mp h with h | ⟨c, -, h⟩
  · exact h
  · split_ifs at h
    cases h
    exact absurd rfl (he _ _)

end

end Assembler

open Assembler AssemblyContext Diag

/-- The file is accepted and lowered, and this is the module that the assembler gets. -/
def Lowers (oob : ℕ → Bool) (sources : SourceManager) (file : FileId) (options : AssembleOptions)
    (m : Ir.Module) : Prop :=
  ∃ source program parser engine module engine', sources[file.toNat]? = some source ∧
    Parser.parse { tokens := Lexer.lexAll source.text file } = some (.ok program, parser) ∧
    Sema.analyze parser.diagnostics program = (true, engine) ∧
    Ir.lower program source.name engine = .ok (module, engine') ∧
    m = (Optimizer.run oob options.optLevel module).1

section

variable {oob : ℕ → Bool} {memory : ℕ} {sources : SourceManager} {file : FileId}
  {options : AssembleOptions} {m : Ir.Module}

theorem Lowers.zeroFilled (h : Lowers oob sources file options m) : m.ZeroFilled := by
  obtain ⟨source, program, parser, engine, module, engine', -, -, -, hlower, rfl⟩ := h
  exact zeroFilled_of_translated
    ⟨module, oob, options.optLevel, ⟨program, source.name, engine, engine', hlower⟩, rfl⟩

/-- The front end ends with a message, or gets to the assembler; lowering may throw before it. -/
theorem assembleSource_cases {result : Except PipelineError AssembleResult}
    {engine : DiagnosticEngine}
    (h : assembleSource oob memory sources file {} options = some (result, engine)) :
    (∃ message, result = .error (.message message)) ∨ result = .error .outOfRange ∨
      ∃ m diagnostics, Lowers oob sources file options m ∧
        (result = .error .lengthError → assemble memory m diagnostics = .error .lengthError) ∧
        (result = .error .badAlloc → assemble memory m diagnostics = .error .badAlloc) := by
  unfold assembleSource at h
  split at h
  · cases h
    exact .inl ⟨_, rfl⟩
  · next source hsource =>
    dsimp only at h
    split at h
    · cases h
    · cases h
      exact .inl ⟨_, rfl⟩
    · next program parser hparse =>
      replace h := Option.some.inj h
      unfold assembleProgram at h
      split at h
      · cases h
        exact .inl ⟨_, rfl⟩
      · next engine₁ hanalyze =>
        split at h
        · cases h
          exact .inr (.inl rfl)
        · cases h
          exact .inl ⟨_, rfl⟩
        · next module engine₂ hlower =>
          refine .inr (.inr ⟨_, engine₂,
            ⟨source, program, parser, engine₁, module, engine₂, hsource, hparse,
              hanalyze, hlower, rfl⟩,
            ?_⟩)
          unfold assembleModule at h
          dsimp only at h
          split at h
          · next hassemble =>
            cases h
            exact ⟨fun _ => hassemble, nofun⟩
          · next hassemble =>
            cases h
            exact ⟨nofun, fun _ => hassemble⟩
          · cases h
            exact ⟨nofun, nofun⟩
          · cases h
            exact ⟨nofun, nofun⟩

/-- **The front end throws for a section** that is too long for a vector or for the memory. -/
theorem assembleSource_throws {e : PipelineError} {engine : DiagnosticEngine}
    (h : assembleSource oob memory sources file {} options = some (.error e, engine)) :
    (e = .lengthError → ∃ m, Lowers oob sources file options m ∧
      ∃ source ∈ orderedSections m, kMaxSize < endOf source.items) ∧
    (e = .badAlloc → ∃ m, Lowers oob sources file options m ∧
      ∃ source ∈ orderedSections m, memory < endOf source.items) := by
  rcases assembleSource_cases h with ⟨message, hmessage⟩ | hrange | ⟨m, diagnostics, hlowers,
    hlength, hbad⟩
  · cases hmessage
    exact ⟨nofun, nofun⟩
  · cases hrange
    exact ⟨nofun, nofun⟩
  · refine ⟨?_, ?_⟩
    · rintro rfl
      obtain ⟨source, hsource, hexceeds⟩ :=
        exceeds_of_emit hlowers.zeroFilled (emit_of_assemble (hlength rfl) nofun)
      refine ⟨m, hlowers, source, hsource, ?_⟩
      rcases hexceeds with ⟨-, hmax⟩ | ⟨he, -⟩
      · exact hmax
      · cases he
    · rintro rfl
      obtain ⟨source, hsource, hexceeds⟩ :=
        exceeds_of_emit hlowers.zeroFilled (emit_of_assemble (hbad rfl) nofun)
      refine ⟨m, hlowers, source, hsource, ?_⟩
      rcases hexceeds with ⟨he, -⟩ | ⟨-, hmemory, -⟩
      · cases he
      · exact hmemory

/-- **A section that is too long makes the front end throw.** -/
theorem exists_throws (h : Lowers oob sources file options m)
    (hlong : ∃ source ∈ orderedSections m, capacity memory < endOf source.items) :
    ∃ e engine, assembleSource oob memory sources file {} options = some (.error e, engine) ∧
      (e = .lengthError ∨ e = .badAlloc) := by
  obtain ⟨source, program, parser, engine, module, engine', hsource, hparse, hanalyze,
    hlower, rfl⟩ := h
  unfold assembleSource
  rw [hsource]
  dsimp only
  rw [hparse]
  dsimp only
  unfold assembleProgram
  rw [hanalyze]
  dsimp only
  rw [hlower]
  dsimp only
  unfold assembleModule
  dsimp only
  obtain ⟨e, hemit⟩ := @exists_emit_error memory _ engine' hlong
  have hassemble : assemble memory (Optimizer.run oob options.optLevel module).1
      engine' = .error e :=
    Checked.bind_eq_error.mpr (.inl hemit)
  rw [hassemble]
  rcases emit_error _ hemit with rfl | ⟨rfl, -⟩
  · exact ⟨_, _, rfl, .inl rfl⟩
  · exact ⟨_, _, rfl, .inr rfl⟩

end

end MiniTool
