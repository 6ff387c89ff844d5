import ForthJit.Proofs.Compiler.Fixups
import ForthJit.Proofs.Compiler.LaidOut
import ForthJit.Proofs.Machine.Effect
import ForthJit.Proofs.Machine.RoundTrip

/-!
# Frames are set up and removed

The frame pointer and the link register are saved in the sixteen bytes below the stack pointer of
the caller, and the slots are below that pair.  A body that keeps the pair, the frame pointer and
the stack pointer leaves through either exit with the registers of its caller.
-/

namespace ForthJit

open Instruction (applyAll)

namespace Frame

variable {frame : Frame} {setup teardown : List Instruction}

theorem size_create (leaf : Bool) (slots : Nat) :
    16 ∣ (create leaf slots).size ∧ slots * 8 ≤ (create leaf slots).size ∧
      (create leaf slots).size < slots * 8 + 16 := by
  simp only [create, nextMultiple]
  omega

/-- Setup is refused only if the size of the slots is no immediate. -/
theorem prologue_isOk (fits : frame.size < 2 ^ 64) : (∃ setup, frame.prologue = .ok setup) ↔
    frame.needed = false ∨ frame.size < 4096 ∨ 4096 ∣ frame.size ∧ frame.size < 2 ^ 24 := by
  have checked : Statement.Checked (Asm.subI .sp .sp (BitVec.ofNat 64 frame.size)) _ False :=
    (Statement.Checked.immediate12 _).map _
  rw [BitVec.toNat_ofNat, Nat.mod_eq_of_lt fits] at checked
  constructor
  · rintro ⟨setup, ok⟩
    rcases prologue_ok ok with ⟨unneeded, -⟩ | ⟨-, empty, -⟩ | ⟨-, -, reserve, reserved, -⟩
    · exact .inl unneeded
    · exact .inr (.inl (by omega))
    · refine .inr (by_contra fun out => ?_)
      obtain ⟨_, _, _, _, refused⟩ := checked.outOfRange out id
      cases reserved.symm.trans refused
  · intro encodable
    rw [prologue, stpPre_eq]
    split
    · next needed =>
      by_cases slots : 0 < frame.size
      · obtain ⟨reserve, reserved⟩ := checked.ok (encodable.resolve_left (by simp [needed]))
        exact ⟨[save, Asm.movSp .fp .sp, reserve], by simp [slots, reserved]; rfl⟩
      · exact ⟨[save, Asm.movSp .fp .sp], by simp [slots]⟩
    · exact ⟨[], rfl⟩

theorem epilogue_isOk (frame : Frame) : ∃ teardown, frame.epilogue = .ok teardown := by
  rw [epilogue, ldpPost_eq]
  split <;> exact ⟨_, rfl⟩

/-- Setup saves the pair, points the frame pointer at it and reserves the slots below. -/
theorem apply_setup (ok : frame.prologue = .ok setup) (needed : frame.needed = true) (m : Machine) :
    let base := m.regs .sp - 16
    (applyAll m setup).regs .sp = base - BitVec.ofNat 64 frame.size ∧
      (applyAll m setup).regs .fp = base ∧ (applyAll m setup).memory.load base = m.regs .fp ∧
      (applyAll m setup).memory.load (base + 8) = m.regs .lr := by
  intro base
  have moved : m.regs .sp + 8 * (-2 : BitVec 7).signExtend 64 = base := by
    rw [show 8 * (-2 : BitVec 7).signExtend 64 = -16 by decide, ← BitVec.sub_eq_add_neg]
  have opened : ∃ m1, applyAll m [save, Asm.movSp .fp .sp] = m1 ∧ m1.regs .sp = base ∧
      m1.regs .fp = base ∧ m1.memory.load base = m.regs .fp ∧
      m1.memory.load (base + 8) = m.regs .lr := by
    refine ⟨_, rfl, moved, (BitVec.add_zero _).trans moved, ?_, ?_⟩
    · show (((m.memory.store _ _).store _ _).load base) = _
      rw [moved, Memory.load_store_of_apart (fun n bound => by bv_omega), Memory.load_store]
      rfl
    · show (((m.memory.store _ _).store _ _).load (base + 8)) = _
      rw [moved, Memory.load_store]
      rfl
  obtain ⟨m1, opened, sp, fp, first, second⟩ := opened
  rcases prologue_ok ok with ⟨none, -⟩ | ⟨-, empty, rfl⟩ | ⟨-, -, reserve, reserved, rfl⟩
  · cases none.symm.trans needed
  · rw [opened, empty]
    exact ⟨by simpa using sp, fp, first, second⟩
  · obtain ⟨⟨imm, shifted⟩, checked, rfl⟩ := except_map_eq_ok.1 reserved
    have last : applyAll m [save, Asm.movSp .fp .sp, .subImm .sp .sp imm shifted] =
        m1.set .sp (base - BitVec.ofNat 64 frame.size) := by
      rw [← Asm.immediate12_ok checked, ← sp, ← opened]
      rfl
    rw [last]
    exact ⟨m1.regs_set _ _, (m1.regs_set_of_ne _ (by decide)).trans fp, first, second⟩

theorem apply_teardown (ok : frame.epilogue = .ok teardown) (needed : frame.needed = true)
    {m : Machine} (free : frame.size = 0 → m.regs .sp = m.regs .fp) :
    (applyAll m teardown).regs .sp = m.regs .fp + 16 ∧
      (applyAll m teardown).regs .fp = m.memory.load (m.regs .fp) ∧
      (applyAll m teardown).regs .lr = m.memory.load (m.regs .fp + 8) := by
  have reloads : ∀ m : Machine, (reload.apply m).regs .sp = m.regs .sp + 16 ∧
      (reload.apply m).regs .fp = m.memory.load (m.regs .sp) ∧
      (reload.apply m).regs .lr = m.memory.load (m.regs .sp + 8) := fun m => ⟨rfl, rfl, rfl⟩
  rcases epilogue_ok ok with ⟨none, -⟩ | ⟨-, empty, rfl⟩ | ⟨-, -, rfl⟩
  · cases none.symm.trans needed
  · exact free empty ▸ reloads m
  · have moved : ((Asm.movSp .sp .fp).apply m).regs .sp = m.regs .fp := BitVec.add_zero _
    exact moved ▸ reloads ((Asm.movSp .sp .fp).apply m)

/-- A body that keeps the frame pointer, the stack pointer and the saved pair, or the link register
if there is no frame, leaves with the registers of the caller once the frame is removed. -/
theorem restores (entered : frame.prologue = .ok setup) (left : frame.epilogue = .ok teardown)
    {m body : Machine} (fp : body.regs .fp = (applyAll m setup).regs .fp)
    (sp : body.regs .sp = (applyAll m setup).regs .sp)
    (lr : frame.needed = false → body.regs .lr = (applyAll m setup).regs .lr)
    (pair : ∀ n < 16, body.memory (m.regs .sp - 16 + BitVec.ofNat 64 n) =
      (applyAll m setup).memory (m.regs .sp - 16 + BitVec.ofNat 64 n)) :
    ∀ r ∈ [.sp, .fp, .lr], (applyAll body teardown).regs r = m.regs r := by
  cases needed : frame.needed with
  | false =>
    rcases prologue_ok entered with ⟨-, rfl⟩ | ⟨some, -⟩ | ⟨some, -⟩
    · rcases epilogue_ok left with ⟨-, rfl⟩ | ⟨some, -⟩ | ⟨some, -⟩
      · simpa using ⟨sp, fp, lr needed⟩
      all_goals cases some.symm.trans needed
    all_goals cases some.symm.trans needed
  | true =>
    obtain ⟨inside, base, first, second⟩ := apply_setup entered needed m
    obtain ⟨top, fp', lr'⟩ := apply_teardown left needed (m := body) fun empty => by
      rw [sp, fp, inside, base, empty, BitVec.ofNat_eq_ofNat, BitVec.sub_zero]
    rw [fp, base] at top fp' lr'
    have low : body.memory.load (m.regs .sp - 16) = m.regs .fp :=
      (Memory.bytes_congr fun n bound => pair n (by omega)).trans first
    have high : body.memory.load (m.regs .sp - 16 + 8) = m.regs .lr := by
      refine (Memory.bytes_congr fun n bound => ?_).trans second
      have := pair (8 + n) (by omega)
      rwa [BitVec.ofNat_add, ← BitVec.add_assoc] at this
    simpa using ⟨top.trans (BitVec.sub_add_cancel ..), fp'.trans low, lr'.trans high⟩

end Frame

/-- No register of the caller that a frame restores holds an error code. -/
theorem Convention.errorReg_ne (convention : Convention) {outputs : Nat}
    (few : outputs ≤ maxValues) : ∀ r ∈ [.sp, .fp, .lr], r ≠ convention.errorReg outputs := by
  cases convention with
  | stack => exact (by decide : ∀ r ∈ [Reg.sp, .fp, .lr], r ≠ .error)
  | register =>
    exact (by decide : ∀ outputs ≤ maxValues, ∀ r ∈ [Reg.sp, .fp, .lr], r ≠ .ofNat outputs)
      outputs few

theorem LayoutParts.apply_clear (m : Machine) (errorReg : Reg) (throws : Bool) :
    (applyAll m (clear errorReg throws)).memory = m.memory ∧
      ∀ r, r ≠ errorReg → (applyAll m (clear errorReg throws)).regs r = m.regs r := by
  cases throws with
  | false => exact ⟨rfl, fun _ _ => rfl⟩
  | true =>
    rw [show applyAll m (clear errorReg true) = _ from Instruction.apply_mov]
    exact ⟨Machine.memory_write, fun r other => Machine.regs_write_of_ne other⟩

namespace Emit

variable {settings : Settings} {d d' : Draft}

theorem emitAll_eq {is : List Instruction} (fits : d.heap.here + is.length ≤ d.heap.capacity) :
    emitAll is settings d = .ok () (d.stage (is.map Instruction.encode)) := by
  have staged : CodeHeap.emitAll (is.map Instruction.encode) d.heap = _ :=
    CodeHeap.emitAll_fits (.inr (by rwa [List.length_map]))
  simp only [emitAll, onHeap, staged]
  rfl

theorem emit_eq (i : Instruction) (fits : d.heap.here < d.heap.capacity) :
    emit i settings d = .ok d.heap.here (d.stage [i.encode]) := by
  have room : d.heap.staged.size < d.heap.capacity := fits
  simp [emit, emitWord, onHeap, CodeHeap.emit, room, Draft.stage, CodeHeap.stage, CodeHeap.here]

/-- The exits are put where the draft ends, exactly if there is room for them. -/
theorem emitExits_iff {frame : Frame} {errorReg : Reg} {throws : Bool} {teardown : List Instruction}
    (left : frame.epilogue = .ok teardown) {exits : Exits} :
    emitExits frame errorReg throws settings d = .ok exits d' ↔
      let clear := LayoutParts.clear errorReg throws
      let code := clear ++ teardown ++ [.ret]
      d.heap.here + code.length ≤ d.heap.capacity ∧
        exits = ⟨d.heap.here, d.heap.here + clear.length,
          d.heap.here + clear.length + teardown.length⟩ ∧
        d' = d.stage (code.map Instruction.encode) := by
  dsimp only
  constructor
  · intro ok
    obtain ⟨teardown', left', start, errorPath, ret, room, staged⟩ := emitExits_ok ok
    obtain rfl := Except.ok.inj (left.symm.trans left')
    rw [errorPath] at ret
    refine ⟨by simpa [staged] using room, ?_, staged⟩
    rw [← ret, ← errorPath, ← start]
  · rintro ⟨room, rfl, rfl⟩
    simp only [List.length_append, List.length_singleton] at room
    have first : emitAll (LayoutParts.clear errorReg throws) settings d = _ := emitAll_eq (by omega)
    have second : emitAll teardown settings _ = _ := emitAll_eq
      (d := d.stage ((LayoutParts.clear errorReg throws).map Instruction.encode))
      (by simpa using by omega)
    have third : emit .ret settings _ = _ := emit_eq .ret
      (d := (d.stage ((LayoutParts.clear errorReg throws).map Instruction.encode)).stage
        (teardown.map Instruction.encode)) (by simpa using by omega)
    refine bind_ok.2 ⟨_, _, rfl, bind_ok.2 ⟨_, _, first, bind_ok.2 ⟨_, _, rfl, bind_ok.2
      ⟨_, _, assembled_ok_iff.2 ⟨left, rfl⟩,
        bind_ok.2 ⟨_, _, second, bind_ok.2 ⟨_, _, third, ?_⟩⟩⟩⟩⟩⟩
    simp only [Draft.stage_stage, Draft.heap_stage, CodeHeap.here_stage, List.length_append,
      List.length_map, List.map_append, Nat.add_assoc]
    rfl

end Emit

/-- Frame setup has room in the reserved slots and is refused only for a size that is no immediate.
The slots are in the frame, below the saved pair.  The exits need only room, and both give the
caller its stack pointer, frame pointer and link register back, whatever the body did that kept the
saved pair. -/
theorem frames_restore_caller (leaf : Bool) (slots : Nat)
    (fits : (Frame.create leaf slots).size < 2 ^ 64) :
    let frame := Frame.create leaf slots
    (16 ∣ frame.size ∧ slots * 8 ≤ frame.size ∧ frame.size < slots * 8 + 16) ∧
    ((∃ setup, frame.prologue = .ok setup) ↔
      (leaf = true ∧ slots = 0) ∨ frame.size < 4096 ∨ 4096 ∣ frame.size ∧ frame.size < 2 ^ 24) ∧
    ∀ setup, frame.prologue = .ok setup → setup.length ≤ prologueSlots ∧
      (∀ m : Machine, ∀ n < slots,
        let below := m.regs .sp - 16 - ((applyAll m setup).regs .sp + BitVec.ofNat 64 (8 * n))
        8 ≤ below.toNat ∧ below.toNat ≤ frame.size) ∧
      ∀ (convention : Convention) (outputs : Nat) (throws : Bool), outputs ≤ maxValues →
        ∃ clear teardown : List Instruction,
          (∀ settings d exits d',
            Emit.emitExits frame (convention.errorReg outputs) throws settings d = .ok exits d' ↔
              let code := clear ++ teardown ++ [.ret]
              d.heap.here + code.length ≤ d.heap.capacity ∧
                exits = ⟨d.heap.here, d.heap.here + clear.length,
                  d.heap.here + clear.length + teardown.length⟩ ∧
                d' = d.stage (code.map Instruction.encode)) ∧
          ∀ m body : Machine, let inside := applyAll m setup
            body.regs .fp = inside.regs .fp → body.regs .sp = inside.regs .sp →
            (frame.needed = false → body.regs .lr = inside.regs .lr) →
            (∀ n < 16, body.memory (m.regs .sp - 16 + BitVec.ofNat 64 n) =
              inside.memory (m.regs .sp - 16 + BitVec.ofNat 64 n)) →
            ∀ code ∈ [clear ++ teardown, teardown], ∀ r ∈ [.sp, .fp, .lr],
              (applyAll body code).regs r = m.regs r := by
  intro frame
  obtain ⟨whole, enough, tight⟩ := Frame.size_create leaf slots
  have needed : frame.needed = false ↔ leaf = true ∧ slots = 0 := by simp [frame, Frame.create]
  refine ⟨⟨whole, enough, tight⟩, (Frame.prologue_isOk fits).trans (or_congr_left needed),
    fun setup entered => ⟨(Frame.prologue_isTrap entered).1, fun m n bound => ?_, ?_⟩⟩
  · have isNeeded : frame.needed = true := by
      by_contra unneeded
      have := (needed.1 (by simpa using unneeded)).2
      omega
    rw [(Frame.apply_setup entered isNeeded m).1]
    change slots * 8 ≤ frame.size at enough
    change frame.size < 2 ^ 64 at fits
    bv_omega
  · intro convention outputs throws few
    obtain ⟨teardown, left⟩ := frame.epilogue_isOk
    refine ⟨_, teardown, fun _ _ _ _ => Emit.emitExits_iff left, fun m body fp sp lr pair => ?_⟩
    have kept := Convention.errorReg_ne convention few
    refine List.forall_mem_cons.2
      ⟨?_, List.forall_mem_singleton.2 (Frame.restores entered left fp sp lr pair)⟩
    obtain ⟨memory, others⟩ := LayoutParts.apply_clear body (convention.errorReg outputs) throws
    rw [applyAll, List.foldl_append]
    exact Frame.restores entered left ((others _ (kept .fp (by decide))).trans fp)
      ((others _ (kept .sp (by decide))).trans sp)
      (fun unneeded => (others _ (kept .lr (by decide))).trans (lr unneeded))
      fun n bound => (congrFun memory _).trans (pair n bound)

/-- A frame of 4096 bytes, whose setup needs a shifted immediate, around an empty body that
throws. -/
theorem large_frame_restores_caller :
    let frame := Frame.create true 512
    let m : Machine :=
      ⟨fun r => r.code.setWidth 64 <<< 16, ⟨false, false, false, false⟩, fun _ => 0⟩
    let heap : CodeHeap :=
      ⟨⟨.spaced, 0, 0, [], {}⟩, 4, 0, 0, #[], #[], 0, .empty 0 0, .empty 0 0, .empty 0 0⟩
    let d : Draft := ⟨heap, ⟨0, "f", { inputs := 0, outputs := 1 }, 0, ⟨0, 0, 0, 0, 0⟩, [], [],
      .empty, 0, [], false, true, false, false, false, true⟩⟩
    ∃ setup exits d' clear teardown, frame.prologue = .ok setup ∧
      Emit.emitExits frame (Convention.register.errorReg 1) true {} d = .ok exits d' ∧
      d' = d.stage ((clear ++ teardown ++ [.ret]).map Instruction.encode) ∧
      ∀ r ∈ [.sp, .fp, .lr],
        (applyAll (applyAll m setup) (clear ++ teardown)).regs r = m.regs r := by
  intro frame m heap d
  obtain ⟨-, isOk, holds⟩ := frames_restore_caller true 512 (by decide)
  obtain ⟨setup, entered⟩ := isOk.2 (.inr (.inr (by decide)))
  have left : (success? (Emit.emitExits frame (Convention.register.errorReg 1) true {}) d).isSome =
      true := by decide +kernel
  obtain ⟨⟨exits, d'⟩, left⟩ := Option.isSome_iff_exists.1 left
  have left := success?_eq_some.1 left
  obtain ⟨clear, teardown, emitted, restored⟩ :=
    (holds setup entered).2.2 .register 1 true (by decide)
  exact ⟨setup, exits, d', clear, teardown, entered, left, ((emitted _ _ _ _).1 left).2.2,
    restored m _ rfl rfl (fun _ => rfl) (fun _ _ => rfl) _ List.mem_cons_self⟩

end ForthJit
