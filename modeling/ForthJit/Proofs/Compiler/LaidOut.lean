import ForthJit.Compiler.Layout
import ForthJit.Compiler.Transfer
import ForthJit.Proofs.Compiler.Emission
import ForthJit.Proofs.Machine.Final

/-!
# What laying out a word did

`Emit.LaidOut` describes a layout that succeeded: what was computed for it (`LayoutParts`), the
words that were staged after the body, and the patches that were made, in their order.
-/

namespace ForthJit

variable {start : Nat} {errorReg : Reg} {throws : Bool} {laid : Laid}

namespace CodeHeap

/-- `h` with patches made one after the other. -/
def replaceAll (h : CodeHeap) (patches : List (Nat × Instruction)) : CodeHeap :=
  patches.foldl (fun h patch => h.replace patch.1 patch.2.encode) h

theorem replaceAll_append (h : CodeHeap) (first second : List (Nat × Instruction)) :
    h.replaceAll (first ++ second) = (h.replaceAll first).replaceAll second :=
  List.foldl_append ..

@[simp] theorem here_replaceAll (h : CodeHeap) (patches : List (Nat × Instruction)) :
    (h.replaceAll patches).here = h.here := by
  induction patches generalizing h with
  | nil => rfl
  | cons first patches ih => exact (ih _).trans (Array.size_setIfInBounds ..)

/-- No placeholder survives exactly if all words are final. -/
theorem survivor?_eq_none_iff {h : CodeHeap} {stop : Nat} :
    h.survivor? start stop = none ↔
      ∀ i w, start ≤ i → i < stop → h.word? i = some w → Final w := by
  simp only [survivor?, List.findSome?_eq_none_iff, Prod.forall, List.mem_zipIdx_iff_getElem?,
    Array.getElem?_toList, CodeHeap.words, Array.getElem?_extract, Option.map_eq_none_iff]
  constructor
  · intro final i w low high at_i
    have bound := (Array.getElem?_eq_some_iff.1 at_i).1
    refine final w (i - start) ?_
    rw [if_pos (by omega), Nat.add_sub_cancel' low]
    exact at_i
  · intro final w n at_n
    split at at_n
    · exact final (start + n) w (Nat.le_add_right _ _) (by omega) at_n
    · cases at_n

/-- The words of a literal, low half first. -/
def literalWords (value : Cell) : List InstrWord :=
  [value.extractLsb' 0 32, value.extractLsb' 32 32]

theorem length_literalWords (values : List Cell) :
    (values.flatMap literalWords).length = 2 * values.length := by
  induction values with
  | nil => rfl
  | cons value values ih =>
    simp only [List.flatMap_cons, List.length_append, ih, List.length_cons, literalWords,
      List.length_nil]
    omega

end CodeHeap

/-- The error stubs of `regs` from position `here` on: where each of them is, and their words. -/
inductive Stubbed (errorReg : Reg) (errorPath : Nat) :
    (here : Nat) → (regs : List Reg) → List (Reg × Nat) → List InstrWord → Prop
  | nil (here : Nat) : Stubbed errorReg errorPath here [] [] []
  | cons {here : Nat} {reg : Reg} {regs : List Reg} {stubs : List (Reg × Nat)}
      {code : List InstrWord} {leave : Instruction} :
      Asm.b (distance (here + 1) errorPath) = .ok leave →
      Stubbed errorReg errorPath (here + 2) regs stubs code →
      Stubbed errorReg errorPath here (reg :: regs) ((reg, here) :: stubs)
        ([(Asm.mov errorReg reg).encode, leave.encode] ++ code)

theorem Stubbed.final {errorPath here : Nat} {regs : List Reg}
    {stubs : List (Reg × Nat)} {code : List InstrWord}
    (stubbed : Stubbed errorReg errorPath here regs stubs code) : ∀ w ∈ code, Final w := by
  induction stubbed with
  | nil => simp
  | cons jump _ ih =>
    intro w member
    rcases List.mem_append.1 member with own | later
    · simp only [List.mem_cons, List.not_mem_nil, or_false] at own
      rcases own with rfl | rfl
      · exact Instruction.encode_final rfl
      · exact Instruction.encode_final (Instruction.isTrap_of_map (fun _ => rfl) jump)
    · exact ih w later

/-- What is computed while a word is laid out. -/
structure LayoutParts where
  locals : Locals.Resolution
  /-- Frame setup and removal. -/
  setup : List Instruction
  teardown : List Instruction
  /-- The error stubs and where they are. -/
  stubs : List (Reg × Nat)
  stubCode : List InstrWord
  /-- Before the literals. -/
  padding : List Instruction
  /-- What becomes of the pending patches. -/
  pending : List (Nat × Instruction)

namespace LayoutParts

/-- What a word that throws does first when it leaves. -/
def clear (errorReg : Reg) (throws : Bool) : List Instruction :=
  if throws then [Asm.mov errorReg .xzr] else []

/-- The instructions of the normal exit. -/
def exitCode (p : LayoutParts) (errorReg : Reg) (throws : Bool) : List Instruction :=
  clear errorReg throws ++ p.teardown ++ [.ret]

def frame (p : LayoutParts) (w : Definition) : Frame := Frame.create w.leaf p.locals.slots

/-- Where the parts of a word are whose body ends at `here`. -/
def layout (p : LayoutParts) (w : Definition) (errorReg : Reg) (throws : Bool) (here : Nat) :
    WordLayout :=
  let errorPath := here + (clear errorReg throws).length
  let ret := errorPath + p.teardown.length
  let data := ret + 1
  let literals := data + p.stubCode.length + p.padding.length
  { start := w.start, entry := w.start + (prologueSlots - p.setup.length), body := w.body,
    epilogue := here, errorPath, ret, data, literals,
    stop := literals + 2 * (PendingPatch.literals w.patches).length }

def targets (p : LayoutParts) (w : Definition) (layout : WordLayout) (errorReg : Reg)
    (throws : Bool) : PatchTargets :=
  { entry := layout.entry, epilogue := layout.epilogue, errorPath := layout.errorPath, errorReg,
    stubs := p.stubs, literals := layout.literals
    checkRecursion := throws && w.signature.autoTry }

/-- The words from the end of the body up to the literals. -/
def trailer (p : LayoutParts) (errorReg : Reg) (throws : Bool) : List InstrWord :=
  (p.exitCode errorReg throws).map Instruction.encode ++ p.stubCode ++
    p.padding.map Instruction.encode

theorem literals_eq (p : LayoutParts) (w : Definition) (errorReg : Reg) (throws : Bool)
    (here : Nat) :
    (p.layout w errorReg throws here).literals = here + (p.trailer errorReg throws).length := by
  simp only [layout, trailer, exitCode, List.length_append, List.length_map, List.length_cons,
    List.length_nil]
  omega

/-- Patches for the reserved slots: `nop` first, then the frame setup. -/
def fill (p : LayoutParts) (start : Nat) : List (Nat × Instruction) :=
  (List.replicate (prologueSlots - p.setup.length) Instruction.nop ++ p.setup).zipIdx.map
    fun (i, n) => (start + n, i)

/-- All patches, in the order in which they are made. -/
def patches (p : LayoutParts) (start : Nat) : List (Nat × Instruction) :=
  p.fill start ++ p.pending ++ p.locals.patches

end LayoutParts

/-- The registers that homes must avoid. -/
def Definition.overwritten (w : Definition) (errorReg : Reg) (throws : Bool) : RegSet :=
  if throws then w.clobbered.insert errorReg else w.clobbered

/-- `d'` is the draft `d` after its word was laid out with the parts `p`. -/
structure Emit.LaidOut (throws : Bool) (errorReg : Reg) (d : Draft) (p : LayoutParts) (laid : Laid)
    (d' : Draft) : Prop where
  control : d.word.control = []
  balanced : d.word.unreachable = true ∨ d.word.depth = d.word.signature.outputs
  resolved : Locals.resolve (d.word.overwritten errorReg throws) d.word.locals = .ok p.locals
  setup : (p.frame d.word).prologue = .ok p.setup
  teardown : (p.frame d.word).epilogue = .ok p.teardown
  stubs : Stubbed errorReg laid.layout.errorPath laid.layout.data
    (PendingPatch.stubRegisters errorReg d.word.patches) p.stubs p.stubCode
  padding : ∀ i ∈ p.padding, i = .nop
  parity : PendingPatch.literals d.word.patches ≠ [] → laid.layout.literals % 2 = 0
  layout : laid.layout = p.layout d.word errorReg throws d.heap.here
  frameSize : laid.frameSize = (p.frame d.word).size
  clobbers : laid.clobbers = (d.word.overwritten errorReg throws).union p.locals.homes
  pending : PendingPatch.resolveFrom (p.targets d.word laid.layout errorReg throws) 0
    d.word.patches = .ok p.pending
  heap : d'.heap = (d.heap.stage (p.trailer errorReg throws ++
    (PendingPatch.literals d.word.patches).flatMap CodeHeap.literalWords)).replaceAll
      (p.patches d.word.start)
  word : d'.word = { d.word with patches := [] }

/-- The literals come last. -/
theorem Emit.LaidOut.here {d d' : Draft} {p : LayoutParts}
    (laidOut : Emit.LaidOut throws errorReg d p laid d') :
    d'.heap.here =
      laid.layout.literals + 2 * (PendingPatch.literals d.word.patches).length := by
  rw [laidOut.heap, laidOut.layout, LayoutParts.literals_eq, CodeHeap.here_replaceAll,
    CodeHeap.here_stage, List.length_append, CodeHeap.length_literalWords, Nat.add_assoc]

/-- The exits end before the literals begin. -/
theorem Emit.LaidOut.data_le {d d' : Draft} {p : LayoutParts}
    (laidOut : Emit.LaidOut throws errorReg d p laid d') :
    laid.layout.epilogue ≤ laid.layout.data ∧ laid.layout.data ≤ laid.layout.literals := by
  rw [laidOut.layout]
  simp only [LayoutParts.layout]
  omega

namespace Emit

variable {settings : Settings} {d d' : Draft}

theorem emit_ok {i : Instruction} {index : Nat} (ok : emit i settings d = .ok index d') :
    index = d.heap.here ∧ d' = d.stage [i.encode] :=
  emitWord_ok ok

theorem emit_room {i : Instruction} {index : Nat} (ok : emit i settings d = .ok index d') :
    d.heap.here < d.heap.capacity := by
  unfold emit emitWord at ok
  obtain ⟨_, emitted, -⟩ := onHeap_ok ok
  exact CodeHeap.emit_room emitted

theorem emitAll_ok {is : List Instruction} (ok : emitAll is settings d = .ok () d') :
    d' = d.stage (is.map Instruction.encode) :=
  emitWords_ok ok

theorem checkFinished_ok (ok : checkFinished settings d = .ok () d') :
    d' = d ∧ d.word.control = [] ∧
      (d.word.unreachable = true ∨ d.word.depth = d.word.signature.outputs) := by
  have rest := tail_of ok rfl
  generalize frames : d.word.control = control at rest
  rcases control with _ | ⟨_ | _, outer⟩
  · dsimp only at rest
    split at rest
    · next balanced =>
      cases rest
      refine ⟨rfl, rfl, ?_⟩
      simpa using balanced
    · cases rest
  · cases rest
  · cases rest

theorem emitExits_ok {frame : Frame} {exits : Exits}
    (ok : emitExits frame errorReg throws settings d = .ok exits d') :
    ∃ teardown, frame.epilogue = .ok teardown ∧
      exits.epilogue = d.heap.here ∧
      exits.errorPath = d.heap.here + (LayoutParts.clear errorReg throws).length ∧
      exits.ret = exits.errorPath + teardown.length ∧
      d'.heap.here ≤ d.heap.capacity ∧
      d' = d.stage
        ((LayoutParts.clear errorReg throws ++ teardown ++ [Instruction.ret]).map
          Instruction.encode) := by
  obtain ⟨_, d1, cleared, rest⟩ := bind_ok.1 (tail_of ok rfl :)
  change emitAll (LayoutParts.clear errorReg throws) settings d = _ at cleared
  obtain rfl := emitAll_ok cleared
  obtain ⟨teardown, removed, rest⟩ := assembled_bind (tail_of rest rfl :)
  obtain ⟨_, d2, emitted, rest⟩ := bind_ok.1 rest
  obtain rfl := emitAll_ok emitted
  obtain ⟨ret, d3, emitted, rest⟩ := bind_ok.1 rest
  have room := emit_room emitted
  obtain ⟨rfl, rfl⟩ := emit_ok emitted
  cases rest
  refine ⟨teardown, removed, rfl, by simp, by simp [Nat.add_assoc], ?_, by simp⟩
  simpa [Nat.add_assoc] using Nat.succ_le_of_lt room

theorem emitStubs_ok {errorPath : Nat} {regs : List Reg}
    {stubs : List (Reg × Nat)}
    (ok : emitStubs errorReg errorPath regs settings d = .ok stubs d') :
    ∃ code, Stubbed errorReg errorPath d.heap.here regs stubs code ∧ d' = d.stage code := by
  induction regs generalizing d stubs with
  | nil =>
    cases ok
    exact ⟨[], .nil _, by simp⟩
  | cons reg rest ih =>
    have rest := emitWord_bind ok
    obtain ⟨leave, jump, rest⟩ := assembled_bind (tail_of rest rfl :)
    replace rest := emitWord_bind rest
    obtain ⟨others, d3, more, rest⟩ := bind_ok.1 rest
    cases rest
    obtain ⟨code, stubbed, rfl⟩ := ih more
    simp only [Draft.stage_stage, Draft.heap_stage, CodeHeap.here_stage, List.length_append,
      List.length_cons, List.length_nil] at stubbed jump
    exact ⟨_, .cons jump stubbed, by simp⟩

theorem layLiterals_ok {values : List Cell} (ok : (values.forM fun value => do
    let _ ← onHeap (CodeHeap.emitLiteral value) : Emit Unit) settings d = .ok () d') :
    d' = d.stage (values.flatMap CodeHeap.literalWords) := by
  induction values generalizing d with
  | nil =>
    cases ok
    simp
  | cons value values ih =>
    obtain ⟨_, d1, first, rest⟩ := bind_ok.1 ok
    obtain ⟨position, d2, emitted, done⟩ := bind_ok.1 first
    cases done
    obtain ⟨heap, staged, rfl⟩ := onHeap_ok emitted
    obtain ⟨-, rfl⟩ := CodeHeap.emitLiteral_ok staged
    rw [ih rest]
    exact Draft.stage_stage ..

theorem emitLiterals_ok {values : List Cell}
    (ok : emitLiterals values settings d = .ok start d') :
    ∃ padding : List Instruction, (∀ i ∈ padding, i = .nop) ∧ (values ≠ [] → start % 2 = 0) ∧
      start = d.heap.here + padding.length ∧
      d' = d.stage
        (padding.map Instruction.encode ++ values.flatMap CodeHeap.literalWords) := by
  obtain ⟨_, d1, padded, rest⟩ := bind_ok.1 (tail_of ok rfl :)
  obtain rfl := emitAll_ok padded
  obtain ⟨_, d2, laid, rest⟩ := bind_ok.1 (tail_of rest rfl :)
  cases rest
  obtain rfl := layLiterals_ok laid
  refine ⟨if (!values.isEmpty && decide (d.heap.here % 2 = 1)) = true then
    [Instruction.nop] else [], ?_, fun some => ?_, by simp, by simp⟩
  · intro i member
    split at member
    · simpa using member
    · cases member
  · simp only [Draft.heap_stage, CodeHeap.here_stage, List.length_map]
    split
    · next odd =>
      have := (Bool.and_eq_true _ _ ▸ odd).2
      simp only [decide_eq_true_eq] at this
      simp only [List.length_cons, List.length_nil]
      omega
    · next even =>
      simp only [List.isEmpty_eq_false_iff.2 some, Bool.not_false, Bool.true_and,
        decide_eq_true_eq] at even
      simp only [List.length_nil]
      omega

theorem patchAll_ok {patches : List (Nat × Instruction)}
    (ok : patchAll patches settings d = .ok () d') :
    d' = { d with heap := d.heap.replaceAll patches } := by
  induction patches generalizing d with
  | nil =>
    cases ok
    rfl
  | cons first patches ih =>
    have rest := patch_bind ok
    rw [ih rest]
    rfl

theorem takePatches_ok {targets : PatchTargets} {resolved : List (Nat × Instruction)}
    (ok : takePatches targets settings d = .ok resolved d') :
    PendingPatch.resolveFrom targets 0 d.word.patches = .ok resolved ∧
      d' = { d with word := { d.word with patches := [] } } := by
  have rest := tail_of ok rfl
  simp only [PendingPatch.resolve] at rest
  cases outcome : PendingPatch.resolveFrom targets 0 d.word.patches with
  | error e =>
    rw [outcome] at rest
    obtain ⟨_, d1, -, rest⟩ := bind_ok.1 rest
    cases rest
  | ok out =>
    rw [outcome] at rest
    replace rest := tail_of rest rfl
    cases rest
    exact ⟨rfl, rfl⟩

/-- A layout that succeeded has all its parts. -/
theorem layOut_ok (ok : layOut throws settings d = .ok laid d') :
    ∃ p, LaidOut throws (settings.convention.errorReg d.word.signature.outputs) d p laid d' := by
  obtain ⟨_, d0, checked, rest⟩ := bind_ok.1 ok
  obtain ⟨rfl, control, balanced⟩ := checkFinished_ok checked
  replace rest := tail_of (tail_of rest rfl :) rfl
  dsimp only at rest
  generalize settings.convention.errorReg _ = errorReg at rest ⊢
  obtain ⟨locals, resolved, rest⟩ := assembled_bind rest
  obtain ⟨exits, d1, left, rest⟩ := bind_ok.1 rest
  obtain ⟨teardown, removed, epilogue, errorPath, ret, -, rfl⟩ := emitExits_ok left
  obtain ⟨stubs, d1, emitted, rest⟩ := bind_ok.1 (tail_of rest rfl :)
  obtain ⟨stubCode, stubbed, rfl⟩ := emitStubs_ok emitted
  obtain ⟨literals, d1, laid, rest⟩ := bind_ok.1 rest
  obtain ⟨padding, nops, parity, first, rfl⟩ := emitLiterals_ok laid
  obtain ⟨entry, d1, filled, rest⟩ := bind_ok.1 (tail_of rest rfl :)
  obtain ⟨setup, prologue, filled⟩ := assembled_bind filled
  obtain ⟨_, d2, patched, filled⟩ := bind_ok.1 filled
  cases filled
  obtain rfl := patchAll_ok patched
  obtain ⟨pending, d2, taken, rest⟩ := bind_ok.1 rest
  obtain ⟨found, rfl⟩ := takePatches_ok taken
  obtain ⟨_, d2, patched, rest⟩ := bind_ok.1 rest
  obtain rfl := patchAll_ok patched
  obtain ⟨_, d2, patched, rest⟩ := bind_ok.1 rest
  obtain rfl := patchAll_ok patched
  cases rest
  refine ⟨⟨locals, setup, teardown, stubs, stubCode, padding, pending⟩, control, balanced, resolved,
    prologue, removed, stubbed, nops, parity, ?_, rfl, rfl, ?_, ?_, rfl⟩
  · simp only [LayoutParts.layout, first, errorPath, ret, epilogue, Draft.heap_stage,
      CodeHeap.here_stage, List.length_append, List.length_map, CodeHeap.length_literalWords]
    simp [Nat.add_assoc]
  · exact found
  · simp only [LayoutParts.patches, LayoutParts.trailer, LayoutParts.exitCode,
      CodeHeap.replaceAll_append, Draft.stage_stage, Draft.heap_stage, List.map_append,
      List.append_assoc]
    rfl

/-- Verification passes exactly if all words up to the data are final. -/
theorem verify_ok_iff {data : Nat} :
    verify start data settings d = .ok () d' ↔
      d' = d ∧ ∀ i w, start ≤ i → i < data → d.heap.word? i = some w → Final w := by
  rw [← CodeHeap.survivor?_eq_none_iff]
  unfold verify
  rw [bind_ok]
  constructor
  · rintro ⟨draft, d1, got, rest⟩
    cases got
    cases survivor : d.heap.survivor? start data with
    | some survivor =>
      rw [survivor] at rest
      cases rest
    | none =>
      rw [survivor] at rest
      cases rest
      exact ⟨rfl, rfl⟩
  · rintro ⟨rfl, none⟩
    refine ⟨d', d', rfl, ?_⟩
    rw [none]
    rfl

/-- Finishing a word is laying it out and verifying the result. -/
theorem finish_ok {finished : Finished}
    (ok : finish throws settings d = .ok finished d') :
    ∃ laid, layOut throws settings d = .ok laid d' ∧
      (∀ i w, d'.word.start ≤ i → i < laid.layout.data → d'.heap.word? i = some w → Final w) ∧
      finished.clobbers = laid.clobbers ∧ finished.code.layout = laid.layout ∧
      finished.code.frameSize = laid.frameSize ∧ finished.code.leaf = d'.word.leaf ∧
      finished.code.pcRelative = d'.word.pcRelative ∧
      finished.code.hasBranches = d'.word.hasBranches ∧
      finished.code.earlyReturn = d'.word.earlyReturn := by
  obtain ⟨laid, d1, laidOut, rest⟩ := bind_ok.1 ok
  obtain ⟨_, d2, verified, rest⟩ := bind_ok.1 (tail_of rest rfl :)
  obtain ⟨rfl, final⟩ := verify_ok_iff.1 verified
  replace rest := tail_of rest rfl
  cases rest
  exact ⟨laid, laidOut, final, rfl, rfl, rfl, rfl, rfl, rfl, rfl⟩

end Emit

end ForthJit
