import ForthJit.Proofs.Memory.HeapStep

/-!
# The two code buffers agree

The executable buffer is written only by publishing, which copies staged words and can be refused
between the copy and the new length.  Staged words are written by emission and by patches, and
rewinding takes both lengths back.  Whatever the order of these operations and whichever changes
of protection the system refuses, the published words are the same in both buffers, and a
published word changes only after a rewind has taken it back.
-/

namespace ForthJit

variable {host : Host} {layout : HeapLayout}

/-- The operations of a code heap, and a new schedule of refused protection changes. -/
inductive HeapOp where
  | emit (w : InstrWord)
  | emitLiteral (value : Cell)
  | patch (index : Nat) (w : InstrWord)
  | sync
  | syncTo (stop : Nat)
  | ensurePublished (stop : Nat)
  | addConstant (bytes : Array UInt8)
  | allocateData (length align : Nat)
  | bindSlot (target : Nat)
  | rewind (m : HeapMark)
  | refuse (refusals : List Nat)

namespace CodeHeap

/-- The heap that an operation leaves, whether it succeeds or fails. -/
def after (h : CodeHeap) : HeapOp → CodeHeap
  | .emit w => stateAfter (emit w) h
  | .emitLiteral value => stateAfter (emitLiteral value) h
  | .patch index w => stateAfter (patch index w) h
  | .sync => stateAfter sync h
  | .syncTo stop => stateAfter (syncTo stop) h
  | .ensurePublished stop => stateAfter (ensurePublished stop) h
  | .addConstant bytes => stateAfter (addConstant bytes) h
  | .allocateData length align => stateAfter (allocateData length align) h
  | .bindSlot target => stateAfter (bindSlot target) h
  | .rewind m => h.rewind m
  | .refuse refusals => h.refuse refusals

/-- The heap after operations one after the other. -/
def afterAll (h : CodeHeap) (ops : List HeapOp) : CodeHeap := ops.foldl after h

/-- Every operation but rewinding only adds to a heap. -/
theorem after_grows (h : CodeHeap) {op : HeapOp} (forward : ∀ m, op ≠ .rewind m) :
    Grows 0 h (h.after op) := by
  cases op with
  | emit w => exact emit_leaves w h
  | emitLiteral value => exact emitLiteral_leaves value h
  | patch index w => exact patch_leaves (Nat.zero_le index) w h
  | sync => exact sync_leaves h
  | syncTo stop => exact syncTo_leaves stop h
  | ensurePublished stop => exact ensurePublished_leaves stop h
  | addConstant bytes => exact addConstant_leaves bytes h
  | allocateData length align => exact allocateData_leaves length align h
  | bindSlot target => exact bindSlot_leaves target h
  | rewind m => exact absurd rfl (forward m)
  | refuse refusals => exact .of_memory h rfl

/-! ## Rewinding -/

theorem getElem?_shrink {α : Type} (xs : Array α) (n i : Nat) :
    (xs.shrink n)[i]? = if i < n then xs[i]? else none := by
  rw [Array.shrink_eq_take, Array.getElem?_extract]
  grind

variable {h : CodeHeap}

/-- Rewinding takes back whole words from the end of both buffers. -/
theorem rewind_consistent (consistent : h.Consistent) (m : HeapMark) : (h.rewind m).Consistent := by
  have published_le := consistent.published_le
  have here_le := consistent.here_le
  have size : (h.rewind m).here = min h.here m.code := by
    simp only [here, rewind, Array.size_shrink]
    omega
  have slots := consistent.slots
  refine ⟨?_, ?_, ?_, ?_⟩
  · rw [size]
    show min h.published m.code ≤ _
    omega
  · rw [size]
    show _ ≤ h.capacity
    omega
  · intro i live
    replace live : i < min h.published m.code := live
    show (h.staged.shrink m.code)[i]? = some (h.executableWord i)
    rw [getElem?_shrink, if_pos (by omega)]
    exact consistent.copied i (by omega)
  · show min h.table.used (m.slots * 8) % 8 = 0
    omega

/-- A word below the mark stays published and keeps its value in both buffers. -/
theorem rewind_kept {m : HeapMark} {i : Nat} (live : i < h.published) (below : i < m.code) :
    i < (h.rewind m).published ∧ (h.rewind m).word? i = h.word? i ∧
      (h.rewind m).executableWord i = h.executableWord i := by
  refine ⟨?_, ?_, rfl⟩
  · show i < min h.published m.code
    omega
  · show (h.staged.shrink m.code)[i]? = h.staged[i]?
    rw [getElem?_shrink, if_pos below]

/-! ## Every run -/

theorem after_consistent (consistent : h.Consistent) (op : HeapOp) : (h.after op).Consistent := by
  by_cases back : ∃ m, op = .rewind m
  · obtain ⟨m, rfl⟩ := back
    exact rewind_consistent consistent m
  · exact (after_grows h (fun m same => back ⟨m, same⟩) consistent (Nat.zero_le _)).2.1

theorem afterAll_consistent (consistent : h.Consistent) (ops : List HeapOp) :
    (h.afterAll ops).Consistent := by
  induction ops generalizing h with
  | nil => exact consistent
  | cons op ops ih => exact ih (after_consistent consistent op)

/-- A new heap is empty. -/
theorem create_empty (created : create host layout = .ok h) :
    h.staged = #[] ∧ h.published = 0 ∧ h.table.used = 0 ∧ h.data.used = 0 := by
  unfold create build at created
  simp only [] at created
  revert created
  generalize Mapping.create host _ = made
  cases made with
  | error e =>
    intro created
    cases created
  | ok memory =>
    rw [ok_bind]
    -- The outcome of the protection changes is kept closed: computing it unfolds page arithmetic.
    generalize Mapping.protectAll _ memory = outcome
    cases outcome with
    | error e _ =>
      intro created
      cases created
    | ok _ memory =>
      intro created
      rw [← Except.ok.inj created]
      exact ⟨rfl, rfl, rfl, rfl⟩

theorem create_consistent (created : create host layout = .ok h) :
    h.Consistent := by
  obtain ⟨staged, published, used, -⟩ := create_empty created
  refine ⟨?_, ?_, ?_, ?_⟩
  · simp [published]
  · simp [here, staged]
  · intro i live
    omega
  · rw [used]

/-- In every heap reached from a new one, the published words are staged and fit, and both buffers
hold the same ones.  Each of them keeps its value in both buffers across every operation, and stays
published, unless it is rewound; a patch of it is refused and changes nothing. -/
theorem published_words_agree {new : CodeHeap}
    (created : create host layout = .ok new) (ops : List HeapOp) :
    let h := new.afterAll ops
    h.published ≤ h.here ∧ h.here ≤ h.capacity ∧
      (∀ i < h.published, h.word? i = some (h.executableWord i)) ∧
      (∀ op, ∀ i < h.published, (∀ m, op = .rewind m → i < m.code) →
        i < (h.after op).published ∧ (h.after op).word? i = h.word? i ∧
          (h.after op).executableWord i = h.executableWord i) ∧
      ∀ i < h.published, ∀ w, patch i w h = .error (.publishedPatch i) h := by
  intro h
  have consistent : h.Consistent := afterAll_consistent (create_consistent created) ops
  refine ⟨consistent.published_le, consistent.here_le, consistent.copied, ?_, ?_⟩
  · intro op i live ahead
    by_cases back : ∃ m, op = .rewind m
    · obtain ⟨m, rfl⟩ := back
      exact rewind_kept live (ahead m rfl)
    · obtain ⟨extended, -⟩ :=
        after_grows h (fun m same => back ⟨m, same⟩) consistent (Nat.zero_le _)
      exact ⟨Nat.lt_of_lt_of_le live extended.published, extended.staged i live,
        extended.executable i live⟩
  · intro i live w
    exact patch_published live w

/-- The second protection change of the first sync is refused, after the copy; a later sync
publishes one word, and the other is rewound and emitted anew. -/
theorem published_words_agree_after_refusal :
    ∃ new, create { refusals := [6] } {} = .ok new ∧
      let h := new.afterAll
        [.emit 1, .emit 2, .sync, .syncTo 1, .rewind ⟨1, 0, 0, 0⟩, .emit 3, .patch 0 4]
      (h.published, h.staged, h.executable) = (1, #[1, 3], #[1, 2]) ∧
        ∀ i < h.published, h.word? i = some (h.executableWord i) := by
  have state : (create { refusals := [6] } {}).toOption.map (fun new =>
      let h := new.afterAll
        [.emit 1, .emit 2, .sync, .syncTo 1, .rewind ⟨1, 0, 0, 0⟩, .emit 3, .patch 0 4]
      (h.published, h.staged, h.executable)) = some (1, #[1, 3], #[1, 2]) := by
    decide +kernel
  cases made : create { refusals := [6] } {} with
  | error e =>
    rw [made] at state
    cases state
  | ok new =>
    rw [made] at state
    exact ⟨new, rfl, Option.some.inj state, (published_words_agree made _).2.2.1⟩

/-- A heap that machine words cannot measure, which ends where it begins if they wrap around. -/
def overlong : HeapLayout := ⟨1024, 2 ^ 64 - 20480, 4096, 512⟩

theorem create_overlong : create {} overlong = .error .overflow := rfl

/-- Where numbers wrap around, such a heap is made, and its data begins where the staged words do:
the first data to be allocated, and zeroed, is a published word. -/
theorem staged_word_zeroed :
    create {} overlong = .error .overflow ∧
      ∃ new, build (· % 2 ^ 64) {} overlong = .ok new ∧
        let h := new.afterAll [.emit 1, .sync]
        (h.published, h.word? 0) = (1, some 1) ∧
          ∃ h', allocateData 8 8 h = .ok (h.memory.base + h.stagedOffset) h' := by
  have state : (build (· % 2 ^ 64) {} overlong).toOption.bind (fun new =>
      let h := new.afterAll [.emit 1, .sync]
      (success? (allocateData 8 8) h).map fun r =>
        ((h.published, h.word? 0), decide (r.1 = h.memory.base + h.stagedOffset))) =
      some ((1, some 1), true) := by
    decide +kernel
  obtain ⟨new, made, state⟩ := toOption_bind.1 state
  obtain ⟨address, h', allocated, state⟩ := success?_map.1 state
  obtain ⟨published, same⟩ := Prod.mk.inj state
  refine ⟨create_overlong, new, made, published, h', ?_⟩
  rw [← of_decide_eq_true same]
  exact allocated

end CodeHeap

end ForthJit
