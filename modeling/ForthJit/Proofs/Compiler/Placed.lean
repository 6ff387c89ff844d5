import ForthJit.Proofs.Compiler.Fixups
import ForthJit.Proofs.Compiler.Sound

/-!
# What stands where in a finished word

When a definition ends, its reserved slots are filled, its pending patches and its locals are
resolved, and its exits follow the body.  `Emit.Placed` lists what can stand at a position of the
finished word, and `Emit.LaidOut.placed` says that nothing else does.
-/

namespace ForthJit

variable {i : Nat} {j : Instruction}

variable {h : CodeHeap} {patches : List (Nat × Instruction)}

/-- A word is what the last patch of its position made it, or else what it was. -/
theorem CodeHeap.word?_replaceAll {v : InstrWord}
    (at_i : (h.replaceAll patches).word? i = some v) :
    (∃ j, (i, j) ∈ patches ∧ v = j.encode) ∨ h.word? i = some v ∧ i ∉ patches.map (·.1) := by
  induction patches generalizing h with
  | nil => exact Or.inr ⟨at_i, List.not_mem_nil⟩
  | cons first patches ih =>
    rcases ih at_i with ⟨j, later, rfl⟩ | ⟨before, unpatched⟩
    · exact Or.inl ⟨j, List.mem_cons_of_mem _ later, rfl⟩
    · replace before : (h.staged.setIfInBounds first.1 first.2.encode)[i]? = some v := before
      rw [Array.getElem?_setIfInBounds] at before
      by_cases same : first.1 = i
      · rw [if_pos same] at before
        split at before
        · refine Or.inl ⟨first.2, ?_, (Option.some.inj before).symm⟩
          rw [← same]
          exact List.mem_cons_self
        · cases before
      · rw [if_neg same] at before
        refine Or.inr ⟨before, ?_⟩
        rw [List.map_cons, List.mem_cons, not_or]
        exact ⟨fun eq => same eq.symm, unpatched⟩

theorem CodeHeap.word?_replaceAll_of_not_mem (unpatched : i ∉ patches.map (·.1)) :
    (h.replaceAll patches).word? i = h.word? i := by
  induction patches generalizing h with
  | nil => rfl
  | cons first patches ih =>
    rw [List.map_cons, List.mem_cons, not_or] at unpatched
    refine (ih unpatched.2).trans ?_
    show (h.staged.setIfInBounds first.1 first.2.encode)[i]? = h.staged[i]?
    rw [Array.getElem?_setIfInBounds, if_neg fun same => unpatched.1 same.symm]

/-- A position that is patched once holds what the patch put there. -/
theorem CodeHeap.word?_replaceAll_of_mem (once : (patches.map (·.1)).Nodup) (bound : i < h.here)
    (member : (i, j) ∈ patches) : (h.replaceAll patches).word? i = some j.encode := by
  obtain ⟨v, at_i⟩ : ∃ v, (h.replaceAll patches).word? i = some v := by
    rw [← here_replaceAll h patches] at bound
    exact ⟨_, Array.getElem?_eq_getElem bound⟩
  rcases word?_replaceAll at_i with ⟨k, member', rfl⟩ | ⟨-, unpatched⟩
  · have same : (i, k) = (i, j) := List.inj_on_of_nodup_map once member' member rfl
    cases same
    exact at_i
  · exact absurd (List.mem_map_of_mem member) unpatched

/-! ## Finished words -/

/-- What can stand at position `i` of the word that was laid out from `d`. -/
inductive Emit.Placed (throws : Bool) (errorReg : Reg) (d : Draft) (p : LayoutParts) (laid : Laid)
    (i : Nat) : InstrWord → Prop
  | prologue {j : Instruction} : i < d.word.body → j = .nop ∨ j ∈ p.setup →
      Placed throws errorReg d p laid i j.encode
  | pending {j : Instruction} : d.Holds i →
      PendingPatch.Resolves (p.targets d.word laid.layout errorReg throws) 0 d.word.patches i j →
      Placed throws errorReg d p laid i j.encode
  | ofLocal {j : Instruction} : d.Holds i → Locals.Resolves p.locals.homes d.word.locals i j →
      Placed throws errorReg d p laid i j.encode
  | staged {v : InstrWord} : d.Holds i → d.heap.word? i = some v →
      Placed throws errorReg d p laid i v
  | trailer {v : InstrWord} : d.heap.here ≤ i →
      (p.trailer errorReg throws)[i - d.heap.here]? = some v →
      Placed throws errorReg d p laid i v

namespace LayoutParts

theorem fill_mem {p : LayoutParts} {start : Nat}
    (fits : p.setup.length ≤ prologueSlots) (member : (i, j) ∈ p.fill start) :
    i < start + prologueSlots ∧ (j = .nop ∨ j ∈ p.setup) := by
  refine ⟨?_, ?_⟩
  · have index := List.mem_map_of_mem (f := (·.1)) member
    rw [fill_indices fits] at index
    obtain ⟨n, low, rfl⟩ := List.mem_map.1 index
    have := List.mem_range.1 low
    show start + n < _
    omega
  · obtain ⟨⟨k, n⟩, indexed, same⟩ := List.mem_map.1 member
    cases same
    rcases List.mem_append.1 (List.fst_mem_of_mem_zipIdx indexed) with skipped | isSetup
    · exact Or.inl (List.eq_of_mem_replicate skipped)
    · exact Or.inr isSetup

end LayoutParts

namespace Emit.LaidOut

variable {throws : Bool} {errorReg : Reg} {d d' : Draft} {p : LayoutParts} {laid : Laid} {i : Nat}
  {v : InstrWord}

variable (laidOut : LaidOut throws errorReg d p laid d')

include laidOut

/-- Every word of a finished definition up to its literals is accounted for. -/
theorem placed (due : ∀ slot ∈ d.word.due, d.Holds slot.1) (low : d.word.start ≤ i)
    (high : i < laid.layout.literals) (at_i : d'.heap.word? i = some v) :
    Placed throws errorReg d p laid i v := by
  have fits := (Frame.prologue_isTrap laidOut.setup).1
  have inside : ∀ {j : Instruction} {slots : Slots} {patches : List (Nat × Instruction)},
      patches.map (·.1) = slots.map (·.1) → (∀ slot ∈ slots, slot ∈ d.word.due) →
      (i, j) ∈ patches → d.Holds i := by
    intro j slots patches indices within member
    have index := List.mem_map_of_mem (f := (·.1)) member
    rw [indices] at index
    obtain ⟨slot, isSlot, rfl⟩ := List.mem_map.1 index
    exact due slot (within slot isSlot)
  rw [laidOut.heap] at at_i
  rcases CodeHeap.word?_replaceAll at_i with ⟨j, member, rfl⟩ | ⟨before, unpatched⟩
  · rcases List.mem_append.1 member with earlier | ofLocal
    · rcases List.mem_append.1 earlier with filling | pending
      · obtain ⟨bound, content⟩ := LayoutParts.fill_mem fits filling
        exact .prologue bound content
      · exact .pending (inside (PendingPatch.resolveFrom_indices laidOut.pending)
          (fun _ => List.mem_append_left _) pending)
          (PendingPatch.resolveFrom_mem laidOut.pending pending)
    · exact .ofLocal (inside (Locals.resolveFrom_indices laidOut.resolved)
        (fun _ => List.mem_append_right _) ofLocal)
        (Locals.resolveFrom_mem laidOut.resolved ofLocal)
  · have above : d.word.body ≤ i := by
      refine Nat.le_of_not_lt fun below => unpatched ?_
      -- All reserved slots have been filled.
      rw [LayoutParts.patches, List.map_append, List.map_append, LayoutParts.fill_indices fits]
      refine List.mem_append_left _
        (List.mem_append_left _ (List.mem_map.2 ⟨i - d.word.start, ?_, ?_⟩))
      · rw [List.mem_range]
        unfold Definition.body at below
        omega
      · exact Nat.add_sub_cancel' low
    replace before : (d.heap.staged ++ (p.trailer errorReg throws ++ _).toArray)[i]? = some v :=
      before
    rw [Array.getElem?_append] at before
    split at before
    · next inBody => exact .staged ⟨above, inBody⟩ before
    · next outside =>
      have past : d.heap.here ≤ i := Nat.le_of_not_lt outside
      refine .trailer past ?_
      rw [laidOut.layout, LayoutParts.literals_eq] at high
      rw [List.getElem?_toArray, List.getElem?_append_left (by
        show i - d.heap.here < _
        omega)] at before
      exact before

/-- Nothing beyond the body is patched. -/
theorem unpatched (room : d.word.body ≤ d.heap.here)
    (due : ∀ slot ∈ d.word.due, d.Holds slot.1) (past : d.heap.here ≤ i) :
    i ∉ (p.patches d.word.start).map (·.1) := by
  rw [laidOut.patches_indices]
  intro member
  obtain ⟨slot, isSlot, rfl⟩ := List.mem_map.1 member
  unfold Definition.slots at isSlot
  rw [laidOut.control, List.flatMap_nil, List.append_nil, List.append_assoc] at isSlot
  rcases List.mem_append.1 isSlot with reserved | pending
  · obtain ⟨n, low, rfl⟩ := List.mem_map.1 reserved
    have := List.mem_range.1 low
    unfold Definition.body at room
    omega
  · have := (due slot pending).2
    omega

variable {raw : InstrWord → Prop}

theorem patched_once (logged : d.Logged raw []) :
    ((p.patches d.word.start).map (·.1)).Nodup := by
  have once := logged.once
  rwa [List.append_nil, ← laidOut.patches_indices] at once

/-- What a patch puts into a word stays there. -/
theorem patched (logged : d.Logged raw []) (member : (i, j) ∈ p.patches d.word.start) :
    d'.heap.word? i = some j.encode := by
  rw [laidOut.heap]
  refine CodeHeap.word?_replaceAll_of_mem (laidOut.patched_once logged) ?_ member
  have slot := List.mem_map_of_mem (f := (·.1)) member
  rw [laidOut.patches_indices, ← List.append_nil d.word.slots] at slot
  have bound : i < d.heap.here := logged.lt_size slot
  rw [CodeHeap.here_stage]
  omega

/-- A final word of the body is not patched. -/
theorem kept (logged : d.Logged raw [])
    (at_i : d.heap.word? i = some v) (final : Final v) : d'.heap.word? i = some v := by
  have unpatched : i ∉ (p.patches d.word.start).map (·.1) := by
    rw [laidOut.patches_indices]
    intro member
    obtain ⟨slot, isSlot, rfl⟩ := List.mem_map.1 member
    have held := (logged.held slot (List.mem_append_left _ isSlot)).2
    obtain rfl := Option.some.inj (held.symm.trans at_i)
    exact slot.2.not_final final
  have bound : i < d.heap.staged.size := (Array.getElem?_eq_some_iff.1 at_i).1
  rw [laidOut.heap, CodeHeap.word?_replaceAll_of_not_mem unpatched]
  show (d.heap.staged ++ _)[i]? = some v
  rw [Array.getElem?_append_left bound]
  exact at_i

/-- What follows the body is not patched. -/
theorem trailing (logged : d.Logged raw []) {n : Nat}
    (at_n : (p.trailer errorReg throws)[n]? = some v) :
    d'.heap.word? (d.heap.here + n) = some v := by
  have unpatched : d.heap.here + n ∉ (p.patches d.word.start).map (·.1) := by
    rw [laidOut.patches_indices, ← List.append_nil d.word.slots]
    intro member
    have bound : d.heap.here + n < d.heap.here := logged.lt_size member
    omega
  have inside : n < (p.trailer errorReg throws).length := (List.getElem?_eq_some_iff.1 at_n).1
  rw [laidOut.heap, CodeHeap.word?_replaceAll_of_not_mem unpatched]
  show (d.heap.staged ++ _)[d.heap.staged.size + n]? = some v
  rw [Array.getElem?_append_right (Nat.le_add_right _ _), Nat.add_sub_cancel_left,
    List.getElem?_toArray, List.getElem?_append_left inside]
  exact at_n

/-- The literals follow, two words each. -/
theorem literal_words
    (room : d.word.body ≤ d.heap.here) (due : ∀ slot ∈ d.word.due, d.Holds slot.1) {k : Nat}
    {value : Cell} (rank : (PendingPatch.literals d.word.patches)[k]? = some value) :
    d'.heap.word? (laid.layout.literals + 2 * k) = some (value.extractLsb' 0 32) ∧
      d'.heap.word? (laid.layout.literals + 2 * k + 1) = some (value.extractLsb' 32 32) := by
  have words : ∀ {values : List Cell} {k : Nat}, values[k]? = some value →
      (values.flatMap CodeHeap.literalWords)[2 * k]? = some (value.extractLsb' 0 32) ∧
        (values.flatMap CodeHeap.literalWords)[2 * k + 1]? = some (value.extractLsb' 32 32) := by
    intro values
    induction values with
    | nil => intro k found; cases found
    | cons first values ih =>
      intro k found
      cases k with
      | zero =>
        cases found
        exact ⟨rfl, rfl⟩
      | succ k => exact ih found
  have after : ∀ n, d'.heap.word? (laid.layout.literals + n) =
      ((PendingPatch.literals d.word.patches).flatMap CodeHeap.literalWords)[n]? := by
    intro n
    have start : laid.layout.literals = d.heap.here + (p.trailer errorReg throws).length := by
      rw [laidOut.layout, LayoutParts.literals_eq]
    have position : laid.layout.literals + n - d.heap.here - (p.trailer errorReg throws).length =
        n := by
      omega
    rw [laidOut.heap, CodeHeap.word?_replaceAll_of_not_mem (laidOut.unpatched room due (by omega))]
    show (d.heap.staged ++ (p.trailer errorReg throws ++ _).toArray)[_]? = _
    rw [Array.getElem?_append_right (by show d.heap.here ≤ _; omega), List.getElem?_toArray,
      List.getElem?_append_right (by show _ ≤ _ - d.heap.here; omega)]
    show (List.flatMap _ _)[laid.layout.literals + n - d.heap.here - _]? = _
    rw [position]
  rw [after, Nat.add_assoc, after]
  exact words rank

end Emit.LaidOut

end ForthJit
