import ForthJit.Compiler.Draft
import ForthJit.Proofs.Outcome

/-!
# What a successful emission did

One lemma for each basic step of emission: the state that a success leaves.  Later proofs take
emissions apart with `Emit.bind_ok` and these lemmas, and unfold none of the steps.
-/

namespace ForthJit

namespace CodeHeap

variable {h h' : CodeHeap} {i : Nat} {w : InstrWord}

/-- `h` with further words staged. -/
def stage (h : CodeHeap) (ws : List InstrWord) : CodeHeap :=
  { h with staged := h.staged ++ ws.toArray }

/-- `h` with the word at `i` replaced. -/
def replace (h : CodeHeap) (i : Nat) (w : InstrWord) : CodeHeap :=
  { h with staged := h.staged.setIfInBounds i w }

@[simp] theorem staged_stage (h : CodeHeap) (ws : List InstrWord) :
    (h.stage ws).staged = h.staged ++ ws.toArray := rfl

@[simp] theorem staged_replace (h : CodeHeap) (i : Nat) (w : InstrWord) :
    (h.replace i w).staged = h.staged.setIfInBounds i w := rfl

@[simp] theorem stage_nil (h : CodeHeap) : h.stage [] = h := by
  simp [stage]

@[simp] theorem stage_stage (h : CodeHeap) (ws vs : List InstrWord) :
    (h.stage ws).stage vs = h.stage (ws ++ vs) := by
  simp [stage]

@[simp] theorem here_stage (h : CodeHeap) (ws : List InstrWord) :
    (h.stage ws).here = h.here + ws.length := by
  simp [here]

@[simp] theorem capacity_stage (h : CodeHeap) (ws : List InstrWord) :
    (h.stage ws).capacity = h.capacity := rfl

/-- Staged words follow those that were there. -/
theorem word?_stage (h : CodeHeap) (ws : List InstrWord) (n : Nat) :
    (h.stage ws).word? (h.here + n) = ws[n]? := by
  show (h.staged ++ ws.toArray)[h.staged.size + n]? = _
  rw [Array.getElem?_append_right (Nat.le_add_right _ _), Nat.add_sub_cancel_left,
    List.getElem?_toArray]

/-- Words that were there stay. -/
theorem word?_stage_of_lt (ws : List InstrWord) (bound : i < h.here) :
    (h.stage ws).word? i = h.word? i :=
  Array.getElem?_append_left bound

theorem emit_ok (ok : emit w h = .ok i h') : i = h.here ∧ h' = h.stage [w] := by
  unfold emit at ok
  split at ok
  · cases ok
    exact ⟨rfl, by simp [stage]⟩
  · cases ok

theorem emit_room (ok : emit w h = .ok i h') : h.here < h.capacity := by
  unfold emit at ok
  split at ok
  · assumption
  · cases ok

theorem emitAll_fits {ws : List InstrWord} (fits : ws = [] ∨ h.here + ws.length ≤ h.capacity) :
    emitAll ws h = .ok () (h.stage ws) := by
  induction ws generalizing h with
  | nil =>
    rw [stage_nil]
    rfl
  | cons w ws ih =>
    have room : h.here + (ws.length + 1) ≤ h.capacity := fits.resolve_left (List.cons_ne_nil w ws)
    have first : emit w h = .ok h.here (h.stage [w]) := by
      have some : h.staged.size < h.capacity :=
        Nat.lt_of_lt_of_le (Nat.lt_add_of_pos_right (by omega)) room
      simp [emit, some, here, stage]
    rw [emitAll, bind_of_ok first, ih (Or.inr ?_), stage_stage, List.singleton_append]
    show (h.stage [w]).here + ws.length ≤ h.capacity
    rw [here_stage, List.length_singleton]
    omega

theorem emitAll_ok {ws : List InstrWord} (ok : emitAll ws h = .ok () h') : h' = h.stage ws := by
  induction ws generalizing h with
  | nil =>
    cases ok
    exact (stage_nil _).symm
  | cons w ws ih =>
    obtain ⟨i, h1, first, rest⟩ := bind_eq_ok.1 ok
    obtain ⟨-, rfl⟩ := emit_ok first
    rw [ih rest, stage_stage]
    rfl

theorem emitLiteral_ok {value : Cell} (ok : emitLiteral value h = .ok i h') :
    i = h.here ∧ h' = h.stage [value.extractLsb' 0 32, value.extractLsb' 32 32] := by
  obtain ⟨low, h1, first, rest⟩ := bind_eq_ok.1 ok
  obtain ⟨high, h2, second, result⟩ := bind_eq_ok.1 rest
  obtain ⟨rfl, rfl⟩ := emit_ok first
  obtain ⟨-, rfl⟩ := emit_ok second
  cases result
  exact ⟨rfl, stage_stage ..⟩

theorem patch_ok (ok : patch i w h = .ok () h') :
    h.published ≤ i ∧ i < h.here ∧ h' = h.replace i w := by
  unfold patch at ok
  split at ok
  · cases ok
  · split at ok
    · next unpublished bound =>
      cases ok
      exact ⟨Nat.le_of_not_lt unpublished, bound, rfl⟩
    · cases ok

end CodeHeap

namespace Draft

/-- `d` with further words staged. -/
def stage (d : Draft) (ws : List InstrWord) : Draft := { d with heap := d.heap.stage ws }

/-- `d` with the word at `i` replaced. -/
def replace (d : Draft) (i : Nat) (w : InstrWord) : Draft := { d with heap := d.heap.replace i w }

@[simp] theorem heap_stage (d : Draft) (ws : List InstrWord) :
    (d.stage ws).heap = d.heap.stage ws := rfl

@[simp] theorem word_stage (d : Draft) (ws : List InstrWord) : (d.stage ws).word = d.word := rfl

@[simp] theorem stage_nil (d : Draft) : d.stage [] = d := by
  simp [stage]

@[simp] theorem stage_stage (d : Draft) (ws vs : List InstrWord) :
    (d.stage ws).stage vs = d.stage (ws ++ vs) := by
  simp [stage]

end Draft

namespace Emit

variable {α β : Type} {settings : Settings} {d d' : Draft}

/-- A sequence succeeds exactly if both of its parts do. -/
theorem bind_ok {m : Emit α} {f : α → Emit β} {b : β} :
    (m >>= f) settings d = .ok b d' ↔
      ∃ a d1, m settings d = .ok a d1 ∧ f a settings d1 = .ok b d' :=
  bind_eq_ok

/-- A sequence fails if its first part does, or else its second. -/
theorem bind_error {m : Emit α} {f : α → Emit β} {e : CompileError}
    (error : (m >>= f) settings d = .error e d') :
    m settings d = .error e d' ∨ ∃ a d1, m settings d = .ok a d1 ∧
      f a settings d1 = .error e d' := by
  cases first : m settings d with
  | ok a d1 =>
    have rest : (m >>= f) settings d = f a settings d1 := bind_of_ok first _
    exact Or.inr ⟨a, d1, rfl, rest.symm.trans error⟩
  | error e1 d1 =>
    have rest : (m >>= f) settings d = .error e1 d1 := bind_of_error first _
    cases rest.symm.trans error
    exact Or.inl rfl

/-- After a step whose outcome is known, the rest has the outcome of the whole. -/
theorem tail_of {m : Emit α} {f : α → Emit β} {a : α} {d1 : Draft}
    {result : EStateM.Result CompileError Draft β} (whole : (m >>= f) settings d = result)
    (first : m settings d = .ok a d1) : f a settings d1 = result :=
  (bind_of_ok first _).symm.trans whole

theorem onHeap_ok {operation : HeapM α} {a : α} (ok : onHeap operation settings d = .ok a d') :
    ∃ heap, operation d.heap = .ok a heap ∧ d' = { d with heap } := by
  obtain ⟨heap, word⟩ := d
  unfold onHeap at ok
  dsimp only at ok ⊢
  split at ok
  · next a' heap' done =>
    cases ok
    exact ⟨heap', done, rfl⟩
  · cases ok

theorem assembled_ok_iff {result : Except EncodeError α} {a : α} :
    assembled result settings d = .ok a d' ↔ result = .ok a ∧ d' = d := by
  cases result with
  | ok a' =>
    constructor
    · intro ok
      cases ok
      exact ⟨rfl, rfl⟩
    · rintro ⟨ok, rfl⟩
      cases ok
      rfl
  | error e =>
    constructor
    · intro ok
      cases ok
    · rintro ⟨ok, -⟩
      cases ok

theorem assembled_bind {result : Except EncodeError α} {f : α → Emit β} {b : β}
    (ok : (assembled result >>= f) settings d = .ok b d') :
    ∃ a, result = .ok a ∧ f a settings d = .ok b d' := by
  obtain ⟨a, d1, made, rest⟩ := bind_ok.1 ok
  obtain ⟨done, rfl⟩ := assembled_ok_iff.1 made
  exact ⟨a, done, rest⟩

theorem emitWord_ok {w : InstrWord} {i : Nat} (ok : emitWord w settings d = .ok i d') :
    i = d.heap.here ∧ d' = d.stage [w] := by
  obtain ⟨heap, emitted, rfl⟩ := onHeap_ok ok
  obtain ⟨rfl, rfl⟩ := CodeHeap.emit_ok emitted
  exact ⟨rfl, rfl⟩

theorem emitWord_bind {w : InstrWord} {f : Nat → Emit β} {b : β}
    (ok : (emitWord w >>= f) settings d = .ok b d') :
    f d.heap.here settings (d.stage [w]) = .ok b d' := by
  obtain ⟨i, d1, emitted, rest⟩ := bind_ok.1 ok
  obtain ⟨rfl, rfl⟩ := emitWord_ok emitted
  exact rest

theorem emitWords_ok {ws : List InstrWord}
    (ok : onHeap (CodeHeap.emitAll ws) settings d = .ok () d') :
    d' = d.stage ws := by
  obtain ⟨heap, emitted, rfl⟩ := onHeap_ok ok
  rw [CodeHeap.emitAll_ok emitted]
  rfl

theorem patch_ok {i : Nat} {instruction : Instruction}
    (ok : patch i instruction settings d = .ok () d') :
    i < d.heap.here ∧ d' = d.replace i instruction.encode := by
  obtain ⟨heap, patched, rfl⟩ := onHeap_ok ok
  obtain ⟨-, bound, rfl⟩ := CodeHeap.patch_ok patched
  exact ⟨bound, rfl⟩

theorem patch_bind {i : Nat} {instruction : Instruction} {f : Unit → Emit β} {b : β}
    (ok : (patch i instruction >>= f) settings d = .ok b d') :
    f () settings (d.replace i instruction.encode) = .ok b d' := by
  obtain ⟨_, d1, patched, rest⟩ := bind_ok.1 ok
  obtain ⟨-, rfl⟩ := patch_ok patched
  exact rest

/-- What giving up `regs` does to the locals of `d`. -/
def spilling (regs : RegSet) (d : Draft) : Locals.Spilled :=
  Locals.clobber regs d.heap.position? 0 d.word.locals

/-- `d` after the locals that are only in `regs` have been saved. -/
def spilled (regs : RegSet) (d : Draft) : Draft :=
  { heap := d.heap.stage (List.replicate (spilling regs d).writes Placeholder.localWrite.word)
    word := { d.word with locals := (spilling regs d).locals } }

theorem spill_ok {regs : RegSet} (ok : spill regs settings d = .ok () d') :
    (spilling regs d).complete = true ∧ d' = spilled regs d := by
  obtain ⟨d0, d1, got, rest⟩ := bind_ok.1 ok
  cases got
  obtain ⟨_, d2, modified, rest⟩ := bind_ok.1 rest
  cases modified
  obtain ⟨_, d3, emitted, rest⟩ := bind_ok.1 rest
  obtain rfl := emitWords_ok emitted
  split at rest
  · next complete =>
    cases rest
    exact ⟨complete, rfl⟩
  · cases rest

/-- `d` after `regs` have been announced as overwritten. -/
def clobbering (regs : RegSet) (d : Draft) : Draft :=
  { spilled regs d with word :=
    { (spilled regs d).word with clobbered := d.word.clobbered.union regs } }

theorem clobber_ok {regs : RegSet} (ok : clobber regs settings d = .ok () d') :
    (spilling regs d).complete = true ∧ d' = clobbering regs d := by
  obtain ⟨_, d1, saved, rest⟩ := bind_ok.1 ok
  obtain ⟨complete, rfl⟩ := spill_ok saved
  cases rest
  exact ⟨complete, rfl⟩

/-- A local that exists is read in place, moved from its register or loaded from its home. -/
theorem readLocal_ok {id : Nat} {target : Reg} {l : Local} (found : d.word.locals[id]? = some l)
    (ok : readLocal id target settings d = .ok () d') :
    (l.access? target = some .inPlace ∧ d' = d) ∨
      (∃ source, l.access? target = some (.move source) ∧
        (do
          clobber (.singleton target)
          let _ ← emit (Asm.mov target source)) settings d = .ok () d') ∨
      (l.access? target = some .load ∧
        (do
          clobber (.singleton target)
          let index ← placeholder .localRead
          modifyWord fun w => { w with locals := w.locals.modify id (·.recordRead index target) })
          settings d = .ok () d') := by
  obtain ⟨w, d0, got, rest⟩ := bind_ok.1 ok
  cases got
  rw [found] at rest
  dsimp only at rest
  generalize l.access? target = access at rest ⊢
  rcases access with _ | _ | source | _
  · cases rest
  · cases rest
    exact Or.inl ⟨rfl, rfl⟩
  · exact Or.inr (Or.inl ⟨source, rfl, rest⟩)
  · exact Or.inr (Or.inr ⟨rfl, rest⟩)

end Emit

end ForthJit
