import ForthJit.Compiler.Body
import ForthJit.Compiler.Control
import ForthJit.Compiler.Primitive
import ForthJit.Proofs.Compiler.Confined
import ForthJit.Proofs.Compiler.Emission
import ForthJit.Proofs.Machine.Flow

/-!
# Where the words of a definition come from

Every word that is emitted into a definition is an instruction inserted as it is, a plain
instruction that writes announced registers only, a closed branch, a call of an older word, a call
by address or a placeholder (`Origin`).  `Draft.Sound` says so of a whole draft, and that the ledger
accounts for what its placeholders will become.  Emission keeps this whether it succeeds or fails.
-/

namespace ForthJit

variable {v : InstrWord} {w : Definition}

/-- A word that does the same wherever it is copied to, and writes registers in `regs` only.  Which
words may be inserted as they are, and with which registers declared, is up to `raw`. -/
inductive Movable (raw : InstrWord → RegSet → Prop) (regs : RegSet) : InstrWord → Prop
  | raw {v : InstrWord} {clobbers : RegSet} : raw v clobbers → clobbers ⊆ regs → Movable raw regs v
  | plain {i : Instruction} : i.isPlain = true →
      (∀ r ∈ i.written, r.isReserved = true ∨ regs.contains r = true) → Movable raw regs i.encode

/-- What a definition may be made of. -/
structure Sources where
  /-- The words that may be inserted as they are, with the registers declared for them. -/
  raw : InstrWord → RegSet → Prop
  /-- The positions that may be called, with the registers that such a call overwrites. -/
  callee : Nat → RegSet → Prop
  /-- Where the definition starts. -/
  start : Nat

/-- Where the word at `i` comes from, in the definition `w` that has got to `here`. -/
inductive Origin (src : Sources) (w : Definition) (here i : Nat) : InstrWord → Prop
  | movable {v : InstrWord} : Movable src.raw w.clobbered v → Origin src w here i v
  | branch {j : Instruction} {target : Nat} : w.hasBranches = true → w.body ≤ target →
      target ≤ here →
      (Asm.b (distance i target) = .ok j ∨ ∃ reg, Asm.cbz reg (distance i target) = .ok j) →
      Origin src w here i j.encode
  | call {j : Instruction} {entry : Nat} {clobbers : RegSet} : w.leaf = false →
      src.callee entry clobbers → clobbers ⊆ w.clobbered → Asm.bl (distance i entry) = .ok j →
      Origin src w here i j.encode
  | callReg (reg : Reg) : w.leaf = false → RegSet.callerSaved ⊆ w.clobbered →
      Origin src w here i (Instruction.callReg reg).encode
  | placeholder (p : Placeholder) : Origin src w here i p.word

/-- The definition says about itself what the pending patch will add to it. -/
def PendingPatch.Accounted (w : Definition) : PendingPatch → Prop
  | exit _ => w.earlyReturn = true ∧ w.hasBranches = true
  | error _ _ => w.raises = true ∧ w.hasBranches = true
  | recursion _ _ => w.leaf = false ∧ RegSet.callerSaved ⊆ w.clobbered
  | literal _ reg _ => w.pcRelative = true ∧ w.clobbered.contains reg = true

/-- What was known about `w` is still so in `w'`. -/
structure Definition.Widens (w w' : Definition) : Prop where
  start : w'.start = w.start
  clobbered : w.clobbered ⊆ w'.clobbered
  leaf : w.leaf = false → w'.leaf = false
  pcRelative : w.pcRelative = true → w'.pcRelative = true
  hasBranches : w.hasBranches = true → w'.hasBranches = true
  earlyReturn : w.earlyReturn = true → w'.earlyReturn = true
  raises : w.raises = true → w'.raises = true

namespace Definition.Widens

variable {w w' w'' : Definition}

theorem refl (w : Definition) : w.Widens w :=
  ⟨rfl, RegSet.subset_refl _, id, id, id, id, id⟩

theorem trans (first : w.Widens w') (second : w'.Widens w'') : w.Widens w'' :=
  ⟨second.start.trans first.start, RegSet.subset_trans first.clobbered second.clobbered,
    second.leaf ∘ first.leaf, second.pcRelative ∘ first.pcRelative,
    second.hasBranches ∘ first.hasBranches, second.earlyReturn ∘ first.earlyReturn,
    second.raises ∘ first.raises⟩

end Definition.Widens

variable {src : Sources}

theorem Movable.mono {raw : InstrWord → RegSet → Prop} {regs regs' : RegSet} (more : regs ⊆ regs')
    (movable : Movable raw regs v) : Movable raw regs' v := by
  cases movable with
  | raw allowed within => exact .raw allowed (RegSet.subset_trans within more)
  | plain plain within => exact .plain plain fun r member => (within r member).imp_right (more r)

theorem Origin.widen {w' : Definition} {here here' i : Nat} (widens : w.Widens w')
    (le : here ≤ here') (origin : Origin src w here i v) :
    Origin src w' here' i v := by
  cases origin with
  | movable movable => exact .movable (movable.mono widens.clobbered)
  | branch branches low high made =>
    refine .branch (widens.hasBranches branches) ?_ (Nat.le_trans high le) made
    rwa [Definition.body, widens.start]
  | call calls known within made =>
    exact .call (widens.leaf calls) known (RegSet.subset_trans within widens.clobbered) made
  | callReg reg calls within =>
    exact .callReg reg (widens.leaf calls) (RegSet.subset_trans within widens.clobbered)
  | placeholder p => exact .placeholder p

theorem PendingPatch.Accounted.widen {w' : Definition} {p : PendingPatch} (widens : w.Widens w')
    (accounted : p.Accounted w) : p.Accounted w' := by
  cases p with
  | exit index => exact ⟨widens.earlyReturn accounted.1, widens.hasBranches accounted.2⟩
  | error index reg => exact ⟨widens.raises accounted.1, widens.hasBranches accounted.2⟩
  | recursion index check =>
    exact ⟨widens.leaf accounted.1, RegSet.subset_trans accounted.2 widens.clobbered⟩
  | literal index reg value =>
    exact ⟨widens.pcRelative accounted.1, widens.clobbered reg accounted.2⟩

/-! ## Sound drafts -/

/-- The slots that are filled when the definition ends, those of its prologue apart. -/
def Definition.due (w : Definition) : Slots :=
  w.patches.flatMap PendingPatch.slots ++ w.locals.slots

/-- The position `i` is in the body as far as it has got. -/
def Draft.Holds (d : Draft) (i : Nat) : Prop := d.word.body ≤ i ∧ i < d.heap.here

/-- Every word of the definition has an origin, and its ledger is accounted for. -/
structure Draft.Sound (src : Sources) (d : Draft) : Prop where
  start : d.word.start = src.start
  room : src.start + prologueSlots ≤ d.heap.here
  words : ∀ i v, d.word.body ≤ i → d.heap.word? i = some v →
    Origin src d.word d.heap.here i v
  patches : ∀ p ∈ d.word.patches, p.Accounted d.word
  reads : ∀ l ∈ d.word.locals, ∀ r ∈ l.reads, d.word.clobbered.contains r.target = true
  control : d.word.control ≠ [] → d.word.hasBranches = true
  due : ∀ slot ∈ d.word.due, d.Holds slot.1

/-- What was known about `d` is still so in `d'`. -/
structure Draft.Widens (d d' : Draft) : Prop where
  word : d.word.Widens d'.word
  here : d.heap.here ≤ d'.heap.here

namespace Draft

variable {d d' d'' : Draft}

theorem Widens.refl (d : Draft) : d.Widens d := ⟨.refl _, Nat.le_refl _⟩

theorem Widens.trans (first : d.Widens d') (second : d'.Widens d'') : d.Widens d'' :=
  ⟨first.word.trans second.word, Nat.le_trans first.here second.here⟩

theorem Widens.holds (widens : d.Widens d') {i : Nat} (holds : d.Holds i) : d'.Holds i := by
  refine ⟨?_, Nat.lt_of_lt_of_le holds.2 widens.here⟩
  rw [Definition.body, widens.word.start]
  exact holds.1

/-- Only words and definitions matter. -/
theorem Sound.of_staged (sound : d.Sound src) {heap : CodeHeap}
    (staged : heap.staged = d.heap.staged) : Draft.Sound src ⟨heap, d.word⟩ := by
  have here : heap.here = d.heap.here := congrArg Array.size staged
  refine { sound with room := ?_, words := fun i v low at_i => ?_, due := fun slot member => ?_ }
  · show _ ≤ heap.here
    rw [here]
    exact sound.room
  · have origin := sound.words i v low (by rwa [CodeHeap.word?, ← staged])
    show Origin src d.word heap.here i v
    rwa [here]
  · exact ⟨(sound.due slot member).1, here ▸ (sound.due slot member).2⟩

/-- Further words need an origin each. -/
theorem Sound.stage (sound : d.Sound src) {ws : List InstrWord}
    (origins : ∀ n v, ws[n]? = some v →
      Origin src d.word (d.heap.here + ws.length) (d.heap.here + n) v) :
    (d.stage ws).Sound src := by
  have here : (d.stage ws).heap.here = d.heap.here + ws.length := by simp
  have room := sound.room
  refine { sound with
    room := by omega
    words := fun i v low at_i => ?_
    due := fun slot member => ⟨(sound.due slot member).1, by
      have := (sound.due slot member).2
      omega⟩ }
  rw [here]
  replace at_i : (d.heap.staged ++ ws.toArray)[i]? = some v := at_i
  rw [Array.getElem?_append] at at_i
  split at at_i
  · exact (sound.words i v low at_i).widen (.refl _) (Nat.le_add_right _ _)
  · next high =>
    have above : d.heap.here ≤ i := Nat.le_of_not_lt high
    have origin := origins (i - d.heap.here) v (by simpa [CodeHeap.here] using at_i)
    rwa [Nat.add_sub_cancel' above] at origin

theorem Sound.replace (sound : d.Sound src) {n : Nat}
    (origin : Origin src d.word d.heap.here n v) :
    (d.replace n v).Sound src := by
  have here : (d.replace n v).heap.here = d.heap.here := by simp [Draft.replace, CodeHeap.here]
  refine { sound with
    room := by rw [here]; exact sound.room
    words := fun i v' low at_i => ?_
    due := fun slot member => ⟨(sound.due slot member).1, here ▸ (sound.due slot member).2⟩ }
  rw [here]
  replace at_i : (d.heap.staged.setIfInBounds n v)[i]? = some v' := at_i
  rw [Array.getElem?_setIfInBounds] at at_i
  split at at_i
  · next same =>
    split at at_i
    · obtain rfl := Option.some.inj at_i
      rwa [← same]
    · cases at_i
  · exact sound.words i v' low at_i

/-- A change of the definition must account for what it adds. -/
theorem Sound.modify (sound : d.Sound src) (widens : d.word.Widens w)
    (patches : ∀ p ∈ w.patches, p ∈ d.word.patches ∨ p.Accounted w)
    (reads : ∀ l ∈ w.locals, ∀ r ∈ l.reads,
      (∃ l' ∈ d.word.locals, r ∈ l'.reads) ∨ w.clobbered.contains r.target = true)
    (control : w.control ≠ [] → d.word.control ≠ [] ∨ w.hasBranches = true)
    (due : ∀ slot ∈ w.due, slot ∈ d.word.due ∨ d.Holds slot.1) :
    Draft.Sound src ⟨d.heap, w⟩ := by
  refine ⟨widens.start.trans sound.start, sound.room, fun i v low at_i => ?_, fun p member => ?_,
    fun l isLocal r member => ?_, fun isOpen => ?_, fun slot member => ?_⟩
  · refine (sound.words i v ?_ at_i).widen widens (Nat.le_refl _)
    rwa [Definition.body, widens.start] at low
  · rcases patches p member with old | accounted
    · exact (sound.patches p old).widen widens
    · exact accounted
  · rcases reads l isLocal r member with ⟨l', isLocal', member'⟩ | announced
    · exact widens.clobbered _ (sound.reads l' isLocal' r member')
    · exact announced
  · rcases control isOpen with isOpen' | branches
    · exact widens.hasBranches (sound.control isOpen')
    · exact branches
  · have later : d.Widens ⟨d.heap, w⟩ := ⟨widens, Nat.le_refl _⟩
    rcases due slot member with old | holds
    · exact later.holds (sound.due slot old)
    · exact later.holds holds

end Draft

namespace Emit

variable {α β : Type} {d0 : Draft}

/-- An outcome that keeps drafts sound and what was known in `d`. -/
def Left (src : Sources) (d : Draft) (Q : α → Prop) : EStateM.Result CompileError Draft α → Prop
  | .ok a d' => d'.Sound src ∧ d.Widens d' ∧ Q a
  | .error _ d' => d'.Sound src ∧ d.Widens d'

/-- Emission by `m` keeps drafts sound and what was known in `d0`; its result is in `Q`. -/
def Safe (src : Sources) (d0 : Draft) (m : Emit α) (Q : α → Prop) : Prop :=
  ∀ settings, Keeps (fun d => d.Sound src ∧ d0.Widens d) (m settings) Q

/-- The usual case: nothing about the result matters. -/
abbrev Sound (src : Sources) (d0 : Draft) (m : Emit α) : Prop :=
  Safe src d0 m fun _ => True

namespace Safe

variable {m : Emit α} {f : α → Emit β} {Q : α → Prop} {R : β → Prop}

theorem pure {a : α} (result : Q a) : Safe src d0 (pure a) Q :=
  fun _ => Keeps.pure result

theorem throw (e : CompileError) : Safe src d0 (throw e : Emit α) Q :=
  fun _ => Keeps.throw e

theorem bind (first : Safe src d0 m Q)
    (second : ∀ a, Q a → Safe src d0 (f a) R) :
    Safe src d0 (m >>= f) R :=
  fun settings => Keeps.bind (first settings) fun a result => second a result settings

theorem seq (first : Sound src d0 m)
    (second : ∀ a, Safe src d0 (f a) R) :
    Safe src d0 (m >>= f) R :=
  bind first fun a _ => second a

theorem read : Sound src d0 read := fun _ => Keeps.pure trivial

theorem forM {xs : List β} {f : β → Emit PUnit}
    (each : ∀ x ∈ xs, Sound src d0 (f x)) :
    Sound src d0 (xs.forM f) := by
  induction xs with
  | nil => exact pure trivial
  | cons x xs ih =>
    exact seq (each x List.mem_cons_self) fun _ =>
      ih fun y member => each y (List.mem_cons_of_mem _ member)

/-- What one step leaves. -/
theorem of_step (step : ∀ settings d, d.Sound src → d0.Widens d → Left src d Q (m settings d)) :
    Safe src d0 m Q := by
  intro settings d ⟨sound, known⟩
  have left := step settings d sound known
  cases outcome : m settings d with
  | ok a d' =>
    rw [outcome] at left
    exact ⟨⟨left.1, known.trans left.2.1⟩, left.2.2⟩
  | error e d' =>
    rw [outcome] at left
    exact ⟨left.1, known.trans left.2⟩

/-- What is known of the draft that the first part leaves may be used in the second. -/
theorem refresh {J : α → Draft → Prop}
    (first : ∀ settings, Runs (fun d => d.Sound src ∧ d0.Widens d) (m settings)
      (fun a d => (d.Sound src ∧ d0.Widens d) ∧ J a d)
      fun d => d.Sound src ∧ d0.Widens d)
    (second : ∀ a d1, d0.Widens d1 → d1.Sound src → J a d1 →
      Safe src d1 (f a) R) : Safe src d0 (m >>= f) R := by
  refine fun settings => Runs.bind (first settings) fun a d ⟨⟨sound, known⟩, holds⟩ => ?_
  have result := second a d known sound holds settings d ⟨sound, .refl d⟩
  cases outcome : f a settings d with
  | ok b d' =>
    rw [outcome] at result
    exact ⟨⟨result.1.1, known.trans result.1.2⟩, result.2⟩
  | error e d' =>
    rw [outcome] at result
    exact ⟨result.1, known.trans result.2⟩

theorem bind_word {f : Definition → Emit β}
    (next : ∀ d1, d0.Widens d1 → d1.Sound src → Safe src d1 (f d1.word) R) :
    Safe src d0 (word >>= f) R :=
  refresh (J := fun w d => w = d.word) (fun _ _ holds => ⟨holds, rfl⟩)
    fun _ d1 known sound same => by
    rw [same]
    exact next d1 known sound

theorem bind_here {f : Nat → Emit β}
    (next : ∀ d1, d0.Widens d1 → d1.Sound src → Safe src d1 (f d1.heap.here) R) :
    Safe src d0 (here >>= f) R :=
  refresh (J := fun n d => n = d.heap.here) (fun _ _ holds => ⟨holds, rfl⟩)
    fun _ d1 known sound same => by
      rw [same]
      exact next d1 known sound

end Safe

open Safe

/-! ## Basic steps -/

theorem depth_safe : Sound src d0 depth := fun _ _ holds => ⟨holds, trivial⟩

theorem convention_safe : Sound src d0 convention := fun _ => Keeps.pure trivial

theorem assembled_safe (result : Except EncodeError α) :
    Safe src d0 (assembled result) fun a => result = .ok a := by
  cases result with
  | ok a => exact pure rfl
  | error e => exact throw _

theorem arity_safe (result : Except ArityError α) : Sound src d0 (arity result) := by
  cases result with
  | ok a => exact pure trivial
  | error e => exact throw _

variable {f : Definition → Definition}

theorem modifyWord_safe (widens : ∀ w : Definition, d0.word.Widens w → w.Widens (f w))
    (patches : ∀ w, d0.word.Widens w → ∀ p ∈ (f w).patches, p ∈ w.patches ∨ p.Accounted (f w))
    (reads : ∀ w, d0.word.Widens w → ∀ l ∈ (f w).locals, ∀ r ∈ l.reads,
      (∃ l' ∈ w.locals, r ∈ l'.reads) ∨ (f w).clobbered.contains r.target = true)
    (control : ∀ w, d0.word.Widens w → (f w).control ≠ [] → w.control ≠ [] ∨
      (f w).hasBranches = true)
    (due : ∀ w, d0.word.Widens w → ∀ slot ∈ (f w).due, slot ∈ w.due ∨ d0.Holds slot.1) :
    Sound src d0 (modifyWord f) :=
  of_step fun _ d sound known =>
    ⟨sound.modify (widens d.word known.word) (patches d.word known.word) (reads d.word known.word)
      (control d.word known.word) fun slot member =>
        (due d.word known.word slot member).imp_right known.holds,
      ⟨widens d.word known.word, Nat.le_refl _⟩, trivial⟩

/-- A change that adds nothing to account for. -/
theorem modifyWord_same (widens : ∀ w : Definition, w.Widens (f w))
    (same : ∀ w, (f w).patches = w.patches ∧ (f w).locals = w.locals ∧ (f w).control = w.control) :
    Sound src d0 (modifyWord f) := by
  refine modifyWord_safe (fun w _ => widens w) ?_ ?_ ?_ ?_
  · intro w _ p member
    rw [(same w).1] at member
    exact Or.inl member
  · intro w _ l isLocal r member
    rw [(same w).2.1] at isLocal
    exact Or.inl ⟨l, isLocal, member⟩
  · intro w _ isOpen
    rw [(same w).2.2] at isOpen
    exact Or.inl isOpen
  · intro w _ slot member
    rw [Definition.due, (same w).1, (same w).2.1] at member
    exact Or.inl member

theorem setDepth_safe (depth : Nat) : Sound src d0 (setDepth depth) :=
  modifyWord_same (fun _ => ⟨rfl, RegSet.subset_refl _, id, id, id, id, id⟩)
    fun _ => ⟨rfl, rfl, rfl⟩

/-- A pending patch together with the change that accounts for it. -/
theorem pushPatch_safe {p : PendingPatch} (widens : ∀ w : Definition, w.Widens (f w))
    (same : ∀ w, (f w).patches = w.patches ∧ (f w).locals = w.locals ∧ (f w).control = w.control)
    (accounted : ∀ w, d0.word.Widens w → p.Accounted (f w))
    (reserved : ∀ slot ∈ p.slots, d0.Holds slot.1) :
    Sound src d0 (do
      pushPatch p
      modifyWord f) := by
  have pushed : Sound src d0
      (modifyWord fun w => f { w with patches := w.patches ++ [p] }) := by
    refine modifyWord_safe (fun w _ => ?_) (fun w known q member => ?_)
      (fun w _ l isLocal r member => ?_)
      (fun w _ isOpen => ?_) fun w _ slot member => ?_
    · have pushed : w.Widens { w with patches := w.patches ++ [p] } :=
        ⟨rfl, RegSet.subset_refl _, id, id, id, id, id⟩
      exact pushed.trans (widens _)
    · rw [(same _).1] at member
      rcases List.mem_append.1 member with old | new
      · exact Or.inl old
      · rw [List.mem_singleton.1 new]
        exact Or.inr (accounted _ ⟨known.start, known.clobbered, known.leaf, known.pcRelative,
          known.hasBranches, known.earlyReturn, known.raises⟩)
    · rw [(same _).2.1] at isLocal
      exact Or.inl ⟨l, isLocal, member⟩
    · rw [(same _).2.2] at isOpen
      exact Or.inl isOpen
    · rw [Definition.due, (same _).1, (same _).2.1, List.flatMap_append, List.append_assoc,
        List.mem_append, List.mem_append] at member
      rcases member with old | new | local'
      · exact Or.inl (List.mem_append_left _ old)
      · rw [List.flatMap_singleton] at new
        exact Or.inr (reserved slot new)
      · exact Or.inl (List.mem_append_right _ local')
  exact pushed

/-! ## Emission -/

/-- A list of words is staged up to where the heap is full. -/
theorem emitAll_after (ws : List InstrWord) (h : CodeHeap) :
    ∃ n, stateAfter (CodeHeap.emitAll ws) h = h.stage (ws.take n) := by
  induction ws generalizing h with
  | nil => exact ⟨0, (CodeHeap.stage_nil h).symm⟩
  | cons w ws ih =>
    rw [CodeHeap.emitAll, stateAfter_bind]
    cases first : CodeHeap.emit w h with
    | error e h' =>
      refine ⟨0, ?_⟩
      unfold CodeHeap.emit at first
      split at first
      · cases first
      · cases first
        exact (CodeHeap.stage_nil h).symm
    | ok i h' =>
      obtain ⟨-, rfl⟩ := CodeHeap.emit_ok first
      obtain ⟨n, rest⟩ := ih (h.stage [w])
      refine ⟨n + 1, rest.trans ?_⟩
      rw [CodeHeap.stage_stage]
      rfl

theorem emit_after (v : InstrWord) (h : CodeHeap) :
    stateAfter (CodeHeap.emit v) h = h.stage [] ∨ stateAfter (CodeHeap.emit v) h = h.stage [v] := by
  unfold stateAfter CodeHeap.emit
  split
  · next ok =>
    split at ok
    · cases ok
      exact Or.inr (by simp [CodeHeap.stage])
    · cases ok
  · next error =>
    split at error
    · cases error
    · cases error
      exact Or.inl (CodeHeap.stage_nil _).symm

/-- A heap operation that stages words which have an origin wherever they stand. -/
theorem onHeap_safe {operation : HeapM α}
    (stages : ∀ h, ∃ ws, stateAfter operation h = h.stage ws ∧
      ∀ v ∈ ws, ∀ w, d0.word.Widens w → ∀ here i, Origin src w here i v) :
    Sound src d0 (onHeap operation) := by
  refine of_step fun settings d sound known => ?_
  obtain ⟨ws, staged, origins⟩ := stages d.heap
  have left : Draft.Sound src ⟨stateAfter operation d.heap, d.word⟩ ∧
      d.Widens ⟨stateAfter operation d.heap, d.word⟩ := by
    rw [staged]
    refine ⟨sound.stage fun k v at_k => ?_, .refl _, ?_⟩
    · exact origins v (List.mem_of_getElem? at_k) d.word known.word _ _
    · simp
  obtain ⟨heap, word⟩ := d
  cases outcome : operation heap with
  | ok a heap' =>
    rw [stateAfter_of_ok outcome] at left
    simp only [onHeap, outcome]
    exact ⟨left.1, left.2, trivial⟩
  | error e heap' =>
    rw [stateAfter_of_error outcome] at left
    simp only [onHeap, outcome]
    exact left

theorem emitWords_safe {ws : List InstrWord}
    (origins : ∀ v ∈ ws, ∀ w, d0.word.Widens w → ∀ here i, Origin src w here i v) :
    Sound src d0 (onHeap (CodeHeap.emitAll ws)) := by
  refine onHeap_safe fun h => ?_
  obtain ⟨n, after⟩ := emitAll_after ws h
  exact ⟨_, after, fun v member => origins v (List.mem_of_mem_take member)⟩

theorem emitWord_safe
    (origin : ∀ w, d0.word.Widens w → ∀ here i, Origin src w here i v) :
    Sound src d0 (emitWord v) := by
  refine onHeap_safe fun h => ?_
  rcases emit_after v h with full | staged
  · exact ⟨_, full, by simp⟩
  · refine ⟨_, staged, fun u member => ?_⟩
    rw [List.mem_singleton.1 member]
    exact origin

/-- A plain instruction may write what has been announced. -/
theorem emit_safe {i : Instruction} (plain : i.isPlain = true)
    (written : ∀ r ∈ i.written, r.isReserved = true ∨ d0.word.clobbered.contains r = true) :
    Sound src d0 (emit i) :=
  emitWord_safe fun _ known _ _ => .movable ((Movable.plain plain written).mono known.clobbered)

theorem placeholder_safe (p : Placeholder) : Sound src d0 (placeholder p) :=
  emitWord_safe fun _ _ _ _ => .placeholder p

/-- A placeholder stands in the body. -/
theorem bind_placeholder {f : Nat → Emit β} {R : β → Prop} (p : Placeholder)
    (next : ∀ d1 index, d0.Widens d1 → d1.Holds index → Safe src d1 (f index) R) :
    Safe src d0 (placeholder p >>= f) R := by
  refine refresh (J := fun index d => d.Holds index) (fun settings d holds => ?_)
    fun index d1 known _ inside => next d1 index known inside
  have kept := placeholder_safe p settings d holds
  cases outcome : placeholder p settings d with
  | error e d' =>
    rw [outcome] at kept
    exact kept
  | ok index d' =>
    rw [outcome] at kept
    obtain ⟨rfl, rfl⟩ := emitWord_ok outcome
    refine ⟨kept.1, ?_, by simp⟩
    rw [Draft.word_stage, Definition.body, holds.1.start]
    exact holds.1.room

theorem clobber_reads (regs : RegSet) (position? : Nat → Option Nat) (count : Nat) (ls : Locals) :
    ∀ l ∈ (Locals.clobber regs position? count ls).locals, ∃ l' ∈ ls, l.reads = l'.reads := by
  induction ls generalizing count with
  | nil => simp [Locals.clobber]
  | cons l rest ih =>
    have later : ∀ count, ∀ k ∈ (Locals.clobber regs position? count rest).locals,
        ∃ k' ∈ l :: rest, k.reads = k'.reads := by
      intro count k member
      obtain ⟨k', old, same⟩ := ih count k member
      exact ⟨k', List.mem_cons_of_mem _ old, same⟩
    have cons : ∀ (first : Local) count, first.reads = l.reads →
        ∀ k ∈ first :: (Locals.clobber regs position? count rest).locals,
          ∃ k' ∈ l :: rest, k.reads = k'.reads := by
      intro first count same k member
      rcases List.mem_cons.1 member with rfl | old
      · exact ⟨l, List.mem_cons_self, same⟩
      · exact later count k old
    unfold Locals.clobber
    split
    · exact cons l count rfl
    · split
      · exact fun k member => ⟨k, member, rfl⟩
      · exact cons _ (count + 1) rfl
    · exact cons _ count rfl

/-- The writes that are reserved fit. -/
theorem clobber_fits (regs : RegSet) (h : CodeHeap) (count : Nat) (ls : Locals) :
    (Locals.clobber regs h.position? count ls).writes = count ∨
      h.here + (Locals.clobber regs h.position? count ls).writes ≤ h.capacity := by
  induction ls generalizing count with
  | nil => exact Or.inl rfl
  | cons l rest ih =>
    unfold Locals.clobber
    split
    · exact ih count
    · split
      · exact Or.inl rfl
      · next index placed =>
        have room : h.here + (count + 1) ≤ h.capacity := by
          simp only [CodeHeap.position?] at placed
          split at placed
          · assumption
          · cases placed
        rcases ih (count + 1) with same | fits
        · refine Or.inr ?_
          dsimp only
          rwa [same]
        · exact Or.inr fits
    · exact ih count

/-- Giving registers up reserves the writes that are recorded, whether or not there is room for all
that would be needed. -/
theorem spill_after (regs : RegSet) (settings : Settings) (d : Draft) :
    spill regs settings d =
      if (spilling regs d).complete then .ok () (spilled regs d)
      else .error (.memory (.exhausted .code wordBytes 0)) (spilled regs d) := by
  let ws := List.replicate (spilling regs d).writes Placeholder.localWrite.word
  have staged : CodeHeap.emitAll ws d.heap = .ok () (d.heap.stage ws) := by
    refine CodeHeap.emitAll_fits ?_
    rcases clobber_fits regs d.heap 0 d.word.locals with none | fits
    · exact Or.inl ((List.replicate_eq_nil_iff _).2 none)
    · exact Or.inr (by rw [List.length_replicate]; exact fits)
  have emitted : onHeap (CodeHeap.emitAll ws) settings
      ⟨d.heap, { d.word with locals := (spilling regs d).locals }⟩ = .ok () (spilled regs d) := by
    simp only [onHeap, staged]
    rfl
  refine Eq.trans (bind_of_ok emitted _) ?_
  show (if (spilling regs d).complete then _ else _ : Emit Unit) settings (spilled regs d) = _
  split <;> rfl

theorem spilled_sound {d : Draft} (sound : d.Sound src) (regs : RegSet) :
    (spilled regs d).Sound src ∧ d.Widens (spilled regs d) := by
  have staged : (d.stage (List.replicate (spilling regs d).writes
      Placeholder.localWrite.word)).Sound src := by
    refine sound.stage fun n v at_n => ?_
    rw [List.eq_of_mem_replicate (List.mem_of_getElem? at_n)]
    exact .placeholder _
  have widens : d.word.Widens { d.word with locals := (spilling regs d).locals } :=
    ⟨rfl, RegSet.subset_refl _, id, id, id, id, id⟩
  refine ⟨staged.modify widens (fun p member => Or.inl member) (fun l member r read => ?_) Or.inl
    fun slot member => ?_, widens, by simp [spilled]⟩
  · obtain ⟨l', old, same⟩ := clobber_reads regs d.heap.position? 0 d.word.locals l member
    exact Or.inl ⟨l', old, same ▸ read⟩
  · obtain ⟨-, perm⟩ := Locals.clobber_slots (position?_counts d.heap) regs 0 d.word.locals
    rcases List.mem_append.1 member with patch | write
    · exact Or.inl (List.mem_append_left _ patch)
    · rcases List.mem_append.1 (perm.mem_iff.1 write) with old | new
      · exact Or.inl (List.mem_append_right _ old)
      · simp only [Locals.writeSlots, List.mem_map, List.mem_range'_1] at new
        obtain ⟨index, ⟨low, high⟩, rfl⟩ := new
        have room := sound.room
        have start := sound.start
        have body : d.word.body = src.start + prologueSlots := by rw [Definition.body, start]
        refine Or.inr ⟨?_, ?_⟩
        · show d.word.body ≤ index
          omega
        · rw [Draft.heap_stage, CodeHeap.here_stage, List.length_replicate]
          show index < d.heap.here + (Locals.clobber regs d.heap.position? 0 d.word.locals).writes
          omega

theorem spill_safe (regs : RegSet) : Sound src d0 (spill regs) := by
  refine of_step fun settings d sound _ => ?_
  obtain ⟨left, widens⟩ := spilled_sound sound regs
  rw [spill_after]
  split
  · exact ⟨left, widens, trivial⟩
  · exact ⟨left, widens⟩

/-- After registers have been announced, they may be written. -/
theorem bind_clobber {f : Unit → Emit β} {R : β → Prop} (regs : RegSet)
    (next : ∀ d1, d0.Widens d1 → regs ⊆ d1.word.clobbered → Safe src d1 (f ()) R) :
    Safe src d0 (clobber regs >>= f) R := by
  refine refresh (J := fun _ d => regs ⊆ d.word.clobbered) (fun settings => ?_)
    fun _ d1 known _ announced => next d1 known announced
  refine Runs.bind (spill_safe regs settings) fun _ => ?_
  intro d ⟨⟨sound, known⟩, _⟩
  have widens : d.word.Widens { d.word with clobbered := d.word.clobbered.union regs } :=
    ⟨rfl, RegSet.subset_union_left _ _, id, id, id, id, id⟩
  exact ⟨⟨sound.modify widens (fun _ member => Or.inl member)
    (fun l isLocal r member => Or.inl ⟨l, isLocal, member⟩) Or.inl fun _ => Or.inl,
    known.trans ⟨widens, Nat.le_refl _⟩⟩, RegSet.subset_union_right _ _⟩

theorem barrier_safe : Sound src d0 barrier := spill_safe _

/-- A register that has been announced. -/
theorem announced {regs : RegSet} {reg : Reg} (within : RegSet.singleton reg ⊆ regs) :
    regs.contains reg = true :=
  within reg (RegSet.contains_singleton reg)

theorem loadImmediate_safe (reg : Reg) (value : Cell) : Sound src d0 (loadImmediate reg value) := by
  refine bind_clobber _ fun d1 _ within => seq read fun settings => ?_
  have known := announced within
  split
  · next moves made =>
    refine emitWords_safe fun v member w widens here i => ?_
    obtain ⟨j, isMove, rfl⟩ := List.mem_map.1 member
    obtain ⟨op, imm, hw, rfl⟩ := Constant.mem_moves? made isMove
    refine .movable (.plain rfl fun r inside => Or.inr ?_)
    rw [List.mem_singleton.1 inside]
    exact widens.clobbered reg known
  · refine bind_placeholder _ fun d2 index widens2 inside =>
      pushPatch_safe (fun _ => ⟨rfl, RegSet.subset_refl _, id, fun _ => rfl, id, id, id⟩)
        (fun _ => ⟨rfl, rfl, rfl⟩)
        (fun _ widens => ⟨rfl, widens.clobbered reg (widens2.word.clobbered reg known)⟩) ?_
    simpa [PendingPatch.slots] using inside

/-- Emit `v`, and then note in the definition that it is there. -/
def emitNoting (v : InstrWord) (f : Definition → Definition) : Emit Unit := do
  let _ ← emitWord v
  modifyWord f

theorem emitNoting_cases (v : InstrWord) (f : Definition → Definition) (settings : Settings)
    (d : Draft) :
    emitNoting v f settings d = .ok () ⟨d.heap.stage [v], f d.word⟩ ∨
      ∃ e, emitNoting v f settings d = .error e d := by
  obtain ⟨heap, word⟩ := d
  by_cases room : heap.staged.size < heap.capacity
  · have emitted : emitWord v settings ⟨heap, word⟩ = .ok heap.here ⟨heap.stage [v], word⟩ := by
      simp [emitWord, onHeap, CodeHeap.emit, room, CodeHeap.stage, CodeHeap.here]
    exact Or.inl (bind_of_ok emitted _)
  · have full : emitWord v settings ⟨heap, word⟩ =
        .error (.memory (.exhausted .code wordBytes 0)) ⟨heap, word⟩ := by
      simp [emitWord, onHeap, CodeHeap.emit, room]
    exact Or.inr ⟨_, bind_of_error full _⟩

/-- The word may rely on what is noted. -/
theorem emitNoting_step {d : Draft} (sound : d.Sound src)
    (widens : d.word.Widens (f d.word))
    (same : (f d.word).patches = d.word.patches ∧ (f d.word).locals = d.word.locals ∧
      (f d.word).control = d.word.control)
    (origin : Origin src (f d.word) (d.heap.here + 1) d.heap.here v) (settings : Settings) :
    Left src d (fun _ => True) (emitNoting v f settings d) := by
  rcases emitNoting_cases v f settings d with ok | ⟨e, failed⟩
  · rw [ok]
    have noted : Draft.Sound src ⟨d.heap, f d.word⟩ :=
      sound.modify widens (by rw [same.1]; exact fun _ member => Or.inl member)
        (by rw [same.2.1]; exact fun l isLocal r member => Or.inl ⟨l, isLocal, member⟩)
        (by rw [same.2.2]; exact Or.inl)
        (by rw [Definition.due, same.1, same.2.1]; exact fun _ => Or.inl)
    refine ⟨noted.stage fun n u at_n => ?_, ⟨widens, by simp⟩, trivial⟩
    obtain ⟨rfl, rfl⟩ : n = 0 ∧ u = v := by
      rcases n with _ | n
      · exact ⟨rfl, (Option.some.inj at_n).symm⟩
      · cases at_n
    exact origin
  · rw [failed]
    exact ⟨sound, .refl d⟩

theorem callWord_eq (entry : Nat) (settings : Settings) (d : Draft) :
    callWord entry settings d = (do
      let call ← assembled (Asm.bl (distance d.heap.here entry))
      emitNoting call.encode fun w => { w with leaf := false } : Emit Unit) settings d := rfl

/-- A call is made for the position where it is emitted. -/
theorem callWord_safe {entry : Nat} {clobbers : RegSet} (known : src.callee entry clobbers)
    (within : clobbers ⊆ d0.word.clobbered) : Sound src d0 (callWord entry) := by
  refine of_step fun settings d sound widens => ?_
  rw [callWord_eq]
  cases made : Asm.bl (distance d.heap.here entry) with
  | error e => exact ⟨sound, .refl d⟩
  | ok call =>
    exact emitNoting_step (f := fun w => { w with leaf := false }) sound ⟨rfl, RegSet.subset_refl _,
      fun _ => rfl, id, id, id, id⟩
      ⟨rfl, rfl, rfl⟩
      (.call rfl known (RegSet.subset_trans within widens.word.clobbered) made) settings

theorem callAddress_safe (address : Nat) (throughSlot : Bool)
    (within : RegSet.callerSaved ⊆ d0.word.clobbered) :
    Sound src d0 (callAddress address throughSlot) := by
  have scratch : d0.word.clobbered.contains .scratch = true := within _ (by decide)
  have last : Sound src d0 (emitNoting (Instruction.callReg .scratch).encode
      fun w => { w with leaf := false }) :=
    of_step fun settings d sound widens =>
      emitNoting_step (f := fun w => { w with leaf := false }) sound
        ⟨rfl, RegSet.subset_refl _, fun _ => rfl, id, id, id, id⟩ ⟨rfl, rfl, rfl⟩
        (.callReg .scratch rfl (RegSet.subset_trans within widens.word.clobbered)) settings
  refine seq (loadImmediate_safe _ _) fun _ => ?_
  dsimp only
  split
  · refine bind (assembled_safe _) fun load made => ?_
    obtain ⟨imm, -, rfl⟩ := except_map_eq_ok.1 made
    refine seq (emit_safe rfl ?_) fun _ => last
    simpa [Instruction.written] using Or.inr scratch
  · exact last

theorem raiseIfNonzero_safe (reg : Reg) : Sound src d0 (raiseIfNonzero reg) :=
  bind_placeholder _ fun _ _ _ inside =>
    pushPatch_safe (fun _ => ⟨rfl, RegSet.subset_refl _, id, id, fun _ => rfl, id, fun _ => rfl⟩)
      (fun _ => ⟨rfl, rfl, rfl⟩) (fun _ _ => ⟨rfl, rfl⟩)
      (by simpa [PendingPatch.slots] using inside)

/-- Changing a local. -/
theorem modifyLocal_safe {n : Nat} {f : Local → Local}
    (reads : ∀ w : Definition, d0.word.Widens w → ∀ l : Local, ∀ r ∈ (f l).reads,
      r ∈ l.reads ∨ w.clobbered.contains r.target = true)
    (slots : ∀ l, ∀ slot ∈ (f l).slots, slot ∈ l.slots ∨ d0.Holds slot.1) :
    Sound src d0 (modifyWord fun w => { w with locals := w.locals.modify n f }) := by
  have split_modify : ∀ ls : Locals, ∀ l ∈ ls.modify n f, l ∈ ls ∨ ∃ l' ∈ ls, l = f l' := by
    intro ls l isLocal
    obtain ⟨i, bound, rfl⟩ := List.mem_iff_getElem.1 isLocal
    simp only [List.length_modify] at bound
    have old : ls[i] ∈ ls := List.getElem_mem bound
    rw [List.getElem_modify]
    split
    · exact Or.inr ⟨_, old, rfl⟩
    · exact Or.inl old
  refine modifyWord_safe (fun _ _ => ⟨rfl, RegSet.subset_refl _, id, id, id, id, id⟩)
    (fun _ _ _ member => Or.inl member) (fun w known l isLocal r member => ?_) (fun _ _ => Or.inl)
    fun w _ slot member => ?_
  · rcases split_modify w.locals l isLocal with old | ⟨l', old, rfl⟩
    · exact Or.inl ⟨l, old, member⟩
    · rcases reads w known l' r member with kept | new
      · exact Or.inl ⟨l', old, kept⟩
      · exact Or.inr new
  · rcases List.mem_append.1 member with patch | inLocals
    · exact Or.inl (List.mem_append_left _ patch)
    · obtain ⟨l, isLocal, inLocal⟩ := List.mem_flatMap.1 inLocals
      have kept : ∀ l' ∈ w.locals, slot ∈ l'.slots → slot ∈ w.due := fun l' old inside =>
        List.mem_append_right _ (List.mem_flatMap.2 ⟨l', old, inside⟩)
      rcases split_modify w.locals l isLocal with old | ⟨l', old, rfl⟩
      · exact Or.inl (kept l old inLocal)
      · exact (slots l' slot inLocal).imp_left (kept l' old)

end Emit

end ForthJit
