import ForthJit.Memory.CodeHeap
import ForthJit.Proofs.Outcome

/-!
# What a heap operation leaves alone

Every operation of a code heap except rewinding only adds to it: published words, the bytes of
constants and the address slots that are in use stay, and no cursor goes back.  `CodeHeap.Extends`
says this once, for successful and for failed operations alike.  `CodeHeap.Grows n` adds that the
staged words below `n` stay, which of all operations only a patch below `n` could break.
-/

namespace ForthJit

variable {align n : Nat} {α : Type}

/-! ## Rounding up -/

theorem dvd_nextMultiple (m n : Nat) : n ∣ nextMultiple m n := Nat.dvd_mul_left _ _

theorem le_nextMultiple (m : Nat) (positive : 0 < n) : m ≤ nextMultiple m n := by
  have split := Nat.div_add_mod (m + (n - 1)) n
  have small := Nat.mod_lt (m + (n - 1)) positive
  rw [nextMultiple, Nat.mul_comm]
  omega

theorem nextMultiple_le {m k : Nat} (positive : 0 < n) (below : m ≤ k) (multiple : n ∣ k) :
    nextMultiple m n ≤ k := by
  obtain ⟨j, rfl⟩ := multiple
  rw [nextMultiple, Nat.mul_comm n j]
  refine Nat.mul_le_mul_right n (Nat.lt_succ_iff.1 ((Nat.div_lt_iff_lt_mul positive).2 ?_))
  rw [Nat.succ_mul, Nat.mul_comm j n]
  omega

theorem nextMultiple_of_dvd {m : Nat} (positive : 0 < n) (multiple : n ∣ m) :
    nextMultiple m n = m :=
  Nat.le_antisymm (nextMultiple_le positive (Nat.le_refl m) multiple) (le_nextMultiple m positive)

/-! ## Contents of an area -/

/-- A write shows exactly at the positions it covers. -/
theorem Store.read_write (initial : α) (contents values : Array α) (position i : Nat) :
    Store.read initial (Store.write initial contents position values) i =
      if position ≤ i ∧ i < position + values.size then values.getD (i - position) initial
      else Store.read initial contents i := by
  simp only [Store.read, Store.write, Array.getD_eq_getD_getElem?, Array.getElem?_append,
    Array.getElem?_extract, Array.size_append, Array.size_extract, Array.size_replicate,
    Array.getElem?_replicate]
  grind

theorem Store.read_write_below {initial : α} {contents values : Array α}
    {position i : Nat} (below : i < position) :
    Store.read initial (Store.write initial contents position values) i =
      Store.read initial contents i := by
  rw [Store.read_write, if_neg (by omega)]

namespace Region

/-- The byte at a position of the region. -/
def byte (r : Region) (position : Nat) : UInt8 := Store.read 0 r.contents position

/-- `r'` is `r` after further allocations. -/
structure Extends (r r' : Region) : Prop where
  offset : r'.offset = r.offset
  capacity : r'.capacity = r.capacity
  used : r.used ≤ r'.used
  kept : ∀ i < r.used, r'.byte i = r.byte i

theorem Extends.refl (r : Region) : Extends r r :=
  ⟨rfl, rfl, Nat.le_refl _, fun _ _ => rfl⟩

variable {r r' : Region} {part : HeapPart} {length position : Nat}

theorem Extends.trans {r'' : Region} (first : Extends r r') (second : Extends r' r'') :
    Extends r r'' where
  offset := second.offset.trans first.offset
  capacity := second.capacity.trans first.capacity
  used := Nat.le_trans first.used second.used
  kept := fun i live =>
    (second.kept i (Nat.lt_of_lt_of_le live first.used)).trans (first.kept i live)

/-- A successful reservation starts at the next aligned position and fits. -/
theorem reserve_ok (ok : reserve part length align r = .ok position r') :
    position = nextMultiple r.used (max align 1) ∧ position + length ≤ r.capacity ∧
      r' = { r with used := position + length } := by
  unfold reserve at ok
  dsimp only at ok
  split at ok
  · cases ok
  · split at ok
    · cases ok
      exact ⟨rfl, ‹_›, rfl⟩
    · cases ok

theorem reserve_extends (ok : reserve part length align r = .ok position r') :
    Extends r r' ∧ r.used ≤ position := by
  obtain ⟨rfl, -, rfl⟩ := reserve_ok ok
  have above := le_nextMultiple r.used (show 0 < max align 1 by omega)
  exact ⟨⟨rfl, rfl, Nat.le_add_right_of_le above, fun _ _ => rfl⟩, above⟩

/-- What is written to a new reservation does not touch what was allocated before. -/
theorem Extends.of_reserve_write (ok : reserve part length align r = .ok position r')
    (bytes : Array UInt8) : Extends r (r'.write position bytes) := by
  obtain ⟨grown, above⟩ := reserve_extends ok
  refine ⟨grown.offset, grown.capacity, grown.used, fun i live => ?_⟩
  exact (Store.read_write_below (Nat.lt_of_lt_of_le live above)).trans (grown.kept i live)

end Region

namespace Mapping

/-- What a change of protection adds to the log. -/
def changesTo (m : Mapping) (span : Span) (protection : Protection) : List (Span × Protection) :=
  if (m.pagesOf span).isEmpty then [] else [(m.pagesOf span, protection)]

/-- A change of protection is logged, or refused. -/
theorem protect_cases (span : Span) (protection : Protection) (m : Mapping) : ∃ host,
    protect span protection m =
        .ok () { m with changes := m.changesTo span protection ++ m.changes, host } ∨
      ∃ a l, protect span protection m = .error (.protect protection a l) { m with host } := by
  unfold protect changesTo
  by_cases none : (m.pagesOf span).isEmpty = true
  · simp only [none, if_true]
    exact ⟨m.host, Or.inl rfl⟩
  · simp only [none]
    obtain ⟨goes, host⟩ := m.host.decideChange
    cases goes with
    | true => exact ⟨host, Or.inl rfl⟩
    | false => exact ⟨host, Or.inr ⟨_, _, rfl⟩⟩

end Mapping

namespace CodeHeap

/-! ## Consistent heaps -/

/-- The word at a position of the executable buffer. -/
def executableWord (h : CodeHeap) (i : Nat) : InstrWord := Store.read 0 h.executable i

/-- The executable copy of the published words is the staged one, both buffers fit, and the table
holds whole slots. -/
structure Consistent (h : CodeHeap) : Prop where
  published_le : h.published ≤ h.here
  here_le : h.here ≤ h.capacity
  copied : ∀ i < h.published, h.word? i = some (h.executableWord i)
  slots : h.table.used % 8 = 0

/-- `h'` is `h` after operations that only add to it. -/
structure Extends (h h' : CodeHeap) : Prop where
  base : h'.memory.base = h.memory.base
  executableOffset : h'.executableOffset = h.executableOffset
  capacity : h'.capacity = h.capacity
  published : h.published ≤ h'.published
  staged : ∀ i < h.published, h'.word? i = h.word? i
  executable : ∀ i < h.published, h'.executableWord i = h.executableWord i
  constants : h.constants.Extends h'.constants
  data : h.data.Extends h'.data
  table : h.table.Extends h'.table

theorem Extends.refl (h : CodeHeap) : Extends h h :=
  ⟨rfl, rfl, rfl, Nat.le_refl _, fun _ _ => rfl, fun _ _ => rfl, .refl _, .refl _, .refl _⟩

variable {h : CodeHeap} {memory : Mapping}

theorem Extends.trans {h' h'' : CodeHeap} (first : Extends h h') (second : Extends h' h'') :
    Extends h h'' where
  base := second.base.trans first.base
  executableOffset := second.executableOffset.trans first.executableOffset
  capacity := second.capacity.trans first.capacity
  published := Nat.le_trans first.published second.published
  staged := fun i live =>
    (second.staged i (Nat.lt_of_lt_of_le live first.published)).trans (first.staged i live)
  executable := fun i live =>
    (second.executable i (Nat.lt_of_lt_of_le live first.published)).trans
      (first.executable i live)
  constants := first.constants.trans second.constants
  data := first.data.trans second.data
  table := first.table.trans second.table

/-- The first `n` staged words are the same in `h'` as in `h`, which has them all. -/
structure SharesBelow (h : CodeHeap) (n : Nat) (h' : CodeHeap) : Prop where
  here : n ≤ h'.here
  words : ∀ i < n, h'.word? i = h.word? i

/-- What an operation that neither rewinds nor patches a word below `n` does to a consistent heap
with `n` words. -/
def Grows (n : Nat) (h h' : CodeHeap) : Prop :=
  h.Consistent → n ≤ h.here → h.Extends h' ∧ h'.Consistent ∧ h.SharesBelow n h'

variable {n : Nat}

theorem Grows.refl (h : CodeHeap) : Grows n h h :=
  fun consistent enough => ⟨.refl h, consistent, enough, fun _ _ => rfl⟩

theorem Grows.trans {h' h'' : CodeHeap} (first : Grows n h h') (second : Grows n h' h'') :
    Grows n h h'' := by
  intro consistent enough
  obtain ⟨extends1, consistent1, shared1⟩ := first consistent enough
  obtain ⟨extends2, consistent2, shared2⟩ := second consistent1 shared1.here
  exact ⟨extends1.trans extends2, consistent2, shared2.here,
    fun i low => (shared2.words i low).trans (shared1.words i low)⟩

/-! ## Instructions -/

theorem emit_cases (w : InstrWord) (h : CodeHeap) :
    h.here < h.capacity ∧ emit w h = .ok h.here { h with staged := h.staged.push w } ∨
      h.capacity ≤ h.here ∧ emit w h = .error (.exhausted .code wordBytes 0) h := by
  by_cases room : h.staged.size < h.capacity
  · exact Or.inl ⟨room, if_pos room⟩
  · exact Or.inr ⟨Nat.le_of_not_lt room, if_neg room⟩

/-- Other words are staged, and those below `n` are the same. -/
theorem Grows.of_staged {staged : Array InstrWord} (longer : h.here ≤ staged.size)
    (fits : staged.size ≤ h.capacity)
    (same : ∀ i, i < n ∨ i < h.published → staged[i]? = h.staged[i]?) :
    Grows n h { h with staged } :=
  fun consistent enough =>
  ⟨{ Extends.refl h with staged := fun i live => same i (Or.inr live) },
    ⟨Nat.le_trans consistent.published_le longer, fits,
      fun i live => (same i (Or.inr live)).trans (consistent.copied i live), consistent.slots⟩,
    Nat.le_trans enough longer, fun i low => same i (Or.inl low)⟩

theorem emit_leaves (w : InstrWord) : Leaves (Grows n) (emit w) := by
  intro h consistent enough
  rcases emit_cases w h with ⟨room, emitted⟩ | ⟨-, full⟩
  · rw [stateAfter_of_ok emitted]
    refine Grows.of_staged ?_ ?_ (fun i low => ?_) consistent enough
    · simp [here]
    · rw [Array.size_push]
      exact room
    · have := consistent.published_le
      exact Array.getElem?_push.trans (if_neg (show i ≠ h.here by omega))
  · rw [stateAfter_of_error full]
    exact Grows.refl h consistent enough

theorem emitAll_leaves (ws : List InstrWord) : Leaves (Grows n) (emitAll ws) := by
  induction ws with
  | nil => exact Leaves.pure Grows.refl ()
  | cons w ws ih =>
    exact Leaves.bind Grows.trans (emit_leaves w) fun _ => ih

theorem emitLiteral_leaves (value : Cell) : Leaves (Grows n) (emitLiteral value) :=
  Leaves.bind Grows.trans (emit_leaves _) fun _ =>
    Leaves.bind Grows.trans (emit_leaves _) fun _ => Leaves.pure Grows.refl _

/-- A patch below the published length is refused and changes nothing. -/
theorem patch_published {index : Nat} (published : index < h.published) (w : InstrWord) :
    patch index w h = .error (.publishedPatch index) h := by
  simp [patch, published]

theorem patch_cases (index : Nat) (w : InstrWord) (h : CodeHeap) :
    (∃ e, patch index w h = .error e h) ∨
      h.published ≤ index ∧
        patch index w h = .ok () { h with staged := h.staged.setIfInBounds index w } := by
  unfold patch
  split
  · exact Or.inl ⟨_, rfl⟩
  · next unpublished =>
    split
    · exact Or.inr ⟨Nat.le_of_not_lt unpublished, rfl⟩
    · exact Or.inl ⟨_, rfl⟩

theorem patch_leaves {index : Nat} (high : n ≤ index) (w : InstrWord) :
    Leaves (Grows n) (patch index w) := by
  intro h consistent enough
  rcases patch_cases index w h with ⟨e, refused⟩ | ⟨unpublished, patched⟩
  · rw [stateAfter_of_error refused]
    exact Grows.refl h consistent enough
  · rw [stateAfter_of_ok patched]
    refine Grows.of_staged ?_ ?_ (fun i low => ?_) consistent enough
    · simp [here]
    · rw [Array.size_setIfInBounds]
      exact consistent.here_le
    · rw [Array.getElem?_setIfInBounds, if_neg (by omega)]

/-! ## Publishing -/

/-- A heap whose instructions are the same and whose regions have grown. -/
theorem Grows.of_regions {constants data table : Region} (base : memory.base = h.memory.base)
    (constants_grow : h.constants.Extends constants) (data_grow : h.data.Extends data)
    (table_grow : h.table.Extends table) (slots : h.table.used % 8 = 0 → table.used % 8 = 0) :
    Grows n h { h with memory, constants, data, table } :=
  fun consistent enough =>
    ⟨{ Extends.refl h with
        base := base, constants := constants_grow, data := data_grow, table := table_grow },
      ⟨consistent.published_le, consistent.here_le, consistent.copied, slots consistent.slots⟩,
      enough, fun _ _ => rfl⟩

/-- A heap that differs only in its mapping's log. -/
theorem Grows.of_memory (h : CodeHeap) (base : memory.base = h.memory.base) :
    Grows n h { h with memory } :=
  .of_regions base (.refl _) (.refl _) (.refl _) id

/-- `h` after changes of protection, the newest first. -/
def logging (h : CodeHeap) (log : List (Span × Protection)) (host : Host) : CodeHeap :=
  { h with memory := { h.memory with changes := log ++ h.memory.changes, host } }

/-- A run of generated code changes what the host will do next, and nothing else. -/
theorem execute_cases (h : CodeHeap) : ∃ run host, execute h = .ok run (h.logging [] host) := by
  unfold execute
  cases h.memory.host.executions with
  | nil => exact ⟨none, h.memory.host, rfl⟩
  | cons run executions => exact ⟨some run, _, rfl⟩

theorem execute_staged (h : CodeHeap) : (stateAfter execute h).staged = h.staged := by
  obtain ⟨run, host, ran⟩ := execute_cases h
  rw [stateAfter_of_ok ran]
  rfl

theorem execute_leaves : Leaves (Grows n) execute := by
  intro h
  obtain ⟨run, host, ran⟩ := execute_cases h
  rw [stateAfter_of_ok ran]
  exact .of_memory h rfl

theorem protect_cases (span : Span) (protection : Protection) (h : CodeHeap) : ∃ host,
    protect span protection h = .ok () (h.logging (h.memory.changesTo span protection) host) ∨
      ∃ a l, protect span protection h = .error (.protect protection a l) (h.logging [] host) := by
  obtain ⟨host, done | ⟨a, l, refused⟩⟩ := Mapping.protect_cases span protection h.memory
  · exact ⟨host, Or.inl (by rw [protect, done]; rfl)⟩
  · exact ⟨host, Or.inr ⟨a, l, by rw [protect, refused]; rfl⟩⟩

/-- Pages are opened, written to and closed again, as far as no change is refused. -/
theorem bracket_cases (span : Span) (closed : Protection) {f : CodeHeap → CodeHeap}
    (k : Unit → HeapM α) (h : CodeHeap)
    (writes : ∀ log host, f (h.logging log host) = (f h).logging log host)
    (memory : (f h).memory = h.memory) :
    let run := (do protect span .readWrite; modify f; protect span closed; k () : HeapM α) h
    let opened := h.memory.changesTo span .readWrite
    ∃ host, (∃ a l, run = .error (.protect .readWrite a l) (h.logging [] host)) ∨
      (∃ a l, run = .error (.protect closed a l) ((f h).logging opened host)) ∨
      run = k () ((f h).logging (h.memory.changesTo span closed ++ opened) host) := by
  intro run opened
  have pages : ∀ host, ((f h).logging opened host).memory.changesTo span closed =
      h.memory.changesTo span closed := by
    intro host
    simp only [logging, memory]
    rfl
  obtain ⟨host, opens | ⟨a, l, refused⟩⟩ := protect_cases span .readWrite h
  · have written : run = (protect span closed >>= fun _ => k ()) ((f h).logging opened host) := by
      show (protect span .readWrite >>= _) h = _
      rw [bind_of_ok opens, bind_modify, writes]
    obtain ⟨host', closes | ⟨a, l, refused⟩⟩ :=
      protect_cases span closed ((f h).logging opened host)
    · refine ⟨host', Or.inr (Or.inr ?_)⟩
      rw [written, bind_of_ok closes, pages]
      simp only [logging, List.append_assoc]
    · exact ⟨host', Or.inr (Or.inl ⟨a, l, written.trans (bind_of_error refused _)⟩)⟩
  · exact ⟨host, Or.inl ⟨a, l, bind_of_error refused _⟩⟩

/-- Publishing stops before the copy, after the copy, or runs to its end; only a complete one
moves the published length. -/
theorem syncTo_cases (stop : Nat) (h : CodeHeap) :
    let stop' := min stop h.staged.size
    let span : Span :=
      ⟨h.executableOffset + h.published * wordBytes, h.executableOffset + stop' * wordBytes⟩
    let opened := h.memory.changesTo span .readWrite
    stop' ≤ h.published ∧ syncTo stop h = .ok ⟨h.published, stop'⟩ h ∨
      h.published < stop' ∧ ∃ host,
        ((∃ a l, syncTo stop h = .error (.protect .readWrite a l) (h.logging [] host)) ∨
          (∃ a l, syncTo stop h =
            .error (.protect .readExecute a l)
              ((h.copyOut h.published stop').logging opened host)) ∨
          syncTo stop h = .ok ⟨h.published, stop'⟩
            { (h.copyOut h.published stop').logging
                (h.memory.changesTo span .readExecute ++ opened) host with
              published := stop' }) := by
  intro stop' span opened
  by_cases noop : min stop h.staged.size ≤ h.published
  · refine Or.inl ⟨noop, ?_⟩
    rw [syncTo, bind_get]
    simp only [noop, if_true]
    rfl
  · refine Or.inr ⟨Nat.lt_of_not_le noop, ?_⟩
    rw [syncTo, bind_get]
    simp only [noop, if_false]
    exact bracket_cases span .readExecute (f := (·.copyOut h.published stop')) (fun _ => do
      modify ({ · with published := stop' })
      return (⟨h.published, stop'⟩ : SyncReport)) h (fun _ _ => rfl) rfl

/-- A copy to the executable buffer, published or not, leaves the words published before. -/
theorem Grows.of_copyOut {stop published : Nat} (base : memory.base = h.memory.base)
    (fits : stop ≤ h.staged.size)
    (grown : published = h.published ∨ h.published < stop ∧ published = stop) :
    Grows n h { h.copyOut h.published stop with memory, published } := by
  intro consistent enough
  -- Below the old length nothing was copied; from there on the copy is the staged word.
  have copied : ∀ i, Store.read 0 (h.copyOut h.published stop).executable i =
      if h.published ≤ i ∧ i < stop then h.staged.getD i 0 else h.executableWord i := by
    intro i
    rw [copyOut, Store.read_write]
    by_cases inside : h.published ≤ i ∧ i < stop
    · have within : h.published ≤ i ∧
          i < h.published + (h.staged.extract h.published stop).size := by
        simp only [Array.size_extract]
        omega
      rw [if_pos within, if_pos inside]
      simp only [Array.getD_eq_getD_getElem?, Array.getElem?_extract]
      rw [if_pos (by omega), Nat.add_sub_cancel' inside.1]
    · have outside :
          ¬(h.published ≤ i ∧ i < h.published + (h.staged.extract h.published stop).size) := by
        simp only [Array.size_extract]
        omega
      rw [if_neg outside, if_neg inside]
      rfl
  have published_le := consistent.published_le
  have longer : h.published ≤ published := by
    rcases grown with rfl | ⟨less, rfl⟩
    · exact Nat.le_refl _
    · exact Nat.le_of_lt less
  refine ⟨{ Extends.refl h with base := base, published := longer, executable := ?_ },
    ⟨?_, consistent.here_le, ?_, consistent.slots⟩, enough, fun _ _ => rfl⟩
  · intro i live
    exact (copied i).trans (if_neg (by omega))
  · rcases grown with rfl | ⟨-, rfl⟩
    · exact published_le
    · exact fits
  · intro i live
    change i < published at live
    show h.staged[i]? = some (Store.read 0 (h.copyOut h.published stop).executable i)
    rw [copied]
    by_cases old : i < h.published
    · rw [if_neg (by omega)]
      exact consistent.copied i old
    · have new : i < stop := by
        rcases grown with rfl | ⟨-, rfl⟩
        · exact absurd live old
        · exact live
      have inside : i < h.staged.size := Nat.lt_of_lt_of_le new fits
      rw [if_pos ⟨Nat.le_of_not_lt old, new⟩, Array.getD_eq_getD_getElem?,
        Array.getElem?_eq_getElem inside]
      rfl

theorem syncTo_leaves (stop : Nat) : Leaves (Grows n) (syncTo stop) := by
  intro h
  have fits : min stop h.staged.size ≤ h.staged.size := Nat.min_le_right _ _
  rcases syncTo_cases stop h with ⟨-, same⟩ |
    ⟨less, host, ⟨a, l, closed⟩ | ⟨a, l, copied⟩ | published⟩
  · rw [stateAfter_of_ok same]
    exact .refl h
  · rw [stateAfter_of_error closed]
    exact .of_memory h rfl
  · rw [stateAfter_of_error copied]
    exact .of_copyOut rfl fits (Or.inl rfl)
  · rw [stateAfter_of_ok published]
    exact .of_copyOut rfl fits (Or.inr ⟨less, rfl⟩)

/-- Publishing touches neither staged words nor regions. -/
theorem syncTo_same (stop : Nat) (h : CodeHeap) :
    (stateAfter (syncTo stop) h).staged = h.staged ∧
      (stateAfter (syncTo stop) h).constants = h.constants ∧
      (stateAfter (syncTo stop) h).data = h.data ∧
        (stateAfter (syncTo stop) h).table = h.table := by
  rcases syncTo_cases stop h with ⟨-, same⟩ |
    ⟨-, host, ⟨a, l, closed⟩ | ⟨a, l, copied⟩ | published⟩
  · rw [stateAfter_of_ok same]
    exact ⟨rfl, rfl, rfl, rfl⟩
  · rw [stateAfter_of_error closed]
    exact ⟨rfl, rfl, rfl, rfl⟩
  · rw [stateAfter_of_error copied]
    exact ⟨rfl, rfl, rfl, rfl⟩
  · rw [stateAfter_of_ok published]
    exact ⟨rfl, rfl, rfl, rfl⟩

theorem sync_leaves : Leaves (Grows n) sync :=
  fun h => syncTo_leaves h.staged.size h

theorem ensurePublished_cases (stop : Nat) (h : CodeHeap) : ensurePublished stop h = .ok () h ∨
    ensurePublished stop h = (do let _ ← syncTo stop : HeapM Unit) h := by
  rw [ensurePublished, bind_get]
  split
  · exact Or.inr rfl
  · exact Or.inl rfl

theorem ensurePublished_after (stop : Nat) (h : CodeHeap) :
    stateAfter (ensurePublished stop) h = h ∨
      stateAfter (ensurePublished stop) h = stateAfter (syncTo stop) h := by
  rcases ensurePublished_cases stop h with same | synced
  · exact Or.inl (stateAfter_of_ok same)
  · exact Or.inr ((stateAfter_congr synced).trans (stateAfter_ignore _ h))

theorem ensurePublished_leaves (stop : Nat) : Leaves (Grows n) (ensurePublished stop) := by
  intro h
  rcases ensurePublished_after stop h with same | synced
  · rw [same]
    exact .refl h
  · rw [synced]
    exact syncTo_leaves stop h

theorem ensurePublished_same (stop : Nat) (h : CodeHeap) :
    (stateAfter (ensurePublished stop) h).staged = h.staged ∧
      (stateAfter (ensurePublished stop) h).constants = h.constants ∧
      (stateAfter (ensurePublished stop) h).data = h.data ∧
      (stateAfter (ensurePublished stop) h).table = h.table := by
  rcases ensurePublished_after stop h with same | synced
  · rw [same]
    exact ⟨rfl, rfl, rfl, rfl⟩
  · rw [synced]
    exact syncTo_same stop h

/-! ## Constants, data and addresses -/

/-- A constant is refused before anything is reserved, or its space is reserved; then it is
written, unless the region cannot be opened. -/
theorem addConstant_cases (bytes : Array UInt8) (h : CodeHeap) :
    (∃ e r, Region.reserve .constants bytes.size 8 h.constants = .error e r ∧
      addConstant bytes h = .error e h) ∨
    ∃ position constants host,
      Region.reserve .constants bytes.size 8 h.constants = .ok position constants ∧
      let written : CodeHeap := { h with constants := constants.write position bytes }
      let opened := h.memory.changesTo constants.span .readWrite
      ((∃ a l, addConstant bytes h =
          .error (.protect .readWrite a l) (logging { h with constants } [] host)) ∨
        (∃ a l, addConstant bytes h =
          .error (.protect .readOnly a l) (written.logging opened host)) ∨
        addConstant bytes h = .ok (h.memory.base + constants.offset + position)
          (written.logging (h.memory.changesTo constants.span .readOnly ++ opened) host)) := by
  unfold addConstant
  rw [bind_get]
  cases reserved : Region.reserve .constants bytes.size 8 h.constants with
  | error e r => exact Or.inl ⟨e, r, rfl, rfl⟩
  | ok position constants =>
    obtain ⟨host, outcome⟩ := bracket_cases
      (f := fun h => { h with constants := h.constants.write position bytes })
        constants.span .readOnly
      (fun _ => return h.memory.base + constants.offset + position) { h with constants }
      (fun _ _ => rfl) rfl
    exact Or.inr ⟨position, constants, host, rfl, outcome⟩

theorem addConstant_leaves (bytes : Array UInt8) : Leaves (Grows n) (addConstant bytes) := by
  intro h
  rcases addConstant_cases bytes h with ⟨e, r, -, refused⟩ |
    ⟨position, constants, host, reserved, ⟨a, l, error⟩ | ⟨a, l, error⟩ | ok⟩
  · rw [stateAfter_of_error refused]
    exact .refl h
  · rw [stateAfter_of_error error]
    exact .of_regions rfl (Region.reserve_extends reserved).1 (.refl _) (.refl _) id
  · rw [stateAfter_of_error error]
    exact .of_regions rfl (.of_reserve_write reserved bytes) (.refl _) (.refl _) id
  · rw [stateAfter_of_ok ok]
    exact .of_regions rfl (.of_reserve_write reserved bytes) (.refl _) (.refl _) id

theorem addConstant_staged (bytes : Array UInt8) (h : CodeHeap) :
    (stateAfter (addConstant bytes) h).staged = h.staged := by
  rcases addConstant_cases bytes h with ⟨e, r, -, refused⟩ |
    ⟨position, constants, host, -, ⟨a, l, error⟩ | ⟨a, l, error⟩ | ok⟩
  · rw [stateAfter_of_error refused]
  · rw [stateAfter_of_error error]
    rfl
  · rw [stateAfter_of_error error]
    rfl
  · rw [stateAfter_of_ok ok]
    rfl

/-- Data is reserved and cleared, or nothing happens. -/
theorem allocateData_cases (length align : Nat) (h : CodeHeap) :
    (∃ e r, Region.reserve .data length align h.data = .error e r ∧
      allocateData length align h = .error e h) ∨
    ∃ position data, Region.reserve .data length align h.data = .ok position data ∧
      allocateData length align h = .ok (h.memory.base + data.offset + position)
        { h with data := data.write position (Array.replicate length 0) } := by
  rw [allocateData, bind_get]
  cases Region.reserve .data length align h.data with
  | error e r => exact Or.inl ⟨e, r, rfl, rfl⟩
  | ok position data => exact Or.inr ⟨position, data, rfl, rfl⟩

theorem allocateData_staged (length align : Nat) (h : CodeHeap) :
    (stateAfter (allocateData length align) h).staged = h.staged := by
  rcases allocateData_cases length align h with ⟨e, r, -, full⟩ | ⟨position, data, -, done⟩
  · rw [stateAfter_of_error full]
  · rw [stateAfter_of_ok done]

theorem allocateData_leaves (length align : Nat) :
    Leaves (Grows n) (allocateData length align) := by
  intro h
  rcases allocateData_cases length align h with ⟨e, r, -, full⟩ | ⟨position, data, reserved, done⟩
  · rw [stateAfter_of_error full]
    exact .refl h
  · rw [stateAfter_of_ok done]
    exact .of_regions rfl (.refl _) (.of_reserve_write reserved _) (.refl _) id

/-- An address slot is reserved and filled, or nothing happens. -/
theorem bindSlot_cases (target : Nat) (h : CodeHeap) :
    (∃ e r, Region.reserve .addressTable 8 8 h.table = .error e r ∧
      bindSlot target h = .error e h) ∨
    ∃ position table, Region.reserve .addressTable 8 8 h.table = .ok position table ∧
      bindSlot target h = .ok (h.memory.base + table.offset + position)
        { h with table := table.write position (littleEndian 8 target).toArray } := by
  rw [bindSlot, bind_get]
  cases Region.reserve .addressTable 8 8 h.table with
  | error e r => exact Or.inl ⟨e, r, rfl, rfl⟩
  | ok position table => exact Or.inr ⟨position, table, rfl, rfl⟩

theorem bindSlot_leaves (target : Nat) : Leaves (Grows n) (bindSlot target) := by
  intro h
  rcases bindSlot_cases target h with ⟨e, r, -, full⟩ | ⟨position, table, reserved, done⟩
  · rw [stateAfter_of_error full]
    exact .refl h
  · rw [stateAfter_of_ok done]
    refine .of_regions rfl (.refl _) (.refl _) (.of_reserve_write reserved _) fun whole => ?_
    obtain ⟨start, -, rfl⟩ := Region.reserve_ok reserved
    show (position + 8) % 8 = 0
    rw [start, nextMultiple, show max 8 1 = 8 from rfl]
    omega

end CodeHeap

end ForthJit
