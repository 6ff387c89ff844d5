import ForthJit.Proofs.Memory.DualHeap

/-!
# Page protections

The parts of a heap lie one after the other in its mapping, each of whole pages and each between two
pages that nothing is allowed on (`Carved`).  Publishing opens the pages of the executable buffer
that it writes to and closes the same pages again, and adding a constant does so with the
constants.  As long as the system refuses no change, every page has the protection of its part after
each operation (`CodeHeap.protections_kept`).
-/

namespace ForthJit

variable {s : Span} {host : Host} {layout : HeapLayout}

namespace Span

/-- The span begins and ends at a page. -/
def Whole (page : Nat) (s : Span) : Prop := page ∣ s.start ∧ page ∣ s.stop

/-- The span lies inside `t`. -/
def Within (s t : Span) : Prop := t.start ≤ s.start ∧ s.stop ≤ t.stop

theorem contains_iff {offset : Nat} :
    s.contains offset = true ↔ s.start ≤ offset ∧ offset < s.stop := by
  simp [contains]

theorem Within.contains {t : Span} (within : s.Within t) {offset : Nat}
    (inside : s.contains offset = true) : t.contains offset = true := by
  rw [contains_iff] at inside ⊢
  unfold Within at within
  omega

end Span

/-! ## Logs and parts -/

/-- The protection of the byte at `offset`: that of the first span that contains it. -/
def protectionIn (log : List (Span × Protection)) (offset : Nat) : Protection :=
  match log.find? fun change => change.1.contains offset with
  | some (_, protection) => protection
  | none => .none

theorem protectionIn_cons (change : Span × Protection) (log : List (Span × Protection))
    (offset : Nat) : protectionIn (change :: log) offset =
      if change.1.contains offset then change.2 else protectionIn log offset := by
  unfold protectionIn
  rw [List.find?_cons]
  cases change.1.contains offset <;> rfl

variable {log : List (Span × Protection)} {offset : Nat}

theorem protectionIn_of_forall (outside : ∀ change ∈ log, change.1.contains offset = false) :
    protectionIn log offset = .none := by
  unfold protectionIn
  rw [List.find?_eq_none.2]
  simpa using outside

/-- Changes elsewhere do not matter. -/
theorem protectionIn_append (outside : ∀ change ∈ log, change.1.contains offset = false)
    (rest : List (Span × Protection)) :
    protectionIn (log ++ rest) offset = protectionIn rest offset := by
  induction log with
  | nil => rfl
  | cons change log ih =>
    rw [List.cons_append, protectionIn_cons, outside change List.mem_cons_self, if_neg (by simp)]
    exact ih fun other member => outside other (List.mem_cons_of_mem _ member)

/-- The spans have no byte in common. -/
def Apart (log : List (Span × Protection)) : Prop :=
  ∀ change ∈ log, ∀ change' ∈ log, ∀ offset, change.1.contains offset = true →
    change'.1.contains offset = true → change.2 = change'.2

theorem protectionIn_of_mem (apart : Apart log) {protection : Protection}
    (member : (s, protection) ∈ log) (inside : s.contains offset = true) :
    protectionIn log offset = protection := by
  unfold protectionIn
  cases found : log.find? fun change => change.1.contains offset with
  | none => exact absurd inside (List.find?_eq_none.1 found _ member)
  | some change =>
    have inside' := List.find?_some found
    exact apart change (List.mem_of_find?_eq_some found) _ member offset inside' inside

/-- If no two spans have a byte in common, their order does not matter. -/
theorem protectionIn_reverse (apart : Apart log) (offset : Nat) :
    protectionIn log.reverse offset = protectionIn log offset := by
  by_cases inside : ∃ change ∈ log, change.1.contains offset = true
  · obtain ⟨change, member, inside⟩ := inside
    have apart' : Apart log.reverse := by
      simpa only [Apart, List.mem_reverse] using apart
    rw [protectionIn_of_mem apart member inside,
      protectionIn_of_mem apart' (List.mem_reverse.2 member) inside]
  · have outside : ∀ change ∈ log, change.1.contains offset = false := by
      simpa using inside
    rw [protectionIn_of_forall outside,
      protectionIn_of_forall fun change member => outside change (List.mem_reverse.1 member)]

/-- The parts follow one another from `start` up to `stop`.  Each has at least one page, only whole
pages, and one page after it that is in no part. -/
def Carved (page start : Nat) : List (Span × Protection) → (stop : Nat) → Prop
  | [], stop => start = stop
  | (s, _) :: parts, stop =>
    s.start = start ∧ s.start < s.stop ∧ s.Whole page ∧ Carved page (s.stop + page) parts stop

namespace Carved

variable {page start stop : Nat} {parts : List (Span × Protection)}

theorem member (carved : Carved page start parts stop) {part : Span × Protection}
    (member : part ∈ parts) :
    start ≤ part.1.start ∧ part.1.start < part.1.stop ∧ part.1.Whole page ∧
      part.1.stop + page ≤ stop := by
  induction parts generalizing start with
  | nil => cases member
  | cons first parts ih =>
    obtain ⟨begins, some, whole, rest⟩ := carved
    have reaches : ∀ {start : Nat} {parts : List (Span × Protection)},
        Carved page start parts stop → start ≤ stop := by
      intro start parts carved
      induction parts generalizing start with
      | nil => exact carved.le
      | cons first parts ih =>
        obtain ⟨begins, some, -, rest⟩ := carved
        have := ih rest
        omega
    rcases List.mem_cons.1 member with rfl | later
    · exact ⟨begins.ge, some, whole, reaches rest⟩
    · obtain ⟨above, some', whole', below⟩ := ih rest later
      exact ⟨by omega, some', whole', below⟩

theorem apart (carved : Carved page start parts stop) : Apart parts := by
  induction parts generalizing start with
  | nil => exact fun _ member => absurd member List.not_mem_nil
  | cons first parts ih =>
    obtain ⟨begins, some, whole, rest⟩ := carved
    have later : ∀ part ∈ parts, ∀ offset, first.1.contains offset = true →
        part.1.contains offset = false := by
      intro part isPart offset inside
      have above := (rest.member isPart).1
      rw [Bool.eq_false_iff, Ne, Span.contains_iff]
      rw [Span.contains_iff] at inside
      omega
    intro part isPart part' isPart' offset inside inside'
    rcases List.mem_cons.1 isPart with rfl | old <;> rcases List.mem_cons.1 isPart' with rfl | old'
    · rfl
    · cases (later part' old' offset inside).symm.trans inside'
    · cases (later part old offset inside').symm.trans inside
    · exact ih rest part old part' old' offset inside inside'

/-- One more part in front, and the page after it. -/
theorem cons {length : Nat} (aligned : page ∣ start) (pages : page ∣ length) (some : 0 < length)
    (protection : Protection)
    (rest : page ∣ start + (length + page) → Carved page (start + (length + page)) parts stop) :
    Carved page start ((⟨start, start + length⟩, protection) :: parts) stop := by
  refine ⟨rfl, Nat.lt_add_of_pos_right some, ⟨aligned, Nat.dvd_add aligned pages⟩, ?_⟩
  rw [Nat.add_assoc]
  exact rest (Nat.dvd_add aligned (Nat.dvd_add pages (Nat.dvd_refl page)))

end Carved

/-! ## Whole pages -/

theorem le_div_mul {m k n : Nat} (positive : 0 < n) (below : m ≤ k) (multiple : n ∣ m) :
    m ≤ k / n * n := by
  obtain ⟨j, rfl⟩ := multiple
  rw [Nat.mul_comm n j] at below ⊢
  exact Nat.mul_le_mul_right n ((Nat.le_div_iff_mul_le positive).2 below)

namespace Mapping

variable {m m' : Mapping} {span t : Span} {protection : Protection}

theorem pagesOf_eq (some : span.start < span.stop) (within : span.Within t)
    (whole : t.Whole m.platform.pageSize) (inside : t.stop ≤ m.length) :
    m.pagesOf span = ⟨span.start / m.platform.pageSize * m.platform.pageSize,
      m.platform.pageAlign span.stop⟩ ∧ m.platform.pageAlign span.stop ≤ t.stop := by
  have notEmpty : span.isEmpty = false := by
    simpa [Span.isEmpty] using some
  have up : m.platform.pageAlign span.stop ≤ t.stop :=
    nextMultiple_le m.platform.pageSize_pos within.2 whole.2
  refine ⟨?_, up⟩
  rw [pagesOf, notEmpty, if_neg (by simp), Nat.min_eq_left (Nat.le_trans up inside)]

/-- The pages of a span inside a part are inside that part. -/
theorem pagesOf_within (some : span.start < span.stop) (within : span.Within t)
    (whole : t.Whole m.platform.pageSize) (inside : t.stop ≤ m.length) :
    (m.pagesOf span).Whole m.platform.pageSize ∧ (m.pagesOf span).Within t ∧
      (m.pagesOf span).isEmpty = false ∧ span.Within (m.pagesOf span) := by
  obtain ⟨pages, up⟩ := pagesOf_eq some within whole inside
  have down := Nat.div_mul_le_self span.start m.platform.pageSize
  have covers : span.stop ≤ m.platform.pageAlign span.stop :=
    le_nextMultiple _ m.platform.pageSize_pos
  rw [pages]
  refine ⟨⟨Nat.dvd_mul_left _ _, dvd_nextMultiple _ _⟩,
    ⟨le_div_mul m.platform.pageSize_pos within.1 whole.1, up⟩, ?_, down, covers⟩
  simp only [Span.isEmpty, decide_eq_false_iff_not]
  omega

theorem pagesOf_whole (some : span.start < span.stop) (whole : span.Whole m.platform.pageSize)
    (inside : span.stop ≤ m.length) : m.pagesOf span = span := by
  obtain ⟨-, within, -, covers⟩ := pagesOf_within some ⟨Nat.le_refl _, Nat.le_refl _⟩ whole inside
  obtain ⟨start, stop⟩ := span
  have first : (m.pagesOf ⟨start, stop⟩).start = start := Nat.le_antisymm covers.1 within.1
  have last : (m.pagesOf ⟨start, stop⟩).stop = stop := Nat.le_antisymm within.2 covers.2
  exact congrArg₂ Span.mk first last

theorem changesTo_eq (some : (m.pagesOf span).isEmpty = false) :
    m.changesTo span protection = [(m.pagesOf span, protection)] := by
  simp [changesTo, some]

theorem changesTo_whole (some : span.start < span.stop) (whole : span.Whole m.platform.pageSize)
    (inside : span.stop ≤ m.length) : m.changesTo span protection = [(span, protection)] := by
  have pages : m.pagesOf span = span := pagesOf_whole some whole inside
  rw [changesTo_eq (by simpa [pages, Span.isEmpty] using some), pages]

/-- Parts that are carved out of the mapping get their protections, the last one last. -/
theorem protectAll_ok {start : Nat} {parts : List (Span × Protection)}
    (carved : Carved m.platform.pageSize start parts m.length)
    (ok : protectAll parts m = .ok () m') :
    ∃ host, m' = { m with changes := parts.reverse ++ m.changes, host } := by
  induction parts generalizing m start with
  | nil =>
    cases ok
    exact ⟨_, rfl⟩
  | cons part parts ih =>
    obtain ⟨-, some, whole, inside⟩ := carved.member List.mem_cons_self
    obtain ⟨_, m1, first, rest⟩ := bind_eq_ok.1 ok
    obtain ⟨host, done | ⟨a, l, refused⟩⟩ := protect_cases part.1 part.2 m
    · cases first.symm.trans done
      rw [changesTo_whole some whole (Nat.le_of_add_right_le inside)] at rest
      obtain ⟨host', rfl⟩ :=
        ih (m := { m with changes := part :: m.changes, host }) carved.2.2.2 rest
      exact ⟨host', by rw [List.reverse_cons, List.append_assoc]; rfl⟩
    · cases first.symm.trans refused

theorem create_ok {length : Nat} (ok : create host length = .ok m) :
    m.platform = host.platform ∧ host.platform.place? host.mapped m.length = some m.base ∧
      m.length = host.platform.pageAlign (max length 1) ∧ m.length < 2 ^ 64 ∧ m.changes = [] := by
  unfold create at ok
  dsimp only at ok
  split at ok
  · next fits =>
    split at ok
    · next base placed =>
      cases ok
      exact ⟨rfl, placed, rfl, fits, rfl⟩
    · cases ok
  · cases ok

end Mapping

namespace HeapOp

def run : HeapOp → HeapM Unit
  | emit w => do let _ ← CodeHeap.emit w
  | emitLiteral value => do let _ ← CodeHeap.emitLiteral value
  | patch index w => CodeHeap.patch index w
  | sync => do let _ ← CodeHeap.sync
  | syncTo stop => do let _ ← CodeHeap.syncTo stop
  | ensurePublished stop => CodeHeap.ensurePublished stop
  | addConstant bytes => do let _ ← CodeHeap.addConstant bytes
  | allocateData length align => do let _ ← CodeHeap.allocateData length align
  | bindSlot target => do let _ ← CodeHeap.bindSlot target
  | rewind m => modify (·.rewind m)
  | refuse refusals => modify (·.refuse refusals)

/-- Whether a change of protection is refused in the operation. -/
def refused (op : HeapOp) (h : CodeHeap) : Bool :=
  match op.run h with
  | .error (.protect _ _ _) _ => true
  | _ => false

/-- Operations that publish. -/
def isSync : HeapOp → Bool
  | sync | syncTo _ | ensurePublished _ => true
  | _ => false

/-- The operation stores a constant on `h`. -/
def Stores (op : HeapOp) (h : CodeHeap) : Prop :=
  ∃ bytes address h', op = addConstant bytes ∧ CodeHeap.addConstant bytes h = .ok address h'

theorem stateAfter_run (op : HeapOp) (h : CodeHeap) : stateAfter op.run h = h.after op := by
  cases op with
  | emit | emitLiteral | sync | syncTo | addConstant | allocateData | bindSlot =>
    exact stateAfter_ignore _ h
  | patch | ensurePublished | rewind | refuse => rfl

end HeapOp

namespace CodeHeap

/-- No change of protection is refused in the operations. -/
def accepts (h : CodeHeap) : List HeapOp → Bool
  | [] => true
  | op :: ops => !op.refused h && (h.after op).accepts ops

/-- The size of the pages that the heap lies on. -/
def pageSize (h : CodeHeap) : Nat := h.memory.platform.pageSize

/-- The executable buffer. -/
def executableSpan (h : CodeHeap) : Span :=
  ⟨h.executableOffset, h.executableOffset + h.capacity * wordBytes⟩

/-- The parts of the heap, with what each of them is for. -/
def parts (h : CodeHeap) : List (Span × Protection) :=
  [(⟨h.stagedOffset, h.stagedOffset + h.capacity * wordBytes⟩, .readWrite),
    (h.executableSpan, .readExecute), (h.constants.span, .readOnly), (h.data.span, .readWrite),
    (h.table.span, .readWrite)]

/-- The parts lie one after the other between guard pages, and fill the mapping. -/
def IsCarved (h : CodeHeap) : Prop := Carved h.pageSize h.pageSize h.parts h.memory.length

theorem constants_isPart (h : CodeHeap) : (h.constants.span, .readOnly) ∈ h.parts := by
  simp [parts]

variable {h h' : CodeHeap} {op : HeapOp}

/-- `h'` has its parts where `h` has them. -/
structure SameParts (h h' : CodeHeap) : Prop where
  platform : h'.memory.platform = h.memory.platform
  length : h'.memory.length = h.memory.length
  parts : h'.parts = h.parts

/-- Nothing is published, and no protection changes. -/
structure Still (h h' : CodeHeap) : Prop extends SameParts h h' where
  changes : h'.memory.changes = h.memory.changes
  published : h'.published ≤ h.published

/-- As long as the parts stay, they stay carved. -/
theorem SameParts.carved (same : SameParts h h') (carved : h.IsCarved) : h'.IsCarved := by
  unfold IsCarved pageSize at *
  rw [same.platform, same.parts, same.length]
  exact carved

theorem Still.refl (h : CodeHeap) : Still h h := ⟨⟨rfl, rfl, rfl⟩, rfl, Nat.le_refl _⟩

theorem Still.trans {h'' : CodeHeap} (first : Still h h') (second : Still h' h'') : Still h h'' :=
  ⟨⟨second.platform.trans first.platform, second.length.trans first.length,
    second.parts.trans first.parts⟩,
    second.changes.trans first.changes, Nat.le_trans second.published first.published⟩

theorem emit_still (w : InstrWord) : Leaves Still (emit w) := by
  intro h
  rcases emit_cases w h with ⟨-, emitted⟩ | ⟨-, full⟩
  · rw [stateAfter_of_ok emitted]
    exact ⟨⟨rfl, rfl, rfl⟩, rfl, Nat.le_refl _⟩
  · rw [stateAfter_of_error full]
    exact .refl h

theorem emitLiteral_still (value : Cell) : Leaves Still (emitLiteral value) :=
  Leaves.bind Still.trans (emit_still _) fun _ =>
    Leaves.bind Still.trans (emit_still _) fun _ => Leaves.pure Still.refl _

theorem patch_still (index : Nat) (w : InstrWord) : Leaves Still (patch index w) := by
  intro h
  rcases patch_cases index w h with ⟨e, refused⟩ | ⟨-, patched⟩
  · rw [stateAfter_of_error refused]
    exact .refl h
  · rw [stateAfter_of_ok patched]
    exact ⟨⟨rfl, rfl, rfl⟩, rfl, Nat.le_refl _⟩

theorem allocateData_still (length align : Nat) : Leaves Still (allocateData length align) := by
  intro h
  rcases allocateData_cases length align h with ⟨e, r, -, full⟩ | ⟨position, data, reserved, done⟩
  · rw [stateAfter_of_error full]
    exact .refl h
  · obtain ⟨-, -, rfl⟩ := Region.reserve_ok reserved
    rw [stateAfter_of_ok done]
    exact ⟨⟨rfl, rfl, rfl⟩, rfl, Nat.le_refl _⟩

theorem bindSlot_still (target : Nat) : Leaves Still (bindSlot target) := by
  intro h
  rcases bindSlot_cases target h with ⟨e, r, -, full⟩ | ⟨position, table, reserved, done⟩
  · rw [stateAfter_of_error full]
    exact .refl h
  · obtain ⟨-, -, rfl⟩ := Region.reserve_ok reserved
    rw [stateAfter_of_ok done]
    exact ⟨⟨rfl, rfl, rfl⟩, rfl, Nat.le_refl _⟩

theorem rewind_still (h : CodeHeap) (m : HeapMark) : Still h (h.rewind m) :=
  ⟨⟨rfl, rfl, rfl⟩, rfl, Nat.min_le_left _ _⟩

/-- The pages that are opened to publish the words below `stop`. -/
def pagesTo (h : CodeHeap) (stop : Nat) : Span :=
  h.memory.pagesOf
    ⟨h.executableOffset + h.published * wordBytes, h.executableOffset + stop * wordBytes⟩

theorem executable_isPart (h : CodeHeap) : (h.executableSpan, .readExecute) ∈ h.parts := by
  simp [parts]

theorem pageSize_pos (h : CodeHeap) : 0 < h.pageSize := h.memory.platform.pageSize_pos

theorem wordBytes_dvd_pageSize (h : CodeHeap) : wordBytes ∣ h.pageSize :=
  Nat.dvd_trans (by decide) h.memory.platform.cells_dvd

section Carved

variable {stop : Nat} (carved : h.IsCarved) (later : h.published < stop) (fits : stop ≤ h.capacity)

include carved later fits

theorem pagesTo_eq :
    h.pagesTo stop = ⟨(h.executableOffset + h.published * wordBytes) / h.pageSize * h.pageSize,
      nextMultiple (h.executableOffset + stop * wordBytes) h.pageSize⟩ ∧
    (h.pagesTo stop).Whole h.pageSize ∧ (h.pagesTo stop).Within h.executableSpan ∧
      (h.pagesTo stop).isEmpty = false := by
  obtain ⟨-, -, whole, inside⟩ := carved.member h.executable_isPart
  have part : Span.Within ⟨h.executableOffset + h.published * wordBytes,
      h.executableOffset + stop * wordBytes⟩ h.executableSpan := by
    unfold Span.Within executableSpan wordBytes
    dsimp only
    omega
  have some : h.executableOffset + h.published * wordBytes <
      h.executableOffset + stop * wordBytes := by
    unfold wordBytes
    omega
  have inside := Nat.le_of_add_right_le inside
  obtain ⟨pages, within, some', -⟩ := Mapping.pagesOf_within some part whole inside
  exact ⟨(Mapping.pagesOf_eq some part whole inside).1, pages, within, some'⟩

theorem pagesTo_within : (h.pagesTo stop).Whole h.pageSize ∧
    (h.pagesTo stop).Within h.executableSpan ∧ (h.pagesTo stop).isEmpty = false :=
  (pagesTo_eq carved later fits).2

end Carved

/-- Words are published: the pages that they lie on are opened and closed again. -/
structure Publishes (h h' : CodeHeap) : Prop extends SameParts h h' where
  published : h.published < h'.published
  changes : ∃ pages : Span, pages.Whole h.pageSize ∧ pages.Within h.executableSpan ∧
    h'.memory.changes = (pages, .readExecute) :: (pages, .readWrite) :: h.memory.changes

/-- A constant is stored: the constants are opened and closed again. -/
structure Stored (h h' : CodeHeap) : Prop extends SameParts h h' where
  published : h'.published = h.published
  changes : h'.memory.changes =
    (h.constants.span, .readOnly) :: (h.constants.span, .readWrite) :: h.memory.changes

theorem syncTo_logged {stop : Nat} (carved : h.IsCarved)
    (fits : h.here ≤ h.capacity)
    (accepted : ∀ p a l h', syncTo stop h ≠ .error (.protect p a l) h') :
    Still h (stateAfter (syncTo stop) h) ∨ Publishes h (stateAfter (syncTo stop) h) := by
  rcases syncTo_cases stop h with ⟨-, same⟩ |
    ⟨later, host, ⟨a, l, refused⟩ | ⟨a, l, refused⟩ | done⟩
  · rw [stateAfter_of_ok same]
    exact Or.inl (.refl h)
  · exact absurd refused (accepted _ _ _ _)
  · exact absurd refused (accepted _ _ _ _)
  · obtain ⟨whole, within, some⟩ :=
      pagesTo_within carved later (Nat.le_trans (Nat.min_le_right _ _) fits)
    rw [stateAfter_of_ok done, Mapping.changesTo_eq some, Mapping.changesTo_eq some]
    exact Or.inr ⟨⟨rfl, rfl, rfl⟩, later, _, whole, within, rfl⟩

theorem addConstant_logged (bytes : Array UInt8) (carved : h.IsCarved)
    (accepted : ∀ p a l h', addConstant bytes h ≠ .error (.protect p a l) h') :
    (∃ e, addConstant bytes h = .error e h) ∨
      ∃ address h', addConstant bytes h = .ok address h' ∧ Stored h h' := by
  obtain ⟨-, some, whole, inside⟩ := carved.member h.constants_isPart
  rcases addConstant_cases bytes h with ⟨e, r, -, failed⟩ |
    ⟨position, constants, host, reserved, ⟨a, l, refused⟩ | ⟨a, l, refused⟩ | done⟩
  · exact Or.inl ⟨e, failed⟩
  · exact absurd refused (accepted _ _ _ _)
  · exact absurd refused (accepted _ _ _ _)
  · obtain ⟨-, -, rfl⟩ := Region.reserve_ok reserved
    have changes : ∀ p, h.memory.changesTo h.constants.span p = [(h.constants.span, p)] := fun p =>
      Mapping.changesTo_whole some whole (Nat.le_of_add_right_le inside)
    refine Or.inr ⟨_, _, done, ⟨rfl, rfl, rfl⟩, rfl, ?_⟩
    exact congrArg₂ (fun closed opened => closed ++ opened ++ h.memory.changes) (changes _)
      (changes _)

theorem not_refused {α : Type} {m : HeapM α} (runs : op.run h = (do let _ ← m : HeapM Unit) h)
    (accepted : op.refused h = false) : ∀ p a l h', m h ≠ .error (.protect p a l) h' := by
  intro p a l h' error
  unfold HeapOp.refused at accepted
  rw [runs, bind_of_error error] at accepted
  cases accepted

/-- What an operation does to the protections, if none of its changes is refused. -/
theorem after_cases (carved : h.IsCarved) (fits : h.here ≤ h.capacity)
    (accepted : op.refused h = false) :
    (Still h (h.after op) ∧ ¬op.Stores h) ∨ (Publishes h (h.after op) ∧ op.isSync = true) ∨
      Stored h (h.after op) ∧ op.Stores h := by
  have quiet : Still h (h.after op) → (∀ bytes, op ≠ .addConstant bytes) →
      (Still h (h.after op) ∧ ¬op.Stores h) ∨ (Publishes h (h.after op) ∧ op.isSync = true) ∨
        Stored h (h.after op) ∧ op.Stores h := by
    refine fun still other => Or.inl ⟨still, ?_⟩
    rintro ⟨bytes, -, -, rfl, -⟩
    exact other bytes rfl
  have synced : (Still h (h.after op) ∨ Publishes h (h.after op)) → op.isSync = true →
      (Still h (h.after op) ∧ ¬op.Stores h) ∨ (Publishes h (h.after op) ∧ op.isSync = true) ∨
        Stored h (h.after op) ∧ op.Stores h := by
    rintro (still | publishes) isSync
    · refine quiet still ?_
      rintro bytes rfl
      cases isSync
    · exact Or.inr (Or.inl ⟨publishes, isSync⟩)
  cases op with
  | emit w => exact quiet (emit_still w h) fun _ => HeapOp.noConfusion
  | emitLiteral value => exact quiet (emitLiteral_still value h) fun _ => HeapOp.noConfusion
  | patch index w => exact quiet (patch_still index w h) fun _ => HeapOp.noConfusion
  | sync => exact synced (syncTo_logged carved fits (not_refused (m := sync) rfl accepted)) rfl
  | syncTo stop => exact synced (syncTo_logged carved fits (not_refused rfl accepted)) rfl
  | ensurePublished stop =>
    refine synced ?_ rfl
    rcases ensurePublished_cases stop h with same | run
    · rw [show h.after (.ensurePublished stop) = h from stateAfter_of_ok same]
      exact Or.inl (.refl h)
    · rw [show h.after (.ensurePublished stop) = stateAfter (syncTo stop) h from
        (stateAfter_congr run).trans (stateAfter_ignore _ h)]
      have runs : (HeapOp.ensurePublished stop).run h = (do let _ ← syncTo stop : HeapM Unit) h :=
        run
      exact syncTo_logged carved fits (not_refused runs accepted)
  | addConstant bytes =>
    rcases addConstant_logged bytes carved (not_refused rfl accepted) with
      ⟨e, failed⟩ | ⟨address, h', done, stored⟩
    · have same : h.after (.addConstant bytes) = h := stateAfter_of_error failed
      rw [same]
      refine Or.inl ⟨.refl h, ?_⟩
      rintro ⟨_, _, _, ⟨⟩, done⟩
      cases failed.symm.trans done
    · have same : h.after (.addConstant bytes) = h' := stateAfter_of_ok done
      rw [same]
      exact Or.inr (Or.inr ⟨stored, _, _, _, rfl, done⟩)
  | allocateData length align =>
    exact quiet (allocateData_still length align h) fun _ => HeapOp.noConfusion
  | bindSlot target => exact quiet (bindSlot_still target h) fun _ => HeapOp.noConfusion
  | rewind m => exact quiet (rewind_still h m) fun _ => HeapOp.noConfusion
  | refuse refusals => exact quiet ⟨⟨rfl, rfl, rfl⟩, rfl, Nat.le_refl _⟩ fun _ => HeapOp.noConfusion

/-! ## Every run -/

/-- Every byte of the mapping has the protection of its part, and none outside the parts. -/
structure Protected (h : CodeHeap) : Prop where
  carved : h.IsCarved
  protections : ∀ offset, h.memory.protectionAt offset = protectionIn h.parts offset

theorem Protected.after (kept : h.Protected) (fits : h.here ≤ h.capacity)
    (accepted : op.refused h = false) :
    (h.after op).Protected ∧ (h.after op).parts = h.parts := by
  have carved := kept.carved
  have apart := carved.apart
  -- Whatever was opened has been closed again, with the protection of its part.
  have closed : ∀ {pages part : Span} {protection}, SameParts h (h.after op) →
      (part, protection) ∈ h.parts → pages.Within part →
      (h.after op).memory.changes = (pages, protection) :: (pages, .readWrite) :: h.memory.changes →
      (h.after op).Protected ∧ (h.after op).parts = h.parts := by
    intro pages part protection same member within changes
    refine ⟨⟨same.carved carved, fun offset => ?_⟩, same.parts⟩
    have before : protectionIn h.memory.changes offset = protectionIn h.parts offset :=
      kept.protections offset
    show protectionIn (h.after op).memory.changes offset = _
    rw [changes, same.parts, protectionIn_cons, protectionIn_cons]
    by_cases inside : pages.contains offset = true
    · rw [if_pos inside, protectionIn_of_mem apart member (within.contains inside)]
    · rw [if_neg inside, if_neg inside, before]
  rcases after_cases carved fits accepted with ⟨still, -⟩ | ⟨publishes, -⟩ | ⟨stored, -⟩
  · refine ⟨⟨still.toSameParts.carved carved, fun offset => ?_⟩, still.parts⟩
    show protectionIn (h.after op).memory.changes offset = _
    rw [still.changes, still.parts]
    exact kept.protections offset
  · obtain ⟨pages, -, within, changes⟩ := publishes.changes
    exact closed publishes.toSameParts h.executable_isPart within changes
  · exact closed stored.toSameParts h.constants_isPart ⟨Nat.le_refl _, Nat.le_refl _⟩ stored.changes

theorem afterAll_protected (kept : h.Protected) (consistent : h.Consistent) {ops : List HeapOp}
    (accepted : h.accepts ops = true) :
    (h.afterAll ops).Protected ∧ (h.afterAll ops).parts = h.parts := by
  induction ops generalizing h with
  | nil => exact ⟨kept, rfl⟩
  | cons op ops ih =>
    rw [accepts, Bool.and_eq_true, Bool.not_eq_true'] at accepted
    obtain ⟨next, same⟩ := kept.after consistent.here_le accepted.1
    obtain ⟨last, parts⟩ := ih next (after_consistent consistent op) accepted.2
    exact ⟨last, parts.trans same⟩

/-- A new heap fills a mapping of the host, and every part has its protection. -/
theorem create_mapped (created : create host layout = .ok h) :
    h.Protected ∧ h.memory.platform = host.platform ∧
      host.platform.place? host.mapped h.memory.length = some h.memory.base ∧
      h.memory.length < 2 ^ 64 := by
  unfold create build at created
  obtain ⟨memory, mapped, rest⟩ := except_bind_eq_ok.1 created
  have positive := host.platform.pageSize_pos
  have pages : ∀ n : Nat, 0 < n → host.platform.pageSize ∣ host.platform.pageAlign n ∧
      0 < host.platform.pageAlign n := fun n some =>
    ⟨dvd_nextMultiple n _, Nat.lt_of_lt_of_le some (le_nextMultiple n positive)⟩
  have codePages := pages (max layout.codeCapacity 1 * wordBytes) (by unfold wordBytes; omega)
  have constantsPages := pages (max layout.constantsCapacity 1) (by omega)
  have dataPages := pages (max layout.dataCapacity 1) (by omega)
  have tablePages := pages (max layout.addressTableSlots 1 * 8) (by omega)
  obtain ⟨platform, placed, length, fits, changes⟩ := Mapping.create_ok mapped
  dsimp only [id] at length rest
  -- Only the sizes of the parts matter from here on, not where they come from.
  generalize host.platform.pageAlign (max layout.codeCapacity 1 * wordBytes) = code at *
  generalize host.platform.pageAlign (max layout.constantsCapacity 1) = constants at *
  generalize host.platform.pageAlign (max layout.dataCapacity 1) = data at *
  generalize host.platform.pageAlign (max layout.addressTableSlots 1 * 8) = table at *
  split at rest
  · cases rest
  · next memory' protects =>
    have made := Except.ok.inj rest
    have words : code / wordBytes * wordBytes = code := by
      refine Nat.div_mul_cancel (Nat.dvd_trans ?_ codePages.1)
      exact Nat.dvd_trans (by decide) host.platform.cells_dvd
    have carved : Carved host.platform.pageSize host.platform.pageSize h.parts memory.length := by
      rw [length, ← made]
      simp only [parts, executableSpan, Region.span, Region.empty, words]
      refine .cons (Nat.dvd_refl _) codePages.1 codePages.2 _ fun aligned =>
        .cons aligned codePages.1 codePages.2 _ fun aligned =>
        .cons aligned constantsPages.1 constantsPages.2 _ fun aligned =>
        .cons aligned dataPages.1 dataPages.2 _ fun aligned =>
        .cons aligned tablePages.1 tablePages.2 _ fun aligned => ?_
      refine Eq.symm ?_
      rw [Nat.max_eq_left (by omega)]
      exact nextMultiple_of_dvd positive aligned
    have all : Mapping.protectAll h.parts memory = .ok () memory' := by
      rw [← made]
      simp only [parts, executableSpan, Region.span, Region.empty, words]
      exact protects
    rw [← platform] at carved
    obtain ⟨last, memory_eq⟩ := Mapping.protectAll_ok carved all
    have heap : h.memory =
        { memory with changes := h.parts.reverse ++ memory.changes, host := last } :=
      (congrArg CodeHeap.memory made).symm.trans memory_eq
    refine ⟨⟨?_, fun offset => ?_⟩, ?_⟩
    · unfold IsCarved pageSize
      rw [heap]
      exact carved
    · show protectionIn h.memory.changes offset = _
      rw [heap, changes, List.append_nil, protectionIn_reverse carved.apart]
    · rw [heap]
      exact ⟨platform, placed, fits⟩

/-- Where machine words measure the heap, it does not matter what becomes of a number that is
none. -/
theorem build_wrapping (created : create host layout = .ok h) :
    build (· % 2 ^ 64) host layout = .ok h := by
  unfold create build at created
  obtain ⟨memory, mapped, rest⟩ := except_bind_eq_ok.1 created
  obtain ⟨-, -, length, fits, -⟩ := Mapping.create_ok mapped
  have above : ∀ n, n ≤ host.platform.pageAlign n := fun n =>
    le_nextMultiple n host.platform.pageSize_pos
  have total := Nat.le_trans (Nat.le_trans (Nat.le_max_left _ 1) (above _)) length.ge
  have code := above (max layout.codeCapacity 1 * wordBytes)
  have table := above (max layout.addressTableSlots 1 * 8)
  dsimp only [id] at total mapped rest
  have word : ∀ n, n ≤ memory.length → n % 2 ^ 64 = n := fun n small =>
    Nat.mod_eq_of_lt (Nat.lt_of_le_of_lt small fits)
  unfold build
  simp (disch := omega) only [word]
  exact except_bind_eq_ok.2 ⟨memory, mapped, rest⟩

/-- The protections of a new heap are those of its parts. -/
theorem create_protected (created : create host layout = .ok h) :
    h.Protected :=
  (create_mapped created).1

/-- What an operation does to the protections of `h`, while it runs and in the end. -/
structure Guarded (h : CodeHeap) (op : HeapOp) : Prop where
  /-- Only whole pages of the executable buffer are changed, by publishing, or of the constants, by
  adding one. -/
  touched : ∃ log, (h.after op).memory.changes = log ++ h.memory.changes ∧
    ∀ change ∈ log, change.1.Whole h.pageSize ∧
      (op.isSync = true ∧ change.1.Within h.executableSpan ∨
        (∃ bytes, op = .addConstant bytes) ∧ change.1.Within h.constants.span)
  /-- No other byte has another protection than that of its part at any time. -/
  during : ∀ changes, h.memory.changes <:+ changes → changes <:+ (h.after op).memory.changes →
    ∀ offset, protectionIn changes offset = protectionIn h.parts offset ∨
      op.isSync = true ∧ h.executableSpan.contains offset = true ∨
        (∃ bytes, op = .addConstant bytes) ∧ h.constants.span.contains offset = true
  publishing : h.published < (h.after op).published → (h.after op).transitions = h.transitions + 2
  storing : op.Stores h → (h.after op).transitions = h.transitions + 2
  other : ¬h.published < (h.after op).published → ¬op.Stores h →
    (h.after op).transitions = h.transitions

theorem Protected.guarded (kept : h.Protected) (fits : h.here ≤ h.capacity)
    (accepted : op.refused h = false) : h.Guarded op := by
  have carved := kept.carved
  have whole : h.constants.span.Whole h.pageSize :=
    (carved.member h.constants_isPart).2.2.1
  have touched : ∃ log, (h.after op).memory.changes = log ++ h.memory.changes ∧
      ∀ change ∈ log, change.1.Whole h.pageSize ∧
        (op.isSync = true ∧ change.1.Within h.executableSpan ∨
          (∃ bytes, op = .addConstant bytes) ∧ change.1.Within h.constants.span) := by
    rcases after_cases carved fits accepted with ⟨still, -⟩ | ⟨publishes, isSync⟩ |
      ⟨stored, bytes, -, -, isConstant, -⟩
    · exact ⟨[], still.changes, by simp⟩
    · obtain ⟨pages, whole, within, changes⟩ := publishes.changes
      refine ⟨[(pages, .readExecute), (pages, .readWrite)], changes, ?_⟩
      simp [whole, isSync, within]
    · refine ⟨[(h.constants.span, .readOnly), (h.constants.span, .readWrite)], stored.changes, ?_⟩
      simp [whole, isConstant, Span.Within]
  have count : ∀ log : List (Span × Protection),
      (h.after op).memory.changes = log ++ h.memory.changes →
        (h.after op).transitions = h.transitions + log.length := by
    intro log all
    simp only [transitions, Mapping.transitions, all, List.length_append]
    exact Nat.add_comm _ _
  refine ⟨touched, ?_, ?_, ?_, ?_⟩
  · intro changes later earlier offset
    obtain ⟨log, all, within⟩ := touched
    obtain ⟨early, rfl⟩ := later
    obtain ⟨late, whole⟩ := earlier
    rw [all, ← List.append_assoc, List.append_cancel_right_eq] at whole
    by_cases inside : ∃ change ∈ early, change.1.contains offset = true
    · obtain ⟨change, isChange, inside⟩ := inside
      have member : change ∈ log := whole ▸ List.mem_append_right _ isChange
      rcases (within change member).2 with ⟨isSync, within⟩ | ⟨isConstant, within⟩
      · exact Or.inr (Or.inl ⟨isSync, within.contains inside⟩)
      · exact Or.inr (Or.inr ⟨isConstant, within.contains inside⟩)
    · have outside : ∀ change ∈ early, change.1.contains offset = false := by simpa using inside
      rw [protectionIn_append outside]
      exact Or.inl (kept.protections offset)
  all_goals
    rcases after_cases carved fits accepted with
      ⟨still, none⟩ | ⟨publishes, isSync⟩ | ⟨stored, some⟩
  · exact fun published => absurd published (Nat.not_lt.2 still.published)
  · obtain ⟨pages, -, -, changes⟩ := publishes.changes
    exact fun _ => count [_, _] changes
  · exact fun _ => count [_, _] stored.changes
  · exact fun stores => absurd stores none
  · rintro ⟨bytes, -, -, rfl, -⟩
    cases isSync
  · exact fun _ => count [_, _] stored.changes
  · exact fun _ _ => count [] still.changes
  · exact fun unpublished => absurd publishes.published unpublished
  · exact fun _ none => absurd some none

/-- As long as no change of protection is refused, the parts of a heap stay where they are, with a
page that nothing is allowed on before, between and after them, and every byte has the protection of
its part after each operation.  While an operation runs, only the part that it writes to may have
another, and two changes are made for it, no more. -/
theorem protections_kept {new : CodeHeap} (created : create host layout = .ok new)
    (ops : List HeapOp) (accepted : new.accepts ops = true) :
    let h := new.afterAll ops
    h.parts = new.parts ∧ h.IsCarved ∧
      (∀ offset, h.memory.protectionAt offset = protectionIn h.parts offset) ∧
      ∀ op : HeapOp, op.refused h = false → h.Guarded op := by
  intro h
  have consistent := afterAll_consistent (create_consistent created) ops
  obtain ⟨kept, parts⟩ :=
    afterAll_protected (create_protected created) (create_consistent created) accepted
  exact ⟨parts, kept.carved, kept.protections, fun op => kept.guarded consistent.here_le⟩

/-- Two words are published one after the other and a constant is stored, before a change that is
never asked for would be refused. -/
theorem protections_kept_on_each_page :
    ∃ new, create {} ⟨1, 1, 1, 1⟩ = .ok new ∧
      let ops := [.emit 1, .emit 2, .syncTo 1, .addConstant #[7], .refuse [2], .sync,
        .rewind ⟨1, 0, 0, 0⟩]
      let h := new.afterAll ops
      new.accepts ops = true ∧ (HeapOp.addConstant #[8]).refused h = true ∧
        ((List.range 11).map fun page => h.memory.protectionAt (page * h.pageSize)) =
          [.none, .readWrite, .none, .readExecute, .none, .readOnly, .none, .readWrite, .none,
            .readWrite, .none] ∧
        (∀ offset, h.memory.protectionAt offset = protectionIn h.parts offset) ∧
        h.Guarded .sync := by
  let ops : List HeapOp := [.emit 1, .emit 2, .syncTo 1, .addConstant #[7], .refuse [2], .sync,
    .rewind ⟨1, 0, 0, 0⟩]
  let pages (h : CodeHeap) :=
    (List.range 11).map fun page => h.memory.protectionAt (page * h.pageSize)
  have state : (create {} ⟨1, 1, 1, 1⟩).toOption.map (fun new => (new.accepts ops,
      HeapOp.sync.refused (new.afterAll ops), (HeapOp.addConstant #[8]).refused (new.afterAll ops),
      pages (new.afterAll ops))) =
      some (true, false, true, [.none, .readWrite, .none, .readExecute, .none, .readOnly, .none,
        .readWrite, .none, .readWrite, .none]) := by
    decide +kernel
  obtain ⟨new, created, state⟩ := toOption_map.1 state
  simp only [Prod.mk.injEq] at state
  obtain ⟨accepted, synced, refused, listed⟩ := state
  obtain ⟨-, -, kept, guarded⟩ := protections_kept created ops accepted
  exact ⟨new, created, accepted, refused, listed, kept, guarded .sync synced⟩

/-- Where numbers wrap around, the addresses of a heap that is too long lie on its executable
buffer, which is then writable from the start, although no change of protection is refused. -/
theorem executable_buffer_writable :
    create {} overlong = .error .overflow ∧
      ∃ new, build (· % 2 ^ 64) {} overlong = .ok new ∧
        (new.table.span, .readWrite) ∈ new.parts ∧ new.table.span = new.executableSpan ∧
          ∀ offset, new.executableSpan.contains offset = true →
            new.memory.protectionAt offset = .readWrite := by
  have state : (build (· % 2 ^ 64) {} overlong).toOption.map (fun new =>
      (new.table.span, new.executableSpan, new.memory.changes.head?)) =
      some (⟨12288, 16384⟩, ⟨12288, 16384⟩, some (⟨12288, 16384⟩, .readWrite)) := by
    decide +kernel
  obtain ⟨new, made, state⟩ := toOption_map.1 state
  simp only [Prod.mk.injEq] at state
  obtain ⟨table, executable, last⟩ := state
  refine ⟨create_overlong, new, made, by simp [parts],
    table.trans executable.symm, fun offset inside => ?_⟩
  obtain ⟨earlier, changes⟩ := List.head?_eq_some_iff.1 last
  show protectionIn new.memory.changes offset = _
  rw [changes, protectionIn_cons, if_pos (executable ▸ inside)]

end CodeHeap

end ForthJit
