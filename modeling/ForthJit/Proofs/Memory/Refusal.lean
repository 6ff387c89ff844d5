import ForthJit.Proofs.Memory.Protection

/-!
# Refused publications

Publishing opens whole pages, and the first of them may hold words that were published before.  If
the system refuses to open them, nothing has changed.  If it refuses to close them, they stay open:
the words before the new ones are still published, but those on the first page cannot be executed
until a later publication closes it (`CodeHeap.publication_refused`).  Pages on which every word is
published are never touched again, whatever is refused.
-/

namespace ForthJit

namespace HeapOp

/-- The operation publishes and is refused to close the pages that it has opened. -/
def tears (op : HeapOp) (h : CodeHeap) : Bool :=
  op.isSync && match op.run h with
    | .error (.protect .readExecute _ _) _ => true
    | _ => false

end HeapOp

namespace CodeHeap

variable {h h' : CodeHeap} {op : HeapOp} {i stop : Nat}

/-- None of the operations leaves pages open. -/
def untorn (h : CodeHeap) : List HeapOp → Bool
  | [] => true
  | op :: ops => !op.tears h && (h.after op).untorn ops

/-! ## Pages of instructions -/

/-- The number of the page that instruction `i` is executed on. -/
def pageOf (h : CodeHeap) (i : Nat) : Nat := (h.executableOffset + i * wordBytes) / h.pageSize

/-- The page of instruction `i` may be executed. -/
def Executable (h : CodeHeap) (i : Nat) : Prop :=
  ∀ offset, offset / h.pageSize = h.pageOf i → h.memory.protectionAt offset = .readExecute

/-- Every page that holds a published word may be executed. -/
def Runnable (h : CodeHeap) : Prop := ∀ i < h.published, h.Executable i

theorem pageOf_mono (h : CodeHeap) {j : Nat} (le : i ≤ j) : h.pageOf i ≤ h.pageOf j :=
  Nat.div_le_div_right (Nat.add_le_add_left (Nat.mul_le_mul_right _ le) _)

/-- The page of a word ends where the next word ends, rounded up. -/
theorem nextMultiple_add_wordBytes {n page : Nat} (positive : 0 < page) (words : wordBytes ∣ page)
    (word : wordBytes ∣ n) : nextMultiple (n + wordBytes) page = (n / page + 1) * page := by
  obtain ⟨q, rfl⟩ := words
  obtain ⟨k, rfl⟩ := word
  unfold wordBytes at *
  have last : 4 * k + 4 + (4 * q - 1) = 4 * k + 3 + 4 * q := by omega
  rw [nextMultiple, last, Nat.add_div_right _ positive, ← Nat.div_div_eq_div_mul,
    ← Nat.div_div_eq_div_mul, show (4 * k + 3) / 4 = 4 * k / 4 by omega]

section Carved

variable (carved : h.IsCarved)

include carved

theorem executableOffset_aligned : h.pageSize ∣ h.executableOffset :=
  (carved.member h.executable_isPart).2.2.1.1

theorem wordBytes_dvd_executableOffset (i : Nat) : wordBytes ∣ h.executableOffset + i * wordBytes :=
  Nat.dvd_add (Nat.dvd_trans h.wordBytes_dvd_pageSize (executableOffset_aligned carved))
    (Nat.dvd_mul_left _ _)

/-- The pages that are opened go from that of the first new word to that of the last. -/
theorem pagesTo_contains (later : h.published < stop) (fits : stop ≤ h.capacity) (offset : Nat) :
    (h.pagesTo stop).contains offset = true ↔
      h.pageOf h.published ≤ offset / h.pageSize ∧ offset / h.pageSize ≤ h.pageOf (stop - 1) := by
  have last : h.executableOffset + stop * wordBytes =
      h.executableOffset + (stop - 1) * wordBytes + wordBytes := by
    unfold wordBytes
    omega
  rw [Span.contains_iff, (pagesTo_eq carved later fits).1, last,
    nextMultiple_add_wordBytes h.pageSize_pos h.wordBytes_dvd_pageSize
      (wordBytes_dvd_executableOffset carved _)]
  dsimp only
  rw [← Nat.le_div_iff_mul_le h.pageSize_pos, ← Nat.div_lt_iff_lt_mul h.pageSize_pos,
    Nat.lt_succ_iff]
  rfl

theorem executableSpan_contains_of_lt {offset : Nat} (fits : i < h.capacity)
    (page : offset / h.pageSize = h.pageOf i) : h.executableSpan.contains offset = true := by
  obtain ⟨-, -, ⟨first, last⟩, -⟩ := carved.member h.executable_isPart
  have inside : h.executableOffset + i * wordBytes < h.executableSpan.stop := by
    unfold executableSpan wordBytes
    dsimp only
    omega
  rw [Span.contains_iff]
  constructor
  · calc h.executableOffset ≤ h.pageOf i * h.pageSize :=
        le_div_mul h.pageSize_pos (Nat.le_add_right _ _) first
      _ = offset / h.pageSize * h.pageSize := by rw [page]
      _ ≤ offset := Nat.div_mul_le_self _ _
  · have below := Nat.div_lt_div_of_lt_of_dvd last inside
    rw [← Nat.div_mul_cancel last]
    exact (Nat.div_lt_iff_lt_mul h.pageSize_pos).1 (page ▸ below)

/-- The constants are not in the executable buffer. -/
theorem constants_apart {pages : Span} {offset : Nat} (within : pages.Within h.constants.span)
    (inside : h.executableSpan.contains offset = true) : pages.contains offset = false := by
  rw [Bool.eq_false_iff]
  intro inside'
  have same := carved.apart _ h.executable_isPart _ h.constants_isPart offset inside
    (within.contains inside')
  cases same

end Carved

/-! ## What an operation does to the executable buffer -/

/-- Operations that publish do nothing, or publish up to some instruction. -/
theorem run_of_isSync (isSync : op.isSync = true) (h : CodeHeap) :
    op.run h = .ok () h ∨ ∃ stop, op.run h = (do let _ ← syncTo stop : HeapM Unit) h := by
  cases op with
  | sync => exact Or.inr ⟨h.staged.size, rfl⟩
  | syncTo stop => exact Or.inr ⟨stop, rfl⟩
  | ensurePublished stop => exact (ensurePublished_cases stop h).imp id fun run => ⟨stop, run⟩
  | emit | emitLiteral | patch | addConstant | allocateData | bindSlot | rewind | refuse =>
    cases isSync

/-- No word is published, and of the protections only those of the constants change. -/
structure Elsewhere (h h' : CodeHeap) : Prop extends SameParts h h' where
  published : h'.published ≤ h.published
  changes : ∃ log, h'.memory.changes = log ++ h.memory.changes ∧
    ∀ change ∈ log, change.1.Within h.constants.span

/-- The pages of the words to publish get protections one after the other, the newest first. -/
structure Touches (h : CodeHeap) (stop : Nat) (protections : List Protection) (h' : CodeHeap) :
    Prop extends SameParts h h' where
  later : h.published < stop
  fits : stop ≤ h.capacity
  changes : h'.memory.changes =
    protections.map (fun protection => (h.pagesTo stop, protection)) ++ h.memory.changes

theorem Still.elsewhere (still : Still h h') : Elsewhere h h' :=
  ⟨still.toSameParts, still.published, [], still.changes, by simp⟩

/-- Only the constants are opened and closed to add one. -/
theorem addConstant_elsewhere (bytes : Array UInt8) (carved : h.IsCarved) :
    Elsewhere h (stateAfter (addConstant bytes) h) := by
  obtain ⟨-, some, whole, inside⟩ := carved.member h.constants_isPart
  have changes : ∀ p, h.memory.changesTo h.constants.span p = [(h.constants.span, p)] := fun p =>
    Mapping.changesTo_whole some whole (Nat.le_of_add_right_le inside)
  rcases addConstant_cases bytes h with ⟨e, r, -, full⟩ |
    ⟨position, constants, host, reserved, ⟨a, l, refused⟩ | ⟨a, l, refused⟩ | done⟩
  · rw [stateAfter_of_error full]
    exact (Still.refl h).elsewhere
  all_goals obtain ⟨-, -, rfl⟩ := Region.reserve_ok reserved
  · rw [stateAfter_of_error refused]
    exact ⟨⟨rfl, rfl, rfl⟩, Nat.le_refl _, [], rfl, by simp⟩
  · rw [stateAfter_of_error refused]
    exact ⟨⟨rfl, rfl, rfl⟩, Nat.le_refl _, _, congrArg (· ++ _) (changes _), by simp [Span.Within]⟩
  · rw [stateAfter_of_ok done]
    exact ⟨⟨rfl, rfl, rfl⟩, Nat.le_refl _, _,
      congrArg₂ (fun closed opened => closed ++ opened ++ _) (changes _) (changes _),
      by simp [Span.Within]⟩

/-- How an operation that publishes ends, and what it has done to the executable buffer. -/
theorem publishing_cases (carved : h.IsCarved)
    (fits : h.here ≤ h.capacity) (isSync : op.isSync = true) :
    op.run h = .ok () h ∨
      (∃ a l h', op.run h = .error (.protect .readWrite a l) h' ∧ Elsewhere h h' ∧
        h'.published = h.published) ∨
      (∃ a l h' stop, op.run h = .error (.protect .readExecute a l) h' ∧
        Touches h stop [.readWrite] h' ∧ h'.published = h.published) ∨
      ∃ h' stop, op.run h = .ok () h' ∧ Touches h stop [.readExecute, .readWrite] h' ∧
        h'.published = stop := by
  rcases run_of_isSync isSync h with same | ⟨stop, run⟩
  · exact Or.inl same
  rcases syncTo_cases stop h with ⟨-, same⟩ |
    ⟨later, host, ⟨a, l, refused⟩ | ⟨a, l, refused⟩ | done⟩
  · exact Or.inl (run.trans (bind_of_ok same _))
  all_goals
    have fits := Nat.le_trans (Nat.min_le_right stop _) fits
    have some := (pagesTo_within carved later fits).2.2
  · rw [bind_of_error refused] at run
    exact Or.inr (Or.inl ⟨a, l, _, run, ⟨⟨rfl, rfl, rfl⟩, Nat.le_refl _, [], rfl, by simp⟩, rfl⟩)
  · rw [bind_of_error refused, Mapping.changesTo_eq some] at run
    exact Or.inr (Or.inr (Or.inl ⟨a, l, _, _, run, ⟨⟨rfl, rfl, rfl⟩, later, fits, rfl⟩, rfl⟩))
  · rw [bind_of_ok done, Mapping.changesTo_eq some, Mapping.changesTo_eq some] at run
    exact Or.inr (Or.inr (Or.inr ⟨_, _, run, ⟨⟨rfl, rfl, rfl⟩, later, fits, rfl⟩, rfl⟩))

/-- What an operation does to the executable buffer, whatever is refused. -/
theorem after_effect (carved : h.IsCarved) (fits : h.here ≤ h.capacity)
    (op : HeapOp) :
    (Elsewhere h (h.after op) ∧ op.tears h = false) ∨
      (∃ stop, Touches h stop [.readWrite] (h.after op) ∧ (h.after op).published = h.published ∧
        op.tears h = true) ∨
      ∃ stop, Touches h stop [.readExecute, .readWrite] (h.after op) ∧
        (h.after op).published = stop ∧ op.tears h = false := by
  by_cases isSync : op.isSync = true
  · rw [← HeapOp.stateAfter_run, HeapOp.tears, isSync, Bool.true_and]
    rcases publishing_cases carved fits isSync with same | ⟨a, l, h', refused, elsewhere, -⟩ |
      ⟨a, l, h', stop, refused, touches, published⟩ | ⟨h', stop, done, touches, published⟩
    · rw [stateAfter_of_ok same, same]
      exact Or.inl ⟨(Still.refl h).elsewhere, rfl⟩
    · rw [stateAfter_of_error refused, refused]
      exact Or.inl ⟨elsewhere, rfl⟩
    · rw [stateAfter_of_error refused, refused]
      exact Or.inr (Or.inl ⟨stop, touches, published, rfl⟩)
    · rw [stateAfter_of_ok done, done]
      exact Or.inr (Or.inr ⟨stop, touches, published, rfl⟩)
  · left
    cases op with
    | emit w => exact ⟨(emit_still w h).elsewhere, rfl⟩
    | emitLiteral value => exact ⟨(emitLiteral_still value h).elsewhere, rfl⟩
    | patch index w => exact ⟨(patch_still index w h).elsewhere, rfl⟩
    | addConstant bytes => exact ⟨addConstant_elsewhere bytes carved, rfl⟩
    | allocateData length align => exact ⟨(allocateData_still length align h).elsewhere, rfl⟩
    | bindSlot target => exact ⟨(bindSlot_still target h).elsewhere, rfl⟩
    | rewind m => exact ⟨(rewind_still h m).elsewhere, rfl⟩
    | refuse refusals => exact ⟨Still.elsewhere ⟨⟨rfl, rfl, rfl⟩, rfl, Nat.le_refl _⟩, rfl⟩
    | sync | syncTo | ensurePublished => exact absurd rfl isSync

/-! ## Every run -/

/-- The parts of the heap lie apart, and every page on which all words are published may be
executed. -/
structure Settled (h : CodeHeap) : Prop where
  carved : h.IsCarved
  full : ∀ i, h.pageOf i < h.pageOf h.published → h.Executable i

theorem SameParts.executableSpan (same : SameParts h h') : h'.executableSpan = h.executableSpan :=
  congrArg Prod.fst (List.cons.inj (List.cons.inj same.parts).2).1

theorem SameParts.pageSize (same : SameParts h h') : h'.pageSize = h.pageSize :=
  congrArg Platform.pageSize same.platform

theorem SameParts.pageOf (same : SameParts h h') (i : Nat) : h'.pageOf i = h.pageOf i := by
  have start : h'.executableOffset = h.executableOffset := congrArg Span.start same.executableSpan
  unfold CodeHeap.pageOf
  rw [start, same.pageSize]

/-- The protections of the executable buffer stay. -/
theorem Elsewhere.executable (elsewhere : Elsewhere h h')
    (carved : h.IsCarved) (fits : i < h.capacity)
    (executable : h.Executable i) : h'.Executable i := by
  intro offset page
  rw [elsewhere.toSameParts.pageOf, elsewhere.toSameParts.pageSize] at page
  obtain ⟨log, changes, within⟩ := elsewhere.changes
  have inside := executableSpan_contains_of_lt carved fits page
  show protectionIn h'.memory.changes offset = _
  rw [changes, protectionIn_append fun change member =>
    constants_apart carved (within change member) inside]
  exact executable offset page

variable {protections : List Protection}

/-- Pages below those that are opened stay as they are. -/
theorem Touches.executable (touches : Touches h stop protections h')
    (carved : h.IsCarved) (below : h.pageOf i < h.pageOf h.published)
    (executable : h.Executable i) : h'.Executable i := by
  intro offset page
  rw [touches.toSameParts.pageOf, touches.toSameParts.pageSize] at page
  have outside : (h.pagesTo stop).contains offset = false := by
    rw [Bool.eq_false_iff, Ne, pagesTo_contains carved touches.later touches.fits, page]
    omega
  show protectionIn h'.memory.changes offset = _
  rw [touches.changes, protectionIn_append]
  · exact executable offset page
  · intro change member
    obtain ⟨protection, -, rfl⟩ := List.mem_map.1 member
    exact outside

/-- The pages that are opened have the newest of the protections. -/
theorem Touches.protection {protection : Protection}
    (touches : Touches h stop (protection :: protections) h') (carved : h.IsCarved) {offset : Nat}
    (low : h.pageOf h.published ≤ offset / h.pageSize)
    (high : offset / h.pageSize ≤ h.pageOf (stop - 1)) :
    h'.memory.protectionAt offset = protection := by
  have inside := (pagesTo_contains carved touches.later touches.fits offset).2 ⟨low, high⟩
  show protectionIn h'.memory.changes offset = _
  rw [touches.changes, List.map_cons, List.cons_append, protectionIn_cons, if_pos inside]

/-- Once words have been published, every published word can be executed. -/
theorem Touches.runnable (settled : h.Settled)
    (touches : Touches h stop (.readExecute :: protections) h') (published : h'.published = stop) :
    h'.Runnable := by
  intro i low
  by_cases below : h.pageOf i < h.pageOf h.published
  · exact touches.executable settled.carved below (settled.full i below)
  · intro offset page
    rw [touches.toSameParts.pageOf, touches.toSameParts.pageSize] at page
    refine touches.protection settled.carved (page ▸ Nat.le_of_not_lt below) ?_
    rw [page]
    exact h.pageOf_mono (by omega)

/-- Of the words that are published already, those on the first page that was opened can no longer
be executed. -/
theorem Touches.torn (settled : h.Settled) (touches : Touches h stop [.readWrite] h')
    (low : i < h.published) : h'.Executable i ↔ h.pageOf i < h.pageOf h.published := by
  refine ⟨fun executable => ?_, fun below =>
    touches.executable settled.carved below (settled.full i below)⟩
  refine Nat.lt_of_le_of_ne (h.pageOf_mono (Nat.le_of_lt low)) fun same => ?_
  have page : h.pageOf i * h.pageSize / h.pageSize = h.pageOf i :=
    Nat.mul_div_cancel _ h.pageSize_pos
  have later := touches.later
  have opened : h'.memory.protectionAt (h.pageOf i * h.pageSize) = .readWrite := by
    refine touches.protection settled.carved ?_ ?_
    · rw [page, same]
    · rw [page]
      exact h.pageOf_mono (by omega)
  have closed := executable (h.pageOf i * h.pageSize) (by
    rw [touches.toSameParts.pageSize, page, touches.toSameParts.pageOf])
  cases opened.symm.trans closed

theorem lt_published_of_pageOf (below : h.pageOf i < h.pageOf h.published) : i < h.published :=
  Nat.lt_of_not_le fun le => Nat.not_le.2 below (h.pageOf_mono le)

/-- Whatever is refused, pages on which all words are published stay executable. -/
theorem Settled.after (settled : h.Settled) (consistent : h.Consistent) (op : HeapOp) :
    (h.after op).Settled := by
  have carved := settled.carved
  have fits := Nat.le_trans consistent.published_le consistent.here_le
  rcases after_effect carved consistent.here_le op with ⟨elsewhere, -⟩ |
    ⟨stop, touches, published, -⟩ | ⟨stop, touches, published, -⟩
  · refine ⟨elsewhere.toSameParts.carved carved, fun i below => ?_⟩
    simp only [elsewhere.toSameParts.pageOf] at below
    replace below := Nat.lt_of_lt_of_le below (h.pageOf_mono elsewhere.published)
    exact elsewhere.executable carved (Nat.lt_of_lt_of_le (lt_published_of_pageOf below) fits)
      (settled.full i below)
  · refine ⟨touches.toSameParts.carved carved, fun i below => ?_⟩
    simp only [touches.toSameParts.pageOf, published] at below
    exact touches.executable carved below (settled.full i below)
  · exact ⟨touches.toSameParts.carved carved,
      fun i below => touches.runnable settled published i (lt_published_of_pageOf below)⟩

/-- Published words stay executable unless opened pages cannot be closed. -/
theorem Runnable.after (runnable : h.Runnable) (settled : h.Settled) (consistent : h.Consistent)
    (untorn : op.tears h = false) : (h.after op).Runnable := by
  have fits := Nat.le_trans consistent.published_le consistent.here_le
  rcases after_effect settled.carved consistent.here_le op with ⟨elsewhere, -⟩ |
    ⟨stop, -, -, torn⟩ | ⟨stop, touches, published, -⟩
  · intro i low
    have low := Nat.lt_of_lt_of_le low elsewhere.published
    exact elsewhere.executable settled.carved (Nat.lt_of_lt_of_le low fits) (runnable i low)
  · cases torn.symm.trans untorn
  · exact touches.runnable settled published

/-- Publishing makes every published word executable again. -/
theorem Settled.mended (settled : h.Settled) (consistent : h.Consistent)
    (grown : h.published < (h.after op).published) : (h.after op).Runnable := by
  rcases after_effect settled.carved consistent.here_le op with ⟨elsewhere, -⟩ |
    ⟨stop, -, same, -⟩ | ⟨stop, touches, published, -⟩
  · exact absurd grown (Nat.not_lt.2 elsewhere.published)
  · exact absurd grown (by omega)
  · exact touches.runnable settled published

theorem afterAll_settled (settled : h.Settled) (consistent : h.Consistent) (ops : List HeapOp) :
    (h.afterAll ops).Settled ∧ (h.Runnable → h.untorn ops = true → (h.afterAll ops).Runnable) := by
  induction ops generalizing h with
  | nil => exact ⟨settled, fun runnable _ => runnable⟩
  | cons op ops ih =>
    obtain ⟨settled', runnable'⟩ :=
      ih (settled.after consistent op) (after_consistent consistent op)
    refine ⟨settled', fun runnable untorn => ?_⟩
    rw [CodeHeap.untorn, Bool.and_eq_true, Bool.not_eq_true'] at untorn
    exact runnable' (runnable.after settled consistent untorn.1) untorn.2

theorem create_settled {host : Host} {layout : HeapLayout} (created : create host layout = .ok h) :
    h.Settled ∧ h.Runnable := by
  have carved := (create_protected created).carved
  obtain ⟨-, published, -⟩ := create_empty created
  refine ⟨⟨carved, fun i below => ?_⟩, fun i low => ?_⟩
  · have low := lt_published_of_pageOf below
    omega
  · omega

/-- The next word to be published is the first of its page exactly if no page holds published words
and others. -/
theorem Settled.page_boundary (settled : h.Settled) :
    (∀ i < h.published, h.pageOf i < h.pageOf h.published) ↔
      h.published * wordBytes % h.pageSize = 0 := by
  have aligned := executableOffset_aligned settled.carved
  rw [← Nat.dvd_iff_mod_eq_zero, ← Nat.dvd_add_right aligned]
  constructor
  · intro below
    by_cases none : h.published = 0
    · rw [none, Nat.zero_mul]
      exact aligned
    · have last : h.executableOffset + h.published * wordBytes =
          h.executableOffset + (h.published - 1) * wordBytes + wordBytes := by
        unfold wordBytes
        omega
      -- The page of the last published word ends at or before the next word.
      have ends : nextMultiple (h.executableOffset + h.published * wordBytes) h.pageSize ≤
          h.executableOffset + h.published * wordBytes := by
        rw [last, nextMultiple_add_wordBytes h.pageSize_pos h.wordBytes_dvd_pageSize
          (wordBytes_dvd_executableOffset settled.carved _), ← last]
        exact (Nat.le_div_iff_mul_le h.pageSize_pos).1 (below (h.published - 1) (by omega))
      rw [Nat.le_antisymm (le_nextMultiple _ h.pageSize_pos) ends]
      exact dvd_nextMultiple _ _
  · intro boundary i low
    refine Nat.div_lt_div_of_lt_of_dvd boundary (Nat.add_lt_add_left ?_ _)
    exact Nat.mul_lt_mul_of_pos_right low (by decide)

/-- Let any operations have been run on a new heap and any protection changes refused, and let
publishing fail now.  Then as many words are published as before and hold what they held, and pages
on which all words are published can be executed.  If no opened pages have been left open before,
every page with a published word could be executed until now, and can be still exactly if opening
was refused or the published words end at a page boundary.  In any case the next publication makes
all of them executable. -/
theorem publication_refused {host : Host} {layout : HeapLayout} {new : CodeHeap} {e : MemoryError}
    (created : create host layout = .ok new) (ops : List HeapOp) (isSync : op.isSync = true)
    (failed : op.run (new.afterAll ops) = .error e h') :
    let h := new.afterAll ops
    h'.published = h.published ∧
      (∀ i < h.published, h'.word? i = h.word? i ∧ h'.executableWord i = h.executableWord i) ∧
      (∀ i, h.pageOf i < h.pageOf h.published → h'.Executable i) ∧
      (new.untorn ops = true → h.Runnable ∧
        (h'.Runnable ↔
          (∃ address length, e = .protect .readWrite address length) ∨
            h.published * wordBytes % h.pageSize = 0)) ∧
      ∀ next, h'.published < (h'.after next).published → (h'.after next).Runnable := by
  intro h
  obtain ⟨settledNew, runnableNew⟩ := create_settled created
  have consistentNew := create_consistent created
  have consistent : h.Consistent := afterAll_consistent consistentNew ops
  obtain ⟨settled, runnable⟩ := afterAll_settled settledNew consistentNew ops
  have left : h.after op = h' := by
    rw [← HeapOp.stateAfter_run]
    exact stateAfter_of_error failed
  have forward : ∀ m, op ≠ .rewind m := by
    rintro m rfl
    cases isSync
  obtain ⟨extended, consistent', -⟩ := after_grows h forward consistent (Nat.zero_le _)
  have settled' := settled.after consistent op
  rw [left] at extended consistent' settled'
  have kept : ∀ i < h.published, h'.word? i = h.word? i ∧
      h'.executableWord i = h.executableWord i :=
    fun i low => ⟨extended.staged i low, extended.executable i low⟩
  have mended : ∀ next, h'.published < (h'.after next).published → (h'.after next).Runnable :=
    fun _ => settled'.mended consistent'
  rcases publishing_cases settled.carved consistent.here_le isSync with same |
    ⟨a, l, h1, refused, elsewhere, published⟩ | ⟨a, l, h1, stop, refused, touches, published⟩ |
    ⟨h1, stop, done, -, -⟩
  · cases failed.symm.trans same
  · cases failed.symm.trans refused
    have fits := Nat.le_trans consistent.published_le consistent.here_le
    have same : ∀ i < h.published, h.Executable i → h'.Executable i := fun i low =>
      elsewhere.executable settled.carved (Nat.lt_of_lt_of_le low fits)
    refine ⟨published, kept, fun i below =>
      same i (lt_published_of_pageOf below) (settled.full i below),
      fun untorn => ⟨runnable runnableNew untorn, fun _ => Or.inl ⟨a, l, rfl⟩, fun _ i low => ?_⟩,
      mended⟩
    rw [published] at low
    exact same i low (runnable runnableNew untorn i low)
  · cases failed.symm.trans refused
    refine ⟨published, kept, fun i below =>
        (touches.torn settled (lt_published_of_pageOf below)).2 below,
      fun untorn => ⟨runnable runnableNew untorn, ?_⟩, mended⟩
    have boundary : h'.Runnable ↔ h.published * wordBytes % h.pageSize = 0 := by
      rw [← settled.page_boundary, Runnable, published]
      exact forall₂_congr fun i low => touches.torn settled low
    rw [boundary]
    refine ⟨Or.inr, ?_⟩
    rintro (⟨_, _, ⟨⟩⟩ | at_boundary)
    exact at_boundary
  · cases failed.symm.trans done

/-- One word is published; the next publication opens its page, and closing it is refused. -/
theorem publication_refused_on_shared_page :
    ∃ new, create {} ⟨1, 1, 1, 1⟩ = .ok new ∧
      let ops := [.emit 1, .sync, .emit 2, .refuse [1]]
      let h := new.afterAll ops
      ∃ e h', HeapOp.sync.run h = .error e h' ∧ new.untorn ops = true ∧
        (h.published, h'.published) = (1, 1) ∧ h'.executableWord 0 = h.executableWord 0 ∧
        h.Runnable ∧ ¬h'.Runnable ∧ (h'.after .sync).Runnable := by
  let ops : List HeapOp := [.emit 1, .sync, .emit 2, .refuse [1]]
  have state : (create {} ⟨1, 1, 1, 1⟩).toOption.bind (fun new =>
      (failure? HeapOp.sync.run (new.afterAll ops)).map fun r =>
        (r.1, new.untorn ops, ((new.afterAll ops).published, r.2.published),
          (r.2.after .sync).published, (new.afterAll ops).pageSize)) =
      some (.protect .readExecute 0x1000003000 4096, true, (1, 1), 2, 4096) := by
    decide +kernel
  obtain ⟨new, created, state⟩ := toOption_bind.1 state
  obtain ⟨e, h', failed, state⟩ := failure?_map.1 state
  simp only [Prod.mk.injEq] at state
  obtain ⟨rfl, untorn, ⟨before, published⟩, next, page⟩ := state
  obtain ⟨-, kept, -, runs, mended⟩ := publication_refused created ops rfl failed
  obtain ⟨runnable, still⟩ := runs untorn
  refine ⟨new, created, _, h', failed, untorn, Prod.ext before published,
    (kept 0 ?_).2, runnable, ?_, mended .sync ?_⟩
  · rw [before]
    exact Nat.one_pos
  · rw [still, before, page]
    rintro (⟨_, _, ⟨⟩⟩ | boundary)
    cases boundary
  · rw [published, next]
    exact Nat.one_lt_two

/-- After such a refusal a word counts as published, and asking for it is granted, although its page
is writable and cannot be executed. -/
theorem published_page_left_open :
    ∃ new, create {} ⟨1, 1, 1, 1⟩ = .ok new ∧
      let h := new.afterAll [.emit 1, .sync, .emit 2, .refuse [1], .sync]
      h.published = 1 ∧ ensurePublished 1 h = .ok () h ∧
        h.memory.protectionAt (h.executableOffset + 0 * wordBytes) = .readWrite := by
  have state : (create {} ⟨1, 1, 1, 1⟩).toOption.map (fun new =>
      let h := new.afterAll [.emit 1, .sync, .emit 2, .refuse [1], .sync]
      (h.published, h.memory.protectionAt (h.executableOffset + 0 * wordBytes))) =
      some (1, .readWrite) := by
    decide +kernel
  obtain ⟨new, created, state⟩ := toOption_map.1 state
  obtain ⟨published, opened⟩ := Prod.mk.inj state
  refine ⟨new, created, published, ?_, opened⟩
  unfold ensurePublished
  rw [bind_get, if_neg (by rw [published]; exact Nat.lt_irrefl 1)]
  rfl

end CodeHeap

end ForthJit
