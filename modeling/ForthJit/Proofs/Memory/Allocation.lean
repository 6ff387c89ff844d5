import ForthJit.Proofs.Memory.Refusal

/-!
# Constants, data and address slots

Each of the three regions is allocated from the bottom up, and only a rewind takes its cursor back.
So whatever is requested comes after everything that was allocated in the region before and has not
been rewound, and the regions themselves lie apart (`allocations_apart`).
-/

namespace ForthJit

/-- The regions that bytes are allocated in. -/
inductive Area where
  | constants
  | data
  | table

def HeapMark.cursor (m : HeapMark) : Area → Nat
  | .constants => m.constants
  | .data => m.data
  | .table => m.slots * 8

/-- What can be allocated in a region. -/
inductive Allocation where
  | constant (bytes : Array UInt8)
  | data (length align : Nat)
  | slot (target : Nat)

namespace Allocation

def run : Allocation → HeapM Nat
  | constant bytes => CodeHeap.addConstant bytes
  | data length align => CodeHeap.allocateData length align
  | slot target => CodeHeap.bindSlot target

def area : Allocation → Area
  | constant _ => .constants
  | data .. => .data
  | slot _ => .table

/-- What is allocated holds these bytes at first. -/
def bytes : Allocation → Array UInt8
  | constant bytes => bytes
  | data length _ => Array.replicate length 0
  | slot target => (littleEndian 8 target).toArray

def align : Allocation → Nat
  | data _ align => align
  | _ => 8

/-- What was requested is at `address`, as it was at first. -/
def Holds (h : CodeHeap) (address : Nat) : Allocation → Prop
  | constant bytes => h.readConstants address bytes.size = bytes.toList
  | data length _ => h.readData address length = List.replicate length 0
  | slot target => ∃ i, h.slotAddress? i = some address ∧ h.slotValue? i = some (target % 2 ^ 64)

def op : Allocation → HeapOp
  | constant bytes => .addConstant bytes
  | data length align => .allocateData length align
  | slot target => .bindSlot target

end Allocation

namespace Region

variable {r r' : Region} {position : Nat}

theorem read_congr {count : Nat}
    (same : ∀ i < count, r'.byte (position + i) = r.byte (position + i)) :
    r'.read position count = r.read position count :=
  List.map_congr_left fun i member => same i (List.mem_range.1 member)

/-- What was written is read. -/
theorem read_write (r : Region) (position : Nat) (bytes : Array UInt8) :
    (r.write position bytes).read position bytes.size = bytes.toList := by
  refine List.ext_getElem (by simp [read, Store.readMany]) fun i bound _ => ?_
  simp only [read, Store.readMany, List.length_map, List.length_range] at bound
  simp [read, Store.readMany, write, Store.read_write, bound]

end Region

theorem ofLittleEndian_littleEndian (count n : Nat) :
    ofLittleEndian (littleEndian count n) = n % 256 ^ count := by
  induction count generalizing n with
  | zero => simp [littleEndian, ofLittleEndian, Nat.mod_one]
  | succ count ih =>
    simp only [littleEndian, ofLittleEndian, ih, Nat.pow_succ', Nat.mod_mul]
    simp

namespace CodeHeap

def region (h : CodeHeap) : Area → Region
  | .constants => h.constants
  | .data => h.data
  | .table => h.table

/-- `h` was made out of `b` by operations and by storing data, and all marks that were rewound to
are `kept`. -/
inductive Later (kept : HeapMark → Prop) (b : CodeHeap) : CodeHeap → Prop
  | start : Later kept b b
  | step {h : CodeHeap} (op : HeapOp) : Later kept b h → (∀ m, op = .rewind m → kept m) →
      Later kept b (h.after op)
  | store {h : CodeHeap} (address : Nat) (bytes : Array UInt8) : Later kept b h →
      Later kept b (h.writeData address bytes)

variable {h h' b : CodeHeap} {area : Area} {kept : HeapMark → Prop}

theorem Extends.region (extended : Extends h h') (area : Area) :
    (h.region area).Extends (h'.region area) := by
  cases area with
  | constants => exact extended.constants
  | data => exact extended.data
  | table => exact extended.table

theorem SameParts.region (same : SameParts h h') (area : Area) :
    (h'.region area).offset = (h.region area).offset ∧
      (h'.region area).capacity = (h.region area).capacity := by
  have parts := same.parts
  simp only [CodeHeap.parts, Region.span, List.cons.injEq, Prod.mk.injEq, Span.mk.injEq] at parts
  cases area <;> simp only [CodeHeap.region] <;> omega

/-- The regions lie apart. -/
theorem regions_apart (carved : h.IsCarved) {area' : Area} (other : area ≠ area') :
    (h.region area).offset + (h.region area).capacity ≤ (h.region area').offset ∨
      (h.region area').offset + (h.region area').capacity ≤ (h.region area).offset := by
  simp only [IsCarved, parts, Carved, Region.span] at carved
  cases area <;> cases area' <;> simp only [region] <;> first | omega | exact absurd rfl other

theorem region_isPart (h : CodeHeap) (area : Area) :
    ∃ protection, ((h.region area).span, protection) ∈ h.parts := by
  cases area
  · exact ⟨.readOnly, by simp [parts, region]⟩
  all_goals exact ⟨.readWrite, by simp [parts, region]⟩

namespace Later

/-- The parts of the heap stay where they are, whatever is refused. -/
theorem sited (later : Later kept b h) (consistent : b.Consistent) (carved : b.IsCarved) :
    h.Consistent ∧ SameParts b h ∧ h.memory.base = b.memory.base := by
  induction later with
  | start => exact ⟨consistent, ⟨rfl, rfl, rfl⟩, rfl⟩
  | @step h op later _ ih =>
    obtain ⟨consistent, same, base⟩ := ih
    have next : SameParts h (h.after op) := by
      rcases after_effect (same.carved carved) consistent.here_le op with ⟨elsewhere, -⟩ |
        ⟨_, touches, -⟩ | ⟨_, touches, -⟩
      · exact elsewhere.toSameParts
      · exact touches.toSameParts
      · exact touches.toSameParts
    refine ⟨after_consistent consistent op,
      ⟨next.platform.trans same.platform, next.length.trans same.length,
        next.parts.trans same.parts⟩, ?_⟩
    by_cases back : ∃ m, op = .rewind m
    · obtain ⟨m, rfl⟩ := back
      exact base
    · exact (after_grows h (fun m same => back ⟨m, same⟩) consistent (Nat.zero_le _)).1.base.trans
        base
  | store address bytes later ih =>
    obtain ⟨⟨published_le, here_le, copied, slots⟩, same, base⟩ := ih
    exact ⟨⟨published_le, here_le, copied, slots⟩, ⟨same.platform, same.length, same.parts⟩, base⟩

/-- What was allocated in a region stays allocated unless a rewind goes below it. -/
theorem region (later : Later kept b h) (consistent : b.Consistent) (carved : b.IsCarved)
    (above : ∀ m, kept m → (b.region area).used ≤ m.cursor area) :
    (b.region area).used ≤ (h.region area).used ∧
      (area ≠ .data → ∀ i < (b.region area).used, (h.region area).byte i =
        (b.region area).byte i) := by
  induction later with
  | start => exact ⟨Nat.le_refl _, fun _ _ _ => rfl⟩
  | @step h op later marks ih =>
    obtain ⟨used, same⟩ := ih
    by_cases back : ∃ m, op = .rewind m
    · obtain ⟨m, rfl⟩ := back
      have rewound :
          (h.after (.rewind m)).region area = (h.region area).rewind (m.cursor area) := by
        cases area <;> rfl
      rw [rewound]
      exact ⟨Nat.le_min.2 ⟨used, above m (marks m rfl)⟩, same⟩
    · have consistent' := (later.sited consistent carved).1
      have grown :=
        (after_grows h (fun m same => back ⟨m, same⟩) consistent' (Nat.zero_le _)).1.region area
      exact ⟨Nat.le_trans used grown.used, fun fixed i live =>
        (grown.kept i (Nat.lt_of_lt_of_le live used)).trans (same fixed i live)⟩
  | store address bytes later ih =>
    cases area with
    | constants | table => exact ih
    | data => exact ⟨ih.1, fun fixed => absurd rfl fixed⟩

end Later

end CodeHeap

namespace Allocation

variable {h h' : CodeHeap} {request : Allocation} {address position : Nat}

/-- What is requested is reserved in its region, and its bytes are written there. -/
theorem run_ok (done : request.run h = .ok address h') :
    h.after request.op = h' ∧ h'.memory.base = h.memory.base ∧ ∃ part position r,
      Region.reserve part request.bytes.size request.align (h.region request.area) =
        .ok position r ∧
        address = h.memory.base + (h.region request.area).offset + position ∧
        h'.region request.area = r.write position request.bytes := by
  cases request with
  | constant bytes =>
    refine ⟨stateAfter_of_ok done, ?_⟩
    rcases CodeHeap.addConstant_cases bytes h with ⟨e, r, -, failed⟩ |
      ⟨position, constants, host, reserved, ⟨a, l, failed⟩ | ⟨a, l, failed⟩ | done'⟩
    · cases done.symm.trans failed
    · cases done.symm.trans failed
    · cases done.symm.trans failed
    · cases done.symm.trans done'
      exact ⟨rfl, .constants, position, constants,
        reserved, by rw [(Region.reserve_extends reserved).1.offset]; rfl, rfl⟩
  | data length align =>
    refine ⟨stateAfter_of_ok done, ?_⟩
    rcases CodeHeap.allocateData_cases length align h with ⟨e, r, -, failed⟩ |
      ⟨position, data, reserved, done'⟩
    · cases done.symm.trans failed
    · cases done.symm.trans done'
      refine ⟨rfl, .data, position, data,
        ?_, by rw [(Region.reserve_extends reserved).1.offset]; rfl, rfl⟩
      rwa [bytes, Array.size_replicate]
  | slot target =>
    refine ⟨stateAfter_of_ok done, ?_⟩
    rcases CodeHeap.bindSlot_cases target h with
      ⟨e, r, -, failed⟩ | ⟨position, table, reserved, done'⟩
    · cases done.symm.trans failed
    · cases done.symm.trans done'
      refine ⟨rfl, .addressTable, position, table,
        ?_, by rw [(Region.reserve_extends reserved).1.offset]; rfl, rfl⟩
      rwa [bytes, List.size_toArray, length_littleEndian]

theorem placed (done : request.run h = .ok address h') :
    let region := h'.region request.area
    ∃ position, address = h'.memory.base + region.offset + position ∧
      max request.align 1 ∣ position ∧ (h.region request.area).used ≤ position ∧
      position + request.bytes.size = region.used ∧ region.used ≤ region.capacity ∧
      region.read position request.bytes.size = request.bytes.toList := by
  intro region
  obtain ⟨-, base, part, position, r, reserved, found, written⟩ := run_ok done
  have above := (Region.reserve_extends reserved).2
  obtain ⟨start, fits, rfl⟩ := Region.reserve_ok reserved
  refine ⟨position, ?_, Dvd.intro_left _ start.symm, above, ?_, ?_, ?_⟩
  all_goals simp only [region, written, base]
  · exact found
  · rfl
  · exact fits
  · exact Region.read_write _ position _

theorem holds_of_read (found : address = h.memory.base + (h.region request.area).offset + position)
    (aligned : max request.align 1 ∣ position)
    (live : position + request.bytes.size ≤ (h.region request.area).used)
    (same : (h.region request.area).read position request.bytes.size = request.bytes.toList) :
    request.Holds h address := by
  cases request with
  | constant bytes =>
    change address = h.memory.base + h.constants.offset + position at found
    rwa [Holds, CodeHeap.readConstants, found, Nat.add_sub_cancel_left]
  | data length align =>
    change address = h.memory.base + h.data.offset + position at found
    rw [bytes, Array.size_replicate, Array.toList_replicate] at same
    rwa [Holds, CodeHeap.readData, found, Nat.add_sub_cancel_left]
  | slot target =>
    change address = h.memory.base + h.table.offset + position at found
    obtain ⟨i, rfl⟩ := aligned
    have position : max (slot target).align 1 * i = i * 8 := Nat.mul_comm 8 i
    rw [bytes, List.size_toArray, length_littleEndian, position] at live same
    rw [position] at found
    have bound : i * 8 < h.table.used := Nat.lt_of_lt_of_le (by omega) live
    change h.table.read (i * 8) 8 = _ at same
    refine ⟨i, ?_, ?_⟩
    · rw [CodeHeap.slotAddress?, if_pos bound, found]
    · rw [CodeHeap.slotValue?, if_pos bound, same, ofLittleEndian_littleEndian]
      rfl

end Allocation

namespace CodeHeap

/-- Whatever is allocated in a heap lies in its own region, a part of the heap with unused pages on
both sides, aligned, and holds what it is to hold.  As long as no rewind goes below it, it lies
apart from whatever is allocated later, and constants and slots keep their contents. -/
theorem allocations_apart {host : Host} {layout : HeapLayout} {new h h' : CodeHeap}
    {request : Allocation} {address : Nat} (created : create host layout = .ok new)
    (before : Later (fun _ => True) new h) (done : request.run h = .ok address h') :
    let region := h'.region request.area
    h'.IsCarved ∧
    (∃ protection, (region.span, protection) ∈ h'.parts) ∧
    h'.memory.base + region.offset ≤ address ∧
    address + request.bytes.size ≤ h'.memory.base + region.offset + region.capacity ∧
    (request.align ∣ h'.pageSize → request.align ∣ address) ∧
    request.Holds h' address ∧
    ∀ now, Later (fun m => region.used ≤ m.cursor request.area) h' now →
      (request.area ≠ .data → request.Holds now address) ∧
      ∀ (other : Allocation) address' now', other.run now = .ok address' now' →
        address + request.bytes.size ≤ address' ∨ address' + other.bytes.size ≤ address := by
  dsimp only
  have consistentNew := create_consistent created
  obtain ⟨⟨carvedNew, -⟩, platform, placed, -⟩ := create_mapped created
  obtain ⟨after, -⟩ := Allocation.run_ok done
  obtain ⟨position, found, aligned, -, used, fits, read⟩ := Allocation.placed done
  have upTo : Later (fun _ => True) new h' := after ▸ before.step request.op fun _ _ => trivial
  obtain ⟨consistent, same, base'⟩ := upTo.sited consistentNew carvedNew
  have carved := same.carved carvedNew
  refine ⟨carved, h'.region_isPart _, by omega, by omega, fun divides => ?_, ?_, ?_⟩
  · obtain ⟨protection, isPart⟩ := h'.region_isPart request.area
    obtain ⟨-, -, ⟨whole, -⟩, -⟩ := carved.member isPart
    have mapped : h'.pageSize ∣ h'.memory.base := by
      rw [base', pageSize, same.platform, platform]
      exact host.platform.place_aligned placed
    rw [found]
    refine Nat.dvd_add (divides.trans (Nat.dvd_add mapped whole)) ?_
    rwa [Nat.max_eq_left (Nat.pos_of_dvd_of_pos divides h'.pageSize_pos)] at aligned
  · exact Allocation.holds_of_read found aligned used.le read
  · intro now later
    obtain ⟨consistentNow, sameNow, baseNow⟩ := later.sited consistent carved
    obtain ⟨grown, kept⟩ := later.region consistent carved fun _ above => above
    have regions := sameNow.region
    refine ⟨fun fixed => ?_, fun other address' now' done' => ?_⟩
    · refine Allocation.holds_of_read (by rw [found, baseNow, (regions _).1]) aligned
        (used.le.trans grown) ?_
      rw [← read]
      exact Region.read_congr fun i bound => kept fixed _ (by omega)
    · obtain ⟨after', base'', -⟩ := Allocation.run_ok done'
      obtain ⟨position', found', -, above, used', fits', -⟩ := Allocation.placed done'
      have next : Later (fun _ => True) now now' :=
        after' ▸ Later.start.step other.op fun _ _ => trivial
      have regions' := (next.sited consistentNow (sameNow.carved carved)).2.1.region other.area
      have regions := regions other.area
      by_cases same : request.area = other.area
      · have offset : (h'.region request.area).offset = (h'.region other.area).offset := by
          rw [same]
        have now_used : (now.region request.area).used = (now.region other.area).used := by
          rw [same]
        omega
      · have apart := regions_apart carved same
        omega

/-- Data is allocated where data was rewound that something had been stored in, and a constant after
it. -/
theorem reused_data_apart :
    ∃ new, create {} ⟨1, 1, 1, 1⟩ = .ok new ∧
      let h := ((new.after (.allocateData 8 8)).writeData (new.memory.base + new.data.offset)
        #[1, 2, 3, 4, 5, 6, 7, 8]).after (.rewind ⟨0, 0, 0, 0⟩)
      ∃ a h' a' h'', (Allocation.data 8 16).run h = .ok a h' ∧
        (Allocation.constant #[9]).run (h'.after (.rewind ⟨0, 0, 8, 0⟩)) = .ok a' h'' ∧
        h.readData a 8 = [1, 2, 3, 4, 5, 6, 7, 8] ∧ (Allocation.data 8 16).Holds h' a ∧ 16 ∣ a ∧
        (a + 8 ≤ a' ∨ a' + 1 ≤ a) := by
  let h (new : CodeHeap) := ((new.after (.allocateData 8 8)).writeData
    (new.memory.base + new.data.offset) #[1, 2, 3, 4, 5, 6, 7, 8]).after (.rewind ⟨0, 0, 0, 0⟩)
  have state : (create {} ⟨1, 1, 1, 1⟩).toOption.bind (fun new =>
      (success? (Allocation.data 8 16).run (h new)).bind fun r =>
        (success? (Allocation.constant #[9]).run (r.2.after (.rewind ⟨0, 0, 8, 0⟩))).map fun _ =>
          ((h new).readData r.1 8, r.2.data.used, r.2.pageSize)) =
      some ([1, 2, 3, 4, 5, 6, 7, 8], 8, 4096) := by
    decide +kernel
  obtain ⟨new, created, state⟩ := toOption_bind.1 state
  obtain ⟨a, h', done, state⟩ := success?_bind.1 state
  obtain ⟨a', h'', done', state⟩ := success?_map.1 state
  simp only [Prod.mk.injEq] at state
  obtain ⟨old, used, page⟩ := state
  have before : Later (fun _ => True) new (h new) :=
    ((Later.start.step _ fun _ _ => trivial).store _ _).step _ fun _ _ => trivial
  obtain ⟨-, -, -, -, aligned, holds, later⟩ := allocations_apart created before done
  have rewound : ∀ m, HeapOp.rewind ⟨0, 0, 8, 0⟩ = .rewind m → h'.data.used ≤ m.cursor .data := by
    rintro m ⟨⟩
    exact used.le
  exact ⟨new, created, a, h', a', h'', done, done', old, holds, aligned (page ▸ by decide),
    (later _ (Later.start.step _ rewound)).2 _ _ _ done'⟩

/-- Where numbers wrap around, the data of a heap that is too long lies on its staged words, and its
addresses on its executable words. -/
theorem regions_overlap :
    create {} overlong = .error .overflow ∧
      ∃ new, build (· % 2 ^ 64) {} overlong = .ok new ∧
        new.data.span = ⟨new.stagedOffset, new.stagedOffset + new.capacity * wordBytes⟩ ∧
        new.table.span = new.executableSpan ∧ ¬new.IsCarved := by
  have state : (build (· % 2 ^ 64) {} overlong).toOption.map (fun new =>
      (new.stagedOffset, new.capacity, new.data.span, new.table.span, new.executableSpan)) =
      some (4096, 1024, ⟨4096, 8192⟩, ⟨12288, 16384⟩, ⟨12288, 16384⟩) := by
    decide +kernel
  obtain ⟨new, made, state⟩ := toOption_map.1 state
  simp only [Prod.mk.injEq] at state
  obtain ⟨start, capacity, data, table, executable⟩ := state
  refine ⟨create_overlong, new, made, ?_, table.trans executable.symm, fun carved => ?_⟩
  · rw [start, capacity]
    exact data
  · have same := carved.apart _ new.executable_isPart (new.table.span, .readWrite) (by simp [parts])
      12288 (by rw [executable]; rfl) (by rw [table]; rfl)
    cases same

end CodeHeap

/-- Operations that allocate more than one word. -/
def HeapOp.allocates : HeapOp → Bool
  | emitLiteral _ | addConstant _ | allocateData .. | bindSlot _ => true
  | _ => false

/-- A failure with error `e` comes when part of the space has been allocated: there is room for one
half of a literal only, or a constant has been reserved that its region cannot be opened or closed
for. -/
def HeapOp.Halved (op : HeapOp) (h : CodeHeap) (e : MemoryError) : Prop :=
  match op with
  | emitLiteral _ => h.here + 1 = h.capacity
  | addConstant bytes => (∃ p a l, e = .protect p a l) ∧
      nextMultiple h.constants.used 8 + bytes.size ≠ h.constants.used
  | _ => False

namespace CodeHeap

variable {h h' : CodeHeap} {op : HeapOp} {e : MemoryError}

/-- Cursors are where they were, and what is below them is the same. -/
structure Unchanged (h h' : CodeHeap) : Prop where
  mark : h'.mark = h.mark
  published : h'.published = h.published
  staged : ∀ i < h.here, h'.word? i = h.word? i
  executable : ∀ i < h.published, h'.executableWord i = h.executableWord i
  bytes : ∀ area, ∀ i < (h.region area).used, (h'.region area).byte i = (h.region area).byte i

theorem unchanged_iff (extended : h.Extends h') (shared : h.SharesBelow h.here h')
    (published : h'.published = h.published) : h.Unchanged h' ↔ h'.mark = h.mark :=
  ⟨Unchanged.mark, fun mark => ⟨mark, published, shared.words, extended.executable,
    fun area => (extended.region area).kept⟩⟩

theorem unchanged_rewind (consistent : h.Consistent) (extended : h.Extends h')
    (shared : h.SharesBelow h.here h') (published : h'.published = h.published) :
    h.Unchanged (h'.rewind h.mark) := by
  refine ⟨?_, ?_, fun i low => ?_, extended.executable, fun area => ?_⟩
  · have := extended.constants.used
    have := extended.data.used
    have := extended.table.used
    have := consistent.slots
    have := shared.here
    simp only [mark, rewind, Region.rewind, Array.size_shrink, HeapMark.mk.injEq]
    refine ⟨?_, ?_, ?_, ?_⟩
    · exact Nat.min_eq_left this
    all_goals omega
  · show min h'.published h.here = h.published
    rw [published]
    exact Nat.min_eq_left consistent.published_le
  · show (h'.staged.shrink h.here)[i]? = _
    rw [getElem?_shrink, if_pos low]
    exact shared.words i low
  · cases area with
    | constants => exact extended.constants.kept
    | data => exact extended.data.kept
    | table => exact extended.table.kept

theorem error_of_ignore {α : Type} {m : HeapM α}
    (failed : (do let _ ← m : HeapM Unit) h = .error e h') : m h = .error e h' := by
  cases outcome : m h with
  | ok a h1 => cases (bind_of_ok outcome _).symm.trans failed
  | error e' h1 =>
    cases (bind_of_error outcome _).symm.trans failed
    rfl

/-- Once a constant is reserved its cursor has moved, unless there was nothing to reserve. -/
theorem reserved_mark {bytes : Array UInt8} {position a l : Nat} {constants : Region}
    {p : Protection}
    (reserved : Region.reserve .constants bytes.size 8 h.constants = .ok position constants)
    (used : h'.constants.used = constants.used)
    (others : h'.mark = { h.mark with constants := h'.constants.used }) :
    h'.mark = h.mark ↔ ¬(HeapOp.addConstant bytes).Halved h (.protect p a l) := by
  obtain ⟨rfl, -, rfl⟩ := Region.reserve_ok reserved
  have same : h'.mark = h.mark ↔ h'.constants.used = h.constants.used := by
    rw [others]
    exact ⟨congrArg HeapMark.constants, fun same => by rw [same]; rfl⟩
  rw [same, used, HeapOp.Halved, not_and_not_right]
  exact ⟨fun same _ => same, fun same => same ⟨p, a, l, rfl⟩⟩

theorem failed_cases (allocates : op.allocates = true) (failed : op.run h = .error e h') :
    Grows h.here h h' ∧ h'.published = h.published ∧ (h'.mark = h.mark ↔ ¬op.Halved h e) := by
  cases op with
  | emitLiteral value =>
    have failed := error_of_ignore failed
    refine ⟨(emitLiteral_leaves value).of_error failed, ?_⟩
    rcases emit_cases (value.extractLsb' 0 32) h with ⟨room, first⟩ | ⟨full, first⟩
    · rw [emitLiteral, bind_of_ok first] at failed
      rcases emit_cases (value.extractLsb' 32 32) { h with staged := h.staged.push _ } with
        ⟨-, second⟩ | ⟨full, second⟩
      · cases (bind_of_ok second _).symm.trans failed
      · cases (bind_of_error second _).symm.trans failed
        change h.capacity ≤ (h.staged.push _).size at full
        rw [Array.size_push] at full
        refine ⟨rfl, fun same => ?_, fun whole => absurd (Nat.le_antisymm room full) whole⟩
        have code := congrArg HeapMark.code same
        simp [mark] at code
    · cases (bind_of_error first _).symm.trans failed
      exact ⟨rfl, fun _ half => by change h.here + 1 = h.capacity at half; omega, fun _ => rfl⟩
  | addConstant bytes =>
    have failed := error_of_ignore failed
    refine ⟨(addConstant_leaves bytes).of_error failed, ?_⟩
    rcases addConstant_cases bytes h with ⟨e', r, full, refused⟩ |
      ⟨position, constants, host, reserved, ⟨a, l, refused⟩ | ⟨a, l, refused⟩ | done⟩
    · cases failed.symm.trans refused
      refine ⟨rfl, fun _ => ?_, fun _ => rfl⟩
      rintro ⟨⟨_, _, _, rfl⟩, -⟩
      unfold Region.reserve at full
      dsimp only at full
      split at full
      · cases full
      · split at full <;> cases full
    · cases failed.symm.trans refused
      exact ⟨rfl, reserved_mark reserved rfl rfl⟩
    · cases failed.symm.trans refused
      exact ⟨rfl, reserved_mark reserved rfl rfl⟩
    · cases failed.symm.trans done
  | allocateData length align =>
    have failed := error_of_ignore failed
    rcases allocateData_cases length align h with ⟨e', r, -, full⟩ | ⟨position, data, -, done⟩
    · cases failed.symm.trans full
      exact ⟨.refl h, rfl, fun _ => id, fun _ => rfl⟩
    · cases failed.symm.trans done
  | bindSlot target =>
    have failed := error_of_ignore failed
    rcases bindSlot_cases target h with ⟨e', r, -, full⟩ | ⟨position, table, -, done⟩
    · cases failed.symm.trans full
      exact ⟨.refl h, rfl, fun _ => id, fun _ => rfl⟩
    · cases failed.symm.trans done
  | _ => cases allocates

/-- An allocation that fails leaves cursors, words and bytes as they were, unless it fails half-way,
and then rewinding to the mark from before brings them back. -/
theorem failed_allocations_exact {host : Host} {layout : HeapLayout} {new : CodeHeap}
    (created : create host layout = .ok new) (before : Later (fun _ => True) new h)
    (allocates : op.allocates = true) (failed : op.run h = .error e h') :
    (h.Unchanged h' ↔ ¬op.Halved h e) ∧ h.Unchanged (h'.rewind h.mark) := by
  have consistent := (before.sited (create_consistent created) (create_protected created).carved).1
  obtain ⟨grows, published, mark⟩ := failed_cases allocates failed
  obtain ⟨extended, -, shared⟩ := grows consistent (Nat.le_refl _)
  exact ⟨(unchanged_iff extended shared published).trans mark,
    unchanged_rewind consistent extended shared published⟩

/-- The second of two constants is refused, and so is data for which there is no room. -/
theorem failed_allocations_exact_twice :
    ∃ new, create {} ⟨1, 1, 1, 1⟩ = .ok new ∧
      let h := (new.after (.addConstant #[7])).after (.refuse [0])
      ∃ e h' e' h'', (HeapOp.addConstant #[8]).run h = .error e h' ∧
        (HeapOp.allocateData 4097 1).run h = .error e' h'' ∧ ¬h.Unchanged h' ∧
        h.Unchanged (h'.rewind h.mark) ∧ h.Unchanged h'' := by
  let h (new : CodeHeap) := (new.after (.addConstant #[7])).after (.refuse [0])
  have state : (create {} ⟨1, 1, 1, 1⟩).toOption.bind (fun new =>
      (failure? (HeapOp.addConstant #[8]).run (h new)).bind fun r =>
        (failure? (HeapOp.allocateData 4097 1).run (h new)).map fun _ =>
          (r.1, (h new).constants.used)) =
      some (.protect .readWrite 0x1000005000 4096, 1) := by
    decide +kernel
  obtain ⟨new, created, state⟩ := toOption_bind.1 state
  obtain ⟨⟨e, h'⟩, refused, state⟩ := Option.bind_eq_some_iff.1 state
  obtain ⟨e', h'', full, state⟩ := failure?_map.1 state
  obtain ⟨rfl, used⟩ := Prod.mk.inj state
  have before : Later (fun _ => True) new (h new) :=
    (Later.start.step _ fun _ _ => trivial).step _ fun _ _ => trivial
  have refused := failure?_eq_some.1 refused
  have first := failed_allocations_exact created before rfl refused
  refine ⟨new, created, _, h', e', h'', refused, full, fun same =>
    first.1.1 same ⟨⟨_, _, _, rfl⟩, ?_⟩,
    first.2, (failed_allocations_exact created before rfl full).1.2 id⟩
  rw [used]
  decide

/-- A constant that is refused stays reserved. -/
theorem refused_constant_reserved :
    ∃ new, create {} ⟨1, 1, 1, 1⟩ = .ok new ∧ ∃ e h',
      addConstant #[7] (new.after (.refuse [0])) = .error e h' ∧
        (new.after (.refuse [0])).mark = ⟨0, 0, 0, 0⟩ ∧ h'.mark = ⟨0, 1, 0, 0⟩ := by
  have state : (create {} ⟨1, 1, 1, 1⟩).toOption.bind (fun new =>
      (failure? (addConstant #[7]) (new.after (.refuse [0]))).map fun r =>
        ((new.after (.refuse [0])).mark, r.2.mark)) = some (⟨0, 0, 0, 0⟩, ⟨0, 1, 0, 0⟩) := by
    decide +kernel
  obtain ⟨new, created, state⟩ := toOption_bind.1 state
  obtain ⟨e, h', refused, state⟩ := failure?_map.1 state
  obtain ⟨before, after⟩ := Prod.mk.inj state
  exact ⟨new, created, e, h', refused, before, after⟩

end CodeHeap

end ForthJit
