import ForthJit.Proofs.Compiler.Conduct
import ForthJit.Proofs.Compiler.Drafts
import ForthJit.Proofs.Definition.Resolution

/-!
# Every placeholder is patched once

When a definition ends, its ledger names exactly the placeholders among its words.  Layout makes one
patch for each slot of the ledger, in the same order, and every patch is a final word.  So no
placeholder is left for verification to find.
-/

namespace ForthJit

variable {p : LayoutParts} {d d' : Draft} {e : CompileError} {name : String}
  {signature : Signature} {id : EntryId}

/-! ## What is patched, and with what -/

namespace Frame

/-- `stp x29, x30, [sp, #-16]!` -/
def save : Instruction := .pair .storeBefore .fp .lr .sp (-2)

/-- `ldp x29, x30, [sp], #16` -/
def reload : Instruction := .pair .loadAfter .fp .lr .sp 2

theorem stpPre_eq : Asm.stpPre .fp .lr .sp (-16) = .ok save := by decide

theorem ldpPost_eq : Asm.ldpPost .fp .lr .sp 16 = .ok reload := by decide

variable {frame : Frame}

theorem prologue_ok {setup : List Instruction} (ok : frame.prologue = .ok setup) :
    frame.needed = false ∧ setup = [] ∨
      frame.needed = true ∧ frame.size = 0 ∧ setup = [save, Asm.movSp .fp .sp] ∨
        frame.needed = true ∧ 0 < frame.size ∧
          ∃ reserve, Asm.subI .sp .sp (BitVec.ofNat 64 frame.size) = .ok reserve ∧
            setup = [save, Asm.movSp .fp .sp, reserve] := by
  unfold prologue at ok
  rw [stpPre_eq, ok_bind] at ok
  split at ok
  · next needed =>
    dsimp only at ok
    split at ok
    · next slots =>
      obtain ⟨reserve, reserved, ok⟩ := except_bind_eq_ok.1 ok
      cases ok
      exact Or.inr (Or.inr ⟨needed, slots, reserve, reserved, rfl⟩)
    · next slots =>
      cases ok
      exact Or.inr (Or.inl ⟨needed, Nat.eq_zero_of_not_pos slots, rfl⟩)
  · next unneeded =>
    cases ok
    exact Or.inl ⟨by simpa using unneeded, rfl⟩

theorem epilogue_ok {teardown : List Instruction} (ok : frame.epilogue = .ok teardown) :
    frame.needed = false ∧ teardown = [] ∨
      frame.needed = true ∧ frame.size = 0 ∧ teardown = [reload] ∨
        frame.needed = true ∧ 0 < frame.size ∧ teardown = [Asm.movSp .sp .fp, reload] := by
  unfold epilogue at ok
  rw [ldpPost_eq, ok_bind] at ok
  split at ok
  · next needed =>
    split at ok
    · next slots =>
      cases ok
      exact Or.inr (Or.inr ⟨needed, slots, rfl⟩)
    · next slots =>
      cases ok
      exact Or.inr (Or.inl ⟨needed, Nat.eq_zero_of_not_pos slots, rfl⟩)
  · next unneeded =>
    cases ok
    exact Or.inl ⟨by simpa using unneeded, rfl⟩

theorem prologue_isTrap {setup : List Instruction} (ok : frame.prologue = .ok setup) :
    setup.length ≤ prologueSlots ∧ ∀ i ∈ setup, i.isTrap = false := by
  rcases prologue_ok ok with ⟨-, rfl⟩ | ⟨-, -, rfl⟩ | ⟨-, -, reserve, reserved, rfl⟩
  · exact ⟨by decide, by simp⟩
  · exact ⟨by decide, by decide⟩
  · have reserves := Instruction.isTrap_of_map (fun _ => rfl) reserved
    refine ⟨Nat.le_refl _, ?_⟩
    simp only [List.forall_mem_cons, reserves]
    exact ⟨rfl, rfl, trivial, by simp⟩

theorem epilogue_isTrap {teardown : List Instruction} (ok : frame.epilogue = .ok teardown) :
    ∀ i ∈ teardown, i.isTrap = false := by
  rcases epilogue_ok ok with ⟨-, rfl⟩ | ⟨-, -, rfl⟩ | ⟨-, -, rfl⟩ <;> decide

end Frame

/-- What a read or a write of a local becomes overwrites a home, or what was read into. -/
theorem Locals.Resolves.plain {homes : RegSet} {ls : Locals} {i : Nat} {j : Instruction}
    (resolves : Resolves homes ls i j) : j.isPlain = true ∧
      ∀ q ∈ j.written, homes.contains q = true ∨ ∃ l ∈ ls, ∃ r ∈ l.reads, q = r.target := by
  cases resolves with
  | unread => exact ⟨rfl, nofun⟩
  | @write l x home _ _ _ _ among made =>
    cases home with
    | register r =>
      cases made
      exact ⟨rfl, fun q written => Or.inl (List.mem_singleton.1 written ▸ among)⟩
    | slot n =>
      obtain ⟨imm, -, rfl⟩ := except_map_eq_ok.1 made
      exact ⟨rfl, nofun⟩
  | @read l x home _ isLocal isRead _ _ made =>
    have target : ∀ q ∈ [x.target], homes.contains q = true ∨
        ∃ l ∈ ls, ∃ r ∈ l.reads, q = r.target :=
      fun q written => Or.inr ⟨l, isLocal, x, isRead, List.mem_singleton.1 written⟩
    cases home with
    | register r =>
      cases made
      exact ⟨rfl, target⟩
    | slot n =>
      obtain ⟨imm, -, rfl⟩ := except_map_eq_ok.1 made
      exact ⟨rfl, target⟩

theorem Locals.resolveFrom_isTrap {free : List Reg} {used : Nat} {ls : Locals} {r : Resolution}
    (resolved : resolveFrom free used ls = .ok r) :
    ∀ patch ∈ r.patches, patch.2.isTrap = false := by
  rintro ⟨i, j⟩ member
  exact Instruction.isTrap_of_isPlain (resolveFrom_mem resolved member).plain.1

theorem PendingPatch.resolveFrom_isTrap {targets : PatchTargets} {count : Nat}
    {patches : List PendingPatch} {out : List (Nat × Instruction)}
    (resolved : resolveFrom targets count patches = .ok out) :
    ∀ patch ∈ out, patch.2.isTrap = false := by
  rintro ⟨i, j⟩ member
  cases resolveFrom_mem resolved member with
  | unchecked => rfl
  | exit _ made | error _ made | recursion _ made | check _ _ made | literal _ _ made =>
    exact Instruction.isTrap_of_map (fun _ => rfl) made

namespace LayoutParts

/-- The reserved slots are filled from the first to the last. -/
theorem fill_indices (fits : p.setup.length ≤ prologueSlots) (start : Nat) :
    (p.fill start).map (·.1) = (List.range prologueSlots).map (start + ·) := by
  have length : (List.replicate (prologueSlots - p.setup.length) Instruction.nop ++
      p.setup).length = prologueSlots := by
    simp only [List.length_append, List.length_replicate]
    omega
  unfold fill
  generalize List.replicate _ _ ++ p.setup = filling at length
  rw [← length, List.map_map, List.range_eq_range', ← List.zipIdx_map_snd 0 filling, List.map_map]
  rfl

theorem fill_isTrap (others : ∀ i ∈ p.setup, i.isTrap = false) (start : Nat) :
    ∀ patch ∈ p.fill start, patch.2.isTrap = false := by
  intro patch member
  obtain ⟨⟨i, n⟩, indexed, rfl⟩ := List.mem_map.1 member
  show i.isTrap = false
  rcases List.mem_append.1 (List.fst_mem_of_mem_zipIdx indexed) with skipped | setup
  · obtain rfl : i = .nop := List.eq_of_mem_replicate skipped
    rfl
  · exact others i setup

end LayoutParts

namespace Emit.LaidOut

variable {throws : Bool} {errorReg : Reg} {d d' : Draft} {p : LayoutParts} {laid : Laid}

variable (laidOut : LaidOut throws errorReg d p laid d')

include laidOut

/-- There is one patch for each slot of the ledger, in the same order. -/
theorem patches_indices :
    (p.patches d.word.start).map (·.1) = d.word.slots.map (·.1) := by
  have fill := LayoutParts.fill_indices (Frame.prologue_isTrap laidOut.setup).1 d.word.start
  simp only [LayoutParts.patches, Definition.slots, Definition.prologue, List.map_append, fill,
    PendingPatch.resolveFrom_indices laidOut.pending,
    Locals.resolveFrom_indices laidOut.resolved, laidOut.control, List.map_map, List.flatMap_nil,
    List.append_nil]
  rfl

theorem patches_final :
    ∀ patch ∈ p.patches d.word.start, Final patch.2.encode := by
  intro patch member
  refine Instruction.encode_final ?_
  rcases List.mem_append.1 member with earlier | ofLocal
  · rcases List.mem_append.1 earlier with filling | pending
    · exact LayoutParts.fill_isTrap (Frame.prologue_isTrap laidOut.setup).2 _ patch filling
    · exact PendingPatch.resolveFrom_isTrap laidOut.pending patch pending
  · exact Locals.resolveFrom_isTrap laidOut.resolved patch ofLocal

theorem trailer_final :
    ∀ w ∈ p.trailer errorReg throws, Final w := by
  have exits : ∀ i ∈ p.exitCode errorReg throws, i.isTrap = false := by
    unfold LayoutParts.exitCode LayoutParts.clear
    simp only [List.forall_mem_append]
    refine ⟨⟨?_, Frame.epilogue_isTrap laidOut.teardown⟩, by simp [Instruction.isTrap]⟩
    split
    · simp [Asm.mov, Instruction.isTrap]
    · simp
  simp only [LayoutParts.trailer, List.forall_mem_append, List.forall_mem_map]
  refine ⟨⟨fun i member => Instruction.encode_final (exits i member), laidOut.stubs.final⟩,
    fun i member => ?_⟩
  obtain rfl := laidOut.padding i member
  exact Instruction.encode_final rfl

end Emit.LaidOut

/-! ## Completion -/

/-- The staged words while `d` is laid out: once everything has been staged, and after each
patch. -/
def LayoutParts.moments (p : LayoutParts) (d : Draft) (errorReg : Reg) (throws : Bool) :
    List (Array InstrWord) :=
  ForthJit.moments (d.heap.staged ++ (p.trailer errorReg throws).toArray ++
    ((PendingPatch.literals d.word.patches).flatMap CodeHeap.literalWords).toArray)
    (p.patches d.word.start)

theorem CodeHeap.getLast?_moments (h : CodeHeap) (patches : List (Nat × Instruction)) :
    (moments h.staged patches).getLast? = some (h.replaceAll patches).staged := by
  induction patches generalizing h with
  | nil => rfl
  | cons first patches ih =>
    rw [moments, List.getLast?_cons, ← CodeHeap.staged_replace, ih]
    rfl

/-- What is known of the definition in `d` once it has been laid out to `d'`.  In `history` are the
staged words after each operation since the definition began. -/
structure Emit.Completed (history : List (Array InstrWord)) (throws : Bool) (errorReg : Reg)
    (d : Draft) (p : LayoutParts) (laid : Laid) (d' : Draft) : Prop where
  laidOut : LaidOut throws errorReg d p laid d'
  /-- Before the end, only branches that were closed have been patched. -/
  body : history.IsChain (Settles (· = .controlBranch))
  /-- The slots of the ledger are different, and each still holds its placeholder. -/
  once : (d.word.slots.map (·.1)).Nodup
  held : ∀ slot ∈ d.word.slots, d.word.start ≤ slot.1 ∧ d.heap.word? slot.1 = some slot.2.word
  /-- Each slot is patched once, with a final word. -/
  matched : (p.patches d.word.start).map (·.1) = d.word.slots.map (·.1)
  final : ∀ patch ∈ p.patches d.word.start, Final patch.2.encode
  /-- These are the only changes. -/
  last : (p.moments d errorReg throws).getLast? = some d'.heap.staged
  /-- From the beginning on, each position had at most one patch. -/
  fates : ∀ i, d.word.start ≤ i → i < laid.layout.literals →
    Fate ((history ++ p.moments d errorReg throws).filterMap (·[i]?))
  resolved : ∀ i, d.word.start ≤ i → i < laid.layout.literals →
    ∃ w, d'.heap.word? i = some w ∧ Final w
  ledger : d'.word.patches = []

/-- If all placeholders were in the ledger, laying the word out has replaced them all. -/
theorem Emit.LaidOut.completed {throws : Bool} {errorReg : Reg} {laid : Laid}
    (laidOut : LaidOut throws errorReg d p laid d') (logged : d.Logged (fun _ => False) [])
    {history : List (Array InstrWord)} (body : history.IsChain (Settles (· = .controlBranch)))
    (current : history.getLast? = some d.heap.staged) :
    Completed history throws errorReg d p laid d' := by
  have ledger : Ledger (fun _ => False) d.word.start d.heap.staged d.word.slots := by
    simpa [Draft.Logged] using logged
  have matched := laidOut.patches_indices
  have final := laidOut.patches_final
  obtain ⟨chain, staged', size, empty, last'⟩ := (ledger.append fun w member =>
    Or.inl (laidOut.trailer_final w member)).fillAll
    matched final
    ((PendingPatch.literals d.word.patches).flatMap CodeHeap.literalWords).toArray
  have last : (p.moments d errorReg throws).getLast? = some d'.heap.staged := by
    rw [laidOut.heap, ← CodeHeap.getLast?_moments]
    simp [LayoutParts.moments, CodeHeap.stage]
  have staged : d'.heap.staged = staged' ++
      ((PendingPatch.literals d.word.patches).flatMap CodeHeap.literalWords).toArray :=
    Option.some.inj (last.symm.trans last')
  have resolved : ∀ i, d.word.start ≤ i → i < laid.layout.literals →
      ∃ w, d'.heap.word? i = some w ∧ Final w := by
    intro i low high
    have bound : i < staged'.size := by
      rw [laidOut.layout, LayoutParts.literals_eq] at high
      simpa [size, CodeHeap.here] using high
    have at_i : staged'[i]? = some staged'[i] := Array.getElem?_eq_getElem bound
    refine ⟨staged'[i], ?_, (empty.final i _ low at_i (by simp)).resolve_right id⟩
    show d'.heap.staged[i]? = _
    rw [staged, Array.getElem?_append_left bound]
    exact at_i
  refine ⟨laidOut, body, ledger.once, ledger.held, matched, final, last,
    fun i low high => ?_, resolved, ?_⟩
  · obtain ⟨w, at_i, isFinal⟩ := resolved i low high
    have all : (history ++ p.moments d errorReg throws).IsChain (Settles fun _ => True) := by
      refine List.isChain_append.2 ⟨body.imp fun _ _ settles => settles.weaken fun _ _ => trivial,
        chain, fun before isBefore after isAfter => ?_⟩
      rw [current] at isBefore
      rw [LayoutParts.moments, head?_moments] at isAfter
      obtain rfl := Option.some.inj isBefore
      obtain rfl := Option.some.inj isAfter
      exact (Settles.append _ _).trans (.append _ _)
    exact fate_of_chain all (by rw [List.getLast?_append, last]; rfl) at_i isFinal
  · rw [laidOut.word]

/-! ## Errors of the layout -/

/-- The error of a verification that has found a placeholder. -/
def CompileError.isUnpatched : CompileError → Bool
  | .unpatched .. => true
  | _ => false

namespace Emit

theorem checkFinished_error {settings : Settings}
    (error : checkFinished settings d = .error e d') : e.isUnpatched = false := by
  have rest := tail_of error rfl
  rcases control : d.word.control with _ | ⟨_ | _, outer⟩
  · simp only [control] at rest
    split at rest
    · cases rest
    · cases rest
      rfl
  all_goals
    simp only [control] at rest
    cases rest
    rfl

/-- If every layout passes verification, no failure to finish is one to verify. -/
theorem finish_error {throws : Bool} {settings : Settings}
    (verified : ∀ laid d1, layOut throws settings d = .ok laid d1 →
      verify d1.word.start laid.layout.data settings d1 = .ok () d1)
    (failed : finish throws settings d = .error e d') : e.isUnpatched = false := by
  cases outcome : layOut throws settings d with
  | error e1 d1 =>
    replace failed : (layOut throws settings >>= _) d = .error e d' := failed
    rw [bind_of_error outcome] at failed
    cases failed
    rcases layOut_error outcome with unfinished | technical
    · exact checkFinished_error unfinished
    · exact CompileError.of_technical (p := (·.isUnpatched = false)) (fun _ => rfl)
        (fun _ => rfl) technical
  | ok laid d1 =>
    replace failed : (layOut throws settings >>= _) d = .error e d' := failed
    rw [bind_of_ok outcome] at failed
    replace failed : (verify d1.word.start laid.layout.data settings >>= _) d1 = .error e d' :=
      failed
    rw [bind_of_ok (verified laid d1 outcome)] at failed
    cases failed

end Emit

/-! ## Whole definitions -/

namespace Compiler

variable {b c c0 : Compiler} {history : List (Array InstrWord)}

/-- `c` came from `c0` by operations that all succeeded and put no placeholder into the body
themselves.  In the history are the staged words at the beginning and after each operation. -/
inductive Drafted (c0 : Compiler) : List (Array InstrWord) → Compiler → Prop
  | start : Drafted c0 [c0.heap.staged] c0
  | step {history : List (Array InstrWord)} {c c' : Compiler} (op : Operation) :
      Drafted c0 history c → op.run c = .ok () c' → op ≠ .endWord → op ≠ .abandonWord →
      (∀ w clobbers, op = .instruction w clobbers → Final w) →
      Drafted c0 (history ++ [c'.heap.staged]) c'
  | primitive {history : List (Array InstrWord)} {c c' : Compiler} {inputs outputs : Nat}
      {clobbers : RegSet} {body : List InstrWord} :
      Drafted c0 history c →
      emitting (Emit.primitiveBody inputs outputs clobbers body) c = .ok () c' →
      (∀ w ∈ body, Final w) → Drafted c0 (history ++ [c'.heap.staged]) c'

/-- What holds from the beginning of a definition to its end. -/
structure Recorded (b : Compiler) (history : List (Array InstrWord)) (c : Compiler) : Prop where
  opened : b.Opened c
  chain : history.IsChain (Settles (· = .controlBranch))
  last : history.getLast? = some c.heap.staged
  logged : ∃ w, c.definition = some w ∧ Draft.Logged ⟨c.heap, w⟩ (fun _ => False) []

/-- The reserved slots are the first placeholders of a definition. -/
theorem logged_of_begun {raw : InstrWord → Prop} (begun : beginWord name signature b = .ok id c) :
    ∃ w, c.definition = some w ∧ Draft.Logged ⟨c.heap, w⟩ raw [] := by
  obtain ⟨-, -, -, heap, emitted, rfl, rfl⟩ := beginWord_ok begun
  refine ⟨_, rfl, ?_⟩
  have nothing : Ledger raw b.heap.here b.heap.staged [] :=
    ⟨Nat.le_refl _, List.nodup_nil, by simp, fun i w low at_i _ =>
      absurd (Array.getElem?_eq_some_iff.1 at_i).1 (Nat.not_lt.2 low)⟩
  have ledger := nothing.reserveAll .prologue prologueSlots
  rw [CodeHeap.emitAll_ok emitted]
  refine Ledger.perm ledger (.of_eq ?_)
  simp [Definition.slots, Definition.prologue, Locals.slots, List.range'_eq_map_range,
    CodeHeap.here]

theorem recorded_of_begun (start : b.Follows b) (begun : beginWord name signature b = .ok id c) :
    Recorded b [c.heap.staged] c :=
  ⟨opened_of_begun start begun, List.isChain_singleton _, rfl, logged_of_begun begun⟩

variable {c' : Compiler}

theorem Recorded.extend (recorded : Recorded b history c) (opened : b.Opened c')
    (extended : Extends (fun _ => False) c c') : Recorded b (history ++ [c'.heap.staged]) c' := by
  obtain ⟨w, isOpen, logged⟩ := recorded.logged
  obtain ⟨w', isOpen', advances, logged'⟩ := extended w isOpen logged
  refine ⟨opened, ?_, List.getLast?_concat .., w', isOpen', logged'⟩
  refine List.isChain_append.2 ⟨recorded.chain, List.isChain_singleton _, ?_⟩
  intro before isBefore after isAfter
  rw [recorded.last] at isBefore
  obtain rfl := Option.some.inj isBefore
  obtain rfl := Option.some.inj isAfter
  exact advances.staged

theorem Drafted.recorded (drafted : Drafted c0 history c) (clean : b.Clean)
    (start : Recorded b [c0.heap.staged] c0) : Recorded b history c := by
  have inv := opened_invariant b
  induction drafted with
  | start => exact start
  | @step history c c' op _ ok notEnded notAbandoned raw ih =>
    cases inBody : op.inBody with
    | false =>
      obtain ⟨e, refused⟩ := refused_of_open ih.opened.not_idle inBody notEnded notAbandoned
      cases refused.symm.trans ok
    | true =>
      have obeys : op.Obeys fun v _ => Final v := by
        cases op <;> first | exact raw _ _ rfl | trivial
      have opened := ih.opened.after notEnded notAbandoned
      rw [Compiler.after, stateAfter_of_ok ok] at opened
      obtain ⟨deeds, acted, -⟩ := (Does.operation inBody obeys).of_ok ok
      refine ih.extend opened (acted.extends fun _ c1 w a acted1 isOpen fits obeys => ?_)
      have worked : Worked True _ c c1 := acted1.worked
      have opened1 := worked.keeps inv ih.opened
      cases a with
      | instruction v clobbers => exact Or.inl obeys
      | primitive inputs outputs clobbers body => exact fun v member => Or.inl (obeys v member)
      | inline id callee body =>
        obtain ⟨-, found, code, kind, -, rfl⟩ := fits
        exact fun v member => Or.inl ((opened1.clean clean).words found kind v member)
      | _ => trivial
  | @primitive history c c' inputs outputs clobbers body _ ok final ih =>
    obtain ⟨w, d, isOpen, done, same⟩ := emitting_ok ok
    have opened := (Runs.of_ok (emitting_keeps inv.toDraftInvariant fun _ _ =>
      Emit.primitiveBody_confined inputs outputs clobbers body) ih.opened ok).1
    exact ih.extend opened
      (.of_emit (Emit.primitiveBody_logs inputs outputs clobbers fun w member =>
        Or.inl (final w member)) isOpen done (by rw [same]) (by rw [same]))

/-- Whenever the definition `w`, which is open in `c`, can be laid out, each of its placeholders has
been patched once and verification passes. -/
def Completes (history : List (Array InstrWord)) (c : Compiler) (w : Definition) : Prop :=
  ∀ throws laid d', Emit.layOut throws c.settings ⟨c.heap, w⟩ = .ok laid d' →
    (∃ p, Emit.Completed history throws (c.settings.convention.errorReg w.signature.outputs)
      ⟨c.heap, w⟩ p laid d') ∧
    Emit.verify w.start laid.layout.data c.settings d' = .ok () d'

theorem Recorded.completes (recorded : Recorded b history c) :
    ∃ w, c.definition = some w ∧ Completes history c w := by
  obtain ⟨w, isOpen, logged⟩ := recorded.logged
  refine ⟨w, isOpen, fun throws laid d' ok => ?_⟩
  obtain ⟨p, laidOut⟩ := Emit.layOut_ok ok
  have complete := laidOut.completed logged recorded.chain recorded.last
  refine ⟨⟨p, complete⟩, Emit.verify_ok_iff.2 ⟨rfl, fun i v low high at_i => ?_⟩⟩
  obtain ⟨u, at_i', final⟩ := complete.resolved i low (Nat.lt_of_lt_of_le high laidOut.data_le.2)
  obtain rfl := Option.some.inj (at_i.symm.trans at_i')
  exact final

theorem Completes.endWord {w : Definition} (completes : Completes history c w)
    (isOpen : c.definition = some w) (failed : endWord c = .error e c') :
    e.isUnpatched = false := by
  have verified : ∀ throws laid d1, Emit.layOut throws c.settings ⟨c.heap, w⟩ = .ok laid d1 →
      Emit.verify d1.word.start laid.layout.data c.settings d1 = .ok () d1 := by
    intro throws laid d1 ok
    obtain ⟨⟨p, complete⟩, verified⟩ := completes throws laid d1 ok
    have start : d1.word.start = w.start := by rw [complete.laidOut.word]
    rw [start]
    exact verified
  rw [endWord_some isOpen, finishWord_eq, emitting_some isOpen] at failed
  cases outcome : Emit.finish (c.throwing w) c.settings ⟨c.heap, w⟩ with
  | error e1 d =>
    rw [outcome] at failed
    cases failed
    exact Emit.finish_error (verified _) outcome
  | ok finished d =>
    rw [outcome] at failed
    dsimp only at failed
    cases synced : CodeHeap.syncTo finished.code.layout.stop d.heap with
    | error e1 heap =>
      rw [synced] at failed
      cases failed
      rfl
    | ok published heap =>
      rw [synced] at failed
      cases failed

/-- Let a definition begin in an orderly run, and let all operations since have succeeded.  If it
can be laid out at all, then by the time it is verified every placeholder has been patched once, and
verification passes.  So no definition fails to end because of a placeholder that was left. -/
theorem fixups_complete (orderly : Orderly b)
    (begun : beginWord name signature b = .ok id c0) (drafted : Drafted c0 history c) :
    ∃ w, c.definition = some w ∧ Completes history c w ∧
      ∀ e c', endWord c = .error e c' → e.isUnpatched = false := by
  have idle : b.Idle := by
    refine orderly.idle ?_
    rcases beginWord_cases name signature b with ⟨e, refused⟩ | ⟨idle, -⟩
    · cases refused.symm.trans begun
    · exact idle
  have recorded := drafted.recorded idle.clean (recorded_of_begun idle.follows begun)
  obtain ⟨w, isOpen, completes⟩ := recorded.completes
  exact ⟨w, isOpen, completes, fun e c' failed => completes.endWord isOpen failed⟩

/-- Perform operations as long as they succeed; gives the staged words after each of them. -/
def draft : List Operation → Compiler → Option (List (Array InstrWord) × Compiler)
  | [], c => some ([], c)
  | op :: ops, c => (success? op.run c).bind fun done =>
    (draft ops done.2).map fun rest => (done.2.heap.staged :: rest.1, rest.2)

theorem Drafted.draft {ops : List Operation} (allowed : ∀ op ∈ ops, op.inBody = true)
    (raw : ∀ w clobbers, .instruction w clobbers ∉ ops) (drafted : Drafted c0 history c)
    {more : List (Array InstrWord)} (ok : Compiler.draft ops c = some (more, c')) :
    Drafted c0 (history ++ more) c' := by
  induction ops generalizing history c more with
  | nil =>
    cases ok
    rwa [List.append_nil]
  | cons op ops ih =>
    obtain ⟨_, c1, first, rest⟩ := success?_bind.1 ok
    obtain ⟨⟨later, c2⟩, others, same⟩ := Option.map_eq_some_iff.1 rest
    cases same
    have inBody := allowed op List.mem_cons_self
    have next := drafted.step op first
      (by rintro rfl; cases inBody) (by rintro rfl; cases inBody)
      fun w clobbers same => absurd (same ▸ List.mem_cons_self) (raw w clobbers)
    have all := ih (fun op member => allowed op (List.mem_cons_of_mem _ member))
      (fun w clobbers member => raw w clobbers (List.mem_cons_of_mem _ member)) next others
    rwa [List.append_assoc] at all

/-- A definition with placeholders of every kind, begun after a snapshot was restored. -/
theorem fixups_complete_for_every_kind :
    ∃ b id c0 history c w, Orderly b ∧
      beginWord "x" { inputs := 2, outputs := 1 } b = .ok id c0 ∧ Drafted c0 history c ∧
      c.definition = some w ∧ (success? endWord c).isSome ∧
      (w.slots.map (·.2)).dedup =
        [.prologue, .largeImmediate, .recursiveCall, .recursionCheck, .returnBranch, .errorBranch,
          .localWrite, .localRead] ∧
      Completes history c w := by
  let back (c : Compiler) :=
    ([.beginWord "y" { inputs := 0, outputs := 0 }, .endWord].foldl after c).restore c.snapshot
  let ops : List Operation := [.setLocal "p", .setLocal "q", .literal 0x123456789ABCDEF0,
    .setLocal "r", .getLocal "q", .ifPart, .getLocal "p", .getLocal "q", .recurse, .exit, .thenPart,
    .getLocal "p", .raise, .getLocal "r"]
  have state : ((create {} {}).toOption.bind fun b =>
      (success? (beginWord "x" { inputs := 2, outputs := 1 }) (back b)).bind fun begun =>
        (draft ops begun.2).bind fun drafted => (success? endWord drafted.2).map fun _ =>
          (b.definition, drafted.2.definition.map fun w => (w.slots.map (·.2)).dedup)) =
      some (none, some [.prologue, .largeImmediate, .recursiveCall, .recursionCheck, .returnBranch,
        .errorBranch, .localWrite, .localRead]) := by
    decide +kernel
  obtain ⟨t, created, state⟩ := toOption_bind.1 state
  obtain ⟨id, c0, begun, state⟩ := success?_bind.1 state
  obtain ⟨⟨more, c⟩, drafts, state⟩ := Option.bind_eq_some_iff.1 state
  obtain ⟨ended, ends, state⟩ := Option.map_eq_some_iff.1 state
  obtain ⟨idle, kinds⟩ := Prod.ext_iff.1 state
  have start : Orderly t := .create created
  have orderly : Orderly (back t) :=
    .restoreSince (.step _ (.step _ start)) start idle (.steps _ .start)
  have drafted := Drafted.draft (by decide) (by simp [ops]) .start drafts
  obtain ⟨w, isOpen, completes, -⟩ := fixups_complete orderly begun drafted
  refine ⟨back t, id, c0, _, c, w, orderly, begun, drafted, isOpen, ?_, ?_, completes⟩
  · rw [ends]
    rfl
  · obtain ⟨w', isOpen', same⟩ := Option.map_eq_some_iff.1 kinds
    obtain rfl := Option.some.inj (isOpen.symm.trans isOpen')
    exact same

/-- A definition can be begun in `b` whose operations all succeed, but which a placeholder keeps
from ending. -/
def Stuck (b : Compiler) : Prop :=
  ∃ name signature id c0 history c e c', beginWord name signature b = .ok id c0 ∧
    Drafted c0 history c ∧ endWord c = .error e c' ∧ e.isUnpatched = true

/-- A snapshot that was taken inside a definition and is restored after its end keeps the word and
cuts its code off.  What is staged there next is copied into a definition that inlines the word.
Here these are the first placeholders of a definition that a second such snapshot leaves behind. -/
theorem exists_stuck (convention : Convention) :
    ∃ b, Reachable b ∧ b.settings.convention = convention ∧ b.definition = none ∧ b.Stuck := by
  let first (c : Compiler) := c.after (.beginWord "x" { inputs := 0, outputs := 1 })
  let cut (c : Compiler) :=
    (((first c).after (.literal 4)).after .endWord).restore (first c).snapshot
  let second (c : Compiler) := (cut c).after (.beginWord "w" { inputs := 0, outputs := 0 })
  let left (c : Compiler) := (second c).restore (second c).snapshot
  have state : ((create {} { convention }).toOption.bind fun c =>
      (success? (beginWord "z" { inputs := 0, outputs := 1 }) (left c)).bind fun begun =>
        (draft [.word "x"] begun.2).bind fun drafted =>
          (failure? endWord drafted.2).map fun failed =>
            ((left c).settings.convention, (left c).definition, failed.1.isUnpatched)) =
      some (convention, none, true) := by
    cases convention <;> decide +kernel
  obtain ⟨t, created, state⟩ := toOption_bind.1 state
  obtain ⟨id, c0, begun, state⟩ := success?_bind.1 state
  obtain ⟨⟨more, c⟩, drafts, state⟩ := Option.bind_eq_some_iff.1 state
  obtain ⟨e, c', fails, state⟩ := failure?_map.1 state
  simp only [Prod.mk.injEq] at state
  obtain ⟨same, idle, unpatched⟩ := state
  have start : Reachable t := .create created
  have reachable : Reachable (left t) :=
    .restore _ (.step _ (.restore _ (.step _ (.step _ (.step _ start)))))
  exact ⟨left t, reachable, same, idle, _, _, id, c0, _, c, e, c', begun,
    Drafted.draft (by decide) (by simp) .start drafts, fails, unpatched⟩

/-- So a placeholder can be left under either convention if snapshots may cut off words. -/
theorem placeholder_copied_from_cut_word :
    (∃ b, Reachable b ∧ b.settings.convention = .register ∧ b.definition = none ∧ b.Stuck) ∧
      ∃ b, Reachable b ∧ b.settings.convention = .stack ∧ b.definition = none ∧ b.Stuck :=
  ⟨exists_stuck .register, exists_stuck .stack⟩

end Compiler

end ForthJit
