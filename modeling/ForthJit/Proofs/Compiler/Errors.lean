import ForthJit.Proofs.Compiler.Conduct
import ForthJit.Proofs.Compiler.Written

/-!
# How errors get to the caller

A word throws if its body raises, or if it passes errors on and calls a word that throws.  Such a
call is followed by a check that leaves for the error path of the caller, through a stub if the
error is in another register than the caller's own.  `Deed.Marks` says what a deed leaves of this in
the body, `Tally` what the deeds together make of the word, and `Propagates` what is left in the
finished word.
-/

namespace ForthJit

variable {settings : Settings} {d d' : Draft} {a : Action} {deed : Deed} {e e' : Entry}

/-- The register in which `callee` leaves its error code. -/
def Convention.calleeError (convention : Convention) (callee : Entry) : Reg :=
  match callee.kind with
  | .compiled _ => convention.errorReg callee.outputs
  | .intrinsic _ | .external .. => .ofNat 1

/-! ## What raises -/

/-- `d'` raises if `d` does, and has the same signature. -/
structure Draft.SameRaises (d d' : Draft) : Prop where
  raises : d'.word.raises = d.word.raises
  signature : d'.word.signature = d.word.signature

instance : IsPreorder Draft Draft.SameRaises where
  refl _ := ⟨rfl, rfl⟩
  trans _ _ _ first second :=
    ⟨second.raises.trans first.raises, second.signature.trans first.signature⟩

namespace Emit

/-- A success of `m` does not raise. -/
abbrev Quiet {α : Type} (settings : Settings) (m : Emit α) : Prop :=
  Moves Draft.SameRaises settings m

theorem sameRaises_overlooks : Overlooks Draft.SameRaises :=
  ⟨fun _ _ => ⟨rfl, rfl⟩, fun _ _ _ _ _ _ => ⟨rfl, rfl⟩⟩

theorem quiet : Counting fun {_} m => Quiet settings m :=
  { sameRaises_overlooks.routine with
    throw := .throw
    word := .word
    depth := .depth
    setDepth := fun _ => .modifyWord fun _ => ⟨rfl, rfl⟩
    readLocal := sameRaises_overlooks.readLocal
    assignLocal := fun _ _ => .modifyWord fun _ => ⟨rfl, rfl⟩ }

theorem sameRaises_branching : Branching Draft.SameRaises where
  reserve _ _ := ⟨rfl, rfl⟩
  branch _ _ _ := ⟨rfl, rfl⟩
  branchZero _ _ _ _ := ⟨rfl, rfl⟩
  spill _ _ := ⟨rfl, rfl⟩
  note _ _ _ _ _ _ _ _ := ⟨rfl, rfl⟩

theorem raiseIfNonzero_ok {reg : Reg} (ok : raiseIfNonzero reg settings d = .ok () d') :
    d'.heap = d.heap.stage [Placeholder.errorBranch.word] ∧
      d'.word = { d.word with
        patches := d.word.patches ++ [.error d.heap.here reg]
        raises := true
        hasBranches := true } := by
  have rest := emitWord_bind ok
  cases rest
  exact ⟨rfl, rfl⟩

end Emit

/-- Whether an action makes a word raise that passes errors on if `autoTry`. -/
def Action.raises (autoTry : Bool) : Action → Bool
  | .raise => true
  | .call _ callee => autoTry && callee.flags.throws
  | _ => false

theorem Action.raises_eq
    (ok : a.emit settings d = .ok () d') :
    d'.word.raises = (d.word.raises || a.raises d.word.signature.autoTry) ∧
      d'.word.signature = d.word.signature := by
  have quietly : a.raises d.word.signature.autoTry = false → Emit.Quiet settings a.emit →
      d'.word.raises = (d.word.raises || a.raises d.word.signature.autoTry) ∧
        d'.word.signature = d.word.signature := by
    intro silent quiet
    obtain ⟨raises, signature⟩ := quiet d () d' ok
    rw [silent, Bool.or_false]
    exact ⟨raises, signature⟩
  cases a with
  | literal value => exact quietly rfl (Emit.quiet.literal value)
  | setLocal name =>
    exact quietly rfl (.bind .word fun _ => .bind (.modifyWord fun _ => ⟨rfl, rfl⟩) fun _ =>
      Emit.quiet.bindLocal _)
  | getLocal name => exact quietly rfl (Emit.quiet.getLocalCalled name)
  | instruction v clobbers =>
    exact quietly rfl (.bind (.bind (Emit.quiet.clobber _) fun _ => .emitWord fun _ => ⟨rfl, rfl⟩)
      fun _ => .pure _)
  | primitive inputs outputs clobbers body =>
    exact quietly rfl (Emit.quiet.primitiveBody _ _ _ (.emitWords fun _ => ⟨rfl, rfl⟩))
  | call id callee =>
    obtain ⟨_, d1, checked, rest⟩ := Emit.bind_ok.1 (Emit.tail_of (Emit.tail_of ok rfl :) rfl :)
    obtain ⟨reg, d2, called, rest⟩ := Emit.bind_ok.1 rest
    replace rest := Emit.tail_of rest rfl
    obtain ⟨raises1, signature1⟩ := Emit.quiet.arity _ _ _ _ checked
    obtain ⟨raises2, signature2⟩ := Emit.quiet.callEntry callee _ _ _ called
    have raises := raises2.trans raises1
    have signature := signature2.trans signature1
    dsimp only [Action.raises]
    cases throws : callee.flags.throws with
    | false =>
      rw [throws] at rest
      cases rest
      rw [Bool.and_false, Bool.or_false]
      exact ⟨raises, signature⟩
    | true =>
      rw [throws, if_pos rfl] at rest
      replace rest := Emit.tail_of rest rfl
      rw [signature] at rest
      cases tries : d.word.signature.autoTry with
      | false =>
        rw [tries, if_neg Bool.false_ne_true] at rest
        obtain ⟨raises3, signature3⟩ := Emit.quiet.exposeError reg _ _ _ rest
        rw [Bool.false_and, Bool.or_false]
        exact ⟨raises3.trans raises, signature3.trans signature⟩
      | true =>
        rw [tries, if_pos rfl] at rest
        rw [(Emit.raiseIfNonzero_ok rest).2, Bool.true_and, Bool.or_true]
        exact ⟨rfl, signature⟩
  | inline id callee body =>
    exact quietly rfl (Emit.quiet.inlineBody callee (.emitWords fun _ => ⟨rfl, rfl⟩))
  | ifPart => exact quietly rfl (Emit.sameRaises_branching.ifPart (Emit.quiet.consume _))
  | elsePart => exact quietly rfl Emit.sameRaises_branching.elsePart
  | thenPart => exact quietly rfl Emit.sameRaises_branching.thenPart
  | exit => exact quietly rfl Emit.sameRaises_branching.exit
  | raise =>
    obtain ⟨reg, d1, taken, raised⟩ := Emit.bind_ok.1 ok
    obtain ⟨-, signature⟩ := Emit.quiet.consume _ _ _ _ taken
    rw [(Emit.raiseIfNonzero_ok raised).2, Action.raises, Bool.or_true]
    exact ⟨rfl, signature⟩
  | recurse => exact quietly rfl (Emit.sameRaises_branching.recurse (Emit.quiet.clobber _))

/-! ## What a deed leaves -/

/-- `callee` is called at `i`, and nothing from there up to `j` writes `reg`. -/
structure CodeHeap.Calls (h : CodeHeap) (callee : Entry) (reg : Reg) (i j : Nat) : Prop where
  before : i < j
  call : ∃ k : Instruction, h.word? i = some k.encode ∧ k.isTrap = false ∧
    match callee.kind with
    | .compiled code => Asm.bl (distance i code.layout.entry) = .ok k
    | .intrinsic _ | .external .. => k = .callReg .scratch
  between : ∀ m, i < m → m < j →
    ∃ k : Instruction, h.word? m = some k.encode ∧ k.isPlain = true ∧ reg ∉ k.written

namespace CodeHeap

variable {h h' : CodeHeap} {callee : Entry} {reg : Reg} {i j : Nat}

/-- Where final words stay, calls do. -/
theorem Calls.of_kept (calls : h.Calls callee reg i j)
    (kept : ∀ i v, h.word? i = some v → Final v → h'.word? i = some v) :
    h'.Calls callee reg i j := by
  obtain ⟨k, at_i, other, isCall⟩ := calls.call
  refine ⟨calls.before, ⟨k, kept i _ at_i (Instruction.encode_final other), other, isCall⟩, ?_⟩
  intro m after before
  obtain ⟨k, at_m, plain, unwritten⟩ := calls.between m after before
  have final := Instruction.encode_final (Instruction.isTrap_of_isPlain plain)
  exact ⟨k, kept m _ at_m final, plain, unwritten⟩

/-- A call and the instructions that follow it. -/
theorem calls_of_stage (h : CodeHeap) {k : Instruction} (other : k.isTrap = false)
    (isCall : match callee.kind with
      | .compiled code => Asm.bl (distance h.here code.layout.entry) = .ok k
      | .intrinsic _ | .external .. => k = .callReg .scratch)
    (ks : List Instruction) (quiet : ∀ k ∈ ks, k.isPlain = true ∧ reg ∉ k.written) :
    (h.stage (k.encode :: ks.map Instruction.encode)).Calls callee reg h.here
      (h.here + 1 + ks.length) := by
  refine ⟨by omega, ⟨k, word?_stage h _ 0, other, isCall⟩, fun m after before => ?_⟩
  obtain ⟨n, rfl⟩ : ∃ n, m = h.here + (n + 1) := ⟨m - h.here - 1, by omega⟩
  have bound : n < ks.length := by omega
  refine ⟨ks[n], ?_, quiet _ (List.getElem_mem bound)⟩
  rw [word?_stage, List.getElem?_cons_succ, List.getElem?_map, List.getElem?_eq_getElem bound]
  rfl

end CodeHeap

namespace Emit

variable {settings : Settings} {d d' : Draft} {callee : Entry}

theorem callWord_ok {entry : Nat} (ok : callWord entry settings d = .ok () d') :
    ∃ k, Asm.bl (distance d.heap.here entry) = .ok k ∧ d'.heap = d.heap.stage [k.encode] := by
  obtain ⟨k, assembled, following⟩ := assembled_bind (tail_of ok rfl :)
  have last := emitWord_bind following
  cases last
  exact ⟨k, assembled, rfl⟩

/-- The address is loaded first. -/
theorem callAddress_ok {address : Nat} {throughSlot : Bool} (logged : d.Logged (fun _ => True) [])
    (ok : callAddress address throughSlot settings d = .ok () d') :
    ∃ h : CodeHeap, d.heap.here ≤ h.here ∧
      d'.heap = h.stage [(Instruction.callReg .scratch).encode] := by
  have last : ∀ {d1 : Draft}, (do
      let _ ← emit (.callReg .scratch)
      modifyWord fun w => { w with leaf := false } : Emit Unit) settings d1 = .ok () d' →
      d'.heap = d1.heap.stage [(Instruction.callReg .scratch).encode] := by
    intro d1 done
    have rest := emitWord_bind done
    cases rest
    rfl
  obtain ⟨_, d1, loaded, rest⟩ := bind_ok.1 ok
  have grown := (loadImmediate_logs _ _ _ _ _ _ loaded logged).1.staged.size_le
  dsimp only at rest
  split at rest
  · obtain ⟨k, -, following⟩ := assembled_bind rest
    have call := emitWord_bind following
    refine ⟨_, ?_, last call⟩
    show d.heap.here ≤ (d1.heap.stage _).here
    rw [CodeHeap.here_stage]
    exact Nat.le_trans grown (Nat.le_add_right _ _)
  · exact ⟨d1.heap, grown, last rest⟩

/-- Results are pushed from their registers, which stay. -/
theorem gatherOutputs_ok {count : Nat} (ok : gatherOutputs count settings d = .ok () d') :
    ∃ ks : List Instruction, d' = d.stage (ks.map Instruction.encode) ∧
      ∀ k ∈ ks, k.isPlain = true ∧ k.written = [.dataStack] := by
  have rest := tail_of ok rfl
  clear ok
  generalize settings.convention = convention at rest
  cases convention with
  | register =>
    cases rest
    exact ⟨[], by simp, by simp⟩
  | stack =>
    dsimp only at rest
    generalize List.range count = outputs at rest
    induction outputs generalizing d with
    | nil =>
      cases rest
      exact ⟨[], by simp, by simp⟩
    | cons i outputs ih =>
      obtain ⟨_, d1, pushed, others⟩ := bind_ok.1 rest
      obtain ⟨k, stored, following⟩ := assembled_bind pushed
      have last := emitWord_bind following
      cases last
      obtain ⟨ks, rfl, plain⟩ := ih others
      obtain ⟨offset, -, rfl⟩ := except_map_eq_ok.1 stored
      exact ⟨_ :: ks, Draft.stage_stage .., List.forall_mem_cons.2 ⟨⟨rfl, rfl⟩, plain⟩⟩

/-- A compiled word is called by its position. -/
theorem callWord_calls {regs : RegSet} {code : CompiledWord} {d1 : Draft} (reg : Reg)
    (kind : callee.kind = .compiled code) (logged : d.Logged (fun _ => True) [])
    (announced : clobber regs settings d = .ok () d1)
    (called : callWord code.layout.entry settings d1 = .ok () d') :
    ∃ i, d.heap.here ≤ i ∧ d'.heap.Calls callee reg i d'.heap.here := by
  obtain ⟨k, assembled, staged⟩ := callWord_ok called
  refine ⟨d1.heap.here, (clobber_logs _ _ _ _ _ announced logged).1.staged.size_le, ?_⟩
  rw [staged, CodeHeap.here_stage]
  refine CodeHeap.calls_of_stage d1.heap (Instruction.isTrap_of_map (fun _ => rfl) assembled) ?_ []
    (by simp)
  rw [kind]
  exact assembled

/-- A platform function is called by its address; its results may be pushed afterwards. -/
theorem callAddress_calls {address : Nat} {throughSlot : Bool} {d1 d2 : Draft}
    (platform : ∀ code, callee.kind ≠ .compiled code) (logged : d.Logged (fun _ => True) [])
    (announced : clobber .callerSaved settings d = .ok () d1)
    (called : callAddress address throughSlot settings d1 = .ok () d2)
    (gathered : ∃ ks : List Instruction, d' = d2.stage (ks.map Instruction.encode) ∧
      ∀ k ∈ ks, k.isPlain = true ∧ k.written = [.dataStack]) :
    ∃ i, d.heap.here ≤ i ∧ d'.heap.Calls callee (.ofNat 1) i d'.heap.here := by
  obtain ⟨advance, logged1⟩ := clobber_logs _ _ _ _ _ announced logged
  obtain ⟨h, after, staged⟩ := callAddress_ok logged1 called
  obtain ⟨ks, rfl, pushes⟩ := gathered
  refine ⟨h.here, Nat.le_trans advance.staged.size_le after, ?_⟩
  have calls : (h.stage _).Calls callee (.ofNat 1) h.here _ :=
    CodeHeap.calls_of_stage h (k := .callReg .scratch) rfl
      (by
        cases found : callee.kind with
        | compiled code => exact absurd found (platform code)
        | intrinsic function => rfl
        | external slot target => rfl) ks
      fun k isPush => ⟨(pushes k isPush).1, by rw [(pushes k isPush).2]; decide⟩
  rw [Draft.heap_stage, staged, CodeHeap.stage_stage, CodeHeap.here_stage, List.length_append,
    List.length_map, ← Nat.add_assoc]
  exact calls

/-- Between the call and what follows it nothing writes the error code. -/
theorem callEntry_calls {reg : Reg} (logged : d.Logged (fun _ => True) [])
    (ok : callEntry callee settings d = .ok reg d') :
    reg = settings.convention.calleeError callee ∧
      ∃ i, d.heap.here ≤ i ∧ d'.heap.Calls callee reg i d'.heap.here := by
  have spread : ∀ {address : Nat} {throughSlot : Bool},
      (∀ code, callee.kind ≠ .compiled code) → (do
        spreadInputs callee.inputs
        clobber .callerSaved
        callAddress address throughSlot
        gatherOutputs callee.outputs
        return .ofNat 1 : Emit Reg) settings d = .ok reg d' →
      reg = .ofNat 1 ∧ ∃ i, d.heap.here ≤ i ∧ d'.heap.Calls callee reg i d'.heap.here := by
    intro address throughSlot platform done
    obtain ⟨_, d1, spread, rest⟩ := bind_ok.1 done
    obtain ⟨advance, logged1⟩ := logging.spreadInputs _ _ _ _ _ spread logged
    obtain ⟨_, d2, announced, rest⟩ := bind_ok.1 rest
    obtain ⟨_, d3, called, rest⟩ := bind_ok.1 rest
    obtain ⟨_, d4, gathered, rest⟩ := bind_ok.1 rest
    cases rest
    obtain ⟨i, after, calls⟩ :=
      callAddress_calls platform logged1 announced called (gatherOutputs_ok gathered)
    exact ⟨rfl, i, Nat.le_trans advance.staged.size_le after, calls⟩
  have rest := tail_of ok rfl
  unfold Convention.calleeError
  generalize settings.convention = convention at rest ⊢
  cases kind : callee.kind with
  | compiled code =>
    rw [kind] at rest
    cases convention with
    | register | stack =>
      obtain ⟨_, d1, announced, rest⟩ := bind_ok.1 rest
      obtain ⟨_, d2, called, rest⟩ := bind_ok.1 rest
      cases rest
      exact ⟨rfl, callWord_calls _ kind logged announced called⟩
  | intrinsic function | external slot target =>
    rw [kind] at rest
    cases convention with
    | register =>
      obtain ⟨_, d1, announced, rest⟩ := bind_ok.1 rest
      obtain ⟨_, d2, called, rest⟩ := bind_ok.1 rest
      cases rest
      exact ⟨rfl, callAddress_calls (by simp [kind]) logged announced called ⟨[], by simp, by simp⟩⟩
    | stack => exact spread (by simp [kind]) rest

/-- A call that may fail is followed by a check of the error code. -/
theorem call_checks (logged : d.Logged (fun _ => True) [])
    (ok : call callee settings d = .ok () d') (tries : d.word.signature.autoTry = true)
    (throws : callee.flags.throws = true) :
    ∃ i j, d.heap.here ≤ i ∧ j < d'.heap.here ∧
      d'.heap.Calls callee (settings.convention.calleeError callee) i j ∧
      .error j (settings.convention.calleeError callee) ∈ d'.word.patches := by
  obtain ⟨_, d1, checked, rest⟩ := bind_ok.1 (tail_of (tail_of ok rfl :) rfl :)
  obtain ⟨advance, logged1⟩ := logging.arity _ _ _ _ _ checked logged
  obtain ⟨reg, d2, called, rest⟩ := bind_ok.1 rest
  obtain ⟨rfl, i, after, calls⟩ := callEntry_calls logged1 called
  obtain ⟨-, signature⟩ := quiet.callEntry callee _ _ _ called
  replace rest := tail_of rest rfl
  rw [throws, if_pos rfl] at rest
  replace rest := tail_of rest rfl
  rw [signature, advance.word.signature, tries, if_pos rfl] at rest
  obtain ⟨heap, word⟩ := raiseIfNonzero_ok rest
  refine ⟨i, d2.heap.here, Nat.le_trans advance.staged.size_le after, ?_, ?_, ?_⟩
  · rw [heap, CodeHeap.here_stage]
    exact Nat.lt_succ_self _
  · rw [heap]
    refine calls.of_kept fun m v at_m _ => ?_
    rw [CodeHeap.word?_stage_of_lt _ (Array.getElem?_eq_some_iff.1 at_m).1]
    exact at_m
  · rw [word]
    exact List.mem_append_right _ List.mem_cons_self

end Emit

/-- What a deed has left in the draft `d` for errors and exits. -/
def Deed.Leaves (convention : Convention) (d : Draft) (deed : Deed) : Prop :=
  match deed.action with
  | .call _ callee => d.word.signature.autoTry = true → callee.flags.throws = true →
      ∃ i j, deed.start ≤ i ∧ j < deed.stop ∧
        d.heap.Calls callee (convention.calleeError callee) i j ∧
        .error j (convention.calleeError callee) ∈ d.word.patches
  | .recurse => ∃ i, deed.start ≤ i ∧ i + 1 < deed.stop ∧ .recursion i (i + 1) ∈ d.word.patches
  | .raise => ∃ j reg, deed.start ≤ j ∧ j < deed.stop ∧ .error j reg ∈ d.word.patches
  | .exit => ∃ i, deed.start ≤ i ∧ i < deed.stop ∧ .exit i ∈ d.word.patches
  | _ => True

/-- A deed stands in the body, with what it has left there. -/
structure Deed.Marks (convention : Convention) (d : Draft) (deed : Deed) : Prop where
  above : d.word.body ≤ deed.start
  below : deed.stop ≤ d.heap.here
  left : deed.Leaves convention d

theorem Deed.Marks.mono {convention : Convention}
    (advances : d.Advances d') (marks : deed.Marks convention d) : deed.Marks convention d' := by
  have patches : ∀ p ∈ d.word.patches, p ∈ d'.word.patches := fun _ pending =>
    advances.word.patches.subset pending
  refine ⟨?_, Nat.le_trans marks.below advances.staged.size_le, ?_⟩
  · rw [Definition.body, advances.word.start]
    exact marks.above
  have left := marks.left
  unfold Deed.Leaves at left ⊢
  cases action : deed.action with
  | call id callee =>
    rw [action] at left
    dsimp only at left ⊢
    rw [advances.word.signature]
    intro tries throws
    obtain ⟨i, j, low, high, calls, pending⟩ := left tries throws
    exact ⟨i, j, low, high, calls.of_kept fun _ _ => advances.staged.kept, patches _ pending⟩
  | recurse =>
    rw [action] at left
    obtain ⟨i, low, high, pending⟩ := left
    exact ⟨i, low, high, patches _ pending⟩
  | raise =>
    rw [action] at left
    obtain ⟨j, reg, low, high, pending⟩ := left
    exact ⟨j, reg, low, high, patches _ pending⟩
  | exit =>
    rw [action] at left
    obtain ⟨i, low, high, pending⟩ := left
    exact ⟨i, low, high, patches _ pending⟩
  | _ => trivial

/-- Whatever an action does about errors and exits, it leaves. -/
theorem Action.leaves
    (logged : d.Logged (fun _ => True) []) (ok : a.emit settings d = .ok () d') :
    Deed.Leaves settings.convention d' ⟨a, d.heap.here, d'.heap.here⟩ := by
  have advance := (a.logs _ _ _ _ ok logged).1
  cases a with
  | call id callee =>
    intro tries throws
    rw [advance.word.signature] at tries
    exact Emit.call_checks logged ok tries throws
  | raise =>
    obtain ⟨reg, d1, taken, raised⟩ := Emit.bind_ok.1 ok
    have grown := (Emit.logging.consume _ _ _ _ _ taken logged).1.staged.size_le
    obtain ⟨heap, word⟩ := Emit.raiseIfNonzero_ok raised
    refine ⟨d1.heap.here, reg, grown, ?_, ?_⟩
    · rw [heap, CodeHeap.here_stage]
      exact Nat.lt_succ_self _
    · rw [word]
      exact List.mem_append_right _ List.mem_cons_self
  | exit =>
    have rest := Emit.tail_of ok rfl
    dsimp only at rest
    split at rest
    · replace rest := Emit.emitWord_bind rest
      cases rest
      refine ⟨d.heap.here, Nat.le_refl _, ?_, List.mem_append_right _ List.mem_cons_self⟩
      show d.heap.here < (d.heap.stage _).here
      rw [CodeHeap.here_stage]
      exact Nat.lt_succ_self _
    · cases rest
  | recurse =>
    obtain ⟨_, d1, checked, rest⟩ := Emit.bind_ok.1 (Emit.tail_of (Emit.tail_of ok rfl :) rfl :)
    obtain ⟨advance1, logged1⟩ := Emit.logging.arity _ _ _ _ _ checked logged
    obtain ⟨_, d2, announced, rest⟩ := Emit.bind_ok.1 rest
    have grown := (Emit.clobber_logs _ _ _ _ _ announced logged1).1.staged.size_le
    replace rest := Emit.emitWord_bind rest
    replace rest := Emit.emitWord_bind rest
    cases rest
    refine ⟨d2.heap.here, Nat.le_trans advance1.staged.size_le grown, ?_, ?_⟩
    · show d2.heap.here + 1 < ((d2.heap.stage _).stage _).here
      rw [CodeHeap.here_stage, CodeHeap.here_stage]
      exact Nat.lt_succ_self _
    · refine List.mem_append_right _ (List.mem_singleton.2 ?_)
      simp
  | _ => trivial

namespace Compiler

variable {raw : InstrWord → RegSet → Prop} {b c c0 c' : Compiler} {w : Definition} {id : EntryId}
  {deeds : List Deed} {l : Records}

/-- Every deed has left its marks in the body. -/
theorem Acted.marks (acted : Acted (·.Obeys raw) c0 deeds c)
    (start : ∀ w, c0.definition = some w → Draft.Logged ⟨c0.heap, w⟩ (fun _ => True) [])
    (isOpen : c.definition = some w) :
    ∀ deed ∈ deeds, deed.Marks c.settings.convention ⟨c.heap, w⟩ := by
  rw [acted.settings]
  refine acted.forall_deeds start (fun d d' deed advances => .mono advances) ?_ w isOpen
  intro deeds c w a d acted _ logged _ done
  refine ⟨?_, Nat.le_refl _, ?_⟩
  · rw [Definition.body, (a.logs _ _ _ _ done logged).1.word.start]
    exact logged.body_le
  · rw [← acted.settings]
    exact Action.leaves logged done

/-! ## What the deeds make of the word -/

/-- Of the callees of `e`, one other than `id` throws in `b`. -/
def CallsThrowing (b : Compiler) (id : EntryId) (e : Entry) : Prop :=
  ∃ callee ∈ e.callees, callee ≠ id ∧
    ∃ f, b.dictionary.get? callee = some f ∧ f.flags.throws = true

/-- The entry `e` of the open definition throws as its callees make it. -/
def Flagged (b : Compiler) (e : Entry) : Prop :=
  e.flags.throws = true ↔ e.flags.autoTry = true ∧ b.CallsThrowing b.dictionary.size e

/-- What is known of the open definition `w`, begun in `b` and with the entry `e`, after `deeds`. -/
structure Tally (b : Compiler) (w : Definition) (e : Entry) (deeds : List Deed) : Prop where
  raises : w.raises = true ↔ ∃ deed ∈ deeds, deed.action.raises w.signature.autoTry = true
  callees : ∀ id, id ∈ e.callees ↔ ∃ deed ∈ deeds, deed.action.callee? w = some id
  autoTry : e.flags.autoTry = w.signature.autoTry
  flagged : Flagged b e
  called : ∀ deed ∈ deeds, ∀ id callee, deed.action = .call id callee →
    ∃ f, b.dictionary.get? id = some f ∧ callee = { f with callers := callee.callers }
  copied : ∀ deed ∈ deeds, ∀ id callee body, deed.action = .inline id callee body →
    ∃ f, b.dictionary.get? id = some f ∧ f.flags.throws = false

theorem tally_of_begun {name : String} {signature : Signature}
    (begun : beginWord name signature b = .ok id c0) (isOpen : c0.definition = some w)
    (found : c0.dictionary.get? b.dictionary.size = some e) : Tally b w e [] := by
  obtain ⟨-, -, -, heap, -, rfl, rfl⟩ := beginWord_ok begun
  cases isOpen
  replace found : (b.dictionary.create _).get? b.dictionary.size = some e := found
  rw [Dictionary.get?_create, if_pos rfl] at found
  cases found
  exact ⟨by simp, by simp, rfl, by simp [Flagged, Signature.flags, CallsThrowing], by simp, by simp⟩

/-- What older entries throw does not change. -/
theorem callsThrowing_iff (start : b.Follows b) (follows : b.Follows c)
    (older : ∀ callee : Nat, callee ∈ e.callees → callee ≠ id → callee < b.dictionary.size) :
    b.CallsThrowing id e ↔ c.CallsThrowing id e := by
  constructor
  · rintro ⟨callee, member, other, f, known, throws⟩
    obtain ⟨callers, known'⟩ := start.kept follows known
    exact ⟨callee, member, other, _, known', throws⟩
  · rintro ⟨callee, member, other, f, known, throws⟩
    obtain ⟨f0, known0, same⟩ := start.older follows (older callee member other) known
    rw [same] at throws
    exact ⟨callee, member, other, f0, known0, throws⟩

/-- A callee is an older entry, or the open definition itself. -/
theorem callsThrowing_insert (start : b.Follows b) (opened : b.Opened c) {callee : Nat}
    {g : Entry} (isCallee : c.dictionary.get? callee = some g)
    (callees : ∀ id, id ∈ e'.callees ↔ id = callee ∨ id ∈ e.callees) :
    b.CallsThrowing b.dictionary.size e' ↔ b.CallsThrowing b.dictionary.size e ∨
      callee ≠ b.dictionary.size ∧ g.flags.throws = true := by
  have older : callee ≠ b.dictionary.size → ∃ f, b.dictionary.get? callee = some f ∧
      f.flags.throws = g.flags.throws := by
    intro other
    have bound : callee < c.dictionary.size := Dictionary.get?_lt isCallee
    rw [opened.newest] at bound
    obtain ⟨f, known, same⟩ := start.older opened.follows
      (Nat.lt_of_le_of_ne (Nat.le_of_lt_succ bound) other) isCallee
    refine ⟨f, known, ?_⟩
    rw [same]
  constructor
  · rintro ⟨id, member, other, f, known, throws⟩
    rcases (callees id).1 member with rfl | old
    · obtain ⟨f', known', same⟩ := older other
      obtain rfl := Option.some.inj (known.symm.trans known')
      exact Or.inr ⟨other, same ▸ throws⟩
    · exact Or.inl ⟨id, old, other, f, known, throws⟩
  · rintro (⟨id, member, rest⟩ | ⟨other, throws⟩)
    · exact ⟨id, (callees id).2 (Or.inr member), rest⟩
    · obtain ⟨f, known, same⟩ := older other
      exact ⟨callee, (callees callee).2 (Or.inl rfl), other, f, known, same ▸ throws⟩

/-- Recording a call keeps it so. -/
theorem Flagged.addCall (start : b.Follows b) (opened : b.Opened c) {callee : Nat}
    (older : callee ≤ b.dictionary.size)
    (found : c.dictionary.get? b.dictionary.size = some e)
    (found' : (c.dictionary.addCall b.dictionary.size callee).get? b.dictionary.size = some e')
    (flagged : Flagged b e) :
    Flagged b e' ∧ e'.flags.autoTry = e.flags.autoTry ∧
      ∀ id, id ∈ e'.callees ↔ id = callee ∨ id ∈ e.callees := by
  obtain ⟨g, isCallee⟩ := Dictionary.get?_of_lt (d := c.dictionary) (i := callee) (by
    rw [opened.newest]
    exact Nat.lt_succ_of_le older)
  have newest := opened.newest.symm
  have wellFormed := opened.follows.dictionary
  obtain ⟨e0, found0, -, callees⟩ :=
    Dictionary.addCall_callees wellFormed newest older found'
  obtain rfl := Option.some.inj (found.symm.trans found0)
  obtain ⟨autoTry, throws⟩ :=
    Dictionary.addCall_throws wellFormed newest older found isCallee found'
  refine ⟨?_, autoTry, callees⟩
  rw [Flagged, throws, autoTry, callsThrowing_insert start opened isCallee callees, and_or_left,
    ← show _ ↔ _ from flagged]
  by_cases itself : callee = b.dictionary.size
  · rw [itself] at isCallee
    obtain rfl := Option.some.inj (found.symm.trans isCallee)
    simp only [itself, ne_eq, not_true, false_and, and_false, or_false, or_iff_left_iff_imp]
    exact And.right
  · simp only [itself, ne_eq, not_false_eq_true, true_and]

theorem callee?_congr {w w' : Definition} (entry : w'.entry = w.entry) :
    a.callee? w' = a.callee? w := by
  cases a with
  | recurse => exact congrArg some entry
  | _ => rfl

/-- One more deed. -/
theorem Tally.act (start : b.Follows b) (opened : b.Opened c) (isOpen : c.definition = some w)
    (fits : a.Fits c w) (done : a.emit c.settings ⟨c.heap, w⟩ = .ok () d)
    (opened' : b.Opened (c.acted a d))
    (found' : (c.acted a d).dictionary.get? b.dictionary.size = some e')
    (tally : ∀ e, c.dictionary.get? b.dictionary.size = some e → Tally b w e deeds)
    {first last : Nat} : Tally b d.word e' (deeds ++ [⟨a, first, last⟩]) := by
  obtain ⟨raises, signature⟩ := Action.raises_eq done
  have entry : w.entry = b.dictionary.size := opened.entry_eq isOpen
  have entry' : d.word.entry = b.dictionary.size := opened'.entry_eq rfl
  have same : ∀ a : Action, a.callee? d.word = a.callee? w := fun a =>
    callee?_congr (entry'.trans entry.symm)
  obtain ⟨e, found⟩ := Dictionary.get?_of_lt (d := c.dictionary) (i := b.dictionary.size) (by
    rw [opened.newest]
    exact Nat.lt_succ_self _)
  have before := tally e found
  -- The entry changes only by the call that is recorded.
  have entries : Flagged b e' ∧ e'.flags.autoTry = e.flags.autoTry ∧
      ∀ id, id ∈ e'.callees ↔ a.callee? w = some id ∨ id ∈ e.callees := by
    unfold acted Action.record at found'
    rw [same, entry'] at found'
    cases called : a.callee? w with
    | none =>
      rw [called] at found'
      obtain rfl := Option.some.inj (found.symm.trans found')
      exact ⟨before.flagged, rfl, fun id => by simp⟩
    | some callee =>
      rw [called] at found'
      obtain ⟨flagged, autoTry, callees⟩ := before.flagged.addCall start opened
        (opened.callee_le fits entry called) found found'
      refine ⟨flagged, autoTry, fun id => ?_⟩
      rw [callees, Option.some_inj, eq_comm]
  refine ⟨?_, fun id => ?_, entries.2.1.trans (before.autoTry.trans (by rw [signature])), entries.1,
    fun deed isDeed id callee action => ?_, fun deed isDeed id callee body action => ?_⟩
  · rw [raises, Bool.or_eq_true, before.raises, signature]
    simp [or_and_right, exists_or]
  · rw [entries.2.2, before.callees, or_comm]
    simp [same, or_and_right, exists_or]
  · rcases List.mem_append.1 isDeed with old | new
    · exact before.called deed old id callee action
    · rw [List.mem_singleton.1 new] at action
      cases action
      exact start.older opened.follows (opened.older isOpen fits.1 fits.2) fits.2
  · rcases List.mem_append.1 isDeed with old | new
    · exact before.copied deed old id callee body action
    · rw [List.mem_singleton.1 new] at action
      cases action
      obtain ⟨other, known, code, -, inlinable, -⟩ := fits
      obtain ⟨f, known0, same⟩ := start.older opened.follows (opened.older isOpen other known) known
      refine ⟨f, known0, ?_⟩
      have quiet : callee.flags.throws = false := by
        unfold CompiledWord.inlineRefusal? at inlinable
        grind
      rw [same] at quiet
      exact quiet

theorem Acted.tally (start : b.Follows b) {name : String} {signature : Signature}
    (begun : beginWord name signature b = .ok id c0) (acted : Acted (·.Obeys raw) c0 deeds c)
    (isOpen : c.definition = some w)
    (found : c.dictionary.get? b.dictionary.size = some e) : Tally b w e deeds := by
  induction acted generalizing w e with
  | start => exact tally_of_begun begun isOpen found
  | heap _ _ _ ih => exact ih isOpen found
  | act acted isOpen0 fits obeys done ih =>
    cases isOpen
    have opened := acted.worked.opened start begun
    have opened' := (acted.act isOpen0 fits obeys done).worked.opened start begun
    exact .act start opened isOpen0 fits done opened' found fun e known => ih isOpen0 known

end Compiler

/-! ## Error stubs -/

namespace Stubbed

variable {errorReg reg : Reg} {errorPath here : Nat} {regs : List Reg} {stubs : List (Reg × Nat)}
  {code : List InstrWord}

/-- The stub of a register moves it to the error register and leaves. -/
theorem stub (stubbed : Stubbed errorReg errorPath here regs stubs code) (member : reg ∈ regs) :
    ∃ m leave, stubs.lookup reg = some (here + m) ∧
      code[m]? = some (Asm.mov errorReg reg).encode ∧
      Asm.b (distance (here + m + 1) errorPath) = .ok leave ∧ code[m + 1]? = some leave.encode := by
  induction stubbed with
  | nil => cases member
  | @cons here first regs stubs code leave jump _ ih =>
    by_cases same : reg = first
    · subst same
      exact ⟨0, leave, by simp, rfl, jump, rfl⟩
    · obtain ⟨m, leave', found, move, jump', leaves⟩ :=
        ih ((List.mem_cons.1 member).resolve_left same)
      refine ⟨m + 2, leave', ?_, move, ?_, leaves⟩
      · rw [List.lookup_cons, beq_false_of_ne same, found]
        exact congrArg some (by omega)
      · rwa [show here + (m + 2) + 1 = here + 2 + m + 1 by omega]

end Stubbed

/-! ## Finished words -/

/-- Where an error in `reg` leaves a word whose own error register is `own`: by the error path, or
by a stub that moves it to `own` first. -/
inductive ErrorExit (h : CodeHeap) (l : WordLayout) (own reg : Reg) : (target : Nat) → Prop
  | direct : reg = own → ErrorExit h l own reg l.errorPath
  | stub {target : Nat} {back : BitVec 26} : reg ≠ own → l.data ≤ target → target + 1 < l.literals →
      h.word? target = some (Asm.mov own reg).encode →
      h.word? (target + 1) = some (Instruction.branch back).encode →
      (l.errorPath : Int) = (target + 1 : Nat) + back.toInt → ErrorExit h l own reg target

/-- At `j` the word leaves with the error in `reg`, if there is one. -/
def ErrorCheck (h : CodeHeap) (l : WordLayout) (own reg : Reg) (j : Nat) : Prop :=
  ∃ (words : BitVec 19) (target : Nat),
    h.word? j = some (Instruction.branchNonzero reg words).encode ∧
      (target : Int) = j + words.toInt ∧ ErrorExit h l own reg target

/-- At `i` the word calls `callee`, at `j` it checks the error code that `callee` leaves in `reg`,
and nothing in between writes that register. -/
structure CheckedCall (h : CodeHeap) (l : WordLayout) (own : Reg) (callee : Entry) (reg : Reg)
    (i j : Nat) : Prop where
  before : i < j
  call : match callee.kind with
    | .compiled code => ∃ words : BitVec 26,
        h.word? i = some (Instruction.branchLink words).encode ∧
          (code.layout.entry : Int) = i + words.toInt
    | .intrinsic _ | .external .. => h.word? i = some (Instruction.callReg .scratch).encode
  between : ∀ m, i < m → m < j →
    ∃ k : Instruction, h.word? m = some k.encode ∧ k.isPlain = true ∧ reg ∉ k.written
  check : ErrorCheck h l own reg j

namespace Compiler.Ended

variable {raw : InstrWord → RegSet → Prop} {b c c' : Compiler} {w : Definition} {p : LayoutParts}
  {laid : Laid} {d : Draft} {code : CompiledWord} {e e' : Entry} {src : Sources} {i j : Nat}
  {reg : Reg}

variable (ended : Ended b c w c' p laid d code e e')

include ended

section

variable (sound : Draft.Sound src ⟨c.heap, w⟩) (addressable : d.heap.here < 2 ^ 63)
  (logged : Draft.Logged ⟨c.heap, w⟩ (fun _ => True) [])

include sound addressable logged

/-- An error that is pending leaves the finished word. -/
theorem error_check (pending : .error j reg ∈ w.patches)
    (high : j < c.heap.here) :
    ErrorCheck c'.heap code.layout (c.settings.convention.errorReg w.signature.outputs) reg j := by
  obtain ⟨k, made, member⟩ :=
    PendingPatch.resolveFrom_resolved ended.laidOut.pending pending
  obtain ⟨words, rfl, far⟩ := Asm.cbnz_ok made
  have inside := ended.errorTarget_inside sound reg
  have ordered := ended.ordered sound
  have fits := ended.stubs_le
  have epilogue := ended.epilogue_eq
  refine ⟨words, _, ended.resolved logged member, ended.reaches addressable ?_
    (ended.inside_le sound inside) far, ?_⟩
  · cases ordered
    omega
  unfold PendingPatch.errorTarget
  split
  · next own =>
    show ErrorExit _ _ _ _ laid.layout.errorPath
    rw [← ended.layout]
    exact .direct own
  · next other =>
    have other' : reg ≠ c.settings.convention.errorReg w.signature.outputs := other
    obtain ⟨m, leave, found, move, jump, leaves⟩ :=
      ended.laidOut.stubs.stub (PendingPatch.mem_stubRegisters.2 ⟨other', _, pending⟩)
    obtain ⟨back, rfl, away⟩ := Asm.b_ok jump
    show ErrorExit _ _ _ _ ((p.stubs.lookup reg).getD laid.layout.errorPath)
    rw [found, Option.getD_some]
    -- The stubs follow the exit.
    have data : laid.layout.data = c.heap.here + (p.exitCode
        (c.settings.convention.errorReg w.signature.outputs) (c.throwing w)).length := by
      rw [ended.laidOut.layout]
      simp only [LayoutParts.layout, LayoutParts.exitCode, List.length_append,
        List.length_singleton]
      omega
    have stubbed : ∀ {n : Nat} {v : InstrWord}, p.stubCode[n]? = some v →
        c'.heap.word? (laid.layout.data + n) = some v := by
      intro n v at_n
      rw [ended.word?_eq, data, Nat.add_assoc]
      apply ended.laidOut.trailing logged
      have bound : n < p.stubCode.length := (List.getElem?_eq_some_iff.1 at_n).1
      rw [LayoutParts.trailer, List.getElem?_append_left (by simp; omega),
        List.getElem?_append_right (by simp), List.length_map, Nat.add_sub_cancel_left]
      exact at_n
    have bound : m + 1 < p.stubCode.length := (List.getElem?_eq_some_iff.1 leaves).1
    have size := ended.laidOut.stubs.length
    change p.stubCode.length = 2 * ended.stubs at size
    rw [ended.layout] at fits
    refine .stub other' ?_ ?_ (stubbed move) (stubbed leaves) ?_
    · rw [ended.layout]
      exact Nat.le_add_right _ _
    · rw [ended.layout]
      omega
    · rw [← ended.layout] at away ⊢
      cases ordered
      exact ended.reaches addressable (by rw [ended.layout] at *; omega) (by omega) away

/-- A call and the check that is pending for it. -/
theorem checked_call {callee : Entry}
    (below : ∀ code, callee.kind = .compiled code → code.layout.entry ≤ c.heap.here)
    (calls : c.heap.Calls callee reg i j) (pending : .error j reg ∈ w.patches)
    (high : j < c.heap.here) :
    CheckedCall c'.heap code.layout (c.settings.convention.errorReg w.signature.outputs) callee reg
      i j := by
  have stays : c'.heap.Calls callee reg i j := calls.of_kept fun _ _ => ended.kept logged
  refine ⟨stays.before, ?_, stays.between, ended.error_check sound addressable logged pending high⟩
  obtain ⟨k, at_i, -, isCall⟩ := stays.call
  cases kind : callee.kind with
  | compiled callee' =>
    rw [kind] at isCall
    obtain ⟨words, rfl, far⟩ := Asm.bl_ok isCall
    have before := stays.before
    have epilogue := ended.epilogue_eq
    have older := below callee' kind
    cases ended.ordered sound
    exact ⟨words, at_i, ended.reaches addressable (by omega) (by omega) far⟩
  | intrinsic function | external slot target =>
    rw [kind] at isCall
    exact isCall ▸ at_i

/-- A call of the word itself is checked if the word throws and passes errors on. -/
theorem checked_recursion (throws : c.throwing w = true)
    (tries : w.signature.autoTry = true) (pending : .recursion i (i + 1) ∈ w.patches)
    (high : i + 1 < c.heap.here) :
    CheckedCall c'.heap code.layout (c.settings.convention.errorReg w.signature.outputs) e'
      (c.settings.convention.errorReg w.signature.outputs) i (i + 1) := by
  obtain ⟨⟨k, called, member⟩, checked⟩ :=
    PendingPatch.resolveFrom_resolved ended.laidOut.pending pending
  obtain ⟨k', tested, member'⟩ := checked (by
    show (c.throwing w && w.signature.autoTry) = true
    rw [throws, tries]
    rfl)
  obtain ⟨words, rfl, far⟩ := Asm.bl_ok called
  obtain ⟨words', rfl, far'⟩ := Asm.cbnz_ok tested
  change _ = distance i laid.layout.entry at far
  change _ = distance (i + 1) laid.layout.errorPath at far'
  rw [← ended.layout] at far far'
  have epilogue := ended.epilogue_eq
  cases ended.ordered sound
  refine ⟨Nat.lt_succ_self i, ?_, fun m after before => by omega, words', code.layout.errorPath,
    ended.resolved logged member', ended.reaches addressable (by omega) (by omega) far',
    .direct rfl⟩
  rw [ended.kind]
  exact ⟨words, ended.resolved logged member, ended.reaches addressable (by omega) (by omega) far⟩

/-- An early exit goes to the normal exit. -/
theorem exit_branch (pending : .exit i ∈ w.patches)
    (high : i < c.heap.here) : ∃ words : BitVec 26,
      c'.heap.word? i = some (Instruction.branch words).encode ∧
        (code.layout.epilogue : Int) = i + words.toInt := by
  obtain ⟨k, made, member⟩ := PendingPatch.resolveFrom_resolved ended.laidOut.pending pending
  obtain ⟨words, rfl, far⟩ := Asm.b_ok made
  change _ = distance i laid.layout.epilogue at far
  rw [← ended.layout] at far
  have epilogue := ended.epilogue_eq
  cases ended.ordered sound
  exact ⟨words, ended.resolved logged member, ended.reaches addressable (by omega) (by omega) far⟩

end

/-- The normal exit of a word that throws clears the error register. -/
theorem cleared (logged : Draft.Logged ⟨c.heap, w⟩ (fun _ => True) [])
    (throws : c.throwing w = true) :
    c'.heap.word? code.layout.epilogue =
        some (Asm.mov (c.settings.convention.errorReg w.signature.outputs) .xzr).encode ∧
      code.layout.errorPath = code.layout.epilogue + 1 := by
  have first : (p.trailer (c.settings.convention.errorReg w.signature.outputs) (c.throwing w))[0]? =
      some (Asm.mov (c.settings.convention.errorReg w.signature.outputs) .xzr).encode := by
    rw [throws]
    rfl
  refine ⟨?_, ?_⟩
  · rw [ended.epilogue_eq, ended.word?_eq]
    exact ended.laidOut.trailing logged first
  · rw [ended.layout, ended.laidOut.layout, throws]
    rfl

/-- Without an error branch, every conditional branch on a nonzero register was inserted as it
is. -/
theorem silent (sound : Draft.Sound src ⟨c.heap, w⟩) (quiet : c.throwing w = false)
    (low : code.layout.start ≤ i) (high : i < code.layout.literals) {words : BitVec 19}
    (at_i : c'.heap.word? i = some (Instruction.branchNonzero reg words).encode) :
    ∃ clobbers, src.raw (Instruction.branchNonzero reg words).encode clobbers := by
  have movable :
    ∀ {regs : RegSet}, Movable src.raw regs (Instruction.branchNonzero reg words).encode →
      ∃ clobbers, src.raw (Instruction.branchNonzero reg words).encode clobbers := by
    intro regs movable
    generalize same : (Instruction.branchNonzero reg words).encode = v at movable ⊢
    cases movable with
    | raw allowed _ => exact ⟨_, allowed⟩
    | plain plain _ =>
      cases Instruction.encode_injective same
      cases plain
  have quiet' : w.raises = false := by
    rw [throwing, Bool.or_eq_false_iff] at quiet
    exact quiet.1
  have start : w.start = code.layout.start := by
    rw [ended.layout, ended.laidOut.layout]
    rfl
  rw [ended.word?_eq] at at_i
  have placed := ended.laidOut.placed sound.due (start ▸ low) (ended.layout ▸ high) at_i
  generalize same : (Instruction.branchNonzero reg words).encode = v at placed
  cases placed with
  | prologue _ content =>
    obtain rfl := Instruction.encode_injective same
    rcases content with none | isSetup
    · cases none
    · cases (Frame.prologue_plain ended.laidOut.setup _ isSetup).1
  | pending _ resolves =>
    obtain rfl := Instruction.encode_injective same
    cases resolves with
    | exit _ made =>
      obtain ⟨_, other, -⟩ := Asm.b_ok made
      cases other
    | error member _ =>
      have accounted : w.raises = true ∧ w.hasBranches = true := sound.patches _ member
      cases quiet'.symm.trans accounted.1
    | recursion _ made =>
      obtain ⟨_, other, -⟩ := Asm.bl_ok made
      cases other
    | check _ checks _ =>
      change (c.throwing w && w.signature.autoTry) = true at checks
      rw [quiet] at checks
      cases checks
    | literal _ _ made =>
      obtain ⟨_, other, -⟩ := Asm.ldrLiteral_ok made
      cases other
  | ofLocal _ resolves =>
    obtain rfl := Instruction.encode_injective same
    cases resolves.plain.1
  | staged holds staged =>
    cases sound.words i v holds.1 staged with
    | movable isMovable =>
      subst same
      exact movable isMovable
    | branch _ _ _ made =>
      obtain rfl := Instruction.encode_injective same
      rcases made with made | ⟨_, made⟩
      · obtain ⟨_, other, -⟩ := Asm.b_ok made
        cases other
      · obtain ⟨_, other, -⟩ := Asm.cbz_ok made
        cases other
    | call _ _ _ made =>
      obtain rfl := Instruction.encode_injective same
      obtain ⟨_, other, -⟩ := Asm.bl_ok made
      cases other
    | callReg _ _ _ => cases Instruction.encode_injective same
    | placeholder p => exact absurd (same ▸ Instruction.encode_final rfl) p.not_final
  | trailer past staged =>
    subst same
    exfalso
    rcases List.mem_append.1 (List.mem_of_getElem? staged) with earlier | isPadding
    · rcases List.mem_append.1 earlier with isExit | isStub
      · obtain ⟨k, member, same⟩ := List.mem_map.1 isExit
        cases Instruction.encode_injective same
        rcases List.mem_append.1 member with leaves | isRet
        · rcases List.mem_append.1 leaves with clears | removes
          · rw [quiet] at clears
            cases clears
          · cases (Frame.epilogue_plain ended.laidOut.teardown _ removes).1
        · cases List.mem_singleton.1 isRet
      · obtain ⟨m, at_m⟩ := List.mem_iff_getElem?.1 isStub
        obtain ⟨_, -, ⟨-, _, same⟩ | ⟨-, leave, made, same⟩⟩ := ended.laidOut.stubs.words at_m
        · cases Instruction.encode_injective same
        · obtain ⟨_, rfl, -⟩ := Asm.b_ok made
          cases Instruction.encode_injective same
    · obtain ⟨k, member, same⟩ := List.mem_map.1 isPadding
      cases Instruction.encode_injective same
      cases ended.laidOut.padding _ member

end Compiler.Ended

/-! ## Operations and their deeds -/

namespace Carried

variable {event : Event} {part : List Deed} {a : Action} {id : EntryId}

theorem part_eq (carried : Carried event part) (simple : event.op.action? = some a) :
    part = [⟨a, event.start, event.stop⟩] := by
  cases carried with
  | simple same _ =>
    obtain rfl := Option.some.inj (same.symm.trans simple)
    rfl
  | recurse =>
    cases simple
    rfl
  | string | getLocal => cases simple
  | call other | inline other | nothing other => cases other.symm.trans simple

theorem raise (carried : Carried event part) (member : deed ∈ part)
    (raises : deed.action = .raise) : event.op = .raise := by
  cases carried with
  | @simple op a _ _ same _ =>
    rw [List.mem_singleton.1 member] at raises
    cases raises
    cases op <;> cases same
    rfl
  | string =>
    rcases List.mem_cons.1 member with rfl | last
    · cases raises
    · rw [List.mem_singleton.1 last] at raises
      cases raises
  | nothing _ => cases member
  | _ =>
    rw [List.mem_singleton.1 member] at raises
    cases raises

/-- What a deed calls, the operation calls. -/
theorem callee (carried : Carried event part) (member : deed ∈ part) {w : Definition}
    (calls : deed.action.callee? w = some id) :
    event.callee = some id ∨ event.op = .recurse ∧ id = w.entry := by
  cases carried with
  | simple _ silent =>
    rw [List.mem_singleton.1 member, silent] at calls
    cases calls
  | recurse =>
    rw [List.mem_singleton.1 member] at calls
    exact Or.inr ⟨rfl, (Option.some.inj calls).symm⟩
  | string =>
    rcases List.mem_cons.1 member with rfl | last
    · cases calls
    · rw [List.mem_singleton.1 last] at calls
      cases calls
  | getLocal =>
    rw [List.mem_singleton.1 member] at calls
    cases calls
  | call _ | inline _ =>
    rw [List.mem_singleton.1 member] at calls
    exact Or.inl calls
  | nothing _ => cases member

/-- What an operation calls, its one deed calls. -/
theorem of_callee (carried : Carried event part) (calls : event.callee = some id) :
    ∃ a, part = [⟨a, event.start, event.stop⟩] ∧
      (event.op = .recurse ∧ a = .recurse ∨ (∃ callee, a = .call id callee) ∨
        ∃ callee body, a = .inline id callee body) := by
  cases carried with
  | recurse => exact ⟨_, rfl, Or.inl ⟨rfl, rfl⟩⟩
  | @call _ _ callee _ _ _ =>
    cases calls
    exact ⟨_, rfl, Or.inr (Or.inl ⟨callee, rfl⟩)⟩
  | @inline _ _ callee body _ _ _ =>
    cases calls
    exact ⟨_, rfl, Or.inr (Or.inr ⟨callee, body, rfl⟩)⟩
  | _ => cases calls

end Carried

namespace Compiler

variable {raw : InstrWord → RegSet → Prop} {b c c0 c' : Compiler} {w : Definition} {id : EntryId}
  {deeds : List Deed} {l : Records} {body : Body} {e : Entry} {code : CompiledWord}

/-- How errors get out of the word `id`, whose body was made by `events`: whether it throws, how the
calls are checked, and how it leaves. -/
structure Propagates (c : Compiler) (raw : InstrWord → RegSet → Prop) (id : EntryId) (e : Entry)
    (code : CompiledWord) (events : List Event) : Prop where
  callees : ∀ callee, callee ∈ e.callees ↔ ∃ event ∈ events, event.callee = some callee
  throws : e.flags.throws = true ↔ (∃ event ∈ events, event.op = .raise) ∨
    e.flags.autoTry = true ∧ c.CallsThrowing id e
  checked : e.flags.autoTry = true → ∀ event ∈ events, ∀ callee f, event.callee = some callee →
    c.dictionary.get? callee = some f → f.flags.throws = true →
    ∃ i j, event.start ≤ i ∧ j < event.stop ∧ CheckedCall c.heap code.layout
      (c.settings.convention.errorReg e.outputs) f (c.settings.convention.calleeError f) i j
  raised : ∀ event ∈ events, event.op = .raise → ∃ j reg, event.start ≤ j ∧ j < event.stop ∧
    ErrorCheck c.heap code.layout (c.settings.convention.errorReg e.outputs) reg j
  cleared : e.flags.throws = true → code.layout.errorPath = code.layout.epilogue + 1 ∧
    c.heap.word? code.layout.epilogue =
      some (Asm.mov (c.settings.convention.errorReg e.outputs) .xzr).encode
  exits : ∀ event ∈ events, event.op = .exit → ∃ i, event.start ≤ i ∧ i < event.stop ∧
    ∃ words : BitVec 26, c.heap.word? i = some (Instruction.branch words).encode ∧
      (code.layout.epilogue : Int) = i + words.toInt
  within : ∀ event ∈ events, code.layout.body ≤ event.start ∧ event.stop ≤ code.layout.epilogue
  silent : e.flags.throws = false → ∀ i reg words, code.layout.start ≤ i →
    i < code.layout.literals → c.heap.word? i = some (Instruction.branchNonzero reg words).encode →
    ∃ clobbers, raw (Instruction.branchNonzero reg words).encode clobbers

namespace Written

variable {p : LayoutParts} {laid : Laid} {d : Draft} {e' : Entry}

variable (written : Written raw id body b c0 c w c' p laid d code e e' deeds)

include written

theorem tally :
    Tally b w e deeds := by
  obtain ⟨name, signature, id, begun⟩ := written.begun
  exact written.acted.tally written.start begun written.isOpen written.ended.before

theorem marks :
    ∀ deed ∈ deeds, deed.Marks c.settings.convention ⟨c.heap, w⟩ :=
  written.acted.marks written.logged_begun written.isOpen

theorem recursion {event : Event}
    (member : event ∈ body.events) (recurses : event.op = .recurse) :
    event.callee = some b.dictionary.size := by
  obtain ⟨name, signature, id, begun⟩ := written.begun
  exact written.performed.recursion written.start begun event member recurses

theorem callees (callee : EntryId) :
    callee ∈ e'.callees ↔ ∃ event ∈ body.events, event.callee = some callee := by
  have entry : w.entry = b.dictionary.size := written.opened.entry_eq written.isOpen
  rw [written.ended.callees, written.tally.callees]
  constructor
  · rintro ⟨deed, isDeed, calls⟩
    rcases written.done.origin isDeed with
      ⟨_, _, _, _, action⟩ | ⟨event, isEvent, part, carried, isPart⟩
    · rw [action] at calls
      cases calls
    · refine ⟨event, isEvent, ?_⟩
      rcases carried.callee isPart calls with called | ⟨recurses, rfl⟩
      · exact called
      · rw [written.recursion isEvent recurses, entry]
  · rintro ⟨event, isEvent, calls⟩
    obtain ⟨part, carried, within⟩ := written.done.carried isEvent
    obtain ⟨a, rfl, action⟩ := carried.of_callee calls
    refine ⟨_, within List.mem_cons_self, ?_⟩
    rcases action with ⟨recurses, rfl⟩ | ⟨callee, rfl⟩ | ⟨callee, body, rfl⟩
    · rw [← calls, written.recursion isEvent recurses, ← entry]
      rfl
    · rfl
    · rfl

/-- The word throws if it raises or passes on what it calls. -/
theorem throws :
    e'.flags.throws = true ↔ (∃ event ∈ body.events, event.op = .raise) ∨
      e'.flags.autoTry = true ∧ b.CallsThrowing id e' := by
  have tally := written.tally
  have thrown : c.throwing w = (w.raises || e.flags.throws) := by
    rw [throwing, written.opened.entry_eq written.isOpen, written.ended.before]
    rfl
  have calling : b.CallsThrowing id e' ↔ b.CallsThrowing b.dictionary.size e := by
    unfold CallsThrowing
    rw [written.ended.callees, written.size]
  rw [written.ended.throws, thrown, Bool.or_eq_true, written.ended.autoTry, calling,
    ← show _ ↔ _ from tally.flagged, tally.raises]
  constructor
  · rintro (⟨deed, isDeed, raises⟩ | passes)
    · cases action : deed.action with
      | raise =>
        rcases written.done.origin isDeed with ⟨_, _, _, _, other⟩ |
          ⟨event, isEvent, part, carried, isPart⟩
        · cases action.symm.trans other
        · exact Or.inl ⟨event, isEvent, carried.raise isPart action⟩
      | call callee f =>
        rw [action, Action.raises, Bool.and_eq_true] at raises
        obtain ⟨g, known, same⟩ := tally.called deed isDeed callee f action
        right
        rw [show _ ↔ _ from tally.flagged, tally.autoTry]
        refine ⟨raises.1, callee, (tally.callees callee).2 ⟨deed, isDeed, by rw [action]; rfl⟩,
          Nat.ne_of_lt (Dictionary.get?_lt known), g, known, ?_⟩
        rw [same] at raises
        exact raises.2
      | _ =>
        rw [action] at raises
        cases raises
    · exact Or.inr passes
  · rintro (⟨event, isEvent, raises⟩ | passes)
    · obtain ⟨part, carried, within⟩ := written.done.carried isEvent
      obtain rfl := carried.part_eq (a := .raise) (by rw [raises]; rfl)
      exact Or.inl ⟨_, within List.mem_cons_self, rfl⟩
    · exact Or.inr passes

/-- Older words are called inside the heap. -/
theorem entry_le {callee : EntryId}
    {f : Entry} (known : b.dictionary.get? callee = some f) {code' : CompiledWord}
    (kind : f.kind = .compiled code') : code'.layout.entry ≤ c.heap.here := by
  obtain ⟨l, built⟩ := written.built
  have made := built.made callee f code' known kind
  have below := made.stop_le
  have grown := written.opened.follows.heap.shares.here
  cases made.ordered
  omega

/-- Every call that may fail is checked. -/
theorem checked (tries : e'.flags.autoTry = true) {event : Event} (isEvent : event ∈ body.events)
    {callee : EntryId} {f : Entry} (calls : event.callee = some callee)
    (known : c'.dictionary.get? callee = some f) (throws : f.flags.throws = true) :
    ∃ i j, event.start ≤ i ∧ j < event.stop ∧ CheckedCall c'.heap code.layout
      (c'.settings.convention.errorReg e'.outputs) f
        (c'.settings.convention.calleeError f) i j := by
  have ended := written.ended
  have tally := written.tally
  obtain ⟨called, sound⟩ := written.sound
  have tries' : w.signature.autoTry = true := by rw [← tally.autoTry, ← ended.autoTry, tries]
  rw [written.settings, written.signed.2]
  obtain ⟨part, carried, within⟩ := written.done.carried isEvent
  obtain ⟨a, rfl, action⟩ := carried.of_callee calls
  have marks := written.marks _ (within List.mem_cons_self)
  have low : event.stop ≤ c.heap.here := marks.below
  rcases action with ⟨recurses, rfl⟩ | ⟨f0, rfl⟩ | ⟨f0, copy, rfl⟩
  · obtain rfl := Option.some.inj (calls.symm.trans (written.recursion isEvent recurses))
    obtain rfl := Option.some.inj (ended.after.symm.trans known)
    obtain ⟨i, after, before, pending⟩ := marks.left
    have register : c.settings.convention.calleeError e' =
        c.settings.convention.errorReg w.signature.outputs := by
      rw [Convention.calleeError, ended.kind, written.signed.2]
    rw [register]
    exact ⟨i, i + 1, after, before, ended.checked_recursion sound written.addressable written.logged
      (ended.throws ▸ throws) tries' pending (Nat.lt_of_lt_of_le before low)⟩
  · obtain ⟨g, older, same⟩ := tally.called _ (within List.mem_cons_self) callee f0 rfl
    obtain ⟨g', older', same'⟩ := written.start.older written.continues.follows
      (Dictionary.get?_lt older) known
    obtain rfl := Option.some.inj (older.symm.trans older')
    have flags : f0.flags.throws = true := by
      rw [same]
      rw [same'] at throws
      exact throws
    have register : c.settings.convention.calleeError f = c.settings.convention.calleeError f0 := by
      rw [same, same']
      rfl
    obtain ⟨i, j, after, before, calls, pending⟩ := marks.left tries' flags
    have site := ended.checked_call sound written.addressable written.logged
      (fun code' kind => written.entry_le older ((congrArg Entry.kind same).symm.trans kind))
        calls pending
      (Nat.lt_of_lt_of_le before low)
    have kind : f.kind = f0.kind := by rw [same, same']
    rw [register]
    exact ⟨i, j, after, before, site.before, kind ▸ site.call, site.between, site.check⟩
  · obtain ⟨g, older, quiet⟩ := tally.copied _ (within List.mem_cons_self) callee f0 copy rfl
    obtain ⟨g', older', same'⟩ := written.start.older written.continues.follows
      (Dictionary.get?_lt older) known
    obtain rfl := Option.some.inj (older.symm.trans older')
    rw [same'] at throws
    cases quiet.symm.trans throws

theorem propagates :
    c'.Propagates raw id e' code body.events := by
  have ended := written.ended
  obtain ⟨called, sound⟩ := written.sound
  have addressable := written.addressable
  have logged := written.logged
  have simple : ∀ {event : Event} {a : Action}, event ∈ body.events → event.op.action? = some a →
      Deed.Marks c.settings.convention ⟨c.heap, w⟩ ⟨a, event.start, event.stop⟩ := by
    intro event a isEvent same
    obtain ⟨part, carried, within⟩ := written.done.carried isEvent
    obtain rfl := carried.part_eq same
    exact written.marks _ (within List.mem_cons_self)
  refine ⟨written.callees, ?_, fun tries event isEvent callee f calls known throws =>
    written.checked tries isEvent calls known throws, ?_, ?_, ?_, ?_, ?_⟩
  · rw [written.throws]
    refine or_congr_right (and_congr_right fun _ => ?_)
    refine callsThrowing_iff written.start written.continues.follows fun callee member other => ?_
    rw [← written.size] at other
    have known := written.continues.follows.dictionary.callees _ _ ended.after callee member
    exact Nat.lt_of_le_of_ne known other
  · intro event isEvent raises
    have marks := simple (a := .raise) isEvent (by rw [raises]; rfl)
    obtain ⟨j, reg, after, before, pending⟩ := marks.left
    rw [written.settings, written.signed.2]
    exact ⟨j, reg, after, before, ended.error_check sound addressable logged pending
      (Nat.lt_of_lt_of_le before marks.below)⟩
  · intro throws
    rw [ended.throws] at throws
    obtain ⟨clears, errorPath⟩ := ended.cleared logged throws
    rw [written.settings, written.signed.2]
    exact ⟨errorPath, clears⟩
  · intro event isEvent exits
    have marks := simple (a := .exit) isEvent (by rw [exits]; rfl)
    obtain ⟨i, after, before, pending⟩ := marks.left
    exact ⟨i, after, before, ended.exit_branch sound addressable logged pending
      (Nat.lt_of_lt_of_le before marks.below)⟩
  · intro event isEvent
    have layout : code.layout.body = w.body := by
      rw [ended.layout, ended.laidOut.layout]
      rfl
    rw [layout, ended.epilogue_eq]
    exact written.performed.within written.logged_begun written.isOpen event isEvent
  · intro quiet i reg words low high at_i
    rw [ended.throws] at quiet
    exact ended.silent sound quiet low high at_i

end Written

/-- Words stay as they are. -/
theorem Follows.word? (follows : b.Follows c) {i : Nat} {v : InstrWord}
    (at_i : b.heap.word? i = some v) : c.heap.word? i = some v := by
  have bound : i < b.heap.here := (Array.getElem?_eq_some_iff.1 at_i).1
  rw [follows.heap.shares.words i bound, at_i]

/-- Errors get out of a finished word as they did, whatever is defined after it. -/
theorem Propagates.of_continues (propagates : b.Propagates raw id e code body.events)
    (start : b.Follows b) (continues : b.Continues c) (found : b.dictionary.get? id = some e)
    (inside : code.layout.literals ≤ b.heap.here) (callers : List EntryId) :
    c.Propagates raw id { e with callers } code body.events := by
  have follows := continues.follows
  have settings : c.settings = b.settings := continues.frame.1
  have older : ∀ callee : Nat, callee ∈ e.callees → callee < b.dictionary.size :=
    fun callee member => Nat.lt_of_le_of_lt (start.dictionary.callees id e found callee member)
      (Dictionary.get?_lt found)
  have exits : ∀ {own reg : Reg} {target : Nat}, ErrorExit b.heap code.layout own reg target →
      ErrorExit c.heap code.layout own reg target := by
    intro own reg target exit
    cases exit with
    | direct same => exact .direct same
    | stub other low high move leave far =>
      exact .stub other low high (follows.word? move) (follows.word? leave) far
  have checks : ∀ {own reg : Reg} {j : Nat}, ErrorCheck b.heap code.layout own reg j →
      ErrorCheck c.heap code.layout own reg j :=
    fun ⟨words, target, tests, far, exit⟩ => ⟨words, target, follows.word? tests, far, exits exit⟩
  refine ⟨propagates.callees, ?_, ?_, ?_, ?_, ?_, propagates.within, ?_⟩
  · rw [propagates.throws, callsThrowing_iff start follows fun callee member _ =>
      older callee member]
    rfl
  · intro tries event isEvent callee f calls known throws
    have isCallee := (propagates.callees callee).2 ⟨event, isEvent, calls⟩
    obtain ⟨f0, known0, same⟩ := start.older follows (older callee isCallee) known
    rw [same] at throws
    obtain ⟨i, j, after, before, site⟩ :=
      propagates.checked tries event isEvent callee f0 calls known0 throws
    have kind : f.kind = f0.kind := by rw [same]
    have register : b.settings.convention.calleeError f = b.settings.convention.calleeError f0 := by
      rw [same]
      rfl
    rw [settings, register]
    refine ⟨i, j, after, before, site.before, ?_, fun m past upTo => ?_, checks site.check⟩
    · have call := site.call
      rw [kind]
      split at call
      · obtain ⟨words, at_i, far⟩ := call
        exact ⟨words, follows.word? at_i, far⟩
      · exact follows.word? call
      · exact follows.word? call
    · obtain ⟨k, at_m, plain⟩ := site.between m past upTo
      exact ⟨k, follows.word? at_m, plain⟩
  · intro event isEvent raises
    obtain ⟨j, reg, after, before, check⟩ := propagates.raised event isEvent raises
    rw [settings]
    exact ⟨j, reg, after, before, checks check⟩
  · intro throws
    obtain ⟨errorPath, clears⟩ := propagates.cleared throws
    rw [settings]
    exact ⟨errorPath, follows.word? clears⟩
  · intro event isEvent exits
    obtain ⟨i, after, before, words, at_i, far⟩ := propagates.exits event isEvent exits
    exact ⟨i, after, before, words, follows.word? at_i, far⟩
  · intro quiet i reg words low high at_i
    rw [follows.heap.shares.words i (Nat.lt_of_lt_of_le high inside)] at at_i
    exact propagates.silent quiet i reg words low high at_i

/-- In a run whose definitions only succeed, errors get out of every finished word: it throws
exactly if it raises an error or passes on those of another word, every call that may fail is
checked, and a word that does not throw has no error branch. -/
theorem errors_propagated (obeys : BuiltInObeys raw) {current : List Snapshot} {t : Trace}
    (traced : Traced raw current t c) (word : c.HasWord id e code) :
    c.Propagates raw id e code (t id).events := by
  obtain ⟨b, wrote, continues⟩ := traced.wrote obeys word
  have start := wrote.idle.follows
  obtain ⟨_, _, _, _, _, _, _, code', _, e', _, written⟩ := wrote.written
  have ended := written.ended
  have after : b.dictionary.get? id = some e' := written.size ▸ ended.after
  obtain ⟨e0, found, same⟩ := start.older continues.follows (Dictionary.get?_lt after) word.found
  obtain rfl := Option.some.inj (after.symm.trans found)
  have kind := word.kind
  rw [same, ended.kind] at kind
  cases kind
  obtain ⟨called, sound⟩ := written.sound
  have inside : code.layout.literals ≤ b.heap.here := by
    have stop := ended.here_eq
    cases ended.ordered sound
    omega
  rw [same]
  exact written.propagates.of_continues start continues after inside _

/-- The word `v` is no branch on a nonzero register. -/
def Branchless (v : InstrWord) (_ : RegSet) : Prop :=
  ∀ reg words, v ≠ (Instruction.branchNonzero reg words).encode

theorem builtIn_branchless : BuiltInObeys Branchless := by
  have plain : ∀ p ∈ Primitive.all, ∀ i ∈ p.body, i.isPlain = true := by decide +kernel
  intro p isPrimitive i isInstruction reg words same
  have isPlain := plain p isPrimitive i isInstruction
  rw [Instruction.encode_injective same] at isPlain
  cases isPlain

/-- A word that raises errors, one that passes them on by a stub, calls itself and returns early,
and one that calls neither. -/
theorem errors_propagated_recursive :
    ∃ c t y z code code', Traced Branchless [] t c ∧ c.HasWord 30 y code ∧ c.HasWord 31 z code' ∧
      (y.flags.throws, z.flags.throws) = (true, false) ∧ y.callees = [24, 29, 30] ∧
      c.heap.word? code.layout.data = some (Asm.mov ⟨1⟩ ⟨0⟩).encode ∧
      c.Propagates Branchless 30 y code (t 30).events ∧
      c.Propagates Branchless 31 z code' (t 31).events := by
  let ops : List Operation := [.beginWord "x" { inputs := 1, outputs := 0 }, .raise, .endWord,
    .beginWord "y" { inputs := 1, outputs := 1 }, .setLocal "p", .getLocal "p", .word "x",
    .getLocal "p", .word "dup", .ifPart, .recurse, .exit, .thenPart, .endWord,
    .beginWord "z" { inputs := 0, outputs := 1 }, .literal 7, .endWord]
  let c (b : Compiler) := (playedWith traceAfter ops builtInTrace b).2
  have state : (create {} {}).toOption.bind (fun b => ((c b).finished? 30).bind fun y =>
      ((c b).finished? 31).map fun z => (succeeds ops b, (y.1.flags.throws, z.1.flags.throws),
        y.1.callees, (c b).heap.word? y.2.layout.data)) =
      some (true, (true, false), [24, 29, 30], some (Asm.mov ⟨1⟩ ⟨0⟩).encode) := by
    decide +kernel
  obtain ⟨b, created, state⟩ := toOption_bind.1 state
  obtain ⟨y, code, word, state⟩ := finished?_bind.1 state
  obtain ⟨z, code', word', state⟩ := finished?_map.1 state
  simp only [Prod.mk.injEq] at state
  obtain ⟨succeeded, ⟨throws, silent⟩, callees, stub⟩ := state
  have obeys : ∀ op ∈ ops, op.Obeys Branchless := by
    simp only [ops, List.forall_mem_cons, Operation.Obeys]
    simp
  have traced : Traced Branchless [] _ _ :=
    RunWith.steps (.create created) ops obeys fun _ => succeeded
  exact ⟨_, _, y, z, code, code', traced, word, word', Prod.ext throws silent, callees, stub,
    errors_propagated builtIn_branchless traced word,
    errors_propagated builtIn_branchless traced word'⟩

/-- After a snapshot from inside a definition was restored, the range of its word can hold an error
branch of what was defined next, although the word does not throw. -/
theorem stale_error_branch :
    ∃ b, create {} {} = .ok b ∧
      let c := b.overwritten 1 drops
        [.beginWord "y" { inputs := 1, outputs := 0 }, .raise, .endWord]
      ∃ x code i reg words, c.HasWord 29 x code ∧ x.flags.throws = false ∧ code.layout.start ≤ i ∧
        i < code.layout.literals ∧
        c.heap.word? i = some (Instruction.branchNonzero reg words).encode ∧
        ∀ events, ¬c.Propagates Branchless 29 x code events := by
  let c := overwritten 1 drops [.beginWord "y" { inputs := 1, outputs := 0 }, .raise, .endWord]
  have state : (create {} {}).toOption.bind (fun b => ((c b).finished? 29).map fun x =>
      (x.1.flags.throws, (x.2.layout.start, x.2.layout.literals), (c b).heap.word? 162)) =
      some (false, (156, 164), some (Instruction.branchNonzero ⟨0⟩ 2).encode) := by
    decide +kernel
  obtain ⟨b, created, state⟩ := toOption_bind.1 state
  obtain ⟨x, code, word, state⟩ := finished?_map.1 state
  simp only [Prod.mk.injEq] at state
  obtain ⟨silent, ⟨start, literals⟩, branch⟩ := state
  refine ⟨b, created, x, code, 162, ⟨0⟩, 2, word,
    silent, by omega, by omega, branch, fun events propagates => ?_⟩
  obtain ⟨clobbers, branchless⟩ :=
    propagates.silent silent 162 ⟨0⟩ 2 (by omega) (by omega) branch
  exact branchless ⟨0⟩ 2 rfl

end Compiler

end ForthJit
