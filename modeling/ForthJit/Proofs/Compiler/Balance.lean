import ForthJit.Proofs.Compiler.Level
import ForthJit.Proofs.Compiler.Tiling
import ForthJit.Proofs.Compiler.Written

/-!
# Balance of the data stack

Under the stack convention a finished word has a height at every position that control comes to: how
far the data stack pointer is from where it was on entry.  `Compiler.Poised` carries the heights of
a definition over to its finished word, and `data_stack_balanced` follows control through the words
that were emitted: no path gets below the arguments of the word, and every path that returns leaves
exactly its results.
-/

namespace ForthJit

variable {h words : Int} {frame : Frame} {j : Instruction}

variable {writes : InstrWord → Prop} {callee callee' : Nat → Nat → Nat → Prop} {inputs : Nat}
  {H K : Nat → Option Int} {here i n : Nat} {k : Int} {v : InstrWord}

/-- Heights may be told otherwise as long as control still goes the same ways. -/
theorem Fits.translate {ret : Nat} (fits : Fits writes callee inputs H here i v)
    (known : ∀ entry taken left, callee entry taken left → callee' entry taken left)
    (same : K i = H i) (leads : ∀ n k, Leads H here i n k → Leads K ret i n k) :
    Fits writes callee' inputs K ret i v := by
  cases fits with
  | pass passes next => exact .pass passes fun k shifts => leads _ _ (next k shifts)
  | jump made next => exact .jump made (leads _ _ next)
  | test made taken next => exact .test made (leads _ _ taken) (leads _ _ next)
  | check next => exact .check (leads _ _ next)
  | call made isKnown next deep =>
    exact .call made (known _ _ _ isKnown) (leads _ _ next) fun h at_i => deep h (same ▸ at_i)

/-- A word that means the same everywhere goes on. -/
theorem Movable.passes {raw : InstrWord → RegSet → Prop} {regs : RegSet}
    (movable : Movable raw regs v) (inserted : ∀ v regs, raw v regs → Passes v) : Passes v := by
  cases movable with
  | raw allowed _ => exact inserted _ _ allowed
  | plain plain _ => exact Instruction.passes_of_isPlain plain

/-- What goes on has only one way to go. -/
theorem Fits.next (fits : Fits writes callee inputs H here i v) (passes : Passes v)
    (shifts : Shifts writes v k) : Leads H here i (i + 1) k := by
  cases fits with
  | pass _ next => exact next k shifts
  | jump made _ =>
    obtain ⟨_, rfl, -⟩ := Asm.b_ok made
    cases (Instruction.isLabelBranch_encode _).symm.trans passes.1
  | test made _ _ =>
    obtain ⟨_, rfl, -⟩ := Asm.cbz_ok made
    cases (Instruction.isLabelBranch_encode _).symm.trans passes.1
  | check _ => cases (Instruction.isLabelBranch_encode _).symm.trans passes.1
  | call made _ _ _ =>
    obtain ⟨_, rfl, -⟩ := Asm.bl_ok made
    cases (Instruction.isLabelBranch_encode _).symm.trans passes.1

namespace Compiler

variable {b c c0 c' : Compiler} {w : Definition} {id : EntryId} {e : Entry} {code : CompiledWord}

/-- The word at `entry` takes and leaves so many values. -/
def Effect (c : Compiler) (entry taken left : Nat) : Prop :=
  ∃ id e code, c.HasWord id e code ∧ code.layout.entry = entry ∧ e.inputs = taken ∧ e.outputs = left

theorem Effect.of_follows {entry taken left : Nat} (effect : b.Effect entry taken left)
    (start : b.Follows b) (follows : b.Follows c) : c.Effect entry taken left := by
  obtain ⟨id, e, code, word, rest⟩ := effect
  obtain ⟨callers, word'⟩ := word.of_follows start follows
  exact ⟨id, _, code, word', rest⟩

/-- The heights `H` fit the finished word of the entry `e`. -/
structure Poised (c : Compiler) (writes : InstrWord → Prop) (e : Entry) (code : CompiledWord)
    (H : Nat → Option Int) : Prop where
  ordered : code.layout.start ≤ code.layout.entry ∧ code.layout.entry ≤ code.layout.body ∧
    code.layout.body ≤ code.layout.epilogue ∧ code.layout.epilogue ≤ code.layout.ret
  inside : code.layout.ret < c.heap.here
  start : ∀ i ≤ code.layout.body, H i = some 0
  floor : ∀ i h, H i = some h → stackLevel e.inputs 0 ≤ h
  words : ∀ i v, code.layout.start ≤ i → i < code.layout.ret → c.heap.word? i = some v →
    Fits writes c.Effect e.inputs H code.layout.ret i v
  exits : ∀ i, code.layout.epilogue ≤ i → H i = some (stackLevel e.inputs e.outputs)
  ret : c.heap.word? code.layout.ret = some Instruction.ret.encode

theorem Poised.of_follows (poised : b.Poised writes e code H) (start : b.Follows b)
    (follows : b.Follows c) (callers : List EntryId) :
    c.Poised writes { e with callers } code H := by
  have kept : ∀ {i}, i ≤ code.layout.ret → c.heap.word? i = b.heap.word? i := fun bound =>
    follows.heap.shares.words _ (Nat.lt_of_le_of_lt bound poised.inside)
  refine ⟨poised.ordered, Nat.lt_of_lt_of_le poised.inside follows.heap.shares.here, poised.start,
    poised.floor, fun i v low high at_i => ?_, poised.exits,
    (kept (Nat.le_refl _)).trans poised.ret⟩
  rw [kept (Nat.le_of_lt high)] at at_i
  exact (poised.words i v low high at_i).translate
    (fun _ _ _ effect => effect.of_follows start follows) rfl fun _ _ leads => leads

/-- What is copied from a finished word takes the pointer from its arguments to its results. -/
theorem Poised.climbing (poised : b.Poised writes e code H) {ws : List InstrWord}
    (low : code.layout.start ≤ i) (stop : i + ws.length = code.layout.epilogue)
    (height : H i = some h)
    (copied : ∀ n v, ws[n]? = some v → b.heap.word? (i + n) = some v)
    (passes : ∀ v ∈ ws, Passes v) :
    Climbing writes (-(8 * e.inputs)) h ws (stackLevel e.inputs e.outputs) := by
  have inside := poised.ordered.2.2.2
  induction ws generalizing i h with
  | nil => exact Option.some.inj (height.symm.trans (poised.exits i (by simp at stop; omega)))
  | cons v ws ih =>
    rw [List.length_cons] at stop
    have fits := poised.words i v low (by omega) (copied 0 v rfl)
    have passes_v := passes v List.mem_cons_self
    have next : ∀ k, Shifts writes v k → H (i + 1) = some (h + k) :=
      fun k shifts => (fits.next passes_v shifts).height h height
    obtain ⟨k, shifts⟩ := exists_shifts writes v
    refine ⟨passes_v, k, fun k' shifts' => ?_, ?_, ?_⟩
    · have same := Option.some.inj ((next k' shifts').symm.trans (next k shifts))
      omega
    · have floor := poised.floor _ _ (next k shifts)
      unfold stackLevel at floor
      omega
    · refine ih (by omega) (by omega) (next k shifts) (fun n v' at_n => ?_) fun v' member =>
        passes v' (List.mem_cons_of_mem _ member)
      rw [show i + 1 + n = i + (n + 1) by omega]
      exact copied (n + 1) v' at_n

/-! ## Definitions -/

/-- Words that leave the pointer alone may be inserted. -/
abbrev neutral (writes : InstrWord → Prop) (v : InstrWord) (_ : RegSet) : Prop := Neutral writes v

/-- Every word of `b` has heights. -/
def Level (b : Compiler) (writes : InstrWord → Prop) : Prop :=
  ∀ id e code, b.dictionary.get? id = some e → e.kind = .compiled code →
    ∃ H, b.Poised writes e code H

/-- The heights stay in step with the pending values whatever an action does. -/
theorem tracks_action (start : b.Follows b) (idle : b.definition = none) (level : b.Level writes)
    (copyable : b.Copyable (neutral writes))
    (few : ∀ id e, b.dictionary.get? id = some e → e.inputs ≤ maxValues ∧ e.outputs ≤ maxValues)
    (opened : b.Opened c) (isOpen : c.definition = some w) (stack : c.settings.convention = .stack)
    {a : Action} (fits : a.Fits c w) (obeys : a.Obeys (neutral writes)) {d : Draft}
    (ok : a.emit c.settings ⟨c.heap, w⟩ = .ok () d)
    (tracked : Draft.Tracked writes b.Effect ⟨c.heap, w⟩) : d.Tracked writes b.Effect := by
  cases a with
  | literal value => exact Emit.literal_tracks stack value _ _ _ ok tracked
  | setLocal name => exact Emit.setLocal_tracks stack name _ _ _ ok tracked
  | getLocal name => exact Emit.getLocalCalled_tracks stack name _ _ _ ok tracked
  | instruction v clobbers => exact Emit.instruction_tracks obeys clobbers _ _ _ ok tracked
  | primitive inputs outputs clobbers body =>
    exact Emit.primitiveBody_tracks stack fits.2.1 fits.2.2 obeys ok fits.1 tracked
  | call id callee =>
    obtain ⟨f, found, same⟩ := start.older opened.follows (opened.older isOpen fits.1 fits.2) fits.2
    refine Emit.call_tracks stack ?_ (fun code kind => ?_) _ _ _ ok tracked
    · rw [same]
      exact few id f found
    · rw [same] at kind ⊢
      exact ⟨id, f, code, ⟨found, kind, by simp [idle]⟩, rfl, rfl, rfl⟩
  | inline id callee body =>
    obtain ⟨other, found, code, kind, inlinable, rfl⟩ := fits
    have older := opened.older isOpen other found
    obtain ⟨f, found0, same⟩ := start.older opened.follows older found
    have movable := copyable.movable start opened.follows older found kind inlinable
    rw [same] at kind
    obtain ⟨H, poised⟩ := level id f code found0 kind
    obtain ⟨start_le, entry_le, body_le, epilogue_le⟩ := poised.ordered
    have below := poised.inside
    have grown := opened.follows.heap.shares.here
    have length : (c.heap.words code.layout.body code.layout.epilogue).toList.length =
        code.layout.epilogue - code.layout.body := by
      rw [Array.length_toList, CodeHeap.words, Array.size_extract]
      have : c.heap.staged.size = c.heap.here := rfl
      omega
    have copied : ∀ n v, (c.heap.words code.layout.body code.layout.epilogue).toList[n]? = some v →
        c.heap.word? (code.layout.body + n) = some v := by
      intro n v at_n
      rw [Array.getElem?_toList, CodeHeap.words, Array.getElem?_extract] at at_n
      split at at_n
      · exact at_n
      · cases at_n
    have climbing := (poised.of_follows start opened.follows callee.callers).climbing
      (by omega) (by omega) (poised.start _ (Nat.le_refl _)) copied
      fun v member => (movable v member).passes fun _ _ allowed => allowed.1
    rw [← same] at climbing
    exact Emit.inlineBody_tracks stack climbing _ _ _ ok tracked
  | ifPart => exact Emit.ifPart_tracks stack _ _ _ ok tracked
  | elsePart => exact Emit.elsePart_tracks _ _ _ ok tracked
  | thenPart => exact Emit.thenPart_tracks _ _ _ ok tracked
  | exit => exact Emit.exit_tracks _ _ _ ok tracked
  | raise => exact Emit.raise_tracks stack _ _ _ ok tracked
  | recurse => exact Emit.recurse_tracks stack _ _ _ ok tracked

/-- A definition that has just begun has its arguments on the data stack. -/
theorem tracked_begun {name : String} {signature : Signature}
    (begun : beginWord name signature b = .ok id c) (isOpen : c.definition = some w) :
    Draft.Tracked writes callee ⟨c.heap, w⟩ := by
  obtain ⟨-, -, -, heap, emitted, rfl, rfl⟩ := beginWord_ok begun
  cases isOpen
  have here : heap.here = b.heap.here + prologueSlots := by
    rw [CodeHeap.emitAll_ok emitted, CodeHeap.here_stage]
    rfl
  refine ⟨fun _ => some 0, ⟨here.ge, fun _ _ => rfl, ?_, fun i v low at_i _ => ?_, nofun, nofun,
    nofun⟩, ?_⟩
  · rintro i h - ⟨⟩
    show 8 * ((0 : Nat) - (signature.inputs : Int)) ≤ 0
    omega
  · have bound : i < heap.here := (Array.getElem?_eq_some_iff.1 at_i).1
    rw [here] at bound
    exact absurd bound (Nat.not_lt.2 low)
  · show some 0 = some (8 * ((signature.inputs : Int) - signature.inputs))
    rw [Int.sub_self, Int.mul_zero]

/-- The heights of an open definition are in step with its pending values. -/
theorem Worked.tracked (start : b.Follows b) (idle : b.definition = none) (level : b.Level writes)
    (copyable : b.Copyable (neutral writes))
    (few : ∀ id e, b.dictionary.get? id = some e → e.inputs ≤ maxValues ∧ e.outputs ≤ maxValues)
    {name : String} {signature : Signature} (begun : beginWord name signature b = .ok id c0)
    (stack : b.settings.convention = .stack) (worked : Worked True (·.Obeys (neutral writes)) c0 c)
    (isOpen : c.definition = some w) : Draft.Tracked writes b.Effect ⟨c.heap, w⟩ := by
  induction worked generalizing w with
  | start => exact tracked_begun begun isOpen
  | @heap c h _ staged _ ih =>
    obtain ⟨H, leveled, at_end⟩ := ih isOpen
    have here : h.here = c.heap.here := congrArg Array.size staged
    have words : ∀ i, h.word? i = c.heap.word? i := fun i => by
      rw [CodeHeap.word?, staged]
      rfl
    refine ⟨H, ⟨?_, leveled.start, ?_, fun i v low at_i settled => ?_, ?_, leveled.reads, ?_⟩, ?_⟩
    · exact here ▸ leveled.room
    · exact here ▸ leveled.floor
    · rw [words] at at_i
      exact here ▸ leveled.words i v low at_i settled
    · exact here ▸ leveled.patches
    · exact here ▸ leveled.control
    · exact here ▸ at_end
  | @act c w0 a d worked isOpen0 fits obeys done ih =>
    cases isOpen
    have frame := worked.sameFrame (sameFrame_of_begun begun)
    exact tracks_action start idle level copyable few (worked.opened start begun) isOpen0
      (frame.1 ▸ stack) fits obeys done (ih isOpen0)
  | failed unstrict => exact absurd trivial unstrict

end Compiler

/-! ## Finished words -/

theorem Neutral.next (neutral : Neutral writes v) (fits : Fits writes callee inputs H here i v) :
    Leads H here i (i + 1) 0 := by
  obtain ⟨k, shifts⟩ := exists_shifts writes v
  exact neutral.2 k shifts ▸ fits.next neutral.1 shifts

theorem Neutral.fits (neutral : Neutral writes v) (leads : Leads H here i (i + 1) 0) :
    Fits writes callee inputs H here i v :=
  .pass neutral.1 fun k shifts => (neutral.2 k shifts).symm ▸ leads

/-- The frame is set up and removed without the data stack pointer. -/
theorem Frame.prologue_neutral {setup : List Instruction}
    (ok : frame.prologue = .ok setup) : ∀ j ∈ setup, Neutral writes j.encode := by
  have written : ∀ j ∈ setup, .dataStack ∉ j.written := by
    rcases prologue_ok ok with ⟨-, rfl⟩ | ⟨-, -, rfl⟩ | ⟨-, -, reserve, reserved, rfl⟩
    · simp
    · decide
    · obtain ⟨⟨imm, shifted⟩, -, rfl⟩ := except_map_eq_ok.1 reserved
      have pointer : Reg.dataStack ∉ [Reg.sp] := by decide
      simp only [List.forall_mem_cons]
      exact ⟨by decide, by decide, pointer, by simp⟩
  exact fun j member => .plain (Frame.prologue_plain ok j member).1 (written j member)

theorem Frame.epilogue_neutral {teardown : List Instruction}
    (ok : frame.epilogue = .ok teardown) : ∀ j ∈ teardown, Neutral writes j.encode := by
  have written : ∀ j ∈ teardown, .dataStack ∉ j.written := by
    rcases epilogue_ok ok with ⟨-, rfl⟩ | ⟨-, -, rfl⟩ | ⟨-, -, rfl⟩
    · simp
    · decide
    · decide
  exact fun j member => .plain (Frame.epilogue_plain ok j member).1 (written j member)

/-- A local is saved and read back without the data stack pointer. -/
theorem Locals.Resolves.neutral {homes : RegSet} {ls : Locals}
    (resolves : Locals.Resolves homes ls i j) (elsewhere : homes.contains .dataStack = false)
    (reads : ∀ l ∈ ls, ∀ r ∈ l.reads, r.target ≠ .dataStack) : Neutral writes j.encode := by
  refine .plain resolves.plain.1 fun written => ?_
  rcases resolves.plain.2 _ written with isHome | ⟨l, isLocal, r, isRead, same⟩
  · cases elsewhere.symm.trans isHome
  · exact reads l isLocal r isRead same.symm

/-- The slots of a pending patch are slots of the definition. -/
theorem Definition.patch_slot {w : Definition} {q : PendingPatch} {slot : Nat × Placeholder}
    (member : q ∈ w.patches) (isSlot : slot ∈ q.slots) : slot ∈ w.slots :=
  List.mem_append_left _ (List.mem_append_left _ (List.mem_append_right _
    (List.mem_flatMap.2 ⟨q, member, isSlot⟩)))

/-- A local is saved and read back in slots that let control pass. -/
theorem Locals.Resolves.slot {homes : RegSet} {w : Definition}
    (resolves : Locals.Resolves homes w.locals i j) :
    ∃ ph, (i, ph) ∈ w.slots ∧ Settled ph.word := by
  have within : ∀ {l : Local} {ph : Placeholder}, l ∈ w.locals → (i, ph) ∈ l.slots →
      (i, ph) ∈ w.slots := fun isLocal isSlot => List.mem_append_left _
    (List.mem_append_right _ (List.mem_flatMap.2 ⟨_, isLocal, isSlot⟩))
  cases resolves with
  | unread isLocal isWrite index =>
    exact ⟨_, within isLocal (List.mem_append_left _ (List.mem_append_left _
      (List.mem_map.2 ⟨_, isWrite, by rw [index]⟩))), settled_word.2 rfl⟩
  | write isLocal isWrite index _ _ =>
    exact ⟨_, within isLocal (List.mem_append_left _ (List.mem_append_right _
      (List.mem_map.2 ⟨_, isWrite, by rw [index]⟩))), settled_word.2 rfl⟩
  | read isLocal isRead index _ _ =>
    exact ⟨_, within isLocal (List.mem_append_right _
      (List.mem_map.2 ⟨_, isRead, by rw [index]⟩)), settled_word.2 rfl⟩

/-- A placeholder lets control pass, and so does what it becomes. -/
theorem Draft.Leveled.passes {d : Draft} (leveled : d.Leveled writes callee H)
    (logged : d.Logged (fun _ => True) []) {ph : Placeholder} (slot : (i, ph) ∈ d.word.slots)
    (low : d.word.body ≤ i) (settled : Settled ph.word) : Leads H d.heap.here i (i + 1) 0 := by
  have held := (logged.held (i, ph) (List.mem_append_left _ slot)).2
  exact (Neutral.placeholder ph).next (leveled.words i ph.word low held settled)

/-- The heights before `here`, and `x` from there on. -/
def carried (H : Nat → Option Int) (here : Nat) (x : Int) : Nat → Option Int :=
  fun i => if i < here then H i else some x

theorem carried_of_lt (x : Int) (low : i < here) : carried H here x i = H i := if_pos low

theorem carried_of_le {x : Int} (high : here ≤ i) : carried H here x i = some x :=
  if_neg (Nat.not_lt.2 high)

/-- What leads up to `here` at most leads on, if the heights meet there. -/
theorem Leads.carry {x : Int} {stop : Nat} (leads : Leads H here i n k)
    (top : ∀ h, H here = some h → h = x) (longer : here ≤ stop) :
    Leads (carried H here x) stop i n k := by
  refine ⟨leads.forward, Nat.le_trans leads.within longer, fun h at_i => ?_⟩
  rw [carried_of_lt _ leads.before] at at_i
  have next := leads.height h at_i
  rcases Nat.lt_or_eq_of_le leads.within with inside | rfl
  · rw [carried_of_lt _ inside, next]
  · rw [carried_of_le (Nat.le_refl _), top _ next]

namespace LayoutParts

variable {p : LayoutParts} {errorReg : Reg} {throws : Bool}

/-- What a word does before it returns leaves the data stack pointer. -/
theorem trailer_neutral (teardown : frame.epilogue = .ok p.teardown)
    (other : errorReg ≠ .dataStack) (short : n < (clear errorReg throws ++ p.teardown).length)
    (at_n : (p.trailer errorReg throws)[n]? = some v) : Neutral writes v := by
  unfold trailer exitCode at at_n
  rw [List.append_assoc, List.map_append, List.append_assoc,
    List.getElem?_append_left (by simpa using short), List.getElem?_map] at at_n
  obtain ⟨j, found, rfl⟩ := Option.map_eq_some_iff.1 at_n
  rcases List.mem_append.1 (List.mem_of_getElem? found) with clears | removes
  · unfold clear at clears
    split at clears
    · rw [List.mem_singleton.1 clears]
      exact .mov _ other
    · cases clears
  · exact Frame.epilogue_neutral teardown j removes

theorem trailer_ret : (p.trailer errorReg throws)[(clear errorReg throws ++ p.teardown).length]? =
    some Instruction.ret.encode := by
  unfold trailer exitCode
  rw [List.append_assoc, List.map_append, List.append_assoc, List.getElem?_append_right (by simp),
    List.length_map, Nat.sub_self]
  rfl

end LayoutParts

namespace Compiler

variable {b c c0 c' : Compiler} {w : Definition} {id : EntryId} {e e' : Entry} {code : CompiledWord}
  {p : LayoutParts} {laid : Laid} {d : Draft} {src : Sources}

theorem Ended.ret_eq (ended : Ended b c w c' p laid d code e e') :
    code.layout.ret = c.heap.here + (LayoutParts.clear
      (c.settings.convention.errorReg w.signature.outputs) (c.throwing w) ++
        p.teardown).length := by
  rw [ended.layout, ended.laidOut.layout, List.length_append]
  exact Nat.add_assoc _ _ _

section

variable (ended : Ended b c w c' p laid d code e e')
  (logged : Draft.Logged ⟨c.heap, w⟩ (fun _ => True) []) (sound : Draft.Sound src ⟨c.heap, w⟩)
  (leveled : Draft.Leveled writes b.Effect H ⟨c.heap, w⟩)
  (top : ∀ h, H c.heap.here = some h → h = stackLevel w.signature.inputs w.signature.outputs)

include ended logged sound leveled top

/-- What is filled in for a pending patch fits the heights of the definition, carried on to its
end. -/
theorem Ended.pending_fits
    (own : c'.Effect code.layout.entry w.signature.inputs w.signature.outputs) {throws : Bool}
    {errorReg : Reg} (inside : w.body ≤ i)
    (resolves : PendingPatch.Resolves (p.targets w laid.layout errorReg throws) 0 w.patches i j) :
    Fits writes c'.Effect w.signature.inputs
      (carried H c.heap.here (stackLevel w.signature.inputs w.signature.outputs)) code.layout.ret i
      j.encode := by
  have epilogue := ended.epilogue_eq
  have longer : c.heap.here ≤ code.layout.ret := by
    cases ended.ordered sound
    omega
  have passes : ∀ {q : PendingPatch} {ph : Placeholder}, q ∈ w.patches → (i, ph) ∈ q.slots →
      ph.passes = true → Leads (carried H c.heap.here _) code.layout.ret i (i + 1) 0 :=
    fun member slot settled => (leveled.passes logged (Definition.patch_slot member slot) inside
      (settled_word.2 settled)).carry top longer
  cases resolves with
  | exit member made =>
    have known : Known H c.heap.here i _ := leveled.patches _ member
    replace made : Asm.b (distance i laid.layout.epilogue) = .ok j := made
    rw [← ended.layout, epilogue] at made
    refine .jump made ⟨known.before, longer, fun h at_i => ?_⟩
    rw [carried_of_lt _ known.before] at at_i
    rw [carried_of_le (Nat.le_refl _), known.height h at_i, Int.add_zero]
  | error member made =>
    obtain ⟨words, rfl, -⟩ := Asm.cbnz_ok made
    exact .check (passes member List.mem_cons_self rfl)
  | recursion member made =>
    obtain ⟨next, deep⟩ := leveled.patches _ member
    replace made : Asm.bl (distance i laid.layout.entry) = .ok j := made
    rw [← ended.layout] at made
    refine .call made own (next.carry top longer) fun h at_i => ?_
    rw [carried_of_lt _ next.before] at at_i
    unfold stackLevel
    have := deep h at_i
    omega
  | check member _ made =>
    obtain ⟨words, rfl, -⟩ := Asm.cbnz_ok made
    exact .check (passes member (List.mem_cons_of_mem _ List.mem_cons_self) rfl)
  | unchecked member _ =>
    exact (Neutral.plain rfl List.not_mem_nil).fits
      (passes member (List.mem_cons_of_mem _ List.mem_cons_self) rfl)
  | @literal _ reg value n member rank made =>
    obtain ⟨words, rfl, -⟩ := Asm.ldrLiteral_ok made
    have other : reg ≠ .dataStack := leveled.patches _ member
    refine (Neutral.of_written (passes_encode rfl rfl) ?_).fits
      (passes member List.mem_cons_self rfl)
    simpa [Instruction.written] using other.symm

/-- Every word up to the return fits the heights of the definition, carried on to its end. -/
theorem Ended.words_fit (start : b.Follows b) (follows : b.Follows c')
    (own : c'.Effect code.layout.entry w.signature.inputs w.signature.outputs)
    (front : ∀ i ≤ w.body,
      carried H c.heap.here (stackLevel w.signature.inputs w.signature.outputs) i = some 0)
    (stack : c.settings.convention = .stack) (low : w.start ≤ i) (high : i < code.layout.ret)
    (at_i : c'.heap.word? i = some v) : Fits writes c'.Effect w.signature.inputs
      (carried H c.heap.here (stackLevel w.signature.inputs w.signature.outputs)) code.layout.ret i
      v := by
  obtain ⟨before, early⟩ : i < laid.layout.literals ∧ i < laid.layout.data := by
    rw [← ended.layout]
    cases ended.ordered sound
    omega
  have longer : c.heap.here ≤ code.layout.ret := by
    have := ended.epilogue_eq
    cases ended.ordered sound
    omega
  rw [ended.word?_eq] at at_i
  have final := ended.final i v low early at_i
  cases ended.laidOut.placed sound.due low before at_i with
  | @prologue j short content =>
    replace short : i < w.body := short
    have neutral : Neutral writes j.encode := by
      rcases content with rfl | isSetup
      · exact .plain rfl List.not_mem_nil
      · exact Frame.prologue_neutral ended.laidOut.setup j isSetup
    refine neutral.fits ⟨Nat.lt_succ_self i, high, fun h at_i => ?_⟩
    rw [front i (Nat.le_of_lt short)] at at_i
    obtain rfl := Option.some.inj at_i
    exact front (i + 1) short
  | pending holds resolves =>
    exact ended.pending_fits logged sound leveled top own holds.1 resolves
  | ofLocal holds resolves =>
    have elsewhere : p.locals.homes.contains .dataStack = false := by
      refine Bool.eq_false_iff.2 fun isHome => ?_
      have free := Locals.resolveFrom_homes ended.laidOut.resolved isHome
      rw [RegSet.mem_toList, RegSet.contains_difference, Bool.and_eq_true] at free
      exact absurd free.1 (by decide)
    obtain ⟨ph, slot, settled⟩ := resolves.slot
    exact (resolves.neutral elsewhere leveled.reads).fits
      ((leveled.passes logged slot holds.1 settled).carry top longer)
  | staged holds staged =>
    exact (leveled.words i v holds.1 staged final.settled).translate
      (fun _ _ _ effect => effect.of_follows start follows) (carried_of_lt _ holds.2)
      fun n k leads => leads.carry top longer
  | trailer past at_n =>
    replace past : c.heap.here ≤ i := past
    have short : i - c.heap.here < (LayoutParts.clear (c.settings.convention.errorReg
        w.signature.outputs) (c.throwing w) ++ p.teardown).length := by
      have := ended.ret_eq
      omega
    have other : c.settings.convention.errorReg w.signature.outputs ≠ .dataStack := by
      rw [stack]
      exact (by decide : Reg.error ≠ .dataStack)
    refine (LayoutParts.trailer_neutral ended.laidOut.teardown other short at_n).fits
      ⟨Nat.lt_succ_self i, high, fun h at_i => ?_⟩
    rw [carried_of_le past] at at_i
    rw [carried_of_le (Nat.le_succ_of_le past), at_i, Int.add_zero]

end

/-- The heights of a definition are those of its finished word, which leaves its results whichever
way it returns. -/
theorem Ended.poised (ended : Ended b c w c' p laid d code e e')
    (logged : Draft.Logged ⟨c.heap, w⟩ (fun _ => True) []) (sound : Draft.Sound src ⟨c.heap, w⟩)
    (tracked : Draft.Tracked writes b.Effect ⟨c.heap, w⟩) (start : b.Follows b)
    (follows : b.Follows c') (own : c'.Effect code.layout.entry e'.inputs e'.outputs)
    (signed : e'.inputs = w.signature.inputs ∧ e'.outputs = w.signature.outputs)
    (stack : c.settings.convention = .stack) : ∃ K, c'.Poised writes e' code K := by
  obtain ⟨H, leveled, level⟩ := tracked
  have ordered := ended.ordered sound
  have epilogue := ended.epilogue_eq
  have stop := ended.here_eq
  have begin' : code.layout.start = w.start := by
    rw [ended.layout, ended.laidOut.layout]
    rfl
  have body : code.layout.body = w.body := by
    rw [ended.layout, ended.laidOut.layout]
    rfl
  have room : w.body ≤ c.heap.here := leveled.room
  -- The end of the body is as high as the results say, if control comes there at all.
  have top : ∀ h, H c.heap.here = some h →
      h = stackLevel w.signature.inputs w.signature.outputs := by
    intro h at_here
    rw [show H c.heap.here = _ from level] at at_here
    obtain ⟨reached, rfl⟩ := Definition.level?_eq_some at_here
    rcases ended.laidOut.balanced with closed | same
    · cases reached.symm.trans closed
    · rw [show w.depth = w.signature.outputs from same]
  have front : ∀ i ≤ w.body,
      carried H c.heap.here (stackLevel w.signature.inputs w.signature.outputs) i = some 0 := by
    intro i low
    have known := leveled.start i low
    rcases Nat.lt_or_ge i c.heap.here with inside | past
    · rw [carried_of_lt _ inside, known]
    · rw [carried_of_le past, ← top 0]
      rwa [show c.heap.here = i by omega]
  rw [signed.1, signed.2] at own
  refine ⟨_, ?_, ?_, fun i low => front i (body ▸ low), ?_, ?_, fun i past => ?_, ?_⟩
  · cases ordered
    omega
  · cases ordered
    omega
  · intro i h at_i
    rw [signed.1]
    rcases Nat.lt_or_ge i c.heap.here with inside | past
    · rw [carried_of_lt _ inside] at at_i
      exact leveled.floor i h (Nat.le_of_lt inside) at_i
    · rw [carried_of_le past] at at_i
      cases at_i
      exact stackLevel_nonneg _ _
  · intro i v low high at_i
    rw [signed.1]
    exact ended.words_fit logged sound leveled top start follows own front stack (begin' ▸ low) high
      at_i
  · rw [signed.1, signed.2]
    exact carried_of_le (epilogue ▸ past)
  · rw [ended.ret_eq, ended.word?_eq]
    exact ended.laidOut.trailing logged LayoutParts.trailer_ret

/-- Finished words have heights, and keep them. -/
theorem poised_invariant {s : Settings} (stack : s.convention = .stack) :
    WordInvariant True (neutral writes) s fun c _ e code => ∃ H, c.Poised writes e code H where
  stable := fun start follows ⟨H, poised⟩ callers => ⟨H, poised.of_follows start follows callers⟩
  new := by
    intro l b c0 c c' w name signature id id' p laid d code e e' built settings words begun worked
      isOpen finished follows ended
    have idle := built.idle
    have start := idle.follows
    have copyable := Made.copyable built.made idle.clean
    have tracked := worked.tracked start idle.definition words copyable built.bounded begun
      (settings ▸ stack) isOpen
    obtain ⟨called, sound, -⟩ := worked.sound start copyable begun isOpen
    obtain ⟨same, declared⟩ := worked.signed start begun isOpen
    obtain ⟨inputs, outputs⟩ := declared e ended.before
    have logged : Draft.Logged ⟨c.heap, w⟩ (fun _ => True) [] := by
      obtain ⟨deeds, acted⟩ := worked.acted
      obtain ⟨w0, isOpen0, logged⟩ := logged_of_begun begun
      refine acted.logged (fun w' isOpen' => ?_) w isOpen
      obtain rfl := Option.some.inj (isOpen0.symm.trans isOpen')
      exact logged
    have closed : c'.definition = none :=
      (Built.define built begun worked isOpen finished).idle.definition
    have own : c'.Effect code.layout.entry e'.inputs e'.outputs :=
      ⟨_, e', code, ⟨ended.after, ended.kind, by simp [closed]⟩, rfl, rfl, rfl⟩
    have frame := worked.sameFrame (sameFrame_of_begun begun)
    exact ended.poised logged sound tracked start follows own
      ⟨by rw [ended.inputs, inputs, same], by rw [ended.outputs, outputs, same]⟩
      (by rw [frame.1, settings, stack])

/-! ## Paths -/

/-- Control goes from one position of the code to another and moves the data stack pointer on the
way.  Branches are followed both ways, except that checks for errors find none; calls have the
effect that the callee declares, and calls by address have none. -/
inductive Moves (c : Compiler) (writes : InstrWord → Prop) : Nat × Int → Nat × Int → Prop
  | pass {i : Nat} {h k : Int} {v : InstrWord} : c.heap.word? i = some v → Passes v →
      Shifts writes v k → Moves c writes (i, h) (i + 1, h + k)
  | jump {i target : Nat} {h words : Int} {j : Instruction} : c.heap.word? i = some j.encode →
      j.jump? = some words → (∀ reg words, j ≠ .branchNonzero reg words) →
      (target : Int) = i + words → Moves c writes (i, h) (target, h)
  | skip {i : Nat} {h words : Int} {j : Instruction} : c.heap.word? i = some j.encode →
      j.jump? = some words → j.falls = true → Moves c writes (i, h) (i + 1, h)
  | call {i : Nat} {h : Int} {words : BitVec 26} {id : EntryId} {e : Entry} {code : CompiledWord} :
      c.heap.word? i = some (Instruction.branchLink words).encode → c.HasWord id e code →
      (code.layout.entry : Int) = i + words.toInt →
      Moves c writes (i, h) (i + 1, h + 8 * ((e.outputs : Int) - e.inputs))
  | stray {i target : Nat} {h h' : Int} {v : InstrWord} : c.heap.word? i = some v →
      isLabelBranch v = true → Instruction.decode? v = none → Moves c writes (i, h) (target, h')

/-- A path from the entry of the word leads to `i`, where the data stack pointer is `h` bytes from
where it was on entry. -/
def Arrives (c : Compiler) (writes : InstrWord → Prop) (code : CompiledWord) (i : Nat) (h : Int) :
    Prop :=
  Relation.ReflTransGen (c.Moves writes) (code.layout.entry, 0) (i, h)

/-- Whatever path is taken through the word of `e`: the data stack never gets below the arguments,
not even in what is called on the way, the path goes on until it returns, and then exactly the
results are left. -/
structure Balanced (c : Compiler) (writes : InstrWord → Prop) (e : Entry) (code : CompiledWord) :
    Prop where
  floor : ∀ i h, c.Arrives writes code i h → -(8 * (e.inputs : Int)) ≤ h
  calls : ∀ i h words id callee code', c.Arrives writes code i h →
    c.heap.word? i = some (Instruction.branchLink words).encode → c.HasWord id callee code' →
    (code'.layout.entry : Int) = i + words.toInt → -(8 * (e.inputs : Int)) ≤ h - 8 * callee.inputs
  onward : ∀ i h, c.Arrives writes code i h → i = code.layout.ret ∨
    ∃ next, c.Moves writes (i, h) next
  exit : c.heap.word? code.layout.ret = some Instruction.ret.encode
  returns : ∀ i h, c.Arrives writes code i h → c.heap.word? i = some Instruction.ret.encode →
    i = code.layout.ret ∧ h = 8 * ((e.outputs : Int) - e.inputs)

/-! ## Following a path -/

/-- What reading calls off the code takes: positions read as themselves, and an entry belongs to one
word. -/
structure Legible (c : Compiler) : Prop where
  here : c.heap.here < 2 ^ 63
  entry : ∀ id e code, c.HasWord id e code → code.layout.entry ≤ c.heap.here
  unique : ∀ (id id' : Nat) e e' code code', c.HasWord id e code → c.HasWord id' e' code' →
    code.layout.entry = code'.layout.entry → id = id'

/-- A distance leads to one position only. -/
theorem Legible.reaches (legible : c.Legible) {target : Nat} (low : i ≤ c.heap.here)
    (high : target ≤ c.heap.here) (far : words = distance i target) :
    (target : Int) = i + words := by
  have bound := legible.here
  rw [far, distance_eq (by omega) (by omega)]
  omega

/-- No step goes on from a return. -/
theorem Moves.not_ret {next : Nat × Int} (moves : c.Moves writes (i, h) next) :
    c.heap.word? i ≠ some Instruction.ret.encode := by
  have distinct : ∀ {j : Instruction}, c.heap.word? i = some j.encode → j ≠ .ret →
      c.heap.word? i ≠ some Instruction.ret.encode := fun at_i other at_ret =>
    other (Instruction.encode_injective (Option.some.inj (at_i.symm.trans at_ret)))
  cases moves with
  | pass at_i passes _ =>
    intro at_ret
    obtain rfl := Option.some.inj (at_i.symm.trans at_ret)
    cases passes.2
  | jump at_i jumps _ _ | skip at_i jumps _ => exact distinct at_i (by rintro rfl; cases jumps)
  | call at_i _ _ => exact distinct at_i nofun
  | stray at_i label _ =>
    intro at_ret
    obtain rfl := Option.some.inj (at_i.symm.trans at_ret)
    cases label

variable {j : Instruction}

section

variable (poised : c.Poised writes e code H) (legible : c.Legible)
  (low : code.layout.start ≤ i) (high : i < code.layout.ret)

include poised low high

/-- A jump that is not taken keeps the height. -/
theorem Poised.skipped (at_i : c.heap.word? i = some j.encode) (jumps : j.jump? = some words)
    (falls : j.falls = true) : Leads H code.layout.ret i (i + 1) 0 := by
  have fits := poised.words i _ low high at_i
  generalize same : j.encode = v at fits
  cases fits with
  | pass passes _ =>
    subst same
    cases ((Instruction.isLabelBranch_encode j).trans
      (Instruction.isLabelBranch_of_jump? jumps)).symm.trans passes.1
  | jump made _ =>
    obtain ⟨_, rfl, -⟩ := Asm.b_ok made
    obtain rfl := Instruction.encode_injective same
    cases falls
  | test _ _ next | check next => exact next
  | call made _ _ _ =>
    obtain ⟨_, rfl, -⟩ := Asm.bl_ok made
    obtain rfl := Instruction.encode_injective same
    cases jumps

/-- All branches to labels are instructions of the assembler. -/
theorem Poised.decoded (at_i : c.heap.word? i = some v) (label : isLabelBranch v = true) :
    ∃ j, Instruction.decode? v = some j := by
  cases poised.words i v low high at_i with
  | pass passes _ => cases label.symm.trans passes.1
  | jump _ _ | test _ _ _ | check _ | call _ _ _ _ => exact ⟨_, Instruction.decode?_eq_some.2 rfl⟩

include legible

/-- A call that is read off the code is one whose effect the heights have. -/
theorem Poised.called {words : BitVec 26} {callee : Entry} {code' : CompiledWord}
    (at_i : c.heap.word? i = some (Instruction.branchLink words).encode)
    (word : c.HasWord id callee code') (far : (code'.layout.entry : Int) = i + words.toInt) :
    Leads H code.layout.ret i (i + 1) (stackLevel callee.inputs callee.outputs) ∧
      ∀ h, H i = some h → stackLevel e.inputs callee.inputs ≤ h := by
  have fits := poised.words i _ low high at_i
  generalize same : (Instruction.branchLink words).encode = v at fits
  cases fits with
  | pass passes _ =>
    subst same
    cases (Instruction.isLabelBranch_encode _).symm.trans passes.1
  | jump made _ =>
    obtain ⟨_, rfl, -⟩ := Asm.b_ok made
    cases Instruction.encode_injective same
  | test made _ _ =>
    obtain ⟨_, rfl, -⟩ := Asm.cbz_ok made
    cases Instruction.encode_injective same
  | check _ => cases Instruction.encode_injective same
  | call made effect next deep =>
    obtain ⟨id', callee', code'', word', rfl, rfl, rfl⟩ := effect
    obtain ⟨_, rfl, away⟩ := Asm.bl_ok made
    obtain rfl := Instruction.branchLink.inj (Instruction.encode_injective same)
    have inside := poised.inside
    have reached := legible.reaches (by omega) (legible.entry _ _ _ word') away
    obtain rfl := legible.unique _ _ _ _ _ _ word word' (by omega)
    obtain rfl := Option.some.inj (word.found.symm.trans word'.found)
    exact ⟨next, deep⟩

/-- A jump that is read off the code keeps the height. -/
theorem Poised.jumped {target : Nat}
    (at_i : c.heap.word? i = some j.encode) (jumps : j.jump? = some words)
    (other : ∀ reg words, j ≠ .branchNonzero reg words) (far : (target : Int) = i + words) :
    Leads H code.layout.ret i target 0 := by
  have taken : ∀ {n : Nat}, words = distance i n → Leads H code.layout.ret i n 0 →
      Leads H code.layout.ret i target 0 := by
    intro n away leads
    have inside := poised.inside
    have within := leads.within
    have reached := legible.reaches (by omega) (by omega) away
    obtain rfl : n = target := by omega
    exact leads
  have fits := poised.words i _ low high at_i
  generalize same : j.encode = v at fits
  cases fits with
  | pass passes _ =>
    subst same
    cases ((Instruction.isLabelBranch_encode j).trans
      (Instruction.isLabelBranch_of_jump? jumps)).symm.trans passes.1
  | jump made leads =>
    obtain ⟨_, rfl, away⟩ := Asm.b_ok made
    obtain rfl := Instruction.encode_injective same
    exact taken ((Option.some.inj jumps).symm.trans away) leads
  | test made leads _ =>
    obtain ⟨_, rfl, away⟩ := Asm.cbz_ok made
    obtain rfl := Instruction.encode_injective same
    exact taken ((Option.some.inj jumps).symm.trans away) leads
  | check _ => exact absurd (Instruction.encode_injective same) (other _ _)
  | call made _ _ _ =>
    obtain ⟨_, rfl, -⟩ := Asm.bl_ok made
    obtain rfl := Instruction.encode_injective same
    cases jumps

/-- One step before the return leads forward, and to the height that is told. -/
theorem Poised.step {next : Nat × Int} (height : H i = some h)
    (moves : c.Moves writes (i, h) next) :
    i < next.1 ∧ next.1 ≤ code.layout.ret ∧ H next.1 = some next.2 := by
  have goes : ∀ {n k}, Leads H code.layout.ret i n k →
      i < n ∧ n ≤ code.layout.ret ∧ H n = some (h + k) := fun leads =>
    ⟨leads.forward, leads.within, leads.height h height⟩
  have stays : ∀ {n}, Leads H code.layout.ret i n 0 →
      i < n ∧ n ≤ code.layout.ret ∧ H n = some h := fun leads => by
    have gone := goes leads
    rwa [Int.add_zero] at gone
  cases moves with
  | pass at_i passes shifts => exact goes ((poised.words i _ low high at_i).next passes shifts)
  | jump at_i jumps other far =>
    exact stays (poised.jumped legible low high at_i jumps other far)
  | skip at_i jumps falls => exact stays (poised.skipped low high at_i jumps falls)
  | call at_i word far => exact goes (poised.called legible low high at_i word far).1
  | stray at_i label unknown =>
    obtain ⟨j, known⟩ := poised.decoded low high at_i label
    cases unknown.symm.trans known

/-- Control goes on from every position before the return. -/
theorem Poised.onward (h : Int) : ∃ next, c.Moves writes (i, h) next := by
  have inside := poised.inside
  obtain ⟨v, at_i⟩ : ∃ v, c.heap.word? i = some v :=
    ⟨_, Array.getElem?_eq_getElem (Nat.lt_trans high inside)⟩
  cases poised.words i v low high at_i with
  | pass passes _ =>
    obtain ⟨k, shifts⟩ := exists_shifts writes v
    exact ⟨_, .pass at_i passes shifts⟩
  | @jump j target made leads =>
    obtain ⟨words, rfl, away⟩ := Asm.b_ok made
    have within := leads.within
    exact ⟨_, .jump at_i rfl nofun (legible.reaches (by omega) (by omega) away)⟩
  | test made _ _ =>
    obtain ⟨words, rfl, -⟩ := Asm.cbz_ok made
    exact ⟨_, .skip at_i rfl rfl⟩
  | check _ => exact ⟨_, .skip at_i rfl rfl⟩
  | call made effect _ _ =>
    obtain ⟨id, callee, code', word, rfl, rfl, rfl⟩ := effect
    obtain ⟨words, rfl, away⟩ := Asm.bl_ok made
    exact ⟨_, .call at_i word (legible.reaches (by omega) (legible.entry _ _ _ word) away)⟩

omit low high

/-- A path from the entry stays in the word and has the heights that are told. -/
theorem Poised.arrives (arrives : c.Arrives writes code i h) :
    code.layout.start ≤ i ∧ i ≤ code.layout.ret ∧ H i = some h := by
  obtain ⟨entered, above, below, last⟩ := poised.ordered
  -- along the path: position and height stay together
  suffices path : ∀ at_h : Nat × Int, Relation.ReflTransGen (c.Moves writes)
      (code.layout.entry, 0) at_h →
      code.layout.start ≤ at_h.1 ∧ at_h.1 ≤ code.layout.ret ∧ H at_h.1 = some at_h.2 from
    path (i, h) arrives
  intro at_h path
  induction path with
  | refl => exact ⟨entered, by omega, poised.start _ above⟩
  | @tail before next _ moves ih =>
    obtain ⟨low, high, height⟩ := ih
    have short : before.1 < code.layout.ret := by
      refine Nat.lt_of_le_of_ne high fun same => moves.not_ret ?_
      rw [same]
      exact poised.ret
    obtain ⟨forward, within, height'⟩ := poised.step legible low short height moves
    exact ⟨by omega, within, height'⟩

theorem Poised.balanced : c.Balanced writes e code := by
  have ends := poised.exits code.layout.ret poised.ordered.2.2.2
  refine ⟨fun i h arrived => ?_, fun i h words id callee code' arrived at_i word far => ?_,
    fun i h arrived => ?_, poised.ret, fun i h arrived returned => ?_⟩
  · have floor := poised.floor i h (poised.arrives legible arrived).2.2
    unfold stackLevel at floor
    omega
  · obtain ⟨low, high, height⟩ := poised.arrives legible arrived
    have short : i < code.layout.ret := by
      refine Nat.lt_of_le_of_ne high ?_
      rintro rfl
      cases Instruction.encode_injective (Option.some.inj (at_i.symm.trans poised.ret))
    have deep := (poised.called legible low short at_i word far).2 h height
    unfold stackLevel at deep
    omega
  · obtain ⟨low, high, -⟩ := poised.arrives legible arrived
    rcases Nat.eq_or_lt_of_le high with last | short
    · exact Or.inl last
    · exact Or.inr (poised.onward legible low short h)
  · obtain ⟨low, high, height⟩ := poised.arrives legible arrived
    rcases Nat.eq_or_lt_of_le high with last | short
    · subst last
      exact ⟨rfl, Option.some.inj (height.symm.trans ends)⟩
    · obtain ⟨next, moves⟩ := poised.onward legible low short h
      exact absurd returned moves.not_ret

end

variable {l : Records} {raw : InstrWord → RegSet → Prop}

theorem Run.legible (obeys : BuiltInObeys raw) {strict : Prop} {current : List Snapshot}
    (run : Run strict raw current l c) : c.Legible := by
  refine ⟨?_, fun id e code word => ?_, fun id id' e e' code code' word word' same =>
    run.entry_injective obeys word word' same⟩
  · obtain ⟨b, built, follows, -⟩ := run.base obeys
    have bounded := built.capacity
    have grown := follows.heap.extended.capacity
    have fits := follows.heap.consistent.here_le
    omega
  · have made := run.word (made_invariant _) obeys word
    have ends := made.stop_le
    cases made.ordered
    omega

/-- The built-in primitives leave the data stack pointer alone. -/
theorem builtIn_neutral : BuiltInObeys (neutral writes) := by
  have plain : ∀ p ∈ Primitive.all, ∀ i ∈ p.body, i.isPlain = true ∧ .dataStack ∉ i.written := by
    decide +kernel
  intro p isPrimitive i isInstruction
  obtain ⟨isPlain, other⟩ := plain p isPrimitive i isInstruction
  exact Neutral.plain isPlain other

/-- Let `writes` say which of the words that are no instruction of the assembler touch the data
stack pointer.  In a run under the stack convention in which all operations on open definitions have
succeeded, and in which every inserted word leaves the pointer alone and lets control go on, the
data stack is balanced in every finished word. -/
theorem data_stack_balanced {current : List Snapshot} (run : Run True (neutral writes) current l c)
    (stack : c.settings.convention = .stack) (word : c.HasWord id e code) :
    c.Balanced writes e code := by
  obtain ⟨H, poised⟩ := run.word (poised_invariant stack) builtIn_neutral word
  exact poised.balanced (run.legible builtIn_neutral)

/-- A word that branches, returns early and calls itself, and one that calls it. -/
theorem data_stack_balanced_recursive :
    ∃ c l x y code code', Run True (neutral fun _ => True) [] l c ∧
      c.settings.convention = .stack ∧ c.HasWord 29 x code ∧ c.HasWord 30 y code' ∧
      ((x.inputs, x.outputs), (y.inputs, y.outputs)) = ((2, 1), (1, 1)) ∧
      (x.callees, y.callees) = ([6, 29], [29]) ∧
      c.Balanced (fun _ => True) x code ∧ c.Balanced (fun _ => True) y code' := by
  let ops : List Operation := [.beginWord "x" { inputs := 2, outputs := 1 }, .word "+",
    .setLocal "p", .getLocal "p", .ifPart, .getLocal "p", .literal 5, .recurse, .exit, .elsePart,
    .literal 1, .thenPart, .endWord, .beginWord "y" { inputs := 1, outputs := 1 }, .literal 3,
    .call 29, .endWord]
  let c (b : Compiler) := (played ops (fun _ => []) b).2
  have state : (create {} { convention := .stack }).toOption.bind (fun b =>
      ((c b).finished? 29).bind fun x => ((c b).finished? 30).map fun y =>
        ((succeeds ops b, (c b).settings.convention),
          ((x.1.inputs, x.1.outputs), (y.1.inputs, y.1.outputs)), (x.1.callees, y.1.callees))) =
      some ((true, .stack), ((2, 1), (1, 1)), ([6, 29], [29])) := by
    decide +kernel
  obtain ⟨b, created, state⟩ := toOption_bind.1 state
  obtain ⟨x, code, word, state⟩ := finished?_bind.1 state
  obtain ⟨y, code', word', state⟩ := finished?_map.1 state
  simp only [Prod.mk.injEq] at state
  obtain ⟨⟨succeeded, stack⟩, ⟨⟨inputs, outputs⟩, inputs', outputs'⟩, callees, callees'⟩ := state
  simp only [c] at word word' stack
  have obeys : ∀ op ∈ ops, op.Obeys (neutral fun _ => True) := by
    simp only [ops, List.forall_mem_cons, Operation.Obeys]
    simp
  have run := Run.of_create created ops obeys fun (_ : True) => succeeded
  have effects : ((x.inputs, x.outputs), (y.inputs, y.outputs)) = ((2, 1), (1, 1)) :=
    Prod.ext (Prod.ext inputs outputs) (Prod.ext inputs' outputs')
  exact ⟨_, _, x, y, code, code', run, stack, word, word', effects, Prod.ext callees callees',
    data_stack_balanced run stack word, data_stack_balanced run stack word'⟩

/-! ## Where the balance ends -/

/-- The word `v` leaves the data stack pointer alone, but control may leave for elsewhere. -/
def Spares (writes : InstrWord → Prop) (v : InstrWord) (_ : RegSet) : Prop :=
  ∀ k, Shifts writes v k → k = 0

theorem Arrives.pass (arrives : c.Arrives writes code i h)
    (at_i : c.heap.word? i = some j.encode) (plain : j.isPlain = true) (shift : j.shift? = some k) :
    c.Arrives writes code (i + 1) (h + k) := by
  refine arrives.tail (.pass at_i (Instruction.passes_of_isPlain plain) (shifts_encode.2 ?_))
  intro known same
  exact Option.some.inj (shift.symm.trans same)

/-- An inserted branch can skip what was compiled after it. -/
theorem inserted_branch_skips :
    ∃ c l x code, Run True (Spares fun _ => True) [] l c ∧ c.settings.convention = .stack ∧
      c.HasWord 29 x code ∧ (x.inputs, x.outputs) = (0, 1) ∧
      ∃ i, c.Arrives (fun _ => True) code i 0 ∧ c.heap.word? i = some Instruction.ret.encode := by
  let ops : List Operation := [.beginWord "x" { inputs := 0, outputs := 1 },
    .instruction (Instruction.branch 3).encode .empty, .literal 1, .endWord]
  let c (b : Compiler) := (played ops (fun _ => []) b).2
  have state : (create {} { convention := .stack }).toOption.bind (fun b =>
      ((c b).finished? 29).map fun x => ((succeeds ops b, (c b).settings.convention),
        ((x.1.inputs, x.1.outputs), x.2.layout.entry),
        ((c b).heap.word? 210, (c b).heap.word? 213))) =
      some ((true, .stack), ((0, 1), 210),
        (some (Instruction.branch 3).encode, some Instruction.ret.encode)) := by
    decide +kernel
  obtain ⟨b, created, state⟩ := toOption_bind.1 state
  obtain ⟨x, code, word, state⟩ := finished?_map.1 state
  simp only [Prod.mk.injEq] at state
  obtain ⟨⟨succeeded, stack⟩, ⟨⟨inputs, outputs⟩, entry⟩, branch, returned⟩ := state
  have obeys : ∀ op ∈ ops, op.Obeys (Spares fun _ => True) := by
    have raw : Spares (fun _ => True) (Instruction.branch 3).encode .empty :=
      fun k shifts => shifts_encode.1 shifts 0 rfl
    simp only [ops, List.forall_mem_cons, Operation.Obeys]
    exact ⟨trivial, raw, by simp⟩
  have run := Run.of_create created ops obeys fun (_ : True) => succeeded
  have jumps : (c b).Moves (fun _ => True) (210, 0) (213, 0) :=
    .jump branch rfl (fun _ _ other => by cases other) rfl
  have arrived : (c b).Arrives (fun _ => True) code 213 0 := by
    unfold Arrives
    rw [entry]
    exact .single jumps
  exact ⟨_, _, x, code, run, stack, word, Prod.ext inputs outputs, 213, arrived, returned⟩

/-- After a snapshot from inside a definition was restored, its word can run into the pushes of what
was defined next. -/
theorem stale_pushes :
    ∃ b, create {} { convention := .stack } = .ok b ∧
      let c := b.overwritten 0 (drops ++ [.word "drop"]) twoValues
      ∃ x code, c.HasWord 29 x code ∧ (x.inputs, x.outputs) = (0, 0) ∧
        ∃ i, c.Arrives (fun _ => True) code i 16 ∧
        c.heap.word? i = some Instruction.ret.encode := by
  let c := overwritten 0 (drops ++ [.word "drop"]) twoValues
  let scratch : Reg := ⟨8⟩
  let push : Instruction := .indexed .storeBefore scratch .dataStack 8
  have state : (create {} { convention := .stack }).toOption.bind (fun b =>
      ((c b).finished? 29).map fun x => (((x.1.inputs, x.1.outputs), x.2.layout.entry),
        [(c b).heap.word? 210, (c b).heap.word? 211, (c b).heap.word? 212, (c b).heap.word? 213,
          (c b).heap.word? 214, (c b).heap.word? 215, (c b).heap.word? 216,
          (c b).heap.word? 217])) =
      some (((0, 0), 210), [some Instruction.nop.encode, some Instruction.nop.encode,
        some Instruction.nop.encode, some (Instruction.wideMove .zero scratch 1 0).encode,
        some push.encode, some (Instruction.wideMove .zero scratch 2 0).encode, some push.encode,
        some Instruction.ret.encode]) := by
    decide +kernel
  obtain ⟨b, created, state⟩ := toOption_bind.1 state
  obtain ⟨x, code, word, state⟩ := finished?_map.1 state
  simp only [Prod.mk.injEq, List.cons.injEq] at state
  obtain ⟨⟨⟨inputs, outputs⟩, entry⟩, slot0, slot1, slot2, move1, push1, move2, push2, returned,
    -⟩ := state
  have entered : (c b).Arrives (fun _ => True) code 210 0 := by
    unfold Arrives
    rw [entry]
  have arrived : (c b).Arrives (fun _ => True) code 217 16 :=
    (((((((entered.pass slot0 rfl rfl).pass slot1 rfl rfl).pass slot2 rfl rfl).pass move1 rfl
      rfl).pass push1 rfl rfl).pass move2 rfl rfl).pass push2 rfl rfl)
  exact ⟨b, created, x, code, word, Prod.ext inputs outputs, 217, arrived, returned⟩

/-- So the data stack need not be balanced: not if an inserted word branches, though it leaves the
pointer alone, and not after a snapshot from inside a definition was restored. -/
theorem data_stack_unbalanced :
    (∃ c l x code, Run True (Spares fun _ => True) [] l c ∧ c.settings.convention = .stack ∧
      c.HasWord 29 x code ∧ ¬c.Balanced (fun _ => True) x code) ∧
    ∃ b, create {} { convention := .stack } = .ok b ∧
      let c := b.overwritten 0 (drops ++ [.word "drop"]) twoValues
      ∃ x code, c.HasWord 29 x code ∧ ¬c.Balanced (fun _ => True) x code := by
  obtain ⟨c, l, x, code, run, stack, word, effect, i, arrived, returned⟩ := inserted_branch_skips
  obtain ⟨b, created, x', code', word', effect', i', arrived', returned'⟩ := stale_pushes
  rw [Prod.mk.injEq] at effect effect'
  refine ⟨⟨c, l, x, code, run, stack, word, fun balanced => ?_⟩, b, created, x', code', word',
    fun balanced => ?_⟩
  · have height := (balanced.returns i 0 arrived returned).2
    omega
  · have height := (balanced.returns i' 16 arrived' returned').2
    omega

end Compiler

end ForthJit
