import ForthJit.Proofs.Compiler.Edits
import ForthJit.Proofs.Compiler.Made
import ForthJit.Proofs.Compiler.Policy
import ForthJit.Proofs.Compiler.Trace
import ForthJit.Proofs.Compiler.Ways
import ForthJit.Proofs.Definition.Homes

/-!
# What inlining copies

Whether a body may be copied is decided by flags that were collected while it was emitted, not by
looking at the code.  `Compiler.inlining_safe` says that the flags miss nothing: what is copied does
the same wherever it stands and does not touch the stack, and it is what the callee has published,
at every site.  `Compiler.Sealed` is the invariant behind it; the rest is known of every finished
word (`Compiler.Made`).
-/

namespace ForthJit

variable {i : Nat} {d : Draft} {e : Entry} {id : EntryId}

/-- The word can stand anywhere: it neither branches, calls nor returns, does not depend on its
position and does not access the stack. -/
def Portable (v : InstrWord) : Prop :=
  isPcRelative v = false ∧ isRegisterBranch v = false ∧ isStackAccess v = false

instance (v : InstrWord) : Decidable (Portable v) :=
  inferInstanceAs (Decidable (_ ∧ _ ∧ _))

/-! ## Where the stack is accessed -/

theorem Placeholder.isStackAccess_word (p : Placeholder) : isStackAccess p.word = false := by
  cases p <;> decide

/-- No pending patch becomes an access to the stack. -/
theorem PendingPatch.Resolves.isStackAccess {t : PatchTargets} {count : Nat}
    {patches : List PendingPatch} {j : Instruction} (resolves : Resolves t count patches i j) :
    j.isStackAccess = false := by
  cases resolves with
  | exit _ made =>
    obtain ⟨words, rfl, -⟩ := Asm.b_ok made
    rfl
  | error _ made | check _ _ made =>
    obtain ⟨words, rfl, -⟩ := Asm.cbnz_ok made
    rfl
  | recursion _ made =>
    obtain ⟨words, rfl, -⟩ := Asm.bl_ok made
    rfl
  | unchecked => rfl
  | literal _ _ made =>
    obtain ⟨words, rfl, -⟩ := Asm.ldrLiteral_ok made
    rfl

namespace Locals

/-- If no slot is taken, no read or write of a local accesses the stack. -/
theorem resolveFrom_isStackAccess {free : List Reg} {used : Nat} {ls : Locals} {r : Resolution}
    (resolved : resolveFrom free used ls = .ok r) (slotless : r.slots = used)
    {j : Instruction} (member : (i, j) ∈ r.patches) : j.isStackAccess = false := by
  induction ls generalizing free used r with
  | nil =>
    cases resolved
    cases member
  | cons l rest ih =>
    obtain ⟨home, free', used', patches, more, chosen, own, others, rfl⟩ :=
      resolveFrom_cons resolved
    have taken : used' ≤ more.slots := resolveFrom_slots others
    replace slotless : more.slots = used := slotless
    have held : used' = used ∧ ∀ n, home ≠ some (.slot n) := by
      rcases homeFor_cases free used l with ⟨-, same⟩ | ⟨_, _, -, same⟩ | ⟨-, -, same⟩
      all_goals cases chosen.symm.trans same
      · exact ⟨rfl, nofun⟩
      · exact ⟨rfl, nofun⟩
      · omega
    rcases List.mem_append.1 member with first | later
    · rcases patchesOf_mem own first with ⟨w, -, -, rfl⟩ | ⟨h, rfl, made⟩
      · rfl
      · cases h with
        | slot n => exact absurd rfl (held.2 n)
        | register q =>
          rcases made with ⟨w, -, -, made⟩ | ⟨x, -, -, made⟩
          all_goals
            cases made
            rfl
    · exact ih others (slotless.trans held.1.symm) later

end Locals

/-- A frame without slots has no size. -/
theorem Frame.slots_eq_zero {leaf : Bool} {slots : Nat}
    (empty : (Frame.create leaf slots).size = 0) : slots = 0 := by
  unfold Frame.create nextMultiple at empty
  dsimp only at empty
  omega

/-- From `start` on nothing that is staged accesses the stack. -/
def CodeHeap.Stackless (h : CodeHeap) (start : Nat) : Prop :=
  ∀ i v, start ≤ i → h.word? i = some v → isStackAccess v = false

theorem CodeHeap.Stackless.stage {h : CodeHeap} {start : Nat} (stackless : h.Stackless start)
    {ws : List InstrWord} (each : ∀ v ∈ ws, isStackAccess v = false) :
    (h.stage ws).Stackless start := by
  intro i v low at_i
  by_cases old : i < h.here
  · rw [word?_stage_of_lt ws old] at at_i
    exact stackless i v low at_i
  · obtain ⟨n, rfl⟩ := Nat.exists_eq_add_of_le (Nat.le_of_not_lt old)
    rw [word?_stage] at at_i
    exact each v (List.mem_of_getElem? at_i)

theorem CodeHeap.Stackless.replace {h : CodeHeap} {start : Nat} (stackless : h.Stackless start)
    (index : Nat) {w : InstrWord} (harmless : isStackAccess w = false) :
    (h.replace index w).Stackless start := by
  intro i v low at_i
  replace at_i : (h.staged.setIfInBounds index w)[i]? = some v := at_i
  rw [Array.getElem?_setIfInBounds] at at_i
  split at at_i
  · split at at_i
    · cases at_i
      exact harmless
    · cases at_i
  · exact stackless i v low at_i

/-- What is emitted into a definition accesses the stack only if it was copied. -/
theorem Draft.Edits.stackless {allowed : RegSet → Prop} {d' : Draft}
    (edits : d.Edits (fun v => isStackAccess v = false) allowed d')
    (stackless : d.heap.Stackless d.word.body) : d'.heap.Stackless d'.word.body := by
  refine edits.keeps (I := fun d => d.heap.Stackless d.word.body)
    (fun edit stackless => ?_) stackless
  cases edit with
  | stage harmless =>
    refine stackless.stage fun v member => ?_
    rw [List.mem_singleton.1 member, Instruction.isStackAccess_encode]
    exact harmless
  | reserve p =>
    refine stackless.stage fun v member => ?_
    rw [List.mem_singleton.1 member]
    exact p.isStackAccess_word
  | copy each => exact stackless.stage each
  | patch index harmless =>
    exact stackless.replace index ((Instruction.isStackAccess_encode _).trans harmless)
  | spill regs =>
    refine stackless.stage fun v member => ?_
    rw [List.eq_of_mem_replicate member]
    exact Placeholder.isStackAccess_word _
  | announce | read => exact stackless
  | note start locals clobbered =>
    unfold Definition.body at stackless ⊢
    rw [start]
    exact stackless

/-- No action accesses the stack, unless it copies a word that does. -/
theorem Action.stackless {a : Action} {settings : Settings} {d' : Draft}
    (copies : a.Copies fun v => isStackAccess v = false) (done : a.emit settings d = .ok () d')
    (stackless : d.heap.Stackless d.word.body) : d'.heap.Stackless d'.word.body := by
  have allows : Allows (fun _ => True) settings := ⟨fun _ _ => trivial, trivial, trivial, trivial⟩
  by_cases sets : ∃ name, a = .setLocal name
  · obtain ⟨name, rfl⟩ := sets
    obtain ⟨reg, d1, edits, rfl⟩ :=
      Emit.setLocal_edits (fun v => isStackAccess v = false) allows done
    exact edits.stackless stackless
  · have other : ∀ name, a ≠ .setLocal name := fun name same => sets ⟨name, same⟩
    have names : a.Names fun _ => True := by
      cases a <;> simp [Action.Names]
    exact Draft.Edits.stackless (Action.edits allows copies names other d () d' done) stackless

/-! ## Every finished word -/

namespace Compiler

variable {strict : Prop} {raw : InstrWord → RegSet → Prop} {l : Records} {b c c0 c' : Compiler}
  {w : Definition}

/-- The word is published, and its body does not access the stack if it may be copied. -/
structure Sealed (c : Compiler) (_ : List PendingPatch) (e : Entry) (code : CompiledWord) :
    Prop where
  epilogue : code.layout.epilogue ≤ code.layout.stop
  published : code.layout.stop ≤ c.heap.published
  stackless : code.inlineRefusal? e.flags.throws = none → ∀ i v, code.layout.body ≤ i →
    i < code.layout.epilogue → c.heap.word? i = some v → isStackAccess v = false

variable {code : CompiledWord}

theorem Sealed.of_follows {patches : List PendingPatch} (isSealed : b.Sealed patches e code)
    (follows : b.Follows c) (callers : List EntryId) :
    c.Sealed patches { e with callers } code := by
  have grown := follows.heap.extended
  have below := isSealed.epilogue
  have published := isSealed.published
  refine ⟨below, Nat.le_trans published grown.published, fun inlinable i v low high at_i => ?_⟩
  rw [grown.staged i (by omega)] at at_i
  exact isSealed.stackless inlinable i v low high at_i

/-- Nothing that an action copies into a definition begun in `b` accesses the stack. -/
theorem copies_of_obeys {a : Action} (obeys : a.Obeys fun v _ => Portable v) (start : b.Follows b)
    (words : b.Words b.Sealed l) (opened : b.Opened c) (isOpen : c.definition = some w)
    (fits : a.Fits c w) : a.Copies fun v => isStackAccess v = false := by
  cases a with
  | instruction v clobbers => exact obeys.2.2
  | primitive inputs outputs clobbers body => exact fun v member => (obeys v member).2.2
  | inline id callee body =>
    obtain ⟨other, found, code, kind, inlinable, rfl⟩ := fits
    obtain ⟨e, found0, same⟩ :=
      start.older opened.follows (opened.older isOpen other found) found
    rw [same] at kind inlinable
    have isSealed := (words id e code found0 kind).of_follows opened.follows e.callers
    intro v member
    obtain ⟨n, at_n⟩ := List.mem_iff_getElem?.1 member
    rw [Array.getElem?_toList, CodeHeap.words, Array.getElem?_extract] at at_n
    split at at_n
    · exact isSealed.stackless inlinable (code.layout.body + n) v (Nat.le_add_right _ _)
        (by omega) at_n
    · cases at_n
  | _ => trivial

/-- What is staged for an open definition does not access the stack. -/
theorem Worked.stackless (start : b.Follows b) (words : b.Words b.Sealed l) {name : String}
    {signature : Signature} (begun : beginWord name signature b = .ok id c0)
    (worked : Worked True (·.Obeys fun v _ => Portable v) c0 c) (isOpen : c.definition = some w) :
    c.heap.Stackless w.body := by
  induction worked generalizing w with
  | start =>
    obtain ⟨-, -, -, heap, emitted, rfl, rfl⟩ := beginWord_ok begun
    cases isOpen
    intro i v low at_i
    have bound : i < heap.here := (Array.getElem?_eq_some_iff.1 at_i).1
    rw [CodeHeap.emitAll_ok emitted, CodeHeap.here_stage] at bound
    exact absurd bound (Nat.not_lt.2 low)
  | heap _ staged _ ih =>
    intro i v low at_i
    rw [CodeHeap.word?, staged] at at_i
    exact ih isOpen i v low at_i
  | @act c w0 a d worked isOpen0 fits obeys done ih =>
    cases isOpen
    have opened := worked.opened start begun
    exact Action.stackless (copies_of_obeys obeys start words opened isOpen0 fits) done (ih isOpen0)
  | failed unstrict => exact absurd trivial unstrict

/-- The body of a word that has ended does not access the stack if it may be copied. -/
theorem Ended.stackless {p : LayoutParts} {laid : Laid} {e' : Entry}
    (ended : Ended b c w c' p laid d code e e') (stackless : c.heap.Stackless w.body)
    (inlinable : code.inlineRefusal? e'.flags.throws = none) {v : InstrWord}
    (low : code.layout.body ≤ i) (high : i < code.layout.epilogue)
    (at_i : d.heap.word? i = some v) : isStackAccess v = false := by
  have frameless : code.frameSize = 0 := by
    unfold CompiledWord.inlineRefusal? at inlinable
    grind
  have slotless : p.locals.slots = 0 := by
    rw [ended.frameSize, ended.laidOut.frameSize] at frameless
    exact Frame.slots_eq_zero frameless
  have body : code.layout.body = w.body := by
    rw [ended.layout, ended.laidOut.layout]
    rfl
  have inside : i < c.heap.here := by
    rwa [ended.layout, ended.laidOut.layout] at high
  have fits := (Frame.prologue_isTrap ended.laidOut.setup).1
  rw [ended.laidOut.heap] at at_i
  rcases CodeHeap.word?_replaceAll at_i with ⟨j, member, rfl⟩ | ⟨before, -⟩
  · rw [Instruction.isStackAccess_encode]
    rcases List.mem_append.1 member with earlier | ofLocal
    · rcases List.mem_append.1 earlier with filling | pending
      · obtain ⟨below, -⟩ := LayoutParts.fill_mem fits filling
        rw [body] at low
        exact absurd below (Nat.not_lt.2 low)
      · exact (PendingPatch.resolveFrom_mem ended.laidOut.pending pending).isStackAccess
    · exact Locals.resolveFrom_isStackAccess ended.laidOut.resolved slotless ofLocal
  · rw [CodeHeap.word?_stage_of_lt _ inside] at before
    exact stackless i v (body ▸ low) before

theorem sealed_invariant (s : Settings) :
    WordInvariant True (fun v _ => Portable v) s Sealed where
  stable := fun _ follows isSealed callers => isSealed.of_follows follows callers
  new := by
    intro l b c0 c c' w name signature id id' p laid d code e e' built _ words begun worked isOpen
      finished follows ended
    have stackless := worked.stackless built.idle.follows words begun isOpen
    refine ⟨?_, ?_, fun inlinable i v low high at_i => ?_⟩
    · rw [ended.stop_eq, ended.laidOut.here, ended.layout]
      have := ended.laidOut.data_le
      omega
    · rw [ended.published, ended.here_eq]
    · rw [CodeHeap.word?, ended.staged] at at_i
      exact ended.stackless stackless inlinable low high at_i

/-- The published words of a body. -/
def publishedBody (c : Compiler) (code : CompiledWord) : List InstrWord :=
  (List.range (code.layout.epilogue - code.layout.body)).map fun n =>
    c.heap.executableWord (code.layout.body + n)

section Published

variable {patches : List PendingPatch} {e : Entry} {code : CompiledWord}

/-- What is staged of a published body is what was published. -/
theorem Sealed.words_eq (isSealed : c.Sealed patches e code) (consistent : c.heap.Consistent) :
    (c.heap.words code.layout.body code.layout.epilogue).toList = c.publishedBody code := by
  have below := isSealed.epilogue
  have published := isSealed.published
  have within := consistent.published_le
  have size : c.heap.here = c.heap.staged.size := rfl
  apply List.ext_getElem?
  intro n
  rw [Array.getElem?_toList, CodeHeap.words, Array.getElem?_extract]
  by_cases inside : n < code.layout.epilogue - code.layout.body
  · rw [if_pos (by omega), publishedBody, List.getElem?_map, List.getElem?_range inside]
    exact consistent.copied (code.layout.body + n) (by omega)
  · rw [if_neg (by omega), publishedBody, List.getElem?_map,
      List.getElem?_eq_none (by simpa using inside)]
    rfl

/-- A published body stays as it is. -/
theorem Sealed.publishedBody_eq (isSealed : b.Sealed patches e code) (follows : b.Follows c) :
    c.publishedBody code = b.publishedBody code := by
  have below := isSealed.epilogue
  have published := isSealed.published
  refine List.map_congr_left fun n member => ?_
  have inside := List.mem_range.1 member
  exact follows.heap.extended.executable _ (by omega)

end Published

/-- The built-in words can stand anywhere. -/
theorem builtIn_portable : BuiltInObeys fun v _ => Portable v := by
  unfold BuiltInObeys
  decide +kernel

/-- What may be copied can stand anywhere. -/
theorem Built.portable (built : Built True (fun v _ => Portable v) l b)
    (found : b.dictionary.get? id = some e) (kind : e.kind = .compiled code)
    (inlinable : code.inlineRefusal? e.flags.throws = none) :
    ∀ v ∈ b.publishedBody code, Portable v ∧ Final v := by
  have clean := built.idle.clean
  have copyable := Made.copyable (WordInvariant.words (made_invariant b.settings) built rfl) clean
  have isSealed := WordInvariant.words (sealed_invariant b.settings) built rfl id e code found kind
  have below := isSealed.epilogue
  have published := isSealed.published
  intro v member
  obtain ⟨n, inside, rfl⟩ := List.mem_map.1 member
  have inside := List.mem_range.1 inside
  have low := Nat.le_add_right code.layout.body n
  have high : code.layout.body + n < code.layout.epilogue := by omega
  have copied := built.idle.follows.heap.consistent.copied (code.layout.body + n) (by omega)
  obtain ⟨v, at_i, final⟩ := clean id e code found kind _ low high
  obtain ⟨v', at_i', movable⟩ := copyable id e code found kind inlinable _ low high
  obtain rfl := Option.some.inj (copied.symm.trans at_i)
  obtain rfl := Option.some.inj (copied.symm.trans at_i')
  have stackless := isSealed.stackless inlinable _ _ low high copied
  refine ⟨?_, final⟩
  generalize b.heap.executableWord (code.layout.body + n) = v at movable stackless
  cases movable with
  | raw portable => exact portable
  | @plain i plain =>
    refine ⟨?_, ?_, stackless⟩
    · rw [Instruction.isPcRelative_encode]
      cases i <;> first | rfl | cases plain
    · rw [Instruction.isRegisterBranch_encode]
      cases i <;> first | rfl | cases plain

/-! ## Copying a body -/

end Compiler

namespace Emit

variable {settings : Settings} {d d' : Draft} {callee : Entry} {body : List InstrWord}

/-- A copied body follows the locals that had to be saved. -/
theorem inlineBody_ok (ok : inlineBody callee body settings d = .ok () d') :
    (∃ saved, d'.heap = d.heap.stage (List.replicate saved Placeholder.localWrite.word ++ body)) ∧
      d'.word.depth + callee.inputs = d.word.depth + callee.outputs := by
  have counted := (inlineBody_counts ok).depth
  refine ⟨?_, by omega⟩
  obtain ⟨_, d3, checked, following⟩ := bind_ok.1 (tail_of (tail_of ok rfl :) rfl :)
  obtain ⟨-, rfl⟩ := checkArity_ok checked
  obtain ⟨_, d4, clobbered, last⟩ := bind_ok.1 following
  obtain ⟨-, rfl⟩ := clobber_ok clobbered
  obtain ⟨_, d5, emitted, counted⟩ := bind_ok.1 last
  obtain rfl := emitWords_ok emitted
  cases counted
  exact ⟨_, CodeHeap.stage_stage _ _ _⟩

variable {e : CompileError}

theorem onHeap_error {α : Type} {operation : HeapM α}
    (error : onHeap operation settings d = .error e d') : ∃ why, e = .memory why := by
  obtain ⟨heap, word⟩ := d
  cases outcome : operation heap with
  | ok a h =>
    simp only [onHeap, outcome] at error
    cases error
  | error why h =>
    simp only [onHeap, outcome] at error
    cases error
    exact ⟨why, rfl⟩

theorem arity_error {α : Type} {result : Except ArityError α}
    (error : arity result settings d = .error e d') : ∃ why, e = .arity why := by
  cases result with
  | ok a => cases error
  | error why =>
    cases error
    exact ⟨why, rfl⟩

theorem clobber_error {regs : RegSet} (error : clobber regs settings d = .error e d') :
    ∃ why, e = .memory why := by
  rcases bind_error error with failed | ⟨_, d1, -, rest⟩
  · rcases bind_error (tail_of (tail_of failed rfl :) rfl :) with failed | ⟨_, d1, -, rest⟩
    · exact onHeap_error failed
    · split at rest
      · cases rest
      · cases rest
        exact ⟨_, rfl⟩
  · cases rest

/-- A body that is not copied does not fit, be it into the memory or to the pending values. -/
theorem inlineBody_error (error : inlineBody callee body settings d = .error e d') :
    (∃ why, e = .arity why) ∨ ∃ why, e = .memory why := by
  rcases bind_error (tail_of (tail_of error rfl :) rfl :) with failed | ⟨_, d1, -, rest⟩
  · exact Or.inl (arity_error failed)
  right
  rcases bind_error rest with failed | ⟨_, d2, -, rest⟩
  · exact clobber_error failed
  rcases bind_error rest with failed | ⟨_, d3, -, rest⟩
  · exact onHeap_error failed
  · cases rest

end Emit

namespace Compiler

variable {c c' : Compiler} {w : Definition} {id : EntryId}

/-- A callee is an entry other than the open definition, and preparing it changes nothing but what
is published. -/
theorem prepareCallee_cases (id : EntryId) (c : Compiler) :
    (∃ e c', prepareCallee id c = .error e c' ∧ ∀ name why, e ≠ .notInlinable name why) ∨
      ∃ w callee heap, c.definition = some w ∧ id ≠ w.entry ∧ c.dictionary.get? id = some callee ∧
        heap.staged = c.heap.staged ∧ prepareCallee id c = .ok callee { c with heap } := by
  cases isOpen : c.definition with
  | none =>
    exact Or.inl ⟨_, c, bind_of_error (active_none isOpen) _, fun _ _ same => by cases same⟩
  | some w =>
    have opened := active_some isOpen
    by_cases own : id = w.entry
    · refine Or.inl ⟨.unsupported (.callUnfinished w.name), c, ?_, fun _ _ same => by cases same⟩
      refine (bind_of_ok opened _).trans ?_
      rw [if_pos own]
      rfl
    cases found : c.dictionary.get? id with
    | none =>
      refine Or.inl ⟨.unknownWord id.describe, c, ?_, fun _ _ same => by cases same⟩
      refine (bind_of_ok opened _).trans ?_
      rw [if_neg own]
      exact bind_of_error (entry_none found) _
    | some callee =>
      have prepared : prepareCallee id c = publishing callee c := by
        refine (bind_of_ok opened _).trans ?_
        rw [if_neg own]
        exact bind_of_ok (entry_some found) _
      rcases publishing_cases callee c with ⟨why, c', failed⟩ | ⟨heap, -, ready⟩
      · exact Or.inl ⟨_, c', prepared.trans failed, fun _ _ same => by cases same⟩
      · have done := prepared.trans ready
        obtain ⟨-, _, -, -, -, staged, -, same⟩ := prepareCallee_ok done
        cases same
        exact Or.inr ⟨w, callee, heap, rfl, own, rfl, staged, isOpen ▸ done⟩

/-- Once a call is compiled, recording it does not fail. -/
theorem recording_cases (isOpen : c.definition = some w) (action : Emit Unit) (id : EntryId) :
    (∃ e d, action c.settings ⟨c.heap, w⟩ = .error e d ∧
      ∃ c', (do emitting action; recordCall id : CompileM Unit) c = .error e c') ∨
      ∃ d c', action c.settings ⟨c.heap, w⟩ = .ok () d ∧ c'.heap = d.heap ∧
        c'.definition = some d.word ∧
        (do emitting action; recordCall id : CompileM Unit) c = .ok () c' := by
  have emitted : emitting action c = _ := emitting_some isOpen
  cases done : action c.settings ⟨c.heap, w⟩ with
  | ok _ d =>
    rw [done] at emitted
    exact Or.inr ⟨d, _, rfl, rfl, rfl, bind_of_ok emitted _⟩
  | error e d =>
    rw [done] at emitted
    exact Or.inl ⟨e, d, rfl, _, bind_of_error emitted _⟩

/-- A body is copied, or the callee cannot be prepared, its body may not be copied, or it does not
fit. -/
theorem copying_cases (id : EntryId) (c : Compiler) :
    (∃ e c', inlineCall id c = .error e c' ∧ ((∀ name why, e ≠ .notInlinable name why) ∨
      ∃ callee, c.dictionary.get? id = some callee ∧
        ∀ code, callee.kind = .compiled code → code.inlineRefusal? callee.flags.throws ≠ none)) ∨
      ∃ w callee code heap d c', inlineCall id c = .ok () c' ∧ c.definition = some w ∧
        c.HasWord id callee code ∧ code.inlineRefusal? callee.flags.throws = none ∧
        heap.staged = c.heap.staged ∧ Emit.inlineBody callee
          (heap.words code.layout.body code.layout.epilogue).toList c.settings ⟨heap, w⟩ =
            .ok () d ∧
        c'.heap = d.heap ∧ c'.definition = some d.word := by
  rcases prepareCallee_cases id c with ⟨e, c', failed, other⟩ |
    ⟨w, callee, heap, isOpen, other, found, staged, prepared⟩
  · exact Or.inl ⟨e, c', bind_of_error failed _, Or.inl other⟩
  rw [inlineCall, bind_of_ok prepared]
  cases compiled : callee.compiled? with
  | none =>
    refine Or.inl ⟨_, _, rfl, Or.inr ⟨callee, found, fun code kind => ?_⟩⟩
    cases compiled.symm.trans (Entry.compiled?_eq_some.2 kind)
  | some code =>
    have kind := Entry.compiled?_eq_some.1 compiled
    dsimp only
    cases refusal : code.inlineRefusal? callee.flags.throws with
    | some why =>
      refine Or.inl ⟨_, _, rfl, Or.inr ⟨callee, found, fun code' kind' => ?_⟩⟩
      obtain rfl := EntryKind.compiled.inj (kind.symm.trans kind')
      rw [refusal]
      exact Option.some_ne_none why
    | none =>
      dsimp only
      rw [bind_get]
      rcases recording_cases (c := { c with heap }) isOpen (Emit.inlineBody callee
        (heap.words code.layout.body code.layout.epilogue).toList) id with
        ⟨e, d, failed, c', run⟩ | ⟨d, c', done, isHeap, isOpen', run⟩
      · refine Or.inl ⟨e, c', run, Or.inl fun name why same => ?_⟩
        rcases Emit.inlineBody_error failed with ⟨_, same'⟩ | ⟨_, same'⟩
        · cases same.symm.trans same'
        · cases same.symm.trans same'
      · refine Or.inr ⟨w, callee, code, heap, d, c', run, isOpen,
          ⟨found, kind, ?_⟩, refusal, staged, done, isHeap, isOpen'⟩
        intro w' isOpen'
        obtain rfl := Option.some.inj (isOpen.symm.trans isOpen')
        exact other

/-- The code of entry `id` is copied where the word is called. -/
def offers (c : Compiler) (id : EntryId) : Bool :=
  c.settings.autoInline && ((c.dictionary.get? id).bind (·.compiled?)).any (·.inlinable)

/-- The entry whose body an operation wants to copy into the open definition `w`. -/
def inlines? (c : Compiler) (w : Definition) : Operation → Option EntryId
  | .inlineCall id => some id
  | .call id => (c.callee? w (.call id)).filter c.offers
  | .word name => (c.callee? w (.word name)).filter c.offers
  | _ => none

variable {op : Operation}

/-- A call of a word that is offered for inlining is compiled by copying. -/
theorem call_cases (offered : c.offers id = true) :
    (∃ e c', call id c = .error e c' ∧ ∀ name why, e ≠ .notInlinable name why) ∨
      ∃ heap, heap.staged = c.heap.staged ∧ call id c = inlineCall id { c with heap } := by
  rcases prepareCallee_cases id c with ⟨e, c', failed, other⟩ |
    ⟨w, callee, heap, -, -, found, staged, prepared⟩
  · exact Or.inl ⟨e, c', bind_of_error failed _, other⟩
  · refine Or.inr ⟨heap, staged, ?_⟩
    obtain ⟨wanted, inlinable⟩ := Bool.and_eq_true_iff.1 offered
    have taken : ((callee.compiled?.map (·.inlinable)).getD false && c.settings.autoInline) =
        true := by
      rw [found, Option.bind_some] at inlinable
      cases compiled : callee.compiled? with
      | none =>
        rw [compiled] at inlinable
        cases inlinable
      | some code =>
        rw [compiled] at inlinable
        exact Bool.and_eq_true_iff.2 ⟨inlinable, wanted⟩
    rw [call, bind_of_ok prepared, bind_get, if_pos taken]

/-- An operation that wants to copy a body either fails before or does so. -/
theorem inlines_cases (isOpen : c.definition = some w) (inlines : c.inlines? w op = some id) :
    (∃ e c', op.run c = .error e c' ∧ ∀ name why, e ≠ .notInlinable name why) ∨
      ∃ heap, heap.staged = c.heap.staged ∧ op.run c = inlineCall id { c with heap } := by
  cases op with
  | inlineCall id' =>
    cases inlines
    exact Or.inr ⟨c.heap, rfl, rfl⟩
  | call id' =>
    simp only [inlines?, callee?] at inlines
    obtain ⟨same, offered⟩ := Option.filter_eq_some_iff.1 inlines
    cases same
    exact call_cases offered
  | word name =>
    simp only [inlines?, callee?] at inlines
    obtain ⟨named, offered⟩ := Option.filter_eq_some_iff.1 inlines
    split at named
    · cases named
    next free =>
      have run : (Operation.word name).run c = call id c := by
        refine (bind_of_ok (active_some isOpen) _).trans ?_
        rw [if_neg free]
        exact bind_of_ok (find_some named) _
      rw [run]
      exact call_cases offered
  | _ => cases inlines

/-- `c'` is `c` after the body `code` of `callee` was copied into the open definition `w`, which has
become `w'`. -/
structure Copied (c c' : Compiler) (w w' : Definition) (callee : Entry) (code : CompiledWord) :
    Prop where
  appended : ∃ saved, c'.heap.staged.toList =
    c.heap.staged.toList ++ List.replicate saved Placeholder.localWrite.word ++
      c'.publishedBody code
  portable : ∀ v ∈ c'.publishedBody code, Portable v ∧ Final v
  depth : w'.depth + callee.inputs = w.depth + callee.outputs
  silent : callee.flags.throws = false

/-- In a run without stale restoration, what is copied is a published body that can stand
anywhere. -/
theorem Run.copied {current : List Snapshot} {l : Records}
    (run : Run True (fun v _ => Portable v) current l c) (isOpen : c.definition = some w)
    (inlines : c.inlines? w op = some id) (ok : op.run c = .ok () c') :
    ∃ callee code w', c.HasWord id callee code ∧ c'.definition = some w' ∧
      c.Copied c' w w' callee code := by
  rcases inlines_cases isOpen inlines with ⟨e, c1, failed, -⟩ | ⟨heap1, staged1, same⟩
  · cases ok.symm.trans failed
  rcases copying_cases id { c with heap := heap1 } with ⟨e, c1, failed, -⟩ |
    ⟨w0, callee, code, heap, d, c1, done, isOpen0, word, inlinable, staged, copied, isHeap, isOpen'⟩
  · cases ok.symm.trans (same.trans failed)
  cases ok.symm.trans (same.trans done)
  obtain rfl := Option.some.inj (isOpen.symm.trans isOpen0)
  cases run.standing builtIn_portable with
  | idle built => cases built.idle.definition.symm.trans isOpen
  | @working b c0 _ _ _ _ built begun worked =>
    have start := built.idle.follows
    have opened := worked.opened start begun
    have follows : b.Follows c' := by
      have after := opened.follows.after op
      rwa [Compiler.after, stateAfter_of_ok ok] at after
    have older := opened.older isOpen (word.finished w isOpen) word.found
    obtain ⟨e, found, cut⟩ := start.older opened.follows older word.found
    have kind : e.kind = .compiled code := by
      rw [← word.kind, cut]
    have quiet : callee.flags = e.flags := by
      rw [cut]
    have isSealed :=
      WordInvariant.words (sealed_invariant b.settings) built rfl id e code found kind
    replace staged : heap.staged = c.heap.staged := staged.trans staged1
    have body : heap.words code.layout.body code.layout.epilogue =
        c.heap.words code.layout.body code.layout.epilogue := by
      rw [CodeHeap.words, CodeHeap.words, staged]
    have published := isSealed.publishedBody_eq follows
    have sealed' := isSealed.of_follows opened.follows e.callers
    have same :
        (c.heap.words code.layout.body code.layout.epilogue).toList = c'.publishedBody code := by
      rw [sealed'.words_eq opened.follows.heap.consistent, published]
      exact isSealed.publishedBody_eq opened.follows
    obtain ⟨⟨saved, appended⟩, depth⟩ := Emit.inlineBody_ok copied
    refine ⟨callee, code, d.word, ⟨word.found, word.kind, word.finished⟩, isOpen', ⟨saved, ?_⟩, ?_,
      depth, ?_⟩
    · rw [isHeap, appended, CodeHeap.staged_stage, body, same, staged, Array.toList_append,
        List.append_assoc]
    · rw [published]
      exact built.portable found kind (quiet ▸ inlinable)
    · unfold CompiledWord.inlineRefusal? at inlinable
      grind

/-- Whatever is restored, what is offered for inlining can be copied. -/
theorem Reachable.offering (reachable : Reachable c) : ∃ b, Offering b c := by
  induction reachable with
  | create created => exact create_offering created
  | @step c op _ ih =>
    obtain ⟨b, offering⟩ := ih
    exact ⟨b, offering.after op⟩
  | @restore c s _ ih =>
    obtain ⟨b, offering⟩ := ih
    have blank : Offering c.blank c := { offering with follows := offering.follows.blank }
    exact ⟨c.blank, blank.restore (Nat.zero_le _) (blank_covered c s.heap)⟩

theorem RunWith.reachable {strict : Prop} {raw : InstrWord → RegSet → Prop} {L : Type} {start l : L}
    {note : Compiler → L → Operation → L} {current : List Snapshot}
    (run : RunWith strict raw start note current l c) : Reachable c := by
  induction run with
  | create created => exact .create created
  | step op _ _ _ ih => exact ih.step op
  | snapshot _ _ ih => exact ih
  | restore _ ih => exact ih.restore _

/-- Inlining copies what the callee has published, the same words at every site, and none of them
depends on where it stands.  What is offered for inlining is never refused. -/
theorem inlining_safe {op : Operation} (isOpen : c.definition = some w)
    (inlines : c.inlines? w op = some id) :
    (∀ {current l c'}, Run True (fun v _ => Portable v) current l c → op.run c = .ok () c' →
      ∃ callee code w', c.HasWord id callee code ∧ c'.definition = some w' ∧
        c.Copied c' w w' callee code ∧
        ∀ {current l b e code'}, Run True (fun v _ => Portable v) current l b →
          b.definition = none → b.Since c → b.HasWord id e code' →
          code' = code ∧ b.publishedBody code = c'.publishedBody code) ∧
      ∀ {e code}, Reachable c → c.dictionary.get? id = some e → e.kind = .compiled code →
        code.inlinable = true → ∀ name why c', op.run c ≠ .error (.notInlinable name why) c' := by
  constructor
  · intro current l c' run ok
    obtain ⟨callee, code, w', word, isOpen', copied⟩ := run.copied isOpen inlines ok
    refine ⟨callee, code, w', word, isOpen', copied, ?_⟩
    intro current l b e code' earlier idle since word'
    have built := earlier.built builtIn_portable idle
    have start := built.idle.follows
    have follows := since.follows start
    obtain ⟨callers, kept⟩ := word'.of_follows start follows
    obtain rfl := Option.some.inj (kept.found.symm.trans word.found)
    obtain rfl := EntryKind.compiled.inj (kept.kind.symm.trans word.kind)
    have isSealed := WordInvariant.words (sealed_invariant b.settings) built rfl id e code'
      word'.found word'.kind
    have after := follows.after op
    rw [Compiler.after, stateAfter_of_ok ok] at after
    exact ⟨rfl, (isSealed.publishedBody_eq after).symm⟩
  · intro e code reachable found kind inlinable name why c' refused
    obtain ⟨b, offering⟩ := reachable.offering
    have copyable := offering.offered id e found code kind inlinable
    rcases inlines_cases isOpen inlines with ⟨e1, c1, failed, other⟩ | ⟨heap1, -, same⟩
    · cases refused.symm.trans failed
      exact other name why rfl
    · rcases copying_cases id { c with heap := heap1 } with
        ⟨e1, c1, failed, other | ⟨callee, found1, never⟩⟩ | ⟨_, _, _, _, _, c1, done, -⟩
      · cases refused.symm.trans (same.trans failed)
        exact other name why rfl
      · obtain rfl := Option.some.inj (found.symm.trans found1)
        exact never code kind copyable
      · cases refused.symm.trans (same.trans done)

/-- A word that doubles a number is copied after a local was saved. -/
theorem inlining_safe_for_doubling :
    ∃ l l' b c w c' e callee code w', Run True (fun v _ => Portable v) [] l b ∧
      b.definition = none ∧ b.HasWord 29 e code ∧ Run True (fun v _ => Portable v) [] l' c ∧
      b.Since c ∧ c.definition = some w ∧ c.inlines? w (.word "double") = some 29 ∧
      (Operation.word "double").run c = .ok () c' ∧ c'.heap.here = c.heap.here + 3 ∧
      c.Copied c' w w' callee code ∧ b.publishedBody code = c'.publishedBody code ∧
      code.inlinable = true ∧
      ∀ name why c', (Operation.word "double").run c ≠ .error (.notInlinable name why) c' := by
  let ops : List Operation := [.beginWord "double" { inputs := 1, outputs := 1 }, .word "dup",
    .word "+", .endWord]
  let more : List Operation := [.beginWord "f" { inputs := 2, outputs := 1 }, .setLocal "a"]
  let b (b0 : Compiler) := (played ops (fun _ => []) b0).2
  let c (b0 : Compiler) := (played more (played ops (fun _ => []) b0).1 (b b0)).2
  have state : (create {} {}).toOption.bind (fun b0 => ((b b0).finished? 29).bind fun y =>
      (c b0).definition.bind fun w =>
        (success? (Operation.word "double").run (c b0)).map fun done =>
        (succeeds ops b0 && succeeds more (b b0) && (b b0).definition.isNone, y.2.inlinable,
          (c b0).inlines? w (.word "double"), (c b0).heap.here, done.2.heap.here)) =
      some (true, true, some 29, 165, 168) := by
    decide +kernel
  obtain ⟨b0, created, state⟩ := toOption_bind.1 state
  obtain ⟨e, code, word, state⟩ := finished?_bind.1 state
  obtain ⟨w, isOpen, state⟩ := Option.bind_eq_some_iff.1 state
  obtain ⟨⟨⟩, c', done, state⟩ := success?_map.1 state
  simp only [Prod.mk.injEq, Bool.and_eq_true, Option.isNone_iff_eq_none] at state
  obtain ⟨⟨⟨first, second⟩, idle⟩, inlinable, inlines, here, here'⟩ := state
  have obeys : ∀ op ∈ ops ++ more, op.Obeys fun v _ => Portable v := by
    simp only [ops, more, List.cons_append, List.nil_append, List.forall_mem_cons, Operation.Obeys]
    simp
  have run : Run True (fun v _ => Portable v) [] _ (b b0) :=
    Run.of_create created ops
      (fun op member => obeys op (List.mem_append_left _ member)) fun _ => first
  have run' :=
    run.steps more (fun op member => obeys op (List.mem_append_right _ member)) fun _ => second
  have since : (b b0).Since (c b0) := Since.start.steps more
  obtain ⟨callee, code', w', word', isOpen', copied, fixed⟩ :=
    (inlining_safe isOpen inlines).1 run' done
  obtain ⟨rfl, published⟩ := fixed run idle since word
  refine ⟨_, _, b b0, c b0, w, c', e, callee, code, w', run, idle, word, run', since,
    isOpen, inlines, done, by omega, copied, published, inlinable, ?_⟩
  exact (inlining_safe isOpen inlines).2 run'.reachable word'.found word'.kind inlinable

/-- After a snapshot from inside a definition was restored, the range of its word can hold a branch
of what was defined next, which is copied with the rest. -/
theorem stale_branch_copied :
    ∃ b, create {} {} = .ok b ∧
      let c := (b.overwritten 1 drops branching).after
        (.beginWord "z" { inputs := 0, outputs := 1 })
      ∃ w c' reg words, c.definition = some w ∧ c.inlines? w (.inlineCall 29) = some 29 ∧
        (Operation.inlineCall 29).run c = .ok () c' ∧
        c'.heap.word? (c.heap.here + 3) = some (Instruction.branchZero reg words).encode ∧
        ∀ w' callee code, ¬c.Copied c' w w' callee code := by
  let c (b : Compiler) := (b.overwritten 1 drops branching).after
    (.beginWord "z" { inputs := 0, outputs := 1 })
  have state : (create {} {}).toOption.bind (fun b => (c b).definition.bind fun w =>
      (success? (Operation.inlineCall 29).run (c b)).map fun done =>
        done.2.heap.word? ((c b).heap.here + 3)) =
      some (some (Instruction.branchZero ⟨0⟩ 3).encode) := by
    decide +kernel
  obtain ⟨b, created, state⟩ := toOption_bind.1 state
  obtain ⟨w, isOpen, state⟩ := Option.bind_eq_some_iff.1 state
  obtain ⟨⟨⟩, c', done, branch⟩ := success?_map.1 state
  refine ⟨b, created, w, c', ⟨0⟩, 3, isOpen, rfl, done, branch, fun w' callee code copied => ?_⟩
  obtain ⟨saved, appended⟩ := copied.appended
  replace branch : c'.heap.staged.toList[(c b).heap.staged.toList.length + 3]? =
      some (Instruction.branchZero ⟨0⟩ 3).encode := by
    rw [Array.getElem?_toList, Array.length_toList]
    exact branch
  rw [appended, List.append_assoc, List.getElem?_append_right (Nat.le_add_right _ _)] at branch
  rcases List.mem_append.1 (List.mem_of_getElem? branch) with isPlaceholder | isBody
  · have same := List.eq_of_mem_replicate isPlaceholder
    exact absurd same (by decide)
  · have still := (copied.portable _ isBody).1.1
    rw [Instruction.isPcRelative_encode] at still
    cases still

end Compiler

end ForthJit
