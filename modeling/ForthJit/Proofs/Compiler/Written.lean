import ForthJit.Proofs.Compiler.Made
import ForthJit.Proofs.Compiler.Trace

/-!
# How a finished word came about

`Compiler.Written` holds together what is known of a finished word in a traced run: the definition
that it was, the deeds by which its body was carried out, and how it ended.  What has to be shown of
finished words is shown of the deeds, and gets to the finished word by `Ended.kept` and
`Ended.resolved`.
-/

namespace ForthJit

theorem Draft.Logged.body_le {d : Draft} {raw : InstrWord → Prop} {extra : Slots}
    (logged : d.Logged raw extra) : d.word.body ≤ d.heap.here := by
  have last : (d.word.start + 2, Placeholder.prologue) ∈ d.word.slots ++ extra := by
    simp [Definition.slots, Definition.prologue, prologueSlots]
  have bound : d.word.start + 2 < d.heap.here := logged.lt_size (List.mem_map_of_mem last)
  exact bound

namespace Compiler

variable {raw : InstrWord → RegSet → Prop} {b c c0 c' : Compiler} {w : Definition} {id : EntryId}
  {body : Body}

/-- A word calls itself by its own entry. -/
theorem Performed.recursion (start : b.Follows b) {name : String} {signature : Signature}
    (begun : beginWord name signature b = .ok id c0) (performed : Performed raw c0 body c) :
    ∀ event ∈ body.events, event.op = .recurse → event.callee = some b.dictionary.size := by
  induction performed with
  | start | primitive _ _ _ _ => exact fun _ member => absurd member List.not_mem_nil
  | @step _ c _ w op performed isOpen _ _ _ ih =>
    intro event member recurses
    rcases List.mem_append.1 member with old | new
    · exact ih event old recurses
    · rw [List.mem_singleton.1 new] at recurses ⊢
      obtain rfl : op = .recurse := recurses
      exact congrArg some ((performed.worked.opened start begun).entry_eq isOpen)

/-- Where the words of an operation are. -/
theorem Performed.within (performed : Performed raw c0 body c)
    (start : ∀ w, c0.definition = some w → Draft.Logged ⟨c0.heap, w⟩ (fun _ => True) [])
    (isOpen : c.definition = some w) :
    ∀ event ∈ body.events, w.body ≤ event.start ∧ event.stop ≤ c.heap.here := by
  induction performed generalizing w with
  | start | primitive _ _ _ _ => exact fun _ member => absurd member List.not_mem_nil
  | @step _ c c' w0 op performed isOpen0 inBody obeys ok ih =>
    obtain ⟨_, -, acted⟩ := performed.acted
    have logged := acted.logged start
    obtain ⟨more, -, since⟩ := Acted.start.operation isOpen0 inBody obeys ok
    have advance := since.advances logged isOpen0 isOpen
    have grown : c.heap.here ≤ c'.heap.here := advance.staged.size_le
    have body : w.body = w0.body := congrArg (· + prologueSlots) advance.word.start
    intro event member
    rcases List.mem_append.1 member with old | new
    · obtain ⟨low, high⟩ := ih isOpen0 event old
      exact ⟨body ▸ low, Nat.le_trans high grown⟩
    · rw [List.mem_singleton.1 new, Compiler.event, Compiler.after, stateAfter_of_ok ok, body]
      exact ⟨(logged w0 isOpen0).body_le, Nat.le_refl _⟩

/-! ## The end of a definition -/

namespace Ended

variable {p : LayoutParts} {laid : Laid} {d : Draft} {code : CompiledWord} {e e' : Entry} {i : Nat}

theorem word?_eq (ended : Ended b c w c' p laid d code e e') (i : Nat) :
    c'.heap.word? i = d.heap.word? i := by
  rw [CodeHeap.word?, ended.staged]
  rfl

/-- What is final in the body stands in the word. -/
theorem kept (ended : Ended b c w c' p laid d code e e')
    (logged : Draft.Logged ⟨c.heap, w⟩ (fun _ => True) []) {v : InstrWord}
    (at_i : c.heap.word? i = some v) (final : Final v) : c'.heap.word? i = some v := by
  rw [ended.word?_eq]
  exact ended.laidOut.kept logged at_i final

/-- What is patched stands in the word. -/
theorem resolved (ended : Ended b c w c' p laid d code e e')
    (logged : Draft.Logged ⟨c.heap, w⟩ (fun _ => True) []) {k : Instruction}
    (member : (i, k) ∈ p.pending) : c'.heap.word? i = some k.encode := by
  rw [ended.word?_eq]
  exact ended.laidOut.patched logged
    (List.mem_append_left _ (List.mem_append_right _ member))

end Ended

/-- In `c'` the word `id` has just ended.  Its definition `w` was begun in `b` as `c0` and carried
out by `deeds`; `c` is the compiler in which it ended. -/
structure Written (raw : InstrWord → RegSet → Prop) (id : EntryId) (body : Body) (b c0 c : Compiler)
    (w : Definition) (c' : Compiler) (p : LayoutParts) (laid : Laid) (d : Draft)
    (code : CompiledWord) (e e' : Entry) (deeds : List Deed) : Prop where
  built : ∃ l, Built True raw l b
  size : b.dictionary.size = id
  begun : ∃ name signature id, beginWord name signature b = .ok id c0
  performed : Performed raw c0 body c
  isOpen : c.definition = some w
  continues : b.Continues c'
  ended : Ended b c w c' p laid d code e e'
  done : body.Done deeds
  acted : Acted (·.Obeys raw) c0 deeds c

theorem Wrote.written (wrote : Wrote raw id body c') :
    ∃ b c0 c w p laid d code e e' deeds,
      Written raw id body b c0 c w c' p laid d code e e' deeds := by
  obtain @⟨_, _, _, _, _, w, _, _, _, _, built, size, begun, performed, isOpen, finished⟩ := wrote
  have worked := performed.worked
  have opened := worked.opened built.idle.follows begun
  obtain ⟨p, laid, d, code, e, e', ended⟩ := finishWord_ended opened isOpen finished
  obtain ⟨deeds, done, acted⟩ := performed.acted
  have follows := opened.follows.finishWord isOpen
  have frame :=
    (sameFrame_session _).finishWord (worked.sameFrame (sameFrame_of_begun begun)) isOpen
  rw [stateAfter_of_ok finished] at follows frame
  exact ⟨_, _, _, _, _, _, _, _, _, _, _, ⟨_, built⟩, size, ⟨_, _, _, begun⟩, performed, isOpen,
    ⟨follows, frame⟩, ended, done, acted⟩

namespace Written

variable {p : LayoutParts} {laid : Laid} {d : Draft} {code : CompiledWord} {e e' : Entry}
  {deeds : List Deed}

variable (written : Written raw id body b c0 c w c' p laid d code e e' deeds)

include written

theorem start :
    b.Follows b := by
  obtain ⟨l, built⟩ := written.built
  exact built.idle.follows

theorem opened :
    b.Opened c := by
  obtain ⟨name, signature, id, begun⟩ := written.begun
  exact written.acted.worked.opened written.start begun

theorem logged_begun :
    ∀ w, c0.definition = some w → Draft.Logged ⟨c0.heap, w⟩ (fun _ => True) [] := by
  obtain ⟨name, signature, id, begun⟩ := written.begun
  obtain ⟨w0, isOpen0, logged⟩ := logged_of_begun begun
  intro w isOpen
  obtain rfl := Option.some.inj (isOpen0.symm.trans isOpen)
  exact logged

theorem logged :
    Draft.Logged ⟨c.heap, w⟩ (fun _ => True) [] :=
  written.acted.logged written.logged_begun w written.isOpen

theorem addressable :
    d.heap.here < 2 ^ 63 := by
  obtain ⟨l, built⟩ := written.built
  exact built.addressable written.continues.follows written.ended

theorem sound :
    ∃ called, Draft.Sound (b.sources raw called) ⟨c.heap, w⟩ := by
  obtain ⟨l, built⟩ := written.built
  obtain ⟨name, signature, id, begun⟩ := written.begun
  obtain ⟨called, sound, -⟩ := written.acted.worked.sound written.start
    (Made.copyable built.made built.idle.clean) begun written.isOpen
  exact ⟨called, sound⟩

theorem signed :
    e'.inputs = w.signature.inputs ∧ e'.outputs = w.signature.outputs := by
  obtain ⟨name, signature, id, begun⟩ := written.begun
  obtain ⟨same, declared⟩ := written.acted.worked.signed written.start begun written.isOpen
  obtain ⟨inputs, outputs⟩ := declared e written.ended.before
  rw [same, written.ended.inputs, written.ended.outputs]
  exact ⟨inputs, outputs⟩

theorem settings :
    c'.settings = c.settings := by
  obtain ⟨name, signature, id, begun⟩ := written.begun
  have frame := written.acted.worked.sameFrame (sameFrame_of_begun begun)
  exact written.continues.frame.1.trans frame.1.symm

end Written

end Compiler

end ForthJit
