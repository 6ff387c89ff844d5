import ForthJit.Proofs.Definition.Ledger

/-!
# How an open definition grows

Compiling more of a body only adds to what is known about a definition: pending patches, reads and
writes of locals, overwritten registers.  `Definition.Advances` is this order.  That a read confirms
every write before it is part of it.
-/

namespace ForthJit

/-- `l'` is what `l` becomes when more is compiled. -/
structure Local.Advances (l l' : Local) : Prop where
  name : l'.name = l.name
  reads : l.reads <+: l'.reads
  confirmed : ∀ w ∈ l.confirmed, w ∈ l'.confirmed
  pending : ∀ w ∈ l.pending, w ∈ l'.pending ∨ w ∈ l'.confirmed
  /-- A read that has come since has confirmed the writes before it. -/
  read : l'.reads = l.reads ∨ ∀ w ∈ l.pending, w ∈ l'.confirmed

namespace Local.Advances

variable {l l' l'' : Local}

theorem refl (l : Local) : l.Advances l :=
  ⟨rfl, List.prefix_rfl, fun _ member => member, fun _ member => Or.inl member, Or.inl rfl⟩

theorem trans (first : l.Advances l') (second : l'.Advances l'') : l.Advances l'' := by
  refine ⟨second.name.trans first.name, first.reads.trans second.reads,
    fun w member => second.confirmed w (first.confirmed w member), fun w member => ?_, ?_⟩
  · rcases first.pending w member with still | confirmed
    · exact second.pending w still
    · exact Or.inr (second.confirmed w confirmed)
  · rcases first.read with same | confirmed
    · rcases second.read with same' | confirmed'
      · exact Or.inl (same'.trans same)
      · refine Or.inr fun w member => ?_
        rcases first.pending w member with still | confirmed
        · exact confirmed' w still
        · exact second.confirmed w confirmed
    · exact Or.inr fun w member => second.confirmed w (confirmed w member)

theorem assign (l : Local) (reg : Reg) : l.Advances (l.assign reg) :=
  ⟨rfl, List.prefix_rfl, fun _ member => member, fun _ member => Or.inl member, Or.inl rfl⟩

theorem leave (l : Local) : l.Advances { l with resident := none } :=
  ⟨rfl, List.prefix_rfl, fun _ member => member, fun _ member => Or.inl member, Or.inl rfl⟩

theorem spill (l : Local) (index : Nat) (source : Reg) : l.Advances (l.spill index source) :=
  ⟨rfl, List.prefix_rfl, fun _ member => member,
    fun _ member => Or.inl (List.mem_append_left _ member), Or.inl rfl⟩

theorem recordRead (l : Local) (index : Nat) (target : Reg) :
    l.Advances (l.recordRead index target) :=
  ⟨rfl, List.prefix_append _ _, fun _ member => List.mem_append_left _ member,
    fun _ member => Or.inr (List.mem_append_right _ member),
    Or.inr fun _ member => List.mem_append_right _ member⟩

end Local.Advances

/-- Locals keep their positions; new ones come after them. -/
def Locals.Advances (ls ls' : Locals) : Prop :=
  ∀ (i : Nat) l, ls[i]? = some l → ∃ l', ls'[i]? = some l' ∧ l.Advances l'

namespace Locals.Advances

variable {ls ls' ls'' : Locals}

theorem refl (ls : Locals) : ls.Advances ls := fun _ l found => ⟨l, found, .refl l⟩

theorem trans (first : ls.Advances ls') (second : ls'.Advances ls'') : ls.Advances ls'' := by
  intro i l found
  obtain ⟨l', found', advance⟩ := first i l found
  obtain ⟨l'', found'', advance'⟩ := second i l' found'
  exact ⟨l'', found'', advance.trans advance'⟩

theorem cons {l l' : Local} (head : l.Advances l') (tail : ls.Advances ls') :
    Locals.Advances (l :: ls) (l' :: ls') := by
  intro i k found
  cases i with
  | zero =>
    obtain rfl := Option.some.inj found
    exact ⟨l', rfl, head⟩
  | succ i => exact tail i k found

theorem append (ls : Locals) (more : Locals) : ls.Advances (ls ++ more) := by
  intro i l found
  obtain ⟨bound, -⟩ := List.getElem?_eq_some_iff.1 found
  exact ⟨l, by rw [List.getElem?_append_left bound]; exact found, .refl l⟩

theorem modify (ls : Locals) (id : Nat) {f : Local → Local} (each : ∀ l : Local, l.Advances (f l)) :
    ls.Advances (ls.modify id f) := by
  intro i l found
  rw [List.getElem?_modify, found]
  split
  · exact ⟨f l, rfl, each l⟩
  · exact ⟨l, rfl, .refl l⟩

theorem declare (ls : Locals) (name : String) : ls.Advances (ls.declare name).2 := by
  unfold Locals.declare
  split
  · exact refl ls
  · exact append ls _

theorem clobber (regs : RegSet) (position? : Nat → Option Nat) (count : Nat) (ls : Locals) :
    ls.Advances (Locals.clobber regs position? count ls).locals := by
  induction ls generalizing count with
  | nil => exact refl []
  | cons l rest ih =>
    unfold Locals.clobber
    split
    · exact cons (.refl l) (ih count)
    · split
      · exact refl _
      · exact cons (.spill l _ _) (ih (count + 1))
    · exact cons (.leave l) (ih count)

end Locals.Advances

/-- `w'` is what `w` becomes when more of its body is compiled. -/
structure Definition.Advances (w w' : Definition) : Prop where
  entry : w'.entry = w.entry
  signature : w'.signature = w.signature
  start : w'.start = w.start
  locals : w.locals.Advances w'.locals
  patches : w.patches <+: w'.patches
  clobbered : ∀ r, w.clobbered.contains r = true → w'.clobbered.contains r = true
  calls : w.leaf = false → w'.leaf = false
  pcRelative : w.pcRelative = true → w'.pcRelative = true
  hasBranches : w.hasBranches = true → w'.hasBranches = true
  earlyReturn : w.earlyReturn = true → w'.earlyReturn = true

namespace Definition.Advances

variable {w w' w'' : Definition}

theorem refl (w : Definition) : w.Advances w :=
  ⟨rfl, rfl, rfl, .refl _, List.prefix_rfl, fun _ => id, id, id, id, id⟩

theorem trans (first : w.Advances w') (second : w'.Advances w'') : w.Advances w'' :=
  ⟨second.entry.trans first.entry, second.signature.trans first.signature,
    second.start.trans first.start, first.locals.trans second.locals,
    first.patches.trans second.patches,
    fun r member => second.clobbered r (first.clobbered r member),
    second.calls ∘ first.calls, second.pcRelative ∘ first.pcRelative,
    second.hasBranches ∘ first.hasBranches, second.earlyReturn ∘ first.earlyReturn⟩

end Definition.Advances

end ForthJit
