import ForthJit.Proofs.Definition.Slots
import ForthJit.Proofs.Machine.Final

/-!
# Staged words and their ledger

`Ledger raw start staged slots` says that `slots` names the placeholders among the words from
`start` on, each once, and that all other words are final or `raw`.  `Settles kinds staged staged'`
says what may happen to words once they are staged: a word stays, except that a placeholder of one
of `kinds` may become a final word.  `Fate` says the same of one position over time.
-/

namespace ForthJit

variable {i : Nat} {w : InstrWord}

variable {raw : InstrWord → Prop} {start : Nat} {staged staged' staged'' : Array InstrWord}
  {slots slots' : Slots}

/-- `slots` are the placeholders among the words from `start` on, other than those that are
`raw`. -/
structure Ledger (raw : InstrWord → Prop) (start : Nat) (staged : Array InstrWord) (slots : Slots) :
    Prop where
  base : start ≤ staged.size
  once : (slots.map (·.1)).Nodup
  held : ∀ slot ∈ slots, start ≤ slot.1 ∧ staged[slot.1]? = some slot.2.word
  final : ∀ i w, start ≤ i → staged[i]? = some w → i ∉ slots.map (·.1) → Final w ∨ raw w

/-- Words once staged stay, except that placeholders of `kinds` become final. -/
def Settles (kinds : Placeholder → Prop) (staged staged' : Array InstrWord) : Prop :=
  ∀ (i : Nat) w, staged[i]? = some w →
    staged'[i]? = some w ∨ ∃ p v, kinds p ∧ w = p.word ∧ staged'[i]? = some v ∧ Final v

namespace Settles

variable {kinds : Placeholder → Prop}

theorem refl (staged : Array InstrWord) : Settles kinds staged staged :=
  fun _ _ at_i => Or.inl at_i

/-- A final word that was staged is there for good. -/
theorem kept (settles : Settles kinds staged staged')
    (at_i : staged[i]? = some w) (final : Final w) : staged'[i]? = some w := by
  rcases settles i w at_i with same | ⟨p, v, -, rfl, -⟩
  · exact same
  · exact absurd final p.not_final

theorem trans (first : Settles kinds staged staged') (second : Settles kinds staged' staged'') :
    Settles kinds staged staged'' := by
  intro i w at_i
  rcases first i w at_i with same | ⟨p, v, kind, placeholder, changed, final⟩
  · exact second i w same
  · exact Or.inr ⟨p, v, kind, placeholder, second.kept changed final, final⟩

theorem weaken {kinds' : Placeholder → Prop} (settles : Settles kinds staged staged')
    (more : ∀ p, kinds p → kinds' p) : Settles kinds' staged staged' := by
  intro i w at_i
  rcases settles i w at_i with same | ⟨p, v, kind, rest⟩
  · exact Or.inl same
  · exact Or.inr ⟨p, v, more p kind, rest⟩

theorem append (staged : Array InstrWord) (more : Array InstrWord) :
    Settles kinds staged (staged ++ more) := by
  intro i w at_i
  left
  obtain ⟨bound, -⟩ := Array.getElem?_eq_some_iff.1 at_i
  rw [Array.getElem?_append_left bound]
  exact at_i

/-- Words beyond those that change do not matter. -/
theorem append_right (settles : Settles kinds staged staged')
    (size : staged'.size = staged.size) (rest : Array InstrWord) :
    Settles kinds (staged ++ rest) (staged' ++ rest) := by
  intro i w at_i
  rw [Array.getElem?_append] at at_i ⊢
  rw [size]
  split
  · next inside =>
    rw [if_pos inside] at at_i
    exact settles i w at_i
  · next outside =>
    rw [if_neg outside] at at_i
    exact Or.inl at_i

theorem size_le (settles : Settles kinds staged staged') : staged.size ≤ staged'.size := by
  by_contra shorter
  obtain ⟨i, bound⟩ : ∃ i, i + 1 = staged.size := ⟨staged.size - 1, by omega⟩
  have present : staged[i]? = some staged[i] := Array.getElem?_eq_getElem (by omega)
  have absent : staged'[i]? = none := Array.getElem?_eq_none (by omega)
  rcases settles i _ present with same | ⟨-, v, -, -, changed, -⟩
  · rw [absent] at same
    cases same
  · rw [absent] at changed
    cases changed

end Settles

theorem push_append_toArray (staged : Array InstrWord) (w : InstrWord) (ws : List InstrWord) :
    staged.push w ++ ws.toArray = staged ++ (w :: ws).toArray := by
  simp

namespace Ledger

variable (ledger : Ledger raw start staged slots)

include ledger

theorem perm (perm : slots.Perm slots') :
    Ledger raw start staged slots' := by
  have indices : (slots.map (·.1)).Perm (slots'.map (·.1)) := perm.map _
  exact ⟨ledger.base, indices.nodup_iff.1 ledger.once,
    fun slot member => ledger.held slot (perm.mem_iff.2 member),
    fun i w low at_i absent => ledger.final i w low at_i fun member =>
      absent (indices.mem_iff.1 member)⟩

theorem lt_size (member : i ∈ slots.map (·.1)) :
    i < staged.size := by
  obtain ⟨slot, inSlots, rfl⟩ := List.mem_map.1 member
  obtain ⟨bound, -⟩ := Array.getElem?_eq_some_iff.1 (ledger.held slot inSlots).2
  exact bound

/-- A final word needs no record. -/
theorem push (final : Final w ∨ raw w) :
    Ledger raw start (staged.push w) slots := by
  refine ⟨?_, ledger.once, fun slot member => ?_, fun i v low at_i absent => ?_⟩
  · rw [Array.size_push]
    exact Nat.le_succ_of_le ledger.base
  · obtain ⟨low, holds⟩ := ledger.held slot member
    have bound := ledger.lt_size (List.mem_map_of_mem member)
    rw [Array.getElem?_push, if_neg (by omega)]
    exact ⟨low, holds⟩
  · rw [Array.getElem?_push] at at_i
    split at at_i
    · obtain rfl := Option.some.inj at_i
      exact final
    · exact ledger.final i v low at_i absent

/-- A placeholder that has just been staged has to be recorded. -/
theorem reserve (p : Placeholder) :
    Ledger raw start (staged.push p.word) ((staged.size, p) :: slots) := by
  have fresh : staged.size ∉ slots.map (·.1) := fun member =>
    absurd (ledger.lt_size member) (Nat.lt_irrefl _)
  refine ⟨?_, List.nodup_cons.2 ⟨fresh, ledger.once⟩, fun slot member => ?_,
    fun i w low at_i absent => ?_⟩
  · rw [Array.size_push]
    exact Nat.le_succ_of_le ledger.base
  · rcases List.mem_cons.1 member with rfl | old
    · exact ⟨ledger.base, by simp⟩
    · obtain ⟨low, holds⟩ := ledger.held slot old
      have bound := ledger.lt_size (List.mem_map_of_mem old)
      rw [Array.getElem?_push, if_neg (by omega)]
      exact ⟨low, holds⟩
  · simp only [List.map_cons, List.mem_cons, not_or] at absent
    rw [Array.getElem?_push, if_neg absent.1] at at_i
    exact ledger.final i w low at_i absent.2

theorem append {ws : List InstrWord}
    (final : ∀ w ∈ ws, Final w ∨ raw w) : Ledger raw start (staged ++ ws.toArray) slots := by
  induction ws generalizing staged with
  | nil => simpa using ledger
  | cons w ws ih =>
    have rest := ih (ledger.push (final w List.mem_cons_self)) fun v member =>
      final v (List.mem_cons_of_mem _ member)
    rwa [push_append_toArray] at rest

theorem reserveAll (p : Placeholder) (number : Nat) :
    Ledger raw start (staged ++ (List.replicate number p.word).toArray)
      (slots ++ (List.range' staged.size number).map (·, p)) := by
  induction number generalizing staged slots with
  | zero => simpa using ledger
  | succ number ih =>
    have rest := ih (ledger.reserve p)
    rw [Array.size_push, push_append_toArray] at rest
    rw [List.replicate_succ, List.range'_succ, List.map_cons]
    exact rest.perm List.perm_middle.symm

omit ledger

/-- A placeholder that is replaced by a final word leaves the ledger. -/
theorem fill {p : Placeholder} (ledger : Ledger raw start staged ((i, p) :: slots))
    (final : Final w) : Ledger raw start (staged.setIfInBounds i w) slots := by
  have bound : i < staged.size := ledger.lt_size List.mem_cons_self
  obtain ⟨fresh, once⟩ := List.nodup_cons.1 ledger.once
  refine ⟨?_, once, fun slot member => ?_, fun k v low at_k absent => ?_⟩
  · rw [Array.size_setIfInBounds]
    exact ledger.base
  · have other : i ≠ slot.1 := by
      rintro rfl
      exact fresh (List.mem_map.2 ⟨slot, member, rfl⟩)
    rw [Array.getElem?_setIfInBounds_ne other]
    exact ledger.held slot (List.mem_cons_of_mem _ member)
  · by_cases same : i = k
    · subst same
      rw [Array.getElem?_setIfInBounds_self_of_lt bound] at at_k
      obtain rfl := Option.some.inj at_k
      exact Or.inl final
    · rw [Array.getElem?_setIfInBounds_ne same] at at_k
      refine ledger.final k v low at_k fun member => ?_
      rcases List.mem_cons.1 member with eq | old
      · exact same eq.symm
      · exact absent old

theorem fill_settles {p : Placeholder} (ledger : Ledger raw start staged ((i, p) :: slots))
    (final : Final w) : Settles (· = p) staged (staged.setIfInBounds i w) := by
  have bound : i < staged.size := ledger.lt_size List.mem_cons_self
  have holds := (ledger.held (i, p) List.mem_cons_self).2
  intro k v at_k
  by_cases same : i = k
  · subst same
    obtain rfl := Option.some.inj (holds.symm.trans at_k)
    exact Or.inr ⟨p, w, rfl, rfl, Array.getElem?_setIfInBounds_self_of_lt bound, final⟩
  · rw [Array.getElem?_setIfInBounds_ne same]
    exact Or.inl at_k

end Ledger

/-! ## One patch after the other -/

/-- The staged words before the first of the patches and after each of them. -/
def moments (staged : Array InstrWord) : List (Nat × Instruction) → List (Array InstrWord)
  | [] => [staged]
  | patch :: patches => staged :: moments (staged.setIfInBounds patch.1 patch.2.encode) patches

theorem head?_moments (staged : Array InstrWord) (patches : List (Nat × Instruction)) :
    (moments staged patches).head? = some staged := by
  cases patches <;> rfl

theorem Ledger.fillAll (ledger : Ledger raw start staged slots) {patches : List (Nat × Instruction)}
    (indices : patches.map (·.1) = slots.map (·.1))
    (final : ∀ patch ∈ patches, Final patch.2.encode) (rest : Array InstrWord) :
    (moments (staged ++ rest) patches).IsChain (Settles fun _ => True) ∧
      ∃ staged', staged'.size = staged.size ∧ Ledger raw start staged' [] ∧
        (moments (staged ++ rest) patches).getLast? = some (staged' ++ rest) := by
  induction patches generalizing staged slots with
  | nil =>
    obtain rfl : slots = [] := List.map_eq_nil_iff.1 indices.symm
    exact ⟨List.isChain_singleton _, staged, rfl, ledger, rfl⟩
  | cons first patches ih =>
    obtain ⟨⟨i, p⟩, slots, rfl⟩ : ∃ slot others, slots = slot :: others := by
      cases slots with
      | nil => cases indices
      | cons slot others => exact ⟨slot, others, rfl⟩
    obtain ⟨same, others⟩ := List.cons_eq_cons.1 indices
    obtain rfl : first.1 = i := same
    have own := final first List.mem_cons_self
    have bound := ledger.lt_size List.mem_cons_self
    obtain ⟨chain, staged', size, empty, last⟩ := ih (ledger.fill own) others fun patch member =>
      final patch (List.mem_cons_of_mem _ member)
    rw [moments, Array.setIfInBounds_append_left bound]
    refine ⟨?_, staged', size.trans (Array.size_setIfInBounds ..), empty, ?_⟩
    · refine List.isChain_cons.2 ⟨fun next isNext => ?_, chain⟩
      rw [head?_moments] at isNext
      obtain rfl := Option.some.inj isNext
      exact ((ledger.fill_settles own).weaken fun _ _ => trivial).append_right
        (Array.size_setIfInBounds ..) rest
    · rw [List.getLast?_cons, last]
      rfl

/-- What is staged at one position, from moment to moment: a final word that stays, or a placeholder
that is replaced once, by a final word. -/
inductive Fate : List InstrWord → Prop
  | final {w : InstrWord} (n : Nat) : Final w → Fate (List.replicate (n + 1) w)
  | patched (p : Placeholder) {w : InstrWord} (m n : Nat) : Final w →
      Fate (List.replicate (m + 1) p.word ++ List.replicate (n + 1) w)

/-- A word that stays for another moment. -/
theorem Fate.stay {values : List InstrWord} (fate : Fate values)
    (head : values.head? = some w) : Fate (w :: values) := by
  cases fate with
  | final n final =>
    obtain rfl := Option.some.inj head
    exact .final (n + 1) final
  | patched p m n final =>
    obtain rfl := Option.some.inj head
    exact .patched p (m + 1) n final

/-- A placeholder that becomes final. -/
theorem Fate.settle {values : List InstrWord} (fate : Fate values) (head : values.head? = some w)
    (final : Final w) (p : Placeholder) : Fate (p.word :: values) := by
  cases fate with
  | final n _ =>
    obtain rfl := Option.some.inj head
    exact .patched p 0 n final
  | patched p' m n _ =>
    obtain rfl := Option.some.inj head
    exact absurd final p'.not_final

/-- A position that is final in the end was patched at most once. -/
theorem fate_of_chain {kinds : Placeholder → Prop} {history : List (Array InstrWord)}
    (chain : history.IsChain (Settles kinds)) {last : Array InstrWord}
    (isLast : history.getLast? = some last) (at_i : last[i]? = some w)
    (final : Final w) : Fate (history.filterMap (·[i]?)) := by
  induction history with
  | nil => cases isLast
  | cons staged later ih =>
    cases later with
    | nil =>
      obtain rfl : staged = last := Option.some.inj isLast
      rw [List.filterMap_cons, at_i]
      exact .final 0 final
    | cons next later =>
      obtain ⟨settles, chain⟩ := List.isChain_cons_cons.1 chain
      have fate := ih chain isLast
      cases before : staged[i]? with
      | none => rwa [List.filterMap_cons, before]
      | some v =>
        rw [List.filterMap_cons, before]
        have head : ∀ {u : InstrWord}, next[i]? = some u →
            ((next :: later).filterMap (·[i]?)).head? = some u := fun at_next => by
          rw [List.filterMap_cons, at_next]
          rfl
        rcases settles i v before with same | ⟨p, u, -, rfl, changed, settled⟩
        · exact fate.stay (head same)
        · exact fate.settle (head changed) settled p

end ForthJit
