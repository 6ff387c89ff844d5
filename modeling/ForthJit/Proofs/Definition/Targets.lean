import ForthJit.Proofs.Definition.Resolution

/-!
# Patches reach their targets

A pending patch becomes instructions at known positions, each of a known form, whose distance leads
to a known target: its aims.  Resolution fails exactly if the distance of some aim does not fit its
field.  Otherwise it meets the aims of all patches, one after the other.
-/

namespace ForthJit

/-- An instruction of this form at `index` is to lead to `target`. -/
structure Aim where
  index : Nat
  {width : Nat}
  form : BitVec width → Instruction
  target : Nat

namespace Aim

/-- The difference of the positions, as a number of 64 bits with a sign. -/
def words (aim : Aim) : Int := ((aim.target : Int) - aim.index).bmod (2 ^ 64)

/-- The difference is in the range of a signed field of the form's width. -/
def Fits (aim : Aim) : Prop :=
  -2 ^ (aim.width - 1) ≤ aim.words ∧ aim.words < 2 ^ (aim.width - 1)

/-- The patch is at the position of the aim, and what its word decodes to leads to the target, in
the 64 bits of a position. -/
def Met (aim : Aim) (patch : Nat × Instruction) : Prop :=
  patch.1 = aim.index ∧ ∃ words, Instruction.decode? patch.2.encode = some (aim.form words) ∧
    BitVec.ofNat 64 aim.index + words.signExtend 64 = BitVec.ofNat 64 aim.target

/-- All aims fit and are met in order, or one of them does not fit. -/
def Outcome (aims : List Aim) : Except EncodeError (List (Nat × Instruction)) → Prop
  | .ok out => (∀ aim ∈ aims, aim.Fits) ∧ List.Forall₂ Met aims out
  | .error _ => ∃ aim ∈ aims, ¬aim.Fits

variable (aim : Aim) {aims : List Aim} {more : Except EncodeError (List (Nat × Instruction))}

theorem fits_iff : aim.Fits ↔ -2 ^ (aim.width - 1) ≤ distance aim.index aim.target ∧
    distance aim.index aim.target < 2 ^ (aim.width - 1) := by
  rw [Fits, words, distance_eq_bmod]

theorem met_of_toInt {words : BitVec aim.width}
    (exact : words.toInt = distance aim.index aim.target) :
    aim.Met (aim.index, aim.form words) := by
  refine ⟨rfl, words, Instruction.decode?_eq_some.2 rfl, ?_⟩
  rw [BitVec.signExtend, exact, distance, BitVec.ofInt_toInt, add_sub_cancel]

theorem Outcome.met {aim : Aim} {patch : Nat × Instruction} (fits : aim.Fits) (met : aim.Met patch)
    (others : Outcome aims more) : Outcome (aim :: aims) ((patch :: ·) <$> more) := by
  cases more with
  | error e =>
    obtain ⟨other, member, outside⟩ := others
    exact ⟨other, List.mem_cons_of_mem _ member, outside⟩
  | ok out => exact ⟨List.forall_mem_cons.2 ⟨fits, others.1⟩, .cons met others.2⟩

/-- The instruction of the first aim is assembled before the others. -/
theorem Outcome.assembled {field : String}
    {rest : Instruction → Except EncodeError (List (Nat × Instruction))}
    (positive : 0 < aim.width) (others : Outcome aims more)
    (onward : ∀ j, rest j = ((aim.index, j) :: ·) <$> more) :
    Outcome (aim :: aims)
      ((Field.signed field aim.width (distance aim.index aim.target)).map aim.form >>= rest) := by
  cases checked : Field.signed field aim.width (distance aim.index aim.target) with
  | ok words =>
    have fits : aim.Fits := by
      by_contra outside
      rw [fits_iff] at outside
      simp [Field.signed, Nat.one_shiftLeft, outside] at checked
    have met := aim.met_of_toInt (Field.signed_ok positive checked)
    change Outcome (aim :: aims) (rest (aim.form words))
    exact onward _ ▸ others.met fits met
  | error e =>
    refine ⟨aim, List.mem_cons_self, fun fits => ?_⟩
    simp_all [Field.signed, fits_iff, Nat.one_shiftLeft]

end Aim

namespace PendingPatch

/-- The aims of a pending patch; `k` literals come before it. -/
def aims (t : PatchTargets) (k : Nat) : PendingPatch → List Aim
  | .exit i => [⟨i, .branch, t.epilogue⟩]
  | .error i reg => [⟨i, .branchNonzero reg, errorTarget t reg⟩]
  | .recursion i check => [⟨i, .branchLink, t.entry⟩,
      if t.checkRecursion then ⟨check, .branchNonzero t.errorReg, t.errorPath⟩
      else ⟨check, fun _ : BitVec 0 => .nop, check⟩]
  | .literal i reg _ => [⟨i, .loadLiteral reg, t.literals + 2 * k⟩]

/-- The aims of pending patches that come after `before`, in order. -/
def aimsAfter (t : PatchTargets) (before : List PendingPatch) : List PendingPatch → List Aim
  | [] => []
  | p :: patches => p.aims t (literals before).length ++ aimsAfter t (before ++ [p]) patches

variable {t : PatchTargets}

theorem resolveFrom_outcome (before patches : List PendingPatch) :
    Aim.Outcome (aimsAfter t before patches) (resolveFrom t (literals before).length patches) := by
  induction patches generalizing before with
  | nil => exact ⟨List.forall_mem_nil _, .nil⟩
  | cons p patches ih =>
    have others := ih (before ++ [p])
    rw [literals, List.filterMap_append, List.length_append] at others
    cases p with
    | exit i => exact .assembled ⟨i, .branch, t.epilogue⟩ (Nat.succ_pos _) others fun j => rfl
    | error i reg =>
      exact .assembled ⟨i, .branchNonzero reg, _⟩ (Nat.succ_pos _) others fun j => rfl
    | literal i reg value =>
      exact .assembled ⟨i, .loadLiteral reg, _⟩ (Nat.succ_pos _) others fun j => rfl
    | recursion i check =>
      have onward : ∀ (m : Except EncodeError Instruction)
          (r : Except EncodeError (List (Nat × Instruction))) (j : Instruction),
          (m >>= fun k => (fun out => (i, j) :: (check, k) :: out) <$> r) =
            ((i, j) :: ·) <$> (m >>= fun k => ((check, k) :: ·) <$> r) := by
        intro m r j
        cases m <;> cases r <;> rfl
      simp only [aimsAfter, aims, resolveFrom]
      cases t.checkRecursion with
      | true =>
        exact .assembled ⟨i, .branchLink, t.entry⟩ (Nat.succ_pos _) (.assembled
          ⟨check, .branchNonzero t.errorReg, t.errorPath⟩ (Nat.succ_pos _) others fun k => rfl)
          fun j => onward _ _ j
      | false =>
        have stays : Aim.Met ⟨check, fun _ : BitVec 0 => .nop, check⟩ (check, .nop) :=
          Aim.met_of_toInt ⟨check, fun _ : BitVec 0 => .nop, check⟩
            (show (0#0).toInt = distance check check by simp [distance])
        exact .assembled ⟨i, .branchLink, t.entry⟩ (Nat.succ_pos _)
          (.met (by simp [Aim.Fits, Aim.words]) stays others) fun j => onward (.ok .nop) _ j

theorem errorTarget_mem {reg : Reg} (other : reg ≠ t.errorReg) (listed : reg ∈ t.stubs.map (·.1)) :
    (reg, errorTarget t reg) ∈ t.stubs := by
  rw [errorTarget, if_neg other]
  cases found : t.stubs.lookup reg with
  | none =>
    obtain ⟨entry, member, rfl⟩ := List.mem_map.1 listed
    exact absurd (List.lookup_eq_none_iff.1 found _ member) (by simp)
  | some stub =>
    obtain ⟨front, back, split, -⟩ := List.lookup_eq_some_iff.1 found
    exact split ▸ List.mem_append_right _ List.mem_cons_self

/-- Resolution meets all aims in order unless some distance does not fit, and drops every pending
patch either way.  Between positions that can be addressed the distance is their difference.  A
literal is loaded from its own place among the literals, an error in the error register leaves to
the error path, one in another register to a stub of that register if all that need one have one,
and these are listed once each. -/
theorem patches_reach_targets (t : PatchTargets) (patches : List PendingPatch) :
    (∀ out rest, resolve t patches = .ok out rest →
      List.Forall₂ Aim.Met (aimsAfter t [] patches) out) ∧
    ((∃ e rest, resolve t patches = .error e rest) ↔ ∃ aim ∈ aimsAfter t [] patches, ¬aim.Fits) ∧
    (∀ aim : Aim, aim.index < 2 ^ 63 → aim.target < 2 ^ 63 →
      (aim.Fits ↔ -2 ^ (aim.width - 1) ≤ (aim.target : Int) - aim.index ∧
        (aim.target : Int) - aim.index < 2 ^ (aim.width - 1))) ∧
    stateAfter (resolve t) patches = [] ∧
    (∀ before i reg value after, patches = before ++ .literal i reg value :: after →
      (literals patches)[(literals before).length]? = some value) ∧
    errorTarget t t.errorReg = t.errorPath ∧
    ((∀ reg ∈ stubRegisters t.errorReg patches, reg ∈ t.stubs.map (·.1)) →
      ∀ i reg, .error i reg ∈ patches → reg ≠ t.errorReg → (reg, errorTarget t reg) ∈ t.stubs) ∧
    ∀ errorReg, (stubRegisters errorReg patches).Nodup ∧ ∀ reg,
      reg ∈ stubRegisters errorReg patches ↔ reg ≠ errorReg ∧ ∃ i, .error i reg ∈ patches := by
  have outcome : Aim.Outcome (aimsAfter t [] patches) (resolveFrom t 0 patches) :=
    resolveFrom_outcome [] patches
  refine ⟨?_, ?_, fun aim low high => by rw [aim.fits_iff, distance_eq low high], ?_, ?_,
    if_pos rfl, ?_, fun errorReg => ⟨nodup_stubRegisters, fun reg => mem_stubRegisters⟩⟩
  · intro out rest resolved
    rw [resolve] at resolved
    split at resolved <;> cases resolved
    next ok => exact (ok ▸ outcome).2
  · rw [resolve]
    cases resolved : resolveFrom t 0 patches with
    | ok out => simpa [resolved] using (resolved ▸ outcome).1
    | error e =>
      rw [resolved] at outcome
      exact ⟨fun _ => outcome, fun _ => ⟨e, [], rfl⟩⟩
  · rw [stateAfter, resolve]
    cases resolveFrom t 0 patches <;> rfl
  · rintro before i reg value after rfl
    simp [literals]
  · intro covered i reg pending other
    exact errorTarget_mem other (covered reg (mem_stubRegisters.2 ⟨other, i, pending⟩))

/-- A literal before and one after the other kinds of patches. -/
theorem targets_reached_among_literals :
    let t : PatchTargets := ⟨100, 140, 141, .ofNat 1, [(.ofNat 3, 150)], 152, true⟩
    let patches := [.literal 105 (.ofNat 0) 5, .exit 106, .error 110 (.ofNat 1),
      .error 111 (.ofNat 3), .recursion 130 131, .literal 132 .scratch 7]
    (∃ out rest, resolve t patches = .ok out rest ∧
      List.Forall₂ Aim.Met (aimsAfter t [] patches) out) ∧
      (literals patches)[1]? = some 7 ∧ (.ofNat 3, errorTarget t (.ofNat 3)) ∈ t.stubs := by
  intro t patches
  obtain ⟨met, -, -, -, loaded, -, stubs, -⟩ := patches_reach_targets t patches
  have resolved : (success? (resolve t) patches).isSome = true := by decide +kernel
  obtain ⟨⟨out, rest⟩, resolved⟩ := Option.isSome_iff_exists.1 resolved
  have resolved := success?_eq_some.1 resolved
  exact ⟨⟨out, rest, resolved, met out rest resolved⟩, loaded (patches.take 5) _ _ _ [] rfl,
    stubs (by decide) 111 (.ofNat 3) (by decide) (by decide)⟩

end PendingPatch

end ForthJit
