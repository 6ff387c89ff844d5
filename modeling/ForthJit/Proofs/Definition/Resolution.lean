import ForthJit.Proofs.Definition.Slots
import ForthJit.Proofs.Machine.Flow

/-!
# What becomes of the ledger

When a definition ends, its pending patches are resolved against the final positions and its locals
against their homes.  Both go through a list from front to back; what the first element becomes, and
that the others are resolved after it, is said once (`resolveFrom_cons`).  From it follow that every
slot of the ledger gets one patch, which patches there can be, and which there are.
-/

namespace ForthJit

/-! ## Pending patches -/

namespace PendingPatch

/-- The patches `own` are those of one pending patch; `count` literals come before it. -/
inductive Settles (t : PatchTargets) (count : Nat) :
    PendingPatch → (own : List (Nat × Instruction)) → Prop
  | exit {i : Nat} {j : Instruction} : Asm.b (distance i t.epilogue) = .ok j →
      Settles t count (.exit i) [(i, j)]
  | error {i : Nat} {reg : Reg} {j : Instruction} :
      Asm.cbnz reg (distance i (errorTarget t reg)) = .ok j →
        Settles t count (.error i reg) [(i, j)]
  | checked {i check : Nat} {j k : Instruction} : Asm.bl (distance i t.entry) = .ok j →
      t.checkRecursion = true → Asm.cbnz t.errorReg (distance check t.errorPath) = .ok k →
      Settles t count (.recursion i check) [(i, j), (check, k)]
  | unchecked {i check : Nat} {j : Instruction} : Asm.bl (distance i t.entry) = .ok j →
      t.checkRecursion = false → Settles t count (.recursion i check) [(i, j), (check, .nop)]
  | literal {i : Nat} {reg : Reg} {value : Cell} {j : Instruction} :
      Asm.ldrLiteral reg (distance i (t.literals + 2 * count)) = .ok j →
      Settles t count (.literal i reg value) [(i, j)]

/-- What a pending patch puts at position `i`; `count` literals come before those of `patches`. -/
inductive Resolves (t : PatchTargets) (count : Nat) (patches : List PendingPatch) (i : Nat) :
    Instruction → Prop
  | exit {j : Instruction} : .exit i ∈ patches → Asm.b (distance i t.epilogue) = .ok j →
      Resolves t count patches i j
  | error {j : Instruction} {reg : Reg} : .error i reg ∈ patches →
      Asm.cbnz reg (distance i (errorTarget t reg)) = .ok j → Resolves t count patches i j
  | recursion {j : Instruction} {check : Nat} : .recursion i check ∈ patches →
      Asm.bl (distance i t.entry) = .ok j → Resolves t count patches i j
  | check {j : Instruction} {index : Nat} : .recursion index i ∈ patches →
      t.checkRecursion = true → Asm.cbnz t.errorReg (distance i t.errorPath) = .ok j →
      Resolves t count patches i j
  | unchecked {index : Nat} : .recursion index i ∈ patches → t.checkRecursion = false →
      Resolves t count patches i .nop
  | literal {j : Instruction} {reg : Reg} {value : Cell} {k : Nat} :
      .literal i reg value ∈ patches → (literals patches)[k]? = some value →
      Asm.ldrLiteral reg (distance i (t.literals + 2 * (count + k))) = .ok j →
      Resolves t count patches i j

/-- What `out` holds for a pending patch; `count` literals come before those of `patches`. -/
def Resolved (t : PatchTargets) (count : Nat) (patches : List PendingPatch)
    (out : List (Nat × Instruction)) : PendingPatch → Prop
  | .exit i => ∃ j, Asm.b (distance i t.epilogue) = .ok j ∧ (i, j) ∈ out
  | .error i reg => ∃ j, Asm.cbnz reg (distance i (errorTarget t reg)) = .ok j ∧ (i, j) ∈ out
  | .recursion i check => (∃ j, Asm.bl (distance i t.entry) = .ok j ∧ (i, j) ∈ out) ∧
      (t.checkRecursion = true →
        ∃ j, Asm.cbnz t.errorReg (distance check t.errorPath) = .ok j ∧ (check, j) ∈ out)
  | .literal i reg value => ∃ k j, (literals patches)[k]? = some value ∧
      Asm.ldrLiteral reg (distance i (t.literals + 2 * (count + k))) = .ok j ∧ (i, j) ∈ out

variable {t : PatchTargets} {count i : Nat} {p q : PendingPatch} {patches : List PendingPatch}
  {own out : List (Nat × Instruction)} {j : Instruction}

theorem resolveFrom_cons (resolved : resolveFrom t count (p :: patches) = .ok out) :
    ∃ own more, Settles t count p own ∧
      resolveFrom t (count + (literals [p]).length) patches = .ok more ∧ out = own ++ more := by
  cases p with
  | exit | error | literal =>
    obtain ⟨j, made, resolved⟩ := except_bind_eq_ok.1 resolved
    obtain ⟨more, others, resolved⟩ := except_bind_eq_ok.1 resolved
    cases resolved
    exact ⟨[_], more, by constructor; exact made, others, rfl⟩
  | recursion index check =>
    obtain ⟨j, called, resolved⟩ := except_bind_eq_ok.1 resolved
    dsimp only at resolved
    cases checks : t.checkRecursion
    all_goals
      rw [checks] at resolved
      obtain ⟨k, made, resolved⟩ := except_bind_eq_ok.1 resolved
      obtain ⟨more, others, resolved⟩ := except_bind_eq_ok.1 resolved
      cases resolved
    · cases made
      exact ⟨[_, _], more, .unchecked called checks, others, rfl⟩
    · exact ⟨[_, _], more, .checked called checks made, others, rfl⟩

/-- Every placeholder that has a pending patch is patched once. -/
theorem resolveFrom_indices (resolved : resolveFrom t count patches = .ok out) :
    out.map (·.1) = (patches.flatMap slots).map (·.1) := by
  induction patches generalizing count out with
  | nil =>
    cases resolved
    rfl
  | cons p rest ih =>
    obtain ⟨own, more, settles, others, rfl⟩ := resolveFrom_cons resolved
    have first : own.map (·.1) = p.slots.map (·.1) := by cases settles <;> rfl
    simp [first, ih others]

/-- The literals of a list come after that of a patch before it. -/
theorem getElem?_literals_cons (q : PendingPatch) (patches : List PendingPatch) (k : Nat) :
    (literals (q :: patches))[(literals [q]).length + k]? = (literals patches)[k]? := by
  have split : literals (q :: patches) = literals [q] ++ literals patches :=
    List.filterMap_append (l := [q])
  rw [split, List.getElem?_append_right (Nat.le_add_right _ _), Nat.add_sub_cancel_left]

theorem Settles.resolves (settles : Settles t count p own) (member : (i, j) ∈ own) :
    Resolves t count (p :: patches) i j := by
  cases settles with
  | exit made =>
    cases List.mem_singleton.1 member
    exact .exit List.mem_cons_self made
  | error made =>
    cases List.mem_singleton.1 member
    exact .error List.mem_cons_self made
  | checked called checks made =>
    rcases List.mem_pair.1 member with first | second
    · cases first
      exact .recursion List.mem_cons_self called
    · cases second
      exact .check List.mem_cons_self checks made
  | unchecked called unchecks =>
    rcases List.mem_pair.1 member with first | second
    · cases first
      exact .recursion List.mem_cons_self called
    · cases second
      exact .unchecked List.mem_cons_self unchecks
  | literal made =>
    cases List.mem_singleton.1 member
    exact .literal (k := 0) List.mem_cons_self rfl made

theorem Resolves.cons (resolves : Resolves t (count + (literals [q]).length) patches i j) :
    Resolves t count (q :: patches) i j := by
  cases resolves with
  | exit member made => exact .exit (List.mem_cons_of_mem _ member) made
  | error member made => exact .error (List.mem_cons_of_mem _ member) made
  | recursion member made => exact .recursion (List.mem_cons_of_mem _ member) made
  | check member checks made => exact .check (List.mem_cons_of_mem _ member) checks made
  | unchecked member unchecks => exact .unchecked (List.mem_cons_of_mem _ member) unchecks
  | literal member rank made =>
    refine .literal (List.mem_cons_of_mem _ member)
      ((getElem?_literals_cons q patches _).trans rank) ?_
    rwa [← Nat.add_assoc]

theorem resolveFrom_mem (resolved : resolveFrom t count patches = .ok out) (member : (i, j) ∈ out) :
    Resolves t count patches i j := by
  induction patches generalizing count out with
  | nil =>
    cases resolved
    cases member
  | cons p rest ih =>
    obtain ⟨own, more, settles, others, rfl⟩ := resolveFrom_cons resolved
    rcases List.mem_append.1 member with first | later
    · exact settles.resolves first
    · exact (ih others later).cons

theorem Settles.resolved (settles : Settles t count p own) :
    p.Resolved t count (p :: patches) (own ++ out) := by
  cases settles with
  | exit made | error made => exact ⟨_, made, List.mem_cons_self⟩
  | checked called _ made =>
    exact ⟨⟨_, called, List.mem_cons_self⟩,
      fun _ => ⟨_, made, List.mem_cons_of_mem _ List.mem_cons_self⟩⟩
  | unchecked called unchecks =>
    exact ⟨⟨_, called, List.mem_cons_self⟩, fun checks => by simp [unchecks] at checks⟩
  | literal made => exact ⟨0, _, rfl, made, List.mem_cons_self⟩

/-- A patch that comes first changes nothing for the others but the rank of their literals. -/
theorem Resolved.cons (own : List (Nat × Instruction))
    (resolved : p.Resolved t (count + (literals [q]).length) patches out) :
    p.Resolved t count (q :: patches) (own ++ out) := by
  have later : ∀ {patch : Nat × Instruction}, patch ∈ out → patch ∈ own ++ out :=
    List.mem_append_right _
  cases p with
  | exit | error =>
    obtain ⟨j, made, member⟩ := resolved
    exact ⟨j, made, later member⟩
  | recursion i check =>
    obtain ⟨⟨j, made, member⟩, checked⟩ := resolved
    refine ⟨⟨j, made, later member⟩, fun checks => ?_⟩
    obtain ⟨j, made, member⟩ := checked checks
    exact ⟨j, made, later member⟩
  | literal i reg value =>
    obtain ⟨k, j, rank, made, member⟩ := resolved
    refine ⟨_, j, (getElem?_literals_cons q patches k).trans rank, ?_, later member⟩
    rwa [← Nat.add_assoc]

/-- Every pending patch is resolved. -/
theorem resolveFrom_resolved (resolved : resolveFrom t count patches = .ok out)
    (pending : p ∈ patches) : p.Resolved t count patches out := by
  induction patches generalizing count out with
  | nil => cases pending
  | cons q rest ih =>
    obtain ⟨own, more, settles, others, rfl⟩ := resolveFrom_cons resolved
    rcases List.mem_cons.1 pending with rfl | later
    · exact settles.resolved
    · exact (ih others later).cons own

/-! ## Registers with a stub -/

theorem stubRegisters_concat (errorReg : Reg) (patches : List PendingPatch) (p : PendingPatch) :
    stubRegisters errorReg (patches ++ [p]) =
      match p with
      | .error _ reg =>
        if reg = errorReg || (stubRegisters errorReg patches).contains reg then
          stubRegisters errorReg patches
        else stubRegisters errorReg patches ++ [reg]
      | _ => stubRegisters errorReg patches := by
  unfold stubRegisters
  rw [List.foldl_append]
  cases p <;> rfl

variable {errorReg reg : Reg}

theorem mem_stubRegisters : reg ∈ stubRegisters errorReg patches ↔
    reg ≠ errorReg ∧ ∃ i, .error i reg ∈ patches := by
  induction patches using List.reverseRecOn with
  | nil => simp [stubRegisters]
  | append_singleton patches p ih =>
    rw [stubRegisters_concat]
    cases p with
    | error i q => grind
    | _ => simp [ih]

theorem nodup_stubRegisters : (stubRegisters errorReg patches).Nodup := by
  induction patches using List.reverseRecOn with
  | nil => exact List.nodup_nil
  | append_singleton patches p ih =>
    rw [stubRegisters_concat]
    cases p with
    | error i q => grind
    | _ => exact ih

end PendingPatch

/-! ## Locals -/

/-- A home that is a register is one of `homes`. -/
def Home.Among (homes : RegSet) : Home → Prop
  | register r => homes.contains r = true
  | slot _ => True

namespace Locals

/-- What becomes of a read or write that was reserved at position `i`. -/
inductive Resolves (homes : RegSet) (ls : Locals) (i : Nat) : Instruction → Prop
  | unread {l : Local} {w : LocalWrite} : l ∈ ls → w ∈ l.pending → w.index = i →
      Resolves homes ls i .nop
  | write {l : Local} {w : LocalWrite} {home : Home} {j : Instruction} : l ∈ ls → w ∈ l.confirmed →
      w.index = i → home.Among homes → home.write w.source = .ok j → Resolves homes ls i j
  | read {l : Local} {r : LocalRead} {home : Home} {j : Instruction} : l ∈ ls → r ∈ l.reads →
      r.index = i → home.Among homes → home.read r.target = .ok j → Resolves homes ls i j

section

variable {α : Type} {f : α → Except EncodeError Instruction} {index : α → Nat} {xs : List α}
  {i : Nat} {j : Instruction} {l : Local} {home : Option Home} {out : List (Nat × Instruction)}

section

variable (resolved : xs.mapM (fun x => (f x).map (index x, ·)) = .ok out)

include resolved

/-- Each element gets one patch, in order. -/
theorem mapM_placed :
    List.Forall₂ (fun x patch => index x = patch.1 ∧ f x = .ok patch.2) xs out := by
  induction xs generalizing out with
  | nil =>
    cases resolved
    exact .nil
  | cons x xs ih =>
    rw [List.mapM_cons] at resolved
    obtain ⟨patch, first, resolved⟩ := except_bind_eq_ok.1 resolved
    obtain ⟨more, rest, resolved⟩ := except_bind_eq_ok.1 resolved
    obtain ⟨i, made, rfl⟩ := except_map_eq_ok.1 first
    cases resolved
    exact .cons ⟨rfl, made⟩ (ih rest)

theorem mapM_map_fst :
    out.map (·.1) = xs.map index := by
  have placed := mapM_placed resolved
  clear resolved
  induction placed with
  | nil => rfl
  | cons first _ ih => rw [List.map_cons, List.map_cons, ih, first.1]

theorem mapM_resolved {x : α}
    (member : x ∈ xs) : ∃ i, f x = .ok i ∧ (index x, i) ∈ out := by
  obtain ⟨n, bound, rfl⟩ := List.getElem_of_mem member
  have placed := mapM_placed resolved
  have bound' : n < out.length := placed.length_eq ▸ bound
  obtain ⟨same, made⟩ := placed.get bound bound'
  exact ⟨_, made, same ▸ List.getElem_mem bound'⟩

theorem mapM_mem (member : (i, j) ∈ out) : ∃ x ∈ xs, index x = i ∧ f x = .ok j := by
  obtain ⟨n, bound, at_n⟩ := List.getElem_of_mem member
  have placed := mapM_placed resolved
  have bound' : n < xs.length := placed.length_eq ▸ bound
  have made := placed.get bound' bound
  rw [List.get_eq_getElem, List.get_eq_getElem, at_n] at made
  exact ⟨_, List.getElem_mem bound', made⟩

end

/-- Each reserved read and write of a local gets one patch. -/
theorem patchesOf_indices (placed : home = none → l.needsHome = false)
    (resolved : patchesOf l home = .ok out) : out.map (·.1) = l.slots.map (·.1) := by
  cases home with
  | none =>
    have unread := placed rfl
    simp only [Local.needsHome, Bool.or_eq_false_iff, Bool.not_eq_false',
      List.isEmpty_iff] at unread
    cases resolved
    simp [Local.slots, unread]
  | some home =>
    obtain ⟨confirmed, writes, resolved⟩ := except_bind_eq_ok.1 resolved
    obtain ⟨reads, loads, resolved⟩ := except_bind_eq_ok.1 resolved
    cases resolved
    simp only [Local.slots, List.map_append, List.map_map, mapM_map_fst writes, mapM_map_fst loads]
    rfl

/-- The patches of one local. -/
theorem patchesOf_resolved (resolved : patchesOf l home = .ok out) :
    (∀ x ∈ l.pending, (x.index, .nop) ∈ out) ∧ ∀ h, home = some h →
      (∀ x ∈ l.confirmed, ∃ i, h.write x.source = .ok i ∧ (x.index, i) ∈ out) ∧
      ∀ x ∈ l.reads, ∃ i, h.read x.target = .ok i ∧ (x.index, i) ∈ out := by
  have unread : ∀ x ∈ l.pending,
      (x.index, Instruction.nop) ∈ l.pending.map (fun w => (w.index, Instruction.nop)) :=
    fun x member => List.mem_map.2 ⟨x, member, rfl⟩
  cases home with
  | none =>
    cases resolved
    exact ⟨unread, fun h same => by cases same⟩
  | some home =>
    obtain ⟨writes, written, resolved⟩ := except_bind_eq_ok.1 resolved
    obtain ⟨reads, loaded, resolved⟩ := except_bind_eq_ok.1 resolved
    cases resolved
    refine ⟨fun x member => ?_, ?_⟩
    · exact List.mem_append_left _ (List.mem_append_left _ (unread x member))
    · rintro _ ⟨⟩
      refine ⟨fun x member => ?_, fun x member => ?_⟩
      · obtain ⟨i, made, inside⟩ := mapM_resolved written member
        exact ⟨i, made, List.mem_append_left _ (List.mem_append_right _ inside)⟩
      · obtain ⟨i, made, inside⟩ := mapM_resolved loaded member
        exact ⟨i, made, List.mem_append_right _ inside⟩

/-- What a patch of one local can be. -/
theorem patchesOf_mem (resolved : patchesOf l home = .ok out) (member : (i, j) ∈ out) :
    (∃ w ∈ l.pending, w.index = i ∧ j = .nop) ∨ ∃ h, home = some h ∧
      ((∃ w ∈ l.confirmed, w.index = i ∧ h.write w.source = .ok j) ∨
        ∃ r ∈ l.reads, r.index = i ∧ h.read r.target = .ok j) := by
  have unread : (i, j) ∈ l.pending.map (fun w => (w.index, Instruction.nop)) →
      ∃ w ∈ l.pending, w.index = i ∧ j = .nop := by
    intro isNop
    obtain ⟨w, isWrite, same⟩ := List.mem_map.1 isNop
    cases same
    exact ⟨w, isWrite, rfl, rfl⟩
  cases home with
  | none =>
    cases resolved
    exact Or.inl (unread member)
  | some home =>
    obtain ⟨confirmed, writes, resolved⟩ := except_bind_eq_ok.1 resolved
    obtain ⟨reads, loads, resolved⟩ := except_bind_eq_ok.1 resolved
    cases resolved
    rcases List.mem_append.1 member with earlier | read
    · rcases List.mem_append.1 earlier with isNop | write
      · exact Or.inl (unread isNop)
      · exact Or.inr ⟨home, rfl, Or.inl (mapM_mem writes write)⟩
    · exact Or.inr ⟨home, rfl, Or.inr (mapM_mem loads read)⟩

end

variable {free : List Reg} {used : Nat} {l : Local} {ls : Locals} {r : Resolution}

/-- The home of one local: none if it needs none, else the first free register or the next slot. -/
theorem homeFor_cases (free : List Reg) (used : Nat) (l : Local) :
    (l.needsHome = false ∧ homeFor free used l = (none, free, used)) ∨
      (∃ q rest, free = q :: rest ∧ homeFor free used l = (some (.register q), rest, used)) ∨
      (l.needsHome = true ∧ free = [] ∧
        homeFor free used l = (some (.slot used), [], used + 1)) := by
  unfold homeFor
  by_cases needed : l.needsHome = true
  · rw [if_pos needed]
    cases free with
    | nil => exact Or.inr (Or.inr ⟨needed, rfl, rfl⟩)
    | cons q rest => exact Or.inr (Or.inl ⟨q, rest, rfl, rfl⟩)
  · rw [if_neg needed]
    exact Or.inl ⟨by simpa using needed, rfl⟩

/-- The first local gets its home and its patches, and the others theirs from what is left. -/
theorem resolveFrom_cons (resolved : resolveFrom free used (l :: ls) = .ok r) :
    ∃ home free' used' patches more, homeFor free used l = (home, free', used') ∧
      patchesOf l home = .ok patches ∧ resolveFrom free' used' ls = .ok more ∧
      r = ⟨patches ++ more.patches, more.slots,
        match home with
        | some (.register q) => more.homes.insert q
        | _ => more.homes,
        (l.name, home) :: more.homeOf⟩ := by
  unfold resolveFrom at resolved
  generalize homeFor free used l = found at resolved
  obtain ⟨home, free', used'⟩ := found
  obtain ⟨patches, own, resolved⟩ := except_bind_eq_ok.1 resolved
  obtain ⟨more, others, resolved⟩ := except_bind_eq_ok.1 resolved
  cases resolved
  exact ⟨home, free', used', patches, more, rfl, own, others, rfl⟩

/-- What the first local leaves for the others. -/
theorem homeFor_rest {home : Option Home} {free' : List Reg} {used' : Nat}
    (chosen : homeFor free used l = (home, free', used')) : free'.Sublist free ∧ used ≤ used' := by
  rcases homeFor_cases free used l with ⟨-, same⟩ | ⟨_, _, rfl, same⟩ | ⟨-, rfl, same⟩
  all_goals cases chosen.symm.trans same
  · exact ⟨.refl _, Nat.le_refl _⟩
  · exact ⟨List.sublist_cons_self .., Nat.le_refl _⟩
  · exact ⟨.refl _, Nat.le_succ _⟩

/-- A local without a home has no reads, and no writes that are read. -/
theorem homeFor_none {free' : List Reg} {used' : Nat}
    (homeless : homeFor free used l = (none, free', used')) : l.needsHome = false := by
  rcases homeFor_cases free used l with ⟨needless, -⟩ | ⟨_, _, -, same⟩ | ⟨-, -, same⟩
  · exact needless
  all_goals cases homeless.symm.trans same

/-- Resolution patches every reserved read and write, each once. -/
theorem resolveFrom_indices (resolved : resolveFrom free used ls = .ok r) :
    r.patches.map (·.1) = (slots ls).map (·.1) := by
  induction ls generalizing free used r with
  | nil =>
    cases resolved
    rfl
  | cons l rest ih =>
    obtain ⟨home, free', used', patches, more, chosen, own, others, rfl⟩ :=
      resolveFrom_cons resolved
    have placed : home = none → l.needsHome = false := by
      rintro rfl
      exact homeFor_none chosen
    simp [slots_cons, patchesOf_indices placed own, ih others]

theorem Resolves.mono {homes homes' : RegSet} (more : homes ⊆ homes') {ls' : Locals}
    (within : ∀ l ∈ ls, l ∈ ls') {i : Nat} {j : Instruction} (resolves : Resolves homes ls i j) :
    Resolves homes' ls' i j := by
  have among : ∀ home : Home, home.Among homes → home.Among homes' := by
    intro home inside
    cases home with
    | register r => exact more r inside
    | slot n => trivial
  cases resolves with
  | unread isLocal isWrite index => exact .unread (within _ isLocal) isWrite index
  | write isLocal isWrite index inside made =>
    exact .write (within _ isLocal) isWrite index (among _ inside) made
  | read isLocal isRead index inside made =>
    exact .read (within _ isLocal) isRead index (among _ inside) made

theorem resolveFrom_mem (resolved : resolveFrom free used ls = .ok r) {i : Nat} {j : Instruction}
    (member : (i, j) ∈ r.patches) : Resolves r.homes ls i j := by
  induction ls generalizing free used r with
  | nil =>
    cases resolved
    cases member
  | cons l rest ih =>
    obtain ⟨home, free', used', patches, more, -, own, others, rfl⟩ := resolveFrom_cons resolved
    have either : ∀ homes, more.homes ⊆ homes → (∀ h, home = some h → h.Among homes) →
        Resolves homes (l :: rest) i j := by
      intro homes wider among
      rcases List.mem_append.1 member with first | later
      · rcases patchesOf_mem own first with ⟨w, isWrite, index, rfl⟩ |
          ⟨h, given, ⟨w, isWrite, index, made⟩ | ⟨x, isRead, index, made⟩⟩
        · exact .unread List.mem_cons_self isWrite index
        · exact .write List.mem_cons_self isWrite index (among h given) made
        · exact .read List.mem_cons_self isRead index (among h given) made
      · exact (ih others later).mono wider fun _ => List.mem_cons_of_mem _
    cases home with
    | none => exact either _ (RegSet.subset_refl _) fun h chosen => by cases chosen
    | some home =>
      cases home with
      | register r =>
        refine either _ (RegSet.subset_insert _ _) ?_
        rintro _ ⟨⟩
        simp [Home.Among]
      | slot n =>
        refine either _ (RegSet.subset_refl _) ?_
        rintro _ ⟨⟩
        trivial

/-- Homes are chosen among the registers that are free. -/
theorem resolveFrom_homes (resolved : resolveFrom free used ls = .ok r) {q : Reg}
    (isHome : r.homes.contains q = true) : q ∈ free := by
  induction ls generalizing free used r with
  | nil =>
    cases resolved
    simp at isHome
  | cons l rest ih =>
    obtain ⟨home, free', used', patches, more, chosen, -, others, rfl⟩ := resolveFrom_cons resolved
    have later : more.homes.contains q = true → q ∈ free :=
      fun among => (homeFor_rest chosen).1.subset (ih others among)
    rcases homeFor_cases free used l with ⟨-, same⟩ | ⟨_, _, rfl, same⟩ | ⟨-, rfl, same⟩
    all_goals cases chosen.symm.trans same
    · exact later isHome
    · simp only [RegSet.contains_insert, Bool.or_eq_true, decide_eq_true_eq] at isHome
      rcases isHome with among | rfl
      · exact later among
      · exact List.mem_cons_self
    · exact later isHome

/-- Slots are taken one after the other. -/
theorem resolveFrom_slots (resolved : resolveFrom free used ls = .ok r) : used ≤ r.slots := by
  induction ls generalizing free used r with
  | nil =>
    cases resolved
    exact Nat.le_refl _
  | cons l rest ih =>
    obtain ⟨home, free', used', patches, more, chosen, -, others, rfl⟩ := resolveFrom_cons resolved
    have later : used' ≤ more.slots := ih others
    exact Nat.le_trans (homeFor_rest chosen).2 later

end Locals

end ForthJit
