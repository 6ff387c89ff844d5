import ForthJit.Proofs.Definition.Holds

/-!
# The account of reserved reads and writes

However locals are declared, assigned, read and driven out of registers, and wherever emission
fails, each read and write that was reserved is on record once, and what it becomes depends only on
whether a read of the same local came later (`Locals.Traced`).  Homes are handed out in the order of
declaration, first the free registers and then the slots.
-/

namespace ForthJit.Locals

/-- A write or read of the local `id` was reserved at `index`. -/
inductive Event where
  | write (id index : Nat)
  | read (id index : Nat)

def Event.index : Event → Nat
  | write _ index | read _ index => index

/-- The writes of the local `id` that no read of it follows, newest first. -/
def unread (id : Nat) : List Event → List Nat
  | [] => []
  | .write k index :: es => if k = id then index :: unread id es else unread id es
  | .read k _ :: es => if k = id then [] else unread id es

/-- The locals from position `id` on whose values are only in `regs`. -/
def unsaved (regs : RegSet) (id : Nat) : Locals → List Nat
  | [] => []
  | l :: rest =>
    if l.state = .unstable ∧ (l.residentIn? regs).isSome then id :: unsaved regs (id + 1) rest
    else unsaved regs (id + 1) rest

/-- Any use of the locals of a definition, with what was reserved, newest first.  When registers are
given up, writes go to the positions in `emitted`; when these run out, emission fails. -/
inductive Traced : List Event → Locals → Prop
  | start : Traced [] []
  | declare {es : List Event} {ls : Locals} (name : String) : Traced es ls →
      Traced es (ls.declare name).2
  | set {es : List Event} {ls : Locals} {id : Nat} (reg : Reg) : Traced es ls → id < ls.length →
      Traced es (ls.modify id (·.assign reg))
  | read {es : List Event} {ls : Locals} {id : Nat} (index : Nat) (target : Reg) : Traced es ls →
      id < ls.length → Traced (.read id index :: es) (ls.modify id (·.recordRead index target))
  | clobber {es : List Event} {ls : Locals} (regs : RegSet) (emitted : List Nat) : Traced es ls →
      Traced ((List.zipWith .write (ls.unsaved regs 0) emitted).reverse ++ es)
        (ls.clobber regs (emitted[·]?) 0).locals

/-- Everything that was reserved is on record, and what is read later is confirmed. -/
structure Accounts (es : List Event) (ls : Locals) : Prop where
  slots : (ls.slots.map (·.1)).Perm (es.map Event.index)
  unread : ∀ id : Nat, (ls[id]?.elim [] (·.pending)).map (·.index) = (unread id es).reverse
  read : ∀ id : Nat, ls[id]?.any (·.needsHome) = true ↔ ∃ i, .read id i ∈ es

/-- What one step notes about the local `id`. -/
inductive Noted (id : Nat) (l : Local) : List Event → Local → Prop
  | silent {l' : Local} : l'.pending = l.pending → l'.confirmed = l.confirmed →
      l'.reads = l.reads → Noted id l [] l'
  | write (index : Nat) (source : Reg) : Noted id l [.write id index] (l.spill index source)
  | read (index : Nat) (target : Reg) : Noted id l [.read id index] (l.recordRead index target)

variable {es more : List Event} {ls before after : Locals} {l l' : Local}

theorem Noted.slots {id : Nat} (noted : Noted id l more l') :
    (l'.slots.map (·.1)).Perm (more.map Event.index ++ l.slots.map (·.1)) := by
  cases noted with
  | silent pending confirmed reads => simp [Local.slots, pending, confirmed, reads]
  | write index source => exact (slots_spill l index source).map _
  | read index target =>
    refine ((recordRead_slots l index target).map _).trans ?_
    rw [List.map_append]
    exact List.perm_append_comm

theorem Accounts.noted (accounts : Accounts es (before ++ l :: after))
    (noted : Noted before.length l more l') : Accounts (more ++ es) (before ++ l' :: after) := by
  have others : ∀ id : Nat, id ≠ before.length →
      (before ++ l' :: after)[id]? = (before ++ l :: after)[id]? := by
    intro id other
    rw [List.getElem?_append, List.getElem?_append]
    split
    · rfl
    · rw [List.getElem?_cons, List.getElem?_cons, if_neg (by omega), if_neg (by omega)]
  refine ⟨?_, fun id => ?_, fun id => ?_⟩
  · have own := noted.slots
    have total := accounts.slots
    rw [List.perm_iff_count] at own total ⊢
    intro i
    have := own i
    have := total i
    simp only [Locals.slots, List.flatMap_append, List.flatMap_cons, List.map_append,
      List.count_append] at *
    omega
  · have old := accounts.unread id
    by_cases own : id = before.length
    · subst own
      cases noted <;> simp_all [Locals.unread, Local.spill, Local.recordRead]
    · rw [others id own, old]
      cases noted <;> simp [Locals.unread, Ne.symm own]
  · have old := accounts.read id
    by_cases own : id = before.length
    · subst own
      cases noted <;> simp_all [Local.needsHome, Local.spill, Local.recordRead]
    · rw [others id own, old]
      cases noted <;> simp [own]

theorem Accounts.clobber (accounts : Accounts es (before ++ ls)) (regs : RegSet)
    (emitted : List Nat) (count : Nat) :
    Accounts
      ((List.zipWith .write (ls.unsaved regs before.length) (emitted.drop count)).reverse ++ es)
      (before ++ (ls.clobber regs (emitted[·]?) count).locals) := by
  induction ls generalizing before es count with
  | nil => simpa [unsaved, Locals.clobber] using accounts
  | cons l rest ih =>
    have next : ∀ {l' : Local} {more : List Event} (count : Nat), Noted before.length l more l' →
        Accounts ((List.zipWith .write (unsaved regs (before.length + 1) rest)
            (emitted.drop count)).reverse ++ (more ++ es))
          (before ++ l' :: (Locals.clobber regs (emitted[·]?) count rest).locals) := by
      intro l' more count noted
      have later := @ih (more ++ es) (before ++ [l']) (by simpa using accounts.noted noted) count
      simpa using later
    unfold Locals.clobber
    split
    · next absent =>
      rw [unsaved, if_neg (by simp [absent])]
      exact next count (.silent rfl rfl rfl)
    · next reg resident unstable =>
      rw [unsaved, if_pos (by simp [resident, unstable])]
      split
      · next full => simpa [List.drop_eq_nil_of_le (List.getElem?_eq_none_iff.1 full)]
          using accounts
      · next index found =>
        obtain ⟨bound, rfl⟩ := List.getElem?_eq_some_iff.1 found
        rw [List.drop_eq_getElem_cons bound, List.zipWith_cons_cons, List.reverse_cons,
          List.append_assoc]
        exact next (count + 1) (.write _ reg)
    · next resident saved =>
      rw [unsaved, if_neg fun both => saved both.1]
      have left : Noted before.length l [] { l with resident := none } := .silent rfl rfl rfl
      exact next count left

theorem Traced.accounts (traced : Traced es ls) : Accounts es ls := by
  induction traced with
  | start => exact ⟨.nil, by simp [Locals.unread], by simp⟩
  | @declare es ls name _ ih =>
    have added : ∀ id : Nat, (ls.declare name).2[id]? = ls[id]? ∨
        ls[id]? = none ∧ (ls.declare name).2[id]? = some { name } := by
      unfold Locals.declare
      grind
    refine ⟨slots_declare ls name ▸ ih.slots, fun id => ?_, fun id => ?_⟩
    · rcases added id with same | ⟨absent, same⟩
      · exact same ▸ ih.unread id
      · simpa [same, absent] using ih.unread id
    · rcases added id with same | ⟨absent, same⟩
      · exact same ▸ ih.read id
      · simpa [same, absent, Local.needsHome] using ih.read id
  | @set es ls id reg _ bound ih =>
    obtain ⟨before, l, after, rfl, rfl, modified⟩ := List.exists_of_modify (·.assign reg) bound
    rw [modified]
    have assigned : Noted before.length l [] (l.assign reg) := .silent rfl rfl rfl
    exact ih.noted assigned
  | @read es ls id index target _ bound ih =>
    obtain ⟨before, l, after, rfl, rfl, modified⟩ :=
      List.exists_of_modify (·.recordRead index target) bound
    rw [modified]
    exact ih.noted (.read index target)
  | @clobber es ls regs emitted _ ih =>
    have whole : Accounts es ([] ++ ls) := ih
    exact whole.clobber regs emitted 0

/-- Homes are handed out in order: the free registers one after the other, and then slots. -/
theorem resolveFrom_order {free : List Reg} {used : Nat} {r : Resolution}
    (resolved : resolveFrom free used ls = .ok r) :
    (∀ id, (r.home? id).isSome = ls[id]?.any (·.needsHome)) ∧
      ∃ taken left, taken ++ left = free ∧ (left = [] ∨ r.slots = used) ∧
        r.homeOf.filterMap (·.2) =
          taken.map .register ++ (List.range' used (r.slots - used)).map .slot := by
  induction ls generalizing free used r with
  | nil =>
    cases resolved
    exact ⟨fun _ => rfl, [], free, rfl, Or.inr rfl, by simp⟩
  | cons l rest ih =>
    obtain ⟨home, free', used', patches, more, chosen, -, others, rfl⟩ := resolveFrom_cons resolved
    obtain ⟨needs, taken, left, whole, last, homes⟩ := ih others
    have first : home.isSome = l.needsHome := by
      unfold homeFor at chosen
      split at chosen
      · split at chosen <;> cases chosen <;> simp_all
      · cases chosen
        simp_all
    refine ⟨?_, ?_⟩
    · rintro (_ | id)
      · exact first
      · exact needs id
    rcases homeFor_cases free used l with ⟨-, same⟩ | ⟨q, _, rfl, same⟩ | ⟨-, rfl, same⟩
    all_goals cases chosen.symm.trans same
    · exact ⟨taken, left, whole, last, by simpa using homes⟩
    · exact ⟨q :: taken, left, by simp [whole], last, by simp [homes]⟩
    · obtain ⟨rfl, rfl⟩ := List.append_eq_nil_iff.1 whole
      have enough : used + 1 ≤ more.slots := resolveFrom_slots others
      refine ⟨[], [], rfl, Or.inl rfl, ?_⟩
      rw [show more.slots - used = more.slots - (used + 1) + 1 by omega, List.range'_succ]
      simp [homes]

theorem Home.not_nop (home : Home) (reg : Reg) :
    home.write reg ≠ .ok .nop ∧ home.read reg ≠ .ok .nop := by
  cases home with
  | register q => exact ⟨nofun, nofun⟩
  | slot n =>
    refine ⟨fun made => ?_, fun made => ?_⟩
    · obtain ⟨imm, same, -⟩ := Asm.str_ok made
      cases same
    · obtain ⟨imm, same, -⟩ := Asm.ldr_ok made
      cases same

/-- Whatever was done with the locals of a definition, resolution patches each reserved read and
write once and nothing else.  A write comes to nothing exactly if no read of its local follows, and
a local has a home exactly if it is read.  The homes, in the order of declaration, are different
registers of `x9` to `x15` outside `clobbered`, and the slots from 0 on if these are not enough. -/
theorem placement_exact {clobbered : RegSet} {r : Resolution} (traced : Traced es ls)
    (resolved : resolve clobbered ls = .ok r) :
    (r.patches.map (·.1)).Perm (es.map Event.index) ∧
      (∀ index, (index, .nop) ∈ r.patches ↔ ∃ id, index ∈ unread id es) ∧
      (∀ id, (r.home? id).isSome = true ↔ ∃ i, .read id i ∈ es) ∧
      ∃ taken left, taken ++ left = (RegSet.localCandidates.difference clobbered).toList ∧
        (left = [] ∨ r.slots = 0) ∧
        r.homeOf.filterMap (·.2) = taken.map .register ++ (List.range r.slots).map .slot ∧
        taken.Nodup ∧ ∀ q ∈ taken, 9 ≤ q.index ∧ q.index ≤ 15 ∧ clobbered.contains q = false := by
  have accounts := traced.accounts
  obtain ⟨needs, taken, left, free, last, homes⟩ := resolveFrom_order resolved
  refine ⟨?_, fun index => ⟨fun isNop => ?_, fun ⟨id, member⟩ => ?_⟩, fun id => ?_, taken,
    left, free, last, ?_,
    (RegSet.nodup_toList _).sublist (free ▸ List.sublist_append_left taken left),
    fun q member => mem_free.1 (free ▸ List.mem_append_left left member)⟩
  · rw [resolveFrom_indices resolved]
    exact accounts.slots
  · cases resolveFrom_mem resolved isNop with
    | unread isLocal isWrite same =>
      obtain ⟨id, found⟩ := List.mem_iff_getElem?.1 isLocal
      have pending := accounts.unread id
      rw [found] at pending
      exact ⟨id, List.mem_reverse.1 (pending ▸ same ▸ List.mem_map_of_mem isWrite)⟩
    | write _ _ _ _ made => exact absurd made (Home.not_nop _ _).1
    | read _ _ _ _ made => exact absurd made (Home.not_nop _ _).2
  · rw [← List.mem_reverse, ← accounts.unread id] at member
    obtain ⟨w, pending, rfl⟩ := List.mem_map.1 member
    cases found : ls[id]? with
    | none => simp [found] at pending
    | some l =>
      rw [found] at pending
      exact (housed (RegSet.nodup_toList _) resolved).unread id l found w pending
  · rw [needs id]
    exact accounts.read id
  · simpa [List.range_eq_range'] using homes

/-- A local is driven out, read and driven out again; only the second write comes to nothing. -/
theorem placement_exact_rewritten : ∃ es ls r, Traced es ls ∧ es.map Event.index = [8, 6, 5] ∧
    resolve .empty ls = .ok r ∧ (8, .nop) ∈ r.patches ∧ (5, .nop) ∉ r.patches := by
  have written := ((Traced.start.declare "a").set (.ofNat 0) (show 0 < 1 by decide)).clobber
    (.singleton (.ofNat 0)) [5]
  have rewritten := ((written.read 6 (.ofNat 1) (show 0 < 1 by decide)).set (.ofNat 2)
    (show 0 < 1 by decide)).clobber (.singleton (.ofNat 2)) [8]
  have nops := (@placement_exact _ _ .empty _ rewritten rfl).2.1
  refine ⟨_, _, _, rewritten, rfl, rfl, (nops 8).2 ⟨0, by decide⟩, fun isNop => ?_⟩
  obtain ⟨id, unread⟩ := (nops 5).1 isNop
  change 5 ∈ Locals.unread id [.write 0 8, .read 0 6, .write 0 5] at unread
  cases id <;> simp [Locals.unread] at unread

end ForthJit.Locals
