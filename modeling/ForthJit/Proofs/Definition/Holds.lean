import ForthJit.Proofs.Definition.Advance
import ForthJit.Proofs.Definition.Homes

/-!
# Where the value of a local is

While code runs, the value of a local is in the register in which it is resident, if any, and at its
home once it has been written there.  Writes are reserved before it is known whether a read will
follow; those that no read confirms come to nothing, so the home holds the value only if the writes
so far are confirmed in the end (`Local.Holds`).

Giving registers up runs the writes that are reserved for it.  `Locals.clobber_holds` says that
every value that was somewhere before is somewhere after.
-/

namespace ForthJit

variable {index k : Nat} {l : Local} {target : Reg}

/-! ## Registers that homes are taken from -/

/-- The register is not one of those that may become a home. -/
def Reg.IsWork (q : Reg) : Prop := q.index < 9 ∨ 15 < q.index

instance (q : Reg) : Decidable q.IsWork := inferInstanceAs (Decidable (_ ∨ _))

theorem RegSet.contains_localCandidates (q : Reg) :
    localCandidates.contains q = decide (¬q.IsWork) := by
  have each : ∀ n < 32, localCandidates.contains (.ofNat n) = decide (¬(Reg.ofNat n).IsWork) := by
    decide
  have own := each q.index q.index_lt
  rwa [Reg.ofNat_index] at own

theorem RegSet.contains_full (q : Reg) : full.contains q = true :=
  BitVec.getLsbD_allOnes.trans (decide_eq_true q.index_lt)

theorem RegSet.nodup_toList (s : RegSet) : s.toList.Nodup := by
  have all : Reg.all.Nodup := by decide
  exact all.filter _

namespace Locals

/-- In a frame of `size` bytes, the locals that are `final` when their definition ends have homes
that do not meet, and their reads and writes become what `r` says. -/
structure Lodged (size : Nat) (final : Locals) (r : Resolution) : Prop where
  unread : ∀ (k : Nat) l, final[k]? = some l → ∀ x ∈ l.pending, (x.index, .nop) ∈ r.patches
  write : ∀ (k : Nat) l, final[k]? = some l → ∀ x ∈ l.confirmed,
    ∃ home i, r.home? k = some home ∧ home.write x.source = .ok i ∧ (x.index, i) ∈ r.patches
  read : ∀ (k : Nat) l, final[k]? = some l → ∀ x ∈ l.reads,
    ∃ home i, r.home? k = some home ∧ home.read x.target = .ok i ∧ (x.index, i) ∈ r.patches
  fits : ∀ k home, r.home? k = some home → home.Fits size
  small : size ≤ 2 ^ 64
  apart : ∀ k k' home, r.home? k = some home → r.home? k' = some home → k = k'

variable {final : Locals} {r : Resolution}

theorem slots_le {overwritten : RegSet} (resolved : resolve overwritten final = .ok r) :
    r.slots ≤ 4096 :=
  (housed (RegSet.nodup_toList _) resolved).encoded (by decide)

theorem mem_free {clobbered : RegSet} {q : Reg} :
    q ∈ (RegSet.localCandidates.difference clobbered).toList ↔
      9 ≤ q.index ∧ q.index ≤ 15 ∧ clobbered.contains q = false := by
  rw [RegSet.mem_toList, RegSet.contains_difference, Bool.and_eq_true, Bool.not_eq_true',
    RegSet.contains_localCandidates, decide_eq_true_eq, Reg.IsWork, ← and_assoc]
  exact and_congr_left fun _ => by omega

/-- Resolution finds homes outside the overwritten registers. -/
theorem lodged {overwritten : RegSet} {size : Nat} (resolved : resolve overwritten final = .ok r)
    (enough : 8 * r.slots ≤ size) (small : size ≤ 2 ^ 64) :
    Lodged size final r ∧ ∀ k q, r.home? k = some (.register q) →
      overwritten.contains q = false ∧ r.homes.contains q = true := by
  have housed := housed (RegSet.nodup_toList _) resolved
  have free : ∀ k q, r.home? k = some (.register q) →
      9 ≤ q.index ∧ q.index ≤ 15 ∧ overwritten.contains q = false :=
    fun k q found => mem_free.1 (housed.register k q found).1
  refine ⟨⟨housed.unread, housed.write, housed.read, fun k home found => ?_, small, housed.apart⟩,
    fun k q found => ⟨(free k q found).2.2, (housed.register k q found).2⟩⟩
  cases home with
  | register q => exact ⟨(free k q found).1, (free k q found).2.1⟩
  | slot n =>
    have bound := (housed.slot k n found).2
    show 8 * n + 8 ≤ size
    omega

/-- A reserved write puts its source at the home of its local, or comes to nothing if no read has
confirmed it. -/
theorem Lodged.written {size : Nat} (lodged : Lodged size final r)
    (found : final[k]? = some l) {x : LocalWrite} (member : x ∈ l.pending ∨ x ∈ l.confirmed) :
    ∃ i, (x.index, i) ∈ r.patches ∧ i.isPlain = true ∧
      ((x ∉ l.confirmed ∧ i = .nop) ∨ ∃ home, r.home? k = some home ∧
        ∀ m, i.apply m = home.put m (m.read x.source)) := by
  by_cases confirmed : x ∈ l.confirmed
  · obtain ⟨home, i, at_k, made, patched⟩ := lodged.write k l found x confirmed
    have fits := lodged.fits k home at_k
    exact ⟨i, patched, (Home.write_ok (m := ⟨fun _ => 0, ⟨false, false, false, false⟩, fun _ => 0⟩)
      made fits).1, Or.inr ⟨home, at_k, fun m => (Home.write_ok made fits).2⟩⟩
  · exact ⟨.nop, lodged.unread k l found x (member.resolve_right confirmed), rfl,
      Or.inl ⟨confirmed, rfl⟩⟩

end Locals

/-! ## One local -/

/-- Where the value of a local is found. -/
theorem Local.access?_eq_some {access : Access}
    (found : l.access? target = some access) :
    (access = .inPlace ∧ l.resident = some target) ∨
      (∃ source, access = .move source ∧ l.resident = some source) ∨
      access = .load ∧ l.resident = none := by
  unfold access? at found
  split at found
  · cases found
  · next source resident _ =>
    split at found
    · next same =>
      cases found
      exact Or.inl ⟨rfl, resident.trans (congrArg some same)⟩
    · cases found
      exact Or.inr (Or.inl ⟨source, rfl, resident⟩)
  · next absent _ =>
    cases found
    exact Or.inr (Or.inr ⟨rfl, absent⟩)

theorem Local.assigned_of_access? {access : Access}
    (found : l.access? target = some access) : l.state ≠ .uninitialized := by
  intro same
  rw [access?, same] at found
  cases found

/-- `v` is the value of the local `l`, which has become `final` when its definition ends. -/
structure Local.Holds (m : Machine) (home : Option Home) (l final : Local) (v : Cell) : Prop where
  assigned : l.state ≠ .uninitialized
  /-- A value that is at no home yet is in a register. -/
  unstable : l.state = .unstable → l.resident ≠ none
  resident : ∀ q, l.resident = some q → m.read q = v
  stable : l.state = .stable → (∀ x ∈ l.pending, x ∈ final.confirmed) →
    ∀ h, home = some h → h.value m = v

namespace Local.Holds

variable {m m' : Machine} {home : Option Home} {final l : Local} {v : Cell}

/-- Nothing is lost if the register and the home stay as they are. -/
theorem congr (holds : l.Holds m home final v)
    (regs : ∀ q, l.resident = some q → m'.read q = m.read q)
    (value : ∀ h, home = some h → h.value m' = h.value m) : l.Holds m' home final v where
  assigned := holds.assigned
  unstable := holds.unstable
  resident := fun q found => (regs q found).trans (holds.resident q found)
  stable := fun stable confirmed h found =>
    (value h found).trans (holds.stable stable confirmed h found)

theorem assign (m : Machine) (home : Option Home) (final l : Local) (reg : Reg) :
    (l.assign reg).Holds m home final (m.read reg) where
  assigned := by
    intro same
    cases same
  unstable := by
    intro _ same
    cases same
  resident := by
    rintro _ ⟨⟩
    rfl
  stable := by
    intro same
    cases same

/-- A register whose value is also at the home can be given up. -/
theorem leave (holds : l.Holds m home final v) (written : l.state ≠ .unstable) :
    Local.Holds m home { l with resident := none } final v where
  assigned := holds.assigned
  unstable := fun same => absurd same written
  resident := by
    rintro _ ⟨⟩
  stable := holds.stable

/-- A write of the register to the home lets the register go. -/
theorem spill (holds : l.Holds m home final v) {reg : Reg}
    (resident : l.resident = some reg)
    (written : ⟨index, reg⟩ ∈ final.confirmed → ∀ h, home = some h → h.value m' = m.read reg) :
    (l.spill index reg).Holds m' home final v where
  assigned := by
    intro same
    cases same
  unstable := by
    intro same
    cases same
  resident := by
    rintro _ ⟨⟩
  stable := fun _ confirmed h found =>
    (written (confirmed _ (List.mem_append_right _ (List.mem_singleton.2 rfl))) h found).trans
      (holds.resident reg resident)

/-- The read of a home confirms the writes before it, so that it finds the value. -/
theorem recordRead (holds : l.Holds m home final v) {h : Home}
    (absent : l.resident = none) (onward : (l.recordRead index target).Advances final)
    (at_home : home = some h) (data : target ≠ .xzr) (other : h ≠ .register target)
    (sp : target ≠ .sp) :
    (l.recordRead index target).Holds (m.set target (h.value m)) home final v := by
  have stable : l.state = .stable := by
    cases state : l.state with
    | uninitialized => exact absurd state holds.assigned
    | unstable => exact absurd absent (holds.unstable state)
    | stable => rfl
  have confirmed : ∀ x ∈ l.pending, x ∈ final.confirmed := fun x member =>
    onward.confirmed x (List.mem_append_right _ member)
  have value : h.value m = v := holds.stable stable confirmed h at_home
  have kept : h.value (m.set target (h.value m)) = h.value m := by
    cases h with
    | register q =>
      refine m.regs_set_of_ne _ ?_
      rintro rfl
      exact other rfl
    | slot n =>
      show Memory.load _ ((m.set target _).regs .sp + _) = Memory.load _ _
      rw [m.regs_set_of_ne _ (Ne.symm sp), m.memory_set]
  refine ⟨holds.assigned, ?_, ?_, fun _ _ h' found => ?_⟩
  · intro _ same
    cases same
  · rintro _ ⟨⟩
    rw [Machine.read_of_ne _ data, m.regs_set, value]
  · obtain rfl := Option.some.inj (at_home.symm.trans found)
    rw [kept, value]

end Local.Holds

/-! ## Giving registers up -/

namespace Locals

/-- Every register in which a local is resident has the property `P`. -/
def Resident (P : Reg → Prop) (ls : Locals) : Prop := ∀ l ∈ ls, ∀ q, l.resident = some q → P q

/-- The locals from number `first` on hold the values that `values` gives to their numbers. -/
def Hold (r : Resolution) (final : Locals) (values : Nat → Option Cell) (first : Nat) (m : Machine)
    (ls : Locals) : Prop :=
  ∀ (k : Nat) l l' v, ls[k]? = some l → final[first + k]? = some l' → values (first + k) = some v →
    l.Holds m (r.home? (first + k)) l' v

variable {r : Resolution} {final : Locals} {values : Nat → Option Cell} {size first : Nat}
  {m m' m'' : Machine} {l l' : Local} {ls : Locals}

theorem Hold.holds (hold : Hold r final values 0 m ls) {v : Cell} (found : ls[k]? = some l)
    (found' : final[k]? = some l') (value : values k = some v) : l.Holds m (r.home? k) l' v := by
  have held := hold k l l' v found
  rw [Nat.zero_add] at held
  exact held found' value

theorem Hold.head (hold : Hold r final values first m (l :: ls)) {v : Cell}
    (found : final[first]? = some l') (value : values first = some v) :
    l.Holds m (r.home? first) l' v :=
  hold 0 l l' v rfl found value

theorem Hold.tail (hold : Hold r final values first m (l :: ls)) :
    Hold r final values (first + 1) m ls := by
  intro k l1 l2 v found final' value
  have sum : first + 1 + k = first + (k + 1) := by omega
  rw [sum] at final' value ⊢
  exact hold (k + 1) l1 l2 v found final' value

theorem Hold.cons (head : ∀ l' v, final[first]? = some l' → values first = some v →
      l.Holds m (r.home? first) l' v)
    (tail : Hold r final values (first + 1) m ls) : Hold r final values first m (l :: ls) := by
  intro k l1 l2 v found final' value
  cases k with
  | zero =>
    cases found
    exact head l2 v final' value
  | succ k =>
    have sum : first + (k + 1) = first + 1 + k := by omega
    rw [sum] at final' value ⊢
    exact tail k l1 l2 v found final' value

/-- `m'` differs from `m` at most at the homes of the locals from number `first` on. -/
structure Spares (r : Resolution) (size first : Nat) (m m' : Machine) : Prop where
  regs : ∀ q : Reg, q.IsWork → m'.regs q = m.regs q
  memory : ∀ a : Cell, size ≤ (a - m.regs .sp).toNat → m'.memory a = m.memory a
  homes : ∀ k < first, ∀ home, r.home? k = some home → home.value m' = home.value m

theorem Spares.refl (r : Resolution) (size first : Nat) (m : Machine) : Spares r size first m m :=
  ⟨fun _ _ => rfl, fun _ _ => rfl, fun _ _ _ _ => rfl⟩

theorem Spares.read (spares : Spares r size first m m') {q : Reg} (work : q.IsWork) :
    m'.read q = m.read q :=
  Machine.read_congr (spares.regs q work)

theorem Spares.trans (one : Spares r size first m m') (two : Spares r size first m' m'') :
    Spares r size first m m'' where
  regs := fun q work => (two.regs q work).trans (one.regs q work)
  memory := fun a outside =>
    (two.memory a (one.regs .sp (by decide) ▸ outside)).trans (one.memory a outside)
  homes := fun k before home found =>
    (two.homes k before home found).trans (one.homes k before home found)

theorem Spares.weaken {first' : Nat} (spares : Spares r size first m m') (fewer : first' ≤ first) :
    Spares r size first' m m' :=
  ⟨spares.regs, spares.memory, fun k before => spares.homes k (Nat.lt_of_lt_of_le before fewer)⟩

/-- A write to the home of one local spares all others. -/
theorem Lodged.put (lodged : Lodged size final r) {home : Home} (found : r.home? first = some home)
    (v : Cell) : Spares r size first m (home.put m v) ∧
      ∀ k ≠ first, ∀ other, r.home? k = some other →
        other.value (home.put m v) = other.value m := by
  have fits := lodged.fits first home found
  have others : ∀ k ≠ first, ∀ other, r.home? k = some other →
      other.value (home.put m v) = other.value m := by
    intro k ne other found'
    refine Home.value_put_of_ne fits (lodged.fits k other found') lodged.small ?_
    rintro rfl
    exact ne (lodged.apart k first other found' found)
  exact ⟨⟨fun q work => Home.regs_put (Home.register_ne fits work),
    fun a outside => Home.memory_put fits lodged.small outside,
    fun k before => others k (Nat.ne_of_lt before)⟩, others⟩

theorem Hold.congr (hold : Hold r final values first m ls)
    (regs : Resident (fun q => m'.read q = m.read q) ls)
    (homes : ∀ k ≥ first, ∀ home, r.home? k = some home → home.value m' = home.value m) :
    Hold r final values first m' ls := by
  intro k l l' v found final' value
  exact (hold k l l' v found final' value).congr (regs l (List.mem_of_getElem? found)) fun h at_k =>
    homes (first + k) (Nat.le_add_right _ _) h at_k

/-- A local that holds its value still does when only homes of later ones have changed. -/
theorem Hold.cons_of_spares (spares : Spares r size (first + 1) m m')
    (work : ∀ q, l.resident = some q → q.IsWork)
    (head : ∀ l' v, final[first]? = some l' → values first = some v →
      l.Holds m (r.home? first) l' v)
    (tail : Hold r final values (first + 1) m' ls) : Hold r final values first m' (l :: ls) :=
  .cons (fun l' v found value => (head l' v found value).congr
    (fun q resident => spares.read (work q resident))
    fun home at_home => spares.homes first (Nat.lt_succ_self first) home at_home) tail

/-- `ls` becomes the part of `final` from number `first` on. -/
def LeadsTo (first : Nat) (final ls : Locals) : Prop :=
  ∀ (k : Nat) l, ls[k]? = some l → ∃ l', final[first + k]? = some l' ∧ l.Advances l'

theorem Advances.leadsTo (onward : ls.Advances final) : LeadsTo 0 final ls := by
  intro k l found
  rw [Nat.zero_add]
  exact onward k l found

theorem LeadsTo.tail (leads : LeadsTo first final (l :: ls)) : LeadsTo (first + 1) final ls := by
  intro k l found
  have sum : first + 1 + k = first + (k + 1) := by omega
  rw [sum]
  exact leads (k + 1) l found

/-- Run the write that is reserved for the first of some locals. -/
theorem Lodged.spill (lodged : Lodged size final r) {reg : Reg}
    (leads : LeadsTo first final (l.spill index reg :: ls)) :
    ∃ i, (index, i) ∈ r.patches ∧ i.isPlain = true ∧ Spares r size first m (i.apply m) ∧
      (∀ k ≠ first, ∀ home, r.home? k = some home → home.value (i.apply m) = home.value m) ∧
      ∀ l', final[first]? = some l' → ⟨index, reg⟩ ∈ l'.confirmed →
        ∀ home, r.home? first = some home → home.value (i.apply m) = m.read reg := by
  obtain ⟨l', found, advances⟩ := leads 0 _ rfl
  have member := advances.pending ⟨index, reg⟩ (List.mem_append_right _ (List.mem_singleton.2 rfl))
  obtain ⟨i, patched, plain, ⟨unconfirmed, rfl⟩ | ⟨home, at_home, apply⟩⟩ :=
    lodged.written found member
  · refine ⟨.nop, patched, plain, .refl r size first m, fun _ _ _ _ => rfl, ?_⟩
    intro l'' found' confirmed
    obtain rfl := Option.some.inj (found.symm.trans found')
    exact absurd confirmed unconfirmed
  · obtain ⟨spares, others⟩ := lodged.put at_home (m.read reg) (m := m)
    rw [← apply m] at spares others
    refine ⟨i, patched, plain, spares, others, fun _ _ _ home' at_home' => ?_⟩
    obtain rfl := Option.some.inj (at_home.symm.trans at_home')
    rw [apply m, Home.value_put]

variable {position? : Nat → Option Nat} {regs : RegSet} {count : Nat} {P : Reg → Prop}

/-- The reserved writes that giving registers up adds, when they are run, leave every value in its
register or at its home. -/
theorem clobber_holds (lodged : Lodged size final r) {base : Nat} (counts : Counts base position?)
    (leads : LeadsTo first final (clobber regs position? count ls).locals)
    (work : Resident Reg.IsWork ls) (hold : Hold r final values first m ls) :
    ∃ is : List Instruction, (clobber regs position? count ls).writes = count + is.length ∧
      (∀ i ∈ is, i.isPlain = true) ∧
      (∀ (n : Nat) i, is[n]? = some i → (base + count + n, i) ∈ r.patches) ∧
      Spares r size first m (Instruction.applyAll m is) ∧
      Hold r final values first (Instruction.applyAll m is)
        (clobber regs position? count ls).locals := by
  induction ls generalizing count first m with
  | nil => exact ⟨[], rfl, by simp, by simp, .refl r size first m, hold⟩
  | cons l rest ih =>
    have later : Resident Reg.IsWork rest := fun l member => work l (List.mem_cons_of_mem _ member)
    have own := work l List.mem_cons_self
    unfold clobber at leads ⊢
    split at leads
    · obtain ⟨is, writes, plain, patched, spares, held⟩ := ih leads.tail later hold.tail
      exact ⟨is, writes, plain, patched, spares.weaken (Nat.le_succ first),
        .cons_of_spares spares own (fun _ _ => hold.head) held⟩
    · next reg inside unstable =>
      cases placed : position? count with
      | none => exact ⟨[], rfl, by simp, by simp, .refl r size first m, hold⟩
      | some index =>
        rw [placed] at leads
        obtain rfl := counts count index placed
        have resident : l.resident = some reg := (Option.filter_eq_some_iff.1 inside).1
        obtain ⟨i, patch, isPlain, wrote, others, value⟩ := lodged.spill (m := m) leads
        have rested : Hold r final values (first + 1) (i.apply m) rest :=
          hold.tail.congr (fun l member q resident => wrote.read (later l member q resident))
            fun k after => others k (Nat.ne_of_gt after)
        obtain ⟨is, writes, plain, patched, spares, held⟩ := ih leads.tail later rested
        have total : count + 1 + is.length = count + (i :: is).length := by
          rw [List.length_cons]
          omega
        refine ⟨i :: is, writes.trans total, List.forall_mem_cons.2 ⟨isPlain, plain⟩, ?_,
          wrote.trans (spares.weaken (Nat.le_succ first)),
          .cons_of_spares spares (by simp [Local.spill]) (fun l' v found at_first => ?_) held⟩
        · rintro (_ | n) j found
          · cases found
            exact patch
          · have sum : base + count + (n + 1) = base + (count + 1) + n := by omega
            rw [sum]
            exact patched n j found
        · exact (hold.head found at_first).spill resident (value l' found)
    · next written =>
      obtain ⟨is, writes, plain, patched, spares, held⟩ := ih leads.tail later hold.tail
      refine ⟨is, writes, plain, patched, spares.weaken (Nat.le_succ first),
        .cons_of_spares spares (by simp) (fun l' v found value =>
          (hold.head found value).leave ?_) held⟩
      exact written

/-! ## Which locals stay in registers -/

/-- What giving up `regs` may do to a local. -/
inductive Released (regs : RegSet) (l : Local) : Local → Prop
  | stays : Released regs l l
  | leaves {q : Reg} : l.resident = some q → regs.contains q = true → l.state ≠ .unstable →
      Released regs l { l with resident := none }
  | spills {q : Reg} (index : Nat) : l.resident = some q → regs.contains q = true →
      l.state = .unstable → Released regs l (l.spill index q)

theorem clobber_released (regs : RegSet) (position? : Nat → Option Nat) (count : Nat)
    (ls : Locals) : List.Forall₂ (Released regs) ls (clobber regs position? count ls).locals := by
  induction ls generalizing count with
  | nil => exact .nil
  | cons l rest ih =>
    unfold clobber
    split
    · exact .cons .stays (ih count)
    · next reg inside unstable =>
      obtain ⟨resident, member⟩ := Option.filter_eq_some_iff.1 inside
      split
      · exact List.forall₂_same.2 fun _ _ => .stays
      · exact .cons (.spills _ resident member unstable) (ih (count + 1))
    · next reg inside written =>
      obtain ⟨resident, member⟩ := Option.filter_eq_some_iff.1 inside
      exact .cons (.leaves resident member written) (ih count)

theorem clobber_getElem? (regs : RegSet) (position? : Nat → Option Nat) (count : Nat)
    (found : ls[k]? = some l) :
    ∃ l', (clobber regs position? count ls).locals[k]? = some l' ∧ Released regs l l' := by
  have released := clobber_released regs position? count ls
  obtain ⟨bound, rfl⟩ := List.getElem?_eq_some_iff.1 found
  have bound' := released.length_eq ▸ bound
  exact ⟨_, List.getElem?_eq_getElem bound', released.get bound bound'⟩

theorem of_clobber_getElem? (found : (clobber regs position? count ls).locals[k]? = some l') :
    ∃ l, ls[k]? = some l ∧ Released regs l l' := by
  have released := clobber_released regs position? count ls
  obtain ⟨bound', rfl⟩ := List.getElem?_eq_some_iff.1 found
  have bound := released.length_eq.symm ▸ bound'
  exact ⟨_, List.getElem?_eq_getElem bound, released.get bound bound'⟩

/-- A local that is in no register stays as it is. -/
theorem clobber_of_absent (found : ls[k]? = some l) (absent : l.resident = none) :
    (clobber regs position? count ls).locals[k]? = some l := by
  obtain ⟨l', found', stays | ⟨resident, -, -⟩ | ⟨-, resident, -, -⟩⟩ :=
    clobber_getElem? regs position? count found
  · exact found'
  · cases absent.symm.trans resident
  · cases absent.symm.trans resident

/-- If there was room for all writes, no local is left in the registers. -/
theorem clobber_resident (complete : (clobber regs position? count ls).complete = true)
    (resident : Resident P ls) :
    Resident (fun q => P q ∧ regs.contains q = false) (clobber regs position? count ls).locals := by
  induction ls generalizing count with
  | nil => exact fun l member => absurd member List.not_mem_nil
  | cons l rest ih =>
    obtain ⟨own, others⟩ := List.forall_mem_cons.1 resident
    unfold clobber at complete ⊢
    split
    · next outside =>
      simp only [outside] at complete
      refine List.forall_mem_cons.2 ⟨fun q found => ⟨own q found, ?_⟩, ih complete others⟩
      have excluded := Option.filter_eq_none_iff.1 outside q found
      simpa using excluded
    · next reg inside unstable =>
      simp only [inside, unstable] at complete
      split
      · next full =>
        rw [full] at complete
        cases complete
      · next index placed =>
        rw [placed] at complete
        refine List.forall_mem_cons.2 ⟨?_, ih complete others⟩
        rintro q ⟨⟩
    · next reg inside written =>
      refine List.forall_mem_cons.2 ⟨?_, ih ?_ others⟩
      · rintro q ⟨⟩
      · split at complete
        · next outside => cases outside.symm.trans inside
        · next unstable => exact absurd unstable written
        · exact complete

/-! ## Changing one local or one register -/

/-- A register in which no local is resident, and which is no home, may be overwritten. -/
theorem Hold.set (hold : Hold r final values first m ls) (lodged : Lodged size final r)
    (work : target.IsWork) (data : target ≠ .sp) (others : Resident (· ≠ target) ls) (v : Cell) :
    Hold r final values first (m.set target v) ls := by
  refine hold.congr (fun l member q resident =>
    Machine.read_set_of_ne (others l member q resident)) fun k _ home found => ?_
  have fits := lodged.fits k home found
  refine Home.value_congr fits lodged.small (fun q same => m.regs_set_of_ne v ?_)
    (m.regs_set_of_ne v (Ne.symm data)) fun _ _ => rfl
  rintro rfl
  exact Home.register_ne fits work same

theorem Hold.modify (hold : Hold r final values 0 m ls) {id : Nat} {f : Local → Local}
    (own : ∀ l l' v, ls[id]? = some l → final[id]? = some l' → values id = some v →
      (f l).Holds m (r.home? id) l' v) : Hold r final values 0 m (ls.modify id f) := by
  intro k l l' v found final' value
  rw [Nat.zero_add] at final' value ⊢
  rw [List.getElem?_modify] at found
  obtain ⟨l0, found0, rfl⟩ := Option.map_eq_some_iff.1 found
  split
  · next same =>
    obtain rfl := same
    exact own l0 l' v found0 final' value
  · exact hold.holds found0 final' value

theorem Resident.modify (resident : Resident P ls) {id : Nat} {f : Local → Local}
    (own : ∀ l q, (f l).resident = some q → P q) : Resident P (ls.modify id f) := by
  intro l member q found
  obtain ⟨k, at_k⟩ := List.mem_iff_getElem?.1 member
  rw [List.getElem?_modify] at at_k
  obtain ⟨l0, found0, rfl⟩ := Option.map_eq_some_iff.1 at_k
  split at found
  · exact own l0 q found
  · exact resident l0 (List.mem_of_getElem? found0) q found

theorem Resident.mono {Q : Reg → Prop} (resident : Resident P ls) (weaker : ∀ q, P q → Q q) :
    Resident Q ls :=
  fun l member q found => weaker q (resident l member q found)

end Locals

end ForthJit
