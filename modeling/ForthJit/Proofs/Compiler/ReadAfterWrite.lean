import ForthJit.Proofs.Compiler.Stages

/-!
# A local has the value that was last assigned to it

A client of the locals asks for one thing after the other: to declare a local, to give registers up,
to overwrite registers that it has given up, to bind a local to a register and to read one.  When
all is done homes are chosen, and what was staged is run with its reserved reads and writes
replaced.

Whatever the requests are, each read finds the value that was assigned last
(`Client.reads_last_assignment`).
-/

namespace ForthJit

variable {i : Instruction} {d' : Draft} {k : Nat}

open Locals (Resolution Lodged Resident Hold)

/-! ## Clients -/

inductive Request where
  | declare (name : String)
  /-- The registers are about to be overwritten. -/
  | clobber (regs : RegSet)
  | barrier
  | compute (i : Instruction)
  /-- The local is what is in the register now. -/
  | set (id : Nat) (reg : Reg)
  | get (id : Nat) (target : Reg)
  deriving DecidableEq

/-- What is emitted for a request. -/
def Request.emit : Request → Emit Unit
  | declare name => Emit.modifyWord fun w => { w with locals := (w.locals.declare name).2 }
  | clobber regs => Emit.clobber regs
  | barrier => Emit.barrier
  | compute i => do let _ ← Emit.emit i
  | set id reg => Emit.assignLocal id reg
  | get id target => Emit.readLocal id target

structure Client where
  draft : Draft
  /-- The registers that have been given up since a local last came to be in them. -/
  vacated : RegSet

namespace Client

/-- A definition that has just begun. -/
def start (heap : CodeHeap) (w : Definition) : Client where
  draft :=
    { heap := heap.stage (List.replicate prologueSlots Placeholder.prologue.word)
      word := { w with
        start := heap.here, locals := [], patches := [], clobbered := .empty, control := [] } }
  vacated := .empty

def locals (c : Client) : Locals := c.draft.word.locals

def here (c : Client) : Nat := c.draft.heap.here

end Client

/-- The instruction writes to memory. -/
def Instruction.isStore : Instruction → Bool
  | store .. | indexed .storeAfter .. | indexed .storeBefore .. => true
  | pair .storeBefore .. | pair .store .. => true
  | _ => false

namespace Request

/-- Only registers that have been given up are overwritten, and locals are kept out of those that
may become homes. -/
def isPermitted (c : Client) : Request → Bool
  | compute i => i.isPlain && !i.isStore && i.written.all fun q => q ≠ .sp && c.vacated.contains q
  | set id reg => id < c.locals.length && reg.IsWork
  | get id target => id < c.locals.length && target.IsWork && target ≠ .xzr
  | _ => true

/-- The registers that no local is in because they have been given up. -/
def vacated (c : Client) : Request → RegSet
  | clobber regs => c.vacated.union regs
  | set _ reg => c.vacated.difference (.singleton reg)
  | get id target =>
    match c.locals[id]?.bind (·.access? target) with
    | some .load => c.vacated.difference (.singleton target)
    | some (.move _) => c.vacated.insert target
    | _ => c.vacated
  | _ => c.vacated

end Request

namespace Client

/-- What becomes of a client, if it follows the rules and emission succeeds. -/
def ask (settings : Settings) (c : Client) (q : Request) : Option Client :=
  if q.isPermitted c then
    match q.emit settings c.draft with
    | .ok _ draft => some ⟨draft, q.vacated c⟩
    | .error .. => none
  else
    none

def askAll (settings : Settings) (c : Client) (qs : List Request) : Option Client :=
  qs.foldlM (ask settings) c

end Client

/-! ## Running what was staged -/

namespace Draft

/-- The instruction at a position, once reserved reads and writes have been replaced. -/
def instruction? (d : Draft) (r : Resolution) (n : Nat) : Option Instruction :=
  (r.patches.lookup n).or ((d.heap.word? n).bind Instruction.decode?)

/-- Run the instruction at a position, which has to be a plain one. -/
def executeAt (d : Draft) (r : Resolution) (m : Machine) (n : Nat) : Option Machine :=
  ((d.instruction? r n).filter (·.isPlain)).map (·.apply m)

/-- Run the instructions at some positions. -/
def execute (d : Draft) (r : Resolution) (m : Machine) (positions : List Nat) : Option Machine :=
  positions.foldlM (d.executeAt r) m

/-- Run the instructions from one position up to another. -/
def run (d : Draft) (r : Resolution) (m : Machine) (start stop : Nat) : Option Machine :=
  d.execute r m (List.range' start (stop - start))

end Draft

namespace Client

variable {settings : Settings} {c c' c'' : Client} {q : Request} {qs : List Request}

theorem ask_eq_some : c.ask settings q = some c' ↔ q.isPermitted c = true ∧
    ∃ d, q.emit settings c.draft = .ok () d ∧ c' = ⟨d, q.vacated c⟩ := by
  unfold ask
  split
  · next permitted =>
    split
    · next d emitted =>
      simp [permitted, emitted, eq_comm]
    · next emitted =>
      simp [emitted]
  · next refused => simp [refused]

theorem askAll_snoc : c.askAll settings (qs ++ [q]) = some c' ↔
    ∃ c1, c.askAll settings qs = some c1 ∧ c1.ask settings q = some c' := by
  simp [askAll, List.foldlM_append, Option.bind_eq_some_iff]

theorem askAll_append {rs : List Request} : c.askAll settings (qs ++ rs) = some c' ↔
    ∃ c1, c.askAll settings qs = some c1 ∧ c1.askAll settings rs = some c' := by
  simp [askAll, List.foldlM_append, Option.bind_eq_some_iff]

theorem askAll_cons : c.askAll settings (q :: qs) = some c' ↔
    ∃ c1, c.ask settings q = some c1 ∧ c1.askAll settings qs = some c' := by
  simp [askAll, Option.bind_eq_some_iff]

theorem start_logged (heap : CodeHeap) (w : Definition) :
    (start heap w).draft.Logged (fun _ => False) [] := by
  have nothing : Ledger (fun _ => False) heap.here heap.staged [] :=
    ⟨Nat.le_refl _, List.nodup_nil, by simp, fun i w low at_i _ =>
      absurd (Array.getElem?_eq_some_iff.1 at_i).1 (Nat.not_lt.2 low)⟩
  refine Ledger.perm (nothing.reserveAll .prologue prologueSlots) (.of_eq ?_)
  simp [start, Definition.slots, Definition.prologue, Locals.slots, List.range'_eq_map_range,
    CodeHeap.here]

/-- A request only adds to the draft, and its placeholders are recorded. -/
theorem ask_advances (asked : c.ask settings q = some c')
    (logged : c.draft.Logged (fun _ => False) []) :
    c.draft.Advances c'.draft ∧ c'.draft.Logged (fun _ => False) [] := by
  obtain ⟨permitted, d, emitted, rfl⟩ := ask_eq_some.1 asked
  have logs : Emit.Logs (fun _ => False) [] q.emit fun _ => [] := by
    cases q with
    | declare name => exact Emit.declare_logs name
    | clobber regs => exact Emit.clobber_logs regs
    | barrier => exact Emit.barrier_logs
    | compute i =>
      simp only [Request.isPermitted, Bool.and_eq_true] at permitted
      exact .bind (Emit.emit_logs (Instruction.isTrap_of_isPlain permitted.1.1)) fun _ => .pure _
    | set id reg => exact Emit.assignLocal_logs id reg
    | get id target => exact Emit.readLocal_logs id target
  exact logs settings _ _ d emitted logged

theorem askAll_advances (asked : c.askAll settings qs = some c')
    (logged : c.draft.Logged (fun _ => False) []) :
    c.draft.Advances c'.draft ∧ c'.draft.Logged (fun _ => False) [] := by
  induction qs generalizing c with
  | nil =>
    cases asked
    exact ⟨.refl _, logged⟩
  | cons q qs ih =>
    obtain ⟨c1, first, rest⟩ := askAll_cons.1 asked
    obtain ⟨advances1, logged1⟩ := ask_advances first logged
    obtain ⟨advances2, logged2⟩ := ih rest logged1
    exact ⟨advances1.trans advances2, logged2⟩

end Client

namespace Draft

variable {d d' final : Draft} {r : Resolution} {overwritten : RegSet} {m : Machine}
  {is : List Instruction}

theorem lookup_of_mem {patches : List (Nat × Instruction)} {n : Nat}
    (once : (patches.map (·.1)).Nodup) (member : (n, i) ∈ patches) : patches.lookup n = some i := by
  induction patches with
  | nil => cases member
  | cons first patches ih =>
    obtain ⟨fresh, once⟩ := List.nodup_cons.1 once
    rcases List.mem_cons.1 member with rfl | later
    · exact List.lookup_cons_self
    · have other : n ≠ first.1 := by
        rintro rfl
        exact fresh (List.mem_map_of_mem (f := (·.1)) later)
      rw [List.lookup_cons, beq_false_of_ne other]
      exact ih once later

/-- What has been staged is found at its position in the end. -/
theorem Stages.instruction? (stages : d.Stages r d' is) (onward : d'.Advances final)
    (logged : final.Logged (fun _ => False) [])
    (resolved : final.word.locals.resolve overwritten = .ok r) {n : Nat}
    (found : is[n]? = some i) :
    i.isPlain = true ∧ final.instruction? r (d.heap.here + n) = some i := by
  have indices := Locals.resolveFrom_indices resolved
  have slots : final.word.locals.slots.Sublist (final.word.slots ++ []) := by
    rw [List.append_nil]
    exact (List.sublist_append_right _ _).trans (List.sublist_append_left _ _)
  obtain ⟨plain, patched | staged⟩ := stages.word? onward found
  · have once : (r.patches.map (·.1)).Nodup := by
      rw [indices]
      exact logged.once.sublist (slots.map _)
    exact ⟨plain, by rw [Draft.instruction?, lookup_of_mem once patched, Option.some_or]⟩
  · have unpatched : r.patches.lookup (d.heap.here + n) = none := by
      rw [List.lookup_eq_none_iff]
      intro patch member
      rw [bne_iff_ne]
      intro same
      -- A placeholder stands at the position of every patch.
      have index := List.mem_map_of_mem (f := (·.1)) member
      rw [indices] at index
      obtain ⟨slot, isSlot, at_slot⟩ := List.mem_map.1 index
      have held := (logged.held slot (slots.subset isSlot)).2
      rw [at_slot, ← same] at held
      have final' := Instruction.encode_final (Instruction.isTrap_of_isPlain plain)
      rw [← Option.some.inj (held.symm.trans staged)] at final'
      exact slot.2.not_final final'
    refine ⟨plain, ?_⟩
    rw [Draft.instruction?, unpatched, Option.none_or, staged, Option.bind_some]
    exact Instruction.decode?_eq_some.2 rfl

theorem execute_append {ps qs : List Nat} : d.execute r m (ps ++ qs) =
    (d.execute r m ps).bind fun m' => d.execute r m' qs := by
  simp [execute, List.foldlM_append]

/-- Instructions are run one after the other. -/
theorem execute_range' {start : Nat} (each : ∀ (n : Nat) i, is[n]? = some i →
      i.isPlain = true ∧ d.instruction? r (start + n) = some i) :
    d.execute r m (List.range' start is.length) = some (Instruction.applyAll m is) := by
  induction is generalizing start m with
  | nil => rfl
  | cons i is ih =>
    obtain ⟨plain, first⟩ := each 0 i rfl
    have here : d.executeAt r m start = some (i.apply m) := by
      rw [Nat.add_zero] at first
      rw [executeAt, first, Option.filter_some, if_pos plain, Option.map_some]
    rw [List.length_cons, List.range'_succ, execute, List.foldlM_cons, here]
    refine ih fun n j found => ?_
    have sum : start + 1 + n = start + (n + 1) := by omega
    rw [sum]
    exact each (n + 1) j found

end Draft

/-! ## What a client can rely on -/

theorem Instruction.memory_apply {m : Machine} (other : i.isStore = false) :
    (i.apply m).memory = m.memory := by
  cases i with
  | indexed op rt rn imm =>
    cases op with
    | loadAfter | loadBefore => exact Machine.memory_write
    | storeAfter | storeBefore => cases other
  | pair op rt rt2 rn imm =>
    cases op with
    | loadAfter | load => exact Machine.memory_write.trans Machine.memory_write
    | storeBefore | store => cases other
  | store rt rn imm => cases other
  | wideMove _ _ _ _ | alu _ _ _ _ | cset _ _ | load _ _ _ => exact Machine.memory_write
  | _ => rfl

namespace Client

variable {settings : Settings} {c c' : Client} {q : Request} {qs : List Request} {r : Resolution}
  {final : Locals} {values : Nat → Option Cell} {size : Nat} {overwritten : RegSet} {m : Machine}

/-- No local is in a register that may be overwritten, and the locals have their values. -/
structure Knows (r : Resolution) (final : Locals) (values : Nat → Option Cell) (m : Machine)
    (c : Client) : Prop where
  declared : ∀ k v, values k = some v → k < c.locals.length
  resident : Resident (fun q => q.IsWork ∧ c.vacated.contains q = false) c.locals
  vacated : ∀ q, c.vacated.contains q = true → c.draft.word.clobbered.contains q = true
  hold : Hold r final values 0 m c.locals

theorem Knows.compute (knows : c.Knows r final values m) (lodged : Lodged size final r)
    (homes : ∀ k q, r.home? k = some (.register q) → c.draft.word.clobbered.contains q = false)
    (permitted : (Request.compute i).isPermitted c = true) :
    Hold r final values 0 (i.apply m) c.locals := by
  simp only [Request.isPermitted, Bool.and_eq_true, Bool.not_eq_true', List.all_eq_true,
    decide_eq_true_eq] at permitted
  obtain ⟨⟨-, memory⟩, written⟩ := permitted
  have same : ∀ q, c.vacated.contains q = false ∨ q = .sp → (i.apply m).regs q = m.regs q := by
    intro q kept
    refine Instruction.apply_regs fun isWritten => ?_
    obtain ⟨other, vacated⟩ := written q isWritten
    rcases kept with outside | rfl
    · cases outside.symm.trans vacated
    · exact other rfl
  refine knows.hold.congr (fun l member q inside => ?_) fun k _ home found => ?_
  · exact Machine.read_congr (same q (Or.inl (knows.resident l member q inside).2))
  · refine Home.value_congr (lodged.fits k home found) lodged.small (fun q isHome => same q ?_)
      (same .sp (Or.inr rfl)) fun a _ => congrFun (Instruction.memory_apply memory) a
    cases vacated : c.vacated.contains q with
    | false => exact Or.inl rfl
    | true =>
      cases (homes k q (found.trans (congrArg some isHome))).symm.trans (knows.vacated q vacated)

theorem Knows.declare (knows : c.Knows r final values m) (name : String) :
    Resident (fun q => q.IsWork ∧ c.vacated.contains q = false) (c.locals.declare name).2 ∧
      Hold r final values 0 m (c.locals.declare name).2 := by
  unfold Locals.declare
  split
  · exact ⟨knows.resident, knows.hold⟩
  · refine ⟨fun l member q inside => ?_, fun k l l' v found final' value => ?_⟩
    · rcases List.mem_append.1 member with old | new
      · exact knows.resident l old q inside
      · rw [List.mem_singleton.1 new] at inside
        cases inside
    · rw [Nat.zero_add] at value
      rw [List.getElem?_append_left (knows.declared k v value)] at found
      exact knows.hold k l l' v found final' (by rwa [Nat.zero_add])

theorem Knows.set_resident (knows : c.Knows r final values m) (id : Nat) {reg : Reg}
    (work : reg.IsWork) :
    Resident (fun q => q.IsWork ∧ ((Request.set id reg).vacated c).contains q = false)
      (c.locals.modify id (·.assign reg)) := by
  have others : Resident (fun q => q.IsWork ∧ ((Request.set id reg).vacated c).contains q = false)
      c.locals := by
    refine knows.resident.mono fun q both => ⟨both.1, ?_⟩
    rw [Request.vacated, RegSet.contains_difference, both.2, Bool.false_and]
  refine others.modify ?_
  rintro l q ⟨⟩
  exact ⟨work, by simp [Request.vacated, RegSet.singleton]⟩

variable {id : Nat} {target : Reg} {l' : Local}

/-- A register into which a local is moved has been given up before. -/
theorem moved_clobbered {source : Reg} {d : Draft} {l : Local} (found : d.word.locals[id]? = some l)
    (access : l.access? target = some (.move source))
    (emitted : Emit.readLocal id target settings d = .ok () d') :
    d'.word.clobbered.contains target = true := by
  rcases Emit.readLocal_ok found emitted with ⟨same, -⟩ | ⟨source, -, moved⟩ | ⟨same, -⟩
  · cases access.symm.trans same
  · obtain ⟨_, d1, saved, rest⟩ := Emit.bind_ok.1 moved
    replace rest := Emit.emitWord_bind rest
    obtain ⟨-, rfl⟩ := Emit.clobber_ok saved
    cases rest
    show (RegSet.union _ _).contains target = true
    simp [RegSet.singleton]
  · cases access.symm.trans same

theorem Knows.get (knows : c.Knows r final values m) (lodged : Lodged size final r) {d : Draft}
    (permitted : (Request.get id target).isPermitted c = true)
    (emitted : Emit.readLocal id target settings c.draft = .ok () d)
    (onward : d.word.locals.Advances final)
    (grows : ∀ q, c.draft.word.clobbered.contains q = true → d.word.clobbered.contains q = true) :
    ∃ is, c.draft.Stages r d is ∧
      Resident (fun q => q.IsWork ∧ ((Request.get id target).vacated c).contains q = false)
        d.word.locals ∧
      (∀ q, ((Request.get id target).vacated c).contains q = true →
        d.word.clobbered.contains q = true) ∧
      Hold r final values 0 (Instruction.applyAll m is) d.word.locals ∧
      ∀ v, values id = some v → (Instruction.applyAll m is).read target = v := by
  simp only [Request.isPermitted, Bool.and_eq_true, decide_eq_true_eq] at permitted
  obtain ⟨⟨bound, targetWork⟩, data⟩ := permitted
  obtain ⟨l, found⟩ : ∃ l, c.locals[id]? = some l := ⟨_, List.getElem?_eq_getElem bound⟩
  obtain ⟨is, stages, -, held, value, free⟩ := Emit.readLocal_runs lodged onward knows.resident
    (fun q both => both.1) knows.hold targetWork data found emitted
  have moved : ∀ source, l.access? target = some (.move source) →
      d.word.clobbered.contains target = true :=
    fun source access => moved_clobbered found access emitted
  have vacated : (Request.get id target).vacated c =
      match l.access? target with
      | some .load => c.vacated.difference (.singleton target)
      | some (.move _) => c.vacated.insert target
      | _ => c.vacated := by
    rw [Request.vacated, found, Option.bind_some]
  rw [vacated]
  refine ⟨is, stages, free.mono fun q cases => ?_, fun q member => ?_, held, value⟩
  · generalize l.access? target = access at cases ⊢
    rcases cases with ⟨⟨isWork, outside⟩, other⟩ | ⟨rfl, rfl⟩
    · refine ⟨isWork, ?_⟩
      rcases access with _ | _ | source | _
      · exact outside
      · exact outside
      · have ne : q ≠ target := other.resolve_left (by simp)
        simp [outside, ne]
      · simp [outside]
    · exact ⟨targetWork, by simp [RegSet.singleton]⟩
  · generalize l.access? target = access at moved member
    rcases access with _ | _ | source | _
    · exact grows q (knows.vacated q member)
    · exact grows q (knows.vacated q member)
    · rw [RegSet.contains_insert, Bool.or_eq_true, decide_eq_true_eq] at member
      rcases member with old | rfl
      · exact grows q (knows.vacated q old)
      · exact moved source rfl
    · rw [RegSet.contains_difference, Bool.and_eq_true] at member
      exact grows q (knows.vacated q member.1)

/-- A request that assigns nothing of what is known keeps it, and a read finds it. -/
theorem ask_runs (knows : c.Knows r final values m) (lodged : Lodged size final r)
    (logged : c.draft.Logged (fun _ => False) []) (asked : c.ask settings q = some c')
    (onward : c'.locals.Advances final)
    (homes : ∀ k q, r.home? k = some (.register q) → c'.draft.word.clobbered.contains q = false)
    (unset : ∀ id reg, q = .set id reg → values id = none) :
    ∃ is, c.draft.Stages r c'.draft is ∧ c'.Knows r final values (Instruction.applyAll m is) ∧
      ∀ id target v, q = .get id target → values id = some v →
        (Instruction.applyAll m is).read target = v := by
  have declared : ∀ k v, values k = some v → k < c'.locals.length := by
    intro k v value
    obtain ⟨l', found', -⟩ := (ask_advances asked logged).1.word.locals k _
      (List.getElem?_eq_getElem (knows.declared k v value))
    exact (List.getElem?_eq_some_iff.1 found').1
  obtain ⟨permitted, d, emitted, rfl⟩ := ask_eq_some.1 asked
  have work : ∀ q : Reg, q.IsWork ∧ c.vacated.contains q = false → q.IsWork := fun q both => both.1
  cases q with
  | declare name =>
    cases emitted
    obtain ⟨resident, held⟩ := knows.declare name
    exact ⟨[], .nil r rfl, ⟨declared, resident, knows.vacated, held⟩, by simp⟩
  | clobber regs =>
    obtain ⟨is, stages, -, held, free⟩ :=
      Emit.clobber_runs lodged onward knows.resident work knows.hold emitted
    obtain ⟨-, rfl⟩ := Emit.clobber_ok emitted
    refine ⟨is, stages, ⟨declared, ?_, ?_, held⟩, by simp⟩
    · refine free.mono fun q all => ⟨all.1.1, ?_⟩
      rw [Request.vacated, RegSet.contains_union, all.1.2, all.2]
      rfl
    · intro q member
      rw [Request.vacated, RegSet.contains_union, Bool.or_eq_true] at member
      show (RegSet.union _ _).contains q = true
      rw [RegSet.contains_union, Bool.or_eq_true]
      exact member.imp_left (knows.vacated q)
  | barrier =>
    obtain ⟨is, stages, -, held, free⟩ :=
      Emit.spill_runs lodged onward knows.resident work knows.hold emitted
    obtain ⟨-, rfl⟩ := Emit.spill_ok emitted
    exact ⟨is, stages, ⟨declared, free.mono fun q all => all.1, knows.vacated, held⟩, by simp⟩
  | compute i =>
    have rest := Emit.emitWord_bind emitted
    cases rest
    have plain : i.isPlain = true := by
      simp only [Request.isPermitted, Bool.and_eq_true] at permitted
      exact permitted.1.1
    exact ⟨[i], .emit plain rfl, ⟨declared, knows.resident, knows.vacated,
      knows.compute lodged homes permitted⟩, by simp⟩
  | set id reg =>
    cases emitted
    simp only [Request.isPermitted, Bool.and_eq_true, decide_eq_true_eq] at permitted
    refine ⟨[], .nil r rfl, ⟨declared, ?_, fun q member => knows.vacated q ?_,
      knows.hold.modify fun l l' v _ _ value => ?_⟩, by simp⟩
    · exact knows.set_resident id permitted.2
    · rw [Request.vacated, RegSet.contains_difference, Bool.and_eq_true] at member
      exact member.1
    · cases (unset id reg rfl).symm.trans value
  | get id target =>
    obtain ⟨is, stages, resident, vacated, held, value⟩ := knows.get lodged permitted emitted onward
      (ask_advances asked logged).1.word.clobbered
    refine ⟨is, stages, ⟨declared, resident, vacated, held⟩, ?_⟩
    rintro _ _ v ⟨⟩
    exact value v

/-! ## All requests -/

/-- The draft is finished: homes outside `overwritten`, which holds every register that was given
up, have been chosen as `r` says. -/
structure Settled (overwritten : RegSet) (r : Resolution) (d : Draft) : Prop where
  logged : d.Logged (fun _ => False) []
  covered : ∀ q, d.word.clobbered.contains q = true → overwritten.contains q = true
  resolved : d.word.locals.resolve overwritten = .ok r

variable {d : Draft}

theorem Settled.lodged (settled : Settled overwritten r d) :
    Lodged (8 * r.slots) d.word.locals r := by
  have few := Locals.slots_le settled.resolved
  exact (Locals.lodged settled.resolved (Nat.le_refl _) (by omega)).1

theorem Settled.homes (settled : Settled overwritten r d) (onward : d'.Advances d) {q : Reg}
    (home : r.home? k = some (.register q)) : d'.word.clobbered.contains q = false := by
  have few := Locals.slots_le settled.resolved
  have outside := ((Locals.lodged settled.resolved (Nat.le_refl _) (by omega)).2 k q home).1
  rw [Bool.eq_false_iff] at outside ⊢
  exact fun inside => outside (settled.covered q (onward.word.clobbered q inside))

/-- Requests that assign nothing of what is known keep it. -/
theorem askAll_runs (settled : Settled overwritten r d) (knows : c.Knows r d.word.locals values m)
    (logged : c.draft.Logged (fun _ => False) []) (asked : c.askAll settings qs = some c')
    (onward : c'.draft.Advances d) (unset : ∀ id reg, .set id reg ∈ qs → values id = none) :
    ∃ n m', c'.here = c.here + n ∧ d.execute r m (List.range' c.here n) = some m' ∧
      c'.Knows r d.word.locals values m' := by
  induction qs generalizing c m with
  | nil =>
    cases asked
    exact ⟨0, m, rfl, rfl, knows⟩
  | cons q qs ih =>
    obtain ⟨c1, first, rest⟩ := askAll_cons.1 asked
    have logged1 := (ask_advances first logged).2
    have onward1 := (askAll_advances rest logged1).1.trans onward
    obtain ⟨is, stages, knows1, -⟩ := ask_runs knows settled.lodged logged first
      onward1.word.locals (fun _ _ => settled.homes onward1)
      fun id reg same => unset id reg (same ▸ List.mem_cons_self)
    obtain ⟨n, m', here, runs, knows'⟩ := ih knows1 logged1 rest
      fun id reg member => unset id reg (List.mem_cons_of_mem _ member)
    have here1 : c1.here = c.here + is.length := stages.here
    refine ⟨is.length + n, m', by rw [here, here1, Nat.add_assoc], ?_, knows'⟩
    have own : d.execute r m (List.range' c.here is.length) = some (Instruction.applyAll m is) :=
      Draft.execute_range' fun n i found =>
        stages.instruction? onward1 settled.logged settled.resolved found
    rw [← List.range'_append_1, Draft.execute_append, own, Option.bind_some, ← here1]
    exact runs

/-- Giving registers up assigns nothing. -/
theorem spilled_assigned {regs : RegSet} (found : (Emit.spilling regs d).locals[id]? = some l')
    (assigned : l'.state ≠ .uninitialized) :
    ∃ l, d.word.locals[id]? = some l ∧ l.state ≠ .uninitialized := by
  obtain ⟨l, found0, released⟩ := Locals.of_clobber_getElem? found
  refine ⟨l, found0, ?_⟩
  cases released with
  | stays | leaves => exact assigned
  | spills _ _ _ unstable =>
    rw [unstable]
    exact LocalState.noConfusion

/-- Changing one local assigns to no other, and to none if its state stays. -/
theorem modified_assigned {ls : Locals} {f : Local → Local}
    (same : k = id → ∀ l, (f l).state = l.state) (found : (ls.modify k f)[id]? = some l')
    (assigned : l'.state ≠ .uninitialized) : ∃ l, ls[id]? = some l ∧ l.state ≠ .uninitialized := by
  rw [List.getElem?_modify] at found
  obtain ⟨l, found0, rfl⟩ := Option.map_eq_some_iff.1 found
  refine ⟨l, found0, ?_⟩
  split at assigned
  · next isId => rwa [same isId] at assigned
  · exact assigned

/-- Reading a local assigns nothing. -/
theorem read_assigned (emitted : Emit.readLocal k target settings d = .ok () d')
    (bound : k < d.word.locals.length) (found : d'.word.locals[id]? = some l')
    (assigned : l'.state ≠ .uninitialized) :
    ∃ l, d.word.locals[id]? = some l ∧ l.state ≠ .uninitialized := by
  rcases Emit.readLocal_ok (List.getElem?_eq_getElem bound) emitted with
    ⟨-, rfl⟩ | ⟨source, -, moved⟩ | ⟨-, loaded⟩
  · exact ⟨l', found, assigned⟩
  · obtain ⟨_, d1, saved, rest⟩ := Emit.bind_ok.1 moved
    replace rest := Emit.emitWord_bind rest
    obtain ⟨-, rfl⟩ := Emit.clobber_ok saved
    cases rest
    exact spilled_assigned found assigned
  · obtain ⟨_, d1, saved, rest⟩ := Emit.bind_ok.1 loaded
    replace rest := Emit.emitWord_bind rest
    obtain ⟨-, rfl⟩ := Emit.clobber_ok saved
    cases rest
    have same : k = id → ∀ l : Local,
        (l.recordRead (Emit.clobbering (.singleton target) d).heap.here target).state = l.state :=
      fun _ _ => rfl
    obtain ⟨l1, found1, assigned1⟩ := modified_assigned same found assigned
    exact spilled_assigned found1 assigned1

/-- A local that has a value has been assigned one. -/
theorem ask_assigned (asked : c.ask settings q = some c') (found : c'.locals[id]? = some l')
    (assigned : l'.state ≠ .uninitialized) :
    (∃ reg, q = .set id reg) ∨ ∃ l, c.locals[id]? = some l ∧ l.state ≠ .uninitialized := by
  obtain ⟨permitted, d, emitted, rfl⟩ := ask_eq_some.1 asked
  cases q with
  | declare name =>
    cases emitted
    right
    replace found : (c.locals.declare name).2[id]? = some l' := found
    unfold Locals.declare at found
    split at found
    · exact ⟨l', found, assigned⟩
    · rw [List.getElem?_append] at found
      split at found
      · exact ⟨l', found, assigned⟩
      · have new := List.mem_of_getElem? found
        rw [List.mem_singleton.1 new] at assigned
        exact absurd rfl assigned
  | clobber regs =>
    obtain ⟨-, rfl⟩ := Emit.clobber_ok emitted
    exact Or.inr (spilled_assigned found assigned)
  | barrier =>
    obtain ⟨-, rfl⟩ := Emit.spill_ok emitted
    exact Or.inr (spilled_assigned found assigned)
  | compute i =>
    have rest := Emit.emitWord_bind emitted
    cases rest
    exact Or.inr ⟨l', found, assigned⟩
  | set k reg =>
    cases emitted
    by_cases same : k = id
    · exact Or.inl ⟨reg, by rw [same]⟩
    · exact Or.inr (modified_assigned (fun isId => absurd isId same) found assigned)
  | get k target =>
    simp only [Request.isPermitted, Bool.and_eq_true, decide_eq_true_eq] at permitted
    exact Or.inr (read_assigned emitted permitted.1.1 found assigned)

theorem last_assignment {heap : CodeHeap} {w : Definition} {l : Local}
    (asked : (start heap w).askAll settings qs = some c) (found : c.locals[id]? = some l)
    (assigned : l.state ≠ .uninitialized) :
    ∃ before source between, qs = before ++ .set id source :: between ∧
      ∀ reg, .set id reg ∉ between := by
  induction qs using List.reverseRecOn generalizing c l with
  | nil =>
    cases asked
    cases found
  | append_singleton qs q ih =>
    obtain ⟨c1, earlier, last⟩ := askAll_snoc.1 asked
    rcases ask_assigned last found assigned with ⟨reg, rfl⟩ | ⟨l1, found1, assigned1⟩
    · exact ⟨qs, reg, [], rfl, by simp⟩
    · obtain ⟨before, source, between, rfl, unset⟩ := ih earlier found1 assigned1
      by_cases isSet : ∃ reg, q = .set id reg
      · obtain ⟨reg, rfl⟩ := isSet
        exact ⟨_, reg, [], rfl, by simp⟩
      · refine ⟨before, source, between ++ [q], by simp, fun reg member => ?_⟩
        rcases List.mem_append.1 member with old | new
        · exact unset reg old
        · exact isSet ⟨reg, (List.mem_singleton.1 new).symm⟩

theorem Knows.start (heap : CodeHeap) (w : Definition) (r : Resolution) (final : Locals)
    (m : Machine) : (Client.start heap w).Knows r final (fun _ => none) m where
  declared := by simp
  resident := fun l member => absurd member List.not_mem_nil
  vacated := by
    intro q member
    rw [Client.start, RegSet.contains_empty] at member
    cases member
  hold := fun _ _ _ _ _ _ value => by cases value

/-- What has just been assigned is known. -/
theorem Knows.set {source : Reg} (knows : c'.Knows r final (fun _ => none) m)
    (asked : c.ask settings (.set id source) = some c') :
    c'.Knows r final (Function.update (fun _ => none) id (some (m.read source))) m := by
  have value_eq : ∀ {k v}, Function.update (fun _ => none) id (some (m.read source)) k = some v →
      k = id ∧ m.read source = v := by
    intro k v value
    by_cases same : k = id
    · rw [same, Function.update_self] at value
      exact ⟨same, Option.some.inj value⟩
    · rw [Function.update_of_ne same] at value
      cases value
  obtain ⟨permitted, d, emitted, rfl⟩ := ask_eq_some.1 asked
  cases emitted
  simp only [Request.isPermitted, Bool.and_eq_true, decide_eq_true_eq] at permitted
  refine ⟨fun k v value => ?_, knows.resident, knows.vacated, fun k l l' v found final' value => ?_⟩
  · obtain ⟨rfl, -⟩ := value_eq value
    show k < (c.locals.modify k _).length
    rw [List.length_modify]
    exact permitted.1
  · rw [Nat.zero_add] at value ⊢
    obtain ⟨rfl, rfl⟩ := value_eq value
    replace found : (c.locals.modify k (·.assign source))[k]? = some l := found
    rw [List.getElem?_modify] at found
    obtain ⟨l0, -, rfl⟩ := Option.map_eq_some_iff.1 found
    rw [if_pos rfl]
    exact .assign m _ l' l0 source

/-- Each read finds what was last assigned to its local: some assignment comes before it, and none
between the two. -/
theorem reads_last_assignment {heap : CodeHeap} {w : Definition} {trace after : List Request}
    {id : Nat} {target : Reg} {c2 : Client}
    (read : (start heap w).askAll settings (trace ++ [.get id target]) = some c2)
    (rest : c2.askAll settings after = some c)
    (covered : ∀ q, c.draft.word.clobbered.contains q = true → overwritten.contains q = true)
    (resolved : c.locals.resolve overwritten = .ok r) :
    ∃ before source between c1, trace = before ++ .set id source :: between ∧
      (∀ reg, .set id reg ∉ between) ∧
      (start heap w).askAll settings (before ++ [.set id source]) = some c1 ∧
      ∀ m, ∃ m1 m2, c.draft.run r m (start heap w).here c1.here = some m1 ∧
        c.draft.run r m1 c1.here c2.here = some m2 ∧ m2.read target = m1.read source := by
  obtain ⟨c', earlier, got⟩ := askAll_snoc.1 read
  -- Only what has been assigned can be read.
  obtain ⟨permitted, d, emitted, -⟩ := ask_eq_some.1 got
  simp only [Request.isPermitted, Bool.and_eq_true, decide_eq_true_eq] at permitted
  obtain ⟨l, found⟩ : ∃ l, c'.locals[id]? = some l := ⟨_, List.getElem?_eq_getElem permitted.1.1⟩
  have assigned : l.state ≠ .uninitialized := by
    rcases Emit.readLocal_ok found emitted with ⟨access, -⟩ | ⟨_, access, -⟩ | ⟨access, -⟩
    · exact Local.assigned_of_access? access
    · exact Local.assigned_of_access? access
    · exact Local.assigned_of_access? access
  obtain ⟨before, source, between, rfl, unset⟩ := last_assignment earlier found assigned
  obtain ⟨c0, asked0, later⟩ := askAll_append.1 earlier
  obtain ⟨c1, set, asked⟩ := askAll_cons.1 later
  have asked1 : (start heap w).askAll settings (before ++ [.set id source]) = some c1 :=
    askAll_snoc.2 ⟨c0, asked0, set⟩
  refine ⟨before, source, between, c1, rfl, unset, asked1, fun m => ?_⟩
  have logged1 := (askAll_advances asked1 (start_logged heap w)).2
  have logged' := (askAll_advances asked logged1).2
  have logged2 := (ask_advances got logged').2
  have settled : Settled overwritten r c.draft :=
    ⟨(askAll_advances rest logged2).2, covered, resolved⟩
  have onward2 := (askAll_advances rest logged2).1
  have onward' := (ask_advances got logged').1.trans onward2
  have onward1 := (askAll_advances asked logged1).1.trans onward'
  obtain ⟨n, m1, here1, runs1, knows1⟩ := askAll_runs settled (.start heap w r _ m)
    (start_logged heap w) asked1 onward1 fun _ _ _ => rfl
  have others : ∀ id' reg, Request.set id' reg ∈ between →
      Function.update (fun _ => none) id (some (m1.read source)) id' = none := by
    intro id' reg member
    refine Function.update_of_ne ?_ ..
    rintro rfl
    exact unset reg member
  obtain ⟨k, m', here', runs', knows'⟩ :=
    askAll_runs settled (knows1.set set) logged1 asked onward' others
  obtain ⟨is, stages, -, value⟩ := ask_runs knows' settled.lodged logged' got onward2.word.locals
    (fun _ _ => settled.homes onward2) fun _ _ same => by cases same
  have own : c.draft.execute r m' (List.range' c'.here is.length) =
      some (Instruction.applyAll m' is) :=
    Draft.execute_range' fun n i found =>
      stages.instruction? onward2 settled.logged settled.resolved found
  have here2 : c2.here = c1.here + (k + is.length) := by
    rw [← Nat.add_assoc, ← here']
    exact stages.here
  refine ⟨m1, Instruction.applyAll m' is, ?_, ?_, value id target _ rfl (Function.update_self ..)⟩
  · rw [Draft.run, here1, Nat.add_sub_cancel_left]
    exact runs1
  · rw [Draft.run, here2, Nat.add_sub_cancel_left, ← List.range'_append_1, Draft.execute_append,
      runs', Option.bind_some, ← here', own]

/-- A local is assigned twice and saved twice. -/
def savedTwice : List Request :=
  [.declare "a", .set 0 (.ofNat 0), .clobber (.singleton (.ofNat 0)),
    .compute (.wideMove .zero (.ofNat 0) 7 0), .set 0 (.ofNat 0), .barrier,
    .clobber (.singleton (.ofNat 0)), .compute (.wideMove .zero (.ofNat 0) 8 0)]

/-- A third assignment, which is saved in vain. -/
def savedInVain : List Request := [.set 0 (.ofNat 2), .clobber (.singleton (.ofNat 2))]

/-- A local is assigned twice, saved twice and read from a slot of the frame; a third assignment is
saved in vain. -/
theorem reads_last_assignment_from_slot :
    ∃ heap c2 c r, CodeHeap.create {} {} = .ok heap ∧
      let w : Definition := { entry := 0, name := "w", signature := { inputs := 1, outputs := 1 }
                              start := 0, snapshot := ⟨0, 0, 0, 0, 0⟩ }
      (start heap w).askAll {} (savedTwice ++ [.get 0 (.ofNat 1)]) = some c2 ∧
      c2.askAll {} savedInVain = some c ∧
      (∀ q, c.draft.word.clobbered.contains q = true → RegSet.full.contains q = true) ∧
      c.locals.resolve .full = .ok r ∧ r.home? 0 = some (.slot 0) ∧
      ∃ before source between c1, savedTwice = before ++ .set 0 source :: between ∧
        (∀ reg, .set 0 reg ∉ between) ∧
        (start heap w).askAll {} (before ++ [.set 0 source]) = some c1 ∧
        ∀ m, ∃ m1 m2, c.draft.run r m (start heap w).here c1.here = some m1 ∧
          c.draft.run r m1 c1.here c2.here = some m2 ∧ m2.read (.ofNat 1) = m1.read source := by
  let w : Definition := { entry := 0, name := "w", signature := { inputs := 1, outputs := 1 }
                          start := 0, snapshot := ⟨0, 0, 0, 0, 0⟩ }
  have state : (CodeHeap.create {} {}).toOption.bind (fun heap =>
      ((start heap w).askAll {} (savedTwice ++ [.get 0 (.ofNat 1)])).bind fun c2 =>
        (c2.askAll {} savedInVain).bind fun c =>
          (c.locals.resolve .full).toOption.map fun r => r.home? 0) = some (some (.slot 0)) := by
    decide +kernel
  obtain ⟨heap, created, state⟩ := toOption_bind.1 state
  obtain ⟨c2, read, state⟩ := Option.bind_eq_some_iff.1 state
  obtain ⟨c, rest, state⟩ := Option.bind_eq_some_iff.1 state
  obtain ⟨r, resolved, home⟩ := toOption_map.1 state
  have covered : ∀ q, c.draft.word.clobbered.contains q = true → RegSet.full.contains q = true :=
    fun q _ => RegSet.contains_full q
  exact ⟨heap, c2, c, r, created, read, rest, covered, resolved, home,
    reads_last_assignment read rest covered resolved⟩

end Client

end ForthJit
