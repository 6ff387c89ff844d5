import ForthJit.Proofs.Compiler.Logged
import ForthJit.Proofs.Definition.Holds

/-!
# Running what is staged for locals

The words that saving and reading locals stage are run once the reserved ones among them have become
what resolution says (`Draft.Stages`).  Saving locals changes nothing but homes, and reading one
puts its value in the target; after either every local still has its value.
-/

namespace ForthJit

open Locals (Resolution Lodged Resident Hold Spares)

/-! ## Staged instructions -/

/-- Between `d` and `d'` words are staged that become the plain instructions `is`: each is one of
them already, or `r` makes it one. -/
def Draft.Stages (r : Resolution) (d d' : Draft) (is : List Instruction) : Prop :=
  ∃ ws : List InstrWord, d'.heap = d.heap.stage ws ∧ ws.length = is.length ∧
    ∀ (n : Nat) i, is[n]? = some i → i.isPlain = true ∧
      ((d.heap.here + n, i) ∈ r.patches ∨ ws[n]? = some i.encode)

namespace Draft.Stages

variable {r : Resolution} {d d' d'' : Draft} {is js : List Instruction}

theorem nil (r : Resolution) (same : d'.heap = d.heap) : d.Stages r d' [] :=
  ⟨[], by rw [same, CodeHeap.stage_nil], rfl, by simp⟩

theorem here (stages : d.Stages r d' is) : d'.heap.here = d.heap.here + is.length := by
  obtain ⟨ws, heap, length, -⟩ := stages
  rw [heap, CodeHeap.here_stage, length]

theorem trans (first : d.Stages r d' is) (second : d'.Stages r d'' js) :
    d.Stages r d'' (is ++ js) := by
  have here := first.here
  obtain ⟨ws, heap, length, each⟩ := first
  obtain ⟨vs, heap', length', each'⟩ := second
  refine ⟨ws ++ vs, by rw [heap', heap, CodeHeap.stage_stage],
    by rw [List.length_append, List.length_append, length, length'], fun n i found => ?_⟩
  rw [List.getElem?_append] at found ⊢
  split at found
  · next inside =>
    rw [if_pos (length ▸ inside)]
    exact each n i found
  · next outside =>
    rw [if_neg (length ▸ outside), length]
    have sum : d.heap.here + n = d'.heap.here + (n - is.length) := by omega
    rw [sum]
    exact each' _ i found

variable {i : Instruction}

/-- What is staged as an instruction stays. -/
theorem word? (stages : d.Stages r d' is) (onward : d'.Advances d'') {n : Nat}
    (found : is[n]? = some i) :
    i.isPlain = true ∧
      ((d.heap.here + n, i) ∈ r.patches ∨ d''.heap.word? (d.heap.here + n) = some i.encode) := by
  obtain ⟨ws, heap, -, each⟩ := stages
  obtain ⟨plain, patched | staged⟩ := each n i found
  · exact ⟨plain, Or.inl patched⟩
  · refine ⟨plain, Or.inr (onward.staged.kept ?_
      (Instruction.encode_final (Instruction.isTrap_of_isPlain plain)))⟩
    show d'.heap.word? (d.heap.here + n) = _
    rw [heap, CodeHeap.word?_stage, staged]

/-- One instruction that is staged as such. -/
theorem emit (plain : i.isPlain = true) (staged : d'.heap = d.heap.stage [i.encode]) :
    d.Stages r d' [i] := by
  refine ⟨[i.encode], staged, rfl, fun n j found => ?_⟩
  obtain ⟨rfl, rfl⟩ : n = 0 ∧ i = j := by
    cases n with
    | zero => exact ⟨rfl, Option.some.inj found⟩
    | succ n => cases found
  exact ⟨plain, Or.inr rfl⟩

/-- One reserved instruction. -/
theorem reserve {w : InstrWord} (plain : i.isPlain = true) (patched : (d.heap.here, i) ∈ r.patches)
    (staged : d'.heap = d.heap.stage [w]) : d.Stages r d' [i] := by
  refine ⟨[w], staged, rfl, fun n j found => ?_⟩
  obtain ⟨rfl, rfl⟩ : n = 0 ∧ i = j := by
    cases n with
    | zero => exact ⟨rfl, Option.some.inj found⟩
    | succ n => cases found
  exact ⟨plain, Or.inl patched⟩

end Draft.Stages

/-! ## Saving and reading -/

namespace Emit

variable {r : Resolution} {final : Locals} {values : Nat → Option Cell} {size : Nat} {m : Machine}
  {settings : Settings} {d d' : Draft} {P : Reg → Prop} {regs : RegSet} {target : Reg}

/-- `m'` differs from `m` at most in `target` and at homes. -/
structure Delivers (size : Nat) (target : Reg) (m m' : Machine) : Prop where
  regs : ∀ q : Reg, q.IsWork → q ≠ target → m'.regs q = m.regs q
  memory : ∀ a : Cell, size ≤ (a - m.regs .sp).toNat → m'.memory a = m.memory a

theorem Delivers.of_set {m' : Machine} (spares : Spares r size 0 m m') (v : Cell) :
    Delivers size target m (m'.set target v) :=
  ⟨fun q work other => (m'.regs_set_of_ne v other).trans (spares.regs q work), spares.memory⟩

/-- The instructions that lead from `d` to `d'` put local `id` in `target` and leave every local
with its value; those in registers are in registers of `Q`. -/
abbrev Fetches (r : Resolution) (final : Locals) (values : Nat → Option Cell) (size : Nat)
    (m : Machine) (d d' : Draft) (id : Nat) (target : Reg) (Q : Reg → Prop) : Prop :=
  ∃ is, d.Stages r d' is ∧ Delivers size target m (Instruction.applyAll m is) ∧
    Hold r final values 0 (Instruction.applyAll m is) d'.word.locals ∧
    (∀ v, values id = some v → (Instruction.applyAll m is).read target = v) ∧
    Resident Q d'.word.locals

variable (lodged : Lodged size final r) (onward : d'.word.locals.Advances final)
  (resident : Resident P d.word.locals) (work : ∀ q, P q → q.IsWork)
  (hold : Hold r final values 0 m d.word.locals)

include lodged onward resident work hold

/-- Saving locals leaves each with its value, and none in the registers that are given up. -/
theorem spill_runs (ok : spill regs settings d = .ok () d') :
    ∃ is, d.Stages r d' is ∧ Spares r size 0 m (Instruction.applyAll m is) ∧
      Hold r final values 0 (Instruction.applyAll m is) d'.word.locals ∧
      Resident (fun q => P q ∧ regs.contains q = false) d'.word.locals := by
  obtain ⟨complete, rfl⟩ := spill_ok ok
  obtain ⟨is, writes, plain, patched, spares, held⟩ :=
    Locals.clobber_holds lodged (position?_counts d.heap) onward.leadsTo (resident.mono work) hold
  refine ⟨is, ⟨_, rfl, ?_, fun n i found => ?_⟩, spares, held,
    Locals.clobber_resident complete resident⟩
  · rw [List.length_replicate]
    exact writes.trans (Nat.zero_add _)
  · exact ⟨plain i (List.mem_of_getElem? found), Or.inl (patched n i found)⟩

theorem clobber_runs (ok : clobber regs settings d = .ok () d') :
    ∃ is, d.Stages r d' is ∧ Spares r size 0 m (Instruction.applyAll m is) ∧
      Hold r final values 0 (Instruction.applyAll m is) d'.word.locals ∧
      Resident (fun q => P q ∧ regs.contains q = false) d'.word.locals := by
  obtain ⟨⟨⟩, d1, saved, rest⟩ := bind_ok.1 ok
  cases rest
  replace onward : d1.word.locals.Advances final := onward
  obtain ⟨is, stages, effect⟩ := spill_runs lodged onward resident work hold saved
  exact ⟨is, stages, effect⟩

variable (targetWork : target.IsWork) (data : target ≠ .xzr)

include targetWork data

/-- `target` may be overwritten when the locals in it have been saved. -/
theorem clobber_set_runs (ok : clobber (.singleton target) settings d = .ok () d') :
    ∃ is, d.Stages r d' is ∧ Spares r size 0 m (Instruction.applyAll m is) ∧
      Hold r final values 0 (Instruction.applyAll m is) d'.word.locals ∧
      (∀ v, Hold r final values 0 ((Instruction.applyAll m is).set target v) d'.word.locals) ∧
      Resident (fun q => P q ∧ q ≠ target) d'.word.locals := by
  obtain ⟨is, stages, spares, held, free⟩ := clobber_runs lodged onward resident work hold ok
  have others : Resident (fun q => P q ∧ q ≠ target) d'.word.locals := by
    refine free.mono fun q ⟨inside, outside⟩ => ⟨inside, ?_⟩
    rintro rfl
    simp [RegSet.singleton] at outside
  exact ⟨is, stages, spares, held,
    held.set lodged targetWork data (others.mono fun _ both => both.2), others⟩

variable {id : Nat} {l : Local} (found : d.word.locals[id]? = some l)

include found

/-- A local is moved from the register in which it is resident. -/
theorem moveLocal_runs {source : Reg} (inside : l.resident = some source)
    (ok : (do clobber (.singleton target) let _ ← emit (Asm.mov target source)) settings d =
      .ok () d') :
    Fetches r final values size m d d' id target fun q => P q ∧ q ≠ target := by
  obtain ⟨_, d1, saved, rest⟩ := bind_ok.1 ok
  replace rest := emitWord_bind rest
  cases rest
  replace onward : d1.word.locals.Advances final := onward
  obtain ⟨is, stages, spares, held, overwritten, free⟩ :=
    clobber_set_runs lodged onward resident work hold targetWork data saved
  have runs : Instruction.applyAll m (is ++ [Asm.mov target source]) =
      (Instruction.applyAll m is).set target ((Instruction.applyAll m is).read source) := by
    rw [Instruction.applyAll, List.foldl_append]
    exact Instruction.apply_mov.trans (Machine.write_of_ne _ _ data)
  refine ⟨is ++ [Asm.mov target source], stages.trans (.emit rfl rfl), ?_⟩
  rw [runs]
  refine ⟨.of_set spares _, overwritten _, fun v value => ?_, free⟩
  obtain ⟨complete, rfl⟩ := clobber_ok saved
  obtain ⟨l', final', -⟩ := (Locals.Advances.clobber _ _ _ _).trans onward id l found
  rw [Machine.read_of_ne _ data, Machine.regs_set,
    spares.read (work source (resident l (List.mem_of_getElem? found) source inside))]
  exact (hold.holds found final' value).resident source inside

/-- A local that is in no register is loaded from its home. -/
theorem loadLocal_runs (absent : l.resident = none)
    (ok : (do
      clobber (.singleton target)
      let index ← placeholder .localRead
      modifyWord fun w => { w with locals := w.locals.modify id (·.recordRead index target) })
      settings d = .ok () d') :
    Fetches r final values size m d d' id target fun q => P q ∧ q ≠ target ∨ q = target := by
  obtain ⟨_, d1, saved, rest⟩ := bind_ok.1 ok
  replace rest := emitWord_bind rest
  cases rest
  have before :
      d1.word.locals.Advances (d1.word.locals.modify id (·.recordRead d1.heap.here target)) :=
    .modify _ _ fun l => .recordRead l _ _
  obtain ⟨is, stages, spares, held, overwritten, free⟩ :=
    clobber_set_runs lodged (before.trans onward) resident work hold targetWork data saved
  -- Where it has no register, a local is not touched by giving registers up.
  have found1 : d1.word.locals[id]? = some l := by
    obtain ⟨-, rfl⟩ := clobber_ok saved
    exact Locals.clobber_of_absent found absent
  have found2 : (d1.word.locals.modify id (·.recordRead d1.heap.here target))[id]? =
      some (l.recordRead d1.heap.here target) := by
    rw [List.getElem?_modify, found1]
    exact congrArg some (if_pos rfl)
  obtain ⟨l', final', advances⟩ := onward id _ found2
  obtain ⟨home, i, at_home, made, patched⟩ := lodged.read id l' final' ⟨d1.heap.here, target⟩
    (advances.reads.subset (List.mem_append_right _ (List.mem_singleton.2 rfl)))
  have fits := lodged.fits id home at_home
  obtain ⟨plain, apply⟩ := Home.read_ok (m := Instruction.applyAll m is) made data fits
  have runs : Instruction.applyAll m (is ++ [i]) =
      (Instruction.applyAll m is).set target (home.value (Instruction.applyAll m is)) := by
    rw [Instruction.applyAll, List.foldl_append]
    exact apply
  have holds : ∀ l'' v, final[id]? = some l'' → values id = some v →
      (l.recordRead d1.heap.here target).Holds
        ((Instruction.applyAll m is).set target (home.value (Instruction.applyAll m is)))
        (r.home? id) l'' v := by
    intro l'' v final'' value
    obtain rfl := Option.some.inj (final'.symm.trans final'')
    exact (held.holds found1 final' value).recordRead absent advances at_home data
      (Home.register_ne fits targetWork) data
  refine ⟨is ++ [i], stages.trans (.reserve plain patched rfl), ?_⟩
  rw [runs]
  refine ⟨.of_set spares _, (overwritten _).modify fun l1 l'' v at_id => ?_, fun v value => ?_, ?_⟩
  · obtain rfl := Option.some.inj (found1.symm.trans at_id)
    exact holds l'' v
  · exact (holds l' v final' value).resident target rfl
  · refine (free.mono fun q both => Or.inl both).modify ?_
    rintro l1 q ⟨⟩
    exact Or.inr rfl

/-- Reading a local puts its value in the target. -/
theorem readLocal_runs (ok : readLocal id target settings d = .ok () d') :
    Fetches r final values size m d d' id target fun q =>
      P q ∧ (l.access? target = some .inPlace ∨ q ≠ target) ∨
        q = target ∧ l.access? target = some .load := by
  rcases readLocal_ok found ok with ⟨access, rfl⟩ | ⟨source, access, moved⟩ | ⟨access, loaded⟩
  · obtain ⟨-, inside⟩ | ⟨_, same, -⟩ | ⟨same, -⟩ := Local.access?_eq_some access
    · refine ⟨[], .nil r rfl, ⟨fun _ _ _ => rfl, fun _ _ => rfl⟩, hold, fun v value => ?_,
        resident.mono fun q inP => Or.inl ⟨inP, Or.inl access⟩⟩
      obtain ⟨l', final', -⟩ := onward id l found
      exact (hold.holds found final' value).resident target inside
    · cases same
    · cases same
  · obtain ⟨same, -⟩ | ⟨_, same, inside⟩ | ⟨same, -⟩ := Local.access?_eq_some access
    · cases same
    · cases same
      obtain ⟨is, stages, delivers, held, value, free⟩ :=
        moveLocal_runs lodged onward resident work hold targetWork data found inside moved
      exact ⟨is, stages, delivers, held, value,
        free.mono fun q both => Or.inl ⟨both.1, Or.inr both.2⟩⟩
    · cases same
  · obtain ⟨same, -⟩ | ⟨_, same, -⟩ | ⟨-, absent⟩ := Local.access?_eq_some access
    · cases same
    · cases same
    · obtain ⟨is, stages, delivers, held, value, free⟩ :=
        loadLocal_runs lodged onward resident work hold targetWork data found absent loaded
      refine ⟨is, stages, delivers, held, value, free.mono fun q either => ?_⟩
      exact either.imp (fun both => ⟨both.1, Or.inr both.2⟩) fun same => ⟨same, access⟩

end Emit

end ForthJit
