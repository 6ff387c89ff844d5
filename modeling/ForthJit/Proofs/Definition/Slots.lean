import ForthJit.Definition.Basic
import ForthJit.Proofs.Outcome
import Mathlib

/-!
# The ledger of an open definition

A definition keeps track of its unfinished instructions in four places: the reserved prologue, the
pending patches, the reads and writes of its locals, and its open branches.  `Definition.slots`
puts them together: the position of each unfinished instruction and the placeholder that stands
there.
-/

namespace ForthJit

/-- Placeholders and where they stand. -/
abbrev Slots := List (Nat × Placeholder)

/-- The placeholders that a pending patch is for. -/
def PendingPatch.slots : PendingPatch → Slots
  | exit index => [(index, .returnBranch)]
  | error index _ => [(index, .errorBranch)]
  | recursion index check => [(index, .recursiveCall), (check, .recursionCheck)]
  | literal index _ _ => [(index, .largeImmediate)]

/-- The reserved writes and reads of a local, in the order in which they are resolved. -/
def Local.slots (l : Local) : Slots :=
  l.pending.map (fun w => (w.index, .localWrite)) ++
    l.confirmed.map (fun w => (w.index, .localWrite)) ++
      l.reads.map (fun r => (r.index, .localRead))

/-- The branch that an open part will be left by. -/
def ControlFrame.slots : ControlFrame → Slots
  | ifPart branch _ _ => [(branch, .controlBranch)]
  | elsePart skip _ _ => [(skip, .controlBranch)]

def Locals.slots (ls : Locals) : Slots := ls.flatMap Local.slots

namespace Definition

/-- The slots reserved for frame setup. -/
def prologue (w : Definition) : Slots :=
  (List.range prologueSlots).map fun n => (w.start + n, .prologue)

/-- Every unfinished instruction of an open definition. -/
def slots (w : Definition) : Slots :=
  w.prologue ++ w.patches.flatMap PendingPatch.slots ++ w.locals.slots ++
    w.control.flatMap ControlFrame.slots

end Definition

/-! ## Spilling -/

namespace Locals

/-- `position?` counts up from `base`. -/
def Counts (base : Nat) (position? : Nat → Option Nat) : Prop :=
  ∀ count index, position? count = some index → index = base + count

/-- `number` reserved writes from `start` on. -/
def writeSlots (start number : Nat) : Slots :=
  (List.range' start number).map fun index => (index, .localWrite)

theorem writeSlots_succ (start number : Nat) :
    writeSlots start (number + 1) = (start, .localWrite) :: writeSlots (start + 1) number := by
  simp [writeSlots, List.range'_succ]

theorem slots_cons (l : Local) (ls : Locals) : slots (l :: ls) = l.slots ++ slots ls := rfl

/-- A new local has no slots. -/
theorem slots_declare (ls : Locals) (name : String) : slots (ls.declare name).2 = slots ls := by
  unfold declare
  split
  · rfl
  · simp [slots, Local.slots]

theorem slots_spill (l : Local) (index : Nat) (source : Reg) :
    ((l.spill index source).slots).Perm ((index, .localWrite) :: l.slots) := by
  simp only [Local.slots, Local.spill, List.map_append, List.map_cons, List.map_nil]
  rw [List.perm_iff_count]
  intro slot
  simp only [List.count_append, List.count_cons, List.count_nil]
  omega

theorem recordRead_slots (l : Local) (index : Nat) (target : Reg) :
    (l.recordRead index target).slots.Perm (l.slots ++ [(index, .localRead)]) := by
  simp only [Local.slots, Local.recordRead, List.map_nil, List.nil_append, List.map_append,
    List.map_cons]
  rw [List.perm_iff_count]
  intro slot
  simp only [List.count_append]
  omega

/-- Giving registers up reserves consecutive writes and loses no slot. -/
theorem clobber_slots {base : Nat} {position? : Nat → Option Nat} (counts : Counts base position?)
    (regs : RegSet) (count : Nat) (ls : Locals) :
    count ≤ (clobber regs position? count ls).writes ∧
      (slots (clobber regs position? count ls).locals).Perm
        (slots ls ++ writeSlots (base + count)
          ((clobber regs position? count ls).writes - count)) := by
  induction ls generalizing count with
  | nil => simp [clobber, slots, writeSlots]
  | cons l rest ih =>
    unfold clobber
    split
    · -- The local is in none of the registers.
      obtain ⟨le, perm⟩ := ih count
      refine ⟨le, ?_⟩
      simp only [slots_cons, List.append_assoc]
      exact perm.append_left _
    · split
      next full => simp [writeSlots]
      next index placed =>
        obtain ⟨le, perm⟩ := ih (count + 1)
        generalize clobber regs position? (count + 1) rest = s at le perm
        obtain rfl := counts count index placed
        refine ⟨Nat.le_of_succ_le le, ?_⟩
        obtain ⟨more, number⟩ : ∃ more, s.writes - count = more + 1 :=
          ⟨s.writes - (count + 1), by omega⟩
        have fewer : s.writes - (count + 1) = more := by omega
        rw [fewer] at perm
        simp only [slots_cons, number, writeSlots_succ, List.append_assoc]
        refine ((slots_spill l _ _).append perm).trans ?_
        rw [List.perm_iff_count]
        intro slot
        simp only [List.count_append, List.count_cons, Nat.add_assoc]
        omega
    · -- The home holds the value already, so no write is needed.
      obtain ⟨le, perm⟩ := ih count
      refine ⟨le, ?_⟩
      simp only [slots_cons, List.append_assoc]
      exact perm.append_left _

end Locals

end ForthJit
