import ForthJit.Machine.Word

/-!
# The host

What a program cannot decide for itself is a value, `Host`: the size of pages, where mappings go,
which protection changes are refused, where functions are found by name, and what a run of generated
code leaves behind.
-/

namespace ForthJit

/-- Smallest multiple of `n` that is not below `m`. -/
def nextMultiple (m n : Nat) : Nat := (m + (n - 1)) / n * n

/-- What does not change about a system. -/
structure Platform where
  pageSize : Nat
  /-- Where a mapping of `length` bytes goes after `mapped` others, if it is given at all. -/
  place? : (mapped length : Nat) → Option Nat
  /-- The address of the function called `name`. -/
  function? : (name : String) → Option Nat := fun _ => none
  pageSize_pos : 0 < pageSize
  /-- A page holds a whole number of cells. -/
  cells_dvd : 8 ∣ pageSize
  place_aligned {mapped length base : Nat} : place? mapped length = some base → pageSize ∣ base
  place_fits {mapped length base : Nat} :
    place? mapped length = some base → base + length ≤ 0x10000000000000000

namespace Platform

/-- `n` rounded up to a whole number of pages. -/
def pageAlign (p : Platform) (n : Nat) : Nat := nextMultiple n p.pageSize

/-- The function called `name`; a name with a zero in it cannot be asked for. -/
def resolve? (p : Platform) (name : String) : Option Nat :=
  if name.toList.contains '\x00' then none else p.function? name

/-- Pages of 4096 bytes, and mappings at fixed distances that are not longer than these. -/
def spaced : Platform where
  pageSize := 4096
  place? mapped length :=
    let base := 0x1000000000 + mapped * 0x100000000
    if length ≤ 0x100000000 ∧ base + length ≤ 0x10000000000000000 then some base else none
  pageSize_pos := by decide
  cells_dvd := by decide
  place_aligned := by
    intro mapped length base placed
    obtain ⟨-, rfl⟩ := (Option.ite_some_none_eq_some).1 placed
    omega
  place_fits := by
    intro mapped length base placed
    obtain ⟨⟨-, fits⟩, rfl⟩ := (Option.ite_some_none_eq_some).1 placed
    exact fits

end Platform

/-- What a run of generated code leaves for its caller. -/
structure Execution where
  /-- The registers from `x0` on, or the data stack from its bottom. -/
  cells : List Cell
  /-- The error register of the stack convention. -/
  error : Cell := 0

/-- The system that a program runs on. -/
structure Host where
  platform : Platform := .spaced
  /-- Mappings handed out so far. -/
  mapped : Nat := 0
  /-- The protection changes to be refused.  Each number counts the changes that go through before
  the next refusal; after the last one every change goes through. -/
  refusals : List Nat := []
  /-- The next runs of generated code; after the last one the machine is of another kind, and runs
  none. -/
  executions : List Execution := []

namespace Host

/-- Whether the next protection change goes through, and the system after it. -/
def decideChange (host : Host) : Bool × Host :=
  match host.refusals with
  | [] => (true, host)
  | 0 :: later => (false, { host with refusals := later })
  | (n + 1) :: later => (true, { host with refusals := n :: later })

/-- The reason the system gives for every failure. -/
def reason : String := "Cannot allocate memory (os error 12)"

end Host

end ForthJit
