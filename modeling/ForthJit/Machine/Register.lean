import ForthJit.Machine.EncodeError

/-!
# Registers and register sets

General-purpose registers are numbered 0 to 31.  Number 31 is the stack pointer in address
positions and the zero register elsewhere.  A `RegSet` is a mask with one bit per register; its
view is `RegSet.contains`.
-/

namespace ForthJit

/-- A general-purpose register, given by its five-bit field. -/
structure Reg where
  code : BitVec 5
  deriving DecidableEq

namespace Reg

def index (r : Reg) : Nat := r.code.toNat

/-- The register numbered `n`, which callers keep below 32. -/
def ofNat (n : Nat) : Reg := ⟨BitVec.ofNat 5 n⟩

/-- The register numbered `n`, if there is one. -/
def ofIndex (n : Nat) : Except EncodeError Reg :=
  if n < 32 then .ok (ofNat n) else .error (.invalidRegister n)

/-- Frame pointer. -/
def fp : Reg := ofNat 29

/-- Link register. -/
def lr : Reg := ofNat 30

/-- Stack pointer, in address positions. -/
def sp : Reg := ofNat 31

/-- Zero register, in data positions. -/
def xzr : Reg := ofNat 31

/-- Scratch register that holds the target of a call by address. -/
def scratch : Reg := ofNat 16

/-- Register through which values pass to and from the data stack. -/
def transfer : Reg := ofNat 8

/-- Data-stack pointer. -/
def dataStack : Reg := ofNat 19

/-- Error register of the stack convention. -/
def error : Reg := ofNat 20

def name (r : Reg) : String :=
  match r.index with
  | 29 => "fp"
  | 30 => "lr"
  | 31 => "sp/xzr"
  | n => s!"x{n}"

/-- All registers in ascending order. -/
def all : List Reg := (List.range 32).map ofNat

theorem index_lt (r : Reg) : r.index < 32 := r.code.isLt

@[simp] theorem ofNat_index (r : Reg) : ofNat r.index = r := by
  cases r; simp [ofNat, index]

theorem index_ofNat {n : Nat} (bound : n < 32) : (ofNat n).index = n := by
  simp [ofNat, index, Nat.mod_eq_of_lt bound]

end Reg

/-- A set of registers: bit `n` of the mask is set iff register `n` is a member. -/
structure RegSet where
  mask : BitVec 32
  deriving DecidableEq

namespace RegSet

def empty : RegSet := ⟨0#32⟩

/-- Every register. -/
def full : RegSet := ⟨BitVec.allOnes 32⟩

def contains (s : RegSet) (r : Reg) : Bool := s.mask.getLsbD r.index

def insert (s : RegSet) (r : Reg) : RegSet := ⟨s.mask ||| BitVec.twoPow 32 r.index⟩

def singleton (r : Reg) : RegSet := empty.insert r

def union (s t : RegSet) : RegSet := ⟨s.mask ||| t.mask⟩

def difference (s t : RegSet) : RegSet := ⟨s.mask &&& ~~~t.mask⟩

def isEmpty (s : RegSet) : Bool := s.mask == 0#32

/-- The members in ascending order. -/
def toList (s : RegSet) : List Reg := Reg.all.filter s.contains

def ofList (rs : List Reg) : RegSet := rs.foldl insert empty

def size (s : RegSet) : Nat := s.toList.length

/-- The registers numbered `lo` to `hi`, both included. -/
def range (lo hi : Nat) : RegSet :=
  ofList (Reg.all.filter fun r => lo ≤ r.index && r.index ≤ hi)

/-- What a platform function may destroy: `x0` to `x17`. -/
def callerSaved : RegSet := ⟨0x0003FFFF#32⟩

/-- Registers that may become the home of a local. -/
def localCandidates : RegSet := range 9 15

/-- The member names in quotes, between braces. -/
def describe (s : RegSet) : String :=
  let names := s.toList.map fun r => "\"" ++ r.name ++ "\""
  "\x7b" ++ String.intercalate ", " names ++ "\x7d"

@[simp] theorem contains_union (s t : RegSet) (r : Reg) :
    (s.union t).contains r = (s.contains r || t.contains r) := by
  simp [union, contains]

@[simp] theorem contains_insert (s : RegSet) (q r : Reg) :
    (s.insert q).contains r = (s.contains r || decide (r = q)) := by
  have same : r.index = q.index ↔ r = q := by
    constructor
    · intro equal
      rw [← Reg.ofNat_index r, ← Reg.ofNat_index q, equal]
    · rintro rfl; rfl
  simp [insert, contains, Reg.index_lt, same]

@[simp] theorem contains_difference (s t : RegSet) (r : Reg) :
    (s.difference t).contains r = (s.contains r && !t.contains r) := by
  simp [difference, contains, Reg.index_lt]

@[simp] theorem contains_empty (r : Reg) : empty.contains r = false := by
  simp [empty, contains]

theorem mem_toList {s : RegSet} {r : Reg} : r ∈ s.toList ↔ s.contains r = true := by
  have member : r ∈ Reg.all := by
    unfold Reg.all
    exact List.mem_map.2 ⟨r.index, by simpa using r.index_lt, r.ofNat_index⟩
  simp [toList, member]

end RegSet

end ForthJit
