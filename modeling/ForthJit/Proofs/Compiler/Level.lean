import ForthJit.Proofs.Compiler.Sound
import ForthJit.Proofs.Machine.Final

/-!
# Heights of the data stack

Under the stack convention pushes and pops are emitted by other statements than those that count the
pending values.  `Draft.Leveled` puts a height at each position of a definition: how far the data
stack pointer is from where it was on entry, in bytes, or nothing where control never comes.
Emission that succeeds keeps the heights in step with the count of pending values (`Draft.Tracked`).
-/

namespace ForthJit

variable {i : Instruction} {ws : List InstrWord} {v : InstrWord} {reg : Reg} {e : Entry}

/-! ## Single words -/

/-- By how many bytes the instruction moves the data stack pointer, if that is known. -/
def Instruction.shift? (i : Instruction) : Option Int :=
  if .dataStack ∈ i.written then
    match i with
    | indexed _ rt _ imm => if rt = .dataStack then none else some imm.toInt
    | _ => none
  else
    some 0

/-- The word `v` may move the data stack pointer by `k` bytes.  Of the words that are no instruction
of the assembler, those in `writes` may move it anywhere. -/
def Shifts (writes : InstrWord → Prop) (v : InstrWord) (k : Int) : Prop :=
  match Instruction.decode? v with
  | some i => ∀ known, i.shift? = some known → k = known
  | none => ¬writes v → k = 0

/-- The instruction is a branch to a label. -/
def Instruction.isLabelBranch : Instruction → Bool
  | branch _ | branchLink _ | branchIf .. | branchZero .. | branchNonzero .. => true
  | _ => false

/-- The word is a branch to a label. -/
def isLabelBranch (w : InstrWord) : Bool :=
  w.extractLsb' 26 5 == 0x05#5 || w.extractLsb' 25 6 == 0x1A#6 || w.extractLsb' 25 6 == 0x1B#6 ||
    w.extractLsb' 25 7 == 0x2A#7

theorem Instruction.isLabelBranch_encode (i : Instruction) :
    ForthJit.isLabelBranch i.encode = i.isLabelBranch := by
  rcases i with ⟨_ | _ | _⟩ | _ | _ | ⟨_ | _ | _ | _ | _ | _ | _ | _ | _⟩ | _ | _ | _ | _ | _ |
    ⟨_ | _ | _ | _⟩ | _ | ⟨_ | _ | _ | _⟩ | _ | _ | _ | _ | _ | _ | _ | _ | _ | _
  case ret | nop => rfl
  all_goals
    simp (disch := omega) only [ForthJit.isLabelBranch, encode, WideMove.opcode, AluOp.opcode,
      Indexed.opcode, PairOp.opcode, BitVec.extractLsb'_append_eq_of_le, BitVec.ofNat_eq_ofNat]
  all_goals rfl

theorem Instruction.isLabelBranch_of_jump? {words : Int}
    (jumps : i.jump? = some words) : i.isLabelBranch = true := by
  cases i <;> first | rfl | cases jumps

/-- Control goes on after the word and nowhere else, be it after a call by address. -/
def Passes (v : InstrWord) : Prop := isLabelBranch v = false ∧ falls v = true

/-- The word leaves the data stack pointer alone, and control goes on after it. -/
def Neutral (writes : InstrWord → Prop) (v : InstrWord) : Prop :=
  Passes v ∧ ∀ k, Shifts writes v k → k = 0

variable {writes : InstrWord → Prop}

theorem shifts_encode {k : Int} :
    Shifts writes i.encode k ↔ ∀ known, i.shift? = some known → k = known := by
  unfold Shifts
  rw [Instruction.decode?_eq_some.2 rfl]

/-- There is always some distance that a word may move the pointer by. -/
theorem exists_shifts (writes : InstrWord → Prop) (v : InstrWord) : ∃ k, Shifts writes v k := by
  unfold Shifts
  cases Instruction.decode? v with
  | none => exact ⟨0, fun _ => rfl⟩
  | some i =>
    cases known : i.shift? with
    | none => exact ⟨0, fun _ same => nomatch known.symm.trans same⟩
    | some k => exact ⟨k, fun _ same => Option.some.inj (known.symm.trans same)⟩

theorem passes_encode (label : i.isLabelBranch = false) (falls : i.falls = true) :
    Passes i.encode :=
  ⟨(Instruction.isLabelBranch_encode i).trans label, (Instruction.falls_encode i).trans falls⟩

theorem Instruction.passes_of_isPlain (plain : i.isPlain = true) :
    Passes i.encode := by
  refine passes_encode ?_ (falls_of_isPlain plain)
  cases i <;> first | rfl | cases plain

theorem Neutral.of_written (passes : Passes i.encode)
    (other : .dataStack ∉ i.written) : Neutral writes i.encode := by
  refine ⟨passes, fun k shifts => shifts_encode.1 shifts 0 ?_⟩
  unfold Instruction.shift?
  rw [if_neg other]

theorem Neutral.plain (plain : i.isPlain = true) (other : .dataStack ∉ i.written) :
    Neutral writes i.encode :=
  .of_written (Instruction.passes_of_isPlain plain) other

theorem Neutral.mov {rd : Reg} (source : Reg) (other : rd ≠ .dataStack) :
    Neutral writes (Asm.mov rd source).encode := by
  refine .plain rfl ?_
  rw [Asm.mov, Instruction.written, List.mem_singleton]
  exact other.symm

theorem Neutral.placeholder (p : Placeholder) : Neutral writes p.word :=
  .of_written (passes_encode rfl rfl) List.not_mem_nil

/-- What the placeholder stands for lets control pass and leaves the pointer alone. -/
def Placeholder.passes : Placeholder → Bool
  | returnBranch | recursiveCall | prologue | controlBranch => false
  | errorBranch | largeImmediate | localWrite | localRead | recursionCheck => true

/-- The word is no placeholder for what moves control or the pointer. -/
def Settled (v : InstrWord) : Prop := ∀ p : Placeholder, v = p.word → p.passes = true

theorem settled_word {p : Placeholder} : Settled p.word ↔ p.passes = true := by
  refine ⟨fun settled => settled p rfl, fun passes q same => ?_⟩
  obtain rfl : p = q := by
    cases p <;> cases q <;> first | rfl | exact absurd same (by decide)
  exact passes

variable {v : InstrWord} {w : Definition}

theorem Final.settled (final : Final v) : Settled v :=
  fun p same => absurd (same ▸ final) p.not_final

/-! ## Heights -/

/-- Bytes on the data stack when `depth` values are pending, compared with the entry of a word that
takes `inputs`. -/
def stackLevel (inputs depth : Nat) : Int := 8 * ((depth : Int) - inputs)

/-- Control goes from `i` on to `n`, at most up to `here`, and moves the pointer by `k`. -/
structure Leads (H : Nat → Option Int) (here i n : Nat) (k : Int) : Prop where
  forward : i < n
  within : n ≤ here
  height : ∀ h, H i = some h → H n = some (h + k)

/-- If control comes to `i`, then at height `x`. -/
structure Known (H : Nat → Option Int) (here i : Nat) (x : Int) : Prop where
  before : i < here
  height : ∀ h, H i = some h → h = x

/-- The heights around `i` are what the word there makes them, in a word that takes `inputs`.  What
may be called at an entry, and with which numbers of values, is up to `callee`. -/
inductive Fits (writes : InstrWord → Prop) (callee : Nat → Nat → Nat → Prop) (inputs : Nat)
    (H : Nat → Option Int) (here i : Nat) : InstrWord → Prop
  | pass {v : InstrWord} : Passes v → (∀ k, Shifts writes v k → Leads H here i (i + 1) k) →
      Fits writes callee inputs H here i v
  | jump {j : Instruction} {target : Nat} : Asm.b (distance i target) = .ok j →
      Leads H here i target 0 → Fits writes callee inputs H here i j.encode
  | test {j : Instruction} {reg : Reg} {target : Nat} : Asm.cbz reg (distance i target) = .ok j →
      Leads H here i target 0 → Leads H here i (i + 1) 0 →
      Fits writes callee inputs H here i j.encode
  | check {reg : Reg} {words : BitVec 19} : Leads H here i (i + 1) 0 →
      Fits writes callee inputs H here i (Instruction.branchNonzero reg words).encode
  | call {j : Instruction} {entry taken left : Nat} : Asm.bl (distance i entry) = .ok j →
      callee entry taken left → Leads H here i (i + 1) (stackLevel taken left) →
      (∀ h, H i = some h → stackLevel inputs taken ≤ h) →
      Fits writes callee inputs H here i j.encode

/-- The heights around a placeholder are what its pending patch will make them. -/
def PendingPatch.Leveled (s : Signature) (H : Nat → Option Int) (here : Nat) : PendingPatch → Prop
  | exit i => Known H here i (stackLevel s.inputs s.outputs)
  | error _ _ => True
  | recursion i _ => Leads H here i (i + 1) (stackLevel s.inputs s.outputs) ∧
      ∀ h, H i = some h → 0 ≤ h
  | literal _ reg _ => reg ≠ .dataStack

/-- The height at an open branch is the one that its paths will have. -/
def ControlFrame.Leveled (s : Signature) (H : Nat → Option Int) (here : Nat) : ControlFrame → Prop
  | ifPart branch _ depth => Leads H here branch (branch + 1) 0 ∧
      Known H here branch (stackLevel s.inputs depth)
  | elsePart skip _ trueDepth =>
      skip < here ∧ ∀ h, H skip = some h → trueDepth.map (stackLevel s.inputs) = some h

/-- The heights `H` fit everything that was emitted into the definition. -/
structure Draft.Leveled (writes : InstrWord → Prop) (callee : Nat → Nat → Nat → Prop)
    (H : Nat → Option Int) (d : Draft) : Prop where
  room : d.word.body ≤ d.heap.here
  start : ∀ i ≤ d.word.body, H i = some 0
  floor : ∀ i h, i ≤ d.heap.here → H i = some h → stackLevel d.word.signature.inputs 0 ≤ h
  words : ∀ i v, d.word.body ≤ i → d.heap.word? i = some v → Settled v →
    Fits writes callee d.word.signature.inputs H d.heap.here i v
  patches : ∀ p ∈ d.word.patches, p.Leveled d.word.signature H d.heap.here
  reads : ∀ l ∈ d.word.locals, ∀ r ∈ l.reads, r.target ≠ .dataStack
  control : ∀ f ∈ d.word.control, f.Leveled d.word.signature H d.heap.here

/-- The height that the pending values of a definition stand for. -/
def Definition.level? (w : Definition) : Option Int :=
  if w.unreachable then none else some (stackLevel w.signature.inputs w.depth)

/-- The end of the definition is as high as its pending values say. -/
def Draft.Tracked (writes : InstrWord → Prop) (callee : Nat → Nat → Nat → Prop) (d : Draft) :
    Prop :=
  ∃ H, d.Leveled writes callee H ∧ H d.heap.here = d.word.level?

variable {callee : Nat → Nat → Nat → Prop} {s : Signature} {H H' : Nat → Option Int}
  {inputs here here' i n : Nat} {k x : Int} {d d' : Draft} {g : Option Int}

/-! ### Further positions -/

theorem Leads.before (leads : Leads H here i n k) : i < here :=
  Nat.lt_of_lt_of_le leads.forward leads.within

/-- Below `here` the heights `H'` are those of `H`, and so is the one there if `H` has one. -/
structure Refines (H : Nat → Option Int) (here : Nat) (H' : Nat → Option Int) : Prop where
  below : ∀ m < here, H' m = H m
  known : ∀ m ≤ here, ∀ h, H m = some h → H' m = some h

theorem Refines.of_eq (agree : ∀ m ≤ here, H' m = H m) : Refines H here H' :=
  ⟨fun m lt => agree m (Nat.le_of_lt lt), fun m le _ known => (agree m le).trans known⟩

theorem Leads.mono (leads : Leads H here i n k) (longer : here ≤ here')
    (refines : Refines H here H') : Leads H' here' i n k := by
  refine ⟨leads.forward, Nat.le_trans leads.within longer, fun h at_i => ?_⟩
  rw [refines.below i leads.before] at at_i
  exact refines.known n leads.within _ (leads.height h at_i)

theorem Known.mono (known : Known H here i x) (longer : here ≤ here')
    (refines : Refines H here H') : Known H' here' i x := by
  refine ⟨Nat.lt_of_lt_of_le known.before longer, fun h at_i => known.height h ?_⟩
  rwa [refines.below i known.before] at at_i

theorem Fits.mono (fits : Fits writes callee inputs H here i v) (longer : here ≤ here')
    (refines : Refines H here H') : Fits writes callee inputs H' here' i v := by
  cases fits with
  | pass passes next => exact .pass passes fun k shifts => (next k shifts).mono longer refines
  | jump made leads => exact .jump made (leads.mono longer refines)
  | test made leads next => exact .test made (leads.mono longer refines) (next.mono longer refines)
  | check next => exact .check (next.mono longer refines)
  | call made known next deep =>
    refine .call made known (next.mono longer refines) fun h at_i => deep h ?_
    rwa [refines.below i next.before] at at_i

theorem PendingPatch.Leveled.mono {p : PendingPatch} (leveled : p.Leveled s H here)
    (longer : here ≤ here') (refines : Refines H here H') : p.Leveled s H' here' := by
  cases p with
  | exit index => exact Known.mono leveled longer refines
  | error index reg => trivial
  | recursion index check =>
    refine ⟨leveled.1.mono longer refines, fun h at_i => leveled.2 h ?_⟩
    rwa [refines.below index leveled.1.before] at at_i
  | literal index reg value => exact leveled

theorem ControlFrame.Leveled.mono {f : ControlFrame} (leveled : f.Leveled s H here)
    (longer : here ≤ here') (refines : Refines H here H') : f.Leveled s H' here' := by
  cases f with
  | ifPart branch reg depth => exact ⟨leveled.1.mono longer refines, leveled.2.mono longer refines⟩
  | elsePart skip depth trueDepth =>
    refine ⟨Nat.lt_of_lt_of_le leveled.1 longer, fun h at_skip => leveled.2 h ?_⟩
    rwa [refines.below skip leveled.1] at at_skip

/-- The heights up to `n` and `g` from there on. -/
def extend (H : Nat → Option Int) (n : Nat) (g : Option Int) : Nat → Option Int :=
  fun i => if i ≤ n then H i else g

theorem extend_of_le (g : Option Int) (le : i ≤ n) : extend H n g i = H i := if_pos le

theorem extend_of_lt (g : Option Int) (lt : n < i) : extend H n g i = g := if_neg (Nat.not_le.2 lt)

/-- Where the height stays, it is the same further on. -/
theorem extend_add (H : Nat → Option Int) (n m : Nat) : extend H n (H n) (n + m) = H n := by
  unfold extend
  split
  · next low => rw [show n + m = n by omega]
  · rfl

namespace Draft.Leveled

variable (leveled : d.Leveled writes callee H)

include leveled

/-- Further words need heights that fit. -/
theorem stage (agree : ∀ m ≤ d.heap.here, H' m = H m)
    (floor : ∀ i h, d.heap.here < i → i ≤ d.heap.here + ws.length → H' i = some h →
      stackLevel d.word.signature.inputs 0 ≤ h)
    (fits : ∀ n v, ws[n]? = some v → Settled v → Fits writes callee d.word.signature.inputs H'
      (d.heap.here + ws.length) (d.heap.here + n) v) :
    (d.stage ws).Leveled writes callee H' := by
  have longer : d.heap.here ≤ d.heap.here + ws.length := Nat.le_add_right _ _
  have here : (d.stage ws).heap.here = d.heap.here + ws.length := by simp
  refine ⟨?_, ?_, ?_, ?_, ?_, leveled.reads, ?_⟩
  · rw [here]
    exact Nat.le_trans leveled.room longer
  · exact fun i low => (agree i (Nat.le_trans low leveled.room)).trans (leveled.start i low)
  · intro i h bound at_i
    rw [here] at bound
    by_cases old : i ≤ d.heap.here
    · rw [agree i old] at at_i
      exact leveled.floor i h old at_i
    · exact floor i h (Nat.lt_of_not_le old) bound at_i
  · intro i v low at_i settled
    rw [here]
    by_cases old : i < d.heap.here
    · rw [Draft.heap_stage, CodeHeap.word?_stage_of_lt _ old] at at_i
      exact (leveled.words i v low at_i settled).mono longer (.of_eq agree)
    · obtain ⟨n, rfl⟩ := Nat.exists_eq_add_of_le (Nat.le_of_not_lt old)
      rw [Draft.heap_stage, CodeHeap.word?_stage] at at_i
      exact fits n v at_i settled
  · intro p member
    rw [here]
    exact (leveled.patches p member).mono longer (.of_eq agree)
  · intro f member
    rw [here]
    exact (leveled.control f member).mono longer (.of_eq agree)

/-- Words that leave the pointer alone keep the height. -/
theorem flat (neutral : ∀ v ∈ ws, Settled v → Neutral writes v) :
    (d.stage ws).Leveled writes callee (extend H d.heap.here (H d.heap.here)) := by
  refine leveled.stage (fun m le => extend_of_le _ le) (fun i h low _ at_i => ?_)
    fun n v at_n settled => ?_
  · rw [extend_of_lt _ low] at at_i
    exact leveled.floor _ h (Nat.le_refl _) at_i
  · obtain ⟨passes, still⟩ := neutral v (List.mem_of_getElem? at_n) settled
    have bound := (List.getElem?_eq_some_iff.1 at_n).1
    refine .pass passes fun k shifts => ⟨by omega, by omega, fun h at_n => ?_⟩
    rw [extend_add] at at_n
    rw [still k shifts, Nat.add_assoc, extend_add, at_n, Int.add_zero]

/-- A change of the definition must account for what it adds. -/
theorem modify {w : Definition} (start : w.start = d.word.start)
    (signature : w.signature = d.word.signature)
    (patches : ∀ p ∈ w.patches, p ∈ d.word.patches ∨ p.Leveled w.signature H d.heap.here)
    (reads : ∀ l ∈ w.locals, ∀ r ∈ l.reads, (∃ l' ∈ d.word.locals, r ∈ l'.reads) ∨
      r.target ≠ .dataStack)
    (control : ∀ f ∈ w.control, f ∈ d.word.control ∨ f.Leveled w.signature H d.heap.here) :
    Draft.Leveled writes callee H ⟨d.heap, w⟩ := by
  have body : w.body = d.word.body := by rw [Definition.body, start, Definition.body]
  refine ⟨body ▸ leveled.room, body ▸ leveled.start, signature ▸ leveled.floor,
    fun i v low at_i settled => ?_, fun p member => ?_, fun l isLocal r member => ?_,
    fun f member => ?_⟩
  · show Fits writes callee w.signature.inputs H d.heap.here i v
    rw [signature]
    exact leveled.words i v (body ▸ low) at_i settled
  · rcases patches p member with old | new
    · show p.Leveled w.signature H d.heap.here
      rw [signature]
      exact leveled.patches p old
    · exact new
  · rcases reads l isLocal r member with ⟨l', isLocal', member'⟩ | other
    · exact leveled.reads l' isLocal' r member'
    · exact other
  · rcases control f member with old | new
    · show f.Leveled w.signature H d.heap.here
      rw [signature]
      exact leveled.control f old
    · exact new

/-- A change of the definition that leaves its ledger. -/
theorem same {w : Definition} (start : w.start = d.word.start)
    (signature : w.signature = d.word.signature) (patches : w.patches = d.word.patches)
    (reads : ∀ l ∈ w.locals, ∃ l' ∈ d.word.locals, l.reads = l'.reads)
    (control : w.control = d.word.control) : Draft.Leveled writes callee H ⟨d.heap, w⟩ := by
  refine leveled.modify start signature (fun p member => Or.inl (patches ▸ member))
    (fun l isLocal r member => ?_) fun f member => Or.inl (control ▸ member)
  obtain ⟨l', isLocal', equal⟩ := reads l isLocal
  exact Or.inl ⟨l', isLocal', equal ▸ member⟩

/-- A word that is replaced must fit. -/
theorem replace
    (fits : Fits writes callee d.word.signature.inputs H d.heap.here n v) :
    (d.replace n v).Leveled writes callee H := by
  have here : (d.replace n v).heap.here = d.heap.here := by simp [Draft.replace, CodeHeap.here]
  refine ⟨?_, leveled.start, ?_, ?_, ?_, leveled.reads, ?_⟩
  · exact here ▸ leveled.room
  · exact here ▸ leveled.floor
  · intro i v' low at_i settled
    rw [here]
    replace at_i : (d.heap.staged.setIfInBounds n v)[i]? = some v' := at_i
    rw [Array.getElem?_setIfInBounds] at at_i
    split at at_i
    · next same =>
      split at at_i
      · obtain rfl := Option.some.inj at_i
        rwa [← same]
      · cases at_i
    · exact leveled.words i v' low at_i settled
  · rw [here]
    exact leveled.patches
  · rw [here]
    exact leveled.control

end Draft.Leveled

/-! ## Emission that counts no values -/

/-- What the height of a definition depends on is the same in `w'` as in `w`. -/
structure Definition.SameShape (w w' : Definition) : Prop where
  depth : w'.depth = w.depth
  control : w'.control = w.control
  unreachable : w'.unreachable = w.unreachable
  signature : w'.signature = w.signature

namespace Definition.SameShape

variable {w w' w'' : Definition}

theorem refl (w : Definition) : w.SameShape w := ⟨rfl, rfl, rfl, rfl⟩

theorem trans (first : w.SameShape w') (second : w'.SameShape w'') : w.SameShape w'' :=
  ⟨second.depth.trans first.depth, second.control.trans first.control,
    second.unreachable.trans first.unreachable, second.signature.trans first.signature⟩

end Definition.SameShape

/-- There are `need` bytes to take from the data stack, if control comes to the end of `d`. -/
def Draft.Above (d : Draft) (H : Nat → Option Int) (need : Int) : Prop :=
  ∀ h, H d.heap.here = some h → stackLevel d.word.signature.inputs 0 + need ≤ h

/-- The heights `H` of `d` can be continued to `d'`, which ends `k` bytes higher. -/
def Draft.Climbs (writes : InstrWord → Prop) (callee : Nat → Nat → Nat → Prop) (d : Draft)
    (H : Nat → Option Int) (k : Int) (d' : Draft) : Prop :=
  d.heap.here ≤ d'.heap.here ∧ ∃ H', d'.Leveled writes callee H' ∧
    (∀ m ≤ d.heap.here, H' m = H m) ∧ H' d'.heap.here = (H d.heap.here).map (· + k)

theorem Draft.Climbs.trans {k' : Int} {d'' : Draft} (first : d.Climbs writes callee H k d')
    (second : ∀ H', d'.Leveled writes callee H' → H' d'.heap.here = (H d.heap.here).map (· + k) →
      d'.Climbs writes callee H' k' d'') : d.Climbs writes callee H (k + k') d'' := by
  obtain ⟨longer, H', leveled, agree, here⟩ := first
  obtain ⟨longer', H'', leveled', agree', here'⟩ := second H' leveled here
  refine ⟨Nat.le_trans longer longer', H'', leveled', fun m le => ?_, ?_⟩
  · rw [agree' m (Nat.le_trans le longer), agree m le]
  · rw [here', here, Option.map_map]
    congr 1
    exact funext fun h => Int.add_assoc h k k'

/-- One word after which control goes on moves the pointer. -/
theorem Draft.Leveled.climbs_word (leveled : d.Leveled writes callee H)
    (above : ∀ h, H d.heap.here = some h → stackLevel d.word.signature.inputs 0 ≤ h + k)
    (fits : ∀ H', (∀ m ≤ d.heap.here, H' m = H m) →
      Leads H' (d.heap.here + 1) d.heap.here (d.heap.here + 1) k →
      Fits writes callee d.word.signature.inputs H' (d.heap.here + 1) d.heap.here v) :
    d.Climbs writes callee H k (d.stage [v]) := by
  have here : (d.stage [v]).heap.here = d.heap.here + 1 := by simp
  have agree : ∀ m ≤ d.heap.here,
      extend H d.heap.here ((H d.heap.here).map (· + k)) m = H m := fun m le => extend_of_le _ le
  have past : extend H d.heap.here ((H d.heap.here).map (· + k)) (d.heap.here + 1) =
      (H d.heap.here).map (· + k) := extend_of_lt _ (Nat.lt_succ_self _)
  refine ⟨by omega, _, leveled.stage agree (fun i h low _ at_i => ?_) fun n v' at_n _ => ?_, agree,
    here ▸ past⟩
  · rw [extend_of_lt _ low] at at_i
    obtain ⟨h0, at_here, rfl⟩ := Option.map_eq_some_iff.1 at_i
    exact above h0 at_here
  · obtain ⟨rfl, rfl⟩ : n = 0 ∧ v' = v := by
      cases n with
      | zero => exact ⟨rfl, (Option.some.inj at_n).symm⟩
      | succ n => cases at_n
    refine fits _ agree ⟨Nat.lt_succ_self _, Nat.le_refl _, fun h at_here => ?_⟩
    rw [agree _ (Nat.le_refl _)] at at_here
    rw [past, at_here]
    rfl

theorem Draft.Leveled.climbs_shifted (leveled : d.Leveled writes callee H) (passes : Passes v)
    (shift : ∀ k', Shifts writes v k' → k' = k)
    (above : ∀ h, H d.heap.here = some h → stackLevel d.word.signature.inputs 0 ≤ h + k) :
    d.Climbs writes callee H k (d.stage [v]) :=
  leveled.climbs_word above fun _ _ leads => .pass passes fun k' shifts =>
    (shift k' shifts).symm ▸ leads

namespace Emit

variable {α β : Type} {settings : Settings} {m : Emit α} {f : α → Emit β} {need need' k' : Int}

/-- If `m` succeeds, it takes at most `need` bytes and leaves the pointer `k` bytes further on.  It
counts no values. -/
def Lifts (writes : InstrWord → Prop) (callee : Nat → Nat → Nat → Prop) (settings : Settings)
    (need k : Int) (m : Emit α) : Prop :=
  ∀ d a d', m settings d = .ok a d' → d.word.SameShape d'.word ∧
    ∀ H, d.Leveled writes callee H → d.Above H need → d.Climbs writes callee H k d'

namespace Lifts

theorem bind (first : Lifts writes callee settings need k m)
    (second : ∀ a, Lifts writes callee settings need' k' (f a)) (enough : need' ≤ need + k) :
    Lifts writes callee settings need (k + k') (m >>= f) := by
  intro d b d' ok
  obtain ⟨a, d1, ok1, ok2⟩ := bind_ok.1 ok
  obtain ⟨same1, lifts1⟩ := first d a d1 ok1
  obtain ⟨same2, lifts2⟩ := second a d1 b d' ok2
  refine ⟨same1.trans same2, fun H leveled above => ?_⟩
  refine (lifts1 H leveled above).trans fun H' leveled' here => lifts2 H' leveled' fun h at_end =>
    ?_
  rw [here] at at_end
  obtain ⟨h0, at_here, rfl⟩ := Option.map_eq_some_iff.1 at_end
  have := above h0 at_here
  rw [same1.signature]
  omega

/-- More may be at hand than is needed. -/
theorem weaken (lifts : Lifts writes callee settings need k m) (more : need ≤ need') :
    Lifts writes callee settings need' k m := by
  intro d a d' ok
  obtain ⟨same, lifts⟩ := lifts d a d' ok
  refine ⟨same, fun H leveled above => lifts H leveled fun h at_end => ?_⟩
  have := above h at_end
  omega

/-- A step that does not move the pointer comes first. -/
theorem after (first : Lifts writes callee settings 0 0 m)
    (second : ∀ a, Lifts writes callee settings need k (f a)) (low : 0 ≤ need) :
    Lifts writes callee settings need k (m >>= f) := by
  have whole := (first.weaken low).bind second (by omega)
  rwa [Int.zero_add] at whole

theorem seq (first : Lifts writes callee settings 0 0 m)
    (second : ∀ a, Lifts writes callee settings 0 0 (f a)) :
    Lifts writes callee settings 0 0 (m >>= f) :=
  after first second (Int.le_refl 0)

/-- A step that does not move the pointer comes last. -/
theorem before (first : Lifts writes callee settings need k m)
    (second : ∀ a, Lifts writes callee settings 0 0 (f a)) (low : 0 ≤ need + k) :
    Lifts writes callee settings need k (m >>= f) := by
  have whole := first.bind second low
  rwa [Int.add_zero] at whole

/-- Whatever keeps the height that the definition ends at. -/
theorem of_still (still : ∀ d a d', m settings d = .ok a d' → d.word.SameShape d'.word ∧
      ∃ ws, d'.heap = d.heap.stage ws ∧ ∀ H, d.Leveled writes callee H →
        d'.Leveled writes callee (extend H d.heap.here (H d.heap.here))) :
    Lifts writes callee settings 0 0 m := by
  intro d a d' ok
  obtain ⟨same, ws, staged, still⟩ := still d a d' ok
  have here : d'.heap.here = d.heap.here + ws.length := by rw [staged, CodeHeap.here_stage]
  refine ⟨same, fun H leveled _ =>
    ⟨by omega, _, still H leveled, fun m le => extend_of_le _ le, ?_⟩⟩
  rw [here, extend_add]
  simp

/-- Whatever stages nothing. -/
theorem of_noted (noted : ∀ d a d', m settings d = .ok a d' → d.word.SameShape d'.word ∧
      d'.heap = d.heap ∧ ∀ H, d.Leveled writes callee H → d'.Leveled writes callee H) :
    Lifts writes callee settings 0 0 m := by
  intro d a d' ok
  obtain ⟨same, heap, noted⟩ := noted d a d' ok
  refine ⟨same, fun H leveled _ => ⟨by rw [heap], H, noted H leveled, fun m le => rfl, ?_⟩⟩
  rw [heap]
  simp

theorem pure (a : α) : Lifts writes callee settings 0 0 (pure a : Emit α) := by
  refine of_noted fun d b d' ok => ?_
  cases ok
  exact ⟨.refl _, rfl, fun H leveled => leveled⟩

theorem throw (e : CompileError) : Lifts writes callee settings need k (throw e : Emit α) := by
  intro d a d' ok
  cases ok

theorem bind_assembled {result : Except EncodeError α}
    (next : ∀ a, result = .ok a → Lifts writes callee settings need k (f a)) :
    Lifts writes callee settings need k (assembled result >>= f) := by
  intro d b d' ok
  obtain ⟨a, done, rest⟩ := assembled_bind ok
  exact next a done d b d' rest

/-- What is only looked at. -/
theorem bind_word {f : Definition → Emit β}
    (next : ∀ w, Lifts writes callee settings need k (f w)) :
    Lifts writes callee settings need k (Emit.word >>= f) := by
  intro d b d' ok
  have rest := tail_of ok rfl
  exact next d.word d b d' rest

theorem bind_read {f : Settings → Emit β}
    (next : Lifts writes callee settings need k (f settings)) :
    Lifts writes callee settings need k (read >>= f) := by
  intro d b d' ok
  have rest := tail_of ok rfl
  exact next d b d' rest

theorem bind_convention {f : Convention → Emit β}
    (next : Lifts writes callee settings need k (f settings.convention)) :
    Lifts writes callee settings need k (convention >>= f) := by
  intro d b d' ok
  have rest := tail_of ok rfl
  exact next d b d' rest

theorem forM {xs : List Nat} {f : Nat → Emit PUnit}
    (each : ∀ n ∈ xs, Lifts writes callee settings need k (f n)) (low : 0 ≤ need)
    (covered : 0 ≤ need + k) :
    Lifts writes callee settings (need * xs.length) (k * xs.length) (xs.forM f) := by
  induction xs with
  | nil => simpa using pure PUnit.unit
  | cons n xs ih =>
    have rest := ih fun n' member => each n' (List.mem_cons_of_mem _ member)
    have length : ∀ x : Int, x * (n :: xs).length = x + x * xs.length := by
      intro x
      rw [List.length_cons]
      push_cast
      ring
    have more : 0 ≤ need * xs.length := Int.mul_nonneg low (Int.natCast_nonneg _)
    rw [length k]
    refine bind ((each n List.mem_cons_self).weaken ?_) (fun _ => rest) ?_
    · rw [length]
      omega
    · rw [length]
      omega

end Lifts

/-! ### Basic steps -/

/-- A change of the definition that leaves its shape and its ledger. -/
theorem modifyWord_lifts {f : Definition → Definition} (same : ∀ w, Definition.SameShape w (f w))
    (start : ∀ w, (f w).start = w.start) (patches : ∀ w, (f w).patches = w.patches)
    (reads : ∀ w, ∀ l ∈ (f w).locals, ∃ l' ∈ w.locals, l.reads = l'.reads) :
    Lifts writes callee settings 0 0 (modifyWord f) := by
  refine .of_noted fun d a d' ok => ?_
  cases ok
  refine ⟨same d.word, rfl, fun H leveled => ?_⟩
  exact leveled.same (start d.word) (same d.word).signature (patches d.word) (reads d.word)
    (same d.word).control

theorem pushPatch_lifts {p : PendingPatch}
    (leveled : ∀ (s : Signature) (H : Nat → Option Int) (here : Nat), p.Leveled s H here) :
    Lifts writes callee settings 0 0 (pushPatch p) := by
  refine .of_noted fun d a d' ok => ?_
  cases ok
  refine ⟨⟨rfl, rfl, rfl, rfl⟩, rfl, fun H old => ?_⟩
  refine old.modify rfl rfl (fun q member => ?_) (fun l isLocal r member =>
    Or.inl ⟨l, isLocal, member⟩) fun f member => Or.inl member
  rcases List.mem_append.1 member with before | new
  · exact Or.inl before
  · rw [List.mem_singleton.1 new]
    exact Or.inr (leveled _ _ _)

theorem emitWords_lifts (neutral : ∀ v ∈ ws, Neutral writes v) :
    Lifts writes callee settings 0 0 (onHeap (CodeHeap.emitAll ws)) := by
  refine .of_still fun d a d' ok => ?_
  obtain rfl := emitWords_ok ok
  exact ⟨.refl _, ws, rfl, fun H leveled => leveled.flat fun v member _ => neutral v member⟩

/-- An instruction that moves the pointer. -/
theorem emit_lifts {i : Instruction} (passes : Passes i.encode) (shift : i.shift? = some k)
    (low : 0 ≤ need + k) : Lifts writes callee settings need k (emit i) := by
  intro d a d' ok
  obtain ⟨-, rfl⟩ := emitWord_ok ok
  refine ⟨.refl _, fun H leveled above => ?_⟩
  refine leveled.climbs_shifted passes (fun k' shifts => shifts_encode.1 shifts k shift)
    fun h at_here => ?_
  have := above h at_here
  omega

/-- A word that does not touch the pointer. -/
theorem emitWord_lifts (neutral : Settled v → Neutral writes v) :
    Lifts writes callee settings 0 0 (emitWord v) := by
  refine .of_still fun d a d' ok => ?_
  obtain ⟨-, rfl⟩ := emitWord_ok ok
  refine ⟨.refl _, [v], rfl, fun H leveled => leveled.flat fun u member => ?_⟩
  rw [List.mem_singleton.1 member]
  exact neutral

theorem mov_lifts {rd : Reg} (source : Reg) (other : rd ≠ .dataStack) :
    Lifts writes callee settings 0 0 (emit (Asm.mov rd source)) :=
  emitWord_lifts fun _ => .mov source other

theorem spill_lifts (regs : RegSet) : Lifts writes callee settings 0 0 (spill regs) := by
  refine .of_still fun d a d' ok => ?_
  obtain ⟨-, rfl⟩ := spill_ok ok
  refine ⟨⟨rfl, rfl, rfl, rfl⟩, _, rfl, fun H leveled => ?_⟩
  have staged :
    (d.stage (List.replicate (spilling regs d).writes Placeholder.localWrite.word)).Leveled
      writes callee (extend H d.heap.here (H d.heap.here)) := by
    refine leveled.flat fun v member _ => ?_
    rw [List.eq_of_mem_replicate member]
    exact .placeholder _
  exact staged.same rfl rfl rfl (clobber_reads regs _ 0 d.word.locals) rfl

theorem clobber_lifts (regs : RegSet) : Lifts writes callee settings 0 0 (clobber regs) := by
  refine .seq (spill_lifts regs) fun _ => modifyWord_lifts (fun _ => ⟨rfl, rfl, rfl, rfl⟩)
    (fun _ => rfl) (fun _ => rfl) fun _ l isLocal => ⟨l, isLocal, rfl⟩

/-- A change of the definition that is none of its shape, ledger or locals. -/
theorem note_lifts {f : Definition → Definition} (same : ∀ w, Definition.SameShape w (f w))
    (rest : ∀ w, (f w).start = w.start ∧ (f w).patches = w.patches ∧ (f w).locals = w.locals) :
    Lifts writes callee settings 0 0 (modifyWord f) := by
  refine modifyWord_lifts same (fun w => (rest w).1) (fun w => (rest w).2.1) fun w l isLocal => ?_
  rw [(rest w).2.2] at isLocal
  exact ⟨l, isLocal, rfl⟩

theorem loadImmediate_lifts (value : Cell) (other : reg ≠ .dataStack) :
    Lifts writes callee settings 0 0 (loadImmediate reg value) := by
  refine .seq (clobber_lifts _) fun _ => .bind_read ?_
  split
  · next made =>
    refine emitWords_lifts fun v member => ?_
    obtain ⟨i, isMove, rfl⟩ := List.mem_map.1 member
    obtain ⟨op, imm, hw, rfl⟩ := Constant.mem_moves? made isMove
    exact .plain rfl fun inside => other (List.mem_singleton.1 inside).symm
  · refine .seq (emitWord_lifts fun _ => .placeholder _) fun index => ?_
    refine .seq (pushPatch_lifts fun _ _ _ => other) fun _ => ?_
    exact note_lifts (fun _ => ⟨rfl, rfl, rfl, rfl⟩) fun _ => ⟨rfl, rfl, rfl⟩

theorem callAddress_lifts (address : Nat) (throughSlot : Bool) :
    Lifts writes callee settings 0 0 (callAddress address throughSlot) := by
  have scratch : Reg.scratch ≠ .dataStack := by decide
  have rest : Lifts writes callee settings 0 0 (do
      let _ ← emit (.callReg .scratch)
      modifyWord fun w => { w with leaf := false } : Emit Unit) := by
    refine .seq (emitWord_lifts fun _ => .of_written (passes_encode rfl rfl) (by decide)) fun _ =>
      ?_
    exact note_lifts (fun _ => ⟨rfl, rfl, rfl, rfl⟩) fun _ => ⟨rfl, rfl, rfl⟩
  refine .seq (loadImmediate_lifts _ scratch) fun _ => ?_
  split
  · refine .bind_assembled fun i made => ?_
    obtain ⟨imm, -, rfl⟩ := except_map_eq_ok.1 made
    have other : Reg.dataStack ∉ [Reg.scratch] := by decide
    exact .seq (emitWord_lifts fun _ => .plain rfl other) fun _ => rest
  · exact rest

theorem raiseIfNonzero_lifts (reg : Reg) :
    Lifts writes callee settings 0 0 (raiseIfNonzero reg) := by
  refine .seq (emitWord_lifts fun _ => .placeholder _) fun index => ?_
  refine .seq (pushPatch_lifts fun _ _ _ => trivial) fun _ => ?_
  exact note_lifts (fun _ => ⟨rfl, rfl, rfl, rfl⟩) fun _ => ⟨rfl, rfl, rfl⟩

/-- What is known of the reads of the locals is known after one of them was changed. -/
theorem modifyLocal_lifts (id : Nat) {f : Local → Local}
    (reads : ∀ l, ∀ r ∈ (f l).reads, r ∈ l.reads ∨ r.target ≠ .dataStack) :
    Lifts writes callee settings 0 0
      (modifyWord fun w => { w with locals := w.locals.modify id f }) := by
  refine .of_noted fun d a d' ok => ?_
  cases ok
  refine ⟨⟨rfl, rfl, rfl, rfl⟩, rfl, fun H leveled => ?_⟩
  refine leveled.modify rfl rfl (fun p member => Or.inl member) (fun l isLocal r member => ?_)
    fun _ member => Or.inl member
  obtain ⟨n, at_n⟩ := List.mem_iff_getElem?.1 isLocal
  rw [List.getElem?_modify] at at_n
  obtain ⟨l0, found, same⟩ := Option.map_eq_some_iff.1 at_n
  have isLocal0 := List.mem_of_getElem? found
  split at same
  · subst same
    exact (reads l0 r member).imp_left fun old => ⟨l0, isLocal0, old⟩
  · subst same
    exact Or.inl ⟨_, isLocal0, member⟩

theorem readLocal_lifts (id : Nat) {target : Reg} (other : target ≠ .dataStack) :
    Lifts writes callee settings 0 0 (readLocal id target) := by
  refine .bind_word fun w => ?_
  split
  · exact .pure _
  · split
    · exact .throw _
    · exact .pure _
    · refine .seq (clobber_lifts _) fun _ => .seq (mov_lifts _ other) fun _ => .pure _
    · refine .seq (clobber_lifts _) fun _ =>
        .seq (emitWord_lifts fun _ => .placeholder _) fun index => ?_
      refine modifyLocal_lifts id fun l r member => ?_
      rcases List.mem_append.1 member with old | new
      · exact Or.inl old
      · rw [List.mem_singleton.1 new]
        exact Or.inr other

theorem assignLocal_lifts (id : Nat) (reg : Reg) :
    Lifts writes callee settings 0 0 (assignLocal id reg) :=
  modifyLocal_lifts id fun _ _ member => Or.inl member

end Emit

/-! ## The stack convention -/

namespace Emit

variable {settings : Settings}

theorem Reg.ofNat_ne_dataStack (few : n < maxValues) : Reg.ofNat n ≠ .dataStack := by
  intro same
  have index := congrArg Reg.index same
  unfold maxValues at few
  rw [Reg.index_ofNat (by omega)] at index
  rw [index] at few
  exact absurd few (by decide)

theorem push_lifts (other : reg ≠ .dataStack) :
    Lifts writes callee settings 0 8 (push reg) := by
  refine .bind_assembled fun i made => ?_
  obtain ⟨imm, checked, rfl⟩ := except_map_eq_ok.1 made
  have moved : imm.toInt = 8 := Field.signed_ok (by decide) checked
  refine .before (emit_lifts (passes_encode rfl rfl) ?_ (by decide)) (fun _ => .pure _) (by decide)
  show (if Reg.dataStack ∈ [Reg.dataStack] then
    if reg = .dataStack then none else some imm.toInt else some 0) = some 8
  rw [if_pos (List.mem_singleton_self _), if_neg other, moved]

theorem pop_lifts (other : reg ≠ .dataStack) :
    Lifts writes callee settings 8 (-8) (pop reg) := by
  refine .after (clobber_lifts _) (fun _ => .bind_assembled fun i made => ?_) (by decide)
  obtain ⟨imm, checked, rfl⟩ := except_map_eq_ok.1 made
  have moved : imm.toInt = -8 := Field.signed_ok (by decide) checked
  refine .before (emit_lifts (passes_encode rfl rfl) ?_ (by decide)) (fun _ => .pure _) (by decide)
  show (if Reg.dataStack ∈ [reg, Reg.dataStack] then
    if reg = .dataStack then none else some imm.toInt else some 0) = some (-8)
  rw [if_pos (List.mem_cons_of_mem _ (List.mem_singleton_self _)), if_neg other, moved]

theorem stackLevel_add (inputs depth count : Nat) :
    stackLevel inputs (depth + count) = stackLevel inputs depth + 8 * count := by
  unfold stackLevel
  push_cast
  ring

/-- A call of a word moves the pointer by what the word takes and leaves. -/
theorem callWord_lifts {entry taken left : Nat} (known : callee entry taken left) :
    Lifts writes callee settings (8 * taken) (stackLevel taken left) (callWord entry) := by
  intro d a d' ok
  obtain ⟨j, made, rest⟩ := assembled_bind (tail_of ok rfl :)
  have last := emitWord_bind rest
  cases last
  refine ⟨⟨rfl, rfl, rfl, rfl⟩, fun H leveled above => ?_⟩
  have deep : ∀ h, H d.heap.here = some h → stackLevel d.word.signature.inputs taken ≤ h := by
    intro h at_here
    have := above h at_here
    rw [← Nat.zero_add taken, stackLevel_add]
    exact this
  obtain ⟨longer, H', leveled', agree, here⟩ : d.Climbs writes callee H (stackLevel taken left)
      (d.stage [j.encode]) := by
    refine leveled.climbs_word (fun h at_here => ?_) fun H' agree leads => ?_
    · have := deep h at_here
      unfold stackLevel at *
      omega
    · refine .call made known leads fun h at_here => deep h ?_
      rwa [agree _ (Nat.le_refl _)] at at_here
  exact ⟨longer, H', leveled'.same rfl rfl rfl (fun l isLocal => ⟨l, isLocal, rfl⟩) rfl,
    agree, here⟩

variable (stack : settings.convention = .stack)

include stack

theorem spreadInputs_lifts {count : Nat}
    (few : count ≤ maxValues) :
    Lifts writes callee settings (8 * count) (-8 * count) (spreadInputs count) := by
  refine .bind_convention ?_
  rw [stack]
  have each : ∀ n ∈ (List.range count).reverse,
      Lifts writes callee settings 8 (-8) (pop (.ofNat n)) :=
    fun n member => pop_lifts (Reg.ofNat_ne_dataStack
      (Nat.lt_of_lt_of_le (List.mem_range.1 (List.mem_reverse.1 member)) few))
  have pops := Lifts.forM each (by decide) (by decide)
  rwa [List.length_reverse, List.length_range] at pops

theorem gatherOutputs_lifts {count : Nat}
    (few : count ≤ maxValues) :
    Lifts writes callee settings 0 (8 * count) (gatherOutputs count) := by
  refine .bind_convention ?_
  rw [stack]
  have each : ∀ n ∈ List.range count, Lifts writes callee settings 0 8 (push (.ofNat n)) :=
    fun n member => push_lifts (Reg.ofNat_ne_dataStack
      (Nat.lt_of_lt_of_le (List.mem_range.1 member) few))
  have pushes := Lifts.forM each (by decide) (by decide)
  rwa [List.length_range, Int.zero_mul] at pushes

/-- A call of any kind moves the pointer by what the callee takes and leaves. -/
theorem callEntry_lifts
    (few : e.inputs ≤ maxValues ∧ e.outputs ≤ maxValues)
    (known : ∀ code, e.kind = .compiled code → callee code.layout.entry e.inputs e.outputs) :
    Lifts writes callee settings (8 * e.inputs) (stackLevel e.inputs e.outputs) (callEntry e) := by
  have platform : ∀ (address : Nat) (throughSlot : Bool),
      Lifts writes callee settings (8 * e.inputs) (stackLevel e.inputs e.outputs) (do
        spreadInputs e.inputs
        clobber .callerSaved
        callAddress address throughSlot
        gatherOutputs e.outputs
        return .ofNat 1 : Emit Reg) := by
    intro address throughSlot
    have rest : Lifts writes callee settings 0 (8 * e.outputs) (do
        clobber .callerSaved
        callAddress address throughSlot
        gatherOutputs e.outputs
        return .ofNat 1 : Emit Reg) :=
      .after (clobber_lifts _) (fun _ => .after (callAddress_lifts _ _) (fun _ =>
        .before (gatherOutputs_lifts stack few.2) (fun _ => .pure _) (by omega)) (by decide))
          (by decide)
    have whole := (spreadInputs_lifts stack few.1).bind (fun _ => rest) (by omega)
    rwa [show -8 * (e.inputs : Int) + 8 * e.outputs = stackLevel e.inputs e.outputs by
      unfold stackLevel
      ring] at whole
  refine .bind_convention ?_
  rw [stack]
  dsimp only
  cases kind : e.kind with
  | compiled code =>
    refine .after (clobber_lifts _) (fun _ => .before (callWord_lifts (known code kind))
      (fun _ => .pure _) ?_) (by omega)
    unfold stackLevel
    omega
  | intrinsic function => exact platform function false
  | external slot address => exact platform slot true

/-- What is told about the error register does not move the pointer. -/
theorem callEntry_result
    (ok : callEntry e settings d = .ok reg d') : reg ≠ .dataStack := by
  have rest := tail_of ok rfl
  rw [stack] at rest
  dsimp only at rest
  cases kind : e.kind with
  | compiled code =>
    rw [kind] at rest
    obtain ⟨_, d2, -, rest⟩ := bind_ok.1 rest
    obtain ⟨_, d3, -, rest⟩ := bind_ok.1 rest
    cases rest
    decide
  | intrinsic function | external slot address =>
    rw [kind] at rest
    obtain ⟨_, d2, -, rest⟩ := bind_ok.1 rest
    obtain ⟨_, d3, -, rest⟩ := bind_ok.1 rest
    obtain ⟨_, d4, -, rest⟩ := bind_ok.1 rest
    obtain ⟨_, d5, -, rest⟩ := bind_ok.1 rest
    cases rest
    decide

end Emit

/-! ## Emission that counts values -/

theorem Definition.SameShape.level? {w' : Definition} (same : w.SameShape w') :
    w'.level? = w.level? := by
  unfold Definition.level?
  rw [same.unreachable, same.signature, same.depth]

/-- More values stand for a greater height. -/
theorem Definition.level?_counted {w' : Definition} (unreachable : w'.unreachable = w.unreachable)
    (signature : w'.signature = w.signature) (counts : 8 * (w'.depth : Int) = 8 * w.depth + k) :
    w'.level? = w.level?.map (· + k) := by
  unfold Definition.level?
  rw [unreachable, signature]
  cases w.unreachable with
  | true => rfl
  | false =>
    show some (stackLevel w.signature.inputs w'.depth) =
      some (stackLevel w.signature.inputs w.depth + k)
    unfold stackLevel
    rw [show 8 * ((w'.depth : Int) - w.signature.inputs) =
      8 * ((w.depth : Int) - w.signature.inputs) + k by omega]

/-- The values that are pending can be taken. -/
theorem Draft.above_of_depth {need : Int} (tracked : H d.heap.here = d.word.level?)
    (enough : need ≤ 8 * d.word.depth) : d.Above H need := by
  intro h at_end
  rw [tracked] at at_end
  unfold Definition.level? at at_end
  split at at_end
  · cases at_end
  · cases at_end
    unfold stackLevel
    omega

namespace Emit

variable {α β : Type} {settings : Settings} {m : Emit α} {f : α → Emit β} {need : Int}

/-- Whenever `m` succeeds, the end of the definition stays as high as its pending values say. -/
def Tracks (writes : InstrWord → Prop) (callee : Nat → Nat → Nat → Prop) (settings : Settings)
    (m : Emit α) : Prop :=
  ∀ d a d', m settings d = .ok a d' → d.Tracked writes callee → d'.Tracked writes callee

/-- Emission that does not move the pointer need not count. -/
theorem Lifts.tracked (lifts : Lifts writes callee settings 0 0 m) :
    Tracks writes callee settings m := by
  rintro d a d' ok ⟨H, leveled, level⟩
  obtain ⟨same, lifts⟩ := lifts d a d' ok
  obtain ⟨-, H', leveled', -, here⟩ := lifts H leveled (Draft.above_of_depth level (by omega))
  refine ⟨H', leveled', ?_⟩
  rw [here, level, same.level?]
  simp

/-- Emission that moves the pointer, and the count after it. -/
theorem Lifts.counted (lifts : Lifts writes callee settings need k m) {a : α}
    (ok : m settings d = .ok a d') (tracked : d.Tracked writes callee)
    (enough : need ≤ 8 * d.word.depth) {depth : Nat}
    (counts : 8 * (depth : Int) = 8 * d.word.depth + k) :
    Draft.Tracked writes callee ⟨d'.heap, { d'.word with depth }⟩ := by
  obtain ⟨H, leveled, level⟩ := tracked
  obtain ⟨same, lifts⟩ := lifts d a d' ok
  obtain ⟨-, H', leveled', -, here⟩ := lifts H leveled (Draft.above_of_depth level enough)
  refine ⟨H', leveled'.same rfl rfl rfl (fun l isLocal => ⟨l, isLocal, rfl⟩) rfl, ?_⟩
  show H' d'.heap.here = _
  rw [here, level]
  symm
  exact Definition.level?_counted same.unreachable same.signature counts

variable (stack : settings.convention = .stack)

include stack

theorem produce_tracks (other : reg ≠ .dataStack) :
    Tracks writes callee settings (produce reg) := by
  intro d a d' ok tracked
  have rest := tail_of ok rfl
  rw [stack] at rest
  obtain ⟨_, d2, pushed, rest⟩ := bind_ok.1 rest
  replace rest := tail_of rest rfl
  cases rest
  have lifts : Lifts writes callee settings 0 8 (push reg) := push_lifts other
  have depth := (lifts d _ d2 pushed).1.depth
  exact lifts.counted pushed tracked (by omega) (by push_cast [depth]; ring)

/-- The newest value is taken into the transfer register. -/
theorem consume_tracks {what : String}
    (ok : consume what settings d = .ok reg d') (tracked : d.Tracked writes callee) :
    d'.Tracked writes callee ∧ reg = .transfer ∧ 0 < d.word.depth ∧
      d'.word.depth = d.word.depth - 1 ∧ d'.word.control = d.word.control := by
  have rest := tail_of ok rfl
  split at rest
  · cases rest
  · next some =>
    have positive : 0 < d.word.depth := Nat.pos_of_ne_zero some
    replace rest := tail_of rest rfl
    rw [stack] at rest
    obtain ⟨_, d4, popped, rest⟩ := bind_ok.1 rest
    replace rest := tail_of rest rfl
    cases rest
    have lifts : Lifts writes callee settings 8 (-8) (pop .transfer) := pop_lifts (by decide)
    refine ⟨lifts.counted popped tracked (by omega) (by omega), rfl, positive, rfl, ?_⟩
    exact (lifts d _ d4 popped).1.control

end Emit

/-! ## Actions -/

/-- The words go on one after the other and take the pointer from `h` to `g`, never below
`floor`. -/
def Climbing (writes : InstrWord → Prop) (floor : Int) : Int → List InstrWord → Int → Prop
  | h, [], g => h = g
  | h, v :: vs, g => Passes v ∧ ∃ k, (∀ k', Shifts writes v k' → k' = k) ∧ floor ≤ h + k ∧
      Climbing writes floor (h + k) vs g

theorem Draft.Leveled.climbs {floor h g : Int}
    (leveled : d.Leveled writes callee H) (climbing : Climbing writes floor h ws g)
    (above : ∀ x, H d.heap.here = some x → stackLevel d.word.signature.inputs 0 ≤ x - h + floor) :
    d.Climbs writes callee H (g - h) (d.stage ws) := by
  induction ws generalizing d H h with
  | nil =>
    obtain rfl : h = g := climbing
    rw [Draft.stage_nil]
    exact ⟨Nat.le_refl _, H, leveled, fun _ _ => rfl, by simp⟩
  | cons v vs ih =>
    obtain ⟨passes, k, shift, low, rest⟩ := climbing
    have first : d.Climbs writes callee H k (d.stage [v]) := by
      refine leveled.climbs_shifted passes shift fun x at_here => ?_
      have := above x at_here
      omega
    have whole := first.trans fun H' leveled' here => ih leveled' rest fun x at_end => by
      rw [here] at at_end
      obtain ⟨x0, at_here, rfl⟩ := Option.map_eq_some_iff.1 at_end
      have := above x0 at_here
      simp only [Draft.word_stage]
      omega
    rwa [Draft.stage_stage, show k + (g - (h + k)) = g - h by ring] at whole

/-- Where control did not come so far, it may come at any height. -/
theorem Refines.revive (free : H here = none ∨ H here = some x) :
    Refines H here (Function.update H here (some x)) := by
  refine ⟨fun m lt => Function.update_of_ne (Nat.ne_of_lt lt) _ _, fun m le h known => ?_⟩
  rcases Nat.lt_or_eq_of_le le with lt | rfl
  · rwa [Function.update_of_ne (Nat.ne_of_lt lt)]
  · rw [Function.update_self]
    rcases free with closed | same
    · cases closed.symm.trans known
    · exact same.symm.trans known

theorem Draft.Leveled.revive (leveled : d.Leveled writes callee H)
    (free : H d.heap.here = none ∨ H d.heap.here = some x)
    (low : stackLevel d.word.signature.inputs 0 ≤ x) :
    d.Leveled writes callee (Function.update H d.heap.here (some x)) := by
  have refines := Refines.revive free
  have same := Nat.le_refl d.heap.here
  refine ⟨leveled.room, fun i low => refines.known i (Nat.le_trans low leveled.room) _
    (leveled.start i low), fun i h bound at_i => ?_, fun i v low at_i settled =>
    (leveled.words i v low at_i settled).mono same refines, fun p member =>
    (leveled.patches p member).mono same refines, leveled.reads, fun f member =>
    (leveled.control f member).mono same refines⟩
  rcases Nat.lt_or_eq_of_le bound with inside | rfl
  · rw [refines.below i inside] at at_i
    exact leveled.floor i h bound at_i
  · rw [Function.update_self] at at_i
    cases at_i
    exact low

namespace Emit

variable {settings : Settings}

theorem instruction_tracks (neutral : Neutral writes v) (clobbers : RegSet) :
    Tracks writes callee settings (do let _ ← instruction v clobbers : Emit Unit) :=
  (Lifts.seq (.seq (clobber_lifts clobbers) fun _ => emitWord_lifts fun _ => neutral) fun _ =>
    .pure _).tracked

variable (stack : settings.convention = .stack)

include stack

theorem literal_tracks (value : Cell) :
    Tracks writes callee settings (literal value) := by
  intro d a d' ok tracked
  obtain ⟨reg, d3, chosen, rest⟩ := bind_ok.1 (tail_of (tail_of ok rfl :) rfl :)
  rw [stack] at chosen
  cases chosen
  obtain ⟨_, d4, loaded, produced⟩ := bind_ok.1 rest
  have other : Reg.transfer ≠ .dataStack := by decide
  exact produce_tracks stack other _ _ _ produced
    ((loadImmediate_lifts value other).tracked _ _ _ loaded tracked)

theorem getLocalCalled_tracks (name : String) :
    Tracks writes callee settings (getLocalCalled name) := by
  intro d a d' ok tracked
  have rest := tail_of ok rfl
  cases found : d.word.locals.find? name with
  | none =>
    rw [found] at rest
    cases rest
  | some id =>
    rw [found] at rest
    obtain ⟨reg, d3, chosen, rest⟩ := bind_ok.1 (tail_of (tail_of rest rfl :) rfl :)
    rw [stack] at chosen
    cases chosen
    obtain ⟨_, d4, read, produced⟩ := bind_ok.1 rest
    have other : Reg.transfer ≠ .dataStack := by decide
    exact produce_tracks stack other _ _ _ produced
      ((readLocal_lifts _ other).tracked _ _ _ read tracked)

theorem setLocal_tracks (name : String) :
    Tracks writes callee settings (setLocal name) := by
  intro d a d' ok tracked
  obtain ⟨reg, d4, consumed, rest⟩ := bind_ok.1 (tail_of (tail_of (tail_of ok rfl :) rfl :) rfl :)
  have known : Draft.Tracked writes callee
      ⟨d.heap, { d.word with locals := (d.word.locals.declare name).2 }⟩ := by
    obtain ⟨H, leveled, level⟩ := tracked
    exact ⟨H, leveled.modify rfl rfl (fun p member => Or.inl member)
      (fun l isLocal r member => Or.inl (declare_reads isLocal member))
      (fun f member => Or.inl member), level⟩
  exact (assignLocal_lifts _ _).tracked _ _ _ rest (consume_tracks stack consumed known).1

theorem primitiveBody_tracks {outputs : Nat} (few : inputs ≤ maxValues) (few' : outputs ≤ maxValues)
    {clobbers : RegSet} {body : List InstrWord} (neutral : ∀ v ∈ body, Neutral writes v)
    (ok : primitiveBody inputs outputs clobbers body settings d = .ok () d')
    (pending : d.word.depth = inputs) (tracked : d.Tracked writes callee) :
    d'.Tracked writes callee := by
  have split : primitiveBody inputs outputs clobbers body = (do
      spreadInputs inputs
      clobber clobbers
      onHeap (CodeHeap.emitAll body)
      gatherOutputs outputs : Emit Unit) >>= fun _ => setDepth outputs := by
    simp only [primitiveBody, bind_assoc]
  rw [split] at ok
  obtain ⟨_, d1, emitted, counted⟩ := bind_ok.1 ok
  cases counted
  have lifts : Lifts writes callee settings (8 * inputs) (-8 * inputs + 8 * outputs) (do
      spreadInputs inputs
      clobber clobbers
      onHeap (CodeHeap.emitAll body)
      gatherOutputs outputs : Emit Unit) :=
    (spreadInputs_lifts stack few).bind (fun _ => .after (clobber_lifts _) (fun _ =>
      .after (emitWords_lifts neutral) (fun _ => gatherOutputs_lifts stack few') (by decide))
      (by decide)) (by omega)
  exact lifts.counted emitted tracked (by omega) (by omega)

theorem exposeError_tracks
    (other : reg ≠ .dataStack) : Tracks writes callee settings (exposeError reg) := by
  intro d a d' ok tracked
  have rest := tail_of ok rfl
  rw [stack] at rest
  obtain ⟨_, d2, pushed, rest⟩ := bind_ok.1 rest
  have lifts : Lifts writes callee settings 0 8 (push reg) := push_lifts other
  have depth := (lifts d _ d2 pushed).1.depth
  have finish : ∀ {d3 : Draft}, Draft.Tracked writes callee
      ⟨d3.heap, { d3.word with depth := d3.word.depth + 1 }⟩ →
      (do setDepth ((← Emit.depth) + 1) : Emit Unit) settings d3 = .ok a d' →
      d'.Tracked writes callee := by
    intro d3 known counted
    replace counted := tail_of counted rfl
    cases counted
    exact known
  dsimp only at rest
  split at rest
  · obtain ⟨_, d3, cleared, rest⟩ := bind_ok.1 rest
    have both : Lifts writes callee settings 0 8 (do
        push reg
        emit (Asm.mov .error .xzr)) :=
      lifts.before (fun _ => mov_lifts _ (by decide)) (by decide)
    have done : (do
        push reg
        emit (Asm.mov .error .xzr)) settings d = .ok _ d3 := bind_ok.2 ⟨_, _, pushed, cleared⟩
    have depth' := (both d _ d3 done).1.depth
    exact finish (both.counted done tracked (by omega) (by push_cast [depth']; ring)) rest
  · exact finish (lifts.counted pushed tracked (by omega) (by push_cast [depth]; ring)) rest

theorem stack_arity {name : String} {depth : Nat}
    (ok : arity (settings.convention.checkArity name depth inputs) settings d = .ok () d') :
    inputs ≤ depth ∧ d' = d := by
  rw [stack] at ok
  unfold Convention.checkArity at ok
  split at ok
  · cases ok
  · next enough =>
    rw [if_neg (fun both => nomatch both.1)] at ok
    cases ok
    exact ⟨Nat.le_of_not_lt enough, rfl⟩

theorem call_tracks
    (few : e.inputs ≤ maxValues ∧ e.outputs ≤ maxValues)
    (known : ∀ code, e.kind = .compiled code → callee code.layout.entry e.inputs e.outputs) :
    Tracks writes callee settings (call e) := by
  intro d a d' ok tracked
  obtain ⟨_, d3, checked, following⟩ := bind_ok.1 (tail_of (tail_of ok rfl :) rfl :)
  obtain ⟨enough, rfl⟩ := stack_arity stack checked
  obtain ⟨reg, d4, called, last⟩ := bind_ok.1 following
  have final := tail_of last rfl
  have next : Draft.Tracked writes callee
      ⟨d4.heap, { d4.word with depth := d3.word.depth - e.inputs + e.outputs }⟩ :=
    (callEntry_lifts stack few known).counted called tracked (by omega)
      (by unfold stackLevel; omega)
  split at final
  · replace final := tail_of final rfl
    dsimp only at final
    split at final
    · exact (raiseIfNonzero_lifts reg).tracked _ _ _ final next
    · exact exposeError_tracks stack (callEntry_result stack called) _ _ _ final next
  · cases final
    exact next

theorem inlineBody_tracks {body : List InstrWord}
    (climbing : Climbing writes (-(8 * e.inputs)) 0 body (stackLevel e.inputs e.outputs)) :
    Tracks writes callee settings (inlineBody e body) := by
  intro d a d' ok tracked
  obtain ⟨_, d3, checked, following⟩ := bind_ok.1 (tail_of (tail_of ok rfl :) rfl :)
  obtain ⟨enough, rfl⟩ := stack_arity stack checked
  obtain ⟨_, d4, clobbered, last⟩ := bind_ok.1 following
  obtain ⟨_, d5, emitted, counted⟩ := bind_ok.1 last
  cases counted
  have lifts : Lifts writes callee settings (8 * e.inputs) (stackLevel e.inputs e.outputs)
      (onHeap (CodeHeap.emitAll body)) := by
    intro d a d' ok
    obtain rfl := emitWords_ok ok
    refine ⟨.refl _, fun H leveled above => ?_⟩
    have climbs := leveled.climbs climbing fun x at_here => by
      have := above x at_here
      omega
    rwa [Int.sub_zero] at climbs
  exact (Lifts.after (clobber_lifts e.clobbers) (fun _ => lifts) (by omega)).counted
    (bind_ok.2 ⟨_, _, clobbered, emitted⟩) tracked (by omega) (by unfold stackLevel; omega)

theorem raise_tracks :
    Tracks writes callee settings raise := by
  intro d a d' ok tracked
  obtain ⟨reg, d1, consumed, raised⟩ := bind_ok.1 ok
  exact (raiseIfNonzero_lifts reg).tracked _ _ _ raised (consume_tracks stack consumed tracked).1

end Emit

/-! ### Branches -/

/-- After a placeholder for what moves control, it may come at any height. -/
theorem Draft.Leveled.reserve (leveled : d.Leveled writes callee H) {p : Placeholder}
    (moves : p.passes = false) (low : ∀ h, g = some h → stackLevel d.word.signature.inputs 0 ≤ h) :
    (d.stage [p.word]).Leveled writes callee (extend H d.heap.here g) := by
  refine leveled.stage (fun m le => extend_of_le _ le) (fun i h past _ at_i => ?_)
    fun n v' at_n settled => ?_
  · rw [extend_of_lt _ past] at at_i
    exact low h at_i
  · rw [List.mem_singleton.1 (List.mem_of_getElem? at_n), settled_word, moves] at settled
    cases settled

/-- The height at the end of a definition is known from its count. -/
theorem Definition.level?_eq_some {h : Int} (level : w.level? = some h) :
    w.unreachable = false ∧ h = stackLevel w.signature.inputs w.depth := by
  unfold Definition.level? at level
  split at level
  · cases level
  · next reached => exact ⟨Bool.eq_false_iff.2 reached, (Option.some.inj level).symm⟩

theorem stackLevel_nonneg (inputs depth : Nat) : stackLevel inputs 0 ≤ stackLevel inputs depth := by
  unfold stackLevel
  omega

namespace Emit

variable {settings : Settings}

theorem ifPart_tracks (stack : settings.convention = .stack) :
    Tracks writes callee settings ifPart := by
  intro d a d' ok tracked
  obtain ⟨reg, d1, consumed, rest⟩ := bind_ok.1 ok
  obtain ⟨_, d2, barred, rest⟩ := bind_ok.1 rest
  have noted := emitWord_bind rest
  cases noted
  have popped : d1.Tracked writes callee := (consume_tracks stack consumed tracked).1
  obtain ⟨H, leveled, level⟩ := (spill_lifts .full).tracked _ _ _ barred popped
  have here : (d2.stage [Placeholder.controlBranch.word]).heap.here = d2.heap.here + 1 := by simp
  have at_branch : extend H d2.heap.here (H d2.heap.here) d2.heap.here = H d2.heap.here :=
    extend_of_le _ (Nat.le_refl _)
  have past : extend H d2.heap.here (H d2.heap.here) (d2.heap.here + 1) = H d2.heap.here :=
    extend_of_lt _ (Nat.lt_succ_self _)
  have staged := leveled.reserve (g := H d2.heap.here) (p := .controlBranch) rfl
    fun h at_here => leveled.floor _ h (Nat.le_refl _) at_here
  refine ⟨_, staged.modify rfl rfl (fun p member => Or.inl member)
    (fun l isLocal r member => Or.inl ⟨l, isLocal, member⟩) (fun f member => ?_), ?_⟩
  · rcases List.mem_cons.1 member with rfl | old
    · right
      refine ⟨⟨Nat.lt_succ_self _, here.ge, fun h at_here => ?_⟩, here.ge, fun h at_here => ?_⟩
      · rw [at_branch] at at_here
        rw [past, at_here, Int.add_zero]
      · rw [at_branch, level] at at_here
        exact (Definition.level?_eq_some at_here).2
    · exact Or.inl old
  · show extend H d2.heap.here _ (d2.stage [Placeholder.controlBranch.word]).heap.here = _
    rw [here, past, level]
    rfl

/-- Closing a part saves the locals; the height and what is known of the part stay. -/
theorem closed_tracks (leveled : d.Leveled writes callee H) (level : H d.heap.here = d.word.level?)
    {frame : ControlFrame} {outer : List ControlFrame} (control : d.word.control = frame :: outer)
    (barred : spill .full settings ⟨d.heap, { d.word with control := outer }⟩ = .ok () d') :
    ∃ H', d'.Leveled writes callee H' ∧ H' d'.heap.here = d'.word.level? ∧
      frame.Leveled d'.word.signature H' d'.heap.here := by
  have lifts : Lifts writes callee settings 0 0 (spill .full) := spill_lifts .full
  obtain ⟨same, lifts⟩ := lifts _ _ _ barred
  obtain ⟨longer, H', leveled', agree, here⟩ := lifts H
    (leveled.modify rfl rfl (fun p member => Or.inl member)
      (fun l isLocal r member => Or.inl ⟨l, isLocal, member⟩)
      fun f member => Or.inl (control ▸ List.mem_cons_of_mem _ member))
    (Draft.above_of_depth level (by omega))
  refine ⟨H', leveled', ?_, ?_⟩
  · rw [here, same.level?]
    show (H d.heap.here).map _ = _
    rw [level]
    simp
    rfl
  · rw [same.signature]
    exact (leveled.control _ (control ▸ List.mem_cons_self)).mono longer (.of_eq agree)

theorem elsePart_tracks : Tracks writes callee settings elsePart := by
  rintro d a d' ok ⟨H, leveled, level⟩
  have rest := tail_of ok rfl
  cases control : d.word.control with
  | nil =>
    rw [control] at rest
    cases rest
  | cons frame outer =>
    cases frame with
    | elsePart skip depth trueDepth =>
      rw [control] at rest
      cases rest
    | ifPart branch reg depth =>
      rw [control] at rest
      obtain ⟨_, d2, barred, rest⟩ := bind_ok.1 (tail_of rest rfl :)
      have rest := emitWord_bind (tail_of rest rfl :)
      obtain ⟨jump, made, following⟩ := assembled_bind (tail_of rest rfl :)
      have noted := patch_bind following
      cases noted
      obtain ⟨H2, leveled2, level2, frame2⟩ := closed_tracks leveled level control barred
      have here : (d2.stage [Placeholder.controlBranch.word]).heap.here = d2.heap.here + 1 := by
        simp
      -- The false part starts at the height of the test.
      have staged := leveled2.reserve (g := some (stackLevel d2.word.signature.inputs depth))
        (p := .controlBranch) rfl fun h same => Option.some.inj same ▸ stackLevel_nonneg _ _
      have past : extend H2 d2.heap.here (some (stackLevel d2.word.signature.inputs depth))
          (d2.heap.here + 1) = some (stackLevel d2.word.signature.inputs depth) :=
        extend_of_lt _ (Nat.lt_succ_self _)
      have kept : ∀ m ≤ d2.heap.here, extend H2 d2.heap.here
          (some (stackLevel d2.word.signature.inputs depth)) m = H2 m :=
            fun m le => extend_of_le _ le
      have frame3 := frame2.mono (Nat.le_succ d2.heap.here) (.of_eq kept)
      have patched :
        ((d2.stage [Placeholder.controlBranch.word]).replace branch jump.encode).Leveled
          writes callee
            (extend H2 d2.heap.here (some (stackLevel d2.word.signature.inputs depth))) := by
        refine staged.replace
          (.test made ⟨here ▸ frame3.2.before, Nat.le_refl _, fun h at_branch => ?_⟩ ?_)
        · rw [here, past, frame3.2.height h at_branch, Int.add_zero]
        · rw [here]
          exact frame3.1
      have here' :
        ((d2.stage [Placeholder.controlBranch.word]).replace branch jump.encode).heap.here =
          d2.heap.here + 1 := by simp [Draft.replace, CodeHeap.here]
      refine ⟨_, patched.modify rfl rfl (fun p member => Or.inl member)
        (fun l isLocal r member => Or.inl ⟨l, isLocal, member⟩) (fun f member => ?_), ?_⟩
      · rcases List.mem_cons.1 member with rfl | old
        · right
          refine ⟨here' ▸ Nat.lt_succ_self _, fun h at_skip => ?_⟩
          rw [extend_of_le _ (Nat.le_refl _), level2] at at_skip
          obtain ⟨reached, rfl⟩ := Definition.level?_eq_some at_skip
          rw [reached]
          rfl
        · exact Or.inl old
      · show extend H2 d2.heap.here _ _ = _
        rw [here', past]
        rfl

/-- Paths that meet have the same number of values. -/
theorem join_ok {first second : Option Nat} (ok : join first second settings d = .ok () d') :
    (∃ depth, (first = none ∨ first = some depth) ∧ (second = none ∨ second = some depth) ∧
      d' = ⟨d.heap, { d.word with depth, unreachable := false }⟩) ∨
    first = none ∧ second = none ∧ d' = ⟨d.heap, { d.word with unreachable := true }⟩ := by
  unfold join at ok
  split at ok
  · next a b =>
    by_cases same : a = b
    · subst same
      dsimp only at ok
      rw [if_neg (fun other => other rfl)] at ok
      cases ok
      exact Or.inl ⟨a, Or.inr rfl, Or.inr rfl, rfl⟩
    · dsimp only at ok
      rw [if_pos same] at ok
      cases ok
  · next depth =>
    cases ok
    exact Or.inl ⟨depth, Or.inr rfl, Or.inl rfl, rfl⟩
  · next depth =>
    cases ok
    exact Or.inl ⟨depth, Or.inl rfl, Or.inr rfl, rfl⟩
  · cases ok
    exact Or.inr ⟨rfl, rfl, rfl⟩

theorem thenPart_tracks : Tracks writes callee settings thenPart := by
  rintro d a d' ok ⟨H, leveled, level⟩
  have rest := tail_of ok rfl
  cases control : d.word.control with
  | nil =>
    rw [control] at rest
    cases rest
  | cons frame outer =>
    rw [control] at rest
    obtain ⟨_, d2, barred, rest⟩ := bind_ok.1 (tail_of rest rfl :)
    replace rest := tail_of (tail_of rest rfl :) rfl
    obtain ⟨H2, leveled2, level2, framed⟩ := closed_tracks leveled level control barred
    generalize ends : (if d2.word.unreachable = true then none else some d2.word.depth) =
      endDepth at rest
    replace level2 : H2 d2.heap.here = endDepth.map (stackLevel d2.word.signature.inputs) := by
      rw [level2, ← ends, Definition.level?]
      split <;> rfl
    have free : ∀ depth, (endDepth = none ∨ endDepth = some depth) → H2 d2.heap.here = none ∨
        H2 d2.heap.here = some (stackLevel d2.word.signature.inputs depth) := by
      rintro depth (rfl | rfl)
      · exact Or.inl level2
      · exact Or.inr level2
    have low := fun depth => stackLevel_nonneg d2.word.signature.inputs depth
    have here : ∀ (n : Nat) (v : InstrWord), (d2.replace n v).heap.here = d2.heap.here :=
      fun n v => by simp [Draft.replace, CodeHeap.here]
    have older : ∀ {m : Nat} {g : Option Int}, m < d2.heap.here →
        Function.update H2 d2.heap.here g m = H2 m :=
      fun lt => Function.update_of_ne (Nat.ne_of_lt lt) _ _
    cases frame with
    | ifPart branch reg depth =>
      obtain ⟨jump, made, following⟩ := assembled_bind rest
      have joined := patch_bind following
      rcases join_ok joined with ⟨D, first, none | same, rfl⟩ | ⟨-, none, -⟩
      · cases none
      · obtain rfl := Option.some.inj same
        have revived := leveled2.revive (free depth first) (low depth)
        have fits := revived.replace (n := branch) (v := jump.encode) (.test made
          ⟨framed.2.before, Nat.le_refl _, fun h at_branch => ?_⟩
            (framed.1.mono (Nat.le_refl _) (.revive (free depth first))))
        · refine ⟨_, fits.same rfl rfl rfl (fun l isLocal => ⟨l, isLocal, rfl⟩) rfl, ?_⟩
          show Function.update H2 _ _ (d2.replace branch jump.encode).heap.here = _
          rw [here, Function.update_self]
          rfl
        · rw [older framed.2.before] at at_branch
          rw [Function.update_self, framed.2.height h at_branch, Int.add_zero]
      · cases none
    | elsePart skip depth trueDepth =>
      obtain ⟨jump, made, following⟩ := assembled_bind rest
      have joined := patch_bind following
      rcases join_ok joined with ⟨D, first, second, rfl⟩ | ⟨none, ended, rfl⟩
      · have revived := leveled2.revive (free D second) (low D)
        have fits := revived.replace (n := skip) (v := jump.encode) (.jump made
          ⟨framed.1, Nat.le_refl _, fun h at_skip => ?_⟩)
        · refine ⟨_, fits.same rfl rfl rfl (fun l isLocal => ⟨l, isLocal, rfl⟩) rfl, ?_⟩
          show Function.update H2 _ _ (d2.replace skip jump.encode).heap.here = _
          rw [here, Function.update_self]
          rfl
        · rw [older framed.1] at at_skip
          have known := framed.2 h at_skip
          rcases first with rfl | rfl
          · cases known
          · rw [Function.update_self, Int.add_zero]
            exact known
      · have fits := leveled2.replace (n := skip) (v := jump.encode) (.jump made
          ⟨framed.1, Nat.le_refl _, fun h at_skip => ?_⟩)
        · refine ⟨_, fits.same rfl rfl rfl (fun l isLocal => ⟨l, isLocal, rfl⟩) rfl, ?_⟩
          show H2 (d2.replace skip jump.encode).heap.here = _
          rw [here, level2, ended]
          rfl
        · have known := framed.2 h at_skip
          rw [none] at known
          cases known

theorem exit_tracks : Tracks writes callee settings exit := by
  rintro d a d' ok ⟨H, leveled, level⟩
  have rest := tail_of ok rfl
  dsimp only at rest
  split at rest
  · next ends =>
    have following := emitWord_bind rest
    have noted := tail_of following rfl
    cases noted
    have here : (d.stage [Placeholder.returnBranch.word]).heap.here = d.heap.here + 1 := by simp
    have staged := leveled.reserve (g := none) (p := .returnBranch) rfl nofun
    refine ⟨_, staged.modify rfl rfl (fun p member => ?_)
      (fun l isLocal r member => Or.inl ⟨l, isLocal, member⟩) (fun f member => Or.inl member), ?_⟩
    · rcases List.mem_append.1 member with old | new
      · exact Or.inl old
      · rw [List.mem_singleton.1 new]
        refine Or.inr ⟨here ▸ Nat.lt_succ_self _, fun h at_index => ?_⟩
        rw [extend_of_le _ (Nat.le_refl _), level] at at_index
        obtain ⟨reached, rfl⟩ := Definition.level?_eq_some at_index
        rw [reached, Bool.false_or, decide_eq_true_eq] at ends
        exact congrArg (stackLevel d.word.signature.inputs) ends
    · show extend H d.heap.here none (d.stage [Placeholder.returnBranch.word]).heap.here = _
      rw [here]
      exact extend_of_lt _ (Nat.lt_succ_self _)
  · cases rest

theorem recurse_tracks (stack : settings.convention = .stack) :
    Tracks writes callee settings recurse := by
  intro d a d' ok tracked
  obtain ⟨_, d3, checked, following⟩ := bind_ok.1 (tail_of (tail_of ok rfl :) rfl :)
  obtain ⟨enough, rfl⟩ := stack_arity stack checked
  obtain ⟨_, d4, clobbered, rest⟩ := bind_ok.1 following
  replace rest := emitWord_bind rest
  replace rest := emitWord_bind rest
  have noted := tail_of rest rfl
  cases noted
  have lifts : Lifts writes callee settings 0 0 (clobber .callerSaved) := clobber_lifts .callerSaved
  have same := (lifts _ _ _ clobbered).1
  obtain ⟨H, leveled, level⟩ := lifts.tracked _ _ _ clobbered tracked
  have deep : ∀ h, H d4.heap.here = some h → 0 ≤ h := by
    intro h at_here
    rw [level] at at_here
    obtain ⟨-, rfl⟩ := Definition.level?_eq_some at_here
    rw [same.signature, same.depth]
    unfold stackLevel
    omega
  let height := (H d4.heap.here).map
    (· + stackLevel d4.word.signature.inputs d4.word.signature.outputs)
  have called := leveled.reserve (g := height) (p := .recursiveCall) rfl fun h at_here => by
    obtain ⟨h0, at_index, rfl⟩ := Option.map_eq_some_iff.1 at_here
    have := deep h0 at_index
    unfold stackLevel
    omega
  have neutral : ∀ v ∈ [Placeholder.recursionCheck.word], Settled v → Neutral writes v := by
    intro v member _
    rw [List.mem_singleton.1 member]
    exact .placeholder _
  have checked := called.flat neutral
  have here : (d4.stage [Placeholder.recursiveCall.word]).heap.here = d4.heap.here + 1 := by simp
  rw [here] at checked
  have past : extend H d4.heap.here height (d4.heap.here + 1) = height :=
    extend_of_lt _ (Nat.lt_succ_self _)
  rw [past] at checked
  have here' : ((d4.stage [Placeholder.recursiveCall.word]).stage
      [Placeholder.recursionCheck.word]).heap.here = d4.heap.here + 2 := by simp
  have at_index : extend (extend H d4.heap.here height) (d4.heap.here + 1) height d4.heap.here =
      H d4.heap.here := by
    rw [extend_of_le _ (Nat.le_succ _), extend_of_le _ (Nat.le_refl _)]
  have at_check : extend (extend H d4.heap.here height) (d4.heap.here + 1) height
      (d4.heap.here + 1) = height := by
    rw [extend_of_le _ (Nat.le_refl _), past]
  refine ⟨_, checked.modify rfl rfl (fun p member => ?_)
    (fun l isLocal r member => Or.inl ⟨l, isLocal, member⟩) (fun f member => Or.inl member), ?_⟩
  · rcases List.mem_append.1 member with old | new
    · exact Or.inl old
    · rw [List.mem_singleton.1 new]
      right
      refine ⟨⟨Nat.lt_succ_self _, here' ▸ by omega, fun h at_here => ?_⟩, fun h at_here => ?_⟩
      · rw [at_index] at at_here
        rw [at_check]
        show (H d4.heap.here).map _ = _
        rw [at_here]
        rfl
      · rw [at_index] at at_here
        exact deep h at_here
  · show extend (extend H d4.heap.here height) (d4.heap.here + 1) height
      ((d4.stage [Placeholder.recursiveCall.word]).stage
        [Placeholder.recursionCheck.word]).heap.here = _
    rw [here', extend_of_lt _ (Nat.lt_succ_self _)]
    show (H d4.heap.here).map _ = _
    rw [level]
    symm
    refine Definition.level?_counted rfl rfl ?_
    show 8 * ((d3.word.depth - d3.word.signature.inputs + d3.word.signature.outputs : Nat) : Int) =
      _
    rw [same.signature, same.depth]
    unfold stackLevel
    omega

end Emit

end ForthJit
