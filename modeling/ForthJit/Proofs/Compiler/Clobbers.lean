import ForthJit.Proofs.Compiler.Tiling

/-!
# What a finished word announces

A word announces the registers that it overwrites, and its callers rely on that when they keep
locals in registers across a call.  `Announces` says that a word is right about it: it writes no
register that it has not announced, apart from the reserved ones, it announces what it calls
announce, and a call that leaves the compiled code, or that calls the word itself, announces
everything a call may overwrite.
-/

namespace ForthJit

theorem Instruction.written_of_jump? {i : Instruction} {words : Int}
    (jumps : i.jump? = some words) : i.written = [] := by
  cases i <;> first | rfl | cases jumps

/-- The word `v` writes only registers declared for it, and calls nothing. -/
def Declared (writes : InstrWord → Reg → Prop) (v : InstrWord) (clobbers : RegSet) : Prop :=
  (∀ r, writes v r → clobbers.contains r = true) ∧
    (∀ words, v ≠ (Instruction.branchLink words).encode) ∧
      ∀ reg, v ≠ (Instruction.callReg reg).encode

/-- What instructions write is among what `Instruction.written` says. -/
def WritesOnly (writes : InstrWord → Reg → Prop) : Prop :=
  ∀ (i : Instruction) r, writes i.encode r → r ∈ i.written

/-- The words of instructions write what `Instruction.written` says, and no other word writes. -/
def Writes (v : InstrWord) (r : Reg) : Prop := ∃ i : Instruction, v = i.encode ∧ r ∈ i.written

theorem writesOnly_writes : WritesOnly Writes := by
  rintro i r ⟨j, same, written⟩
  rwa [Instruction.encode_injective same]

theorem not_call_of_plain {i : Instruction} (plain : i.isPlain = true) :
    (∀ words, i.encode ≠ (Instruction.branchLink words).encode) ∧
      ∀ reg, i.encode ≠ (Instruction.callReg reg).encode := by
  constructor
  all_goals
    intro _ same
    rw [Instruction.encode_injective same] at plain
    cases plain

/-- A plain instruction may be inserted if the registers that it writes are declared. -/
theorem declared_of_plain {writes : InstrWord → Reg → Prop} (encoded : WritesOnly writes)
    {i : Instruction} {clobbers : RegSet} (plain : i.isPlain = true)
    (announced : ∀ r ∈ i.written, clobbers.contains r = true) :
    Declared writes i.encode clobbers :=
  ⟨fun r written => announced r (encoded i r written), not_call_of_plain plain⟩

section Part

variable {writes : InstrWord → Reg → Prop} {callee : Nat → RegSet → Prop} {code : CompiledWord}
  {clobbers : RegSet} {patches : List PendingPatch} {stubs i : Nat} {v : InstrWord}

theorem Movable.writes_announced (encoded : WritesOnly writes)
    (movable : Movable (Declared writes) clobbers v) {r : Reg} (written : writes v r) :
    r.isReserved = true ∨ clobbers.contains r = true := by
  cases movable with
  | raw declared within => exact Or.inr (within r (declared.1 r written))
  | plain _ announced => exact announced r (encoded _ r written)

theorem Movable.not_call (movable : Movable (Declared writes) clobbers v) :
    (∀ words, v ≠ (Instruction.branchLink words).encode) ∧
      ∀ reg, v ≠ (Instruction.callReg reg).encode := by
  cases movable with
  | raw declared _ => exact declared.2
  | plain plain _ => exact not_call_of_plain plain

/-- Every register that a part of a word writes is announced or reserved. -/
theorem Part.writes_announced (encoded : WritesOnly writes)
    (part : Part (Declared writes) callee code clobbers patches stubs i v) {r : Reg}
    (written : writes v r) : r.isReserved = true ∨ clobbers.contains r = true := by
  cases part with
  | movable _ movable => exact movable.writes_announced encoded written
  | site site =>
    have member := encoded _ r written
    cases site with
    | jump _ _ jumps =>
      rw [Instruction.written_of_jump? jumps] at member
      cases member
    | call | recursion | callReg =>
      rw [List.mem_singleton.1 member]
      exact Or.inl rfl
    | load _ _ announced =>
      rw [List.mem_singleton.1 member]
      exact Or.inr announced
    | ret | leave | padding => cases member

/-- A call goes to an older word or to the word itself. -/
theorem Part.call_target {words : BitVec 26}
    (part : Part (Declared writes) callee code clobbers patches stubs i
      (Instruction.branchLink words).encode) :
    (∃ entry regs, callee entry regs ∧ regs ⊆ clobbers ∧ (entry : Int) = i + words.toInt) ∨
      RegSet.callerSaved ⊆ clobbers ∧ (code.layout.entry : Int) = i + words.toInt := by
  rcases part.instruction with movable | site
  · exact absurd rfl (movable.not_call.1 words)
  · cases site with
    | jump _ _ jumps => cases jumps
    | call _ _ known within target => exact Or.inl ⟨_, _, known, within, target⟩
    | recursion _ _ within _ target => exact Or.inr ⟨within, target⟩

/-- A call by address announces everything that it may overwrite. -/
theorem Part.platform_announced {reg : Reg}
    (part : Part (Declared writes) callee code clobbers patches stubs i
      (Instruction.callReg reg).encode) : RegSet.callerSaved ⊆ clobbers := by
  rcases part.instruction with movable | site
  · exact absurd rfl (movable.not_call.2 reg)
  · cases site with
    | jump _ _ jumps => cases jumps
    | callReg _ _ _ within => exact within

end Part

namespace Compiler

variable {writes : InstrWord → Reg → Prop} {l : Records} {c : Compiler}

/-- The word announces whatever running it can overwrite. -/
structure Announces (writes : InstrWord → Reg → Prop) (c : Compiler) (id : EntryId) (e : Entry)
    (code : CompiledWord) : Prop where
  /-- Every register that is written is reserved or announced. -/
  written : ∀ i v r, code.layout.body ≤ i → i < code.layout.literals → c.heap.word? i = some v →
    writes v r → r.isReserved = true ∨ e.clobbers.contains r = true
  /-- What another word announces is announced where it is called. -/
  called : ∀ i words, code.layout.body ≤ i → i < code.layout.literals →
    c.heap.word? i = some (Instruction.branchLink words).encode →
    ∀ (id' : Nat) e' code', c.HasWord id' e' code' → id' ≠ id →
      (code'.layout.entry : Int) = i + words.toInt → e'.clobbers ⊆ e.clobbers
  /-- A call by address may overwrite `x0` to `x17`. -/
  platform : ∀ i reg, code.layout.body ≤ i → i < code.layout.literals →
    c.heap.word? i = some (Instruction.callReg reg).encode → RegSet.callerSaved ⊆ e.clobbers
  /-- So may a call of the word itself. -/
  recursive : ∀ i words, code.layout.body ≤ i → i < code.layout.literals →
    c.heap.word? i = some (Instruction.branchLink words).encode →
    (code.layout.entry : Int) = i + words.toInt → RegSet.callerSaved ⊆ e.clobbers

/-- The built-in primitives declare what they write. -/
theorem builtIn_declared (encoded : WritesOnly writes) : BuiltInObeys (Declared writes) := by
  have declared : ∀ p ∈ Primitive.all, ∀ i ∈ p.body,
      (∀ r ∈ i.written, p.clobbers.contains r = true) ∧ i.isPlain = true := by
    decide +kernel
  intro p isPrimitive i isInstruction
  obtain ⟨announced, plain⟩ := declared p isPrimitive i isInstruction
  exact declared_of_plain encoded plain announced

/-- Let `writes` say which registers a word of code writes.  If every word that is inserted as it is
writes only registers declared for it and calls nothing, then every finished word announces whatever
running it can overwrite, whichever convention it was compiled for and whatever failed before. -/
theorem clobbers_complete (encoded : WritesOnly writes) {current : List Snapshot}
    (run : Run False (Declared writes) current l c) {id : Nat} {e : Entry} {code : CompiledWord}
    (word : c.HasWord id e code) : c.Announces writes id e code := by
  have obeys := builtIn_declared encoded
  have made := run.word (made_invariant _) obeys word
  obtain ⟨stubs, -, parts⟩ := made.parts
  have above := made.ordered.body_eq
  have entered := made.ordered.start_le_entry
  refine ⟨fun i v r low high at_i written => ?_,
    fun i words low high at_i id' e' code' word' other target => ?_,
    fun i reg low high at_i => ?_, fun i words low high at_i target => ?_⟩
  · exact (parts i v (by omega) high at_i).writes_announced encoded written
  · rcases (parts i _ (by omega) high at_i).call_target with
      ⟨entry, regs, ⟨id1, e1, code1, word1, rfl, rfl, -⟩, within, reached⟩ | ⟨-, reached⟩
    · obtain rfl : id1 = id' := run.entry_injective obeys word1 word' (by omega)
      obtain rfl := Option.some.inj (word1.found.symm.trans word'.found)
      exact within
    · exact absurd (run.entry_injective obeys word' word (by omega)) other
  · exact (parts i _ (by omega) high at_i).platform_announced
  · rcases (parts i _ (by omega) high at_i).call_target with
      ⟨entry, regs, ⟨id1, e1, code1, word1, rfl, rfl, before, -⟩, -, reached⟩ | ⟨within, -⟩
    · -- An older word ends before this one is entered.
      cases (run.word (made_invariant _) obeys word1).ordered
      omega
    · exact within

/-- A word with a local, an inserted instruction, a call by address and a call of itself, and a word
that calls it, while a third is being defined. -/
theorem clobbers_complete_across_calls :
    ∃ c l x y code code', Run False (Declared Writes) [] l c ∧ c.compiling? = some "z" ∧
      c.HasWord 30 x code ∧ c.HasWord 31 y code' ∧ (x.name, y.name) = ("x", "y") ∧
      c.Announces Writes 30 x code ∧ c.Announces Writes 31 y code' := by
  let ops : List Operation := [.bindExternal "f" 1 1 16,
    .beginWord "x" { inputs := 2, outputs := 1 }, .setLocal "p",
    .instruction (Asm.mov ⟨5⟩ ⟨0⟩).encode (.singleton ⟨5⟩), .call 29, .getLocal "p", .recurse,
    .endWord, .beginWord "y" { inputs := 0, outputs := 1 }, .literal 1, .literal 2, .call 30,
    .endWord, .beginWord "z" { inputs := 0, outputs := 0 }]
  let names (c : Compiler) := (c.compiling?, (c.finished? 30).map (·.1.name),
    (c.finished? 31).map (·.1.name))
  have state : (create {} {}).toOption.map (fun b => names (played ops (fun _ => []) b).2) =
      some (some "z", some "x", some "y") := by
    decide +kernel
  obtain ⟨b, created, state⟩ := toOption_map.1 state
  simp only [names, Prod.mk.injEq, Option.map_eq_some_iff] at state
  obtain ⟨isOpen, ⟨⟨x, code⟩, finished, name⟩, ⟨⟨y, code'⟩, finished', name'⟩⟩ := state
  have obeys : ∀ op ∈ ops, op.Obeys (Declared Writes) := by
    have raw : Declared Writes (Asm.mov ⟨5⟩ ⟨0⟩).encode (.singleton ⟨5⟩) :=
      declared_of_plain writesOnly_writes rfl (by decide)
    simp only [ops, List.forall_mem_cons, Operation.Obeys]
    exact ⟨trivial, trivial, trivial, raw, by simp⟩
  have run := Run.of_create created ops obeys False.elim
  have word := finished?_eq_some.1 finished
  have word' := finished?_eq_some.1 finished'
  exact ⟨_, _, x, y, code, code', run, isOpen, word, word', Prod.ext name name',
    clobbers_complete writesOnly_writes run word, clobbers_complete writesOnly_writes run word'⟩

/-- The word `v` writes only registers declared for it, but may call. -/
def DeclaredOnly (v : InstrWord) (clobbers : RegSet) : Prop :=
  ∀ r, Writes v r → clobbers.contains r = true

theorem declaredOnly_of_written {i : Instruction} {clobbers : RegSet}
    (announced : ∀ r ∈ i.written, clobbers.contains r = true) : DeclaredOnly i.encode clobbers :=
  fun r written => announced r (writesOnly_writes i r written)

/-- An inserted call need not declare what the called word, or a function called by address,
overwrites. -/
theorem inserted_calls_unannounced :
    ∃ c l x y code code', Run False DeclaredOnly [] l c ∧ c.HasWord 29 x code ∧
      c.HasWord 30 y code' ∧
      (∃ i words, code'.layout.body ≤ i ∧ i < code'.layout.literals ∧
        c.heap.word? i = some (Instruction.branchLink words).encode ∧
          (code.layout.entry : Int) = i + words.toInt ∧ ¬x.clobbers ⊆ y.clobbers) ∧
      ∃ i reg, code'.layout.body ≤ i ∧ i < code'.layout.literals ∧
        c.heap.word? i = some (Instruction.callReg reg).encode ∧
          ¬RegSet.callerSaved ⊆ y.clobbers := by
  let ops : List Operation := [.beginWord "x" { inputs := 0, outputs := 1 }, .literal 7, .endWord,
    .beginWord "y" { inputs := 0, outputs := 0 },
    .instruction (Instruction.branchLink (-5)).encode (.singleton .lr),
    .instruction (Instruction.callReg ⟨9⟩).encode (.singleton .lr), .endWord]
  let c (b : Compiler) := (played ops (fun _ => []) b).2
  have state : (create {} {}).toOption.bind (fun b => ((c b).finished? 29).bind fun x =>
      ((c b).finished? 30).map fun y => ((x.1.clobbers, x.2.layout.entry),
        (y.1.clobbers, y.2.layout.body, y.2.layout.literals),
        (c b).heap.word? 164, (c b).heap.word? 165)) =
      some ((.singleton ⟨0⟩, 159), (.singleton .lr, 164, 167),
        some (Instruction.branchLink (-5)).encode, some (Instruction.callReg ⟨9⟩).encode) := by
    decide +kernel
  obtain ⟨b, created, state⟩ := toOption_bind.1 state
  obtain ⟨x, code, word, state⟩ := finished?_bind.1 state
  obtain ⟨y, code', word', state⟩ := finished?_map.1 state
  simp only [Prod.mk.injEq] at state
  obtain ⟨⟨clobbers, entry⟩, ⟨clobbers', body, literals⟩, call, platform⟩ := state
  have obeys : ∀ op ∈ ops, op.Obeys DeclaredOnly := by
    have call : DeclaredOnly (Instruction.branchLink (-5)).encode (.singleton .lr) :=
      declaredOnly_of_written (by decide)
    have platform : DeclaredOnly (Instruction.callReg ⟨9⟩).encode (.singleton .lr) :=
      declaredOnly_of_written (by decide)
    simp only [ops, List.forall_mem_cons, Operation.Obeys]
    exact ⟨trivial, trivial, trivial, trivial, call, platform, by simp⟩
  have run := Run.of_create created ops obeys False.elim
  refine ⟨_, _, x, y, code, code', run, word, word',
    ⟨164, -5, by omega, by omega, call, by rw [entry]; decide, ?_⟩,
    165, ⟨9⟩, by omega, by omega, platform, ?_⟩
  · rw [clobbers, clobbers']
    intro within
    exact absurd (within ⟨0⟩ (by decide)) (by decide)
  · rw [clobbers']
    intro within
    exact absurd (within ⟨0⟩ (by decide)) (by decide)

/-- A snapshot that was taken inside a definition keeps the entry of its word, but not its code:
what is defined next writes other registers there. -/
theorem stale_code_unannounced :
    ∃ b, create {} {} = .ok b ∧
      let c := b.overwritten 1 drops twoValues
      ∃ x code i v r, c.HasWord 29 x code ∧ code.layout.body ≤ i ∧ i < code.layout.literals ∧
        c.heap.word? i = some v ∧ Writes v r ∧ r.isReserved = false ∧
          x.clobbers.contains r = false := by
  let c := overwritten 1 drops twoValues
  have state : (create {} {}).toOption.bind (fun b => ((c b).finished? 29).map fun x =>
      (x.1.clobbers, x.2.layout.body, x.2.layout.literals, (c b).heap.word? 163)) =
      some (.singleton ⟨0⟩, 159, 164, some (Instruction.wideMove .zero ⟨1⟩ 2 0).encode) := by
    decide +kernel
  obtain ⟨b, created, state⟩ := toOption_bind.1 state
  obtain ⟨x, code, word, state⟩ := finished?_map.1 state
  simp only [Prod.mk.injEq] at state
  obtain ⟨clobbers, body, literals, written⟩ := state
  refine ⟨b, created, x, code, 163, _, ⟨1⟩, word,
    by omega, by omega, written, ⟨_, rfl, by decide⟩, by decide, ?_⟩
  rw [clobbers]
  decide

/-- So words need not announce whatever running them can overwrite: not if an inserted word is a
call, and not after a snapshot from inside a definition was restored. -/
theorem clobbers_incomplete :
    (∃ c l x code, Run False DeclaredOnly [] l c ∧ c.HasWord 30 x code ∧
      ¬c.Announces Writes 30 x code) ∧
    ∃ b, create {} {} = .ok b ∧
      let c := b.overwritten 1 drops twoValues
      ∃ x code, c.HasWord 29 x code ∧ ¬c.Announces Writes 29 x code := by
  obtain ⟨c, l, x, y, code, code', run, -, word, -, i, reg, low, high, call, missing⟩ :=
    inserted_calls_unannounced
  obtain ⟨b, created, x', code1, i', v, r, word', low', high', at_i, written, general, absent⟩ :=
    stale_code_unannounced
  refine ⟨⟨c, l, y, code', run, word, fun announces => ?_⟩, b, created, x', code1, word',
    fun announces => ?_⟩
  · exact missing (announces.platform i reg low high call)
  · rcases announces.written i' v r low' high' at_i written with reserved | announced
    · cases general.symm.trans reserved
    · cases absent.symm.trans announced

end Compiler

end ForthJit
