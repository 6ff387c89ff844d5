import ForthJit.Proofs.Compiler.Tiling

/-!
# Where control goes in a finished word

Every jump of a finished word stays inside it, every call goes to the word itself or to a word that
it records as called and that ends before it starts, and every literal is loaded from the literals
of the word.  So control that enters the word leaves it only by a return or for a call: it never
runs into the error stubs or into the literals (`Compiler.Enclosed`).
-/

namespace ForthJit

variable {i : Instruction} {words : Int}

/-- The word `v` means the same wherever it stands, and if it goes to an address in a register, it
calls or returns. -/
def Placeable (v : InstrWord) (_ : RegSet) : Prop :=
  isPcRelative v = false ∧ (isRegisterBranch v = true → isRegisterCall v = true ∨ isReturn v = true)

theorem Instruction.isPcRelative_of_jump?
    (jumps : i.jump? = some words) : i.isPcRelative = true := by
  cases i <;> first | rfl | cases jumps

theorem Instruction.isRegisterBranch_of_jump?
    (jumps : i.jump? = some words) : i.isRegisterBranch = false := by
  cases i <;> first | rfl | cases jumps

theorem Instruction.placeable_of_isPlain (plain : i.isPlain = true)
    (clobbers : RegSet) : Placeable i.encode clobbers := by
  have kind : i.isPcRelative = false ∧ i.isRegisterBranch = false := by
    cases i <;> first | exact ⟨rfl, rfl⟩ | cases plain
  unfold Placeable
  rw [isPcRelative_encode, isRegisterBranch_encode, kind.1, kind.2]
  exact ⟨rfl, nofun⟩

/-- The positions that control can get to: from the entry to the return, and in the error stubs. -/
def WordLayout.Live (l : WordLayout) (stubs i : Nat) : Prop :=
  l.entry ≤ i ∧ i ≤ l.ret ∨ ∃ n < stubs, i = l.data + 2 * n ∨ i = l.data + 2 * n + 1

section Part

variable {callee : Nat → RegSet → Prop} {code : CompiledWord} {clobbers : RegSet}
  {patches : List PendingPatch} {stubs count i : Nat} {v : InstrWord} {j : Instruction}

theorem Movable.placeable (movable : Movable Placeable clobbers v) : Placeable v clobbers := by
  cases movable with
  | raw placeable _ => exact placeable
  | plain plain _ => exact Instruction.placeable_of_isPlain plain _

/-- What names its target or its operand by its distance was made for its position. -/
theorem Part.site_of_relative
    (part : Part Placeable callee code clobbers patches stubs i j.encode)
    (relative : j.isPcRelative = true) : Site callee code clobbers patches stubs i j := by
  rcases part.instruction with movable | site
  · have absolute := movable.placeable.1
    rw [Instruction.isPcRelative_encode, relative] at absolute
    cases absolute
  · exact site

/-- A jump stays inside the word. -/
theorem Site.jump_target (site : Site callee code clobbers patches stubs i j)
    (jumps : j.jump? = some words) (ordered : code.layout.Ordered count) :
    ∃ target : Nat, (target : Int) = i + words ∧ code.layout.Inside stubs target := by
  cases site with
  | jump _ _ jumps' reached inside =>
    obtain rfl := Option.some.inj (jumps.symm.trans jumps')
    exact ⟨_, reached, inside⟩
  | leave _ _ reached =>
    cases jumps
    refine ⟨_, reached, Or.inl ?_⟩
    cases ordered
    omega
  | call | recursion | callReg | load | ret | padding => cases jumps

/-- A word that goes to an address in a register calls or returns. -/
theorem Part.register_branch (part : Part Placeable callee code clobbers patches stubs i v)
    (branches : isRegisterBranch v = true) : isRegisterCall v = true ∨ isReturn v = true := by
  cases part with
  | movable _ movable => exact movable.placeable.2 branches
  | @site j site =>
    rw [Instruction.isRegisterBranch_encode] at branches
    cases site with
    | jump _ _ jumps =>
      rw [Instruction.isRegisterBranch_of_jump? jumps] at branches
      cases branches
    | callReg reg => exact Or.inl (Instruction.isRegisterCall_encode reg)
    | ret => exact Or.inr rfl
    | _ => cases branches

/-- Where control goes on with the next word, that word is still in front of the return or in the
same stub. -/
theorem Part.next_live (part : Part Placeable callee code clobbers patches stubs i v)
    (ordered : code.layout.Ordered count) (live : code.layout.Live stubs i)
    (goesOn : falls v = true) :
    i + 1 ≤ code.layout.ret ∨ ∃ n < stubs, i + 1 = code.layout.data + 2 * n + 1 := by
  cases ordered
  cases part with
  | movable place _ =>
    rcases place with before | ⟨n, isStub, here⟩
    · exact Or.inl before
    · exact Or.inr ⟨n, isStub, by omega⟩
  | site site =>
    rw [Instruction.falls_encode] at goesOn
    cases site with
    | jump before | call before | recursion before | callReg _ before | load before =>
      exact Or.inl (by omega)
    | ret | leave => cases goesOn
    | padding beyond =>
      rcases live with ⟨-, below⟩ | ⟨n, isStub, here⟩
      · omega
      · omega

end Part

namespace Compiler

variable {l : Records} {c : Compiler}

/-- Control stays in the finished word `id`, whose literals are those of `patches`. -/
structure Enclosed (c : Compiler) (patches : List PendingPatch) (e : Entry) (code : CompiledWord) :
    Prop where
  /-- Jumps go to the body, to the exits or to a stub. -/
  jumps : ∀ i (j : Instruction) words, code.layout.start ≤ i → i < code.layout.literals →
    c.heap.word? i = some j.encode → j.jump? = some words →
    ∃ target : Nat, (target : Int) = i + words ∧ code.layout.body ≤ target ∧
      target < code.layout.literals
  /-- Calls go to the word itself, where that is recorded, or to a published word that is recorded
  as called and ends before this one starts. -/
  calls : ∀ i words, code.layout.start ≤ i → i < code.layout.literals →
    c.heap.word? i = some (Instruction.branchLink words).encode →
    (code.layout.entry : Int) = i + words.toInt ∧ (∃ check, .recursion i check ∈ patches) ∨
      ∃ id ∈ e.callees, ∃ callee code', c.HasWord id callee code' ∧
        (code'.layout.entry : Int) = i + words.toInt ∧ code'.layout.stop ≤ code.layout.start ∧
          code'.layout.stop ≤ c.heap.published
  /-- A load reads the literal that was recorded for it, low half first. -/
  loads : ∀ i reg words, code.layout.start ≤ i → i < code.layout.literals →
    c.heap.word? i = some (Instruction.loadLiteral reg words).encode →
    ∃ (value : Cell) (k : Nat), .literal i reg value ∈ patches ∧
      ((code.layout.literals + 2 * k : Nat) : Int) = i + words.toInt ∧
      (code.layout.literals + 2 * k) % 2 = 0 ∧ code.layout.literals + 2 * k < code.layout.stop ∧
      c.heap.word? (code.layout.literals + 2 * k) = some (value.extractLsb' 0 32) ∧
      c.heap.word? (code.layout.literals + 2 * k + 1) = some (value.extractLsb' 32 32)
  /-- Control from the entry stays in front of the literals.  If it goes to an address in a
  register, that is a call or the return, and it does not run from the return into the stubs. -/
  flow : ∀ i, Relation.ReflTransGen c.heap.Flow code.layout.entry i →
    code.layout.start ≤ i ∧ i < code.layout.literals ∧
      ∀ v, c.heap.word? i = some v →
        (isRegisterBranch v = true → isRegisterCall v = true ∨ isReturn v = true) ∧
        (falls v = true → i + 1 ≤ code.layout.ret ∨
          code.layout.data ≤ i ∧ i + 1 < code.layout.literals)

theorem builtIn_placeable : BuiltInObeys Placeable := by
  have plain : ∀ p ∈ Primitive.all, ∀ i ∈ p.body, i.isPlain = true := by decide +kernel
  exact fun p isPrimitive i isInstruction =>
    Instruction.placeable_of_isPlain (plain p isPrimitive i isInstruction) _

/-- Whatever control can reach from the entry is live. -/
theorem Made.live {strict : Prop} {patches : List PendingPatch} {e : Entry} {code : CompiledWord}
    (ordered : code.layout.Ordered (PendingPatch.literals patches).length) {stubs : Nat}
    (fits : code.layout.data + 2 * stubs ≤ code.layout.literals)
    (parts : ∀ i v, code.layout.start ≤ i → i < code.layout.literals → c.heap.word? i = some v →
      Part Placeable (c.mayCall strict e code.layout.start) code e.clobbers patches stubs i v)
    {i : Nat} (reached : Relation.ReflTransGen c.heap.Flow code.layout.entry i) :
    code.layout.Live stubs i := by
  induction reached with
  | refl =>
    left
    cases ordered
    omega
  | @tail i j _ step live =>
    have inside : code.layout.start ≤ i ∧ i < code.layout.literals := by
      cases ordered
      rcases live with ⟨above, below⟩ | ⟨n, isStub, here⟩ <;> omega
    cases step with
    | next at_i goesOn =>
      have part := parts i _ inside.1 inside.2 at_i
      rcases part.next_live ordered live goesOn with before | ⟨n, isStub, here⟩
      · left
        cases ordered
        rcases live with ⟨above, below⟩ | ⟨n, isStub, here⟩ <;> omega
      · exact Or.inr ⟨n, isStub, Or.inr here⟩
    | jump at_i jumps target =>
      have site := (parts i _ inside.1 inside.2 at_i).site_of_relative
        (Instruction.isPcRelative_of_jump? jumps)
      obtain ⟨target', reached, within⟩ := site.jump_target jumps ordered
      obtain rfl : j = target' := by omega
      rcases within with ⟨low, high⟩ | ⟨n, isStub, here⟩
      · left
        cases ordered
        omega
      · exact Or.inr ⟨n, isStub, Or.inl here⟩

/-- In a run in which all operations on open definitions have succeeded, and in which no inserted
word depends on its position or goes to an address in a register but to call or return, control
stays in every finished word. -/
theorem control_enclosed {current : List Snapshot} (run : Run True Placeable current l c) {id : Nat}
    {e : Entry} {code : CompiledWord} (word : c.HasWord id e code) : c.Enclosed (l id) e code := by
  have made := run.word (made_invariant _) builtIn_placeable word
  obtain ⟨stubs, fits, parts⟩ := made.parts
  have ordered := made.ordered
  refine ⟨fun i j words low high at_i jumps => ?_, fun i words low high at_i => ?_,
    fun i reg words low high at_i => ?_, fun i reached => ?_⟩
  · have site := (parts i _ low high at_i).site_of_relative
      (Instruction.isPcRelative_of_jump? jumps)
    obtain ⟨target, reached, within⟩ := site.jump_target jumps ordered
    refine ⟨target, reached, ?_⟩
    cases ordered
    rcases within with inBody | ⟨n, isStub, here⟩ <;> omega
  · cases (parts i _ low high at_i).site_of_relative rfl with
    | jump _ _ jumps => cases jumps
    | call _ _ known _ reached =>
      obtain ⟨id', callee, code', word', rfl, -, before, recorded⟩ := known
      exact Or.inr ⟨id', recorded trivial, callee, code', word', reached, before,
        run.published builtIn_placeable word'⟩
    | recursion _ _ _ pending reached => exact Or.inl ⟨reached, _, pending⟩
  · cases (parts i _ low high at_i).site_of_relative rfl with
    | jump _ _ jumps => cases jumps
    | @load _ _ value k _ _ _ pending rank reached =>
      have bound : k < (PendingPatch.literals (l id)).length := (List.getElem?_eq_some_iff.1 rank).1
      obtain ⟨lowHalf, highHalf⟩ := made.literals k value rank
      have even := ordered.literals_even (by omega)
      have stop := ordered.stop_eq
      exact ⟨value, k, pending, reached, by omega, by omega, lowHalf, highHalf⟩
  · have live := Made.live ordered fits parts reached
    have inside : code.layout.start ≤ i ∧ i < code.layout.literals := by
      cases ordered
      rcases live with ⟨above, below⟩ | ⟨n, isStub, here⟩ <;> omega
    refine ⟨inside.1, inside.2, fun v at_i => ?_⟩
    have part := parts i v inside.1 inside.2 at_i
    refine ⟨part.register_branch, fun goesOn => ?_⟩
    rcases part.next_live ordered live goesOn with before | ⟨n, isStub, here⟩
    · exact Or.inl before
    · right
      omega

/-- A word that branches, loads a literal, calls itself, returns early and raises, and one that
calls it. -/
theorem control_enclosed_recursive :
    ∃ c l x y code code', Run True Placeable [] l c ∧ c.HasWord 29 x code ∧ c.HasWord 30 y code' ∧
      (x.callees, y.callees) = ([6, 29], [29]) ∧
      (code.layout.data + 2 < code.layout.literals ∧ code.layout.literals < code.layout.stop) ∧
      c.Enclosed (l 29) x code ∧ c.Enclosed (l 30) y code' := by
  let ops : List Operation := [.beginWord "x" { inputs := 2, outputs := 1 }, .word "+",
    .setLocal "p", .literal 0x123456789ABCDEF0, .setLocal "r", .getLocal "p", .ifPart,
    .getLocal "p", .getLocal "r", .recurse, .exit, .thenPart, .getLocal "p", .raise, .getLocal "r",
    .endWord, .beginWord "y" { inputs := 2, outputs := 1 }, .call 29, .endWord]
  let c (b : Compiler) := (played ops (fun _ => []) b).2
  have state : (create {} {}).toOption.bind (fun b => ((c b).finished? 29).bind fun x =>
      ((c b).finished? 30).map fun y => (succeeds ops b, (x.1.callees, y.1.callees),
        (x.2.layout.data, x.2.layout.literals, x.2.layout.stop))) =
      some (true, ([6, 29], [29]), (177, 180, 182)) := by
    decide +kernel
  obtain ⟨b, created, state⟩ := toOption_bind.1 state
  obtain ⟨x, code, word, state⟩ := finished?_bind.1 state
  obtain ⟨y, code', word', state⟩ := finished?_map.1 state
  simp only [Prod.mk.injEq] at state
  obtain ⟨succeeded, ⟨callees, callees'⟩, data, literals, stop⟩ := state
  have obeys : ∀ op ∈ ops, op.Obeys Placeable := by
    simp only [ops, List.forall_mem_cons, Operation.Obeys]
    simp
  have run := Run.of_create created ops obeys fun (_ : True) => succeeded
  exact ⟨_, _, x, y, code, code', run, word, word', Prod.ext callees callees', by omega,
    control_enclosed run word, control_enclosed run word'⟩

/-- The word `v` does not depend on its position, but may go to an address in a register. -/
def Positionless (v : InstrWord) (_ : RegSet) : Prop :=
  isPcRelative v = false

/-- An inserted word can be a jump to an address in a register. -/
theorem inserted_jump_leaves :
    ∃ c l x code v, Run True Positionless [] l c ∧ c.HasWord 29 x code ∧
      c.heap.word? code.layout.entry = some v ∧ isRegisterBranch v = true ∧
        isRegisterCall v = false ∧ isReturn v = false := by
  let ops : List Operation := [.beginWord "x" { inputs := 0, outputs := 0 },
    .instruction (Instruction.jumpReg ⟨9⟩).encode .empty, .endWord]
  let c (b : Compiler) := (played ops (fun _ => []) b).2
  have state : (create {} {}).toOption.bind (fun b => ((c b).finished? 29).map fun x =>
      (succeeds ops b, (c b).heap.word? x.2.layout.entry)) =
      some (true, some (Instruction.jumpReg ⟨9⟩).encode) := by
    decide +kernel
  obtain ⟨b, created, state⟩ := toOption_bind.1 state
  obtain ⟨x, code, word, state⟩ := finished?_map.1 state
  simp only [Prod.mk.injEq] at state
  have obeys : ∀ op ∈ ops, op.Obeys Positionless := by
    have raw : Positionless (Instruction.jumpReg ⟨9⟩).encode .empty :=
      Instruction.isPcRelative_encode (.jumpReg ⟨9⟩)
    simp only [ops, List.forall_mem_cons, Operation.Obeys]
    exact ⟨trivial, raw, by simp⟩
  have run := Run.of_create created ops obeys fun (_ : True) => state.1
  exact ⟨_, _, x, code, _, run, word, state.2, by decide, by decide,
    by decide⟩

/-- After a snapshot from inside a definition was restored, its word's range can hold a jump of what
was defined next, to behind that range. -/
theorem stale_jump_leaves :
    ∃ b, create {} {} = .ok b ∧
      let c := b.overwritten 1 drops branching
      ∃ x code i j, c.HasWord 29 x code ∧ code.layout.start ≤ i ∧ i < code.layout.literals ∧
        c.heap.word? i = some (Instruction.encode j) ∧
          ∃ words, j.jump? = some words ∧ (code.layout.literals : Int) < i + words := by
  let c := overwritten 1 drops branching
  have state : (create {} {}).toOption.bind (fun b => ((c b).finished? 29).map fun x =>
      (x.2.layout.start, x.2.layout.literals, (c b).heap.word? 162)) =
      some (156, 164, some (Instruction.branchZero ⟨0⟩ 3).encode) := by
    decide +kernel
  obtain ⟨b, created, state⟩ := toOption_bind.1 state
  obtain ⟨x, code, word, state⟩ := finished?_map.1 state
  simp only [Prod.mk.injEq] at state
  obtain ⟨start, literals, jump⟩ := state
  refine ⟨b, created, x, code, 162, _, word, by omega, by omega, jump, 3, rfl, by omega⟩

/-- So control need not stay in a word: not if an inserted word jumps to an address in a register,
and not after a snapshot from inside a definition was restored. -/
theorem control_escapes :
    (∃ c l x code, Run True Positionless [] l c ∧ c.HasWord 29 x code ∧ ¬c.Enclosed (l 29) x code) ∧
    ∃ b, create {} {} = .ok b ∧
      let c := b.overwritten 1 drops branching
      ∃ x code, c.HasWord 29 x code ∧ ∀ patches, ¬c.Enclosed patches x code := by
  obtain ⟨c, l, x, code, v, run, word, at_entry, isBranch, noCall, noReturn⟩ := inserted_jump_leaves
  obtain ⟨b, created, x', code', i, j, word', low, high, at_i, words, jumps, beyond⟩ :=
    stale_jump_leaves
  refine ⟨⟨c, l, x, code, run, word, fun enclosed => ?_⟩, b, created, x', code', word',
    fun patches enclosed => ?_⟩
  · rcases ((enclosed.flow _ .refl).2.2 v at_entry).1 isBranch with call | returns
    · cases noCall.symm.trans call
    · cases noReturn.symm.trans returns
  · obtain ⟨target, reached, -, below⟩ := enclosed.jumps i j words low high at_i jumps
    omega

end Compiler

end ForthJit
