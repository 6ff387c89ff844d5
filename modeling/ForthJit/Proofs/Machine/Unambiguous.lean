import ForthJit.Proofs.Machine.Execution
import ForthJit.Proofs.Machine.Final
import ForthJit.Proofs.Machine.Packing

/-!
# What a word was assembled from

A `Statement` is a mnemonic with its operands, as they are before they are checked against their
fields.  `Statement.ofInstruction` gives back the statement that an instruction was assembled from,
but for three mnemonics that only abbreviate others.  So a word determines its mnemonic and its
operands up to these, and the words of pending patches come from `brk` alone.
-/

namespace ForthJit

/-! ## Operands that fit -/

namespace Field

variable {field : String} {width : Nat}

theorem unsigned_ok {value : Cell} {v : BitVec width}
    (ok : unsigned field width value = .ok v) : v.setWidth 64 = value := by
  unfold unsigned at ok
  split at ok
  · next fits =>
    cases ok
    rw [Nat.one_shiftLeft] at fits
    apply BitVec.eq_of_toNat_eq
    rw [BitVec.toNat_setWidth, BitVec.toNat_ofNat, Nat.mod_eq_of_lt fits,
      Nat.mod_eq_of_lt value.isLt]
  · cases ok

/-- Sign extension gives a signed operand back. -/
theorem signExtend_of_signed {value : Cell} {v : BitVec width} (positive : 0 < width)
    (ok : signed field width value.toInt = .ok v) : v.signExtend 64 = value := by
  rw [BitVec.signExtend, signed_ok positive ok, BitVec.ofInt_toInt]

theorem scaled_ok {offset scale count : Int} (ok : scaled field offset scale = .ok count) :
    offset = scale * count := by
  unfold scaled at ok
  split at ok
  · next whole =>
    cases ok
    exact (Int.mul_tdiv_cancel_of_tmod_eq_zero whole).symm
  · cases ok

end Field

namespace Asm

variable {field : String} {offset : Cell}

/-- Low bits that are clear are not lost. -/
theorem shifted_back {imm : Cell} (clear : imm &&& 0xFFF#64 = 0#64) : imm >>> 12 <<< 12 = imm := by
  have ones : ∀ k < 12, (0xFFF#64).getLsbD k = true := by decide
  ext k inside
  rw [BitVec.getElem_shiftLeft]
  by_cases small : k < 12
  · have low := congrArg (BitVec.getLsbD · k) clear
    simp only [BitVec.getLsbD_and, ones k small, Bool.and_true, BitVec.getLsbD_zero] at low
    simp only [small, decide_true, Bool.not_true, Bool.false_and]
    rw [← BitVec.getLsbD_eq_getElem inside, low]
  · simp only [small, decide_false, Bool.not_false, Bool.true_and, BitVec.getElem_ushiftRight]
    rw [← BitVec.getLsbD_eq_getElem inside]
    congr 1
    omega

theorem immediate12_ok {imm : Cell} {v : BitVec 12} {shifted : Bool}
    (ok : immediate12 imm = .ok (v, shifted)) : Instruction.amount v shifted = imm := by
  unfold immediate12 at ok
  split at ok
  · obtain ⟨u, checked, same⟩ := except_map_eq_ok.1 ok
    cases same
    exact Field.unsigned_ok checked
  · split at ok
    · next clear =>
      obtain ⟨u, checked, same⟩ := except_map_eq_ok.1 ok
      cases same
      show v.setWidth 64 <<< 12 = imm
      rw [Field.unsigned_ok checked, shifted_back clear]
    · cases ok

theorem cellOffset_eq {v : BitVec 12} (ok : cellOffset field offset.toInt = .ok v) :
    8 * v.setWidth 64 = offset := by
  obtain ⟨count, scaled, checked⟩ := except_bind_eq_ok.1 ok
  have eight : (8 : Cell) = BitVec.ofInt 64 8 := rfl
  rw [Field.unsigned_ok checked, eight, ← BitVec.ofInt_mul, ← Field.scaled_ok scaled,
    BitVec.ofInt_toInt]

theorem pairOf_ok {op : PairOp} {rt rt2 rn : Reg} {i : Instruction}
    (ok : pairOf op field rt rt2 rn offset.toInt = .ok i) :
    ∃ v, i = .pair op rt rt2 rn v ∧ 8 * v.signExtend 64 = offset := by
  obtain ⟨count, scaled, rest⟩ := except_bind_eq_ok.1 ok
  obtain ⟨v, checked, made⟩ := except_bind_eq_ok.1 rest
  cases made
  have eight : (8 : Cell) = BitVec.ofInt 64 8 := rfl
  refine ⟨v, rfl, ?_⟩
  rw [BitVec.signExtend, Field.signed_ok (by decide) checked, eight, ← BitVec.ofInt_mul,
    ← Field.scaled_ok scaled, BitVec.ofInt_toInt]

end Asm

/-! ## Statements -/

/-- A mnemonic with its operands.  Offsets and distances are read as signed numbers. -/
inductive Statement where
  | wide (op : WideMove) (rd : Reg) (imm : Cell) (hw : BitVec 32)
  | mov (rd rm : Reg)
  | movSp (rd rn : Reg)
  | addI (rd rn : Reg) (imm : Cell)
  | subI (rd rn : Reg) (imm : Cell)
  | alu (op : AluOp) (rd rn rm : Reg)
  | neg (rd rm : Reg)
  | cmp (rn rm : Reg)
  | cmpI (rn : Reg) (imm : Cell)
  | cset (rd : Reg) (cond : Cond)
  | ldr (rt rn : Reg) (offset : Cell)
  | str (rt rn : Reg) (offset : Cell)
  | indexed (op : Indexed) (rt rn : Reg) (offset : Cell)
  | ldrLiteral (rt : Reg) (words : Cell)
  | pair (op : PairOp) (rt rt2 rn : Reg) (offset : Cell)
  | b (words : Cell)
  | bl (words : Cell)
  | bCond (cond : Cond) (words : Cell)
  | cbz (rt : Reg) (words : Cell)
  | cbnz (rt : Reg) (words : Cell)
  | blr (rn : Reg)
  | br (rn : Reg)
  | ret
  | nop
  | brk (imm : Cell)
  deriving DecidableEq

namespace Statement

/-- Assemble a statement, if its operands fit. -/
def assemble : Statement → Except EncodeError Instruction
  | wide .zero rd imm hw => Asm.movz rd imm hw.toNat
  | wide .keep rd imm hw => Asm.movk rd imm hw.toNat
  | wide .not rd imm hw => Asm.movn rd imm hw.toNat
  | mov rd rm => .ok (Asm.mov rd rm)
  | movSp rd rn => .ok (Asm.movSp rd rn)
  | addI rd rn imm => Asm.addI rd rn imm
  | subI rd rn imm => Asm.subI rd rn imm
  | alu op rd rn rm => .ok (.alu op rd rn rm)
  | neg rd rm => .ok (Asm.neg rd rm)
  | cmp rn rm => .ok (.cmp rn rm)
  | cmpI rn imm => Asm.cmpI rn imm
  | cset rd cond => .ok (.cset rd cond)
  | ldr rt rn offset => Asm.ldr rt rn offset.toInt
  | str rt rn offset => Asm.str rt rn offset.toInt
  | indexed .loadAfter rt rn offset => Asm.ldrPost rt rn offset.toInt
  | indexed .loadBefore rt rn offset => Asm.ldrPre rt rn offset.toInt
  | indexed .storeAfter rt rn offset => Asm.strPost rt rn offset.toInt
  | indexed .storeBefore rt rn offset => Asm.strPre rt rn offset.toInt
  | ldrLiteral rt words => Asm.ldrLiteral rt words.toInt
  | pair .storeBefore rt rt2 rn offset => Asm.stpPre rt rt2 rn offset.toInt
  | pair .store rt rt2 rn offset => Asm.stp rt rt2 rn offset.toInt
  | pair .loadAfter rt rt2 rn offset => Asm.ldpPost rt rt2 rn offset.toInt
  | pair .load rt rt2 rn offset => Asm.ldp rt rt2 rn offset.toInt
  | b words => Asm.b words.toInt
  | bl words => Asm.bl words.toInt
  | bCond cond words => Asm.bCond cond words.toInt
  | cbz rt words => Asm.cbz rt words.toInt
  | cbnz rt words => Asm.cbnz rt words.toInt
  | blr rn => .ok (.callReg rn)
  | br rn => .ok (.jumpReg rn)
  | ret => .ok .ret
  | nop => .ok .nop
  | brk imm => Asm.brk imm

/-- The instruction word of a statement. -/
def word (s : Statement) : Except EncodeError InstrWord := s.assemble.map Instruction.encode

/-- The first statement abbreviates the second. -/
inductive Alias : Statement → Statement → Prop
  | mov (rd rm : Reg) : Alias (.mov rd rm) (.alu .orr rd .xzr rm)
  | neg (rd rm : Reg) : Alias (.neg rd rm) (.alu .sub rd .xzr rm)
  | movSp (rd rn : Reg) : Alias (.movSp rd rn) (.addI rd rn 0)

/-- The statement without abbreviation. -/
def canonical : Statement → Statement
  | mov rd rm => alu .orr rd .xzr rm
  | neg rd rm => alu .sub rd .xzr rm
  | movSp rd rn => addI rd rn 0
  | s => s

/-- The statement without abbreviation from which an instruction is assembled. -/
def ofInstruction : Instruction → Statement
  | .wideMove op rd imm hw => wide op rd (imm.setWidth 64) (hw.setWidth 32)
  | .addImm rd rn imm shifted => addI rd rn (Instruction.amount imm shifted)
  | .subImm rd rn imm shifted => subI rd rn (Instruction.amount imm shifted)
  | .alu op rd rn rm => alu op rd rn rm
  | .cmp rn rm => cmp rn rm
  | .cmpImm rn imm => cmpI rn (imm.setWidth 64)
  | .cset rd cond => cset rd cond
  | .load rt rn imm => ldr rt rn (8 * imm.setWidth 64)
  | .store rt rn imm => str rt rn (8 * imm.setWidth 64)
  | .indexed op rt rn imm => indexed op rt rn (imm.signExtend 64)
  | .loadLiteral rt words => ldrLiteral rt (words.signExtend 64)
  | .pair op rt rt2 rn imm => pair op rt rt2 rn (8 * imm.signExtend 64)
  | .branch words => b (words.signExtend 64)
  | .branchLink words => bl (words.signExtend 64)
  | .branchIf cond words => bCond cond (words.signExtend 64)
  | .branchZero rt words => cbz rt (words.signExtend 64)
  | .branchNonzero rt words => cbnz rt (words.signExtend 64)
  | .callReg rn => blr rn
  | .jumpReg rn => br rn
  | .ret => ret
  | .nop => nop
  | .trap imm => brk (imm.setWidth 64)

variable {s t : Statement} {i : Instruction}

/-! ## Abbreviations -/

theorem alias_canonical (s : Statement) : s.canonical = s ∨ Alias s s.canonical := by
  cases s with
  | mov rd rm => exact Or.inr (.mov rd rm)
  | neg rd rm => exact Or.inr (.neg rd rm)
  | movSp rd rn => exact Or.inr (.movSp rd rn)
  | _ => exact Or.inl rfl

theorem Alias.canonical_eq (abbreviates : Alias s t) : s.canonical = t.canonical := by
  cases abbreviates <;> rfl

/-- No two statements abbreviate the same one. -/
theorem Alias.unique {u : Statement} (one : Alias s u) (two : Alias t u) : s = t := by
  cases one <;> cases two <;> rfl

theorem canonical_eq_iff : s.canonical = t.canonical ↔ s = t ∨ Alias s t ∨ Alias t s := by
  constructor
  · intro same
    rcases alias_canonical s with fixed | short <;> rcases alias_canonical t with fixed' | short'
    · exact Or.inl (fixed.symm.trans (same.trans fixed'))
    · rw [← same, fixed] at short'
      exact Or.inr (Or.inr short')
    · rw [same, fixed'] at short
      exact Or.inr (Or.inl short)
    · rw [same] at short
      exact Or.inl (short.unique short')
  · rintro (rfl | short | short)
    · rfl
    · exact short.canonical_eq
    · exact short.canonical_eq.symm

/-- An abbreviation stands for the same instruction. -/
theorem assemble_canonical (s : Statement) : s.canonical.assemble = s.assemble := by
  cases s <;> rfl

/-! ## Reading statements back -/

theorem wide_ok {op : WideMove} {rd : Reg} {imm : Cell} {hw : BitVec 32}
    (ok : Asm.wide op rd imm hw.toNat = .ok i) : ofInstruction i = wide op rd imm hw := by
  obtain ⟨h, position, rest⟩ := except_bind_eq_ok.1 ok
  obtain ⟨v, chunk, made⟩ := except_bind_eq_ok.1 rest
  cases made
  have narrow : h.setWidth 32 = hw := by
    have wider := Field.unsigned_ok position
    rw [BitVec.ofNat_toNat] at wider
    have back := congrArg (BitVec.setWidth 32) wider
    rwa [BitVec.setWidth_setWidth_of_le _ (by omega), BitVec.setWidth_setWidth_of_le _ (by omega),
      BitVec.setWidth_eq] at back
  show wide op rd (v.setWidth 64) (h.setWidth 32) = _
  rw [Field.unsigned_ok chunk, narrow]

theorem indexed_ok {field : String} {op : Indexed} {rt rn : Reg} {offset : Cell}
    (ok : (Field.signed field 9 offset.toInt).map (Instruction.indexed op rt rn) = .ok i) :
    ofInstruction i = indexed op rt rn offset := by
  obtain ⟨v, checked, rfl⟩ := except_map_eq_ok.1 ok
  exact congrArg (indexed op rt rn) (Field.signExtend_of_signed (by decide) checked)

theorem pair_ok {field : String} {op : PairOp} {rt rt2 rn : Reg} {offset : Cell}
    (ok : Asm.pairOf op field rt rt2 rn offset.toInt = .ok i) :
    ofInstruction i = pair op rt rt2 rn offset := by
  obtain ⟨v, rfl, same⟩ := Asm.pairOf_ok ok
  exact congrArg (pair op rt rt2 rn) same

/-- An instruction is assembled from one statement and from what abbreviates it. -/
theorem ofInstruction_of_assemble (ok : s.assemble = .ok i) : ofInstruction i = s.canonical := by
  cases s with
  | wide op rd imm hw => cases op <;> exact wide_ok ok
  | indexed op rt rn offset => cases op <;> exact indexed_ok ok
  | pair op rt rt2 rn offset => cases op <;> exact pair_ok ok
  | addI | subI =>
    obtain ⟨⟨v, shifted⟩, checked, rfl⟩ := except_map_eq_ok.1 ok
    exact congrArg _ (Asm.immediate12_ok checked)
  | cmpI | brk =>
    obtain ⟨v, checked, rfl⟩ := except_map_eq_ok.1 ok
    rw [ofInstruction, Field.unsigned_ok checked]
    rfl
  | ldr | str =>
    obtain ⟨v, checked, rfl⟩ := except_map_eq_ok.1 ok
    rw [ofInstruction, Asm.cellOffset_eq checked]
    rfl
  | ldrLiteral | b | bl | bCond | cbz | cbnz =>
    obtain ⟨v, checked, rfl⟩ := except_map_eq_ok.1 ok
    rw [ofInstruction, Field.signExtend_of_signed (by decide) checked]
    rfl
  | _ =>
    cases ok
    rfl

/-! ## Placeholders -/

/-- Of the traps, those with an immediate from `0xF000` to `0xF0FF` are placeholders. -/
theorem tagOf?_trap {imm : BitVec 16} {tag : Nat} :
    Placeholder.tagOf? (Instruction.trap imm).encode = some tag ↔
      imm.toNat = 0xF000 + tag ∧ tag < 256 := by
  have masked : (Instruction.trap imm).encode &&& 0xFFE0001F#32 = 0xD4200000#32 := by
    show (0x6A1#11 ++ imm ++ 0#5) &&& (0x7FF#11 ++ 0#16 ++ 0x1F#5) = 0x6A1#11 ++ 0#16 ++ 0#5
    simp only [BitVec.and_append, BitVec.and_zero]
    rfl
  have high : Field.extract (Instruction.trap imm).encode 13 8 = imm.toNat / 256 := by
    simp (disch := omega) only [Field.extract_eq, Instruction.encode,
      BitVec.extractLsb'_append_eq_of_le, BitVec.extractLsb'_append_eq_of_add_le]
    rw [BitVec.extractLsb'_toNat]
    omega
  have low : Field.extract (Instruction.trap imm).encode 5 8 = imm.toNat % 256 := by
    simp (disch := omega) only [Field.extract_eq, Instruction.encode,
      BitVec.extractLsb'_append_eq_of_le, BitVec.extractLsb'_append_eq_of_add_le]
    rw [BitVec.extractLsb'_toNat]
    omega
  have bound := imm.isLt
  rw [Placeholder.tagOf?, high, low]
  split
  · next named =>
    rw [Option.some.injEq]
    omega
  · next other =>
    simp only [masked, true_and, reduceCtorEq, false_iff] at other ⊢
    omega

theorem tagOf?_word {tag : Nat} (ok : s.assemble = .ok i) :
    Placeholder.tagOf? i.encode = some tag ↔
      ∃ imm, s = brk imm ∧ imm.toNat = 0xF000 + tag ∧ tag < 256 := by
  have read := ofInstruction_of_assemble ok
  by_cases trap : i.isTrap = true
  · cases i with
    | trap v =>
      have built : s = brk (v.setWidth 64) := by
        rcases alias_canonical s with fixed | short
        · exact fixed.symm.trans read.symm
        · rw [← read] at short
          cases short
      have same : (v.setWidth 64).toNat = v.toNat := by
        rw [BitVec.toNat_setWidth]
        exact Nat.mod_eq_of_lt (Nat.lt_trans v.isLt (by decide))
      rw [tagOf?_trap, ← same]
      constructor
      · exact fun tagged => ⟨_, built, tagged⟩
      · rintro ⟨imm, other, tagged⟩
        obtain rfl := brk.inj (built.symm.trans other)
        exact tagged
    | _ => cases trap
  · have final := Instruction.encode_final (Bool.not_eq_true _ ▸ trap)
    rw [show Placeholder.tagOf? i.encode = none from final]
    constructor
    · intro tagged
      cases tagged
    · rintro ⟨imm, rfl, -⟩
      obtain ⟨v, -, rfl⟩ := except_map_eq_ok.1 ok
      exact absurd rfl trap

/-- Two statements have the same word only if they are the same or one abbreviates the other, and a
word is taken for a placeholder only if it is that of a `brk` with such an immediate. -/
theorem words_unambiguous {v w : InstrWord} (first : s.word = .ok v) (second : t.word = .ok w) :
    (v = w ↔ s = t ∨ Alias s t ∨ Alias t s) ∧
      ∀ tag, Placeholder.tagOf? v = some tag ↔
        ∃ imm, s = brk imm ∧ imm.toNat = 0xF000 + tag ∧ tag < 256 := by
  obtain ⟨i, assembled, rfl⟩ := except_map_eq_ok.1 first
  obtain ⟨j, assembled', rfl⟩ := except_map_eq_ok.1 second
  refine ⟨?_, fun tag => tagOf?_word assembled⟩
  rw [← canonical_eq_iff]
  constructor
  · intro same
    obtain rfl := Instruction.encode_injective same
    rw [← ofInstruction_of_assemble assembled, ofInstruction_of_assemble assembled']
  · intro same
    have both : s.assemble = t.assemble := by
      rw [← assemble_canonical s, same, assemble_canonical]
    rw [assembled, assembled'] at both
    rw [Except.ok.inj both]

/-- An abbreviation has the word of what it abbreviates, and that is no placeholder. -/
theorem words_unambiguous_of_abbreviation :
    (movSp .sp .fp).word = .ok 0x910003BF#32 ∧ (addI .sp .fp 0).word = .ok 0x910003BF#32 ∧
      (movSp .sp .fp = addI .sp .fp 0 ∨ Alias (movSp .sp .fp) (addI .sp .fp 0) ∨
        Alias (addI .sp .fp 0) (movSp .sp .fp)) ∧
      ¬∃ imm, movSp .sp .fp = brk imm ∧ imm.toNat = 0xF000 + 3 ∧ 3 < 256 := by
  have first : (movSp .sp .fp).word = .ok 0x910003BF#32 := rfl
  have second : (addI .sp .fp 0).word = .ok 0x910003BF#32 := rfl
  obtain ⟨same, tagged⟩ := words_unambiguous first second
  refine ⟨first, second, same.1 rfl, fun named => ?_⟩
  have tag : Placeholder.tagOf? 0x910003BF#32 = some 3 := (tagged 3).2 named
  exact absurd tag (by decide)

end Statement

end ForthJit
