import ForthJit.Proofs.Machine.Unambiguous

/-!
# Operands in instruction words

Each statement has a word exactly if its operands are in range, and its word holds them: every
operand can be read back from its field, and the bits outside the fields are the opcode.  A field
refuses exactly the values that it cannot hold.
-/

namespace ForthJit

namespace Statement

/-! ## Fields -/

/-- A field of an instruction word: the bits it has, how it is read, and what it holds. -/
structure Part where
  bits : InstrWord
  read : InstrWord → Int
  value : Int

namespace Part

/-- A number without sign, in units of `scale`. -/
def unsigned (shift width : Nat) (scale value : Int) : Part :=
  ⟨Field.place (BitVec.allOnes width) shift, fun w => scale * Field.extract w shift width, value⟩

/-- A number with sign, in units of `scale`. -/
def signed (shift width : Nat) (scale value : Int) : Part :=
  ⟨Field.place (BitVec.allOnes width) shift, fun w => scale * Field.extractSigned w shift width,
    value⟩

def register (shift : Nat) (r : Reg) : Part := unsigned shift 5 1 r.index

/-- Twelve bits, and one that says whether they stand for the bits above the lowest twelve. -/
def shifted (value : Int) : Part where
  bits := Field.place (BitVec.allOnes 13) 10
  read := fun w => Field.extract w 10 12 * 2 ^ (12 * Field.extract w 22 1)
  value := value

end Part

/-- The fields of the word of a statement. -/
def parts : Statement → List Part
  | wide _ rd imm hw => [.register 0 rd, .unsigned 5 16 1 imm.toNat, .unsigned 21 2 1 hw.toNat]
  | mov rd rm | neg rd rm => [.register 0 rd, .register 16 rm]
  | movSp rd rn => [.register 0 rd, .register 5 rn]
  | addI rd rn imm | subI rd rn imm => [.register 0 rd, .register 5 rn, .shifted imm.toNat]
  | alu _ rd rn rm => [.register 0 rd, .register 5 rn, .register 16 rm]
  | cmp rn rm => [.register 5 rn, .register 16 rm]
  | cmpI rn imm => [.register 5 rn, .unsigned 10 12 1 imm.toNat]
  | cset rd cond => [.register 0 rd, .unsigned 12 4 1 cond.invert.code.toNat]
  | ldr rt rn offset | str rt rn offset =>
    [.register 0 rt, .register 5 rn, .unsigned 10 12 8 offset.toInt]
  | indexed _ rt rn offset => [.register 0 rt, .register 5 rn, .signed 12 9 1 offset.toInt]
  | pair _ rt rt2 rn offset =>
    [.register 0 rt, .register 10 rt2, .register 5 rn, .signed 15 7 8 offset.toInt]
  | ldrLiteral rt words | cbz rt words | cbnz rt words =>
    [.register 0 rt, .signed 5 19 1 words.toInt]
  | b words | bl words => [.signed 0 26 1 words.toInt]
  | bCond cond words => [.unsigned 0 4 1 cond.code.toNat, .signed 5 19 1 words.toInt]
  | blr rn | br rn => [.register 5 rn]
  | ret | nop => []
  | brk imm => [.unsigned 5 16 1 imm.toNat]

/-- The word of a statement without its operands. -/
def opcode : Statement → InstrWord
  | wide .zero .. => 0xD2800000
  | wide .keep .. => 0xF2800000
  | wide .not .. => 0x92800000
  | mov .. => 0xAA0003E0
  | movSp .. => 0x91000000
  | addI .. => 0x91000000
  | subI .. => 0xD1000000
  | alu .add .. => 0x8B000000
  | alu .sub .. => 0xCB000000
  | alu .mul .. => 0x9B007C00
  | alu .sdiv .. => 0x9AC00C00
  | alu .and .. => 0x8A000000
  | alu .orr .. => 0xAA000000
  | alu .eor .. => 0xCA000000
  | alu .lslv .. => 0x9AC02000
  | alu .asrv .. => 0x9AC02800
  | neg .. => 0xCB0003E0
  | cmp .. => 0xEB00001F
  | cmpI .. => 0xF100001F
  | cset .. => 0x9A9F07E0
  | ldr .. => 0xF9400000
  | str .. => 0xF9000000
  | indexed .loadAfter .. => 0xF8400400
  | indexed .loadBefore .. => 0xF8400C00
  | indexed .storeAfter .. => 0xF8000400
  | indexed .storeBefore .. => 0xF8000C00
  | ldrLiteral .. => 0x58000000
  | pair .storeBefore .. => 0xA9800000
  | pair .store .. => 0xA9000000
  | pair .loadAfter .. => 0xA8C00000
  | pair .load .. => 0xA9400000
  | b _ => 0x14000000
  | bl _ => 0x94000000
  | bCond .. => 0x54000000
  | cbz .. => 0xB4000000
  | cbnz .. => 0xB5000000
  | blr _ => 0xD63F0000
  | br _ => 0xD61F0000
  | ret => 0xD65F03C0
  | nop => 0xD503201F
  | brk _ => 0xD4200000

/-- The word `w` holds the operands of `s` in their fields, and elsewhere its opcode. -/
def HeldBy (s : Statement) (w : InstrWord) : Prop :=
  (∀ p ∈ s.parts, p.read w = p.value) ∧ w &&& ~~~(s.parts.foldr (·.bits ||| ·) 0) = s.opcode

/-- The bits of `w` that are set in `mask`. -/
def keepBits {n : Nat} (w mask : BitVec n) : BitVec n := w &&& mask

theorem keepBits_append {n m : Nat} (a : BitVec n) (b : BitVec m) (mask : BitVec (n + m)) :
    keepBits (a ++ b) mask =
      keepBits a (mask.extractLsb' m n) ++ keepBits b (mask.extractLsb' 0 m) := by
  unfold keepBits
  rw [← BitVec.and_append, BitVec.extractLsb'_append_extractLsb'_eq_extractLsb' (by omega)]
  simp

theorem keepBits_of_zero {n : Nat} {w mask : BitVec n} (none : mask = 0#n) :
    keepBits w mask = 0#n := by
  rw [none]
  exact BitVec.and_zero

/-! ## Reading operands back -/

theorem toNat_amount (imm : BitVec 12) (shifted : Bool) : (Instruction.amount imm shifted).toNat =
    imm.toNat * 2 ^ (12 * (BitVec.ofBool shifted).toNat) := by
  have := imm.isLt
  cases shifted <;> simp [Instruction.amount, Nat.shiftLeft_eq] <;> omega

theorem toInt_scaled (imm : BitVec 12) : (8 * imm.setWidth 64).toInt = 8 * imm.toNat := by
  have := imm.isLt
  have small : (8 * imm.setWidth 64).toNat = 8 * imm.toNat := by
    rw [BitVec.toNat_mul, BitVec.toNat_setWidth_of_le (by omega)]
    exact Nat.mod_eq_of_lt (show 8 * imm.toNat < _ by omega)
  rw [BitVec.toInt_eq_toNat_of_lt (by omega), small, Nat.cast_mul, Nat.cast_ofNat]

theorem toInt_scaledSigned (imm : BitVec 7) : (8 * imm.signExtend 64).toInt = 8 * imm.toInt := by
  have low : -(2 : Int) ^ 6 ≤ imm.toInt := imm.le_toInt
  have high : imm.toInt < (2 : Int) ^ 6 := imm.toInt_lt
  rw [BitVec.toInt_mul, BitVec.toInt_signExtend_of_le (by omega)]
  exact Int.bmod_eq_of_le (show -2 ^ 63 ≤ 8 * imm.toInt by omega)
    (show 8 * imm.toInt < 2 ^ 63 by omega)

/-- The operands of the statement that an instruction is assembled from are in its word. -/
theorem read_encode (i : Instruction) :
    ∀ p ∈ (ofInstruction i).parts, p.read i.encode = p.value := by
  cases i
  all_goals
    simp (disch := omega) only [ofInstruction, parts, Part.register, Part.unsigned, Part.signed,
      Part.shifted, List.forall_mem_cons, Field.extract_eq, Field.extractSigned_eq,
      Instruction.encode,      BitVec.extractLsb'_append_eq_of_le,
      BitVec.extractLsb'_append_eq_of_add_le,
      BitVec.extractLsb'_eq_self, Nat.reduceSub, BitVec.toNat_setWidth_of_le,
      BitVec.toInt_signExtend_of_le, toNat_amount, toInt_scaled, toInt_scaledSigned, Reg.index]
    simp

theorem opcode_encode (i : Instruction) :
    i.encode &&& ~~~((ofInstruction i).parts.foldr (·.bits ||| ·) 0) =
      (ofInstruction i).opcode := by
  show keepBits _ _ = _
  -- Where the opcode depends on the operation, each operation is a case of its own.
  rcases i with ⟨_ | _ | _⟩ | ⟨_, _, _, _ | _⟩ | ⟨_, _, _, _ | _⟩ |
    ⟨_ | _ | _ | _ | _ | _ | _ | _ | _⟩ | _ | _ | _ | _ | _ | ⟨_ | _ | _ | _⟩ | _ |
    ⟨_ | _ | _ | _⟩ | _ | _ | _ | _ | _ | _ | _ | _ | _ | _
  case ret | nop => rfl
  all_goals
    simp only [ofInstruction, parts, Part.register, Part.unsigned, Part.signed, Part.shifted,
      List.foldr, Instruction.encode, keepBits_append]
    simp (disch := decide) only [keepBits_of_zero]
    rfl

/-- An abbreviation has its own operands, and the others of what it stands for in its opcode. -/
theorem heldBy_of_alias {s t : Statement} {i : Instruction} (short : Alias s t)
    (ok : t.assemble = .ok i) : s.HeldBy i.encode := by
  have read := read_encode i
  rw [ofInstruction_of_assemble ok] at read
  cases short
  all_goals
    cases ok
    refine ⟨fun p member => read p ?_, ?_⟩
    · simp only [parts, canonical, List.mem_cons] at member ⊢
      tauto
    · show keepBits _ _ = _
      simp only [parts, Part.register, Part.unsigned, List.foldr, Instruction.encode,
        keepBits_append]
      simp (disch := decide) only [keepBits_of_zero]
      rfl

theorem heldBy_of_assemble {s : Statement} {i : Instruction} (ok : s.assemble = .ok i) :
    s.HeldBy i.encode := by
  rcases alias_canonical s with same | short
  · rw [← same, ← ofInstruction_of_assemble ok]
    exact ⟨read_encode i, opcode_encode i⟩
  · exact heldBy_of_alias short ((assemble_canonical s).trans ok)

/-! ## Operands in range -/

/-- Every operand is in the range of its field. -/
def InRange : Statement → Prop
  | wide _ _ imm hw => hw.toNat < 4 ∧ imm.toNat < 2 ^ 16
  | addI _ _ imm | subI _ _ imm => imm.toNat < 4096 ∨ 4096 ∣ imm.toNat ∧ imm.toNat < 2 ^ 24
  | cmpI _ imm => imm.toNat < 4096
  | ldr _ _ offset | str _ _ offset => 8 ∣ offset.toInt ∧ 0 ≤ offset.toInt ∧ offset.toInt ≤ 32760
  | indexed _ _ _ offset => -256 ≤ offset.toInt ∧ offset.toInt ≤ 255
  | pair _ _ _ _ offset => 8 ∣ offset.toInt ∧ -512 ≤ offset.toInt ∧ offset.toInt ≤ 504
  | b words | bl words => -2 ^ 25 ≤ words.toInt ∧ words.toInt < 2 ^ 25
  | bCond _ words | cbz _ words | cbnz _ words | ldrLiteral _ words =>
    -2 ^ 18 ≤ words.toInt ∧ words.toInt < 2 ^ 18
  | brk imm => imm.toNat < 2 ^ 16
  | _ => True

/-- An offset in bytes is no multiple of the size of a cell. -/
def Misaligned : Statement → Prop
  | ldr _ _ offset | str _ _ offset | pair _ _ _ _ offset => ¬8 ∣ offset.toInt
  | _ => False

/-- A check succeeds if the operands fit, and otherwise says whether an offset is misaligned. -/
structure Checked {α : Type} (r : Except EncodeError α) (fits uneven : Prop) : Prop where
  ok : fits → ∃ v, r = .ok v
  misaligned : uneven → ∃ field offset, r = .error (.misaligned field offset 8)
  outOfRange : ¬fits → ¬uneven →
    ∃ field value width isSigned, r = .error (.outOfRange field value width isSigned)

namespace Checked

variable {α β : Type} {r : Except EncodeError α} {P Q M : Prop}

theorem map (checked : Checked r P M) (f : α → β) : Checked (r.map f) P M where
  ok := fun fits => by
    obtain ⟨v, rfl⟩ := checked.ok fits
    exact ⟨f v, rfl⟩
  misaligned := fun uneven => by
    obtain ⟨field, offset, rfl⟩ := checked.misaligned uneven
    exact ⟨field, offset, rfl⟩
  outOfRange := fun out even => by
    obtain ⟨field, value, width, isSigned, rfl⟩ := checked.outOfRange out even
    exact ⟨field, value, width, isSigned, rfl⟩

theorem bind (first : Checked r P M) {f : α → Except EncodeError β}
    (second : ∀ v, r = .ok v → Checked (f v) Q False) : Checked (r >>= f) (P ∧ Q) M where
  ok := fun fits => by
    obtain ⟨v, rfl⟩ := first.ok fits.1
    exact (second v rfl).ok fits.2
  misaligned := fun uneven => by
    obtain ⟨field, offset, rfl⟩ := first.misaligned uneven
    exact ⟨field, offset, rfl⟩
  outOfRange := fun out even => by
    by_cases fits : P
    · obtain ⟨v, rfl⟩ := first.ok fits
      exact (second v rfl).outOfRange (fun fits' => out ⟨fits, fits'⟩) id
    · obtain ⟨field, value, width, isSigned, rfl⟩ := first.outOfRange fits even
      exact ⟨field, value, width, isSigned, rfl⟩

theorem pure (v : α) : Checked (.ok v) True False :=
  ⟨fun _ => ⟨v, rfl⟩, nofun, fun out => absurd trivial out⟩

theorem ok_iff (checked : Checked r P M) : (∃ v, r = .ok v) ↔ P := by
  refine ⟨fun made => ?_, checked.ok⟩
  obtain ⟨v, rfl⟩ := made
  by_contra out
  by_cases uneven : M
  · obtain ⟨_, _, refused⟩ := checked.misaligned uneven
    cases refused
  · obtain ⟨_, _, _, _, refused⟩ := checked.outOfRange out uneven
    cases refused

theorem of_iff (checked : Checked r P M) (same : P ↔ Q) : Checked r Q M := propext same ▸ checked

theorem range [Decidable P] {v : α} {field : String} {value : Int} {width : Nat} {isSigned : Bool} :
    Checked (if P then .ok v else .error (.outOfRange field value width isSigned)) P False := by
  split
  · next fits => exact ⟨fun _ => ⟨_, rfl⟩, nofun, fun out => absurd fits out⟩
  · next out => exact ⟨fun fits => absurd fits out, nofun, fun _ _ => ⟨_, _, _, _, rfl⟩⟩

theorem unsigned (field : String) (width : Nat) (value : Cell) :
    Checked (Field.unsigned field width value) (value.toNat < 2 ^ width) False := by
  rw [← Nat.one_shiftLeft]
  exact range

theorem signed (field : String) (width : Nat) (value : Int) :
    Checked (Field.signed field width value)
      (-2 ^ (width - 1) ≤ value ∧ value < 2 ^ (width - 1)) False := by
  refine of_iff range ?_
  simp [Nat.one_shiftLeft]

theorem scaled (field : String) (offset : Int) :
    Checked (Field.scaled field offset 8) (8 ∣ offset) (¬8 ∣ offset) := by
  have aligned : 8 ∣ offset ↔ offset.tmod 8 = 0 := Int.dvd_iff_tmod_eq_zero
  unfold Field.scaled
  split
  · next fits =>
    exact ⟨fun _ => ⟨_, rfl⟩, fun uneven => absurd (aligned.2 fits) uneven, fun out =>
      absurd (aligned.2 fits) out⟩
  · next out =>
    exact ⟨fun fits => absurd (aligned.1 fits) out, fun _ => ⟨_, _, rfl⟩, fun out even =>
      absurd out even⟩

theorem immediate12 (imm : Cell) : Checked (Asm.immediate12 imm)
    (imm.toNat < 4096 ∨ 4096 ∣ imm.toNat ∧ imm.toNat < 2 ^ 24) False := by
  have clear : imm &&& 0xFFF = 0 ↔ 4096 ∣ imm.toNat := by
    rw [← BitVec.toNat_inj, BitVec.toNat_and, Nat.dvd_iff_mod_eq_zero]
    exact iff_of_eq (congrArg (· = 0) (Nat.and_two_pow_sub_one_eq_mod imm.toNat 12))
  unfold Asm.immediate12
  split
  · next small => exact ((unsigned "imm12" 12 imm).map _).of_iff (by omega)
  · split
    · next whole =>
      have divided : (imm >>> 12).toNat = imm.toNat / 4096 := by
        rw [BitVec.toNat_ushiftRight, Nat.shiftRight_eq_div_pow]
      have := clear.1 whole
      exact ((unsigned "imm12" 12 (imm >>> 12)).map _).of_iff (by omega)
    · next broken =>
      rw [clear] at broken
      exact ⟨fun fits => by omega, nofun, fun _ _ => ⟨_, _, _, _, rfl⟩⟩

theorem cellOffset (field : String) (offset : Cell) : Checked (Asm.cellOffset field offset.toInt)
    (8 ∣ offset.toInt ∧ 0 ≤ offset.toInt ∧ offset.toInt ≤ 32760) (¬8 ∣ offset.toInt) := by
  refine (scaled field offset.toInt).bind fun count ok => (unsigned field 12 _).of_iff ?_
  have whole := Field.scaled_ok ok
  have low : -2 ^ 63 ≤ offset.toInt := offset.le_toInt
  have high : offset.toInt < 2 ^ 63 := offset.toInt_lt
  rw [BitVec.toNat_ofInt]
  omega

theorem pairOf (op : PairOp) (field : String) (rt rt2 rn : Reg) (offset : Cell) :
    Checked (Asm.pairOf op field rt rt2 rn offset.toInt)
      (8 ∣ offset.toInt ∧ -512 ≤ offset.toInt ∧ offset.toInt ≤ 504) (¬8 ∣ offset.toInt) := by
  refine (scaled field offset.toInt).bind fun count ok => ?_
  have := Field.scaled_ok ok
  exact ((signed field 7 count).map _).of_iff (by omega)

theorem wide (op : WideMove) (rd : Reg) (imm : Cell) (hw : BitVec 32) :
    Checked (Asm.wide op rd imm hw.toNat) (hw.toNat < 4 ∧ imm.toNat < 2 ^ 16) False := by
  refine ((unsigned "hw" 2 _).of_iff ?_).bind fun v _ => (unsigned "imm16" 16 imm).map _
  have := hw.isLt
  rw [BitVec.toNat_ofNat]
  omega

end Checked

theorem assemble_checked (s : Statement) : Checked s.assemble s.InRange s.Misaligned := by
  cases s with
  | wide op rd imm hw => cases op <;> exact .wide _ rd imm hw
  | addI rd rn imm | subI rd rn imm => exact (Checked.immediate12 imm).map _
  | cmpI rn imm => exact (Checked.unsigned "imm12" 12 imm).map _
  | ldr rt rn offset | str rt rn offset => exact (Checked.cellOffset _ offset).map _
  | indexed op rt rn offset =>
    cases op <;> exact ((Checked.signed _ 9 offset.toInt).map _).of_iff
      (by simp only [InRange]; omega)
  | pair op rt rt2 rn offset => cases op <;> exact .pairOf _ _ rt rt2 rn offset
  | ldrLiteral rt words | bCond cond words | cbz rt words | cbnz rt words =>
    exact (Checked.signed _ 19 words.toInt).map _
  | b words | bl words => exact (Checked.signed _ 26 words.toInt).map _
  | brk imm => exact (Checked.unsigned "brk" 16 imm).map _
  | _ => exact .pure _

/-- A statement has a word exactly if its operands are in range.  An offset that is no multiple of
the size of a cell is refused as misaligned, and any other operand out of range as such.  The word
holds the operands in their fields, and elsewhere the opcode. -/
theorem words_hold_operands (s : Statement) :
    ((∃ w, s.word = .ok w) ↔ s.InRange) ∧
    (s.Misaligned → ∃ field offset, s.word = .error (.misaligned field offset 8)) ∧
    (¬s.InRange → ¬s.Misaligned →
      ∃ field value width isSigned, s.word = .error (.outOfRange field value width isSigned)) ∧
    ∀ w, s.word = .ok w → s.HeldBy w := by
  have checked := s.assemble_checked.map Instruction.encode
  refine ⟨checked.ok_iff, checked.misaligned, checked.outOfRange, fun w ok => ?_⟩
  obtain ⟨i, assembled, rfl⟩ := except_map_eq_ok.1 ok
  exact heldBy_of_assemble assembled

end Statement

/-! ## Packing -/

namespace Field

/-- The word `r` has bits only in the field of `width` bits at `shift`.  In a word where the field
is clear it makes the field read as `value`, and every field that does not meet it stays as it
is. -/
structure Packs {α : Type} (shift width : Nat) (read : InstrWord → Nat → Nat → α) (r : InstrWord)
    (value : α) : Prop where
  inside : ∀ i, r.getLsbD i = true → shift ≤ i ∧ i < shift + width
  back : ∀ x : InstrWord, (∀ i, shift ≤ i → i < shift + width → x.getLsbD i = false) →
    read (x ||| r) shift width = value
  frame : ∀ (x : InstrWord) (s w : Nat), s + w ≤ shift ∨ shift + width ≤ s →
    extract (x ||| r) s w = extract x s w ∧ extractSigned (x ||| r) s w = extractSigned x s w

variable {width shift : Nat}

theorem getLsbD_place (v : BitVec width) (i : Nat) : (place v shift).getLsbD i =
    (decide (i < 32) && !decide (i < shift) && v.getLsbD (i - shift)) := by
  rw [place, BitVec.getLsbD_shiftLeft, BitVec.getLsbD_setWidth]
  by_cases low : i < 32
  · simp [low, show i - shift < 32 by omega]
  · simp [low]

theorem extractLsb'_or_place (fits : width + shift ≤ 32) (v : BitVec width) {x : InstrWord}
    (clear : ∀ i, shift ≤ i → i < shift + width → x.getLsbD i = false) :
    (x ||| place v shift).extractLsb' shift width = v := by
  refine BitVec.eq_of_getLsbD_eq fun i bound => ?_
  rw [BitVec.getLsbD_extractLsb', BitVec.getLsbD_or, getLsbD_place, clear _ (by omega) (by omega)]
  simp [bound, show shift + i < 32 by omega]

theorem packs_place {α : Type} {read : InstrWord → Nat → Nat → α} {f : ∀ {n}, BitVec n → α}
    (reads : ∀ w, read w shift width = f (w.extractLsb' shift width)) (fits : width + shift ≤ 32)
    (v : BitVec width) : Packs shift width read (place v shift) (f v) where
  inside := by
    intro i set
    simp only [getLsbD_place, Bool.and_eq_true, Bool.not_eq_true', decide_eq_false_iff_not] at set
    have bound := BitVec.lt_of_getLsbD set.2
    omega
  back := fun x clear => (reads _).trans (congrArg f (extractLsb'_or_place fits v clear))
  frame := by
    intro x s w apart
    have same : bits (x ||| place v shift) s w = bits x s w := by
      rw [bits_eq, bits_eq]
      refine congrArg _ (BitVec.eq_of_getLsbD_eq fun i bound => ?_)
      rcases apart with before | after
      · simp [getLsbD_place, show s + i < shift by omega]
      · simp [getLsbD_place, v.getLsbD_of_ge (s + i - shift) (by omega)]
    simp only [extract, extractSigned, same, and_self]

/-- An operand is packed exactly if it is in the range of its field.  The result has bits only
there, is read back from it, and changes no other field of the word that it is put into. -/
theorem packing_exact (field : String) (positive : 1 ≤ width) (fits : width + shift ≤ 32) :
    (∀ v : Cell, ((∃ r, packSigned field v width shift = .ok r) ↔
          -2 ^ (width - 1) ≤ v.toInt ∧ v.toInt < 2 ^ (width - 1)) ∧
        ∀ r, packSigned field v width shift = .ok r →
          Packs shift width extractSigned r v.toInt) ∧
      ∀ v : Cell, ((∃ r, packUnsigned field v width shift = .ok r) ↔ v.toNat < 2 ^ width) ∧
        ∀ r, packUnsigned field v width shift = .ok r → Packs shift width extract r v.toNat := by
  have narrow : width ≤ 32 := by omega
  refine ⟨fun v => ?_, fun v => ?_⟩
  · rw [packSigned_eq field v shift positive narrow]
    refine ⟨((Statement.Checked.signed field width v.toInt).map _).ok_iff, fun r ok => ?_⟩
    obtain ⟨u, checked, rfl⟩ := except_map_eq_ok.1 ok
    rw [← signed_ok positive checked]
    exact packs_place (fun w => extractSigned_eq w shift narrow) fits u
  · rw [packUnsigned_eq field v shift narrow]
    refine ⟨((Statement.Checked.unsigned field width v).map _).ok_iff, fun r ok => ?_⟩
    obtain ⟨u, checked, rfl⟩ := except_map_eq_ok.1 ok
    rw [← unsigned_ok checked, BitVec.toNat_setWidth_of_le (by omega)]
    exact packs_place (fun w => extract_eq w shift narrow) fits u

/-- A backward distance goes into a conditional branch, beside the register that it tests. -/
theorem packing_exact_backward : ∃ r, packSigned "cbz offset" (-2) 19 5 = .ok r ∧
    extractSigned (0xB4000003 ||| r) 5 19 = -2 ∧ extract (0xB4000003 ||| r) 0 5 = 3 := by
  obtain ⟨signed, -⟩ :=
    packing_exact "cbz offset" (show 1 ≤ 19 by decide) (show 19 + 5 ≤ 32 by decide)
  obtain ⟨r, ok⟩ := (signed (-2)).1.2 (by decide)
  have packs := (signed (-2)).2 r ok
  exact ⟨r, ok, packs.back _ (by decide), (packs.frame _ 0 5 (by decide)).1⟩

end Field

end ForthJit
