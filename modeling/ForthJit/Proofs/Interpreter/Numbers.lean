import ForthJit.Interpreter.Basic
import ForthJit.Proofs.Outcome

/-!
# What a number is

The grammar of numbers is stated apart from the reader: `Number.Magnitude` gives the forms of a
number without its sign, and `Number.Signed` adds the sign and reduces the value to a cell.  The
reader deviates from it twice (`Number.Accepted`): a quoted character has to be an ASCII one, and a
plus sign may stand before hexadecimal digits.
-/

namespace ForthJit.Number

/-- `c` is the digit with value `d`; letters may be of either case. -/
def IsDigit (base : Nat) (c : Char) (d : Nat) : Prop := d < base ∧ c.toLower = d.digitChar

/-- One or more digits write `n`, the most significant one first. -/
def Writes (base : Nat) (digits : List Char) (n : Nat) : Prop :=
  digits ≠ [] ∧ ∃ ds, List.Forall₂ (IsDigit base) digits ds ∧ n = Nat.ofDigits base ds.reverse

/-- The forms of a number without its sign, and what they denote: decimal digits, hexadecimal digits
after `0x` or `0X`, a character between single quotes. -/
def Magnitude (text : List Char) (n : Nat) : Prop :=
  Writes 10 text n ∨
    (∃ x digits, (x = 'x' ∨ x = 'X') ∧ text = '0' :: x :: digits ∧ Writes 16 digits n) ∨
    ∃ c : Char, text = ['\'', c, '\''] ∧ n = c.toNat

/-- The forms that are read. -/
def Accepted (text : List Char) (n : Nat) : Prop :=
  Magnitude text n ∧ (∀ c, text = ['\'', c, '\''] → c.toNat < 128) ∨
    ∃ x digits, (x = 'x' ∨ x = 'X') ∧ text = '0' :: x :: '+' :: digits ∧ Writes 16 digits n

/-- A number of the given forms below `2 ^ 64`, or one after a minus sign, with the value `v`. -/
def Signed (form : List Char → Nat → Prop) (text : List Char) (v : Cell) : Prop :=
  ∃ n < 2 ^ 64, form text n ∧ v = BitVec.ofInt 64 n ∨
    ∃ rest, text = '-' :: rest ∧ form rest n ∧ v = BitVec.ofInt 64 (-n)

variable {base n : Nat} {c x : Char} {digits text : List Char} {v : Cell}

theorem digit?_eq_some {d : Nat} (small : base ≤ 16) :
    Text.digit? base c = some d ↔ IsDigit base c d := by
  have ascii : ∀ k < 128, ∀ d < 16,
      Text.digit? 16 (Char.ofNat k) = some d ↔ (Char.ofNat k).toLower = d.digitChar := by
    decide +kernel
  have forms : ∀ d < 16, d.digitChar.toNat < 128 := by decide
  by_cases inside : c.toNat < 128
  · have here := ascii c.toNat inside
    rw [Char.ofNat_toNat] at here
    simp only [Text.digit?, Option.filter_eq_some_iff, IsDigit, decide_eq_true_eq] at here ⊢
    grind
  · have above : ∀ e : Char, e.toNat < 128 → ¬c ≤ e :=
      fun e low le => inside (Nat.lt_of_le_of_lt le low)
    have same : c.toLower = c := dif_neg fun both => above 'Z' (by decide) both.2
    refine iff_of_false (by simp [Text.digit?, above]) ?_
    rintro ⟨low, form⟩
    exact inside (same ▸ form ▸ forms d (by omega))

theorem extendNumeral_eq_some {value : Nat} (small : base ≤ 16) :
    Text.extendNumeral base value digits = some n ↔ ∃ ds, List.Forall₂ (IsDigit base) digits ds ∧
      n = value * base ^ ds.length + Nat.ofDigits base ds.reverse := by
  induction digits generalizing value with
  | nil => simp [Text.extendNumeral, eq_comm]
  | cons c rest ih =>
    simp only [Text.extendNumeral, Option.bind_eq_bind, Option.bind_eq_some_iff,
      digit?_eq_some small, ih, List.forall₂_cons_left_iff]
    constructor
    · rintro ⟨d, first, ds, others, rfl⟩
      refine ⟨d :: ds, ⟨d, ds, first, others, rfl⟩, ?_⟩
      simp [Nat.ofDigits_append]
      ring
    · rintro ⟨_, ⟨d, ds, first, others, rfl⟩, rfl⟩
      refine ⟨d, first, ds, others, ?_⟩
      simp [Nat.ofDigits_append]
      ring

theorem magnitude?_eq_some (small : base ≤ 16) :
    magnitude? base digits = some v ↔ ∃ n < 2 ^ 64, Writes base digits n ∧
      v = BitVec.ofInt 64 n := by
  unfold magnitude? Text.numeral? Writes
  cases digits with
  | nil => simp
  | cons c rest =>
    simp [Option.filter_eq_some_iff, extendNumeral_eq_some small, UInt64.size]
    grind

theorem Writes.digit (writes : Writes base digits n) (small : base ≤ 16) (member : c ∈ digits) :
    Text.digit? base c ≠ none := by
  obtain ⟨-, ds, all, -⟩ := writes
  obtain ⟨d, isDigit⟩ : ∃ d, IsDigit base c d := by
    induction all with
    | nil => cases member
    | cons first _ ih =>
      rcases List.mem_cons.1 member with rfl | later
      · exact ⟨_, first⟩
      · exact ih later
  simp [(digit?_eq_some small).2 isDigit]

theorem unsigned?_eq_some :
    unsigned? text = some v ↔ ∃ n < 2 ^ 64, Accepted text n ∧ v = BitVec.ofInt 64 n := by
  -- the first characters tell the forms apart
  have decimal {ds n} (writes : Writes 10 ds n) : 'x' ∉ ds ∧ 'X' ∉ ds ∧ '\'' ∉ ds := by
    refine ⟨fun x => ?_, fun x => ?_, fun quote => ?_⟩
    all_goals exact writes.digit (by decide) ‹_› rfl
  have hexadecimal {ds n} (writes : Writes 16 ds n) : '+' ∉ ds := fun plus =>
    writes.digit (by decide) plus rfl
  fun_cases unsigned? text with
  | case1 digits | case2 digits =>
    rw [magnitude?_eq_some (le_refl 16)]
    refine exists_congr fun n => and_congr_right fun _ => and_congr_left fun _ => ?_
    unfold Accepted Magnitude withoutPlus
    grind
  | case3 c ascii =>
    unfold Accepted Magnitude
    have : BitVec.ofNat 64 c.toNat = BitVec.ofInt 64 c.toNat := by simp
    rw [Option.some.injEq]
    grind
  | case4 c ascii =>
    unfold Accepted Magnitude
    grind
  | case5 noX noX' noQuotes =>
    rw [magnitude?_eq_some (by decide)]
    refine exists_congr fun n => and_congr_right fun _ => and_congr_left fun _ => ?_
    unfold Accepted Magnitude
    grind

theorem ofChars?_eq_some : ofChars? text = some v ↔ Signed Accepted text v := by
  have empty {n} : ¬Accepted [] n := by simp [Accepted, Magnitude, Writes]
  have minus {rest n} : ¬Accepted ('-' :: rest) n := by
    have decimal : ¬Writes 10 ('-' :: rest) n := fun writes =>
      writes.digit (c := '-') (by decide) (by simp) rfl
    simp [Accepted, Magnitude, decimal]
  unfold Signed
  fun_cases ofChars? text with
  | case1 => simp [empty, minus]
  | case2 rest some =>
    simp only [Option.map_eq_some_iff, unsigned?_eq_some, minus, BitVec.ofInt_neg]
    simp [eq_comm, and_assoc]
  | case3 none some =>
    rw [unsigned?_eq_some]
    grind

/-- A text is a number exactly if, after an optional minus sign, it is of an accepted form and
denotes less than `2 ^ 64`, and its value is the one denoted, reduced to a cell.  Every other text
may be a name, the parentheses apart. -/
theorem numbers_exact (text : String) :
    (∀ v, parse? text = some v ↔ Signed Accepted text.toList v) ∧
      ∀ form s, Interpreter.nameAfter form text s = .ok text s ↔
        text ≠ "(" ∧ text ≠ ")" ∧ ∀ v, ¬Signed Accepted text.toList v := by
  have exact' : ∀ v, parse? text = some v ↔ Signed Accepted text.toList v :=
    fun _ => ofChars?_eq_some
  refine ⟨exact', fun form s => ?_⟩
  simp only [← exact', Interpreter.nameAfter]
  split
  · next taken =>
    refine iff_of_false nofun fun ⟨left, right, unread⟩ => ?_
    simp [left, right, Option.eq_none_iff_forall_ne_some.2 unread] at taken
  · next free => exact iff_of_true rfl (by simpa [Option.isSome_iff_exists] using free)

/-- A hexadecimal number with a plus sign is read, and a quoted character beyond ASCII is not. -/
theorem numbers_beyond_grammar :
    parse? "0x+1" = some 1 ∧ ¬Signed Magnitude "0x+1".toList 1 ∧ parse? "'é'" = none ∧
      Signed Magnitude "'é'".toList 233 := by
  refine ⟨by decide, ?_, by decide, 233, by decide, Or.inl ⟨Or.inr (Or.inr ⟨'é', rfl, rfl⟩), rfl⟩⟩
  rintro ⟨n, -, ⟨decimal | ⟨x, ds, -, same, hexadecimal⟩ | ⟨c, same, -⟩, -⟩ | ⟨rest, same, -⟩⟩
  · exact decimal.digit (c := 'x') (by decide) (by decide) rfl
  · cases same
    exact hexadecimal.digit (c := '+') (by decide) (by decide) rfl
  · cases same
  · cases same

end ForthJit.Number
