import ForthJit.Compiler.Create
import ForthJit.Proofs.Interpreter.Numbers
import ForthJit.Proofs.Interpreter.Tokens

/-!
# Printed stacks

A printed value has no blanks and is read back as the same value (`Number.parse?_printed`), and the
spaces between printed values keep them apart (`Token.runs_intercalate`).  So a printed stack is a
source that brings the stack back.
-/

namespace ForthJit

namespace Number

theorem digit_char {c : Char} (digit : c.isDigit) :
    Text.digit? 10 c = some (c.toNat - '0'.toNat) ∧ Text.isBlank c = false := by
  have digits : ∀ k < 58, 48 ≤ k → Text.digit? 10 (Char.ofNat k) =
      some ((Char.ofNat k).toNat - '0'.toNat) ∧ Text.isBlank (Char.ofNat k) = false := by
    decide
  obtain ⟨low, high⟩ := Char.isDigit_iff_toNat.1 digit
  simpa using digits c.toNat (Nat.lt_succ_of_le high) low

theorem extendNumeral_decimal {digits : List Char} (decimal : ∀ c ∈ digits, c.isDigit)
    (value : Nat) :
    Text.extendNumeral 10 value digits = some (Nat.ofDigitChars 10 digits value) := by
  induction digits generalizing value with
  | nil => rfl
  | cons c rest ih =>
    obtain ⟨first, others⟩ := List.forall_mem_cons.1 decimal
    rw [Text.extendNumeral, (digit_char first).1, Nat.ofDigitChars_cons, Nat.mul_comm]
    exact ih others _

theorem accepted_toDigits (n : Nat) : Accepted (Nat.toDigits 10 n) n := by
  have decimal : ∀ c ∈ Nat.toDigits 10 n, c.isDigit := fun c =>
    Nat.isDigit_of_mem_toDigits (by decide) (by decide)
  have writes : Writes 10 (Nat.toDigits 10 n) n := by
    refine ⟨Nat.toDigits_ne_nil, ?_⟩
    simpa using (extendNumeral_eq_some (by decide)).1 (extendNumeral_decimal decimal 0)
  exact Or.inl ⟨Or.inl writes, fun c same =>
    absurd rfl (writes.digit (c := '\'') (by decide) (by simp [same]))⟩

/-- A value is printed without blanks, and read back. -/
theorem parse?_printed (v : Cell) : parse? (toString v.toInt) = some v := by
  have bounds := v.toInt_lt
  have bounds' := v.le_toInt
  refine ofChars?_eq_some.2 ?_
  rw [Int.toString_eq_repr, Int.repr_eq_if]
  split
  · refine ⟨v.toInt.toNat, by omega, Or.inl ⟨by simpa using accepted_toDigits _, ?_⟩⟩
    rw [Int.toNat_of_nonneg ‹_›, BitVec.ofInt_toInt]
  · refine ⟨(-v.toInt).toNat, by omega, Or.inr ⟨_, by simp, accepted_toDigits _, ?_⟩⟩
    rw [Int.toNat_of_nonneg (by omega), neg_neg, BitVec.ofInt_toInt]

theorem printed_unblank (v : Cell) : ∀ c ∈ (toString v.toInt).toList, Text.isBlank c = false := by
  have digits : ∀ n, ∀ c ∈ Nat.toDigits 10 n, Text.isBlank c = false := fun n c member =>
    (digit_char (Nat.isDigit_of_mem_toDigits (by decide) (by decide) member)).2
  intro c member
  rw [Int.toString_eq_repr, Int.repr_eq_if] at member
  split at member
  · exact digits _ c (by simpa using member)
  · rw [String.toList_append, List.mem_append] at member
    rcases member with minus | digit
    · rw [List.mem_singleton.1 minus]
      decide
    · exact digits _ c (by simpa using digit)

end Number

namespace Token

/-- Words with spaces between them are on one line and are its runs. -/
theorem runs_intercalate (words : List (List Char)) (some : [] ∉ words)
    (unblank : ∀ word ∈ words, ∀ c ∈ word, Text.isBlank c = false) :
    '\n' ∉ [' '].intercalate words ∧
      ∀ position, (runs position ([' '].intercalate words)).map Prod.snd = words := by
  induction words with
  | nil => simp [runs]
  | cons word later ih =>
    rw [List.mem_cons, not_or] at some
    obtain ⟨first, others⟩ := List.forall_mem_cons.1 unblank
    obtain ⟨noFeed, runs⟩ := ih some.2 others
    have noFeed' : '\n' ∉ word := fun feed => absurd (first _ feed) (by decide)
    have single : ∀ position, Token.runs position word = [(position, word)] := fun position => by
      rw [runs_word first, if_neg (Ne.symm some.1)]
    cases later with
    | nil => simp [single, noFeed']
    | cons next later =>
      rw [List.intercalate_cons_cons, List.append_assoc, List.singleton_append]
      refine ⟨by simp [noFeed, noFeed'], fun position => ?_⟩
      rw [runs_cut (by decide), single, List.map_append, runs]
      rfl

/-- Words with spaces between them are read as tokens. -/
theorem ofSource_intercalate {words : List String} (some : "" ∉ words) (plain : "\\" ∉ words)
    (unblank : ∀ word ∈ words, ∀ c ∈ word.toList, Text.isBlank c = false) (n : Nat) :
    (ofSource (" ".intercalate words ++ "\n") n).map (·.text) = words := by
  obtain ⟨noFeed, runs⟩ :=
    runs_intercalate (words.map String.toList) (by simpa using some) (by simpa using unblank)
  have source : (" ".intercalate words ++ "\n").toList =
      [' '].intercalate (words.map String.toList) ++ '\n' :: [] := by
    simp [String.toList_intercalate]
  rw [ofSource_eq, source, List.splitOn_append_cons_self, List.splitOn_eq_singleton noFeed]
  simp only [List.splitOn_nil, List.singleton_append, ofLines, ofLine_nil, List.append_nil]
  rw [ofLine, withoutComment, List.takeWhile_eq_self_iff.2, List.map_map]
  · have texts := congrArg (List.map String.ofList) (runs 0)
    simpa [Function.comp_def] using texts
  · intro run member
    obtain ⟨word, among, same⟩ := List.mem_map.1 (runs 0 ▸ List.mem_map_of_mem member)
    refine bne_iff_ne.2 fun lone => plain ?_
    rwa [String.toList_inj.1 (show word.toList = "\\".toList from same.trans lone)] at among

end Token

namespace Interpreter

variable {s : Interpreter}

theorem take_idle (idle : s.isContinuing = false) (word : String) :
    take word s = interpretToken word s := by
  obtain ⟨compiler, stack, pending, checkpoint, listing, output⟩ := s
  obtain ⟨rfl, closed⟩ : pending = .nothing ∧ compiler.definition = none := by
    simpa [isContinuing] using idle
  show (if compiler.definition.isSome = true then compileToken word else interpretToken word) _ = _
  rw [closed]
  rfl

/-- Between forms, a number is pushed and the interpreter settles. -/
theorem feed_number {word : String} {v : Cell} (number : Number.parse? word = some v)
    (idle : s.isContinuing = false) :
    feed word s = .ok () { s with stack := v :: s.stack, checkpoint := s.compiler.snapshot } := by
  have taken : take word s = .ok () { s with stack := v :: s.stack } := by
    rw [take_idle idle]
    unfold interpretToken
    split
    all_goals try cases number
    rw [number]
    rfl
  rw [feed, bind_of_ok taken]
  exact congrArg (EStateM.Result.ok ()) (if_neg (by simpa [isContinuing] using idle))

/-- Numbers are pushed one after the other. -/
theorem feedAll_numbers {tokens : List Token} {values : List Cell}
    (numbers : tokens.map (fun t => Number.parse? t.text) = values.map some)
    (idle : s.isContinuing = false) :
    feedAll tokens s = .ok () { s with
      stack := values.reverse ++ s.stack
      checkpoint := if values = [] then s.checkpoint else s.compiler.snapshot } := by
  induction tokens generalizing values s with
  | nil =>
    obtain rfl : values = [] := by simpa using numbers.symm
    rfl
  | cons t rest ih =>
    obtain _ | ⟨v, values⟩ := values
    · cases numbers
    · obtain ⟨first, others⟩ := List.cons.inj numbers
      simp only [feedAll, feed_number first idle]
      refine (ih (s := { s with stack := v :: s.stack, checkpoint := _ }) others idle).trans ?_
      simp

/-- Between forms, `.s` prints how many values are on the stack and then a source: its tokens are
the printed values, each of which is read back as the same value, and interpreting it between forms
with an empty stack succeeds, leaves that stack, and changes nothing else but the checkpoint. -/
theorem printed_stack_reads_back {t : Interpreter} (printing : t.isContinuing = false)
    (reading : s.isContinuing = false) (empty : s.stack = []) (n : Nat) :
    ∃ source,
      take ".s" t = .ok () { t with output := t.output ++ (s!"<{t.stack.length}> " ++ source) } ∧
      (Token.ofSource source n).map (·.text) = t.stack.reverse.map (fun v => toString v.toInt) ∧
      (∀ v : Cell, Number.parse? (toString v.toInt) = some v) ∧
      run source n s = .ok () { s with
        stack := t.stack
        checkpoint := if t.stack = [] then s.checkpoint else s.compiler.snapshot } := by
  let words := t.stack.reverse.map fun v => toString v.toInt
  have read : ∀ word ∈ words, ∃ v : Cell, word = toString v.toInt ∧
      Number.parse? word = some v := by
    intro word member
    obtain ⟨v, -, rfl⟩ := List.mem_map.1 member
    exact ⟨v, rfl, Number.parse?_printed v⟩
  have tokens : (Token.ofSource (" ".intercalate words ++ "\n") n).map (·.text) = words := by
    refine Token.ofSource_intercalate (fun none => ?_) (fun lone => ?_) (fun word member => ?_) n
    · obtain ⟨v, -, number⟩ := read _ none
      cases number
    · obtain ⟨v, -, number⟩ := read _ lone
      cases number
    · obtain ⟨v, rfl, -⟩ := read _ member
      exact Number.printed_unblank v
  refine ⟨" ".intercalate words ++ "\n", ?_, tokens, Number.parse?_printed, ?_⟩
  · have printed : stackText t.stack ++ "\n" = s!"<{t.stack.length}> " ++
        (" ".intercalate words ++ "\n") :=
      String.append_assoc
    rw [take_idle printing, ← printed]
    rfl
  · have values : words.map Number.parse? = t.stack.reverse.map some := by
      simp only [words, List.map_map, Function.comp_def, Number.parse?_printed]
    have numbers := congrArg (List.map Number.parse?) tokens
    rw [List.map_map, values] at numbers
    simp only [run, feedAll_numbers numbers reading]
    simp [empty]

/-- The least and the greatest value, and one of a single digit. -/
theorem printed_extremes_read_back :
    ∃ c, Compiler.create {} {} = .ok c ∧
      let s := create c false
      let t := { s with stack := [BitVec.intMin 64, 7, BitVec.intMax 64] }
      s.isContinuing = false ∧ ∃ source,
        take ".s" t = .ok () { t with output := t.output ++ (s!"<{t.stack.length}> " ++ source) } ∧
        run source 1 s = .ok () { s with stack := t.stack, checkpoint := c.snapshot } := by
  have state : (Compiler.create {} {}).toOption.map (fun c => c.definition.isNone) = some true := by
    decide +kernel
  obtain ⟨c, created, closed⟩ := toOption_map.1 state
  have idle : isContinuing (create c false) = false := by
    simpa [isContinuing, create] using closed
  let t := { create c false with stack := [BitVec.intMin 64, 7, BitVec.intMax 64] }
  obtain ⟨source, printed, -, -, read⟩ := printed_stack_reads_back (t := t) idle idle rfl 1
  exact ⟨c, created, idle, source, printed, read⟩

end Interpreter

end ForthJit
