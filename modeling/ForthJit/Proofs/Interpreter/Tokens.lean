import ForthJit.Proofs.Interpreter.Lines

/-!
# What the tokens of a source are

The runs that `Token.runs` finds are exactly the longest sequences of characters that are not blank
(`Token.mem_runs`), in the order of their positions.  Blanks include carriage returns and line
feeds, so it makes no difference whether a carriage return before a line feed belongs to the line,
and the lines of a source are what lies between its line feeds (`Token.ofSource_eq`).
-/

namespace ForthJit.Token

open Text (isBlank)

/-- `run` stands in `text` after `before`: it is a longest sequence of characters that are not
blank. -/
def StandsIn (text before run : List Char) : Prop :=
  ∃ after, text = before ++ run ++ after ∧ run ≠ [] ∧ (∀ c ∈ run, isBlank c = false) ∧
    (∀ c ∈ before.getLast?, isBlank c = true) ∧ ∀ c ∈ after.head?, isBlank c = true

variable {a b before run : List Char} {c : Char}

/-- Runs stand on one side of a blank. -/
theorem standsIn_cut (blank : isBlank c = true) : StandsIn (a ++ c :: b) before run ↔
    StandsIn a before run ∨ ∃ before', before = a ++ c :: before' ∧ StandsIn b before' run := by
  constructor
  · rintro ⟨after, split, some, unblank, left, right⟩
    have outside : c ∉ run := fun inside => by simp [unblank c inside] at blank
    rw [List.append_assoc, List.append_eq_append_iff] at split
    obtain ⟨x, rfl, split⟩ | ⟨y, rfl, split⟩ := split
    · obtain _ | ⟨d, x⟩ := x
      · rw [List.nil_append, eq_comm, List.append_eq_cons_iff] at split
        grind
      · obtain ⟨rfl, rfl⟩ := List.cons.inj split
        refine Or.inr ⟨x, rfl, after, by simp, some, unblank, fun d last => left d ?_, right⟩
        simp_all [List.getLast?_append, List.getLast?_cons]
    · obtain ⟨x, rfl, rfl⟩ | ⟨x, rfl, meets⟩ := List.append_eq_append_iff.1 split
      · exact Or.inl ⟨x, by simp, some, unblank, left, by cases x <;> simp_all⟩
      · obtain _ | ⟨d, x⟩ := x
        · exact Or.inl ⟨[], by simp, some, unblank, left, by simp⟩
        · cases meets
          simp at outside
  · rintro (⟨after, rfl, some, unblank, left, right⟩ |
      ⟨x, rfl, after, rfl, some, unblank, left, right⟩)
    · exact ⟨after ++ c :: b, by simp, some, unblank, left, by cases after <;> simp_all⟩
    · refine ⟨after, by simp, some, unblank, ?_, right⟩
      cases last : x.getLast? <;> simp_all [List.getLast?_append, List.getLast?_cons]

/-- A text without blanks is one run. -/
theorem standsIn_word (unblank : ∀ c ∈ a, isBlank c = false) :
    StandsIn a before run ↔ before = [] ∧ run = a ∧ a ≠ [] := by
  constructor
  · rintro ⟨after, rfl, some, -, left, right⟩
    obtain rfl | ⟨x, d, rfl⟩ := List.eq_nil_or_concat before
    · cases after <;> simp_all
    · simp_all
  · rintro ⟨rfl, rfl, some⟩
    exact ⟨[], by simp, some, unblank, by simp, by simp⟩

theorem runs_word (unblank : ∀ c ∈ a, isBlank c = false) (position : Nat) :
    runs position a = if a = [] then [] else [(position, a)] := by
  cases a with
  | nil => simp [runs]
  | cons c rest =>
    obtain ⟨first, others⟩ := List.forall_mem_cons.1 unblank
    have all : ∀ d ∈ rest, (!isBlank d) = true := fun d member => by rw [others d member]; rfl
    simp [runs, first, List.takeWhile_eq_self_iff.2 all, List.dropWhile_eq_nil_iff.2 all]

/-- A text has no blanks, or is cut at one. -/
theorem blank_induction {P : List Char → Prop} (word : ∀ a, (∀ c ∈ a, isBlank c = false) → P a)
    (cut : ∀ a c b, isBlank c = true → P a → P b → P (a ++ c :: b)) (text : List Char) :
    P text := by
  induction length : text.length using Nat.strong_induction_on generalizing text with
  | _ n ih =>
    by_cases unblank : ∀ c ∈ text, isBlank c = false
    · exact word text unblank
    · push Not at unblank
      obtain ⟨c, member, blank⟩ := unblank
      obtain ⟨a, b, rfl⟩ := List.append_of_mem member
      rw [List.length_append, List.length_cons] at length
      exact cut a c b (by simpa using blank) (ih _ (by omega) a rfl) (ih _ (by omega) b rfl)

theorem mem_runs {position : Nat} {text : List Char} {r : Nat × List Char} :
    r ∈ runs position text ↔
    ∃ before, StandsIn text before r.2 ∧ r.1 = position + before.length := by
  induction text using blank_induction generalizing position with
  | word a unblank =>
    simp only [runs_word unblank, standsIn_word unblank]
    split <;> simp_all [Prod.ext_iff, and_comm]
  | cut a c b blank left right =>
    simp only [runs_cut blank, List.mem_append, left, right, standsIn_cut blank]
    grind

theorem runs_sorted (position : Nat) (text : List Char) :
    (runs position text).Pairwise (·.1 < ·.1) := by
  induction text using blank_induction generalizing position with
  | word a unblank =>
    rw [runs_word unblank]
    split <;> simp
  | cut a c b blank left right =>
    rw [runs_cut blank, List.pairwise_append]
    refine ⟨left _, right _, fun r inA s inB => ?_⟩
    obtain ⟨before, ⟨_, rfl, -⟩, atR⟩ := mem_runs.1 inA
    obtain ⟨_, -, atS⟩ := mem_runs.1 inB
    simp only [List.length_append] at atS
    omega

/-- What is taken from a sorted list comes before everything at which `p` fails. -/
theorem mem_takeWhile {α : Type} {l : List (Nat × α)} (sorted : l.Pairwise (·.1 < ·.1))
    {p : Nat × α → Bool} {r : Nat × α} :
    r ∈ l.takeWhile p ↔ r ∈ l ∧ ∀ s ∈ l, p s = false → r.1 < s.1 := by
  induction l with
  | nil => simp
  | cons s l ih =>
    rw [List.pairwise_cons] at sorted
    cases goes : p s <;> simp [goes, ih sorted.2] <;> grind

/-- `t` stands on line number `n`, whose text is given, and no comment begins before it or with
it. -/
def StandsOn (n : Nat) (text : List Char) (t : Token) : Prop :=
  t.line = n ∧ ∃ before, StandsIn text before t.text.toList ∧ t.column = before.length + 1 ∧
    ∀ comment, StandsIn text comment ['\\'] → before.length < comment.length

/-- `t` stands before `u`. -/
def Precedes (t u : Token) : Prop := t.line < u.line ∨ t.line = u.line ∧ t.column < u.column

theorem mem_ofLine {n : Nat} {text : List Char} {t : Token} :
    t ∈ ofLine n text ↔ StandsOn n text t := by
  simp only [ofLine, withoutComment, List.mem_map, mem_takeWhile (runs_sorted 0 text), mem_runs]
  constructor
  · rintro ⟨⟨_, run⟩, ⟨⟨before, stands, rfl⟩, uncommented⟩, rfl⟩
    refine ⟨rfl, before, by simpa using stands, by simp, fun comment there => ?_⟩
    simpa using uncommented (_, ['\\']) ⟨comment, there, rfl⟩ (by simp)
  · rintro ⟨rfl, before, stands, column, uncommented⟩
    refine ⟨(before.length, t.text.toList), ⟨⟨before, stands, by simp⟩, ?_⟩, by simp [← column]⟩
    rintro ⟨_, run⟩ ⟨comment, there, rfl⟩ lone
    obtain rfl : run = ['\\'] := by simpa using lone
    simpa using uncommented comment there

theorem ofLines_exact (n : Nat) (lines : List (List Char)) :
    (ofLines n lines).Pairwise Precedes ∧
      ∀ t, t ∈ ofLines n lines ↔ ∃ k text, lines[k]? = some text ∧ StandsOn (n + k) text t := by
  induction lines generalizing n with
  | nil => simp [ofLines]
  | cons text later ih =>
    obtain ⟨sorted, exact'⟩ := ih (n + 1)
    rw [ofLines, List.pairwise_append]
    refine ⟨⟨?_, sorted, fun t here u below => ?_⟩, fun t => ?_⟩
    · refine List.Pairwise.map _ (fun r s less => Or.inr ⟨rfl, Nat.succ_lt_succ less⟩) ?_
      exact (runs_sorted 0 text).sublist (List.takeWhile_sublist _)
    · obtain ⟨k, _, -, line, -⟩ := (exact' u).1 below
      have line' := (mem_ofLine.1 here).1
      exact Or.inl (by omega)
    · rw [List.mem_append, mem_ofLine, exact']
      constructor
      · rintro (here | ⟨k, below⟩)
        · exact ⟨0, text, rfl, here⟩
        · exact ⟨k + 1, by simpa [Nat.add_assoc, Nat.add_comm 1] using below⟩
      · rintro ⟨_ | k, below⟩
        · simp_all
        · exact Or.inr ⟨k, by simpa [Nat.add_assoc, Nat.add_comm 1] using below⟩

theorem lines_of_noFeed {text : List Char} (noFeed : '\n' ∉ text) :
    Text.lines text = if text = [] then [] else [text] := by
  induction text with
  | nil => rfl
  | cons c rest ih =>
    rw [List.mem_cons, not_or] at noFeed
    rw [Text.lines_cons (Ne.symm noFeed.1) fun _ head => noFeed.2 (List.mem_of_head? head),
      ih noFeed.2]
    split <;> simp_all [Text.onFirst]

/-- The lines of a source are what lies between its line feeds. -/
theorem ofSource_eq (source : String) (n : Nat) :
    ofSource source n = ofLines n (source.toList.splitOn '\n') := by
  have line : ∀ {a n}, '\n' ∉ a → ofLines n (Text.lines a) = ofLines n (a.splitOn '\n') := by
    intro a n noFeed
    rw [lines_of_noFeed noFeed, List.splitOn_eq_singleton noFeed]
    split <;> simp_all [ofLines, ofLine_nil]
  induction length : source.toList.length using Nat.strong_induction_on generalizing source n with
  | _ _ ih =>
    by_cases feed : '\n' ∈ source.toList
    · obtain ⟨a, b, split, noFeed⟩ := List.eq_append_cons_of_mem feed
      have whole : source = String.ofList a ++ "\n" ++ String.ofList b := by
        rw [← String.toList_inj]
        simp [split]
      have later :=
        ih b.length (by simp [← length, split]; omega) (String.ofList b) (n + 1) (by simp)
      rw [split, List.splitOn_append_cons_self, ofLines_append, ← line noFeed,
        List.splitOn_eq_singleton noFeed, whole, ofSource_cut]
      simp only [String.toList_ofList, List.count_eq_zero.2 noFeed, later]
      simp [ofSource]
    · exact line feed

/-- The tokens of a source, in the order of their lines and columns, are the maximal runs without
blanks that stand on its lines before any comment, each once, with the line and the column of its
start. -/
theorem tokens_exact (source : String) (n : Nat) :
    (ofSource source n).Pairwise Precedes ∧
      ∀ t, t ∈ ofSource source n ↔
        ∃ k text, (source.toList.splitOn '\n')[k]? = some text ∧ StandsOn (n + k) text t := by
  rw [ofSource_eq]
  exact ofLines_exact n _

end ForthJit.Token
