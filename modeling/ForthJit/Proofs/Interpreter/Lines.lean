import ForthJit.Interpreter.Basic
import ForthJit.Proofs.Outcome

/-!
# Sources cut into lines

A source may be cut at any line end and its parts run one after the other: a form that is half-read
at the cut is part of the state.  Reading the source whole gives the tokens of the parts, at the
same positions (`Token.ofSource_cut`), so the only trace of the cut is the stack that an error
brings back.
-/

namespace ForthJit

namespace Text

variable {c : Char} {rest : List Char}

/-- Add a character in front of the first line. -/
def onFirst (c : Char) : List (List Char) → List (List Char)
  | [] => [[c]]
  | line :: later => (c :: line) :: later

/-- A character that ends no line belongs to the first one. -/
theorem lines_cons (noFeed : c ≠ '\n') (noReturn : c = '\r' → rest.head? ≠ some '\n') :
    lines (c :: rest) = onFirst c (lines rest) := by
  rw [lines]
  · cases lines rest <;> rfl
  · rintro rest' rfl rfl
    exact noReturn rfl rfl
  · exact noFeed

/-- Texts are read line end by line end, and character by character in between. -/
theorem lines_induction {P : List Char → Prop} (nil : P [])
    (returned : ∀ rest, P rest → P ('\r' :: '\n' :: rest)) (fed : ∀ rest, P rest → P ('\n' :: rest))
    (other : ∀ c rest, c ≠ '\n' → (c = '\r' → rest.head? ≠ some '\n') → P rest → P (c :: rest))
    (text : List Char) : P text := by
  have inside : ∀ c rest, (∀ rest', c = '\r' → rest = '\n' :: rest' → False) → (c = '\n' → False) →
      P rest → P (c :: rest) := by
    refine fun c rest noReturn noFeed => other c rest noFeed fun isReturn headed => ?_
    obtain ⟨rest', rfl⟩ := List.head?_eq_some_iff.1 headed
    exact noReturn rest' isReturn rfl
  induction text using lines.induct with
  | case1 => exact nil
  | case2 rest ih => exact returned rest ih
  | case3 rest ih => exact fed rest ih
  | case4 c rest noReturn noFeed _ ih | case5 c rest noReturn noFeed _ _ _ ih =>
    exact inside c rest noReturn noFeed ih

/-- A text followed by a line feed has one line more than line feeds, and what comes after is read
by itself.  The last of these lines is the last one of the text alone, if it has one, or that
without a carriage return at its end. -/
theorem lines_cut (a : List Char) :
    ∃ front last, (∀ b, lines (a ++ '\n' :: b) = front ++ last :: lines b) ∧
      front.length = a.count '\n' ∧
      (lines a = front ∧ last = [] ∨ lines a = front ++ [last] ∨
        lines a = front ++ [last ++ ['\r']]) := by
  induction a using lines_induction with
  | nil => exact ⟨[], [], fun _ => rfl, rfl, Or.inl ⟨rfl, rfl⟩⟩
  | returned rest ih | fed rest ih =>
    obtain ⟨front, last, whole, count, alone⟩ := ih
    refine ⟨[] :: front, last, fun b => congrArg ([] :: ·) (whole b), by simp [count], ?_⟩
    rcases alone with ⟨same, rfl⟩ | same | same
    · exact Or.inl ⟨congrArg ([] :: ·) same, rfl⟩
    · exact Or.inr (Or.inl (congrArg ([] :: ·) same))
    · exact Or.inr (Or.inr (congrArg ([] :: ·) same))
  | other c rest noFeed noReturn ih =>
    have uncounted : (c :: rest).count '\n' = rest.count '\n' := List.count_cons_of_ne noFeed
    by_cases lone : c = '\r' ∧ rest = []
    · obtain ⟨rfl, rfl⟩ := lone
      exact ⟨[], [], fun _ => rfl, rfl, Or.inr (Or.inr rfl)⟩
    obtain ⟨front, last, whole, count, alone⟩ := ih
    have first : ∀ b, lines (c :: (rest ++ '\n' :: b)) = onFirst c (front ++ last :: lines b) := by
      intro b
      rw [lines_cons noFeed, whole]
      intro isReturn headed
      cases rest with
      | nil => exact lone ⟨isReturn, rfl⟩
      | cons d rest => exact noReturn isReturn headed
    rw [lines_cons noFeed noReturn, uncounted]
    cases front with
    | nil =>
      refine ⟨[], c :: last, first, count, Or.inr ?_⟩
      rcases alone with ⟨same, rfl⟩ | same | same
      · exact Or.inl (congrArg (onFirst c) same)
      · exact Or.inl (congrArg (onFirst c) same)
      · exact Or.inr (congrArg (onFirst c) same)
    | cons line front =>
      refine ⟨(c :: line) :: front, last, first, count, ?_⟩
      rcases alone with ⟨same, rfl⟩ | same | same
      · exact Or.inl ⟨congrArg (onFirst c) same, rfl⟩
      · exact Or.inr (Or.inl (congrArg (onFirst c) same))
      · exact Or.inr (Or.inr (congrArg (onFirst c) same))

end Text

namespace Token

theorem takeWhile_cut {α : Type} {p : α → Bool} {c : α} (stops : p c = false) (a b : List α) :
    (a ++ c :: b).takeWhile p = a.takeWhile p ∧
      (a ++ c :: b).dropWhile p = a.dropWhile p ++ c :: b := by
  induction a with
  | nil => simp [stops]
  | cons d a ih => cases goes : p d <;> simp [goes, ih]

/-- The texts before and after a blank are read apart. -/
theorem runs_cut {c : Char} (blank : Text.isBlank c = true) (position : Nat) (a b : List Char) :
    runs position (a ++ c :: b) = runs position a ++ runs (position + (a.length + 1)) b := by
  fun_induction runs position a with
  | case1 position => simp [runs, blank]
  | case2 position d rest isBlank ih =>
    rw [List.cons_append, runs, if_pos isBlank, ih, List.length_cons, Nat.add_assoc, Nat.add_comm 1]
  | case3 position d rest isBlank run ih =>
    obtain ⟨taken, dropped⟩ :=
      takeWhile_cut (p := fun d => !Text.isBlank d) (c := c) (by simp [blank]) rest b
    have length : run.length + (rest.dropWhile fun d => !Text.isBlank d).length =
        rest.length + 1 := by
      rw [← List.length_append, List.cons_append, List.takeWhile_append_dropWhile, List.length_cons]
    rw [List.cons_append, runs, if_neg isBlank]
    dsimp only
    rw [taken, dropped, ih, Nat.add_assoc, ← Nat.add_assoc run.length, length]
    rfl

theorem ofLine_nil (number : Nat) : ofLine number [] = [] := by
  simp [ofLine, runs, withoutComment]

theorem ofLine_append_return (number : Nat) (line : List Char) :
    ofLine number (line ++ ['\r']) = ofLine number line := by
  rw [ofLine, ofLine, runs_cut (by decide), runs, List.append_nil]

theorem ofLines_append (number : Nat) (xs ys : List (List Char)) :
    ofLines number (xs ++ ys) = ofLines number xs ++ ofLines (number + xs.length) ys := by
  induction xs generalizing number with
  | nil => rfl
  | cons line xs ih =>
    rw [List.cons_append, ofLines, ih, ofLines, List.append_assoc, List.length_cons,
      Nat.add_right_comm, Nat.add_assoc]

/-- A source that is cut at a line end has the tokens of its parts. -/
theorem ofSource_cut (a b : String) (n : Nat) :
    ofSource (a ++ "\n" ++ b) n =
      ofSource a n ++ ofSource b (n + (1 + a.toList.count '\n')) := by
  obtain ⟨front, last, whole, count, alone⟩ := Text.lines_cut a.toList
  have text : (a ++ "\n" ++ b).toList = a.toList ++ '\n' :: b.toList := by simp
  unfold ofSource
  rw [text, whole, ← count, ofLines_append, ofLines]
  have same : ofLines n front ++ ofLine (n + front.length) last =
      ofLines n (Text.lines a.toList) := by
    rcases alone with ⟨rfl, rfl⟩ | same | same
    · rw [ofLine_nil, List.append_nil]
    · rw [same, ofLines_append, ofLines, ofLines, List.append_nil]
    · rw [same, ofLines_append, ofLines, ofLines, List.append_nil, ofLine_append_return]
  rw [← List.append_assoc, same, Nat.add_comm 1, Nat.add_assoc]

end Token

namespace Interpreter

/-- Tokens are fed one after the other. -/
theorem feedAll_append (xs ys : List Token) :
    feedAll (xs ++ ys) = feedAll xs >>= fun _ => feedAll ys := by
  funext s
  induction xs generalizing s with
  | nil => rfl
  | cons token xs ih =>
    simp only [List.cons_append, feedAll, bind, EStateM.bind] at ih ⊢
    cases feed token.text s with
    | ok _ s' => exact ih s'
    | error e s' => rfl

/-- It does not matter whether a source is run whole or cut at a line end, whatever the state and
whatever form is half-read at the cut: both ways succeed with the same state, or fail at the same
position with the same error.  Only the stack that comes back with an error in the second part is
the one before that part if the source was cut, and the one before the whole source if not. -/
theorem run_cut (s : Interpreter) (a b : String) (n : Nat) :
    match run a n s with
    | .error e s1 => run (a ++ "\n" ++ b) n s = .error e s1
    | .ok _ s1 =>
      match run b (n + (1 + a.toList.count '\n')) s1 with
      | .ok _ s2 => run (a ++ "\n" ++ b) n s = .ok () s2
      | .error e s2 =>
        s2.stack = s1.stack ∧ run (a ++ "\n" ++ b) n s = .error e { s2 with stack := s.stack } := by
  simp only [run, Token.ofSource_cut, feedAll_append]
  cases first : feedAll (Token.ofSource a n) s with
  | error e s1 => simp only [bind_of_error first]
  | ok _ s1 =>
    simp only [bind_of_ok first]
    cases feedAll (Token.ofSource b (n + (1 + a.toList.count '\n'))) s1 with
    | ok _ s2 => rfl
    | error e s2 => exact ⟨rfl, rfl⟩

end Interpreter

end ForthJit
