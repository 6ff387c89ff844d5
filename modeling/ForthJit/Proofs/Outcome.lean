import Mathlib

/-!
# Outcomes of operations

A failed operation still leaves a state, so a fact about every run needs the state of both
outcomes.  `stateAfter` is that state; `Leaves R m` says that `m` moves every state along `R`,
whether it succeeds or fails.  `Runs P m Q E` says that from `P` it succeeds in `Q` or fails in `E`;
`Keeps I m Q` is the case of an invariant.
-/

namespace ForthJit

variable {ε σ α β : Type}

/-- The state that an operation leaves, whether it succeeds or fails. -/
def stateAfter (m : EStateM ε σ α) (s : σ) : σ :=
  match m s with
  | .ok _ s' => s'
  | .error _ s' => s'

variable {m : EStateM ε σ α} {s s' : σ}

theorem stateAfter_of_ok {a : α} (ok : m s = .ok a s') : stateAfter m s = s' := by
  simp [stateAfter, ok]

theorem stateAfter_of_error {e : ε} (error : m s = .error e s') : stateAfter m s = s' := by
  simp [stateAfter, error]

theorem stateAfter_congr {m' : EStateM ε σ α} (same : m s = m' s) :
    stateAfter m s = stateAfter m' s := by
  rw [stateAfter, stateAfter, same]

/-- The result and the state of an operation that succeeds. -/
def success? (m : EStateM ε σ α) (s : σ) : Option (α × σ) :=
  match m s with
  | .ok a s' => some (a, s')
  | .error _ _ => none

theorem success?_eq_some {a : α} : success? m s = some (a, s') ↔ m s = .ok a s' := by
  unfold success?
  cases m s <;> simp

theorem success?_bind {f : α × σ → Option β} {b : β} :
    (success? m s).bind f = some b ↔ ∃ a s', m s = .ok a s' ∧ f (a, s') = some b := by
  simp [Option.bind_eq_some_iff, success?_eq_some]

theorem success?_map {f : α × σ → β} {b : β} :
    (success? m s).map f = some b ↔ ∃ a s', m s = .ok a s' ∧ f (a, s') = b := by
  simp [success?_eq_some]

/-- The error and the state of an operation that fails. -/
def failure? (m : EStateM ε σ α) (s : σ) : Option (ε × σ) :=
  match m s with
  | .ok _ _ => none
  | .error e s' => some (e, s')

theorem failure?_eq_some {e : ε} : failure? m s = some (e, s') ↔ m s = .error e s' := by
  unfold failure?
  cases m s <;> simp

theorem failure?_map {f : ε × σ → β} {b : β} :
    (failure? m s).map f = some b ↔ ∃ e s', m s = .error e s' ∧ f (e, s') = b := by
  simp [failure?_eq_some]

/-- Either the first operation fails, and its state stays, or the second one runs on its result. -/
theorem stateAfter_bind (m : EStateM ε σ α) (f : α → EStateM ε σ β) (s : σ) :
    stateAfter (m >>= f) s =
      match m s with
      | .ok a s' => stateAfter (f a) s'
      | .error _ s' => s' := by
  simp only [stateAfter, bind, EStateM.bind]
  cases m s <;> rfl

theorem stateAfter_ignore (m : EStateM ε σ α) (s : σ) :
    stateAfter (do let _ ← m : EStateM ε σ Unit) s = stateAfter m s := by
  rw [stateAfter_bind, stateAfter]
  cases m s <;> rfl

theorem bind_of_ok {s1 : σ} {a : α} (first : m s = .ok a s1) (f : α → EStateM ε σ β) :
    (m >>= f) s = f a s1 := by
  simp [bind, EStateM.bind, first]

theorem bind_of_error {s1 : σ} {e : ε} (first : m s = .error e s1) (f : α → EStateM ε σ β) :
    (m >>= f) s = .error e s1 := by
  simp [bind, EStateM.bind, first]

theorem bind_get (f : σ → EStateM ε σ β) (s : σ) : (get >>= f) s = f s s := rfl

theorem bind_modify (g : σ → σ) (f : PUnit → EStateM ε σ β) (s : σ) :
    (modify g >>= f) s = f ⟨⟩ (g s) := rfl

theorem ok_bind (a : α) (f : α → Except ε β) : ((.ok a : Except ε α) >>= f) = f a := rfl

/-- A sequence of checks succeeds exactly if both of its parts do. -/
theorem except_bind_eq_ok {m : Except ε α} {f : α → Except ε β} {b : β} :
    m >>= f = .ok b ↔ ∃ a, m = .ok a ∧ f a = .ok b := by
  cases m with
  | error e | ok a => simp [bind, Except.bind]

theorem except_map_eq_ok {m : Except ε α} {f : α → β} {b : β} :
    m.map f = .ok b ↔ ∃ a, m = .ok a ∧ f a = b := by
  cases m with
  | error e | ok a => simp [Except.map]

theorem except_mapError_eq_ok {δ : Type} {m : Except ε α} {f : ε → δ} {a : α} :
    m.mapError f = .ok a ↔ m = .ok a := by
  cases m <;> simp [Except.mapError]

theorem except_toOption_eq_some {m : Except ε α} {a : α} : m.toOption = some a ↔ m = .ok a := by
  cases m <;> simp [Except.toOption]

theorem toOption_bind {m : Except ε α} {f : α → Option β} {b : β} :
    m.toOption.bind f = some b ↔ ∃ a, m = .ok a ∧ f a = some b := by
  simp only [Option.bind_eq_some_iff, except_toOption_eq_some]

theorem toOption_map {m : Except ε α} {f : α → β} {b : β} :
    m.toOption.map f = some b ↔ ∃ a, m = .ok a ∧ f a = b := by
  simp only [Option.map_eq_some_iff, except_toOption_eq_some]

/-- A sequence succeeds exactly if both of its parts do. -/
theorem bind_eq_ok {f : α → EStateM ε σ β} {b : β} :
    (m >>= f) s = .ok b s' ↔ ∃ a s1, m s = .ok a s1 ∧ f a s1 = .ok b s' := by
  simp only [bind, EStateM.bind]
  constructor
  · intro ok
    cases first : m s with
    | ok a s1 =>
      rw [first] at ok
      exact ⟨a, s1, rfl, ok⟩
    | error e s1 =>
      rw [first] at ok
      cases ok
  · rintro ⟨a, s1, first, second⟩
    rw [first]
    exact second

/-- A handler runs on the state that the failed operation left. -/
theorem tryCatch_eq (m : EStateM ε σ α) (handler : ε → EStateM ε σ α) (s : σ) :
    (tryCatch m handler : EStateM ε σ α) s =
      match m s with
      | .ok a s' => .ok a s'
      | .error e s' => handler e s' := by
  simp only [tryCatch, tryCatchThe, MonadExceptOf.tryCatch, EStateM.tryCatch,
    EStateM.dummyRestore, EStateM.Backtrackable.restore]
  cases m s <;> rfl

/-- A final change of state is made whatever the outcome. -/
theorem stateAfter_tryFinally (m : EStateM ε σ α) (g : σ → σ) (s : σ) :
    stateAfter (tryFinally m (modify g)) s = g (stateAfter m s) := by
  simp only [stateAfter, tryFinally, tryFinally', Functor.map, EStateM.map]
  cases m s <;> rfl

/-- Whatever the outcome, the state moves along `R`. -/
def Leaves (R : σ → σ → Prop) (m : EStateM ε σ α) : Prop := ∀ s, R s (stateAfter m s)

namespace Leaves

variable {R : σ → σ → Prop} {m : EStateM ε σ α} {f : α → EStateM ε σ β}

theorem of_ok {s s' : σ} {a : α} (leaves : Leaves R m) (ok : m s = .ok a s') : R s s' := by
  have moved := leaves s
  rwa [stateAfter_of_ok ok] at moved

theorem of_error {s s' : σ} {e : ε} (leaves : Leaves R m) (error : m s = .error e s') :
    R s s' := by
  have moved := leaves s
  rwa [stateAfter_of_error error] at moved

theorem pure (refl : ∀ s, R s s) (a : α) : Leaves R (pure a : EStateM ε σ α) :=
  fun s => refl s

theorem throw (refl : ∀ s, R s s) (e : ε) : Leaves R (throw e : EStateM ε σ α) :=
  fun s => refl s

theorem get (refl : ∀ s, R s s) : Leaves R (get : EStateM ε σ σ) :=
  fun s => refl s

theorem bind (trans : ∀ {a b c}, R a b → R b c → R a c) (first : Leaves R m)
    (second : ∀ a, Leaves R (f a)) : Leaves R (m >>= f) := by
  intro s
  rw [stateAfter_bind]
  cases outcome : m s with
  | ok a s1 => exact trans (first.of_ok outcome) (second a s1)
  | error e s1 => exact first.of_error outcome

end Leaves

/-- From every state in `P`, `m` succeeds in `Q` or fails in `E`. -/
def Runs (P : σ → Prop) (m : EStateM ε σ α) (Q : α → σ → Prop) (E : σ → Prop) : Prop :=
  ∀ s, P s →
    match m s with
    | .ok a s' => Q a s'
    | .error _ s' => E s'

namespace Runs

variable {P E : σ → Prop} {m : EStateM ε σ α} {f : α → EStateM ε σ β} {Q : α → σ → Prop}
  {R : β → σ → Prop}

theorem of_ok {s s' : σ} {a : α} (runs : Runs P m Q E) (holds : P s) (ok : m s = .ok a s') :
    Q a s' := by
  have result := runs s holds
  rwa [ok] at result

theorem of_error {s s' : σ} {e : ε} (runs : Runs P m Q E) (holds : P s)
    (error : m s = .error e s') : E s' := by
  have result := runs s holds
  rwa [error] at result

theorem after {Q : σ → Prop} {s : σ} (runs : Runs P m (fun _ => Q) E) (holds : P s) :
    Q (stateAfter m s) ∨ E (stateAfter m s) := by
  cases outcome : m s with
  | ok a s' =>
    rw [stateAfter_of_ok outcome]
    exact Or.inl (runs.of_ok holds outcome)
  | error e s' =>
    rw [stateAfter_of_error outcome]
    exact Or.inr (runs.of_error holds outcome)

theorem bind (first : Runs P m Q E) (second : ∀ a, Runs (Q a) (f a) R E) :
    Runs P (m >>= f) R E := by
  intro s holds
  cases outcome : m s with
  | ok a s1 =>
    rw [bind_of_ok outcome]
    exact second a s1 (first.of_ok holds outcome)
  | error e s1 =>
    rw [bind_of_error outcome]
    exact first.of_error holds outcome

theorem weaken {P' E' : σ → Prop} {Q' : α → σ → Prop} (runs : Runs P m Q E)
    (before : ∀ s, P' s → P s) (after : ∀ a s, Q a s → Q' a s) (failed : ∀ s, E s → E' s) :
    Runs P' m Q' E' := by
  intro s holds
  have result := runs s (before s holds)
  cases outcome : m s with
  | ok a s1 =>
    rw [outcome] at result
    exact after a s1 result
  | error e s1 =>
    rw [outcome] at result
    exact failed s1 result

theorem tryCatch {handler : ε → EStateM ε σ α} {F : σ → Prop} (first : Runs P m Q F)
    (second : ∀ e, Runs F (handler e) Q E) : Runs P (tryCatch m handler) Q E := by
  intro s holds
  rw [tryCatch_eq]
  cases outcome : m s with
  | ok a s1 => exact first.of_ok holds outcome
  | error e s1 => exact second e s1 (first.of_error holds outcome)

end Runs

/-- Whatever the outcome, `I` still holds, and a result is in `Q`. -/
def Keeps (I : σ → Prop) (m : EStateM ε σ α) (Q : α → Prop) : Prop :=
  Runs I m (fun a s => I s ∧ Q a) I

namespace Keeps

variable {I : σ → Prop} {m : EStateM ε σ α} {f : α → EStateM ε σ β} {Q : α → Prop} {R : β → Prop}

theorem after {s : σ} (keeps : Keeps I m Q) (holds : I s) : I (stateAfter m s) := by
  cases outcome : m s with
  | ok a s' =>
    rw [stateAfter_of_ok outcome]
    exact (Runs.of_ok keeps holds outcome).1
  | error e s' =>
    rw [stateAfter_of_error outcome]
    exact Runs.of_error keeps holds outcome

theorem of_after (each : ∀ s, I s → I (stateAfter m s)) : Keeps I m fun _ => True := by
  intro s holds
  have kept := each s holds
  cases outcome : m s with
  | ok a s' =>
    rw [stateAfter_of_ok outcome] at kept
    exact ⟨kept, trivial⟩
  | error e s' =>
    rw [stateAfter_of_error outcome] at kept
    exact kept

theorem pure {a : α} (result : Q a) : Keeps I (pure a : EStateM ε σ α) Q :=
  fun _ holds => ⟨holds, result⟩

theorem throw (e : ε) : Keeps I (throw e : EStateM ε σ α) Q := fun _ holds => holds

theorem get {Q : σ → Prop} (result : ∀ s, I s → Q s) : Keeps I (get : EStateM ε σ σ) Q :=
  fun s holds => ⟨holds, result s holds⟩

theorem modify {g : σ → σ} {Q : PUnit → Prop} (moves : ∀ s, I s → I (g s)) (result : Q ⟨⟩) :
    Keeps I (modify g : EStateM ε σ PUnit) Q :=
  fun s holds => ⟨moves s holds, result⟩

theorem bind (first : Keeps I m Q) (second : ∀ a, Q a → Keeps I (f a) R) :
    Keeps I (m >>= f) R :=
  Runs.bind first fun a s ⟨holds, result⟩ => second a result s holds

theorem tryCatch {handler : ε → EStateM ε σ α} (first : Keeps I m Q)
    (second : ∀ e, Keeps I (handler e) Q) : Keeps I (tryCatch m handler) Q :=
  Runs.tryCatch first second

end Keeps

end ForthJit
