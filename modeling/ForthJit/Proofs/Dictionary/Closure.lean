import ForthJit.Proofs.Dictionary.WellFormed

/-!
# Flags and reachability

Entries are created, call one another in any order and direction, and are marked.  However that
goes, an entry has a flag if and only if the recorded calls lead from it to an entry that was
created or marked with it, for `throws` through entries that pass errors on (`Dictionary.Closed`).
The worklist that keeps it so runs out whichever entry is taken from it next
(`Dictionary.round_wellFounded`).
-/

namespace ForthJit

/-- A flag that flows from an entry to its callers. -/
inductive Mark where
  | throws
  | definitionOnly
  | interpreterOnly
  deriving DecidableEq

namespace EntryFlags

def has (f : EntryFlags) : Mark → Bool
  | .throws => f.throws
  | .definitionOnly => f.definitionOnly
  | .interpreterOnly => f.interpreterOnly

/-- Whether the mark flows into an entry with these flags. -/
def takes (f : EntryFlags) : Mark → Bool
  | .throws => f.autoTry
  | .definitionOnly | .interpreterOnly => true

/-- How many marks are not there. -/
def unset (f : EntryFlags) : Nat :=
  (!f.throws).toNat + (!f.definitionOnly).toNat + (!f.interpreterOnly).toNat

theorem unset_le (f : EntryFlags) : f.unset ≤ 3 := by
  have bound := Bool.toNat_le
  have := bound (!f.throws)
  have := bound (!f.definitionOnly)
  have := bound (!f.interpreterOnly)
  unfold unset
  omega

/-- Flags are known by their marks and by the two that do not flow. -/
theorem ext_has {f f' : EntryFlags} (marks : ∀ k, f.has k = f'.has k)
    (autoTry : f.autoTry = f'.autoTry) (quiet : f.quiet = f'.quiet) : f = f' := by
  obtain ⟨throws, _, definitionOnly, interpreterOnly, _⟩ := f
  obtain ⟨throws', _, definitionOnly', interpreterOnly', _⟩ := f'
  have throws_eq : throws = throws' := marks .throws
  have definitionOnly_eq : definitionOnly = definitionOnly' := marks .definitionOnly
  have interpreterOnly_eq : interpreterOnly = interpreterOnly' := marks .interpreterOnly
  cases autoTry
  cases quiet
  rw [throws_eq, definitionOnly_eq, interpreterOnly_eq]

end EntryFlags

namespace Dictionary

variable {d d' : Dictionary} {i j id : EntryId} {e f : Entry} {k : Mark}

theorem has_inherit (g f : EntryFlags) (k : Mark) :
    (inherit g f).has k = (f.has k || (g.has k && f.takes k)) := by
  cases k <;> simp [inherit, EntryFlags.has, EntryFlags.takes]

theorem Gains.has {f f' : EntryFlags} (gains : Gains f f') (set : f.has k = true) :
    f'.has k = true := by
  cases k with
  | throws => exact gains.throws set
  | definitionOnly => exact gains.definitionOnly set
  | interpreterOnly => exact gains.interpreterOnly set

theorem Gains.takes {f f' : EntryFlags} (gains : Gains f f') (k : Mark) :
    f'.takes k = f.takes k := by
  cases k with
  | throws => exact gains.autoTry
  | definitionOnly | interpreterOnly => rfl

/-- An entry that has everything it should take from `g` has each mark of `g` that flows into it. -/
theorem has_of_settled {g f : EntryFlags} (settled : inherit g f = f) (set : g.has k = true)
    (taken : f.takes k = true) : f.has k = true := by
  rw [← settled, has_inherit, set, taken]
  exact Bool.or_true _

theorem unset_inherit_lt {g f : EntryFlags} (changed : inherit g f ≠ f) :
    (inherit g f).unset < f.unset := by
  obtain ⟨throws, autoTry, definitionOnly, interpreterOnly, quiet⟩ := f
  revert changed
  simp only [inherit, EntryFlags.unset]
  cases throws <;> cases definitionOnly <;> cases interpreterOnly <;> cases g.throws <;>
    cases g.definitionOnly <;> cases g.interpreterOnly <;> cases autoTry <;> simp

/-! ## The worklist -/

/-- How many marks are missing in the dictionary. -/
def unset (d : Dictionary) : Nat :=
  ∑ i ∈ Finset.range d.size, ((d.get? i).map (·.flags.unset)).getD 0

theorem unset_le (d : Dictionary) : d.unset ≤ 3 * d.size := by
  have each : ∀ i ∈ Finset.range d.size, ((d.get? i).map (·.flags.unset)).getD 0 ≤ 3 := by
    intro i _
    cases d.get? i with
    | none => exact Nat.zero_le 3
    | some e => exact e.flags.unset_le
  have sum := Finset.sum_le_card_nsmul _ _ 3 each
  rw [Finset.card_range, smul_eq_mul, Nat.mul_comm] at sum
  exact sum

variable {flags : EntryFlags} {e' : Entry} {work : List EntryId}

theorem unset_update_lt (found : d.get? i = some e) (fewer : flags.unset < e.flags.unset) :
    (d.update i fun e => { e with flags }).unset < d.unset := by
  unfold unset
  rw [size_update]
  apply Finset.sum_lt_sum
  · intro j _
    rw [get?_update]
    split
    · next same =>
      rw [← same, found]
      exact Nat.le_of_lt fewer
    · exact Nat.le_refl _
  · refine ⟨i, Finset.mem_range.2 (get?_lt found), ?_⟩
    rw [get?_update, if_pos rfl, found]
    exact fewer

/-- An entry whose flags change when they are passed on is put on the list. -/
theorem mem_passOn {callers : List EntryId} (found : d.get? i = some e) (isCaller : i ∈ callers)
    (changed : inherit flags e.flags ≠ e.flags) : i ∈ (d.passOn flags callers).2 := by
  induction callers generalizing d with
  | nil => cases isCaller
  | cons caller rest ih =>
    rw [passOn]
    by_cases same : caller = i
    · subst same
      simp only [found, changed, if_false]
      exact List.mem_cons_self
    · have later : i ∈ rest := (List.mem_cons.1 isCaller).resolve_left (Ne.symm same)
      cases d.get? caller with
      | none => exact ih found later
      | some f =>
        dsimp only
        split
        · exact ih found later
        · refine List.mem_cons_of_mem _ (ih ?_ later)
          rw [get?_update, if_neg same]
          exact found

/-- What becomes of an entry when flags are passed on. -/
theorem passOn_view {callers : List EntryId}
    (found' : (d.passOn flags callers).1.get? i = some e') :
    ∃ e, d.get? i = some e ∧ e'.callees = e.callees ∧ e'.callers = e.callers ∧
      Gains e.flags e'.flags ∧ (i ∈ callers → e'.flags = inherit flags e.flags) ∧
      (i ∉ (d.passOn flags callers).2 → e'.flags = e.flags) := by
  rw [get?_passOn] at found'
  obtain ⟨e, found, rfl⟩ := Option.map_eq_some_iff.1 found'
  refine ⟨e, found, ?_⟩
  by_cases isCaller : i ∈ callers
  · rw [if_pos isCaller]
    refine ⟨rfl, rfl, gains_inherit _ _, fun _ => rfl, fun unchanged => ?_⟩
    by_contra changed
    exact unchanged (mem_passOn found isCaller changed)
  · rw [if_neg isCaller]
    exact ⟨rfl, rfl, .refl _, fun member => absurd member isCaller, fun _ => rfl⟩

/-- For every entry that is put on the list, a mark is set. -/
theorem unset_passOn (flags : EntryFlags) (callers : List EntryId) (d : Dictionary) :
    (d.passOn flags callers).1.unset + (d.passOn flags callers).2.length ≤ d.unset := by
  induction callers generalizing d with
  | nil => exact Nat.le_refl _
  | cons caller rest ih =>
    rw [passOn]
    cases found : d.get? caller with
    | none => exact ih d
    | some e =>
      by_cases same : inherit flags e.flags = e.flags
      · simp only [same, if_true]
        exact ih d
      · simp only [same, if_false, List.length_cons]
        have fewer := unset_update_lt found (unset_inherit_lt same)
        have others := ih (d.update caller fun e' => { e' with flags := inherit flags e.flags })
        omega

/-- One round of the worklist: some entry is taken from it and passes its flags on, and the callers
whose flags changed are put on it. -/
inductive Round : Dictionary × List EntryId → Dictionary × List EntryId → Prop
  | take {d : Dictionary} {work rest : List EntryId} {id : EntryId} {e : Entry} :
      work.Perm (id :: rest) → d.get? id = some e →
      Round (d, work) ((d.passOn e.flags e.callers).1, (d.passOn e.flags e.callers).2 ++ rest)
  | skip {d : Dictionary} {work rest : List EntryId} {id : EntryId} :
      work.Perm (id :: rest) → d.get? id = none → Round (d, work) (d, rest)

/-- Each round sets a mark for everything that it puts on the list. -/
theorem Round.decreases {s s' : Dictionary × List EntryId} (round : Round s s') :
    s'.1.unset + s'.2.length < s.1.unset + s.2.length := by
  cases round with
  | @take d work rest id e taken found =>
    have shorter := taken.length_eq
    have fewer := unset_passOn e.flags e.callers d
    simp only [List.length_append, List.length_cons] at shorter ⊢
    omega
  | skip taken _ =>
    have shorter := taken.length_eq
    simp only [List.length_cons] at shorter ⊢
    omega

/-- Whatever the calls are and whichever entry is taken next, the worklist runs out. -/
theorem round_wellFounded : WellFounded fun s' s => Round s s' :=
  Subrelation.wf (fun round => Round.decreases round)
    (measure fun s : Dictionary × List EntryId => s.1.unset + s.2.length).wf

/-- With enough fuel, `spread` goes on until the worklist is empty. -/
theorem rounds_spread {fuel : Nat} (enough : d.unset + work.length ≤ fuel) :
    Relation.ReflTransGen Round (d, work) (d.spread fuel work, []) := by
  induction fuel generalizing d work with
  | zero =>
    obtain rfl : work = [] := List.eq_nil_of_length_eq_zero (by omega)
    exact .refl
  | succ fuel ih =>
    cases work with
    | nil => exact .refl
    | cons id work =>
      rw [spread]
      cases found : d.get? id with
      | none =>
        have round : Round (d, id :: work) (d, work) := .skip (.refl _) found
        have := round.decreases
        exact .head round (ih (by dsimp only at this; omega))
      | some e =>
        have round : Round (d, id :: work) (_, _ ++ work) := .take (.refl _) found
        have := round.decreases
        exact .head round (ih (by dsimp only at this; omega))

theorem rounds_propagate (d : Dictionary) (id : EntryId) :
    Relation.ReflTransGen Round (d, [id]) (d.propagate id, []) := by
  apply rounds_spread
  have := d.unset_le
  rw [List.length_singleton]
  omega

/-- What propagation makes of an entry.  If `T` holds of all entries that throw and of the callers
that take this from an entry of `T`, no other entry comes to throw. -/
theorem propagate_view {T : EntryId → Prop}
    (start : ∀ i e, d.get? i = some e → e.flags.throws = true → T i)
    (closed : ∀ i e, d.get? i = some e → T i → ∀ j ∈ e.callers, ∀ f, d.get? j = some f →
      f.flags.autoTry = true → T j)
    (id : EntryId) (found' : (d.propagate id).get? i = some e') :
    ∃ e, d.get? i = some e ∧ Gains e.flags e'.flags ∧ (e'.flags.throws = true → T i) := by
  have along : ∀ s, Relation.ReflTransGen Round (d, [id]) s → ∀ i e', s.1.get? i = some e' →
      ∃ e, d.get? i = some e ∧ e'.callers = e.callers ∧ Gains e.flags e'.flags ∧
        (e'.flags.throws = true → T i) := by
    intro s rounds
    induction rounds with
    | refl => exact fun i e found => ⟨e, found, rfl, .refl _, start i e found⟩
    | tail _ round ih =>
      cases round with
      | skip _ _ => exact ih
      | @take d1 _ _ source g _ isSource =>
        intro i e'' found''
        obtain ⟨e', found', -, callers', gains', inherited, -⟩ := passOn_view found''
        obtain ⟨e, found, callers, gains, known⟩ := ih i e' found'
        refine ⟨e, found, callers'.trans callers, gains.trans gains', fun throws => ?_⟩
        by_cases isCaller : i ∈ g.callers
        · rw [inherited isCaller] at throws
          simp only [inherit, Bool.or_eq_true, Bool.and_eq_true] at throws
          rcases throws with already | ⟨passed, takes⟩
          · exact known already
          · obtain ⟨g0, isSource0, sameCallers, -, sourceKnown⟩ := ih source g isSource
            rw [sameCallers] at isCaller
            exact closed source g0 isSource0 (sourceKnown passed) i isCaller e found
              (gains.autoTry ▸ takes)
        · rw [get?_passOn, found', Option.map_some, if_neg isCaller] at found''
          cases found''
          exact known throws
  obtain ⟨e, found, -, gains, known⟩ := along _ (rounds_propagate d id) i e' found'
  exact ⟨e, found, gains, known⟩

/-- By a call, the newest entry comes to throw exactly if the callee throws and it passes errors
on. -/
theorem addCall_throws (wellFormed : d.WellFormed) {w callee : Nat} (last : w + 1 = d.size)
    (older : callee ≤ w) {g : Entry} (found : d.get? w = some e) (isCallee : d.get? callee = some g)
    (found' : (d.addCall w callee).get? w = some e') :
    e'.flags.autoTry = e.flags.autoTry ∧
      (e'.flags.throws = true ↔
        e.flags.throws = true ∨ e.flags.autoTry = true ∧ g.flags.throws = true) := by
  let T (i : EntryId) : Prop := (∃ f, d.get? i = some f ∧ f.flags.throws = true) ∨
    i = w ∧ e.flags.autoTry = true ∧ g.flags.throws = true
  have start : ∀ i f, (d.link w callee).get? i = some f → f.flags.throws = true → T i := by
    intro i f present throws
    obtain ⟨f0, present0, -, flags, -, -⟩ := link_view present
    exact Or.inl ⟨f0, present0, flags ▸ throws⟩
  have closed : ∀ i f, (d.link w callee).get? i = some f → T i → ∀ j ∈ f.callers, ∀ k,
      (d.link w callee).get? j = some k → k.flags.autoTry = true → T j := by
    intro i f present known j isCaller k presentCaller takes
    obtain ⟨f0, present0, -, -, callers, -⟩ := link_view present
    obtain ⟨k0, presentCaller0, -, flags, -, -⟩ := link_view presentCaller
    rw [flags] at takes
    rcases known with ⟨f1, present1, throws⟩ | ⟨rfl, passes⟩
    · obtain rfl := Option.some.inj (present0.symm.trans present1)
      rcases callers j isCaller with old | ⟨rfl, rfl⟩
      · have settled := wellFormed.settled i f0 present0 j old k0 presentCaller0
        exact Or.inl ⟨k0, presentCaller0, (inherit_eq_iff.1 settled).1 throws takes⟩
      · obtain rfl := Option.some.inj (isCallee.symm.trans present0)
        obtain rfl := Option.some.inj (found.symm.trans presentCaller0)
        exact Or.inr ⟨rfl, takes, throws⟩
    · rcases callers j isCaller with old | ⟨-, rfl⟩
      · exact Or.inr
          ⟨wellFormed.newest last found j (Option.some.inj (present0.symm.trans found) ▸ old),
            passes⟩
      · exact Or.inr ⟨rfl, passes⟩
  obtain ⟨e1, linked, gains, known⟩ := propagate_view start closed callee found'
  obtain ⟨e0, found0, -, flags, -, -⟩ := link_view linked
  obtain rfl := Option.some.inj (found.symm.trans found0)
  rw [flags] at gains
  refine ⟨gains.autoTry, fun throws => ?_, ?_⟩
  · rcases known throws with ⟨f, present, already⟩ | ⟨-, passes⟩
    · obtain rfl := Option.some.inj (found.symm.trans present)
      exact Or.inl already
    · exact Or.inr passes
  · rintro (already | ⟨passes, throws⟩)
    · exact gains.throws already
    by_cases itself : callee = w
    · subst itself
      obtain rfl := Option.some.inj (found.symm.trans isCallee)
      exact gains.throws throws
    · -- The callee has the newest entry among its callers, and flags have flowed.
      obtain ⟨wellFormed', flagged⟩ := wellFormed.addCall last older
      have now : (d.addCall w callee).get? callee =
          some { g with callers := insertAscending w g.callers } := by
        rw [flagged.others callee itself, get?_link, isCallee, Option.map_some,
          if_neg (Ne.symm itself), if_pos rfl]
      have settled :=
        wellFormed'.settled callee _ now w (mem_insertAscending.2 (Or.inl rfl)) e' found'
      exact (inherit_eq_iff.1 settled).1 throws (gains.autoTry ▸ passes)

/-- An entry that is marked as throwing throws, and else keeps its flags. -/
theorem markThrows_throws (found' : (d.markThrows i).get? i = some e') :
    e'.flags.throws = true ∧ ∃ e, d.get? i = some e ∧ e'.flags.autoTry = e.flags.autoTry := by
  rw [markThrows, Dictionary.mark] at found'
  cases found : d.get? i with
  | none =>
    rw [found] at found'
    cases found.symm.trans found'
  | some e =>
    rw [found] at found'
    dsimp only at found'
    split at found'
    · next throws =>
      obtain rfl := Option.some.inj (found.symm.trans found')
      exact ⟨throws, _, rfl, rfl⟩
    · obtain ⟨e1, marked, gains, -⟩ := propagate_view (T := fun _ => True) (fun _ _ _ _ => trivial)
        (fun _ _ _ _ _ _ _ _ _ => trivial) i found'
      rw [get?_update, if_pos rfl, found] at marked
      cases marked
      exact ⟨gains.throws rfl, e, rfl, gains.autoTry⟩

/-! ## Histories -/

/-- What is done to a dictionary.  New entries have no calls yet. -/
inductive Change where
  | create (e : Entry) (alone : e.callees = [] ∧ e.callers = [])
  | publish (id : EntryId)
  | addCall (caller callee : EntryId)
  | markThrows (id : EntryId)
  | markInterpreterOnly (id : EntryId)
  deriving DecidableEq

namespace Change

def apply (d : Dictionary) : Change → Dictionary
  | create e _ => d.create e
  | publish id => d.publish id
  | addCall caller callee => d.addCall caller callee
  | markThrows id => d.markThrows id
  | markInterpreterOnly id => d.markInterpreterOnly id

/-- The change names entries that are there. -/
def Fits (d : Dictionary) : Change → Prop
  | create _ _ => True
  | publish id | markThrows id | markInterpreterOnly id => id < d.size
  | addCall caller callee => caller < d.size ∧ callee < d.size

instance (d : Dictionary) : (c : Change) → Decidable (c.Fits d)
  | create _ _ => inferInstanceAs (Decidable True)
  | publish id | markThrows id | markInterpreterOnly id => inferInstanceAs (Decidable (id < d.size))
  | addCall caller callee => inferInstanceAs (Decidable (caller < d.size ∧ callee < d.size))

/-- Each change fits the dictionary that those before it have left. -/
def fitAll : List Change → Dictionary → Bool
  | [], _ => true
  | c :: cs, d => decide (c.Fits d) && fitAll cs (c.apply d)

def created? : Change → Option Entry
  | create e _ => some e
  | _ => none

/-- The entry that is marked, and with what. -/
def marked? : Change → Option (Mark × EntryId)
  | markThrows id => some (.throws, id)
  | markInterpreterOnly id => some (.interpreterOnly, id)
  | _ => none

theorem exists_marked_throws {cs : List Change} :
    (∃ c ∈ cs, c.marked? = some (.throws, i)) ↔ .markThrows i ∈ cs := by
  refine ⟨?_, fun member => ⟨_, member, rfl⟩⟩
  rintro ⟨⟨⟩, member, ⟨⟩⟩
  exact member

theorem exists_marked_interpreterOnly {cs : List Change} :
    (∃ c ∈ cs, c.marked? = some (.interpreterOnly, i)) ↔ .markInterpreterOnly i ∈ cs := by
  refine ⟨?_, fun member => ⟨_, member, rfl⟩⟩
  rintro ⟨⟨⟩, member, ⟨⟩⟩
  exact member

theorem not_exists_marked_definitionOnly {cs : List Change} :
    ¬∃ c ∈ cs, c.marked? = some (.definitionOnly, i) := by
  rintro ⟨c, -, isMark⟩
  cases c <;> cases isMark

/-- What marks an entry is not the last change, if that marks none. -/
theorem mem_of_marked {cs : List Change} {c c' : Change} {m : Mark × EntryId}
    (unmarked : c'.marked? = none) (member : c ∈ cs ++ [c']) (marks : c.marked? = some m) :
    c ∈ cs := by
  refine (List.mem_append.1 member).resolve_right fun last => ?_
  rw [List.mem_singleton.1 last, unmarked] at marks
  cases marks

end Change

/-- `d` is what the changes make of an empty dictionary. -/
inductive History : List Change → Dictionary → Prop
  | empty : History [] {}
  | step {cs : List Change} {d : Dictionary} (c : Change) : History cs d → c.Fits d →
      History (cs ++ [c]) (c.apply d)

section Origins

variable (cs : List Change)

/-- The entries as they were created, in order. -/
def created : List Entry := cs.filterMap Change.created?

/-- Entry `i` was created with a flag. -/
def CreatedWith (flag : EntryFlags → Bool) (i : EntryId) : Prop :=
  ∃ e, (created cs)[i]? = some e ∧ flag e.flags = true

/-- Entry `i` was created with the mark or has been marked. -/
def Originates (k : Mark) (i : EntryId) : Prop :=
  CreatedWith cs (·.has k) i ∨ ∃ c ∈ cs, c.marked? = some (k, i)

/-- Entry `i` was recorded to call `j`, and takes the mark over from it. -/
def Flows (k : Mark) (i j : EntryId) : Prop :=
  .addCall i j ∈ cs ∧ CreatedWith cs (·.takes k) i

/-- Calls lead from `i` to an entry that has the mark by itself, through entries that take it. -/
def Reaches (k : Mark) (i : EntryId) : Prop :=
  ∃ j, Relation.ReflTransGen (Flows cs k) i j ∧ Originates cs k j

end Origins

variable {cs cs' : List Change} {c : Change}

theorem created_append (cs cs' : List Change) : created (cs ++ cs') = created cs ++ created cs' :=
  List.filterMap_append

theorem CreatedWith.append {flag : EntryFlags → Bool} (first : CreatedWith cs flag i)
    (cs' : List Change) : CreatedWith (cs ++ cs') flag i := by
  obtain ⟨e, found, set⟩ := first
  refine ⟨e, ?_, set⟩
  rw [created_append, List.getElem?_append_left (List.getElem?_eq_some_iff.1 found).1]
  exact found

/-- What a mark reaches, it still reaches when more is done. -/
theorem Reaches.append (reached : Reaches cs k i) (cs' : List Change) :
    Reaches (cs ++ cs') k i := by
  obtain ⟨j, path, originates⟩ := reached
  refine ⟨j, Relation.ReflTransGen.mono (fun a b flows => ?_) _ _ path, ?_⟩
  · exact ⟨List.mem_append_left _ flows.1, flows.2.append cs'⟩
  · rcases originates with first | ⟨c, member, marks⟩
    · exact Or.inl (first.append cs')
    · exact Or.inr ⟨c, List.mem_append_left _ member, marks⟩

/-- What the dictionary `d` has of its history, if the marks of the entries in `work` have yet to
flow. -/
structure Kept (cs : List Change) (work : List EntryId) (d : Dictionary) : Prop where
  size : d.size = (created cs).length
  calls_lt : ∀ i j : Nat, .addCall i j ∈ cs → i < d.size ∧ j < d.size
  marks_lt : ∀ c ∈ cs, ∀ k (i : Nat), c.marked? = some (k, i) → i < d.size
  callees : ∀ i e, d.get? i = some e → ∀ j, j ∈ e.callees ↔ .addCall i j ∈ cs
  callers : ∀ i e, d.get? i = some e → ∀ j, j ∈ e.callers ↔ .addCall j i ∈ cs
  gains : ∀ i e e0, d.get? i = some e → (created cs)[i]? = some e0 → Gains e0.flags e.flags
  marked : ∀ c ∈ cs, ∀ k i e, c.marked? = some (k, i) → d.get? i = some e → e.flags.has k = true
  reaches : ∀ i e k, d.get? i = some e → e.flags.has k = true → Reaches cs k i
  settled : ∀ i e, d.get? i = some e → i ∈ work ∨ ∀ j ∈ e.callers, ∀ f, d.get? j = some f →
    inherit e.flags f.flags = f.flags

theorem kept_empty : Kept [] [] {} where
  size := rfl
  calls_lt := fun i j called => absurd called List.not_mem_nil
  marks_lt := fun c member => absurd member List.not_mem_nil
  callees := fun i e found => by cases found
  callers := fun i e found => by cases found
  gains := fun i e e0 found => by cases found
  marked := fun c member => absurd member List.not_mem_nil
  reaches := fun i e k found => by cases found
  settled := fun i e found => by cases found

namespace Kept

variable {work work' : List EntryId}

/-- A mark flows into the caller of an entry that reaches it. -/
theorem reaches_caller (kept : Kept cs work d) (found : d.get? i = some e)
    (isCaller : j ∈ e.callers) (present : d.get? j = some f) (taken : f.flags.takes k = true)
    (reached : Reaches cs k i) : Reaches cs k j := by
  obtain ⟨origin, path, originates⟩ := reached
  have bound : j < (created cs).length := kept.size ▸ get?_lt present
  have created := List.getElem?_eq_getElem bound
  refine ⟨origin, path.head ⟨(kept.callers i e found j).1 isCaller, _, created, ?_⟩, originates⟩
  exact ((kept.gains j f _ present created).takes k).symm.trans taken

/-- Entries may gain marks that they reach, also by changes that neither create nor call. -/
theorem flagged (kept : Kept cs work d) (more : List Change)
    (plain : ∀ c ∈ more, c.created? = none ∧ ∀ i j, c ≠ .addCall i j) (size : d'.size = d.size)
    (view : ∀ i e', d'.get? i = some e' → ∃ e, d.get? i = some e ∧ e'.callees = e.callees ∧
      e'.callers = e.callers ∧ Gains e.flags e'.flags)
    (marked : ∀ c ∈ more, ∀ k i, c.marked? = some (k, i) →
      ∃ e', d'.get? i = some e' ∧ e'.flags.has k = true)
    (reaches : ∀ i e' k, d'.get? i = some e' → e'.flags.has k = true → Reaches (cs ++ more) k i)
    (settled : ∀ i e', d'.get? i = some e' → i ∈ work' ∨ ∀ j ∈ e'.callers, ∀ f, d'.get? j = some f →
      inherit e'.flags f.flags = f.flags) : Kept (cs ++ more) work' d' := by
  have same : created (cs ++ more) = created cs := by
    rw [created_append]
    exact (congrArg _ (List.filterMap_eq_nil_iff.2 fun c member => (plain c member).1)).trans
      (List.append_nil _)
  have calls : ∀ i j, .addCall i j ∈ cs ++ more ↔ .addCall i j ∈ cs := by
    intro i j
    rw [List.mem_append]
    exact or_iff_left fun member => (plain _ member).2 i j rfl
  refine ⟨size.trans (kept.size.trans (congrArg _ same.symm)), ?_, ?_, ?_, ?_, ?_, ?_, reaches,
    settled⟩
  · intro i j called
    rw [size]
    exact kept.calls_lt i j ((calls i j).1 called)
  · intro c member k i isMark
    rcases List.mem_append.1 member with old | new
    · rw [size]
      exact kept.marks_lt c old k i isMark
    · obtain ⟨e', found', -⟩ := marked c new k i isMark
      exact get?_lt found'
  · intro i e' found' j
    obtain ⟨e, found, callees, -⟩ := view i e' found'
    rw [callees, calls]
    exact kept.callees i e found j
  · intro i e' found' j
    obtain ⟨e, found, -, callers, -⟩ := view i e' found'
    rw [callers, calls]
    exact kept.callers i e found j
  · intro i e' e0 found' first
    obtain ⟨e, found, -, -, gains⟩ := view i e' found'
    exact (kept.gains i e e0 found (same ▸ first)).trans gains
  · intro c member k i e' isMark found'
    rcases List.mem_append.1 member with old | new
    · obtain ⟨e, found, -, -, gains⟩ := view i e' found'
      exact gains.has (kept.marked c old k i e isMark found)
    · obtain ⟨f, present, set⟩ := marked c new k i isMark
      obtain rfl := Option.some.inj (found'.symm.trans present)
      exact set

/-- A round keeps it all. -/
theorem round (kept : Kept cs work d) (round : Round (d, work) (d', work')) :
    Kept cs work' d' := by
  cases round with
  | @skip _ _ _ id taken absent =>
    refine { kept with settled := fun i e found => ?_ }
    rcases kept.settled i e found with waiting | settled
    · rcases List.mem_cons.1 (taken.mem_iff.1 waiting) with rfl | later
      · cases absent.symm.trans found
      · exact Or.inl later
    · exact Or.inr settled
  | @take _ _ rest id e0 taken found0 =>
    rw [← List.append_nil cs]
    apply kept.flagged [] (by simp) (passOn_leaves ..).1
    · intro i e' found'
      obtain ⟨e, found, callees, callers, gains, -⟩ := passOn_view found'
      exact ⟨e, found, callees, callers, gains⟩
    · simp
    · intro i e' k found' set
      rw [List.append_nil]
      obtain ⟨e, found, -, -, -, passed, unchanged⟩ := passOn_view found'
      by_cases isCaller : i ∈ e0.callers
      · rw [passed isCaller, has_inherit, Bool.or_eq_true, Bool.and_eq_true] at set
        rcases set with own | ⟨passedOn, taken⟩
        · exact kept.reaches i e k found own
        · exact kept.reaches_caller found0 isCaller found taken
            (kept.reaches id e0 k found0 passedOn)
      · rw [get?_passOn, found, Option.map_some, if_neg isCaller] at found'
        cases found'
        exact kept.reaches i _ k found set
    · intro i e' found'
      obtain ⟨e, found, -, callers, -, -, unchanged⟩ := passOn_view found'
      by_cases changed : i ∈ (d.passOn e0.flags e0.callers).2
      · exact Or.inl (List.mem_append_left _ changed)
      rw [unchanged changed, callers]
      -- The flags of this entry are as before, so only those of its callers matter.
      by_cases isTaken : i = id
      · subst isTaken
        obtain rfl := Option.some.inj (found0.symm.trans found)
        refine Or.inr fun j isCaller f' present' => ?_
        obtain ⟨f, -, -, -, -, passed, -⟩ := passOn_view present'
        rw [passed isCaller, inherit_inherit]
      · rcases kept.settled i e found with waiting | settled
        · have later := (List.mem_cons.1 (taken.mem_iff.1 waiting)).resolve_left isTaken
          exact Or.inl (List.mem_append_right _ later)
        · refine Or.inr fun j isCaller f' present' => ?_
          obtain ⟨f, present, -, -, gains, -⟩ := passOn_view present'
          exact gains.settled (settled j isCaller f present)

/-- Marks have flowed once the worklist has run out. -/
theorem propagate (kept : Kept cs [id] d) : Kept cs [] (d.propagate id) := by
  have rounds : ∀ {s : Dictionary × List EntryId}, Relation.ReflTransGen Round (d, [id]) s →
      Kept cs s.2 s.1 := by
    intro s path
    induction path with
    | refl => exact kept
    | tail _ step ih => exact ih.round step
  exact rounds (rounds_propagate d id)

/-! ### What each change keeps -/

theorem create (kept : Kept cs [] d) {alone : e.callees = [] ∧ e.callers = []} :
    Kept (cs ++ [.create e alone]) [] (d.create e) := by
  have last : created (cs ++ [.create e alone]) = created cs ++ [e] := created_append _ _
  have calls : ∀ i j, .addCall i j ∈ cs ++ [.create e alone] ↔ .addCall i j ∈ cs := by simp
  have split : ∀ {i : Nat} {f}, (d.create e).get? i = some f →
      i = d.size ∧ e = f ∨ i < d.size ∧ d.get? i = some f := by
    intro i f found
    rw [get?_create] at found
    split at found
    · next new => exact Or.inl ⟨new, Option.some.inj found⟩
    · exact Or.inr ⟨get?_lt found, found⟩
  refine ⟨?_, ?_, ?_, ?_, ?_, ?_, ?_, ?_, ?_⟩
  · rw [size_create, last, List.length_append, kept.size]
    rfl
  · intro i j called
    have := kept.calls_lt i j ((calls i j).1 called)
    rw [size_create]
    omega
  · intro c member k i isMark
    rw [size_create]
    exact Nat.lt_succ_of_lt (kept.marks_lt c (Change.mem_of_marked rfl member isMark) k i isMark)
  · intro i f found j
    rw [calls]
    rcases split found with ⟨rfl, rfl⟩ | ⟨-, old⟩
    · rw [alone.1]
      refine ⟨nofun, fun called => ?_⟩
      exact absurd (kept.calls_lt _ _ called).1 (Nat.lt_irrefl _)
    · exact kept.callees i f old j
  · intro i f found j
    rw [calls]
    rcases split found with ⟨rfl, rfl⟩ | ⟨-, old⟩
    · rw [alone.2]
      refine ⟨nofun, fun called => ?_⟩
      exact absurd (kept.calls_lt _ _ called).2 (Nat.lt_irrefl _)
    · exact kept.callers i f old j
  · intro i f e0 found first
    rcases split found with ⟨rfl, rfl⟩ | ⟨older, old⟩
    · rw [last, kept.size, List.getElem?_concat_length] at first
      cases first
      exact .refl _
    · rw [last, List.getElem?_append_left (kept.size ▸ older)] at first
      exact kept.gains i f e0 old first
  · intro c member k i f isMark found
    have old := Change.mem_of_marked rfl member isMark
    rcases split found with ⟨rfl, rfl⟩ | ⟨-, present⟩
    · exact absurd (kept.marks_lt c old k _ isMark) (Nat.lt_irrefl _)
    · exact kept.marked c old k i f isMark present
  · intro i f k found set
    rcases split found with ⟨rfl, rfl⟩ | ⟨-, old⟩
    · refine ⟨_, .refl, Or.inl ⟨e, ?_, set⟩⟩
      rw [last, kept.size, List.getElem?_concat_length]
    · exact (kept.reaches i f k old set).append _
  · intro i f found
    rcases split found with ⟨rfl, rfl⟩ | ⟨-, old⟩
    · rw [alone.2]
      exact Or.inr nofun
    · refine (kept.settled i f old).imp_right fun settled j isCaller g present => ?_
      have older := (kept.calls_lt j i ((kept.callers i f old j).1 isCaller)).1
      rw [get?_create, if_neg (Nat.ne_of_lt older)] at present
      exact settled j isCaller g present

/-- A call that is recorded has yet to pass the marks of the callee on. -/
theorem link {caller callee : Nat} (kept : Kept cs [] d) (older : caller < d.size)
    (older' : callee < d.size) :
    Kept (cs ++ [.addCall caller callee]) [callee] (d.link caller callee) := by
  have same : created (cs ++ [.addCall caller callee]) = created cs :=
    (created_append _ _).trans (List.append_nil _)
  have calls : ∀ i j, .addCall i j ∈ cs ++ [.addCall caller callee] ↔
      .addCall i j ∈ cs ∨ i = caller ∧ j = callee := by simp
  have view : ∀ {i : Nat} {e'}, (d.link caller callee).get? i = some e' → ∃ e, d.get? i = some e ∧
      e'.flags = e.flags ∧ (∀ j, j ∈ e'.callees ↔ j ∈ e.callees ∨ i = caller ∧ j = callee) ∧
      ∀ j, j ∈ e'.callers ↔ j ∈ e.callers ∨ j = caller ∧ i = callee := by
    intro i e' found'
    rw [get?_link] at found'
    obtain ⟨e, found, rfl⟩ := Option.map_eq_some_iff.1 found'
    refine ⟨e, found, rfl, fun j => ?_, fun j => ?_⟩
    · by_cases isCaller : caller = i <;> grind [mem_insertAscending]
    · by_cases isCallee : callee = i <;> grind [mem_insertAscending]
  have size := size_link d caller callee
  refine ⟨size.trans (kept.size.trans (congrArg _ same.symm)), ?_, ?_, ?_, ?_, ?_, ?_, ?_, ?_⟩
  · intro i j called
    rw [size]
    rcases (calls i j).1 called with old | ⟨rfl, rfl⟩
    · exact kept.calls_lt i j old
    · exact ⟨older, older'⟩
  · intro c member k i isMark
    rw [size]
    exact kept.marks_lt c (Change.mem_of_marked rfl member isMark) k i isMark
  · intro i e' found' j
    obtain ⟨e, found, -, callees, -⟩ := view found'
    rw [callees, calls, kept.callees i e found]
  · intro i e' found' j
    obtain ⟨e, found, -, -, callers⟩ := view found'
    rw [callers, calls, kept.callers i e found]
  · intro i e' e0 found' first
    obtain ⟨e, found, flags, -⟩ := view found'
    rw [flags]
    exact kept.gains i e e0 found (same ▸ first)
  · intro c member k i e' isMark found'
    obtain ⟨e, found, flags, -⟩ := view found'
    rw [flags]
    exact kept.marked c (Change.mem_of_marked rfl member isMark) k i e isMark found
  · intro i e' k found' set
    obtain ⟨e, found, flags, -⟩ := view found'
    exact (kept.reaches i e k found (flags ▸ set)).append _
  · intro i e' found'
    obtain ⟨e, found, flags, -, callers⟩ := view found'
    rw [List.mem_singleton]
    by_cases isCallee : i = callee
    · exact Or.inl isCallee
    · refine Or.inr fun j isCaller g' present' => ?_
      obtain ⟨g, present, flags', -⟩ := view present'
      have old := ((callers j).1 isCaller).resolve_right fun new => isCallee new.2
      rw [flags, flags']
      exact (kept.settled i e found).resolve_left List.not_mem_nil j old g present

theorem publish (kept : Kept cs [] d) (id : EntryId) :
    Kept (cs ++ [.publish id]) [] (d.publish id) := by
  have view : ∀ i e', (d.publish id).get? i = some e' → ∃ e, d.get? i = some e ∧
      e'.callees = e.callees ∧ e'.callers = e.callers ∧ e'.flags = e.flags := by
    intro i e' found'
    obtain ⟨e, found, rfl | rfl⟩ := publish_view found'
    · exact ⟨_, found, rfl, rfl, rfl⟩
    · exact ⟨e, found, rfl, rfl, rfl⟩
  have size : (d.publish id).size = d.size := by
    unfold Dictionary.publish
    split
    · rfl
    · exact size_update d id _
  apply kept.flagged [.publish id] (by simp [Change.created?]) size
  · intro i e' found'
    obtain ⟨e, found, callees, callers, flags⟩ := view i e' found'
    exact ⟨e, found, callees, callers, flags ▸ .refl _⟩
  · simp [Change.marked?]
  · intro i e' k found' set
    obtain ⟨e, found, -, -, flags⟩ := view i e' found'
    exact (kept.reaches i e k found (flags ▸ set)).append _
  · intro i e' found'
    obtain ⟨e, found, -, callers, flags⟩ := view i e' found'
    refine (kept.settled i e found).imp_right fun settled j isCaller f' present' => ?_
    obtain ⟨f, present, -, -, flags'⟩ := view j f' present'
    rw [flags, flags']
    exact settled j (callers ▸ isCaller) f present

/-- An entry is marked with `k`, unless it already is. -/
theorem mark (kept : Kept cs [] d) {id : Nat} (older : id < d.size)
    (marks : c.marked? = some (k, id)) (plain : c.created? = none ∧ ∀ i j, c ≠ .addCall i j)
    {set : EntryFlags → EntryFlags}
    (sets : ∀ f k', (set f).has k' = true ↔ f.has k' = true ∨ k' = k)
    (gains : ∀ f, Gains f (set f)) : Kept (cs ++ [c]) [] (d.mark id (·.has k) set) := by
  obtain ⟨e, found⟩ := get?_of_lt older
  have alone : ∀ c' ∈ [c], c'.created? = none ∧ ∀ i j, c' ≠ .addCall i j := by simpa using plain
  unfold Dictionary.mark
  rw [found]
  dsimp only
  split
  · next has =>
    apply kept.flagged [c] alone rfl (fun i e found => ⟨e, found, rfl, rfl, .refl _⟩) _
      (fun i e k found set => (kept.reaches i e k found set).append _) kept.settled
    intro c' member k' i isMark
    rw [List.mem_singleton.1 member] at isMark
    cases marks.symm.trans isMark
    exact ⟨e, found, has⟩
  · apply Kept.propagate
    have now : (d.update id fun e => { e with flags := set e.flags }).get? id =
        some { e with flags := set e.flags } := by
      rw [get?_update, if_pos rfl, found]
      rfl
    have view : ∀ i e', (d.update id fun e => { e with flags := set e.flags }).get? i = some e' →
        ∃ f, d.get? i = some f ∧ e'.callees = f.callees ∧ e'.callers = f.callers ∧
          Gains f.flags e'.flags ∧ (i ≠ id → e' = f) := by
      intro i e' found'
      rw [get?_update] at found'
      split at found'
      · next same =>
        obtain ⟨f, present, rfl⟩ := Option.map_eq_some_iff.1 found'
        exact ⟨f, present, rfl, rfl, gains _, fun other => absurd same.symm other⟩
      · exact ⟨e', found', rfl, rfl, .refl _, fun _ => rfl⟩
    apply kept.flagged [c] alone (size_update d id _)
    · intro i e' found'
      obtain ⟨f, present, callees, callers, gained, -⟩ := view i e' found'
      exact ⟨f, present, callees, callers, gained⟩
    · intro c' member k' i isMark
      rw [List.mem_singleton.1 member] at isMark
      cases marks.symm.trans isMark
      exact ⟨_, now, (sets _ _).2 (Or.inr rfl)⟩
    · intro i e' k' found' has'
      obtain ⟨f, present, -, -, -, same⟩ := view i e' found'
      by_cases isMarked : i = id
      · subst isMarked
        obtain rfl := Option.some.inj (now.symm.trans found')
        rcases (sets _ _).1 has' with own | rfl
        · exact (kept.reaches i e k' found own).append _
        · exact ⟨i, .refl, Or.inr ⟨c, by simp, marks⟩⟩
      · rw [same isMarked] at has'
        exact (kept.reaches i f k' present has').append _
    · intro i e' found'
      obtain ⟨f, present, -, callers, -, same⟩ := view i e' found'
      by_cases isMarked : i = id
      · exact Or.inl (List.mem_singleton.2 isMarked)
      · refine Or.inr fun j isCaller g' present' => ?_
        obtain ⟨g, other, -, -, gained, -⟩ := view j g' present'
        rw [same isMarked] at isCaller ⊢
        exact gained.settled
          ((kept.settled i f present).resolve_left List.not_mem_nil j isCaller g other)

end Kept

theorem History.kept (history : History cs d) : Kept cs [] d := by
  induction history with
  | empty => exact kept_empty
  | @step cs d c _ fits ih =>
    cases c with
    | create e alone => exact ih.create
    | publish id => exact ih.publish id
    | addCall caller callee => exact (ih.link fits.1 fits.2).propagate
    | markThrows i =>
      show Kept _ [] (d.mark i (·.has .throws) fun f => { f with throws := true })
      refine ih.mark (c := .markThrows i) fits rfl ⟨rfl, nofun⟩ (fun f k' => ?_) fun f => ?_
      · cases k' <;> simp [EntryFlags.has]
      · exact ⟨fun _ => rfl, id, id, rfl, rfl⟩
    | markInterpreterOnly i =>
      show Kept _ [] (d.mark i (·.has .interpreterOnly) fun f => { f with interpreterOnly := true })
      refine ih.mark (c := .markInterpreterOnly i) fits rfl ⟨rfl, nofun⟩ (fun f k' => ?_) fun f =>
        ?_
      · cases k' <;> simp [EntryFlags.has]
      · exact ⟨id, id, fun _ => rfl, rfl, rfl⟩

/-- An entry has a mark if and only if calls lead from it to where the mark comes from. -/
theorem Kept.has_iff (kept : Kept cs [] d) (found : d.get? i = some e) :
    e.flags.has k = true ↔ Reaches cs k i := by
  refine ⟨kept.reaches i e k found, ?_⟩
  rintro ⟨j, path, originates⟩
  induction path using Relation.ReflTransGen.head_induction_on generalizing e with
  | refl =>
    rcases originates with ⟨e0, first, set⟩ | ⟨c, member, marks⟩
    · exact (kept.gains j e e0 found first).has set
    · exact kept.marked c member k j e marks found
  | @head i next flows _ ih =>
    obtain ⟨called, e0, first, taken⟩ := flows
    obtain ⟨f, present⟩ := get?_of_lt (kept.calls_lt i next called).2
    have settled := (kept.settled next f present).resolve_left List.not_mem_nil i
      ((kept.callers next f present i).2 called) e found
    exact has_of_settled settled (ih present)
      (((kept.gains i e e0 found first).takes k).trans taken)

/-! ## The closure -/

/-- Entry `i` calls `j`. -/
def Calls (d : Dictionary) (i j : EntryId) : Prop := ∃ e, d.get? i = some e ∧ j ∈ e.callees

/-- Entry `i` passes the errors of its callees on. -/
def PassesOn (d : Dictionary) (i : EntryId) : Prop :=
  ∃ e, d.get? i = some e ∧ e.flags.autoTry = true

/-- The flags in `d` are those that its entries were created and marked with, closed under calls. -/
structure Closed (cs : List Change) (d : Dictionary) : Prop where
  /-- The callees are those that were recorded. -/
  recorded : ∀ i j, d.Calls i j ↔ .addCall i j ∈ cs
  /-- The callers are the converse of the callees. -/
  converse : ∀ i j, d.Calls i j ↔ ∃ f, d.get? j = some f ∧ i ∈ f.callers
  interpreterOnly : ∀ i e, d.get? i = some e → (e.flags.interpreterOnly = true ↔
    ∃ j, Relation.ReflTransGen d.Calls i j ∧
      (CreatedWith cs (·.interpreterOnly) j ∨ .markInterpreterOnly j ∈ cs))
  definitionOnly : ∀ i e, d.get? i = some e → (e.flags.definitionOnly = true ↔
    ∃ j, Relation.ReflTransGen d.Calls i j ∧ CreatedWith cs (·.definitionOnly) j)
  /-- An error comes through entries that pass it on; where it comes from need not. -/
  throws : ∀ i e, d.get? i = some e → (e.flags.throws = true ↔
    ∃ j, Relation.ReflTransGen (fun a b => d.Calls a b ∧ d.PassesOn a) i j ∧
      (CreatedWith cs (·.throws) j ∨ .markThrows j ∈ cs))

/-- The same entries are created, called and marked in both histories, if `σ` says which is
which. -/
structure Alike (σ : Equiv.Perm Nat) (cs cs' : List Change) : Prop where
  created : ∀ i, ((created cs')[σ i]?).map (·.flags) = ((created cs)[i]?).map (·.flags)
  calls : ∀ i j, .addCall (σ i) (σ j) ∈ cs' ↔ .addCall i j ∈ cs
  marks : ∀ k i, (∃ c ∈ cs', c.marked? = some (k, σ i)) ↔ ∃ c ∈ cs, c.marked? = some (k, i)

theorem Kept.calls_iff (kept : Kept cs work d) : d.Calls i j ↔ .addCall i j ∈ cs := by
  constructor
  · rintro ⟨e, found, isCallee⟩
    exact (kept.callees i e found j).1 isCallee
  · intro called
    obtain ⟨e, found⟩ := get?_of_lt (kept.calls_lt i j called).1
    exact ⟨e, found, (kept.callees i e found j).2 called⟩

/-- An entry takes the marks that it was created to take. -/
theorem Kept.takes_iff (kept : Kept cs work d) (k : Mark) :
    CreatedWith cs (·.takes k) i ↔ ∃ e, d.get? i = some e ∧ e.flags.takes k = true := by
  constructor
  · rintro ⟨e0, first, taken⟩
    obtain ⟨e, found⟩ := get?_of_lt (d := d) (i := i)
      (kept.size ▸ (List.getElem?_eq_some_iff.1 first).1)
    exact ⟨e, found, ((kept.gains i e e0 found first).takes k).trans taken⟩
  · rintro ⟨e, found, taken⟩
    have first := List.getElem?_eq_getElem (kept.size ▸ get?_lt found : i < (created cs).length)
    exact ⟨_, first, ((kept.gains i e _ found first).takes k).symm.trans taken⟩

theorem Kept.flows_eq (kept : Kept cs work d) (k : Mark) :
    Flows cs k = fun i j => d.Calls i j ∧ ∃ e, d.get? i = some e ∧ e.flags.takes k = true := by
  funext i j
  rw [Flows, kept.takes_iff, kept.calls_iff]

/-- A mark that flows into all callers flows along all calls. -/
theorem Kept.flows_of_takes (kept : Kept cs work d) (all : ∀ f : EntryFlags, f.takes k = true) :
    Flows cs k = d.Calls := by
  rw [kept.flows_eq]
  funext i j
  refine propext (and_iff_left_of_imp ?_)
  rintro ⟨e, found, -⟩
  exact ⟨e, found, all _⟩

theorem Kept.closed (kept : Kept cs [] d) : Closed cs d where
  recorded := fun i j => kept.calls_iff
  converse := by
    intro i j
    rw [kept.calls_iff]
    constructor
    · intro called
      obtain ⟨f, present⟩ := get?_of_lt (kept.calls_lt i j called).2
      exact ⟨f, present, (kept.callers j f present i).2 called⟩
    · rintro ⟨f, present, isCaller⟩
      exact (kept.callers j f present i).1 isCaller
  interpreterOnly := by
    intro i e found
    have reaches : e.flags.interpreterOnly = true ↔ Reaches cs .interpreterOnly i :=
      kept.has_iff (k := .interpreterOnly) found
    rw [reaches, Reaches, kept.flows_of_takes fun _ => rfl]
    simp only [Originates, EntryFlags.has, Change.exists_marked_interpreterOnly]
  definitionOnly := by
    intro i e found
    have reaches : e.flags.definitionOnly = true ↔ Reaches cs .definitionOnly i :=
      kept.has_iff (k := .definitionOnly) found
    rw [reaches, Reaches, kept.flows_of_takes fun _ => rfl]
    simp only [Originates, EntryFlags.has, Change.not_exists_marked_definitionOnly, or_false]
  throws := by
    intro i e found
    have reaches : e.flags.throws = true ↔ Reaches cs .throws i := kept.has_iff (k := .throws) found
    rw [reaches, Reaches, kept.flows_eq]
    simp only [Originates, EntryFlags.has, EntryFlags.takes, Change.exists_marked_throws, PassesOn]

namespace Alike

variable {σ : Equiv.Perm Nat}

theorem symm (alike : Alike σ cs cs') : Alike σ.symm cs' cs where
  created := fun i => by rw [← alike.created, Equiv.apply_symm_apply]
  calls := fun i j => by rw [← alike.calls, Equiv.apply_symm_apply, Equiv.apply_symm_apply]
  marks := fun k i => by rw [← alike.marks, Equiv.apply_symm_apply]

theorem createdWith (alike : Alike σ cs cs') {flag : EntryFlags → Bool}
    (first : CreatedWith cs flag i) : CreatedWith cs' flag (σ i) := by
  obtain ⟨e, found, set⟩ := first
  have same := alike.created i
  rw [found] at same
  obtain ⟨e', found', flags⟩ := Option.map_eq_some_iff.1 same
  exact ⟨e', found', flags ▸ set⟩

theorem reaches (alike : Alike σ cs cs') (reached : Reaches cs k i) : Reaches cs' k (σ i) := by
  obtain ⟨j, path, originates⟩ := reached
  refine ⟨σ j, path.lift σ fun a b flows => ?_, ?_⟩
  · exact ⟨(alike.calls a b).2 flows.1, alike.createdWith flows.2⟩
  · rcases originates with first | marked
    · exact Or.inl (alike.createdWith first)
    · exact Or.inr ((alike.marks k j).2 marked)

theorem reaches_iff (alike : Alike σ cs cs') : Reaches cs' k (σ i) ↔ Reaches cs k i := by
  refine ⟨fun reached => ?_, alike.reaches⟩
  have back := alike.symm.reaches reached
  rwa [Equiv.symm_apply_apply] at back

/-- Histories that differ only in their order leave the same flags. -/
theorem flags_eq (alike : Alike σ cs cs') (kept : Kept cs [] d) (kept' : Kept cs' [] d') (i : Nat) :
    (d'.get? (σ i)).map (·.flags) = (d.get? i).map (·.flags) := by
  have same := alike.created i
  cases found : d.get? i with
  | none =>
    have beyond : d.size ≤ i := Array.getElem?_eq_none_iff.1 found
    have uncreated : (Dictionary.created cs)[i]? = none :=
      List.getElem?_eq_none (kept.size ▸ beyond)
    rw [uncreated, Option.map_none, Option.map_eq_none_iff, List.getElem?_eq_none_iff,
      ← kept'.size] at same
    have absent : d'.get? (σ i) = none := Array.getElem?_eq_none same
    rw [absent]
  | some e =>
    have bound : i < (Dictionary.created cs).length := kept.size ▸ get?_lt found
    have first := List.getElem?_eq_getElem bound
    rw [first] at same
    obtain ⟨e0', first', flags⟩ := Option.map_eq_some_iff.1 same
    obtain ⟨e', found'⟩ := get?_of_lt (d := d') (i := σ i)
      (kept'.size ▸ (List.getElem?_eq_some_iff.1 first').1)
    have gains := kept.gains i e _ found first
    have gains' := kept'.gains (σ i) e' e0' found' first'
    rw [found', Option.map_some, Option.map_some, Option.some.injEq]
    apply EntryFlags.ext_has
    · intro k
      rw [Bool.eq_iff_iff, kept.has_iff found, kept'.has_iff found', alike.reaches_iff]
    · rw [gains.autoTry, gains'.autoTry, flags]
    · rw [gains.quiet, gains'.quiet, flags]

/-- In two orders that create alike. -/
theorem of_perm (perm : cs.Perm cs') (same : Dictionary.created cs = Dictionary.created cs') :
    Alike (Equiv.refl Nat) cs cs' where
  created := fun i => by rw [same]; rfl
  calls := fun i j => perm.mem_iff.symm
  marks := fun k i => by simp only [perm.mem_iff, Equiv.refl_apply]

end Alike

/-- However entries are created, called, published and marked, their flags are the closure of what
they were created and marked with.  So the order does not matter.  The worklist by which the flags
flow runs out on every call graph, whichever entry is taken next, and `propagate` follows it to the
end. -/
theorem flags_reachability :
    (∀ cs d, History cs d → Closed cs d) ∧
    (∀ σ cs cs' d d', History cs d → History cs' d' → Alike σ cs cs' →
      ∀ i, (d'.get? (σ i)).map (·.flags) = (d.get? i).map (·.flags)) ∧
    (WellFounded fun s' s => Round s s') ∧
    ∀ d id, Relation.ReflTransGen Round (d, [id]) (d.propagate id, []) :=
  ⟨fun _ _ history => history.kept.closed,
    fun _ _ _ _ _ history history' alike => alike.flags_eq history.kept history'.kept,
    round_wellFounded, rounds_propagate⟩

theorem History.steps (history : History cs d) (more : List Change)
    (fit : Change.fitAll more d = true) : History (cs ++ more) (more.foldl Change.apply d) := by
  induction more generalizing cs d with
  | nil => rwa [List.append_nil]
  | cons c more ih =>
    rw [Change.fitAll, Bool.and_eq_true, decide_eq_true_eq] at fit
    rw [List.append_cons]
    exact ih (history.step c fit.1) fit.2

/-- Two entries that call each other, a third that calls one of them without passing errors on, and
a fourth that is called, marked before or after the calls are recorded. -/
theorem flags_reachability_cyclic :
    ∃ cs cs' d d', History cs d ∧ History cs' d' ∧ cs ≠ cs' ∧ Alike (Equiv.refl Nat) cs cs' ∧
      Closed cs d ∧ (d.Calls 0 1 ∧ d.Calls 1 0) ∧
      (∀ i, (d'.get? i).map (·.flags) = (d.get? i).map (·.flags)) ∧
      d.entries.toList.map (fun e =>
        (e.flags.throws, e.flags.definitionOnly, e.flags.interpreterOnly))
        = [(true, true, true), (true, true, true), (false, true, true), (false, true, false)] := by
  let word (flags : EntryFlags) : Change :=
    .create { name := "w", kind := .intrinsic 0, inputs := 0, outputs := 0, flags } ⟨rfl, rfl⟩
  let words : List Change := [word { autoTry := true }, word { autoTry := true }, word {},
    word { autoTry := true, definitionOnly := true }]
  let cs := words ++ [.addCall 0 1, .addCall 1 0, .addCall 2 0, .addCall 1 3, .markThrows 1,
    .publish 0, .markInterpreterOnly 0]
  let cs' := words ++ [.markInterpreterOnly 0, .addCall 1 3, .markThrows 1, .addCall 2 0,
    .addCall 1 0, .addCall 0 1, .publish 0]
  have history := History.empty.steps cs (by decide +kernel)
  have history' := History.empty.steps cs' (by decide +kernel)
  have flags : ((cs.foldl Change.apply {}).entries.toList.map fun e =>
      (e.flags.throws, e.flags.definitionOnly, e.flags.interpreterOnly)) =
      [(true, true, true), (true, true, true), (false, true, true), (false, true, false)] := by
    decide +kernel
  have alike : Alike (Equiv.refl Nat) cs cs' := .of_perm (by decide +kernel) rfl
  have other : cs ≠ cs' := by decide +kernel
  have calls : .addCall 0 1 ∈ cs ∧ .addCall 1 0 ∈ cs := by decide +kernel
  generalize cs.foldl Change.apply {} = d at history flags
  generalize cs'.foldl Change.apply {} = d' at history'
  have closed := flags_reachability.1 _ _ history
  exact ⟨cs, cs', d, d', history, history', other, alike, closed,
    ⟨(closed.recorded 0 1).2 calls.1, (closed.recorded 1 0).2 calls.2⟩,
    flags_reachability.2.1 _ _ _ _ _ history history' alike, flags⟩

end Dictionary

end ForthJit
