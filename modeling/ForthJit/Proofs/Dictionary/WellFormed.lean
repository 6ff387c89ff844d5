import ForthJit.Dictionary.Basic
import Mathlib

/-!
# Well-formed dictionaries

Only the newest entry is ever completed: it is created hidden, calls older entries or itself, is
marked as throwing and is bound to its name.  So an entry is called by itself and by newer entries
only, its callers already have the flags it passes on, and the bindings are those of the visible
entries in order of age.  `Dictionary.WellFormed` says this, and every step of the newest entry
keeps it.
-/

namespace ForthJit

theorem filter_insertAscending {p : EntryId → Bool} {id : EntryId} (out : p id = false)
    (ids : List EntryId) : (insertAscending id ids).filter p = ids.filter p := by
  induction ids with
  | nil => simp [insertAscending, out]
  | cons i rest ih =>
    unfold insertAscending
    split
    · simp [out]
    · split
      · rfl
      · simp only [List.filter_cons, ih]

namespace Dictionary

/-! ## Views of the updates -/

theorem get?_update (d : Dictionary) (id i : EntryId) (f : Entry → Entry) :
    (d.update id f).get? i = if id = i then (d.get? i).map f else d.get? i := by
  simp only [get?, update, Array.getElem?_modify]

@[simp] theorem size_update (d : Dictionary) (id : EntryId) (f : Entry → Entry) :
    (d.update id f).size = d.size := by
  simp [size, update]

theorem get?_create (d : Dictionary) (e : Entry) (i : EntryId) :
    (d.create e).get? i = if i = d.size then some e else d.get? i := by
  exact Array.getElem?_push

@[simp] theorem size_create (d : Dictionary) (e : Entry) : (d.create e).size = d.size + 1 := by
  simp [size, create]

variable {d d' : Dictionary} {i w : EntryId} {e : Entry} {f : EntryFlags}

theorem get?_lt (found : d.get? i = some e) : i < d.size := by
  obtain ⟨bound, -⟩ := Array.getElem?_eq_some_iff.mp found
  exact bound

theorem get?_of_lt (bound : i < d.size) : ∃ e, d.get? i = some e :=
  ⟨_, Array.getElem?_eq_getElem bound⟩

/-- An entry that one of two dictionaries of the same size lacks, the other lacks too. -/
theorem get?_none (size : d'.size = d.size) (absent : d'.get? i = none) : d.get? i = none := by
  have outside : d'.size ≤ i := Array.getElem?_eq_none_iff.1 absent
  rw [size] at outside
  exact Array.getElem?_eq_none outside

theorem bindingsOf_append (entries : List Entry) (e : Entry) :
    bindingsOf (entries ++ [e]) =
      if e.visible then bind (bindingsOf entries) e.name entries.length
        else bindingsOf entries := by
  simp [bindingsOf, List.zipIdx_append]

/-! ## Flags -/

theorem inherit_self (f : EntryFlags) : inherit f f = f := by
  rcases f with ⟨_ | _, _ | _, _, _, _⟩ <;> simp [inherit]

/-- No flag that flows is lost, and the others stay. -/
structure Gains (f f' : EntryFlags) : Prop where
  throws : f.throws = true → f'.throws = true
  definitionOnly : f.definitionOnly = true → f'.definitionOnly = true
  interpreterOnly : f.interpreterOnly = true → f'.interpreterOnly = true
  autoTry : f'.autoTry = f.autoTry
  quiet : f'.quiet = f.quiet

theorem Gains.refl (f : EntryFlags) : Gains f f := ⟨id, id, id, rfl, rfl⟩

theorem Gains.trans {f' f'' : EntryFlags} (first : Gains f f') (second : Gains f' f'') :
    Gains f f'' :=
  ⟨second.throws ∘ first.throws, second.definitionOnly ∘ first.definitionOnly,
    second.interpreterOnly ∘ first.interpreterOnly, second.autoTry.trans first.autoTry,
    second.quiet.trans first.quiet⟩

theorem gains_inherit (g f : EntryFlags) : Gains f (inherit g f) := by
  constructor <;> simp_all [inherit]

/-- `inherit g f = f` says that `f` has every flag it should take from `g`. -/
theorem inherit_eq_iff {g : EntryFlags} :
    inherit g f = f ↔
      (g.throws = true → f.autoTry = true → f.throws = true) ∧
        (g.definitionOnly = true → f.definitionOnly = true) ∧
          (g.interpreterOnly = true → f.interpreterOnly = true) := by
  rcases f with ⟨_, _, _, _, _⟩
  simp [inherit]

theorem Gains.settled {g f' : EntryFlags} (gains : Gains f f') (settled : inherit g f = f) :
    inherit g f' = f' := by
  rw [inherit_eq_iff] at settled ⊢
  refine ⟨fun throws passes => ?_, fun flag => ?_, fun flag => ?_⟩
  · exact gains.throws (settled.1 throws (gains.autoTry ▸ passes))
  · exact gains.definitionOnly (settled.2.1 flag)
  · exact gains.interpreterOnly (settled.2.2 flag)

theorem inherit_inherit (g f : EntryFlags) : inherit g (inherit g f) = inherit g f := by
  rw [inherit_eq_iff]
  simp_all [inherit]

/-! ## Passing flags to the newest entry -/

/-- `d'` is `d` with more flags on entry `w`. -/
structure Flagged (w : EntryId) (d d' : Dictionary) : Prop where
  bindings : d'.bindings = d.bindings
  size : d'.size = d.size
  others : ∀ i, i ≠ w → d'.get? i = d.get? i
  newest : ∀ e, d.get? w = some e →
    ∃ flags, Gains e.flags flags ∧ d'.get? w = some { e with flags }

theorem Flagged.refl (w : EntryId) (d : Dictionary) : Flagged w d d :=
  ⟨rfl, rfl, fun _ _ => rfl, fun e found => ⟨e.flags, .refl _, found⟩⟩

theorem Flagged.trans {d'' : Dictionary} (first : Flagged w d d') (second : Flagged w d' d'') :
    Flagged w d d'' where
  bindings := second.bindings.trans first.bindings
  size := second.size.trans first.size
  others := fun i other => (second.others i other).trans (first.others i other)
  newest := by
    intro e found
    obtain ⟨flags1, gains1, found1⟩ := first.newest e found
    obtain ⟨flags2, gains2, found2⟩ := second.newest _ found1
    exact ⟨flags2, gains1.trans gains2, found2⟩

theorem Flagged.update (set : EntryFlags → EntryFlags) (gains : ∀ f, Gains f (set f)) :
    Flagged w d (d.update w fun e => { e with flags := set e.flags }) where
  bindings := rfl
  size := size_update ..
  others := fun i other => by rw [get?_update, if_neg (Ne.symm other)]
  newest := fun e found => ⟨set e.flags, gains _, by rw [get?_update, if_pos rfl, found]; rfl⟩

/-- No entry comes or goes. -/
theorem Flagged.view (flagged : Flagged w d d') {e' : Entry} (found' : d'.get? i = some e') :
    ∃ e flags, d.get? i = some e ∧ Gains e.flags flags ∧ e' = { e with flags } := by
  by_cases newest : i = w
  · subst newest
    obtain ⟨e, found⟩ := get?_of_lt (flagged.size ▸ get?_lt found')
    obtain ⟨flags, gains, now⟩ := flagged.newest e found
    exact ⟨e, flags, found, gains, Option.some.inj (found'.symm.trans now)⟩
  · exact ⟨e', e'.flags, flagged.others i newest ▸ found', .refl _, rfl⟩

/-- Every caller already has the flags that flow to it. -/
def Settled (d : Dictionary) : Prop :=
  ∀ i e, d.get? i = some e → ∀ j ∈ e.callers, ∀ f, d.get? j = some f →
    inherit e.flags f.flags = f.flags

/-- Passing flags on changes the flags of the callers and nothing else. -/
theorem get?_passOn (flags : EntryFlags) (callers : List EntryId) (d : Dictionary) (i : EntryId) :
    (d.passOn flags callers).1.get? i = (d.get? i).map fun e =>
      if i ∈ callers then { e with flags := inherit flags e.flags } else e := by
  induction callers generalizing d with
  | nil => simp [passOn]
  | cons caller rest ih =>
    rw [passOn]
    cases found : d.get? caller with
    | none =>
      refine (ih d).trans ?_
      cases present : d.get? i with
      | none => rfl
      | some f =>
        have other : i ≠ caller := by
          rintro rfl
          cases found.symm.trans present
        simp [other]
    | some e =>
      by_cases same : inherit flags e.flags = e.flags
      · simp only [same, if_true, ih]
        cases present : d.get? i with
        | none => rfl
        | some f =>
          by_cases isCaller : i = caller
          · subst isCaller
            obtain rfl := Option.some.inj (found.symm.trans present)
            simp [same]
          · simp [isCaller]
      · simp only [same, if_false, ih, get?_update]
        by_cases isCaller : i = caller
        · subst isCaller
          simp [found, inherit_inherit]
        · simp [isCaller, Ne.symm isCaller]

theorem passOn_leaves (flags : EntryFlags) (callers : List EntryId) (d : Dictionary) :
    (d.passOn flags callers).1.size = d.size ∧
      (d.passOn flags callers).1.bindings = d.bindings := by
  induction callers generalizing d with
  | nil => exact ⟨rfl, rfl⟩
  | cons caller rest ih =>
    rw [passOn]
    cases d.get? caller with
    | none => exact ih d
    | some e =>
      dsimp only
      split
      · exact ih d
      · exact ⟨(ih _).1.trans (size_update ..), (ih _).2⟩

/-- When every caller but `w` has the flags already, only `w` takes them. -/
theorem passOn_flagged (flags : EntryFlags) (callers : List EntryId) (d : Dictionary)
    (settled : ∀ j ∈ callers, j ≠ w → ∀ f, d.get? j = some f → inherit flags f.flags = f.flags) :
    Flagged w d (d.passOn flags callers).1 := by
  refine ⟨(passOn_leaves ..).2, (passOn_leaves ..).1, fun i other => ?_, fun e found => ?_⟩
  · rw [get?_passOn]
    cases found : d.get? i with
    | none => rfl
    | some e =>
      by_cases isCaller : i ∈ callers
      · simp [settled i isCaller other e found]
      · simp [isCaller]
  · rw [get?_passOn, found, Option.map_some]
    split
    · exact ⟨_, gains_inherit flags e.flags, rfl⟩
    · exact ⟨_, .refl _, rfl⟩

theorem passOn_settled {flags : EntryFlags} {callers : List EntryId}
    (settled : ∀ j ∈ callers, ∀ f, d.get? j = some f → inherit flags f.flags = f.flags) :
    d.passOn flags callers = (d, []) := by
  induction callers with
  | nil => rfl
  | cons caller rest ih =>
    have rest_settled := ih fun j member => settled j (List.mem_cons_of_mem _ member)
    rw [passOn]
    cases found : d.get? caller with
    | none => exact rest_settled
    | some e =>
      simp only [settled caller List.mem_cons_self e found, if_true]
      exact rest_settled

/-- Where nothing is left to flow, nothing changes. -/
theorem spread_settled (settled : d.Settled) (fuel : Nat) (work : List EntryId) :
    d.spread fuel work = d := by
  induction fuel generalizing work with
  | zero => cases work <;> rfl
  | succ fuel ih =>
    cases work with
    | nil => rfl
    | cons id work =>
      rw [spread]
      cases found : d.get? id with
      | none => exact ih work
      | some e =>
        simp only [passOn_settled (settled id e found)]
        exact ih _

/-- If the flags of `id` are all that `w` lacks, and nothing but `w` itself calls `w`, propagating
them from `id` settles the dictionary and changes only the flags of `w`. -/
theorem propagate_flagged {id : EntryId}
    (nearly : ∀ i e, d.get? i = some e → ∀ j ∈ e.callers, ∀ f, d.get? j = some f →
      i = id ∧ j = w ∨ inherit e.flags f.flags = f.flags)
    (newest : ∀ e, d.get? w = some e → ∀ j ∈ e.callers, j = w) :
    Flagged w d (d.propagate id) ∧ (d.propagate id).Settled := by
  rw [propagate, spread]
  cases source : d.get? id with
  | none =>
    have settled : d.Settled := by
      intro i e found j member f present
      rcases nearly i e found j member f present with ⟨rfl, -⟩ | settled
      · rw [source] at found
        cases found
      · exact settled
    simp only [spread_settled settled]
    exact ⟨.refl w d, settled⟩
  | some e =>
    have flagged : Flagged w d (d.passOn e.flags e.callers).1 := by
      refine passOn_flagged _ _ _ fun j member other f present => ?_
      exact (nearly id e source j member f present).resolve_left fun new => other new.2
    have settled : (d.passOn e.flags e.callers).1.Settled := by
      intro i g found j member f present
      by_cases isNewest : i = w
      · subst isNewest
        obtain ⟨g0, flags, found0, -, rfl⟩ := flagged.view found
        obtain rfl : j = i := newest g0 found0 j member
        obtain rfl := Option.some.inj (found.symm.trans present)
        exact inherit_self _
      · rw [flagged.others i isNewest] at found
        obtain ⟨f0, flags, present0, gains, same⟩ := flagged.view present
        rcases nearly i g found j member f0 present0 with ⟨rfl, rfl⟩ | old
        · obtain rfl := Option.some.inj (source.symm.trans found)
          rw [get?_passOn, present0, Option.map_some, if_pos member] at present
          cases present
          exact inherit_inherit ..
        · rw [same]
          exact gains.settled old
    simp only [spread_settled settled]
    exact ⟨flagged, settled⟩

/-! ## Well-formed dictionaries -/

/-- The bindings are those that the visible entries give. -/
def Bound (d : Dictionary) : Prop := d.bindings = bindingsOf d.entries.toList

theorem bindingsOf_congr {es es' : List Entry}
    (same : es.map (fun e => (e.name, e.visible)) = es'.map fun e => (e.name, e.visible)) :
    bindingsOf es = bindingsOf es' := by
  have view : ∀ es : List Entry, bindingsOf es =
      (es.map fun e => (e.name, e.visible)).zipIdx.foldl
        (fun bindings (e, id) => if e.2 then bind bindings e.1 id else bindings) [] := by
    intro es
    rw [List.zipIdx_map, List.foldl_map]
    rfl
  rw [view, view, same]

theorem Bound.of_same (bound : d.Bound) (bindings : d'.bindings = d.bindings)
    (same : ∀ i, (d'.get? i).map (fun e => (e.name, e.visible)) =
      (d.get? i).map fun e => (e.name, e.visible)) : d'.Bound := by
  rw [Bound, bindings, bound]
  apply bindingsOf_congr
  apply List.ext_getElem?
  intro i
  simpa [get?] using (same i).symm

/-- Calls go from newer entries to older ones or to themselves, flags have flowed, and names are
bound to the visible entries. -/
structure WellFormed (d : Dictionary) : Prop where
  callers : ∀ (i : Nat) e, d.get? i = some e → ∀ j : Nat, j ∈ e.callers → i ≤ j ∧ j < d.size
  callees : ∀ (i : Nat) e, d.get? i = some e → ∀ j : Nat, j ∈ e.callees → j ≤ i
  settled : d.Settled
  bound : d.Bound

theorem wellFormed_empty : WellFormed {} where
  callers := fun i e found => by simp [get?] at found
  callees := fun i e found => by simp [get?] at found
  settled := fun i e found => by simp [get?] at found
  bound := rfl

/-- Nothing but the newest entry itself calls the newest entry. -/
theorem WellFormed.newest (wellFormed : d.WellFormed) {w : Nat} (last : w + 1 = d.size)
    (found : d.get? w = some e) : ∀ j : Nat, j ∈ e.callers → j = w := by
  intro j member
  have := wellFormed.callers w e found j member
  omega

theorem WellFormed.create (wellFormed : d.WellFormed) (callers : e.callers = [])
    (callees : e.callees = []) (hidden : e.visible = false) :
    (d.create e).WellFormed where
  callers := by
    intro i f found j member
    rw [get?_create] at found
    split at found
    · cases found
      simp [callers] at member
    · have := wellFormed.callers i f found j member
      rw [size_create]
      omega
  callees := by
    intro i f found j member
    rw [get?_create] at found
    split at found
    · cases found
      simp [callees] at member
    · exact wellFormed.callees i f found j member
  settled := by
    intro i f found j member g present
    rw [get?_create] at found
    split at found
    · cases found
      simp [callers] at member
    · have inside := (wellFormed.callers i f found j member).2
      rw [get?_create, if_neg (Nat.ne_of_lt inside)] at present
      exact wellFormed.settled i f found j member g present
  bound := by
    have same : (d.create e).entries.toList = d.entries.toList ++ [e] := by
      simp [Dictionary.create]
    rw [Bound, same, bindingsOf_append, hidden]
    exact wellFormed.bound

/-- Calls and flags are all that matters, beside the names. -/
theorem WellFormed.of_same (wellFormed : d.WellFormed) (size : d'.size = d.size)
    (view : ∀ i e', d'.get? i = some e' → ∃ e, d.get? i = some e ∧
      e'.callers = e.callers ∧ e'.callees = e.callees ∧ e'.flags = e.flags) (bound : d'.Bound) :
    d'.WellFormed := by
  refine ⟨?_, ?_, ?_, bound⟩
  · intro i e' found' j member
    obtain ⟨e, found, callers, -, -⟩ := view i e' found'
    rw [size]
    exact wellFormed.callers i e found j (callers ▸ member)
  · intro i e' found' j member
    obtain ⟨e, found, -, callees, -⟩ := view i e' found'
    exact wellFormed.callees i e found j (callees ▸ member)
  · intro i e' found' j member g' present'
    obtain ⟨e, found, callers, -, flags⟩ := view i e' found'
    obtain ⟨g, present, -, -, flags'⟩ := view j g' present'
    rw [flags, flags']
    exact wellFormed.settled i e found j (callers ▸ member) g present

/-- Changing the code of an entry changes nothing else. -/
theorem WellFormed.update (wellFormed : d.WellFormed) {f : Entry → Entry}
    (same : ∀ e, (f e).name = e.name ∧ (f e).callers = e.callers ∧ (f e).callees = e.callees ∧
      (f e).flags = e.flags ∧ (f e).visible = e.visible) : (d.update w f).WellFormed := by
  apply wellFormed.of_same (size_update ..)
  · intro i e' found
    rw [get?_update] at found
    split at found
    · obtain ⟨e, present, rfl⟩ := Option.map_eq_some_iff.1 found
      exact ⟨e, present, (same e).2.1, (same e).2.2.1, (same e).2.2.2.1⟩
    · exact ⟨e', found, rfl, rfl, rfl⟩
  · refine wellFormed.bound.of_same rfl fun i => ?_
    rw [get?_update]
    split
    · rw [Option.map_map]
      congr 1
      funext e
      simp [(same e).1, (same e).2.2.2.2]
    · rfl

/-- Flags that have flowed to `w` break nothing. -/
theorem WellFormed.flagged
    (callers : ∀ (i : Nat) e, d.get? i = some e → ∀ j : Nat, j ∈ e.callers → i ≤ j ∧ j < d.size)
    (callees : ∀ (i : Nat) e, d.get? i = some e → ∀ j : Nat, j ∈ e.callees → j ≤ i)
    (bound : d.Bound) (flagged : Flagged w d d') (settled : d'.Settled) : d'.WellFormed := by
  refine ⟨?_, ?_, settled, ?_⟩
  · intro i e' found' j member
    obtain ⟨e, flags, found, -, rfl⟩ := flagged.view found'
    rw [flagged.size]
    exact callers i e found j member
  · intro i e' found' j member
    obtain ⟨e, flags, found, -, rfl⟩ := flagged.view found'
    exact callees i e found j member
  · refine bound.of_same flagged.bindings fun i => ?_
    cases found' : d'.get? i with
    | none => rw [get?_none flagged.size found']
    | some e' =>
      obtain ⟨e, flags, found, -, rfl⟩ := flagged.view found'
      rw [found]
      rfl

/-! ## Completing the newest entry -/

/-- A call recorded on both sides, before flags flow. -/
def link (d : Dictionary) (caller callee : EntryId) : Dictionary :=
  (d.update caller fun e => { e with callees := insertAscending callee e.callees }).update callee
    fun e => { e with callers := insertAscending caller e.callers }

theorem addCall_eq (d : Dictionary) (caller callee : EntryId) :
    d.addCall caller callee = (d.link caller callee).propagate callee := rfl

theorem size_spread (fuel : Nat) (work : List EntryId) (d : Dictionary) :
    (d.spread fuel work).size = d.size := by
  induction fuel generalizing work d with
  | zero => cases work <;> rfl
  | succ fuel ih =>
    cases work with
    | nil => rfl
    | cons id work =>
      rw [spread]
      cases d.get? id with
      | none => exact ih work d
      | some e =>
        rw [ih]
        exact (passOn_leaves ..).1

@[simp] theorem size_link (d : Dictionary) (caller callee : EntryId) :
    (d.link caller callee).size = d.size := by
  simp [link]

@[simp] theorem size_addCall (d : Dictionary) (caller callee : EntryId) :
    (d.addCall caller callee).size = d.size := by
  rw [addCall_eq, propagate, size_spread, size_link]

/-- The entry apart from its flags and calls. -/
def core (e : Entry) : Entry := { e with flags := {}, callers := [], callees := [] }

theorem get?_link (d : Dictionary) (caller callee i : EntryId) :
    (d.link caller callee).get? i = (d.get? i).map fun e =>
      { e with
        callees := if caller = i then insertAscending callee e.callees else e.callees
        callers := if callee = i then insertAscending caller e.callers else e.callers } := by
  simp only [link, get?_update]
  cases d.get? i with
  | none => split <;> simp
  | some e =>
    by_cases isCaller : caller = i <;> by_cases isCallee : callee = i <;> simp [isCaller, isCallee]

/-- Linking adds one caller and one callee. -/
theorem link_view {callee : EntryId} {e' : Entry} (found : (d.link w callee).get? i = some e') :
    ∃ e, d.get? i = some e ∧ core e' = core e ∧ e'.flags = e.flags ∧
      (∀ j ∈ e'.callers, j ∈ e.callers ∨ i = callee ∧ j = w) ∧
      ∀ j ∈ e'.callees, j ∈ e.callees ∨ i = w ∧ j = callee := by
  rw [get?_link] at found
  obtain ⟨e, present, rfl⟩ := Option.map_eq_some_iff.1 found
  refine ⟨e, present, rfl, rfl, fun j member => ?_, fun j member => ?_⟩
  · by_cases isCallee : callee = i <;> grind [mem_insertAscending]
  · by_cases isCaller : w = i <;> grind [mem_insertAscending]

/-- More flags leave the rest of an entry. -/
theorem Flagged.core (flagged : Flagged w d d') {e' : Entry} (found' : d'.get? i = some e') :
    ∃ e, d.get? i = some e ∧ Dictionary.core e' = Dictionary.core e := by
  obtain ⟨e, flags, found, -, rfl⟩ := flagged.view found'
  exact ⟨e, found, rfl⟩

/-- A call by the newest entry can be recorded. -/
theorem WellFormed.addCall (wellFormed : d.WellFormed) {w callee : Nat} (last : w + 1 = d.size)
    (older : callee ≤ w) :
    (d.addCall w callee).WellFormed ∧ Flagged w (d.link w callee) (d.addCall w callee) := by
  obtain ⟨flagged, settled⟩ := @propagate_flagged (d.link w callee) w callee (by
    intro i e' found' j member f' present'
    obtain ⟨e, found, -, flags, callers, -⟩ := link_view found'
    obtain ⟨f, present, -, flags', -, -⟩ := link_view present'
    rw [flags, flags']
    rcases callers j member with old | new
    · exact Or.inr (wellFormed.settled i e found j old f present)
    · exact Or.inl new) (by
    intro e' found' j member
    obtain ⟨e, found, -, -, callers, -⟩ := link_view found'
    rcases callers j member with old | new
    · exact wellFormed.newest last found j old
    · exact new.2)
  refine ⟨WellFormed.flagged ?_ ?_ ?_ flagged settled, flagged⟩
  · intro i e' found' j member
    obtain ⟨e, found, -, -, callers, -⟩ := link_view found'
    rw [size_link]
    rcases callers j member with old | ⟨rfl, rfl⟩
    · exact wellFormed.callers i e found j old
    · omega
  · intro i e' found' j member
    obtain ⟨e, found, -, -, -, callees⟩ := link_view found'
    rcases callees j member with old | ⟨rfl, rfl⟩
    · exact wellFormed.callees i e found j old
    · exact older
  · refine wellFormed.bound.of_same rfl fun i => ?_
    cases found' : (d.link w callee).get? i with
    | some e' =>
      obtain ⟨e, found, same, -⟩ := link_view found'
      rw [found]
      exact congrArg some (Prod.ext (congrArg Entry.name same :) (congrArg Entry.visible same :))
    | none =>
      rw [get?_none (size_link d w callee) found']

/-- The newest entry can be marked as throwing. -/
theorem WellFormed.markThrows (wellFormed : d.WellFormed) {w : Nat} (last : w + 1 = d.size) :
    (d.markThrows w).WellFormed ∧ Flagged w d (d.markThrows w) := by
  rw [Dictionary.markThrows, mark]
  cases found : d.get? w with
  | none => exact ⟨wellFormed, .refl w d⟩
  | some e =>
    by_cases has : e.flags.throws = true
    · simp only [has, if_true]
      exact ⟨wellFormed, .refl w d⟩
    simp only [has]
    have step : Flagged w d
        (d.update w fun e => { e with flags := { e.flags with throws := true } }) :=
      .update ({ · with throws := true }) fun f => ⟨fun _ => rfl, id, id, rfl, rfl⟩
    generalize d.update w (fun e => { e with flags := { e.flags with throws := true } }) =
      d' at step
    obtain ⟨flagged, settled⟩ := @propagate_flagged d' w w (by
      intro i g present j member f present'
      by_cases isNewest : i = w
      · subst isNewest
        obtain ⟨g0, flags, found0, -, rfl⟩ := step.view present
        exact Or.inl ⟨rfl, wellFormed.newest last found0 j member⟩
      · rw [step.others i isNewest] at present
        obtain ⟨f0, flags, found0, gains, rfl⟩ := step.view present'
        exact Or.inr (gains.settled (wellFormed.settled i g present j member f0 found0))) (by
      intro g present j member
      obtain ⟨g0, flags, found0, -, rfl⟩ := step.view present
      exact wellFormed.newest last found0 j member)
    have total := step.trans flagged
    exact ⟨.flagged wellFormed.callers wellFormed.callees wellFormed.bound total settled, total⟩

/-- Binding a name changes no more of an entry than that it can be found. -/
theorem publish_view {e' : Entry} (found' : (d.publish w).get? i = some e') :
    ∃ e, d.get? i = some e ∧ (e' = e ∨ e' = { e with visible := true }) := by
  unfold Dictionary.publish at found'
  split at found'
  · exact ⟨e', found', Or.inl rfl⟩
  · replace found' : (d.update w fun e => { e with visible := true }).get? i = some e' := found'
    rw [get?_update] at found'
    split at found'
    · obtain ⟨e, found, rfl⟩ := Option.map_eq_some_iff.1 found'
      exact ⟨e, found, Or.inr rfl⟩
    · exact ⟨e', found', Or.inl rfl⟩

/-- The newest entry, hidden so far, can be bound to its name. -/
theorem WellFormed.publish (wellFormed : d.WellFormed) {w : Nat} (last : w + 1 = d.size)
    (hidden : ∀ e, d.get? w = some e → e.visible = false) : (d.publish w).WellFormed := by
  obtain ⟨e, found⟩ := get?_of_lt (show w < d.size by omega)
  have published : d.publish w =
      { d.update w (fun e => { e with visible := true }) with
        bindings := bind d.bindings e.name w } := by
    simp only [Dictionary.publish, found]
    rfl
  apply wellFormed.of_same
  · rw [published]
    exact size_update d w _
  · intro i g' present'
    obtain ⟨g, present, rfl | rfl⟩ := publish_view present'
    · exact ⟨_, present, rfl, rfl, rfl⟩
    · exact ⟨g, present, rfl, rfl, rfl⟩
  · -- The newest entry is the last to be bound, so it overrides older ones of its name.
    obtain ⟨older, before, length⟩ : ∃ older, d.entries.toList = older ++ [e] ∧
        older.length = w := by
      have last' : w + 1 = d.entries.size := last
      refine ⟨d.entries.toList.take w, ?_, by simp; omega⟩
      have present := Array.getElem?_eq_some_iff.1 found
      apply List.ext_getElem?
      intro i
      simp only [List.getElem?_append, List.getElem?_take, List.length_take, Array.length_toList]
      grind
    have after : (d.publish w).entries.toList = older ++ [{ e with visible := true }] := by
      have entries : (d.publish w).entries =
          d.entries.modify w fun e => { e with visible := true } := by
        rw [published]
        rfl
      rw [entries, Array.toList_modify, before, ← length]
      apply List.ext_getElem?
      intro i
      simp only [List.getElem?_modify, List.getElem?_append]
      grind
    have bindings : (d.publish w).bindings = bind d.bindings e.name w := by rw [published]
    rw [Bound, bindings, wellFormed.bound, after, before, bindingsOf_append, bindingsOf_append,
      hidden e found, length]
    simp

end Dictionary

end ForthJit
