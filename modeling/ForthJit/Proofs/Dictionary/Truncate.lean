import ForthJit.Proofs.Dictionary.WellFormed

/-!
# Forgetting entries is exact

`Dictionary.truncate` drops the newest entries, cuts their numbers out of the call lists of the
others and rebuilds the bindings from what is visible.  An entry from before differs only in calls
from newer entries (`SharesBelow`), so in a well-formed dictionary this undoes everything that was
done since the dictionary had the given size.
-/

namespace ForthJit

/-- The entry without calls to and from entries at position `n` or above. -/
def Entry.upTo (e : Entry) (n : Nat) : Entry :=
  { e with callers := e.callers.filter (· < n), callees := e.callees.filter (· < n) }

theorem Entry.upTo_upTo (e : Entry) {m n : Nat} (le : n ≤ m) : (e.upTo m).upTo n = e.upTo n := by
  have cut : ∀ ids : List EntryId, (ids.filter (· < m)).filter (· < n) = ids.filter (· < n) := by
    intro ids
    rw [List.filter_filter]
    refine List.filter_congr fun i _ => ?_
    simp only [Bool.and_eq_left_iff_imp, decide_eq_true_eq]
    exact fun low => Nat.lt_of_lt_of_le low le
  simp only [upTo, cut]

namespace Dictionary

variable {d d' : Dictionary}

/-- An entry of a well-formed dictionary mentions no entry beyond the end. -/
theorem WellFormed.upTo_eq (wellFormed : d.WellFormed) {n : Nat} (size : d.size ≤ n) {i : EntryId}
    {e : Entry} (found : d.get? i = some e) : e.upTo n = e := by
  have inside := get?_lt found
  have callers : e.callers.filter (· < n) = e.callers :=
    List.filter_eq_self.2 fun j member => by
      simpa using Nat.lt_of_lt_of_le (wellFormed.callers i e found j member).2 size
  have callees : e.callees.filter (· < n) = e.callees :=
    List.filter_eq_self.2 fun j member => by
      simpa using Nat.lt_of_lt_of_le
        (Nat.lt_of_le_of_lt (wellFormed.callees i e found j member) inside) size
  rw [Entry.upTo, callers, callees]

/-! ## Older entries -/

/-- The first `n` entries, up to calls from newer ones, are the same in `d'` as in `d`. -/
structure SharesBelow (d : Dictionary) (n : Nat) (d' : Dictionary) : Prop where
  size : n ≤ d'.size
  entries : ∀ i < n, (d'.get? i).map (·.upTo n) = (d.get? i).map (·.upTo n)

variable {n : Nat}

theorem SharesBelow.refl (enough : n ≤ d.size) : d.SharesBelow n d :=
  ⟨enough, fun _ _ => rfl⟩

theorem SharesBelow.trans {d'' : Dictionary} (first : d.SharesBelow n d')
    (second : d'.SharesBelow n d'') : d.SharesBelow n d'' :=
  ⟨second.size, fun i low => (second.entries i low).trans (first.entries i low)⟩

theorem SharesBelow.create (enough : n ≤ d.size) (e : Entry) : d.SharesBelow n (d.create e) := by
  refine ⟨?_, fun i low => ?_⟩
  · rw [size_create]
    omega
  · have old : i ≠ d.size := by omega
    rw [get?_create, if_neg old]

theorem SharesBelow.update (enough : n ≤ d.size) {w : Nat} (new : n ≤ w) (f : Entry → Entry) :
    d.SharesBelow n (d.update w f) := by
  refine ⟨?_, fun i low => ?_⟩
  · rwa [size_update]
  · have old : w ≠ i := by omega
    rw [get?_update, if_neg old]

theorem SharesBelow.flagged (enough : n ≤ d.size) {w : Nat} (new : n ≤ w)
    (flagged : Flagged w d d') : d.SharesBelow n d' := by
  refine ⟨?_, fun i low => ?_⟩
  · rwa [flagged.size]
  · have old : i ≠ w := by omega
    rw [flagged.others i old]

theorem SharesBelow.publish (enough : n ≤ d.size) {w : Nat} (new : n ≤ w) :
    d.SharesBelow n (d.publish w) := by
  cases found : d.get? w with
  | none =>
    rw [Dictionary.publish, found]
    exact .refl enough
  | some e =>
    have updated := SharesBelow.update enough new fun e => { e with visible := true }
    have same : ∀ i, (d.publish w).get? i =
        (d.update w fun e => { e with visible := true }).get? i := by
      intro i
      rw [Dictionary.publish, found]
      rfl
    refine ⟨?_, fun i low => ?_⟩
    · have size : (d.publish w).size = (d.update w fun e => { e with visible := true }).size := by
        rw [Dictionary.publish, found]
        rfl
      rw [size]
      exact updated.size
    · rw [same]
      exact updated.entries i low

/-- An older callee gains a caller that is cut away again. -/
theorem SharesBelow.link (enough : n ≤ d.size) {w : Nat} (new : n ≤ w) (callee : EntryId) :
    d.SharesBelow n (d.link w callee) := by
  refine ⟨?_, fun i low => ?_⟩
  · rwa [size_link]
  · have old : w ≠ i := by omega
    simp only [Dictionary.link, get?_update, if_neg old]
    split
    · rw [Option.map_map]
      congr 1
      funext e
      have cut : (insertAscending w e.callers).filter (· < n) = e.callers.filter (· < n) :=
        filter_insertAscending (by simpa using new) e.callers
      simp only [Function.comp, Entry.upTo, cut]
    · rfl

/-! ## Truncation -/

/-- Truncation cuts every entry that it keeps. -/
theorem get?_truncate (wellFormed : d.WellFormed) (i : Nat) :
    (d.truncate n).get? i = if i < n then (d.get? i).map (·.upTo n) else none := by
  rw [truncate]
  split
  next small =>
    cases found : d.get? i with
    | none => simp
    | some e =>
      have inside := get?_lt found
      have low : i < n := Nat.lt_of_lt_of_le inside small
      rw [if_pos low, Option.map_some, wellFormed.upTo_eq small found]
  next large =>
    simp only [get?, Array.getElem?_map, Array.shrink_eq_take, Array.getElem?_extract]
    split
    next low =>
      have inside : i < n := by omega
      rw [if_pos inside, Nat.zero_add]
      rfl
    next high =>
      have outside : ¬ i < n := by
        simp only [size] at large
        omega
      rw [if_neg outside]
      rfl

theorem size_truncate (d : Dictionary) : (d.truncate n).size = min d.size n := by
  rw [truncate]
  split
  next small => omega
  next large => simp [size]; omega

theorem WellFormed.truncate (wellFormed : d.WellFormed) (n : Nat) : (d.truncate n).WellFormed := by
  have view : ∀ (i : Nat) e', (d.truncate n).get? i = some e' →
      ∃ e, d.get? i = some e ∧ e' = e.upTo n := by
    intro i e' found
    rw [get?_truncate wellFormed] at found
    split at found
    · obtain ⟨e, present, rfl⟩ := Option.map_eq_some_iff.1 found
      exact ⟨e, present, rfl⟩
    · cases found
  refine ⟨?_, ?_, ?_, ?_⟩
  · intro i e' found' j member
    obtain ⟨e, found, rfl⟩ := view i e' found'
    simp only [Entry.upTo, List.mem_filter, decide_eq_true_eq] at member
    have := wellFormed.callers i e found j member.1
    have low : j < n := member.2
    rw [size_truncate]
    omega
  · intro i e' found' j member
    obtain ⟨e, found, rfl⟩ := view i e' found'
    exact wellFormed.callees i e found j (List.mem_filter.1 member).1
  · intro i e' found' j member f' present'
    obtain ⟨e, found, rfl⟩ := view i e' found'
    obtain ⟨f, present, rfl⟩ := view j f' present'
    exact wellFormed.settled i e found j (List.mem_filter.1 member).1 f present
  · rw [Dictionary.truncate]
    split
    · exact wellFormed.bound
    · rfl

theorem SharesBelow.truncate (wellFormed : d.WellFormed) {m : Nat} (le : n ≤ m)
    (enough : n ≤ d.size) : d.SharesBelow n (d.truncate m) := by
  refine ⟨?_, fun i low => ?_⟩
  · rw [size_truncate]
    omega
  · have below : i < m := by omega
    rw [get?_truncate wellFormed, if_pos below, Option.map_map]
    congr 1
    funext e
    exact e.upTo_upTo le

/-- Truncating to the size of an earlier dictionary brings that dictionary back. -/
theorem truncate_eq (wellFormed : d.WellFormed) (wellFormed' : d'.WellFormed)
    (shares : d.SharesBelow d.size d') : d'.truncate d.size = d := by
  have entries : ∀ i : Nat, (d'.truncate d.size).get? i = d.get? i := by
    intro i
    rw [get?_truncate wellFormed']
    split
    next low =>
      obtain ⟨e, found⟩ := get?_of_lt low
      rw [shares.entries i low, found, Option.map_some, wellFormed.upTo_eq (Nat.le_refl _) found]
    next high => exact (Array.getElem?_eq_none (Nat.le_of_not_lt high)).symm
  have same : (d'.truncate d.size).entries = d.entries := Array.ext_getElem? entries
  have bindings : (d'.truncate d.size).bindings = d.bindings := by
    rw [(wellFormed'.truncate d.size).bound, same]
    exact wellFormed.bound.symm
  generalize d'.truncate d.size = d'' at same bindings
  cases d
  cases d''
  simp_all

end Dictionary

end ForthJit
