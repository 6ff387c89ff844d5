import ForthJit.Proofs.Compiler.Ended

/-!
# Bodies offered for inlining

Whether a body may be copied is decided when its word is finished, and asked again at each call.
`Compiler.Offering` is the invariant that the answers agree: a body that is offered can be copied,
since the flags of a finished word never change.
-/

namespace ForthJit

namespace Entry

/-- The code of the entry, if it is offered for inlining, can be copied. -/
def Offered (e : Entry) : Prop :=
  ∀ code, e.kind = .compiled code → code.inlinable = true →
    code.inlineRefusal? e.flags.throws = none

/-- The code of the entry is not offered for inlining. -/
def Withheld (e : Entry) : Prop := ∀ code, e.kind = .compiled code → code.inlinable = false

variable {e e' : Entry}

theorem Withheld.offered (withheld : e.Withheld) : e.Offered := by
  intro code kind inlinable
  rw [withheld code kind] at inlinable
  cases inlinable

theorem Withheld.of_kind (withheld : e.Withheld) (kind : e'.kind = e.kind) : e'.Withheld :=
  fun code compiled => withheld code (kind.symm.trans compiled)

theorem Offered.of_same (offered : e.Offered) (kind : e'.kind = e.kind)
    (throws : e'.flags.throws = e.flags.throws) : e'.Offered := by
  intro code compiled inlinable
  rw [throws]
  exact offered code (kind.symm.trans compiled) inlinable

end Entry

/-- The code of a finished word is offered only if it can be copied. -/
theorem Emit.finish_offers {throws : Bool} {settings : Settings} {d d' : Draft} {f : Finished}
    (ok : Emit.finish throws settings d = .ok f d') (inlinable : f.code.inlinable = true) :
    f.code.inlineRefusal? throws = none := by
  obtain ⟨laid, d1, -, rest⟩ := bind_ok.1 ok
  obtain ⟨w, d2, -, rest⟩ := bind_ok.1 rest
  obtain ⟨_, d3, -, rest⟩ := bind_ok.1 rest
  obtain ⟨s, d4, -, rest⟩ := bind_ok.1 rest
  cases rest
  simp only [Bool.and_eq_true, Option.isNone_iff_eq_none] at inlinable
  exact inlinable.1

namespace Compiler

variable {b c : Compiler}

/-- What a compiler offers for inlining can be copied; it offers nothing of the open definition. -/
structure Offering (b c : Compiler) : Prop where
  follows : b.Follows c
  offered : ∀ i e, c.dictionary.get? i = some e → e.Offered
  withheld : ∀ w, c.definition = some w → ∀ e, c.dictionary.get? w.entry = some e → e.Withheld

theorem Offering.of_dictionary {c' : Compiler} (offering : Offering b c) (follows : b.Follows c')
    (dictionary : c'.dictionary = c.dictionary)
    (definition : ∀ w', c'.definition = some w' → ∃ w, c.definition = some w ∧ w.entry = w'.entry) :
    Offering b c' where
  follows := follows
  offered := dictionary ▸ offering.offered
  withheld := by
    intro w' isOpen' e found
    obtain ⟨w, isOpen, entry⟩ := definition w' isOpen'
    rw [dictionary, ← entry] at found
    exact offering.withheld w isOpen e found

theorem offered_truncate {d : Dictionary} (wellFormed : d.WellFormed)
    (offered : ∀ i e, d.get? i = some e → e.Offered) (n : Nat) :
    ∀ i e', (d.truncate n).get? i = some e' → e'.Offered := by
  intro i e' found
  rw [Dictionary.get?_truncate wellFormed] at found
  split at found
  · obtain ⟨e, present, rfl⟩ := Option.map_eq_some_iff.1 found
    exact (offered i e present).of_same rfl rfl
  · cases found

theorem Offering.restore (offering : Offering b c) {s : Snapshot}
    (entries : b.dictionary.size ≤ s.entries) (mark : b.heap.CoveredBy s.heap) :
    Offering b (c.restore s) where
  follows := offering.follows.restore entries mark
  offered := offered_truncate offering.follows.dictionary offering.offered s.entries
  withheld := fun w isOpen => by cases isOpen

/-- Work on the open definition changes the flags of no other entry. -/
theorem offering_invariant (b : Compiler) : BodyInvariant (Offering b) where
  heap := fun offering grows =>
    offering.of_dictionary ((follows_invariant b).heap offering.follows grows) rfl
      fun w isOpen => ⟨w, isOpen, rfl⟩
  draft := by
    intro c w d offering isOpen confined
    refine offering.of_dictionary ((follows_invariant b).draft offering.follows isOpen confined) rfl
      ?_
    intro w' same
    obtain rfl := Option.some.inj same
    have inside := confined b.heap w
      ⟨offering.follows.heap, rfl, rfl, rfl, (offering.follows.definition w isOpen).slots⟩
    exact ⟨w, isOpen, inside.word.entry.symm⟩
  addCall := by
    intro c w id offering isOpen bound
    have newest := (offering.follows.definition w isOpen).newest
    have older : id ≤ w.entry := by omega
    obtain ⟨-, flagged⟩ := offering.follows.dictionary.addCall newest.symm older
    -- The code of every entry is as before, and so are the flags of all but the newest.
    have kind : ∀ i e', (c.dictionary.addCall w.entry id).get? i = some e' →
        ∃ e, c.dictionary.get? i = some e ∧ e'.kind = e.kind := by
      intro i e' found'
      obtain ⟨e1, found1, core1⟩ := flagged.core found'
      obtain ⟨e, found, core, -⟩ := Dictionary.link_view found1
      exact ⟨e, found, (congrArg Entry.kind (core1.trans core) :)⟩
    have withheld : ∀ e', (c.dictionary.addCall w.entry id).get? w.entry = some e' →
        e'.Withheld := by
      intro e' found'
      obtain ⟨e, found, same⟩ := kind w.entry e' found'
      exact (offering.withheld w isOpen e found).of_kind same
    refine ⟨(follows_invariant b).addCall offering.follows isOpen bound, ?_, ?_⟩
    · intro i e' found'
      by_cases own : i = w.entry
      · rw [own] at found'
        exact (withheld e' found').offered
      · have linked := (flagged.others i own).symm.trans found'
        obtain ⟨e, found, core, flags, -⟩ := Dictionary.link_view linked
        exact (offering.offered i e found).of_same (congrArg Entry.kind core :)
          (congrArg EntryFlags.throws flags)
    · intro w' same
      obtain rfl := Option.some.inj (isOpen.symm.trans same)
      exact withheld

/-- A new entry that offers nothing. -/
theorem offered_create {e : Entry} (offered : ∀ i e, c.dictionary.get? i = some e → e.Offered)
    (new : e.Withheld) : ∀ i e', (c.dictionary.create e).get? i = some e' → e'.Offered := by
  intro i e' found
  rw [Dictionary.get?_create] at found
  split at found
  · obtain rfl := Option.some.inj found
    exact new.offered
  · exact offered i e' found

theorem offered_publish {d : Dictionary} (offered : ∀ i e, d.get? i = some e → e.Offered)
    (id : EntryId) : ∀ i e', (d.publish id).get? i = some e' → e'.Offered := by
  intro i e' found'
  obtain ⟨e, found, rfl | rfl⟩ := Dictionary.publish_view found'
  · exact offered i e' found
  · exact (offered i e found).of_same rfl rfl

/-- A definition that begins offers nothing. -/
theorem Offering.begun (offering : Offering b c) {name : String} {signature : Signature}
    {heap : CodeHeap} (follows : b.Follows (c.begun name signature heap)) :
    Offering b (c.begun name signature heap) := by
  have new : ∀ {code : CompiledWord} {e : Entry}, code.inlinable = false →
      e.kind = .compiled code → e.Withheld := by
    intro code e hidden kind code' kind'
    cases kind.symm.trans kind'
    exact hidden
  refine ⟨follows, offered_create offering.offered (new rfl rfl), fun w isOpen e found => ?_⟩
  obtain rfl := Option.some.inj isOpen
  replace found : (c.dictionary.create _).get? c.dictionary.size = some e := found
  rw [Dictionary.get?_create, if_pos rfl] at found
  obtain rfl := Option.some.inj found
  exact new rfl rfl

/-- A finished word throws exactly if it was laid out as one that throws. -/
theorem Offering.ended (offering : Offering b c) {w : Definition} (isOpen : c.definition = some w)
    {f : Finished} (copyable : f.code.inlinable = true →
      f.code.inlineRefusal? (c.throwing w) = none) :
    ∀ i e', (c.ended w.entry (c.throwing w) f).dictionary.get? i = some e' → e'.Offered := by
  have newest := (offering.follows.definition w isOpen).newest
  refine offered_publish (fun i e' found' => ?_) w.entry
  by_cases own : i = w.entry
  · subst own
    obtain ⟨e, before⟩ := Dictionary.get?_of_lt (show w.entry < c.dictionary.size from newest ▸
      Nat.lt_succ_self _)
    obtain ⟨flags, coded, throws, -⟩ := coded_view (c.throwing w) f offering.follows.dictionary
      newest.symm before
    obtain rfl := Option.some.inj (coded.symm.trans found')
    intro code kind inlinable
    cases kind
    have thrown : flags.throws = c.throwing w := by
      rw [throws, throwing, before, Bool.or_assoc]
      exact congrArg _ (Bool.or_self _)
    show f.code.inlineRefusal? flags.throws = none
    rw [thrown]
    exact copyable inlinable
  · refine offering.offered i e' ?_
    have updated : (c.dictionary.update w.entry fun e =>
        { e with kind := .compiled f.code, clobbers := f.clobbers }).get? i =
          c.dictionary.get? i := by
      rw [Dictionary.get?_update, if_neg (Ne.symm own)]
    rw [← updated]
    unfold coded at found'
    cases throwing : c.throwing w with
    | false =>
      rw [throwing] at found'
      exact found'
    | true =>
      rw [throwing] at found'
      have size : w.entry + 1 = (c.dictionary.update w.entry fun e =>
          { e with kind := .compiled f.code, clobbers := f.clobbers }).size := by
        rw [Dictionary.size_update]
        exact newest.symm
      have wellFormed : (c.dictionary.update w.entry fun e =>
          { e with kind := .compiled f.code, clobbers := f.clobbers }).WellFormed :=
        offering.follows.dictionary.update fun _ => ⟨rfl, rfl, rfl, rfl, rfl⟩
      exact ((wellFormed.markThrows size).2.others i own).symm.trans found'

/-- An entry without code here. -/
theorem Offering.entered (offering : Offering b c) (idle : c.definition = none) {e : Entry}
    (callers : e.callers = []) (callees : e.callees = []) (hidden : e.visible = false)
    (foreign : e.compiled? = none) : Offering b (c.entered e) := by
  refine ⟨offering.follows.entered idle callers callees hidden,
    offered_publish (offered_create offering.offered fun code kind => ?_) _, fun w isOpen => ?_⟩
  · rw [Entry.compiled?, kind] at foreign
    cases foreign
  · replace isOpen : c.definition = some w := isOpen
    rw [idle] at isOpen
    cases isOpen

theorem offering_session (b : Compiler) : SessionInvariant (fun _ => True) (Offering b) :=
  { offering_invariant b with
    plain := fun _ _ => trivial
    worked := fun offering worked => worked.keeps (offering_invariant b) offering
    ended := fun offering isOpen done drafted =>
      ⟨(follows_session b).ended offering.follows isOpen done drafted.follows,
        offering.ended isOpen fun inlinable => Emit.finish_offers done inlinable,
        fun _ isOpen => by cases isOpen⟩
    restore := fun offering isOpen offering' =>
      have since := offering.follows.definition _ isOpen
      offering'.restore since.entries since.mark
    begun := fun offering idle emitted =>
      offering.begun ((follows_session b).begun offering.follows idle emitted)
    unbegun := fun offering full => offering.of_dictionary
      ((follows_session b).unbegun offering.follows full) rfl fun w isOpen => ⟨w, isOpen, rfl⟩
    entered := fun offering idle callers callees hidden foreign =>
      offering.entered idle callers callees hidden foreign
    back := fun offering _ offering' =>
      offering'.restore offering.follows.entries.size offering.follows.heap.covered }

theorem create_offering {host : Host} {s : Settings} (created : create host s = .ok c) :
    ∃ b : Compiler, Offering b c := by
  obtain ⟨heap, stackCells, thunk, consistent, defined⟩ := create_builtIn created
  have start : Offering (wordless s heap stackCells thunk) (wordless s heap stackCells thunk) :=
    ⟨.refl consistent Dictionary.wellFormed_empty rfl, fun i e found => (by cases found),
      fun w isOpen => by cases isOpen⟩
  exact ⟨_, (offering_session _).builtIn.of_ok ⟨start, rfl⟩ defined⟩

end Compiler

end ForthJit
