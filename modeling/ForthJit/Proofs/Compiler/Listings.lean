import ForthJit.Compiler.Listing
import ForthJit.Proofs.Compiler.Tiling

/-!
# What listings show

The positions of a word are all known exactly when its definition has ended; before that there is no
listing of it.  A listing shows each word of the code once, in order, and then the literals, each as
a pair of words.
-/

namespace ForthJit

theorem zipIdx_map_range' {α : Type} (f : Nat → α) (start count : Nat) :
    ((List.range' start count).map f).zipIdx start =
      (List.range' start count).map fun i => (f i, i) := by
  induction count generalizing start with
  | zero => rfl
  | succ count ih => simp [List.range'_succ, ih]

theorem CodeHeap.words_toList (h : CodeHeap) {start stop : Nat} (high : stop ≤ h.here) :
    (h.words start stop).toList =
      (List.range' start (stop - start)).map fun i => (h.word? i).getD 0 := by
  unfold here at high
  apply List.ext_getElem
  · simp [words]
    omega
  · intro n low low'
    simp only [List.length_map, List.length_range'] at low'
    simp [words, word?, Array.getElem?_eq_getElem (show start + n < h.staged.size by omega)]

/-- The digits of a group of bytes. -/
def Listing.digits (bytes : List UInt8) : String :=
  String.join (bytes.map fun b => Hex.padded 2 b.toNat)

/-- Words are grouped in pairs. -/
theorem Listing.groups_pairs {f : Nat → List UInt8} (four : ∀ i, (f i).length = 4)
    (start count : Nat) {fuel : Nat} (enough : count ≤ fuel) :
    groups.go fuel ((List.range' start (2 * count)).flatMap f) =
      (List.range count).map fun n => digits (f (start + 2 * n) ++ f (start + 2 * n + 1)) := by
  induction count generalizing start fuel with
  | zero => cases fuel <;> rfl
  | succ count ih =>
    obtain ⟨fuel, rfl⟩ : ∃ more, fuel = more + 1 := ⟨fuel - 1, by omega⟩
    have pair : (f start ++ f (start + 1)).length = 8 := by simp [four]
    have split : (List.range' start (2 * (count + 1))).flatMap f =
        (f start ++ f (start + 1)) ++ (List.range' (start + 2) (2 * count)).flatMap f := by
      simp [Nat.mul_succ, List.range'_succ]
    have some : f start ++ f (start + 1) ++ (List.range' (start + 2) (2 * count)).flatMap f ≠
        [] := by
      intro none
      simp [(List.append_eq_nil_iff.1 none).1] at pair
    rw [split, groups.go, List.take_left' pair, List.drop_left' pair, ih (start + 2) (by omega),
      List.range_succ_eq_map, List.map_cons, List.map_map]
    · congr 2
      funext n
      rw [Function.comp_apply, show start + 2 + 2 * n = start + 2 * n.succ by omega]
    · exact some

namespace Compiler

variable {c : Compiler} {id : EntryId} {e : Entry} {code : CompiledWord} {l : Records}
  {current : List Snapshot}

/-- The line of a literal: its address and the bytes of its two words. -/
def literalLine (h : CodeHeap) (l : WordLayout) (n : Nat) : String :=
  let bytes (i : Nat) := littleEndian 4 ((h.word? i).getD 0).toNat
  let digits := Listing.digits (bytes (l.literals + 2 * n) ++ bytes (l.literals + 2 * n + 1))
  s!"    {Hex.markedPadded 12 (h.addressOf l.literals + 2 * wordBytes * n)}  {digits}\n"

theorem codeLines_eq {h : CodeHeap} {l : WordLayout} (high : l.literals ≤ h.here) :
    codeLines h l = String.join ((List.range' l.start (l.literals - l.start)).map fun i =>
      labelLine l i ++ instructionLine h i ((h.word? i).getD 0)) := by
  simp only [codeLines, h.words_toList high, zipIdx_map_range', List.map_map]
  rfl

theorem literalLines_eq {h : CodeHeap} {l : WordLayout} (high : l.stop ≤ h.here) {count : Nat}
    (pairs : l.stop = l.literals + 2 * count) :
    literalLines h l = (if 0 < count then "  literals:\n" else "") ++
      String.join ((List.range count).map (literalLine h l)) := by
  unfold literalLines
  have size : l.stop - l.literals = 2 * count := by omega
  by_cases some : 0 < count
  · rw [if_pos (by omega), if_pos some]
    dsimp only
    rw [h.words_toList high, size, List.flatMap_map, Listing.groups,
      Listing.groups_pairs (fun _ => length_littleEndian 4 _)]
    · simp only [List.range_eq_range', zipIdx_map_range', List.map_map]
      rfl
    · simp
      omega
  · obtain rfl : count = 0 := by omega
    rw [if_neg (by omega), if_neg some]
    rfl

theorem thunkStop_pos (c : Compiler) : 0 < c.thunkStop := by
  unfold thunkStop
  cases c.settings.convention <;> exact Nat.zero_lt_succ _

/-- Some position of an open definition is not known. -/
theorem Run.unfinished (run : Run False (fun _ _ => True) current l c) {w : Definition}
    (isOpen : c.definition = some w) (found : c.dictionary.get? w.entry = some e)
    (kind : e.kind = .compiled code) : isUnfinished e = true := by
  cases run.standing fun _ _ _ _ => trivial with
  | idle built => cases built.idle.definition.symm.trans isOpen
  | @working b c0 _ name signature id built begun worked =>
    have opened := worked.opened built.idle.follows begun
    rw [opened.entry_eq isOpen] at found
    obtain ⟨start, epilogue⟩ := opened.unfinished e code found kind
    have low := (built.tiled.tiles.pairwise built.ordered).1
    have positive := Nat.lt_of_lt_of_le b.thunkStop_pos low
    rw [isUnfinished, kind]
    simp [positions, epilogue, start, positive]

/-- The positions of a finished word are all known. -/
theorem HasWord.positions_ge (run : Run False (fun _ _ => True) current l c)
    (word : c.HasWord id e code) :
    (∀ p ∈ positions code.layout, code.layout.start ≤ p.2) ∧ code.layout.stop ≤ c.heap.here ∧
      ∃ count, code.layout.stop = code.layout.literals + 2 * count := by
  have made := run.word (made_invariant _) (fun _ _ _ _ => trivial) word
  have ends := made.stop_le
  cases made.ordered
  simp only [positions, List.forall_mem_cons]
  refine ⟨⟨?_, ?_, ?_, ?_, ?_, ?_, ?_, ?_, by simp⟩, ends, _, by assumption⟩ <;> omega

/-- There is no listing of a word exactly as long as its definition is open.  After that no position
is before the start, and the listing has a line for each word from the start up to the literals and
a line for each pair of words from there to the end. -/
theorem listing_exact (run : Run False (fun _ _ => True) current l c)
    (found : c.dictionary.get? id = some e) (kind : e.kind = .compiled code) :
    (c.listing id = .error .unfinished ↔ ∃ w, c.definition = some w ∧ id = w.entry) ∧
    ((∀ w, c.definition = some w → id ≠ w.entry) →
      c.listing id = .ok (c.describeEntry id e) ∧
      (∀ p ∈ positions code.layout, code.layout.start ≤ p.2) ∧ code.layout.stop ≤ c.heap.here ∧
      codeLines c.heap code.layout =
        String.join ((List.range' code.layout.start (code.layout.literals - code.layout.start)).map
          fun i => labelLine code.layout i ++ instructionLine c.heap i ((c.heap.word? i).getD 0)) ∧
      ∃ count, code.layout.stop = code.layout.literals + 2 * count ∧
        literalLines c.heap code.layout = (if 0 < count then "  literals:\n" else "") ++
          String.join ((List.range count).map (literalLine c.heap code.layout))) := by
  have finished : (∀ w, c.definition = some w → id ≠ w.entry) →
      c.listing id = .ok (c.describeEntry id e) := by
    intro other
    have known := (HasWord.positions_ge run ⟨found, kind, other⟩).1
    rw [listing, found]
    refine if_neg fun unknown => ?_
    rw [isUnfinished, kind] at unknown
    obtain ⟨p, member, low⟩ := List.any_eq_true.1 unknown
    exact absurd (known p member) (Nat.not_le.2 (of_decide_eq_true low))
  refine ⟨⟨fun unfinished => ?_, ?_⟩, fun other => ⟨finished other, ?_⟩⟩
  · by_contra none
    cases unfinished.symm.trans (finished fun w isOpen same => none ⟨w, isOpen, same⟩)
  · rintro ⟨w, isOpen, rfl⟩
    rw [listing, found]
    exact if_pos (run.unfinished isOpen found kind)
  · obtain ⟨known, high, count, pairs⟩ := HasWord.positions_ge run ⟨found, kind, other⟩
    exact ⟨known, high, codeLines_eq (by omega), count, pairs, literalLines_eq high pairs⟩

theorem Run.of_created {host : Host} {settings : Settings}
    (created : Compiler.create host settings = .ok c) (ops : List Operation) :
    Run False (fun _ _ => True) [] (played ops (fun _ => []) c).1 (played ops (fun _ => []) c).2 :=
  .of_create created ops (fun op _ => by cases op <;> simp [Operation.Obeys]) False.elim

/-- A word with a literal is listed while another definition is open. -/
theorem listing_exact_beside_open :
    ∃ c l e code, Run False (fun _ _ => True) [] l c ∧ c.HasWord 29 e code ∧
      (c.definition.map (·.entry), code.layout.start, code.layout.literals, code.layout.stop) =
        (some 30, 156, 162, 164) ∧
      c.listing 29 = .ok (c.describeEntry 29 e) := by
  let ops : List Operation := [.beginWord "x" { inputs := 0, outputs := 1 },
    .literal 0x123456789ABCDEF0, .endWord, .beginWord "y" { inputs := 0, outputs := 0 }]
  let c (b : Compiler) := (played ops (fun _ => []) b).2
  have state : (create {} {}).toOption.bind (fun b => ((c b).finished? 29).map fun x =>
      ((c b).definition.map (·.entry), x.2.layout.start, x.2.layout.literals, x.2.layout.stop)) =
      some (some 30, 156, 162, 164) := by
    decide +kernel
  obtain ⟨b, created, state⟩ := toOption_bind.1 state
  obtain ⟨e, code, word, sizes⟩ := finished?_map.1 state
  have run := Run.of_created created ops
  exact ⟨_, _, e, code, run, word, sizes,
    ((listing_exact run word.found word.kind).2 word.finished).1⟩

/-- There is no listing of a definition that has just begun. -/
theorem open_definition_unlisted :
    ∃ c l, Run False (fun _ _ => True) [] l c ∧ c.listing 29 = .error .unfinished := by
  let ops : List Operation := [.beginWord "x" { inputs := 0, outputs := 0 }]
  let c (b : Compiler) := (played ops (fun _ => []) b).2
  have state : (create {} {}).toOption.any (fun b => (c b).listing 29 = .error .unfinished) := by
    decide +kernel
  obtain ⟨b, created, unlisted⟩ := (Option.any_eq_true _ _).1 state
  exact ⟨_, _, .of_created (except_toOption_eq_some.1 created) ops, of_decide_eq_true unlisted⟩

end Compiler

end ForthJit
