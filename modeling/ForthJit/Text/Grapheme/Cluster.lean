import ForthJit.Text.Grapheme.Class

/-!
# Clusters

A cluster is what a reader takes for one character.  Text is cut before every character that does
not stay with the ones before it.
-/

namespace ForthJit.Text.Grapheme

/-- Whether a consonant after `before`, newest first, completes a conjunct: there is a consonant,
and a linker among the marks after it. -/
def completesConjunct (before : List Char) : Bool :=
  (before.takeWhile isTransparent).any isLinker &&
    (before.dropWhile isTransparent).head?.any fun c => BreakClass.of c = .consonant

/-- Whether `before`, newest first, is a pictograph with marks. -/
def endsPictograph (before : List Char) : Bool :=
  (before.dropWhile fun c => BreakClass.of c = .extend).head?.any fun c =>
    BreakClass.of c = .pictograph

/-- Whether an odd number of regional indicators ends `before`, newest first. -/
def endsHalfFlag (before : List Char) : Bool :=
  (before.takeWhile fun c => BreakClass.of c = .regional).length % 2 = 1

/-- Whether `c` stays with the characters of the cluster `before`, newest first. -/
def joins (before : List Char) (c : Char) : Bool :=
  match before with
  | [] => false
  | last :: earlier =>
    match BreakClass.of last, BreakClass.of c with
    | .carriageReturn, .lineFeed => true
    | .control, _ | .carriageReturn, _ | .lineFeed, _ => false
    | _, .control | _, .carriageReturn | _, .lineFeed => false
    | .leading, .leading | .leading, .vowel => true
    | .leading, .openSyllable | .leading, .closedSyllable => true
    | .openSyllable, .vowel | .openSyllable, .trailing => true
    | .vowel, .vowel | .vowel, .trailing => true
    | .closedSyllable, .trailing | .trailing, .trailing => true
    | _, .extend | _, .joiner | _, .spacing => true
    | .prepend, _ => true
    | _, .consonant => completesConjunct before
    | .joiner, .pictograph => endsPictograph earlier
    | .regional, .regional => endsHalfFlag before
    | _, _ => false

/-- The clusters of a text that goes on a cluster begun with `begun`, newest first. -/
def clustersFrom (begun : List Char) : List Char → List (List Char)
  | [] => if begun.isEmpty then [] else [begun.reverse]
  | c :: rest =>
    if begun.isEmpty || joins begun c then clustersFrom (c :: begun) rest
    else begun.reverse :: clustersFrom [c] rest

/-- The clusters of a text, in order. -/
def clusters (text : List Char) : List (List Char) := clustersFrom [] text

/-- No character is lost between clusters. -/
theorem flatten_clustersFrom (begun text : List Char) :
    (clustersFrom begun text).flatten = begun.reverse ++ text := by
  induction text generalizing begun with
  | nil => cases begun <;> simp [clustersFrom]
  | cons c rest ih =>
    rw [clustersFrom]
    split
    · simp [ih]
    · simp [ih]

theorem flatten_clusters (text : List Char) : (clusters text).flatten = text :=
  flatten_clustersFrom [] text

end ForthJit.Text.Grapheme
