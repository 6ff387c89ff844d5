import ForthJit.Text.Grapheme.Property

/-!
# Classes of characters that matter to clusters

Each character has one class, and whether two neighbours stay together is said in terms of classes.
-/

namespace ForthJit.Text.Grapheme

inductive BreakClass where
  | carriageReturn
  | lineFeed
  | control
  /-- A mark that extends what is before it. -/
  | extend
  /-- The zero width joiner. -/
  | joiner
  /-- A regional indicator; two of them are a flag. -/
  | regional
  /-- A sign that belongs to what is after it. -/
  | prepend
  /-- A mark with a space of its own. -/
  | spacing
  /-- A leading consonant of a Hangul syllable. -/
  | leading
  /-- A vowel of a Hangul syllable. -/
  | vowel
  /-- A trailing consonant of a Hangul syllable. -/
  | trailing
  /-- A Hangul syllable without a trailing consonant. -/
  | openSyllable
  /-- A Hangul syllable with a trailing consonant. -/
  | closedSyllable
  | pictograph
  /-- A consonant that may be part of a conjunct. -/
  | consonant
  | other
  deriving DecidableEq

namespace BreakClass

/-- Classes given by ranges of code points. -/
def table : List (Ranges × BreakClass) :=
  [(controlRanges, control), (extendRanges, extend), (spacingRanges, spacing),
    (prependRanges, prepend), (pictographRanges, pictograph), (consonantRanges, consonant),
    (leadingRanges, leading), (vowelRanges, vowel), (trailingRanges, trailing)]

/-- The class of the Hangul syllable at `index` in the block of syllables, which has the 28 ways to
end a syllable next to each other, beginning with none. -/
def ofSyllable (index : Nat) : BreakClass := if index % 28 = 0 then openSyllable else closedSyllable

/-- The class of the character with code point `code`. -/
def ofCode (code : Nat) : BreakClass :=
  if code = 0x0D then carriageReturn
  else if code = 0x0A then lineFeed
  else if code = 0x200D then joiner
  else if 0x1F1E6 ≤ code ∧ code ≤ 0x1F1FF then regional
  else if 0xAC00 ≤ code ∧ code ≤ 0xD7A3 then ofSyllable (code - 0xAC00)
  else ((table.find? fun (ranges, _) => inRanges code ranges).map (·.2)).getD other

def of (c : Char) : BreakClass := ofCode c.toNat

end BreakClass

/-- Whether `c` links two consonants to a conjunct. -/
def isLinker (c : Char) : Bool := inRanges c.toNat linkerRanges

/-- Whether `c` may stand between a consonant of a conjunct and its linker: a mark or a joiner, but
not the non-joiner. -/
def isTransparent (c : Char) : Bool :=
  BreakClass.of c = .joiner || (BreakClass.of c = .extend && c ≠ '\u200c')

end ForthJit.Text.Grapheme
