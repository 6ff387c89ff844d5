import ForthJit.Text.Digit

/-!
# Lexemes of TOML

Readers of the smallest parts of a document.  Each takes the text from its own first character on
and gives what it read and the text after it, or nothing if the text is not well-formed.
-/

namespace ForthJit.Toml

/-- A reader of a part of a document. -/
abbrev Scan (α : Type) := List Char → Option (α × List Char)

/-! ## Characters -/

def isSpace (c : Char) : Bool := c = ' ' || c = '\t'

/-- Whether `c` may stand in comments and strings: no control character other than a tab. -/
def isPrintable (c : Char) : Bool := c = '\t' || (' ' ≤ c && c ≠ '\x7f')

def isBareKeyChar (c : Char) : Bool :=
  ('a' ≤ c && c ≤ 'z') || ('A' ≤ c && c ≤ 'Z') || ('0' ≤ c && c ≤ '9') || c = '_' || c = '-'

def skipSpaces (text : List Char) : List Char := text.dropWhile isSpace

/-- The text after a line feed, which may have a carriage return before it. -/
def newline? : List Char → Option (List Char)
  | '\n' :: rest => some rest
  | '\r' :: '\n' :: rest => some rest
  | _ => none

/-- The text after a comment, if it starts with one. -/
def skipComment : List Char → List Char
  | '#' :: rest => rest.dropWhile isPrintable
  | text => text

/-- The text after the rest of a line, which may hold spaces and a comment. -/
def lineEnd? (text : List Char) : Option (List Char) :=
  match skipComment (skipSpaces text) with
  | [] => some []
  | rest => newline? rest

/-- The text after spaces, comments and line ends; `fuel` bounds the number of lines. -/
def skipLines : (fuel : Nat) → List Char → List Char
  | 0, text => text
  | fuel + 1, text =>
    let text := skipSpaces text
    match newline? (skipComment text) with
    | some rest => skipLines fuel rest
    | none => text

/-! ## Strings -/

/-- The character with a hexadecimal code, unless it is a surrogate or out of range. -/
def scalar? (digits : List Char) : Option Char := do
  let code ← Text.numeral? 16 digits
  if code.isValidChar then some (Char.ofNat code) else none

/-- The character that a backslash and `c` stand for. -/
def escaped? : (c : Char) → Option Char
  | 'b' => some '\x08'
  | 't' => some '\t'
  | 'n' => some '\n'
  | 'f' => some '\x0c'
  | 'r' => some '\r'
  | '"' => some '"'
  | '\\' => some '\\'
  | _ => none

/-- Put `c` before what was read. -/
def before (c : Char) : Option (List Char × List Char) → Option (List Char × List Char)
  | some (cs, rest) => some (c :: cs, rest)
  | none => none

/-- The inside of a string in double quotes. -/
def basicBody : Scan (List Char)
  | [] => none
  | '"' :: rest => some ([], rest)
  | '\\' :: 'u' :: a :: b :: c :: d :: rest => do
    before (← scalar? [a, b, c, d]) (basicBody rest)
  | '\\' :: 'U' :: a :: b :: c :: d :: e :: f :: g :: h :: rest => do
    before (← scalar? [a, b, c, d, e, f, g, h]) (basicBody rest)
  | '\\' :: c :: rest => do
    before (← escaped? c) (basicBody rest)
  | c :: rest => if isPrintable c then before c (basicBody rest) else none

/-- The inside of a string in single quotes. -/
def literalBody : Scan (List Char)
  | [] => none
  | '\'' :: rest => some ([], rest)
  | c :: rest => if isPrintable c then before c (literalBody rest) else none

/-- The inside of a string in triple double quotes.  Up to two quotes may stand before the closing
ones.  A backslash at the end of a line removes all blanks up to the next other character, which is
what `skipping` is for. -/
def multilineBasicBody (skipping : Bool) : Scan (List Char)
  | [] => none
  | '"' :: '"' :: '"' :: '"' :: '"' :: rest => some (['"', '"'], rest)
  | '"' :: '"' :: '"' :: '"' :: rest => some (['"'], rest)
  | '"' :: '"' :: '"' :: rest => some ([], rest)
  | '\\' :: 'u' :: a :: b :: c :: d :: rest => do
    before (← scalar? [a, b, c, d]) (multilineBasicBody false rest)
  | '\\' :: 'U' :: a :: b :: c :: d :: e :: f :: g :: h :: rest => do
    before (← scalar? [a, b, c, d, e, f, g, h]) (multilineBasicBody false rest)
  | '\\' :: c :: rest =>
    if (newline? (skipSpaces (c :: rest))).isSome then
      multilineBasicBody true (c :: rest)
    else do
      before (← escaped? c) (multilineBasicBody false rest)
  | '\r' :: '\n' :: rest =>
    if skipping then multilineBasicBody true rest
    else before '\n' (multilineBasicBody false rest)
  | '\n' :: rest =>
    if skipping then multilineBasicBody true rest
    else before '\n' (multilineBasicBody false rest)
  | c :: rest =>
    if skipping && isSpace c then multilineBasicBody true rest
    else if isPrintable c then before c (multilineBasicBody false rest)
    else none

/-- The inside of a string in triple single quotes. -/
def multilineLiteralBody : Scan (List Char)
  | [] => none
  | '\'' :: '\'' :: '\'' :: '\'' :: '\'' :: rest => some (['\'', '\''], rest)
  | '\'' :: '\'' :: '\'' :: '\'' :: rest => some (['\''], rest)
  | '\'' :: '\'' :: '\'' :: rest => some ([], rest)
  | '\r' :: '\n' :: rest => before '\n' (multilineLiteralBody rest)
  | '\n' :: rest => before '\n' (multilineLiteralBody rest)
  | c :: rest => if isPrintable c then before c (multilineLiteralBody rest) else none

/-- The text without a line end at its very start. -/
def withoutNewline (text : List Char) : List Char := (newline? text).getD text

/-- A string of any of the four kinds. -/
def string : Scan String := fun text => do
  let (chars, rest) ← match text with
    | '"' :: '"' :: '"' :: rest => multilineBasicBody false (withoutNewline rest)
    | '\'' :: '\'' :: '\'' :: rest => multilineLiteralBody (withoutNewline rest)
    | '"' :: rest => basicBody rest
    | '\'' :: rest => literalBody rest
    | _ => none
  return (String.ofList chars, rest)

/-! ## Keys -/

/-- One part of a key: bare, or a string on one line. -/
def keyPart : Scan String
  | '"' :: rest => (basicBody rest).map fun (chars, rest) => (String.ofList chars, rest)
  | '\'' :: rest => (literalBody rest).map fun (chars, rest) => (String.ofList chars, rest)
  | text =>
    let bare := text.takeWhile isBareKeyChar
    if bare.isEmpty then none else some (String.ofList bare, text.dropWhile isBareKeyChar)

/-- A key: parts with dots between them and spaces around the dots; `fuel` bounds the number of
parts. -/
def key : (fuel : Nat) → Scan (List String)
  | 0, _ => none
  | fuel + 1, text => do
    let (part, rest) ← keyPart text
    match skipSpaces rest with
    | '.' :: rest =>
      let (parts, rest) ← key fuel (skipSpaces rest)
      return (part :: parts, rest)
    | rest => return ([part], rest)

/-! ## Numbers -/

/-- Further digits, of which two may have an underscore between them. -/
def moreDigits (base : Nat) : (value : Nat) → List Char → Option Nat
  | value, [] => some value
  | value, '_' :: c :: rest => do
    moreDigits base (value * base + (← Text.digit? base c)) rest
  | value, c :: rest => do
    moreDigits base (value * base + (← Text.digit? base c)) rest

/-- One or more digits, of which two may have an underscore between them. -/
def digits? (base : Nat) : List Char → Option Nat
  | [] => none
  | c :: rest => do moreDigits base (← Text.digit? base c) rest

/-- A decimal number without leading zeros. -/
def decimal? : List Char → Option Nat
  | '0' :: _ :: _ => none
  | text => digits? 10 text

/-- An integer of 64 bits: decimal with an optional sign, or hexadecimal, octal or binary. -/
def integer? (text : List Char) : Option Int := do
  let value : Int ← match text with
    | '0' :: 'x' :: rest => (digits? 16 rest).map Int.ofNat
    | '0' :: 'o' :: rest => (digits? 8 rest).map Int.ofNat
    | '0' :: 'b' :: rest => (digits? 2 rest).map Int.ofNat
    | '+' :: rest => (decimal? rest).map Int.ofNat
    | '-' :: rest => (decimal? rest).map fun n => -Int.ofNat n
    | rest => (decimal? rest).map Int.ofNat
  if Int64.minValue.toInt ≤ value ∧ value ≤ Int64.maxValue.toInt then some value else none

/-- Whether `c` may be part of a number or of another value written without quotes. -/
def isPlainChar (c : Char) : Bool := isBareKeyChar c || c = '+' || c = '.' || c = ':'

end ForthJit.Toml
