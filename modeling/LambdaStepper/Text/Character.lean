/-! # Blank characters and digits

The blank characters are Unicode's white space together with the four information separators
U+001C to U+001F.  They separate tokens, and `trim` removes them from both ends of a text.

Numerals may be written with the decimal digits of any script (Unicode's category Nd).  These come
in runs of ten, zero first, so a table of the zeros gives both the class and the value of a digit.
`readInteger` reads a whole number the way it may be typed on a command line. -/

namespace LambdaStepper.Text

/-! ### Blank characters -/

/-- First and last code point of every run of blank characters. -/
def blankRanges : List (Nat × Nat) :=
  [(0x09, 0x0D), (0x1C, 0x20), (0x85, 0x85), (0xA0, 0xA0), (0x1680, 0x1680), (0x2000, 0x200A),
   (0x2028, 0x2029), (0x202F, 0x202F), (0x205F, 0x205F), (0x3000, 0x3000)]

/-- Whether a code point lies in one of the given ranges, ends included. -/
def inRanges (ranges : List (Nat × Nat)) (n : Nat) : Bool :=
  ranges.any fun r => r.1 ≤ n && n ≤ r.2

/-- Whether a character is blank. -/
def isBlank (c : Char) : Bool :=
  inRanges blankRanges c.toNat

/-- A text without the blank characters at its two ends. -/
def trim (cs : List Char) : List Char :=
  ((cs.dropWhile isBlank).reverse.dropWhile isBlank).reverse

/-! ### Digits -/

/-- The code points of the digit zero in every script. -/
def digitZeros : List Nat :=
  [0x30, 0x660, 0x6F0, 0x7C0, 0x966, 0x9E6, 0xA66, 0xAE6, 0xB66, 0xBE6, 0xC66, 0xCE6, 0xD66, 0xDE6,
   0xE50, 0xED0, 0xF20, 0x1040, 0x1090, 0x17E0, 0x1810, 0x1946, 0x19D0, 0x1A80, 0x1A90, 0x1B50,
   0x1BB0, 0x1C40, 0x1C50, 0xA620, 0xA8D0, 0xA900, 0xA9D0, 0xA9F0, 0xAA50, 0xABF0, 0xFF10, 0x104A0,
   0x10D30, 0x11066, 0x110F0, 0x11136, 0x111D0, 0x112F0, 0x11450, 0x114D0, 0x11650, 0x116C0, 0x11730,
   0x118E0, 0x11950, 0x11C50, 0x11D50, 0x11DA0, 0x16A60, 0x16AC0, 0x16B50, 0x1D7CE, 0x1D7D8, 0x1D7E2,
   0x1D7EC, 0x1D7F6, 0x1E140, 0x1E2F0, 0x1E950, 0x1FBF0]

/-- Runs of the characters that are digits without being decimal digits, such as superscripts and
circled digits. -/
def otherDigitRanges : List (Nat × Nat) :=
  [(0xB2, 0xB3), (0xB9, 0xB9), (0x1369, 0x1371), (0x19DA, 0x19DA), (0x2070, 0x2070), (0x2074, 0x2079),
   (0x2080, 0x2089), (0x2460, 0x2468), (0x2474, 0x247C), (0x2488, 0x2490), (0x24EA, 0x24EA),
   (0x24F5, 0x24FD), (0x24FF, 0x24FF), (0x2776, 0x277E), (0x2780, 0x2788), (0x278A, 0x2792),
   (0x10A40, 0x10A43), (0x10E60, 0x10E68), (0x11052, 0x1105A), (0x1F100, 0x1F10A)]

/-- The value of a decimal digit of any script. -/
def digitValue? (c : Char) : Option Nat :=
  (digitZeros.find? fun least => least ≤ c.toNat && c.toNat < least + 10).map (c.toNat - ·)

/-- Whether a character is a decimal digit of some script. -/
def isDecimalDigit (c : Char) : Bool :=
  (digitValue? c).isSome

/-- Whether a character is a digit of some kind, decimal or not. -/
def isAnyDigit (c : Char) : Bool :=
  isDecimalDigit c || inRanges otherDigitRanges c.toNat

/-- The number that a run of decimal digits denotes; characters of other kinds count as zero. -/
def digitsValue (cs : List Char) : Nat :=
  cs.foldl (fun n c => 10 * n + (digitValue? c).getD 0) 0

/-- The number written by decimal digits in which single underscores may stand between two digits. -/
def readDigits : (sofar : Nat) → (afterDigit : Bool) → List Char → Option Nat
  | n, afterDigit, [] => if afterDigit then some n else none
  | n, afterDigit, c :: cs =>
    match digitValue? c with
    | some d => readDigits (10 * n + d) true cs
    | none => if c = '_' && afterDigit then readDigits n false cs else none

/-- A whole number with an optional sign, blank characters around it being ignored. -/
def readInteger (cs : List Char) : Option Int :=
  match trim cs with
  | '-' :: rest => (readDigits 0 false rest).map fun n => -(n : Int)
  | '+' :: rest => (readDigits 0 false rest).map Int.ofNat
  | rest => (readDigits 0 false rest).map Int.ofNat

end LambdaStepper.Text
