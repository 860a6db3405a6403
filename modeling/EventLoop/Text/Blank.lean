/-
  Which characters count as blank, and the trimming of blanks from both ends of a text.
-/
namespace EventLoop.Text

/-- Ranges of the characters that count as blank: the ASCII separators and the spaces of Unicode. -/
def blankRanges : List (Nat × Nat) :=
  [(0x9, 0xD), (0x1C, 0x20), (0x85, 0x85), (0xA0, 0xA0), (0x1680, 0x1680), (0x2000, 0x200A),
   (0x2028, 0x2029), (0x202F, 0x202F), (0x205F, 0x205F), (0x3000, 0x3000)]

/-- The ranges of a table of runs: beginning with the character `start`, its numbers say in turn how
many characters in a row are outside of the ranges, and how many are inside. -/
def rangesOfRuns (start : Nat) : List Nat → List (Nat × Nat)
  | outside :: inside :: rest =>
    (start + outside, start + outside + inside - 1) :: rangesOfRuns (start + outside + inside) rest
  | _ => []

/-- Whether `c` lies in one of the closed ranges `ranges`. -/
def inRanges (ranges : List (Nat × Nat)) (c : Char) : Bool :=
  ranges.any fun r => r.1 ≤ c.toNat && c.toNat ≤ r.2

/-- Whether `c` is blank. -/
def isBlank (c : Char) : Bool := inRanges blankRanges c

/-- The text without the blanks at its two ends. -/
def trimBlanks (cs : List Char) : List Char :=
  ((cs.dropWhile isBlank).reverse.dropWhile isBlank).reverse

/-- Whether every character of the text is blank. -/
def allBlank (s : String) : Bool := s.toList.all isBlank

end EventLoop.Text
