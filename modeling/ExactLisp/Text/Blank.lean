/-!
# Blank characters

Blanks separate words. They are the characters with the Unicode property
White_Space, a closed list of 25 code points, so program text indented with a
no-break space or an ideographic space splits where a reader sees the gap.
-/

namespace ExactLisp

/-- First and last code point of every run of characters with White_Space. -/
def blankRanges : List (Nat × Nat) :=
  [(0x09, 0x0d), (0x20, 0x20), (0x85, 0x85), (0xa0, 0xa0), (0x1680, 0x1680),
   (0x2000, 0x200a), (0x2028, 0x2029), (0x202f, 0x202f), (0x205f, 0x205f), (0x3000, 0x3000)]

/-- Whether a character separates words. -/
def isBlank (c : Char) : Bool :=
  blankRanges.any fun r => r.1 ≤ c.toNat && c.toNat ≤ r.2

theorem isBlank_space : isBlank ' ' = true := rfl

end ExactLisp
