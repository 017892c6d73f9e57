/-! # Blanks

The characters that stand for a gap between words, and texts without them at their ends.
-/

namespace TypeInference.Text

/-- Whether a character is a blank, a tab, a line end, or another one that shows only as a gap. -/
def isBlank (c : Char) : Bool :=
  (0x09 ≤ c.toNat && c.toNat ≤ 0x0d) || (0x2000 ≤ c.toNat && c.toNat ≤ 0x200a)
    || [0x20, 0x85, 0xa0, 0x1680, 0x2028, 0x2029, 0x202f, 0x205f, 0x3000].contains c.toNat

def trim (s : String) : String :=
  String.ofList ((s.toList.dropWhile isBlank).reverse.dropWhile isBlank).reverse

end TypeInference.Text
