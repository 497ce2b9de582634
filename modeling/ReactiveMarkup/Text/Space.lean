/-!
White space in any script, and texts without it at their ends.
-/

namespace ReactiveMarkup.Text

def isSpace (c : Char) : Bool :=
  let n := c.toNat
  (9 ≤ n && n ≤ 13) || n == 0x20 || n == 0x85 || n == 0xa0 || n == 0x1680 ||
    (0x2000 ≤ n && n ≤ 0x200a) || n == 0x2028 || n == 0x2029 || n == 0x202f ||
    n == 0x205f || n == 0x3000

def trimLeft (chars : List Char) : List Char := chars.dropWhile isSpace

def trimRight (chars : List Char) : List Char := (chars.reverse.dropWhile isSpace).reverse

def trim (chars : List Char) : List Char := trimRight (trimLeft chars)

/-- The longest runs of other characters. -/
def words (chars : List Char) : List (List Char) :=
  (chars.splitBy fun a b => isSpace a == isSpace b).filter fun run => !run.any isSpace

end ReactiveMarkup.Text
