/-!
White space as text tools know it: the 25 characters with the property of that name.  Lines are
trimmed and split by this class, so a no-break space separates words just as a tab does.
-/

namespace Microcode.Text

def isBlank (c : Char) : Bool :=
  let n := c.toNat
  (0x09 ≤ n && n ≤ 0x0D) || n == 0x20 || n == 0x85 || n == 0xA0 || n == 0x1680
    || (0x2000 ≤ n && n ≤ 0x200A) || n == 0x2028 || n == 0x2029 || n == 0x202F || n == 0x205F
    || n == 0x3000

def trimStart (cs : List Char) : List Char := cs.dropWhile isBlank

def trimEnd (cs : List Char) : List Char := (cs.reverse.dropWhile isBlank).reverse

def trim (cs : List Char) : List Char := trimEnd (trimStart cs)

/-- The text before the first white space and the text after it.  A text without white space is
all before, and nothing is after. -/
def splitAtBlank (cs : List Char) : List Char × List Char :=
  (cs.takeWhile (! isBlank ·), (cs.dropWhile (! isBlank ·)).drop 1)

end Microcode.Text
