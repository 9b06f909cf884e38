/-!
# Blank characters

The characters of the Unicode property `White_Space`, and the removal of blanks at the
two ends of a text. Type expressions, conditions and literals other than texts are read
after trimming.
-/

namespace Blockwork.Text

/-- The characters with the Unicode property `White_Space`: the tab to the carriage
return, the space, the next line, the no-break space, and the blanks of U+1680 and
above. Zero-width characters such as U+200B and U+FEFF are not blank. -/
def isBlank (c : Char) : Bool :=
  let n := c.toNat
  (0x9 ≤ n && n ≤ 0xD) || n == 0x20 || n == 0x85 || n == 0xA0 || n == 0x1680 ||
    (0x2000 ≤ n && n ≤ 0x200A) || n == 0x2028 || n == 0x2029 || n == 0x202F ||
    n == 0x205F || n == 0x3000

/-- The characters left when the blanks at both ends are dropped. -/
def trimChars (cs : List Char) : List Char :=
  ((cs.dropWhile isBlank).reverse.dropWhile isBlank).reverse

end Blockwork.Text
