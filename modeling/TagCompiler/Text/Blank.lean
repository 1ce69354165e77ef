/-!
Blank characters and trimming.

Blank means the `White_Space` property of the Unicode standard. Everything here works on lists of
characters; the `String` versions only convert.
-/

namespace TagCompiler.Text

/-- The 25 characters with the `White_Space` property. -/
def isBlank (c : Char) : Bool :=
  let n := c.toNat
  (9 ≤ n && n ≤ 13) || n == 0x20 || n == 0x85 || n == 0xA0 || n == 0x1680 ||
    (0x2000 ≤ n && n ≤ 0x200A) || n == 0x2028 || n == 0x2029 || n == 0x202F || n == 0x205F ||
    n == 0x3000

def skipBlanks (s : List Char) : List Char := s.dropWhile isBlank

theorem skipBlanks_length_le (s : List Char) : (skipBlanks s).length ≤ s.length :=
  (List.dropWhile_suffix isBlank).length_le

/-- Drops the blanks at the end. -/
def dropTrailingBlanks (s : List Char) : List Char := (skipBlanks s.reverse).reverse

def trimStart (s : String) : String := String.ofList (skipBlanks s.toList)

def trimEnd (s : String) : String := String.ofList (dropTrailingBlanks s.toList)

def trim (s : String) : String := String.ofList (dropTrailingBlanks (skipBlanks s.toList))

/-- The lines of a text. A line feed ends a line, so an empty last line does not count; a carriage
return stays in its line. -/
def lines : List Char → List (List Char)
  | [] => []
  | c :: r =>
    if c = '\n' then [] :: lines r
    else
      match lines r with
      | [] => [[c]]
      | l :: ls => (c :: l) :: ls

end TagCompiler.Text
