/-!
Splitting a text at a character.
-/

namespace TagCompiler.Text

/-- The parts of `s` between the places where `sep` stands; there is always at least one. -/
def splitChars (sep : Char) : List Char → List (List Char)
  | [] => [[]]
  | c :: s =>
    if c = sep then [] :: splitChars sep s
    else
      match splitChars sep s with
      | [] => [[c]]
      | p :: ps => (c :: p) :: ps

def split (sep : Char) (s : String) : List String := (splitChars sep s.toList).map String.ofList

end TagCompiler.Text
