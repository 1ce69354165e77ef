/-!
Escapes of tag files: string literals of expressions, attribute values, plain text and comments.
-/

namespace TagCompiler.TagFile

def escapeLiteral (c : Char) : List Char :=
  if c = '\\' then ['\\', '\\'] else if c = '\'' then ['\\', '\''] else [c]

/-- A string literal of an expression, in single quotes. -/
def quote (s : String) : String :=
  String.ofList ('\'' :: (s.toList.flatMap escapeLiteral ++ ['\'']))

def escapeAttribute (c : Char) : List Char :=
  if c = '&' then "&amp;".toList else if c = '"' then "&quot;".toList else [c]

/-- The text of a value that stands in an attribute, in double quotes. -/
def attributeText (s : String) : String := String.ofList (s.toList.flatMap escapeAttribute)

/-- Puts a backslash before everything that would open an expression. -/
def escapeText : List Char → List Char
  | '$' :: '\x7b' :: s => '\\' :: '$' :: '\x7b' :: escapeText s
  | '#' :: '\x7b' :: s => '\\' :: '#' :: '\x7b' :: escapeText s
  | c :: s => c :: escapeText s
  | [] => []

/-- Text of a template, in which a tag file is to find no expression. -/
def text (s : String) : String := String.ofList (escapeText s.toList)

/-- Breaks up every end of a comment. -/
def escapeComment : List Char → List Char
  | '-' :: '-' :: '%' :: '>' :: s => '-' :: '-' :: ' ' :: '%' :: '>' :: escapeComment s
  | c :: s => c :: escapeComment s
  | [] => []

def comment (s : String) : String :=
  "<%-- " ++ String.ofList (escapeComment s.toList) ++ " --%>\n"

/-- An expression as a tag file evaluates it. -/
def live (expression : String) : String := "$\x7b" ++ expression ++ "\x7d"

end TagCompiler.TagFile
