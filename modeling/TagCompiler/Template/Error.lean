/-!
Why a template cannot be read, and where.

A reader of characters reports a `Failure`: the cause, and how many characters were left unread when
it showed. A `SyntaxError` is what is reported of a whole source: the cause, and the place in the
source (line, column, the text found there).
-/

namespace TagCompiler.Template

inductive Cause where
  | unexpected (expected found : String)
  | endOfInput (expected : String)
  | badName (start : Char)
  | unknownKeyword (keyword : String)
  | missing (what : String)
  | unterminated (what : String)
  | badNumber (numeral : String)
  | severalTargets
  deriving DecidableEq

def Cause.message : Cause → String
  | .unexpected expected found => "Expected " ++ expected ++ ", found " ++ found
  | .endOfInput expected => "Unexpected EOF (expected '" ++ expected ++ "')"
  | .badName start => "Invalid identifier starting with '" ++ start.toString ++ "'"
  | .unknownKeyword keyword => "Unknown keyword '" ++ keyword ++ "'"
  | .missing what => "Expected " ++ what
  | .unterminated what => "Unterminated " ++ what
  | .badNumber numeral => "Parser error: '" ++ numeral ++ "' is not a valid number"
  | .severalTargets => "Parser error: multiple assignment targets are not supported"

structure Failure where
  cause : Cause
  unread : Nat
  deriving DecidableEq

/-- Fails at the front of `s`. -/
def fail {α : Type} (cause : Cause) (s : List Char) : Except Failure α := .error ⟨cause, s.length⟩

/-- A failure and its place: line and column count from one, the column in bytes of UTF-8. -/
structure SyntaxError where
  line : Nat
  column : Nat
  fragment : String
  cause : Cause
  deriving DecidableEq

namespace SyntaxError

/-- How much of the source a message shows. -/
def fragmentLength : Nat := 24

def message (e : SyntaxError) : String :=
  "Parse error at line " ++ toString e.line ++ ", column " ++ toString e.column ++ " near '" ++
    e.fragment ++ "': " ++ e.cause.message

end SyntaxError
end TagCompiler.Template
