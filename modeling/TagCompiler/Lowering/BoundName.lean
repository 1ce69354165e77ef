/-!
Names of variables that the compiler introduces for the parameters of macros.
-/

namespace TagCompiler

/-- A macro name as part of a variable name, where a dot cannot stand. -/
def underscored (name : String) : String :=
  String.ofList (name.toList.map fun c => if c = '.' then '_' else c)

/-- The variable that holds a local name of a macro. -/
def boundName (owner name : String) : String := underscored owner ++ "_" ++ name

end TagCompiler
