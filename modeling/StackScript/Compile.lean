import StackScript.Compiler

/-!
# Compiling

The two ways to use the compiler: on a whole program, or on a single expression, in which no
variable and no function is known. Either gives a program or the first complaint, with its position
and the text around it. The work is done by `Compiler`.
-/

namespace StackScript

/-- The program of a source text. -/
def compile (settings : Settings) (source : String) : Except Diagnostic Program :=
  (Compiler.program settings).run source

/-- The program of a single expression. -/
def compileExpression (settings : Settings) (source : String) : Except Diagnostic Program :=
  (Compiler.wholeExpression settings).run source

end StackScript
