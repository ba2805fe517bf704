import StackScript.Number.Text
import StackScript.Text.Quoted
import StackScript.Value

/-!
# How values are written

`Value.text` is what a program prints. `Value.literal` differs for strings, which it quotes, and
`Value.description` also names the type.
-/

namespace StackScript.Value

/-- A value as a program prints it. -/
def text : Value → String
  | undefined => "undefined"
  | int n => toString n.toInt
  | double x => Number.text x
  | string s => s
  | bool b => if b then "true" else "false"

/-- A value as a literal of a listing. -/
def literal : Value → String
  | string s => Text.quoted s
  | v => v.text

/-- A value with its type, as messages about instructions and stack cells show it. -/
def description : Value → String
  | undefined => "Undefined"
  | int n => "Int(" ++ (int n).text ++ ")"
  | double x => "Double(" ++ (double x).text ++ ")"
  | string s => "Str(" ++ Text.quoted s ++ ")"
  | bool b => "Bool(" ++ (bool b).text ++ ")"

end StackScript.Value
