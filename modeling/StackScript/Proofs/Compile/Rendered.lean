import StackScript.Proofs.Compile.Compiled
import StackScript.Proofs.Rendering.Script

/-!
# Compiling the texts of a script

The compiler goes once through a text, emits and patches instructions and makes no tree, yet what it
gives depends on the script alone. **`compile_rendering`** says so in both directions: every text of
a script that obeys the static rules is compiled to the program of the script, and every program
that is compiled at all is the program of such a script.

Two facts are put together: the compiler emits the program of the script that is read
(`compile_eq`), and a script that obeys the rules is read from each of its texts
(`Script.Rendering.run`).
-/

namespace StackScript

open Lexeme

theorem Script.Rendering.compile {settings : Settings} {s : Script} {source : String}
    (h : s.Rendering source.toList) (hobeys : s.Obeys settings IsPlainName) :
    compile settings source = .ok s.program := by
  rw [compile_eq, h.run hobeys]
  rfl

/-- **The compiler is the code generator of the grammar, whatever the layout.** If a script obeys
the static rules, with names that begin with no digit, all its texts are compiled to its program.
Conversely every compiled program is that of a script that obeys the rules; its names can begin with
a digit. -/
theorem compile_rendering (settings : Settings) :
    (∀ (s : Script) (source source' : String), s.Obeys settings IsPlainName →
      s.Rendering source.toList → s.Rendering source'.toList →
        compile settings source = .ok s.program ∧
          compile settings source' = compile settings source) ∧
    ∀ (source : String) (p : Program), compile settings source = .ok p →
      ∃ s : Script, s.Obeys settings IsName ∧ p = s.program := by
  constructor
  · intro s source source' hobeys h h'
    have hcompile := h.compile hobeys
    exact ⟨hcompile, (h'.compile hobeys).trans hcompile.symm⟩
  · intro source p hp
    obtain ⟨s, hobeys, -, hprogram⟩ := compile_eq_ok hp
    exact ⟨s, hobeys, hprogram⟩

/-! ## A script in two layouts -/

/-- A script that declares a flag and returns its negation. -/
def Script.flag : Script where
  globals := ["x"]
  decls := [⟨"x", .global 0, some (.literal (.bool true))⟩]
  functions := []
  lateDecls := []
  body := [.ret (some (.unary .not (.var "x" (.global 0))))]

theorem Script.flag_obeys : Script.flag.Obeys .standard IsPlainName where
  decls := by
    have hx : IsPlainName "x" := by
      refine ⟨⟨.of_all (by decide) (by decide), by decide⟩, ?_⟩
      rintro c ⟨⟩
      decide
    refine ⟨hx, by decide, by decide, ?_, trivial⟩
    rintro e ⟨⟩
    trivial
  functions := trivial
  lateDecls := trivial
  body := ⟨⟨by decide, rfl, rfl⟩, trivial⟩
  noLateDecls := fun _ => rfl
  globals := by decide
  nesting := by decide

theorem Script.flag_spelled : Script.flag.Spelled
    [.word "var", .word "x", .mark '=', .word "true", .mark ';', .word "return", .mark '!',
      .word "x", .mark ';'] := by
  have hdecl : Decl.Spelled ⟨"x", .global 0, some (.literal (.bool true))⟩
      [.word "x", .mark '=', .word "true"] := ⟨_, ⟨_, .true, rfl⟩, rfl⟩
  have heach : Decl.EachSpelled [⟨"x", .global 0, some (.literal (.bool true))⟩]
      [[.word "x", .mark '=', .word "true"]] := ⟨_, _, hdecl, rfl, rfl⟩
  exact ⟨_, [], [], _, .group heach .nil, rfl, .nil,
    ⟨_, [], ⟨_, ⟨'!', _, rfl, rfl, rfl⟩, rfl⟩, rfl, rfl⟩, rfl⟩

/-- The text with as few blanks as possible. -/
theorem Script.flag_rendering : Script.flag.Rendering "var x=true;return!x;".toList := by
  refine ⟨_, Script.flag_spelled, [], _, rfl, .nil, ?_⟩
  refine ⟨[' '], _, rfl, isSeparator_blank .nil, ?_⟩
  refine ⟨[], _, rfl, isSeparator_nil (.inr rfl), ?_⟩
  refine ⟨[], _, rfl, isSeparator_nil (.inl rfl), ?_⟩
  refine ⟨[], _, rfl, isSeparator_nil (.inr rfl), ?_⟩
  refine ⟨[], _, rfl, isSeparator_nil (.inl rfl), ?_⟩
  refine ⟨[], _, rfl, isSeparator_nil (.inr rfl), ?_⟩
  refine ⟨[], _, rfl, isSeparator_nil (.inl rfl), ?_⟩
  exact ⟨[], _, rfl, isSeparator_nil (.inr rfl), .nil⟩

/-- The same with a comment. -/
theorem Script.flag_rendering_comment :
    Script.flag.Rendering "var x = true; // on\nreturn !x;\n".toList := by
  have hcomment : IsGap "// on\n".toList := .comment (show '\n' ∉ " on".toList by decide) .nil
  refine ⟨_, Script.flag_spelled, [], _, rfl, .nil, ?_⟩
  refine ⟨[' '], _, rfl, isSeparator_blank .nil, ?_⟩
  refine ⟨[' '], _, rfl, isSeparator_blank .nil, ?_⟩
  refine ⟨[' '], _, rfl, isSeparator_blank .nil, ?_⟩
  refine ⟨[], _, rfl, isSeparator_nil (.inr rfl), ?_⟩
  refine ⟨_, _, rfl, isSeparator_blank hcomment, ?_⟩
  refine ⟨[' '], _, rfl, isSeparator_blank .nil, ?_⟩
  refine ⟨[], _, rfl, isSeparator_nil (.inl rfl), ?_⟩
  exact ⟨[], _, rfl, isSeparator_nil (.inr rfl), .blank (by decide) .nil⟩

/-- The two texts of the flag are compiled to one program. -/
theorem compile_rendering_flag :
    Script.flag.Obeys .standard IsPlainName ∧
      compile .standard "var x=true;return!x;" = .ok Script.flag.program ∧
        compile .standard "var x = true; // on\nreturn !x;\n" =
          compile .standard "var x=true;return!x;" :=
  ⟨Script.flag_obeys, (compile_rendering .standard).1 _ _ _ Script.flag_obeys Script.flag_rendering
    Script.flag_rendering_comment⟩

end StackScript
