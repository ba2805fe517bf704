import StackScript.Proofs.Emission.Script

/-!
# Complaints point at what they are about

A reader keeps the places of the words it may still complain about, and what it has left is always
the end of the source text. So the position of a diagnostic is one of the text, whatever was read
between the word and the complaint. The argument is the one for two readers in step, applied to a
reader beside itself.
-/

namespace StackScript

open Reader

/-! ## Positions -/

/-- A diagnostic is about a place of the source text, and points at what it complains about. -/
def Diagnostic.PointsInto (source : String) (d : Diagnostic) : Prop :=
  ∃ before after, source.toList = before ++ after ∧ d.position = utf8Length before ∧
    d.position ≤ utf8Length source.toList ∧ d.complaint.PointsAt before after

theorem Refusal.PointsInto.diagnostic {source : String} {e : Refusal}
    (h : e.PointsInto source.toList) : (Diagnostic.ofRefusal source e).PointsInto source := by
  obtain ⟨before, hsource, hpoints⟩ := h
  have hposition : (Diagnostic.ofRefusal source e).position = utf8Length before := by
    show utf8Length source.toList - utf8Length e.rest = utf8Length before
    rw [hsource, utf8Length_append, Nat.add_sub_cancel]
  refine ⟨before, e.rest, hsource, hposition, ?_, hpoints⟩
  rw [hposition, hsource, utf8Length_append]
  exact Nat.le_add_right _ _

/-! ## A reader beside itself -/

section Located

/-- All refusals that point into the source text are allowed. -/
def Located (source : List Char) (e : Refusal) (_ : Option Refusal) : Prop := e.PointsInto source

/-- Two readers are at the same place of the source text. -/
abbrev AtPlace (source : List Char) : Reading → Reading → Prop := AtOnce source fun _ => True

variable {source : List Char} {settings : Settings}

theorem located_pace :
    FullPace (Located source) (WordAt source) (AtPlace source) (AtPlace source) :=
  fullPace_sameText ⟨fun _ => trivial, fun _ _ => trivial, fun _ _ _ => trivial, fun _ _ => trivial⟩
    fun _ he => .inl he.points

theorem located_deep {r s : Reading} (h : AtPlace source r s) (limit : Nat) :
    Refuses (Located source) ⟨.nestingTooDeep limit, r.rest⟩ ⟨.nestingTooDeep limit, s.rest⟩ := by
  obtain ⟨before, hsource⟩ := h.2.1
  exact .inl ⟨before, hsource.symm, trivial⟩

theorem located_wholeExpression : InStep (Located source) (AtPlace source)
    (Reader.wholeExpression settings) (Reader.wholeExpression settings) :=
  .wholeExpression located_pace (.expression located_pace.toPace (located_deep · _) _)

theorem located_script : InStep (Located source) (AtPlace source)
    (Reader.script settings) (Reader.script settings) :=
  .script located_pace (fun h => ⟨by rw [h.1], h.2.1, trivial⟩)
    (.expression located_pace.toPace (located_deep · _) _)
    (.statement located_pace rfl (fun _ => .inl rfl) (located_deep · _))

end Located

/-- What a reader that points at what it refuses makes of a source text. -/
theorem Reader.InStep.pointsInto {α β : Type} {reader : Reader α} {f : α → β} {source : String}
    {d : Diagnostic}
    (hreader : InStep (Located source.toList) (AtPlace source.toList) reader reader)
    (h : (reader.run source).map f = .error d) : d.PointsInto source := by
  have hstart : AtPlace source.toList ⟨source.toList, ∅⟩ ⟨source.toList, ∅⟩ :=
    ⟨rfl, List.suffix_refl _, trivial⟩
  rcases (hreader _ _ hstart).run with ⟨a, ha, -⟩ | ⟨e, he, hlocated⟩
  · rw [ha] at h
    cases h
  · rw [he] at h
    cases h
    rcases hlocated with hpoints | ⟨e', -, hpoints⟩ <;> exact Refusal.PointsInto.diagnostic hpoints

/-- **A diagnostic points at the text that is wrong.** Its position is that of a character of the
source text or the end of it, and what stands there is what the complaint names. -/
theorem diagnostic_located {settings : Settings} {source : String} {d : Diagnostic}
    (h : compile settings source = .error d ∨ compileExpression settings source = .error d) :
    d.PointsInto source := by
  rcases h with h | h
  · rw [compile_eq] at h
    exact located_script.pointsInto h
  · rw [compileExpression_eq] at h
    exact located_wholeExpression.pointsInto h

/-- A call with an argument too many, with longer characters and a comment in front of it. -/
def miscalledText : String :=
  "function f(a) \x7b return a; \x7d // é\nreturn f('é', 2);"

/-- The complaint comes after the arguments and points before them. -/
theorem diagnostic_located_miscalled :
    ∃ d, compile .standard miscalledText = .error d ∧ d.complaint = .argumentCount "f" 1 2 ∧
      d.position = 41 ∧ d.PointsInto miscalledText := by
  have hfails : (match compile .standard miscalledText with
      | .ok _ => false
      | .error d => d.complaint = .argumentCount "f" 1 2 ∧ d.position = 41 : Bool) := by
    decide +kernel
  cases hd : compile .standard miscalledText with
  | ok p =>
    rw [hd] at hfails
    cases hfails
  | error d =>
    rw [hd] at hfails
    obtain ⟨hcomplaint, hposition⟩ := of_decide_eq_true hfails
    exact ⟨d, rfl, hcomplaint, hposition, diagnostic_located (.inl hd)⟩

end StackScript
