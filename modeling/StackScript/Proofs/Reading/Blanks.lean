import StackScript.Proofs.Reading.Pace
import StackScript.Proofs.Reading.Post

/-!
# Blanks in front of what is read

A scanner that takes nothing skips blanks, and most readers start with a scanner. So it makes no
difference to them whether blanks have been skipped before (`SkipsBlanks`).
-/

namespace StackScript

open Lexeme

/-- A reading without the blanks at the front of its text. -/
def Reading.skip (r : Reading) : Reading := { r with rest := dropBlanks r.rest }

theorem Reading.skip_skip (r : Reading) : r.skip.skip = r.skip := by
  simp only [Reading.skip, dropBlanks_idem]

namespace Reader

variable {α β : Type}

/-- Blanks in front of what a reader reads make no difference to it. -/
def SkipsBlanks (x : Reader α) : Prop := ∀ r : Reading, x r.skip = x r

namespace SkipsBlanks

theorem bind {x : Reader α} (h : SkipsBlanks x) (f : α → Reader β) : SkipsBlanks (x >>= f) := by
  intro r
  have hbind : ∀ r, (x >>= f) r = EStateM.bind x f r := fun _ => rfl
  rw [hbind, hbind, EStateM.bind, EStateM.bind, h r]

theorem scan {s : Scanner α} (h : ∀ text, s (dropBlanks text) = s text) :
    SkipsBlanks (Reader.scan s) := by
  intro r
  simp only [Reader.scan, Reading.skip, h]

theorem skipBlanks : SkipsBlanks (Reader.scan .skipBlanks) :=
  scan fun text => by simp only [Scanner.skipBlanks, dropBlanks_idem]

theorem take? (recognise : List Char → Option (α × List Char)) :
    SkipsBlanks (Reader.scan (.take? recognise)) :=
  scan fun text => by simp only [Scanner.take?, dropBlanks_idem]

theorem isSome_take? (recognise : List Char → Option (α × List Char)) :
    SkipsBlanks (Reader.scan (Option.isSome <$> .take? recognise)) := by
  refine scan fun text => ?_
  show EStateM.map _ _ _ = EStateM.map _ _ _
  simp only [EStateM.map, Scanner.take?, dropBlanks_idem]

theorem name (what : String) : SkipsBlanks (Reader.name what) := skipBlanks.bind _

theorem statementWith (settings : Settings) (expr : Reader Expr) (block : Reader (List Stmt)) :
    SkipsBlanks (Reader.statementWith settings expr block) := (isSome_take? _).bind _

end SkipsBlanks

/-- A scanner that takes nothing skips blanks. -/
theorem eq_skip_of_scan {recognise : List Char → Option (α × List Char)} {r r' : Reading}
    (h : scan (Option.isSome <$> .take? recognise) r = .ok false r') : r' = r.skip := by
  cases hrec : recognise (dropBlanks r.rest) with
  | none =>
    rw [scan_isSome_none hrec] at h
    cases h
    rfl
  | some found =>
    rw [scan_isSome_some hrec] at h
    cases h

theorem eq_skip_of_atEnd {r r' : Reading} {b : Bool} (h : scan .atEnd r = .ok b r') :
    r' = r.skip := by
  cases h
  rfl

/-- Blanks make no difference to readers that skip them. -/
theorem Paired.of_skip {E : Refusal → Option Refusal → Prop} {x : Reader α} {y : Reader β}
    {r s : Reading} {Q : α → β → Reading → Reading → Prop} (hx : SkipsBlanks x) (hy : SkipsBlanks y)
    (h : Paired E x y r s Q) : Paired E x y r.skip s.skip Q := by
  unfold Paired at h ⊢
  rwa [hx, hy]

end Reader

end StackScript
