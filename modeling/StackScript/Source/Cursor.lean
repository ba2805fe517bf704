import StackScript.Source.Diagnostic
import StackScript.Source.Lexeme
import StackScript.Source.Literal

/-!
# Scanning by byte positions

A cursor is a byte position in a source text. It is asked for the lexeme that is expected next: it
skips blanks, and then either takes the lexeme or stays. Characters are decoded where they are
needed. A step over one adds the length of its UTF-8 form to the position, a step over a word or an
operator the length of that, and numbers are found byte by byte.

What remains of a source can only be looked at from a boundary between characters on. A position
inside a character is complained about as `internal`: no text is to blame for it.

These are all the questions that the compiler asks of a source. How a word or a numeral that has
been cut out is read for its value is the matter of `Literal`.
-/

namespace StackScript

/-- A complaint about a byte position. -/
structure Rejection where
  complaint : Complaint
  position : Nat
  deriving DecidableEq, Repr

/-- Reads a source text from a byte position on. -/
abbrev Cursor := ReaderT String (EStateM Rejection Nat)

namespace Cursor

variable {α : Type}

theorem bind_ok {β : Type} {x : Cursor α} {f : α → Cursor β} {source : String} {p q : Nat} {a : α}
    (h : x source p = .ok a q) : (x >>= f) source p = f a source q := by
  change EStateM.bind (x source) (fun a => f a source) p = _
  rw [EStateM.bind, h]

theorem bind_eq_ok {β : Type} {x : Cursor α} {f : α → Cursor β} {source : String} {p q : Nat}
    {b : β} : (x >>= f) source p = .ok b q ↔
      ∃ a r, x source p = .ok a r ∧ f a source r = .ok b q := by
  change EStateM.bind (x source) (fun a => f a source) p = _ ↔ _
  unfold EStateM.bind
  cases x source p <;> simp [and_assoc]

theorem bind_error {β : Type} {x : Cursor α} {f : α → Cursor β} {source : String} {p q : Nat}
    {e : Rejection} (h : x source p = .error e q) : (x >>= f) source p = .error e q := by
  change EStateM.bind (x source) (fun a => f a source) p = _
  rw [EStateM.bind, h]

theorem bind_read {β : Type} (f : String → Cursor β) (source : String) (p : Nat) :
    ((read : Cursor String) >>= f) source p = f source source p := rfl

theorem bind_get {β : Type} (f : Nat → Cursor β) (source : String) (p : Nat) :
    ((get : Cursor Nat) >>= f) source p = f p source p := rfl

/-! ## Bytes, characters and slices -/

/-- Refuses the source at an index. -/
def refuseAt (index : Nat) (c : Complaint) : Cursor α := fun _ position =>
  .error ⟨c, index⟩ position

/-- Refuses the source here. -/
def refuse (c : Complaint) : Cursor α := fun _ position => .error ⟨c, position⟩ position

/-- Complains about an index that is no boundary between characters. -/
def offBoundary (index : Nat) : Cursor α :=
  refuse (.internal s!"byte index {index} is not a char boundary")

/-- The byte at an index. -/
def byteAt? (source : String) (index : Nat) : Option UInt8 :=
  if h : (⟨index⟩ : String.Pos.Raw) < source.rawEndPos then some (source.getUTF8Byte ⟨index⟩ h)
  else none

/-- Whether the bytes of a word stand at an index. -/
def hasAt (source : String) (index : Nat) (w : String) : Bool :=
  (List.range w.utf8ByteSize).all fun k => byteAt? source (index + k) == byteAt? w k

/-- The character that begins at an index, if that is not the end. -/
def charAt (index : Nat) : Cursor (Option Char) := fun source position =>
  match String.Pos.Raw.get? source ⟨index⟩ with
  | some c => .ok (some c) position
  | none =>
    if index = source.utf8ByteSize then .ok none position else offBoundary index source position

/-- The source between two indices. -/
def slice (start stop : Nat) : Cursor String := do
  let _ ← charAt start
  let _ ← charAt stop
  if stop < start then offBoundary stop
  return String.Pos.Raw.extract (← read) ⟨start⟩ ⟨stop⟩

/-- The character at the position. -/
def current : Cursor (Option Char) := do charAt (← get)

/-- Steps over a character. -/
def advance : Cursor (Option Char) := do
  match ← current with
  | none => return none
  | some c =>
    modify (· + c.utf8Size)
    return some c

/-- Whether the text that remains starts with a word. -/
def startsWith (w : String) : Cursor Bool := do
  let _ ← current
  return hasAt (← read) (← get) w

theorem utf8GetAux?_lt (text : List Char) (i p : Nat) {c : Char}
    (h : String.Pos.Raw.utf8GetAux? text ⟨i⟩ ⟨p⟩ = some c) : p < i + utf8Length text := by
  induction text generalizing i with
  | nil => cases h
  | cons d text ih =>
    rw [utf8Length_cons]
    change (if (⟨i⟩ : String.Pos.Raw) = ⟨p⟩ then some d else
      String.Pos.Raw.utf8GetAux? text ⟨i + d.utf8Size⟩ ⟨p⟩) = some c at h
    split at h
    · rename_i hip
      have : i = p := congrArg String.Pos.Raw.byteIdx hip
      have := d.utf8Size_pos
      omega
    · have hlt := ih (i + d.utf8Size) h
      omega

section Characters

variable {source : String} {position next : Nat} {c : Char}

/-- What is at a position: a character, the end, or the inside of a character. -/
theorem current_cases (source : String) (position : Nat) :
    (∃ c, position < source.utf8ByteSize ∧ current source position = .ok (some c) position) ∨
      current source position = .ok none position ∨
      ∃ e, current source position = .error e position := by
  change (∃ c, _ ∧ charAt position source position = _) ∨ charAt position source position = _ ∨
    ∃ e, charAt position source position = _
  unfold charAt
  cases hget : String.Pos.Raw.get? source ⟨position⟩ with
  | some c =>
    have hlt := utf8GetAux?_lt source.toList 0 position hget
    rw [utf8Length_toList, Nat.zero_add] at hlt
    exact .inl ⟨c, hlt, rfl⟩
  | none =>
    simp only
    split
    · exact .inr (.inl rfl)
    · exact .inr (.inr ⟨_, rfl⟩)

/-- What is stepped over lies in the source. -/
theorem advance_lt (h : advance source position = .ok (some c) next) :
    position < next ∧ position < source.utf8ByteSize := by
  rcases current_cases source position with ⟨d, hlt, hd⟩ | hnone | ⟨e, he⟩
  · have hstep : advance source position = .ok (some d) (position + d.utf8Size) := bind_ok hd
    cases hstep.symm.trans h
    exact ⟨Nat.lt_add_of_pos_right c.utf8Size_pos, hlt⟩
  · have hstep : advance source position = .ok none position := bind_ok hnone
    cases hstep.symm.trans h
  · cases (bind_error he).symm.trans h

end Characters

/-! ## Blanks -/

/-- Steps over characters as long as they have a property. -/
def advanceWhile (p : Char → Bool) : Cursor Unit := fun source position =>
  match _ : advance source position with
  | .ok (some c) next => if p c then advanceWhile p source next else .ok () position
  | .ok none position => .ok () position
  | .error e position => .error e position
termination_by source position => source.utf8ByteSize - position
decreasing_by
  have := advance_lt ‹_›
  omega

/-- Steps over the rest of a line and its end. -/
def advanceLine : Cursor Unit := fun source position =>
  match _ : advance source position with
  | .ok (some c) next => if c = '\n' then .ok () next else advanceLine source next
  | .ok none position => .ok () position
  | .error e position => .error e position
termination_by source position => source.utf8ByteSize - position
decreasing_by
  have := advance_lt ‹_›
  omega

/-- Steps over a comment, if one begins here. -/
def comment : Cursor Bool := do
  if !(← startsWith "//") then return false
  match ← advance with
  | none => return false
  | some _ =>
    advanceLine
    return true

section Forward

variable {source : String} {position next : Nat}

theorem le_of_advance {c : Option Char} (h : advance source position = .ok c next) :
    position ≤ next := by
  rcases current_cases source position with ⟨d, -, hd⟩ | hnone | ⟨e, he⟩
  · cases (bind_ok hd).symm.trans h
    exact Nat.le_add_right _ _
  · cases (bind_ok hnone).symm.trans h
    exact Nat.le_refl _
  · cases (bind_error he).symm.trans h

theorem le_of_advanceWhile {p : Char → Bool} (h : advanceWhile p source position = .ok () next) :
    position ≤ next := by
  fun_induction advanceWhile p source position with
  | case1 position c q hadvance hp ih => exact Nat.le_trans (le_of_advance hadvance) (ih h)
  | case2 =>
    cases h
    exact Nat.le_refl _
  | case3 position q hadvance =>
    cases h
    exact le_of_advance hadvance
  | case4 => cases h

theorem le_of_advanceLine (h : advanceLine source position = .ok () next) : position ≤ next := by
  fun_induction advanceLine source position with
  | case1 position q hadvance =>
    cases h
    exact le_of_advance hadvance
  | case2 position c q hadvance hc ih => exact Nat.le_trans (le_of_advance hadvance) (ih h)
  | case3 position q hadvance =>
    cases h
    exact le_of_advance hadvance
  | case4 => cases h

/-- Looking at what remains does not move a cursor. -/
theorem eq_of_startsWith {w : String} {starts : Bool}
    (h : startsWith w source position = .ok starts next) : next = position := by
  rcases current_cases source position with ⟨d, -, hd⟩ | hnone | ⟨e, he⟩
  · cases (bind_ok hd).symm.trans h
    rfl
  · cases (bind_ok hnone).symm.trans h
    rfl
  · cases (bind_error he).symm.trans h

/-- A comment is at least one character long. -/
theorem lt_of_comment (h : comment source position = .ok true next) :
    position < next ∧ position < source.utf8ByteSize := by
  obtain ⟨starts, p, hstarts, h⟩ := bind_eq_ok.mp h
  obtain rfl := eq_of_startsWith hstarts
  cases starts with
  | false => cases h
  | true =>
    obtain ⟨c, q, hadvance, h⟩ := bind_eq_ok.mp h
    cases c with
    | none => cases h
    | some c =>
      obtain ⟨_, r, hline, h⟩ := bind_eq_ok.mp h
      cases h
      have hlt := advance_lt hadvance
      exact ⟨Nat.lt_of_lt_of_le hlt.1 (le_of_advanceLine hline), hlt.2⟩

end Forward

/-- Skips blanks and comments. -/
def skipBlanks : Cursor Unit := fun source position =>
  match _ : advanceWhile Lexeme.isBlank source position with
  | .error e position => .error e position
  | .ok () start =>
    match _ : comment source start with
    | .ok true next => skipBlanks source next
    | .ok false position => .ok () position
    | .error e position => .error e position
termination_by source position => source.utf8ByteSize - position
decreasing_by
  have := le_of_advanceWhile ‹_›
  have := lt_of_comment ‹_›
  omega

/-- Whether only blanks and comments remain. -/
def atEnd : Cursor Bool := do
  skipBlanks
  return (← get) = (← read).utf8ByteSize

/-! ## Words and symbols -/

/-- Takes a character. -/
def symbol (c : Char) : Cursor Bool := do
  skipBlanks
  if (← current) = some c then
    let _ ← advance
    return true
  return false

/-- Takes a given word, unless a longer one stands here. -/
def word (w : String) : Cursor Bool := do
  skipBlanks
  if !(← startsWith w) then return false
  let stop := (← get) + w.utf8ByteSize
  if (← charAt stop).any Lexeme.isWordChar then return false
  set stop
  return true

/-- Takes a word. -/
def identifier : Cursor (Option String) := do
  skipBlanks
  let start ← get
  advanceWhile Lexeme.isWordChar
  let stop ← get
  if stop = start then return none
  return some (← slice start stop)

/-- Takes a binary operator, the first that fits. -/
def binaryOperator : Cursor (Option Operator) := do
  skipBlanks
  let _ ← current
  let source ← read
  let start ← get
  match Operator.binary.find? (hasAt source start ·.symbol) with
  | none => return none
  | some op =>
    set (start + op.symbol.utf8ByteSize)
    return some op

/-- Takes a prefix operator. -/
def unaryOperator : Cursor (Option Operator) := do
  skipBlanks
  match (← current).bind Operator.ofSign? with
  | none => return none
  | some op =>
    let _ ← advance
    return some op

/-! ## Strings -/

/-- The rest of a string that begins at `start`, behind its opening quote and what is `done`. -/
def stringRest (raw : Bool) (start : Nat) (done : String) : Cursor (Option String) :=
  fun source position =>
  match _ : advance source position with
  | .error e position => .error e position
  | .ok none position => .error ⟨.unterminatedString, start⟩ position
  | .ok (some c) next =>
    if c = '\'' then .ok (some done) next
    else if c = '\\' ∧ !raw then
      match _ : advance source next with
      | .error e position => .error e position
      | .ok none position => .error ⟨.unterminatedString, start⟩ position
      | .ok (some d) behind =>
        match Literal.escape? d with
        | none => .error ⟨.invalidEscape d, next⟩ behind
        | some e => stringRest raw start (done.push e) source behind
    else stringRest raw start (done.push c) source next
termination_by source position => source.utf8ByteSize - position
decreasing_by
  · have := advance_lt ‹advance _ _ = .ok (some c) next›
    have := advance_lt ‹advance _ next = _›
    omega
  · have := advance_lt ‹_›
    omega

/-- Takes a string literal. -/
def string : Cursor (Option String) := do
  skipBlanks
  let start ← get
  let first ← current
  if first = some '@' then
    let _ ← advance
    if (← current) ≠ some '\'' then refuse (.expected "' after @")
    let _ ← advance
    stringRest true start ""
  else if first = some '\'' then
    let _ ← advance
    stringRest false start ""
  else return none

/-! ## Numbers -/

/-- The byte at an index as a character. The bytes of longer characters give no letter, digit, sign
or point. -/
def byteCharAt? (source : String) (index : Nat) : Option Char :=
  (byteAt? source index).map Char.ofUInt8

theorem lt_of_byteCharAt? {source : String} {index : Nat} {p : Char → Bool}
    (h : (byteCharAt? source index).any p) : index < source.utf8ByteSize := by
  unfold byteCharAt? byteAt? at h
  split at h
  · assumption
  · cases h

/-- The index behind the digits from an index on. -/
def digitsEnd (source : String) (index : Nat) : Nat :=
  if (byteCharAt? source index).any Char.isDigit then digitsEnd source (index + 1) else index
termination_by source.utf8ByteSize - index
decreasing_by
  have := lt_of_byteCharAt? ‹_›
  omega

/-- The index behind the exponent of a number that ends at `index` if it has none; nothing if an `e`
has no digits after it. -/
def exponentEnd? (source : String) (index : Nat) : Option Nat :=
  if (byteCharAt? source index).any fun c => c = 'e' ∨ c = 'E' then
    let signed := (byteCharAt? source (index + 1)).any fun c => c = '+' ∨ c = '-'
    let first := if signed then index + 2 else index + 1
    let stop := digitsEnd source first
    if stop = first then none else some stop
  else some index

/-- The index behind the number that begins at an index, and whether a point or an exponent makes it
a double. -/
def numberEnd? (source : String) (start : Nat) : Option (Nat × Bool) :=
  let wholeEnd := digitsEnd source start
  let hasPoint := (byteCharAt? source wholeEnd).any (· = '.')
  let mantissaEnd := if hasPoint then digitsEnd source (wholeEnd + 1) else wholeEnd
  let fractionDigits := if hasPoint then mantissaEnd - (wholeEnd + 1) else 0
  if wholeEnd - start + fractionDigits = 0 then none
  else
    match exponentEnd? source mantissaEnd with
    | none => none
    | some stop =>
      if (byteCharAt? source stop).any Literal.continuesNumber then none
      else some (stop, hasPoint || stop ≠ mantissaEnd)

/-- Takes a number. -/
def number : Cursor (Option Value) := do
  skipBlanks
  let start ← get
  match numberEnd? (← read) start with
  | none => return none
  | some (stop, isDouble) =>
    let text ← slice start stop
    match if isDouble then Literal.parseDouble? text.toList else Literal.parseInt? text.toList with
    | some v =>
      set stop
      return some v
    | none => refuseAt start (.invalidNumber text)

end Cursor

end StackScript
