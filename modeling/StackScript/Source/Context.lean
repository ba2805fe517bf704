/-!
# Places in a source text

Positions in a source text are counted in bytes of its UTF-8 form. `Context.around` shows the text
on both sides of a position; a position inside a character counts as the start of it, one beyond
the end as the end.
-/

namespace StackScript

/-- The length of a text in bytes. -/
def utf8Length (text : List Char) : Nat := text.foldl (fun n c => n + c.utf8Size) 0

theorem foldl_utf8Size (text : List Char) (n : Nat) :
    text.foldl (fun n c => n + c.utf8Size) n = n + utf8Length text := by
  induction text generalizing n with
  | nil => rfl
  | cons c text ih =>
    rw [utf8Length, List.foldl_cons, List.foldl_cons, ih, ih (0 + c.utf8Size)]
    omega

theorem utf8Length_append (front back : List Char) :
    utf8Length (front ++ back) = utf8Length front + utf8Length back := by
  rw [utf8Length, List.foldl_append, foldl_utf8Size]
  rfl

theorem utf8Length_cons (c : Char) (text : List Char) :
    utf8Length (c :: text) = c.utf8Size + utf8Length text := by
  rw [utf8Length, List.foldl_cons, foldl_utf8Size, Nat.zero_add]

/-- The bytes of a text are those of its characters, one after another. -/
theorem size_utf8Encode (text : List Char) : text.utf8Encode.size = utf8Length text := by
  induction text with
  | nil => rfl
  | cons c text ih =>
    rw [List.utf8Encode_cons, ByteArray.size_append, ih, utf8Length_cons, List.utf8Encode_singleton,
      List.size_toByteArray, String.length_utf8EncodeChar]

theorem utf8Length_toList (s : String) : utf8Length s.toList = s.utf8ByteSize := by
  rw [← size_utf8Encode, String.utf8Encode_toList, String.utf8ByteSize]

/-- Cuts a text at the last character boundary not after `position`. -/
def splitAtByte : (position : Nat) → List Char → List Char × List Char
  | _, [] => ([], [])
  | position, c :: rest =>
    if c.utf8Size ≤ position then
      let (before, after) := splitAtByte (position - c.utf8Size) rest
      (c :: before, after)
    else ([], c :: rest)

/-- The text around a position. -/
structure Context where
  before : String
  after : String
  /-- Nothing follows the position. -/
  atEnd : Bool
  deriving DecidableEq, Repr

/-- How many characters a context shows on either side. -/
def Context.width : Nat := 30

/-- The context of a position in a text. -/
def Context.around (source : String) (position : Nat) : Context :=
  let (before, after) := splitAtByte position source.toList
  { before := String.ofList (before.drop (before.length - width))
    after := String.ofList (after.take width)
    atEnd := after.isEmpty }

end StackScript
