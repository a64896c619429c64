/-!
# Text/Offset — places in a text, counted in UTF-8 bytes

Errors and tokens name places by their byte offset. For a reader of several lines an offset is given
as a `Location`: the line, counted from one, and the number of bytes of that line before it.
-/

namespace FilterQuery.Text

/-- The number of bytes of the characters in UTF-8. -/
def byteLength : List Char → Nat
  | [] => 0
  | c :: cs => c.utf8Size + byteLength cs

@[simp] theorem byteLength_nil : byteLength [] = 0 := rfl

@[simp] theorem byteLength_cons (c : Char) (cs : List Char) :
    byteLength (c :: cs) = c.utf8Size + byteLength cs := rfl

@[simp] theorem byteLength_append (cs ds : List Char) :
    byteLength (cs ++ ds) = byteLength cs + byteLength ds := by
  induction cs with
  | nil => simp
  | cons c cs ih => simp [ih, Nat.add_assoc]

/-- **The empty text alone has no bytes.** -/
theorem byteLength_eq_zero_iff (cs : List Char) : byteLength cs = 0 ↔ cs = [] := by
  cases cs with
  | nil => simp
  | cons c cs => simp [Nat.ne_of_gt c.utf8Size_pos]

/-- **The bytes of a text are those of its characters.** -/
theorem byteLength_toList (s : String) : byteLength s.toList = s.utf8ByteSize := by
  suffices ∀ cs : List Char, byteLength cs = (String.ofList cs).utf8ByteSize by
    rw [this, String.ofList_toList]
  intro cs
  induction cs with
  | nil => simp
  | cons c cs ih =>
    rw [byteLength_cons, ih, String.ofList_cons, String.utf8ByteSize_append,
      String.utf8ByteSize_singleton]

/-- A line of a text and a byte of that line. -/
structure Location where
  line : Nat
  column : Nat
  deriving DecidableEq, Inhabited

/-- The place just after `c`, for a reader who stood at `l`. -/
def Location.after (l : Location) (c : Char) : Location :=
  if c = '\n' then ⟨l.line + 1, 0⟩ else ⟨l.line, l.column + c.utf8Size⟩

/-- The place `offset` bytes on, for a reader who stands at `l` before `cs`. An offset inside of a
character counts the bytes of it that come before. -/
def Location.advance : Location → List Char → Nat → Location
  | l, [], _ => l
  | l, c :: cs, offset =>
    if offset < c.utf8Size then ⟨l.line, l.column + offset⟩
    else (l.after c).advance cs (offset - c.utf8Size)

/-- The place of a byte offset. -/
def locate (cs : List Char) (offset : Nat) : Location :=
  Location.advance ⟨1, 0⟩ cs offset

end FilterQuery.Text
