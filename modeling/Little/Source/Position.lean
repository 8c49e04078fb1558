/-!
# Places in a source text

A place is known three ways: by how many characters lie before it, by its line, and by its column.
Lines count from 1 and columns from 0. Only a line feed ends a line; every other character, a
carriage return included, takes one column.
-/

namespace Little

/-- A place in a source text. -/
structure Position where
  /-- How many characters lie before the place. -/
  offset : Nat
  /-- The line, the first being 1. -/
  line : Nat
  /-- How many characters lie between the start of the line and the place. -/
  column : Nat
deriving DecidableEq, Repr

namespace Position

/-- The place before the first character. -/
def start : Position := ⟨0, 1, 0⟩

/-- The place just behind a character that stands at `place`. -/
def next (place : Position) (c : Char) : Position :=
  if c = '\n' then ⟨place.offset + 1, place.line + 1, 0⟩
  else ⟨place.offset + 1, place.line, place.column + 1⟩

/-- The place just behind a stretch of characters that begins at `place`. -/
def advance (place : Position) (text : List Char) : Position :=
  text.foldl next place

@[simp] theorem advance_nil (place : Position) : place.advance [] = place := rfl

@[simp] theorem advance_cons (place : Position) (c : Char) (text : List Char) :
    place.advance (c :: text) = (place.next c).advance text := rfl

theorem advance_append (place : Position) (front back : List Char) :
    place.advance (front ++ back) = (place.advance front).advance back := by
  simp [advance]

@[simp] theorem offset_next (place : Position) (c : Char) :
    (place.next c).offset = place.offset + 1 := by
  unfold next
  split <;> rfl

theorem offset_advance (place : Position) (text : List Char) :
    (place.advance text).offset = place.offset + text.length := by
  induction text generalizing place with
  | nil => rfl
  | cons c text ih => simp only [advance_cons, ih, offset_next, List.length_cons]; omega

end Position

end Little
