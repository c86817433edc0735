/-!
# Places in a text

A cursor is a place in a text: what is still to be read, and how many code points come before it.
-/

namespace ArenaLisp

/-- The characters between expressions. -/
def isBlank (c : Char) : Bool := c == ' ' || c == '\t' || c == '\n' || c == '\r'

/-- The characters that end an atom. -/
def isDelimiter (c : Char) : Bool := isBlank c || c == '(' || c == ')'

/-- A place in a text. -/
structure Cursor where
  /-- The text from here on. -/
  rest : List Char
  /-- The number of code points before this place. -/
  pos : Nat
  /-- The number of code points of the whole text. -/
  size : Nat
  pos_add_length : pos + rest.length = size
  deriving DecidableEq

namespace Cursor

/-- The beginning of a text. -/
def ofList (text : List Char) : Cursor := ⟨text, 0, text.length, Nat.zero_add _⟩

/-- The beginning of a text. -/
def ofString (text : String) : Cursor := ofList text.toList

/-- The character that comes next. -/
def peek? (c : Cursor) : Option Char := c.rest.head?

/-- The place behind the next character. -/
def next : Cursor → Cursor
  | ⟨_ :: rest, pos, size, h⟩ => ⟨rest, pos + 1, size, by simp only [List.length_cons] at h; omega⟩
  | ⟨[], pos, size, h⟩ => ⟨[], pos, size, h⟩

/-- The characters up to the first that `p` does not hold of. -/
def takeWhile (c : Cursor) (p : Char → Bool) : List Char := c.rest.takeWhile p

/-- The place of the first character that `p` does not hold of, or the end. -/
def dropWhile (c : Cursor) (p : Char → Bool) : Cursor where
  rest := c.rest.dropWhile p
  pos := c.pos + (c.rest.takeWhile p).length
  size := c.size
  pos_add_length := by
    have h := congrArg List.length (List.takeWhile_append_dropWhile (p := p) (l := c.rest))
    have := c.pos_add_length
    simp only [List.length_append] at h
    omega

theorem pos_le_size (c : Cursor) : c.pos ≤ c.size := by
  have := c.pos_add_length
  omega

@[simp] theorem size_next (c : Cursor) : c.next.size = c.size := by
  cases c with
  | mk rest => cases rest <;> rfl

@[simp] theorem size_dropWhile (c : Cursor) (p : Char → Bool) : (c.dropWhile p).size = c.size := rfl

end Cursor

end ArenaLisp
