/-!
# Positions

An offset in bytes becomes a line and a column for a reader.  Both count from one.  A
line ends behind a line feed, and columns count characters.

`Position.ofOffset` reads the text up to the offset.  Who asks for many offsets of one
text makes `Positions` of it, which reads the text once and gives the same answers.
-/

namespace LetPoly.Text

/-- A line and a column. -/
structure Position where
  line : Nat
  column : Nat
  deriving DecidableEq, Repr

/-- The position behind a character. -/
def Position.next (p : Position) (c : Char) : Position :=
  if c = '\n' then ⟨p.line + 1, 1⟩ else ⟨p.line, p.column + 1⟩

/-- The position `offset` bytes behind a position, in the text that follows it. -/
def Position.advance (p : Position) (offset : Nat) : List Char → Position
  | [] => p
  | c :: cs =>
    if offset = 0 then p
    else Position.advance (p.next c) (offset - c.utf8Size) cs

/-- The position of an offset in a text. -/
def Position.ofOffset (source : String) (offset : Nat) : Position :=
  Position.advance ⟨1, 1⟩ offset source.toList

/-! ## All positions of a text -/

/-- The positions of a text by offset. -/
structure Positions where
  /-- The position of each offset before the end. -/
  inside : Array Position
  /-- The position of the end. -/
  last : Position

namespace Positions

/-- The positions of the bytes of a text that follows a position.  The bytes of a character behind
its first count as behind the character. -/
def scan (p : Position) : List Char → List Position
  | [] => []
  | c :: cs => p :: (List.replicate (c.utf8Size - 1) (p.next c) ++ scan (p.next c) cs)

/-- The positions of a text. -/
def ofString (source : String) : Positions :=
  ⟨(scan ⟨1, 1⟩ source.toList).toArray, source.toList.foldl Position.next ⟨1, 1⟩⟩

/-- The position of an offset.  An offset past the end has the position of the end. -/
def get (ps : Positions) (offset : Nat) : Position := ps.inside[offset]?.getD ps.last

/-- The positions that are scanned are those that advancing from the first one leads to. -/
theorem getElem?_scan (p : Position) (cs : List Char) (offset : Nat) :
    (scan p cs)[offset]?.getD (cs.foldl Position.next p) = p.advance offset cs := by
  induction cs generalizing p offset with
  | nil => simp [scan, Position.advance]
  | cons c cs ih =>
    cases offset with
    | zero => simp [scan, Position.advance]
    | succ n =>
      simp only [scan, List.getElem?_cons_succ, List.foldl_cons, Position.advance]
      by_cases hn : n < c.utf8Size - 1
      · have hsize : n + 1 - c.utf8Size = 0 := by omega
        rw [List.getElem?_append_left (by simpa using hn), hsize]
        cases cs <;> simp [Position.advance, hn]
      · have hsize : n + 1 - c.utf8Size = n - (c.utf8Size - 1) := by
          have := c.utf8Size_pos
          omega
        rw [List.getElem?_append_right (by simpa using hn), hsize]
        simpa using ih (p.next c) (n - (c.utf8Size - 1))

@[simp] theorem get_ofString (source : String) (offset : Nat) :
    (ofString source).get offset = Position.ofOffset source offset := by
  simp [get, ofString, Position.ofOffset, getElem?_scan]

end Positions

end LetPoly.Text
