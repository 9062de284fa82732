import LetPoly.Text.Cluster

/-!
# Layout of documents

A document is text with places where a line may be broken.  Laying it out for a width
decides which of them are.  A group is laid out *flat*, with a blank for each of its
lines, if it fits: if its flat text and what follows it up to the next line break end
within the width.  What follows is read with all its lines broken.  A group that does
not fit is laid out with its own lines broken, and its inner groups are tried in turn.
A hard line is broken always, and no group around it fits.

So the layout of a part needs to know of the rest of the document only how much of it
stands on the same line.  `Doc.layout` takes that number, `tail`, besides the column
and the indentation, and is structural.

A laid out document is a list of pieces of text, which `Doc.render` joins.
-/

namespace LetPoly

/-- Text with places where a line may be broken. -/
inductive Doc where
  /-- Nothing. -/
  | empty
  /-- A text with the number of columns it takes. -/
  | text (s : String) (width : Nat)
  /-- A blank, or a line break in a group that does not fit. -/
  | line
  /-- A line break. -/
  | hardLine
  /-- One document behind another. -/
  | append (a b : Doc)
  /-- A document whose line breaks are indented further. -/
  | nest (n : Nat) (d : Doc)
  /-- A document whose lines are all flat if it fits. -/
  | group (d : Doc)
  deriving Repr, Inhabited

namespace Doc

instance : Append Doc := ⟨append⟩

/-- A text as a document. -/
def ofString (s : String) : Doc := text s (Text.width s)

/-- Documents one behind another. -/
def concat (ds : List Doc) : Doc := ds.foldr append empty

/-- Documents one behind another, with a document between each two. -/
def intersperse (sep : Doc) : List Doc → Doc
  | [] => empty
  | [d] => d
  | d :: ds => d ++ sep ++ intersperse sep ds

/-- The width of the flat text, if there is no hard line in it. -/
def flatWidth? : Doc → Option Nat
  | empty => some 0
  | text _ w => some w
  | line => some 1
  | hardLine => none
  | append a b =>
    match flatWidth? a, flatWidth? b with
    | some m, some n => some (m + n)
    | _, _ => none
  | nest _ d => flatWidth? d
  | group d => flatWidth? d

/-- The pieces of the flat text. -/
def flat : Doc → List String
  | empty => []
  | text s _ => [s]
  | line => [" "]
  | hardLine => ["\n"]
  | append a b => flat a ++ flat b
  | nest _ d => flat d
  | group d => flat d

/-- Whether a document has a place for a line break. -/
def hasLine : Doc → Bool
  | empty => false
  | text _ _ => false
  | line => true
  | hardLine => true
  | append a b => hasLine a || hasLine b
  | nest _ d => hasLine d
  | group d => hasLine d

/-- The width of the text before the first place for a line break. -/
def leadWidth : Doc → Nat
  | empty => 0
  | text _ w => w
  | line => 0
  | hardLine => 0
  | append a b => if hasLine a then leadWidth a else leadWidth a + leadWidth b
  | nest _ d => leadWidth d
  | group d => leadWidth d

/-- How much stands on the same line behind what comes before a document, if `tail` stands behind
the document. -/
def tailBefore (d : Doc) (tail : Nat) : Nat :=
  if d.hasLine then d.leadWidth else d.leadWidth + tail

/-- A line break with indentation. -/
def lineBreak (indent : Nat) : String := "\n" ++ String.ofList (List.replicate indent ' ')

/-- Whether a document fits flat between the column and the tail. -/
def fits (width : Nat) (d : Doc) (column tail : Nat) : Bool :=
  match d.flatWidth? with
  | some w => decide (column + w + tail ≤ width)
  | none => false

/-- Lays out a document with its lines broken, and gives the column it ends in. -/
def layout (width : Nat) : Doc → (indent column tail : Nat) → List String × Nat
  | empty, _, column, _ => ([], column)
  | text s w, _, column, _ => ([s], column + w)
  | line, indent, _, _ => ([lineBreak indent], indent)
  | hardLine, indent, _, _ => ([lineBreak indent], indent)
  | append a b, indent, column, tail =>
    let (ss, column) := layout width a indent column (tailBefore b tail)
    let (ts, column) := layout width b indent column tail
    (ss ++ ts, column)
  | nest n d, indent, column, tail => layout width d (indent + n) column tail
  | group d, indent, column, tail =>
    if fits width d column tail then (d.flat, column + d.flatWidth?.getD 0)
    else layout width d indent column tail

/-- Lays out a document for a width. -/
def render (width : Nat) (d : Doc) : String := String.join (d.layout width 0 0 0).1

end Doc

end LetPoly
