import LetPoly.Text.ClusterTable
import LetPoly.Text.Combining

/-!
# Grapheme clusters

A grapheme cluster is what a reader takes for one character.  A text is cut into
clusters from the left.  Whether a character begins a new cluster depends on its class
and on what came before, as far as `Context` records it: the class of the last
character, whether the text ends in a pictograph with what attaches to it, in a
consonant with its linkers, or in an unpaired letter of a flag.
-/

namespace LetPoly.Text.Cluster

/-- The class of a character. -/
inductive Class where
  | carriageReturn
  | lineFeed
  | control
  | extend
  | joiner
  | flagLetter
  | prepend
  | spacingMark
  | lead
  | vowel
  | tail
  | openSyllable
  | closedSyllable
  | pictograph
  | other
  deriving DecidableEq, Repr

/-- The class of a character. -/
def classify (c : Char) : Class :=
  if c = '\r' then .carriageReturn
  else if c = '\n' then .lineFeed
  else if control.contains c then .control
  else if c.toNat = 0x200d then .joiner
  else if isCombining c || soundMark.contains c || skinTone.contains c then .extend
  else if flagLetter.contains c then .flagLetter
  else if prepend.contains c then .prepend
  else if spacingMark.contains c then .spacingMark
  else if hangulLead.contains c then .lead
  else if hangulVowel.contains c then .vowel
  else if hangulTail.contains c then .tail
  else if hangulSyllable.contains c then
    if (c.toNat - 0xac00) % 28 = 0 then .openSyllable else .closedSyllable
  else if pictograph.contains c then .pictograph
  else .other

/-- How far a pictograph and what attaches to it have been read. -/
inductive Picture where
  /-- The text does not end in one. -/
  | none
  /-- The text ends in a pictograph and extending characters. -/
  | extended
  /-- The text ends in those and a joiner. -/
  | joined
  deriving DecidableEq, Repr

/-- How far a consonant and its linkers have been read. -/
inductive Conjunct where
  /-- The text does not end in one. -/
  | none
  /-- The text ends in a consonant, and no linker has followed yet. -/
  | unlinked
  /-- The text ends in a consonant that a linker has followed. -/
  | linked
  deriving DecidableEq, Repr

/-- What came before, as far as the next boundary depends on it. -/
structure Context where
  /-- The class of the last character. -/
  last : Class
  /-- The pictograph at the end. -/
  picture : Picture
  /-- The conjunct at the end. -/
  conjunct : Conjunct
  /-- Whether an unpaired letter of a flag is at the end. -/
  unpaired : Bool
  deriving DecidableEq, Repr

/-- Whether a class always stands alone. -/
def Class.isControl : Class → Bool
  | .carriageReturn | .lineFeed | .control => true
  | _ => false

/-- Whether no boundary lies between what came before and a character. -/
def Context.attaches (ctx : Context) (c : Char) : Bool :=
  let k := classify c
  if ctx.last.isControl || k.isControl then
    ctx.last == .carriageReturn && k == .lineFeed
  else
    match ctx.last, k with
    | _, .extend | _, .joiner | _, .spacingMark => true
    | .prepend, _ => true
    | .lead, .lead | .lead, .vowel | .lead, .openSyllable | .lead, .closedSyllable => true
    | .openSyllable, .vowel | .openSyllable, .tail | .vowel, .vowel | .vowel, .tail => true
    | .closedSyllable, .tail | .tail, .tail => true
    | .flagLetter, .flagLetter => ctx.unpaired
    | _, .pictograph => ctx.picture == .joined
    | _, _ => ctx.conjunct == .linked && consonant.contains c

/-- The context behind a character. -/
def Context.advance (ctx : Context) (c : Char) : Context :=
  let k := classify c
  { last := k
    picture :=
      match k, ctx.picture with
      | .pictograph, _ => .extended
      | .extend, .extended => .extended
      | .joiner, .extended => .joined
      | _, _ => .none
    conjunct :=
      if consonant.contains c then .unlinked
      else if linker.contains c then
        if ctx.conjunct = .none then .none else .linked
      else if (k == .extend && c.toNat != 0x200c) || k == .joiner then ctx.conjunct
      else .none
    unpaired := k == .flagLetter && !(ctx.last == .flagLetter && ctx.unpaired) }

/-- The context at the beginning of a text. -/
def Context.start : Context := ⟨.control, .none, .none, false⟩

/-- The number of grapheme clusters of a list of characters. -/
def count (cs : List Char) : Nat :=
  (cs.foldl
    (fun (n, ctx) c => (if Context.attaches ctx c then n else n + 1, ctx.advance c))
    (0, Context.start)).1

end LetPoly.Text.Cluster

namespace LetPoly.Text

/-- The number of columns a text takes up: its characters if all are ASCII, else its grapheme
clusters. -/
def width (s : String) : Nat :=
  if s.toList.all fun c => decide (c.toNat < 128) then s.length else Cluster.count s.toList

end LetPoly.Text
