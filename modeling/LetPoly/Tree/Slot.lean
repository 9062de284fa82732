import LetPoly.Defect

/-!
# Slots

A slot holds an annotation of a tree that is not known when the tree is built.  It is
filled once.  Filling it again is a defect, and the new value stays all the same, so
that a later look at the tree shows what was written last.
-/

namespace LetPoly

/-- A place for a value that becomes known later. -/
structure Slot (α : Type) where
  /-- The value, once it is known. -/
  get? : Option α
  deriving DecidableEq, Repr, Inhabited

namespace Slot

/-- A slot without a value. -/
def empty {α : Type} : Slot α := ⟨none⟩

/-- A slot with a value. -/
def filled {α : Type} (a : α) : Slot α := ⟨some a⟩

/-- Whether a slot has a value. -/
def isFilled {α : Type} (s : Slot α) : Bool := s.get?.isSome

/-- Gives a slot its value, and says whether it had none before. -/
def fill {α : Type} (s : Slot α) (a : α) : Except Defect Unit × Slot α :=
  (if s.isFilled then .error .slotFilledTwice else .ok (), filled a)

/-- Changes the value of a slot that has one. -/
def resolve {α : Type} (s : Slot α) (f : α → α) : Slot α := ⟨s.get?.map f⟩

@[simp] theorem fill_empty {α : Type} (a : α) : (empty : Slot α).fill a = (.ok (), filled a) := rfl

end Slot

end LetPoly
