import LetPoly.Proofs.Genericity

/-!
# Searches in pre-order

A place is *before* another one if it is above it or to the left of it.  This is the order in which
a walk comes to the places: to an expression before its parts, and to the parts from left to right.

A *search* looks at an expression and then at its parts.  On the way down it adds to its scope what
the nodes introduce for their parts.  It finds what there is at the first place at which there is
something (`Search.run_eq_some`), and nothing only if there is nothing anywhere
(`Search.run_eq_none`).  What is in scope at a place is what was in scope at the beginning and what
is introduced on the way (`Search.mem_scopeAt`).
-/

namespace LetPoly

/-! ## The order of places -/

namespace Place

/-- A place is above another one or to the left of it. -/
def Before (κ κ' : Place) : Prop := List.Lex (· < ·) κ κ'

/-- The first place with a property. -/
structure IsFirst (P : Place → Prop) (κ : Place) : Prop where
  /-- The place has the property. -/
  holds : P κ
  /-- Other places with the property come later. -/
  first : ∀ κ', P κ' → κ' = κ ∨ Before κ κ'

variable {P Q : Place → Prop} {π : List Nat} {i : Nat}

theorem IsFirst.congr (h : IsFirst P π) (hPQ : ∀ κ, P κ ↔ Q κ) : IsFirst Q π :=
  ⟨(hPQ π).1 h.holds, fun κ hκ => h.first κ ((hPQ κ).2 hκ)⟩

theorem IsFirst.root (h : P []) : IsFirst P [] where
  holds := h
  first κ _ := by
    cases κ with
    | nil => exact .inl rfl
    | cons => exact .inr .nil

/-- The first place in a part is the first one of all, if there is none above the part and none to
the left of it. -/
theorem IsFirst.cons (h : IsFirst (fun π => P (i :: π)) π) (hroot : ¬ P [])
    (hleft : ∀ j < i, ∀ π, ¬ P (j :: π)) : IsFirst P (i :: π) where
  holds := h.holds
  first κ hκ := by
    cases κ with
    | nil => exact absurd hκ hroot
    | cons j π' =>
      rcases Nat.lt_trichotomy j i with hj | rfl | hj
      · exact absurd hκ (hleft j hj π')
      · exact (h.first π' hκ).imp (congrArg (j :: ·)) List.Lex.cons
      · exact .inr (.rel hj)

end Place

/-! ## The first result of a list -/

/-- The first element of a list with a result, and its number. -/
theorem findSome?_zipIdx_eq_some {α β : Type} {f : α × Nat → Option β} {l : List α} {b : β}
    (h : l.zipIdx.findSome? f = some b) : ∃ i a, l[i]? = some a ∧ f (a, i) = some b ∧
      ∀ j < i, ∀ a', l[j]? = some a' → f (a', j) = none := by
  obtain ⟨l₁, ⟨a, i⟩, l₂, hl, hb, hnone⟩ := List.findSome?_eq_some_iff.1 h
  have hget (j : Nat) : (l₁ ++ (a, i) :: l₂)[j]? = l[j]?.map (·, j) := by
    rw [← hl, List.getElem?_zipIdx]
    simp
  -- the number of an element counts the elements before it
  obtain ⟨a', ha', heq⟩ : ∃ a', l[l₁.length]? = some a' ∧ (a', l₁.length) = (a, i) := by
    have hi := hget l₁.length
    rw [List.getElem?_append_right (Nat.le_refl _), Nat.sub_self] at hi
    exact Option.map_eq_some_iff.1 hi.symm
  cases heq
  refine ⟨l₁.length, a, ha', hb, fun j hj a' hj' => ?_⟩
  have hmem := hget j
  rw [List.getElem?_append_left hj, hj'] at hmem
  exact hnone _ (List.mem_of_getElem? hmem)

/-! ## What is introduced on the way -/

namespace Expr

variable {X : Type}

/-- Something is introduced on the way to a place: by a node for the part that the way takes. -/
def Introduces (f : Expr → Nat → List X) (e : Expr) (π : List Nat) (x : X) : Prop :=
  ∃ κ i c, κ ++ [i] <+: π ∧ e.at? κ = some c ∧ x ∈ f c i

variable {f : Expr → Nat → List X} {e c : Expr} {i : Nat} {π : List Nat} {x : X}

theorem not_introduces_nil : ¬ e.Introduces f [] x := by
  rintro ⟨κ, i, c, hκ, -⟩
  simp at hκ

/-- What is introduced on the way through a part is introduced at the node or in the part. -/
theorem introduces_cons (hc : e.children[i]? = some c) :
    e.Introduces f (i :: π) x ↔ x ∈ f e i ∨ c.Introduces f π x := by
  constructor
  · rintro ⟨κ, j, c', hκ, hat, hx⟩
    cases κ with
    | nil =>
      cases hat
      obtain ⟨rfl, -⟩ := List.cons_prefix_cons.1 hκ
      exact .inl hx
    | cons k κ =>
      obtain ⟨rfl, hprefix⟩ := List.cons_prefix_cons.1 hκ
      exact .inr ⟨κ, j, c', hprefix, (at?_cons_of_part hc).symm.trans hat, hx⟩
  · rintro (hx | ⟨κ, j, c', hκ, hat, hx⟩)
    · exact ⟨[], i, e, ⟨π, rfl⟩, rfl, hx⟩
    · exact ⟨i :: κ, j, c', List.cons_prefix_cons.2 ⟨rfl, hκ⟩, (at?_cons_of_part hc).trans hat, hx⟩

end Expr

/-- What is introduced on the way to a place of a program is introduced in its declaration. -/
theorem Program.introduces_iff {X : Type} {f : Expr → Nat → List X} {p : Program} {i : Nat}
    {d : Decl} {π : List Nat} {x : X} (hd : p[i]? = some d) :
    (∃ δ j c, δ ++ [j] <+: i :: π ∧ p.at? δ = some c ∧ x ∈ f c j) ↔ d.bound.Introduces f π x := by
  constructor
  · rintro ⟨δ, j, c, hδ, hat, hx⟩
    cases δ with
    | nil => cases hat
    | cons k κ =>
      obtain ⟨rfl, hκ⟩ := List.cons_prefix_cons.1 hδ
      exact ⟨κ, j, c, hκ, (at?_of_getElem? hd).symm.trans hat, hx⟩
  · rintro ⟨κ, j, c, hκ, hat, hx⟩
    exact ⟨i :: κ, j, c, List.cons_prefix_cons.2 ⟨rfl, hκ⟩, (at?_of_getElem? hd).trans hat, hx⟩

/-! ## Searches -/

/-- A search through expressions. -/
structure Search (S X α : Type) [Membership X S] where
  /-- What a node introduces for one of its parts. -/
  introduced : Expr → Nat → List X
  /-- Adds what is introduced to the scope. -/
  add : S → List X → S
  /-- What is in scope then. -/
  mem_add : ∀ s xs x, x ∈ add s xs ↔ x ∈ s ∨ x ∈ xs
  /-- What there is at an expression itself. -/
  here : S → Expr → Option α
  /-- What is found in an expression. -/
  run : S → Expr → Option α
  /-- The search looks at the expression and then at its parts. -/
  run_eq : ∀ s e, run s e =
    (here s e).or (e.children.zipIdx.findSome? fun c => run (add s (introduced e c.2)) c.1)

namespace Search

variable {S X α : Type} [Membership X S] (q : Search S X α)

/-- The scope at a place. -/
def scopeAt (s : S) (e : Expr) : List Nat → S
  | [] => s
  | i :: π =>
    match e.children[i]? with
    | some c => scopeAt (q.add s (q.introduced e i)) c π
    | none => s

/-- What there is at a place. -/
def foundAt (s : S) (e : Expr) (π : List Nat) : Option α :=
  (e.at? π).bind (q.here (q.scopeAt s e π))

variable {s : S} {e c : Expr} {i : Nat} {π : List Nat} {a : α} {x : X}

/-- What is found at a place below a part is found in the part, with what the node introduces
there. -/
theorem foundAt_cons (hc : e.children[i]? = some c) :
    q.foundAt s e (i :: π) = q.foundAt (q.add s (q.introduced e i)) c π := by
  rw [foundAt, foundAt, Expr.at?_cons_of_part hc, scopeAt, hc]

theorem foundAt_eq_some (h : q.foundAt s e (i :: π) = some a) : ∃ c, e.children[i]? = some c ∧
    q.foundAt (q.add s (q.introduced e i)) c π = some a := by
  obtain ⟨d, hd, -⟩ := Option.bind_eq_some_iff.1 h
  obtain ⟨c, hc, -⟩ := Expr.at?_cons hd
  exact ⟨c, hc, (q.foundAt_cons hc).symm.trans h⟩

/-- In scope at a place are what was in scope before and what is introduced on the way. -/
theorem mem_scopeAt (h : e.at? π = some c) :
    x ∈ q.scopeAt s e π ↔ x ∈ s ∨ e.Introduces q.introduced π x := by
  induction π generalizing s e with
  | nil => exact (or_iff_left Expr.not_introduces_nil).symm
  | cons i π ih =>
    obtain ⟨d, hd, h⟩ := Expr.at?_cons h
    rw [scopeAt, hd]
    dsimp only
    rw [ih h, q.mem_add, Expr.introduces_cons hd, or_assoc]

/-- A search finds nothing if and only if nothing is found at any place. -/
theorem run_eq_none : q.run s e = none ↔ ∀ π, q.foundAt s e π = none := by
  induction e using Expr.inductionOnParts generalizing s with
  | step e ih =>
    have hparts : (e.children.zipIdx.findSome? fun c => q.run (q.add s (q.introduced e c.2)) c.1) =
        none ↔ ∀ i c, e.children[i]? = some c →
          ∀ π, q.foundAt (q.add s (q.introduced e i)) c π = none := by
      simp only [List.findSome?_eq_none_iff, List.mem_zipIdx_iff_getElem?, Prod.forall]
      constructor
      · exact fun h i c hc => (ih c (List.mem_of_getElem? hc)).1 (h c i hc)
      · exact fun h c i hc => (ih c (List.mem_of_getElem? hc)).2 (h i c hc)
    rw [q.run_eq, Option.or_eq_none_iff, hparts]
    constructor
    · rintro ⟨hhere, hparts⟩ π
      cases π with
      | nil => exact hhere
      | cons i π =>
        refine Option.eq_none_iff_forall_ne_some.2 fun a ha => ?_
        obtain ⟨c, hc, ha⟩ := q.foundAt_eq_some ha
        rw [hparts i c hc π] at ha
        cases ha
    · exact fun h => ⟨h [], fun i c hc π => (q.foundAt_cons hc).symm.trans (h (i :: π))⟩

/-- A search finds what there is at the first place at which there is something. -/
theorem run_eq_some (h : q.run s e = some a) :
    ∃ π, q.foundAt s e π = some a ∧ Place.IsFirst (fun π => ∃ b, q.foundAt s e π = some b) π := by
  induction e using Expr.inductionOnParts generalizing s with
  | step e ih =>
    rw [q.run_eq, Option.or_eq_some_iff] at h
    rcases h with hhere | ⟨hhere, hparts⟩
    · have hroot : q.foundAt s e [] = some a := hhere
      exact ⟨[], hroot, .root ⟨a, hroot⟩⟩
    · have hroot : q.foundAt s e [] = none := hhere
      obtain ⟨i, c, hc, hrun, hleft⟩ := findSome?_zipIdx_eq_some hparts
      obtain ⟨π, hπ, hfirst⟩ := ih c (List.mem_of_getElem? hc) hrun
      refine ⟨i :: π, (q.foundAt_cons hc).trans hπ, .cons ?_ (by simp [hroot]) ?_⟩
      · exact hfirst.congr fun π' => by rw [q.foundAt_cons hc]
      · -- the parts further left were searched without result
        rintro j hj π' ⟨b, hb⟩
        obtain ⟨c', hc', hb⟩ := q.foundAt_eq_some hb
        rw [q.run_eq_none.1 (hleft j hj c' hc') π'] at hb
        cases hb

end Search

end LetPoly
