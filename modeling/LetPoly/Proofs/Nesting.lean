import LetPoly.Proofs.Acceptance

/-!
# How many levels a type takes

A parser with fewer levels than a type takes gives up on it.  With as many it finds the type.  For
the types that are written without more parentheses than they need, the *nesting* is the number of
levels below the type itself: the result of an arrow is a level below it, and so is what stands in
parentheses.  The parameter of an arrow is not, unless it is in parentheses.

There is one lemma for each production.  Each says where the parser *settles*: behind the tokens
of the type if there are enough levels, and otherwise it has given up.
-/

namespace LetPoly

/-! ## Nesting -/

namespace TypeExpr

mutual

/-- How many levels there are below the level of a written type. -/
def nesting : TypeExpr → Nat
  | fn _ t u => max (if t.isFn then nesting t + 1 else nesting t) (nesting u + 1)
  | tuple _ ts => nestingAll ts
  | prim _ _ | wildcard _ | invalid _ => 0

/-- How many levels the written types of a list take. -/
def nestingAll : List TypeExpr → Nat
  | [] => 0
  | t :: ts => max (nesting t + 1) (nestingAll ts)

end

/-- How many levels there are below a written type that stands for a nonterminal.  As a base type a
function type is in parentheses. -/
def nestingAs : TypeSort → TypeExpr → Nat
  | .type, t => t.nesting
  | .base, t => if t.isFn then t.nesting + 1 else t.nesting

/-- A list takes at most so many levels if each type takes fewer. -/
theorem nestingAll_le_iff {ts : List TypeExpr} {n : Nat} :
    nestingAll ts ≤ n ↔ ∀ t ∈ ts, t.nesting < n := by
  induction ts with
  | nil => simp [nestingAll]
  | cons t ts ih =>
    rw [nestingAll, Nat.max_le, ih, List.forall_mem_cons]
    exact Iff.rfl

/-- The parameter of an arrow is on its level, the result on the next one. -/
theorem nesting_fn_le_iff (span : Span) {t u : TypeExpr} {n : Nat} :
    (fn span t u).nesting ≤ n ↔ t.nestingAs .base ≤ n ∧ u.nesting < n := by
  rw [nesting, Nat.max_le]
  exact Iff.rfl

end TypeExpr

/-! ## Settling -/

namespace ParserState

/-- The parser stands before the tokens with a result if something fits, and otherwise it has given
up. -/
structure Settles (f : FileId) (total : Nat) (ts : List Token) (fits P : Prop)
    (s : ParserState) : Prop where
  /-- All places are in one file. -/
  ready : s.Ready f
  /-- What fits is found. -/
  found : fits → s.Clear total 0 ts ∧ P
  /-- For what does not fit the parser gives up. -/
  lost : ¬fits → s.Lost total

variable {f : FileId} {total : Nat} {ts : List Token} {fits fits' P P' : Prop} {s : ParserState}

theorem At.clear {n : Nat} (h : s.At f total n ts) (hs : s.gaveUp = false) :
    s.Clear total n ts :=
  h.stands.resolve_left fun hlost => by cases hs.symm.trans hlost.gaveUp

/-- A parser that settles stands before the tokens or has given up. -/
theorem Settles.at (h : s.Settles f total ts fits P) : s.At f total 0 ts := by
  by_cases hfits : fits
  · exact ⟨h.ready, .inr (h.found hfits).1⟩
  · exact ⟨h.ready, .inl (h.lost hfits)⟩

theorem Settles.mono (h : s.Settles f total ts fits P) (hfits : fits' ↔ fits) (hP : P → P') :
    s.Settles f total ts fits' P' :=
  ⟨h.ready, fun h' => (h.found (hfits.1 h')).imp_right hP, fun h' => h.lost (mt hfits.2 h')⟩

/-- If there are levels enough, standing before the tokens with the result is to settle. -/
theorem Settles.of_clear (hready : s.Ready f) (h : s.Clear total 0 ts) (hfits : fits) (hP : P) :
    s.Settles f total ts fits P :=
  ⟨hready, fun _ => ⟨h, hP⟩, fun hnot => absurd hfits hnot⟩

/-- If there are not levels enough, having given up is to settle. -/
theorem Settles.of_lost (hready : s.Ready f) (h : s.Lost total) (hfits : ¬fits) :
    s.Settles f total ts fits P :=
  ⟨hready, fun hfits' => absurd hfits' hfits, fun _ => h⟩

end ParserState

namespace Parser

open LetPoly.ParserState

variable {f : FileId} {total n : Nat} {ts : List Token} {t : Token} {s : ParserState}
  {fits P : Prop}

/-- The next token is read if it fits. -/
theorem meets_accept?_next {p : Token → Bool} {Q : Option Lexeme → ParserState → Prop}
    (hs : s.Clear total 0 (t :: ts)) (hplaced : s.Placed f) (ht : t.fits p = true)
    (h : ∀ l s', l.token = t → l.span.file = f → s'.Ready f → s'.Clear total 0 ts →
      Q (some l) s') : (accept? p).Meets s Q := by
  obtain ⟨l, ls, hrest, htoken, hfile, hfinds⟩ := hs.read hplaced (Nat.zero_le 1)
  refine ⟨some l, _, ?_, h l _ htoken hfile hfinds.ready (hfinds.toAt.clear hs.gaveUp)⟩
  rw [accept?_cons hrest, if_pos (htoken ▸ ht)]

/-- A token that was expected is read, unless the parser has given up. -/
theorem settles_expect (hs : s.Settles f total (t :: ts) fits P) :
    (expect t).Meets s fun _ s' => s'.Settles f total ts fits P := by
  by_cases hfits : fits
  · obtain ⟨hclear, hP⟩ := hs.found hfits
    refine .bind (meets_accept?_next hclear hs.ready.toPlaced (fits_self t) ?_)
    intro l s' _ _ hready hclear'
    exact .pure (.of_clear hready hclear' hfits hP)
  · refine meets_expect t hs.ready fun s' h' => ?_
    exact .of_lost h'.ready ((hs.lost hfits).onward h'.toOnward) hfits

/-- A closing parenthesis is read if there were levels enough before it. -/
theorem settles_closeGroup {opener : Span}
    (hs : s.Settles f total (.punctuation .groupClose :: ts) fits P) :
    (closeGroup opener).Meets s fun _ s' => s'.Settles f total ts fits P := by
  by_cases hfits : fits
  · obtain ⟨hclear, hP⟩ := hs.found hfits
    refine .bind (meets_accept?_next hclear hs.ready.toPlaced (fits_self _) ?_)
    intro l s' _ _ hready hclear'
    exact .pure (.of_clear hready hclear' hfits hP)
  · refine meets_closeGroup hs.ready fun s' h' => ?_
    exact .of_lost h'.ready ((hs.lost hfits).onward h'.toOnward) hfits

theorem meets_moreItemsFrom_nil {α : Type} {item : Parser α} {ls : List Lexeme} {acc : List α}
    {Q : List α → ParserState → Prop} (hrest : s.rest = []) (h : Q acc.reverse s) :
    (moreItemsFrom item ls acc).Meets s Q := by
  cases ls with
  | nil => exact .pure h
  | cons l ls => exact .bind ⟨none, s, accept?_nil hrest, .pure h⟩

end Parser

/-! ## Types -/

namespace TypeExpr

open LetPoly.ParserState LetPoly.Parser

variable {f : FileId} {total n : Nat} {k : TypeSort} {ts us rest : List Token} {t u : TypeExpr}
  {s : ParserState}

/-- The parser finds the type in the tokens if there are levels enough, and gives up otherwise. -/
def Measured (f : FileId) (k : TypeSort) (ts : List Token) (t : TypeExpr) : Prop :=
  ∀ n total s rest, s.Ready f → s.Clear total 0 (ts ++ rest) → Stops k.continuedBy rest →
    (k.parser (.ofDepth n)).Meets s fun a s' =>
      a.span.file = f ∧ s'.Settles f total rest (t.nestingAs k ≤ n) (a.unplaced = t)

/-- A type in another one takes one level more. -/
theorem Measured.nested (h : Measured f .type ts t) (hready : s.Ready f)
    (hs : s.Clear total 0 (ts ++ rest)) (hrest : Stops TypeSort.type.continuedBy rest) :
    (Levels.ofDepth n).type.Meets s fun a s' =>
      a.span.file = f ∧ s'.Settles f total rest (t.nesting < n) (a.unplaced = t) := by
  cases n with
  | zero =>
    refine .bind (meets_giveUp_at ⟨hready, .inr hs⟩ fun s' hready' hlost => ?_)
    refine .bind (meets_here (.pure ⟨hready'.here, .of_lost hready' hlost ?_⟩))
    exact Nat.not_lt_zero _
  | succ n =>
    refine (h n total s rest hready hs hrest).mono fun a s' ⟨ha, h'⟩ => ⟨ha, ?_⟩
    exact h'.mono Nat.lt_succ_iff id

/-- A primitive type takes no level below its own. -/
theorem measured_prim {x : String} {c : Con} (h : (x, c) ∈ primitives) :
    Measured f .base [.name x] (.prim .nowhere c) := by
  intro n total s rest hready hs _
  refine .bind (meets_accept?_next hs hready.toPlaced rfl ?_)
  rintro ⟨_, span⟩ s' rfl hfile hready' hs'
  dsimp only
  rw [primitive?_of_mem h]
  exact .pure ⟨hfile, .of_clear hready' hs' (Nat.zero_le n) rfl⟩

/-- A parenthesis opens a group. -/
theorem measured_of_group (h : ∀ n total s rest opener, opener.file = f → s.Ready f →
    s.Clear total 0 (ts ++ rest) → (typeGroup (.ofDepth n) opener).Meets s fun a s' =>
      a.span.file = f ∧ s'.Settles f total rest (t.nestingAs .base ≤ n) (a.unplaced = t)) :
    Measured f .base (.punctuation .groupOpen :: ts) t := by
  intro n total s rest hready hs _
  refine .bind (meets_accept?_next hs hready.toPlaced rfl ?_)
  rintro ⟨_, span⟩ s₁ rfl hfile hready₁ hs₁
  exact h n total s₁ rest span hfile hready₁ hs₁

/-- A function type in parentheses. -/
theorem measured_group (hfn : t.isFn = true) (hd : Derives .type ts t)
    (h : Measured f .type ts t) :
    Measured f .base (.punctuation .groupOpen :: ts ++ [.punctuation .groupClose]) t := by
  rw [List.cons_append]
  refine measured_of_group fun n total s rest opener _ hready hs => ?_
  rw [List.append_assoc, List.singleton_append] at hs
  refine .bind (meets_accept?_stops ⟨hready, .inr hs⟩ (hd.stops rfl) (.bind ?_))
  refine (h.nested hready hs (.cons rfl)).mono fun a s₁ ⟨ha, h₁⟩ => .bind (meets_peek ?_)
  rw [begins_of_stops h₁.at (.cons rfl)]
  refine .bind ((settles_closeGroup h₁).mono fun _ s₂ h₂ => .pure ⟨ha, h₂.mono ?_ id⟩)
  rw [nestingAs, if_pos hfn]
  exact Nat.succ_le_iff

/-- Further elements settle if each of them does. -/
theorem settles_moreItemsFrom {xs : List (Phrase TypeExpr)}
    (hxs : ∀ x ∈ xs, Measured f .type x.tokens x.value) {ls : List Lexeme}
    (hls : xs.length ≤ ls.length) (acc : List TypeExpr) (hready : s.Ready f)
    (hs : s.Clear total 0 (Phrase.commas xs ++ .punctuation .groupClose :: ts)) :
    (moreItemsFrom (Levels.ofDepth n).type ls acc).Meets s fun as s' =>
      s'.Settles f total (.punctuation .groupClose :: ts) (∀ x ∈ xs, x.value.nesting < n)
        (as.map unplaced = acc.reverse.map unplaced ++ xs.map (·.value)) := by
  induction xs generalizing ls acc s with
  | nil =>
    have hend : s.Settles f total (.punctuation .groupClose :: ts)
        (∀ x ∈ ([] : List (Phrase TypeExpr)), x.value.nesting < n)
        (acc.reverse.map unplaced = acc.reverse.map unplaced ++ []) :=
      .of_clear hready hs (by simp) (by simp)
    cases ls with
    | nil => exact .pure hend
    | cons l ls => exact .bind (meets_accept?_stops ⟨hready, .inr hs⟩ (.cons rfl) (.pure hend))
  | cons x xs ih =>
    obtain ⟨hx, hxs⟩ := List.forall_mem_cons.1 hxs
    cases ls with
    | nil => cases hls
    | cons l ls =>
      rw [Phrase.commas_cons_append] at hs
      refine .bind (meets_accept?_next hs hready.toPlaced (fits_self _) ?_)
      intro _ s₁ _ _ hready₁ hs₁
      refine .bind ((hx.nested hready₁ hs₁ ((delimited_commas xs ts).stops rfl rfl)).mono ?_)
      intro a s₂ ⟨_, h₂⟩
      by_cases hfits : x.value.nesting < n
      · obtain ⟨hs₂, ha⟩ := h₂.found hfits
        have hls' : xs.length ≤ ls.length := Nat.le_of_succ_le_succ hls
        refine (ih hxs hls' (a :: acc) h₂.ready hs₂).mono fun as s₃ h₃ => h₃.mono ?_ ?_
        · simp [hfits]
        · intro has
          simp [has, ha]
      · have hlost := h₂.lost hfits
        refine meets_moreItemsFrom_nil (hlost.rest h₂.ready) (.of_lost h₂.ready hlost ?_)
        intro hall
        exact hfits (hall x (List.mem_cons_self ..))

/-- A tuple type takes the levels of its elements. -/
theorem measured_tuple {x : Phrase TypeExpr} {xs : List (Phrase TypeExpr)} (hne : xs ≠ [])
    (hd : Derives .type x.tokens x.value) (hx : Measured f .type x.tokens x.value)
    (hxs : ∀ y ∈ xs, Measured f .type y.tokens y.value) :
    Measured f .base
      (.punctuation .groupOpen :: x.tokens ++ Phrase.commas xs ++ [.punctuation .groupClose])
      (.tuple .nowhere (x.value :: xs.map (·.value))) := by
  rw [List.cons_append, List.cons_append]
  refine measured_of_group fun n total s rest opener hopener hready hs => ?_
  have hfits : (tuple .nowhere (x.value :: xs.map (·.value))).nestingAs .base ≤ n ↔
      x.value.nesting < n ∧ ∀ y ∈ xs, y.value.nesting < n := by
    simp [nestingAs, isFn, nesting, nestingAll_le_iff]
  rw [List.append_assoc, List.append_assoc, List.singleton_append] at hs
  refine .bind (meets_accept?_stops ⟨hready, .inr hs⟩ (hd.stops rfl) (.bind ?_))
  refine (hx.nested hready hs ((delimited_commas xs rest).stops rfl rfl)).mono ?_
  intro a s₁ ⟨ha, h₁⟩
  obtain ⟨y, ys, rfl⟩ := List.exists_cons_of_ne_nil hne
  refine .bind (meets_peek ?_)
  by_cases hfirst : x.value.nesting < n
  · obtain ⟨hs₁, hvalue⟩ := h₁.found hfirst
    obtain ⟨l, ls, hrest, hl, -⟩ := List.map_eq_cons_iff.1 hs₁.tokens
    rw [begins_cons hrest, hl]
    have hlength : (y :: ys).length ≤ s₁.rest.length := by
      have htokens := congrArg List.length hs₁.tokens
      have hcommas := length_le_commas (y :: ys)
      simp only [tokens, List.length_map, List.length_append] at htokens
      omega
    refine .bind (.bind (.get ((settles_moreItemsFrom hxs hlength [] h₁.ready hs₁).mono ?_)))
    intro as s₂ h₂
    refine .bind ((settles_closeGroup h₂).mono fun _ s₃ h₃ => .bind (meets_previous (.bind ?_)))
    refine .join hopener h₃.ready.previous fun span hspan => .pure ⟨hspan, h₃.mono ?_ ?_⟩
    · exact hfits.trans (and_iff_right hfirst)
    · intro has
      simpa [unplaced, hvalue] using has
  · -- A parser that has given up sees no comma.
    rw [begins_nil ((h₁.lost hfirst).rest h₁.ready)]
    have hs₁ : s₁.Settles f total (.punctuation .groupClose :: rest) False True :=
      .of_lost h₁.ready (h₁.lost hfirst) id
    refine .bind ((settles_closeGroup hs₁).mono fun _ s₂ h₂ => .pure ⟨ha, ?_⟩)
    exact .of_lost h₂.ready (h₂.lost id) fun hall => hfirst (hfits.1 hall).1

/-- A type without an arrow takes the same levels as a type. -/
theorem measured_base (hfn : t.isFn = false) (h : Measured f .base ts t) :
    Measured f .type ts t := by
  intro n total s rest hready hs hrest
  refine .bind ((h n total s rest hready hs (hrest.mono nofun)).mono fun a s₁ ⟨ha, h₁⟩ => ?_)
  refine .bind (meets_accept?_stops h₁.at hrest (.pure ⟨ha, h₁.mono ?_ id⟩))
  simp [nestingAs, hfn]

/-- An arrow takes the levels of its parameter, and those of its result one level below. -/
theorem measured_fn (ht : Measured f .base ts t) (hu : Measured f .type us u) :
    Measured f .type (ts ++ .punctuation .arrow :: us) (.fn .nowhere t u) := by
  intro n total s rest hready hs hrest
  rw [List.append_assoc, List.cons_append] at hs
  refine .bind ((ht n total s _ hready hs (.cons rfl)).mono fun a s₁ ⟨ha, h₁⟩ => ?_)
  by_cases hparam : t.nestingAs .base ≤ n
  · obtain ⟨hs₁, hvalue⟩ := h₁.found hparam
    refine .bind (meets_accept?_next hs₁ h₁.ready.toPlaced (fits_self _) ?_)
    intro _ s₂ _ _ hready₂ hs₂
    refine .bind ((hu.nested hready₂ hs₂ hrest).mono fun b s₃ ⟨hb, h₃⟩ => ?_)
    refine .bind (.join ha hb fun span hspan => .pure ⟨hspan, h₃.mono ?_ ?_⟩)
    · exact (nesting_fn_le_iff .nowhere).trans (and_iff_right hparam)
    · intro hvalue'
      simp [unplaced, hvalue, hvalue']
  · have hlost := h₁.lost hparam
    refine .bind ⟨none, s₁, accept?_nil (hlost.rest h₁.ready), .pure ⟨ha, ?_⟩⟩
    exact .of_lost h₁.ready hlost fun hfits => hparam ((nesting_fn_le_iff .nowhere).1 hfits).1

end TypeExpr

/-! ## An annotated declaration -/

namespace Program

open LetPoly.ParserState LetPoly.Parser

variable {f : FileId} {total n : Nat} {ts us rest : List Token} {t : TypeExpr} {s : ParserState}

/-- A binder settles with its annotation. -/
theorem settles_binder {x : String} (h : TypeExpr.Measured f .type ts t) (hready : s.Ready f)
    (hs : s.Clear total 0 (.name x :: .punctuation .colon :: (ts ++ rest)))
    (hrest : Stops TypeSort.type.continuedBy rest) :
    (binder (.ofDepth n)).Meets s fun b s' =>
      s'.Settles f total rest (t.nesting < n) (b.unplaced = ⟨x, .nowhere, some t, .empty⟩) := by
  refine .bind (.bind (meets_accept?_next hs hready.toPlaced rfl ?_))
  rintro ⟨_, span⟩ s₁ rfl _ hready₁ hs₁
  refine .pure (.bind (meets_accept?_next hs₁ hready₁.toPlaced (fits_self _) ?_))
  intro _ s₂ _ _ hready₂ hs₂
  refine .bind ((h.nested hready₂ hs₂ hrest).mono fun a s₃ ⟨_, h₃⟩ => .pure (h₃.mono Iff.rfl ?_))
  intro ha
  simp [Binder.unplaced, ha]

/-- An expression of few tokens does not take all levels. -/
theorem settles_bound {es : List Token} {e : Expr} {fits P : Prop} (he : Expr.Derives .expr es e)
    (hes : es.length < maxDepth) (hs : s.Settles f total es fits P) :
    (Levels.ofDepth maxDepth).expr.Meets s fun a s' =>
      a.span.file = f ∧ s'.Settles f total [] fits (P ∧ a.unplaced = e) := by
  by_cases hfits : fits
  · obtain ⟨hclear, hP⟩ := hs.found hfits
    have hat : s.At f es.length maxDepth (es ++ []) := by
      refine ⟨hs.ready, .inr ⟨?_, hclear.reported, hclear.gaveUp, ?_⟩⟩ <;> simp [hclear.tokens]
    refine (he.recognized.nested hat (.nil _)).mono fun a s' ⟨ha, h'⟩ => ⟨ha, ?_⟩
    have hclear' := h'.stands.resolve_left fun hlost => absurd hlost.deep (Nat.not_le.2 hes)
    have hpaid : maxDepth + ([] : List Token).length ≤ 0 + total := by
      have := hclear.paid
      simp only [List.length_nil]
      omega
    refine .of_clear h'.ready ⟨hclear'.tokens, hclear'.reported, hclear'.gaveUp, hpaid⟩ hfits ?_
    exact ⟨hP, (h'.found hclear'.gaveUp).2⟩
  · refine ((Levels.read_ofDepth f maxDepth).expr s hs.ready).mono fun a s' ⟨ha, h'⟩ => ⟨ha, ?_⟩
    exact .of_lost h'.ready ((hs.lost hfits).onward h'.toOnward) hfits

/-- A declaration settles with the annotation of its name, if its definition is short enough. -/
theorem settles_decl {x : String} {es : List Token} {e : Expr} {opener : Span}
    (h : TypeExpr.Measured f .type ts t) (he : Expr.Derives .expr es e)
    (hes : es.length < maxDepth) (hopener : opener.file = f) (hready : s.Ready f)
    (hs : s.Clear total 0 (.name x :: .punctuation .colon :: (ts ++ .punctuation .equal :: es))) :
    (decl opener).Meets s fun d s' => s'.Settles f total [] (t.nesting < maxDepth)
      (d.unplaced = ⟨.nowhere, ⟨x, .nowhere, some t, .empty⟩, e⟩) := by
  refine .bind ((settles_binder h hready hs (.cons rfl)).mono fun b s₁ h₁ => ?_)
  refine .bind ((settles_expect h₁).mono fun _ s₂ h₂ => ?_)
  refine .bind ((settles_bound he hes h₂).mono fun e' s₃ ⟨he', h₃⟩ => ?_)
  refine .bind (meets_accept?_stops h₃.at (.nil _) (.bind ?_))
  refine .join hopener he' fun span _ => .pure (h₃.mono Iff.rfl ?_)
  intro ⟨hb, hvalue⟩
  simp [Decl.unplaced, hb, hvalue]

end Program

/-- A declaration with an annotation and a short expression is found if the annotation fits the
levels.  Otherwise nothing is reported but that. -/
theorem parse_annotated {f file : FileId} {ls : List Lexeme} {x : String} {ts es : List Token}
    {t : TypeExpr} {e : Expr} (h : TypeExpr.Measured f .type ts t) (he : Expr.Derives .expr es e)
    (hes : es.length < maxDepth) (hfile : ∀ l ∈ ls, l.span.file = f)
    (hls : ls.map (·.token) = .keyword .letWord :: .name x :: .punctuation .colon ::
      (ts ++ .punctuation .equal :: es)) :
    ∃ d ds, parse file ls = .ok ([d], ds) ∧
      (t.nesting < maxDepth →
        ds = [] ∧ d.unplaced = ⟨.nowhere, ⟨x, .nowhere, some t, .empty⟩, e⟩) ∧
      (¬t.nesting < maxDepth → ∃ span, ds = [⟨span, .nestedTooDeeply maxDepth⟩]) := by
  let s : ParserState := ⟨ls, none, .origin file, [], false⟩
  have hplaced : s.Placed f := ⟨hfile, nofun⟩
  have hclear : s.Clear (maxDepth + ls.length) 0 (ls.map (·.token)) := ⟨rfl, rfl, rfl, by simp⟩
  rw [hls] at hclear
  have hlength : ls.length ≠ 0 := by
    have := congrArg List.length hls
    simp only [List.length_map, List.length_cons] at this
    omega
  obtain ⟨n, hn⟩ := Nat.exists_eq_succ_of_ne_zero hlength
  have hrun : (Parser.declsFrom ls.length []).Meets s fun p s' => ∃ d, p = [d] ∧
      s'.Settles f (maxDepth + ls.length) [] (t.nesting < maxDepth)
        (d.unplaced = ⟨.nowhere, ⟨x, .nowhere, some t, .empty⟩, e⟩) := by
    rw [hn]
    refine .bind (Parser.meets_accept?_next (hn ▸ hclear) hplaced rfl ?_)
    intro l s₁ _ hl hready₁ hs₁
    refine .bind ((Program.settles_decl h he hes hl hready₁ hs₁).mono fun d s₂ h₂ => ?_)
    refine Program.meets_declsFrom_nil ?_ ⟨d, rfl, h₂⟩
    by_cases hfits : t.nesting < maxDepth
    · exact List.map_eq_nil_iff.1 (h₂.found hfits).1.tokens
    · exact (h₂.lost hfits).rest h₂.ready
  obtain ⟨_, s', hrun, d, rfl, h'⟩ := hrun
  refine ⟨d, s'.reported.reverse, ?_, fun hfits => ?_, fun hfits => ?_⟩
  · simp only [parse]
    rw [hrun]
    rfl
  · obtain ⟨hclear', hd⟩ := h'.found hfits
    exact ⟨by simp [hclear'.reported], hd⟩
  · obtain ⟨span, hspan⟩ := (h'.lost hfits).reported
    exact ⟨span, by simp [hspan]⟩

end LetPoly
