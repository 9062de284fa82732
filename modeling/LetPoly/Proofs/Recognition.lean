import LetPoly.Proofs.Reading

/-!
# Recognizing phrases

Before the tokens of a phrase, a parser finds the tree of the phrase and stops behind it, or it
gives up for lack of levels.  What stands behind a phrase must not continue it.  Here this is shown
for the first steps, for lists, and for types and binders, with one lemma for each production of the
grammar.

Each level that a parser takes has a token that was read for it.  So a parser that gives up has read
as many tokens as there are levels.
-/

namespace LetPoly

/-! ## Before the tokens of a phrase -/

namespace ParserState

/-- The parser stands before the tokens and has nothing to report.  There are `n` levels left, and
of `total` tokens one was read for each level that was taken. -/
structure Clear (total n : Nat) (ts : List Token) (s : ParserState) : Prop where
  /-- The tokens that are left. -/
  tokens : s.tokens = ts
  /-- Nothing was reported. -/
  reported : s.reported = []
  /-- The parser goes on. -/
  gaveUp : s.gaveUp = false
  /-- The levels that were taken. -/
  paid : maxDepth + ts.length ≤ n + total

/-- The parser has given up and reported nothing else, for which there are enough tokens. -/
structure Lost (total : Nat) (s : ParserState) : Prop where
  /-- The parser has given up. -/
  gaveUp : s.gaveUp = true
  /-- It has reported that. -/
  reported : ∃ span, s.reported = [⟨span, .nestedTooDeeply maxDepth⟩]
  /-- All levels were taken. -/
  deep : maxDepth ≤ total

/-- The parser stands before the tokens or has given up. -/
structure At (f : FileId) (total n : Nat) (ts : List Token) (s : ParserState) : Prop where
  /-- All places are in one file. -/
  ready : s.Ready f
  /-- The parser stands before the tokens or has given up. -/
  stands : s.Lost total ∨ s.Clear total n ts

/-- From one state the parser has come before the tokens in the other with the given result, or has
given up. -/
structure Finds (f : FileId) (total n : Nat) (ts : List Token) (P : Prop) (s s' : ParserState) :
    Prop extends At f total n ts s' where
  /-- The result. -/
  found : s'.gaveUp = false → s.gaveUp = false ∧ P

variable {f : FileId} {total n m : Nat} {ts us : List Token} {t : Token} {s s' s'' : ParserState}
  {P P' : Prop}

theorem Clear.mono (h : s.Clear total n ts) (hn : n ≤ m) : s.Clear total m ts :=
  ⟨h.tokens, h.reported, h.gaveUp, by have := h.paid; omega⟩

theorem At.mono (h : s.At f total n ts) (hn : n ≤ m) : s.At f total m ts :=
  ⟨h.ready, h.stands.imp_right fun hclear => hclear.mono hn⟩

theorem At.finds (h : s.At f total n ts) : s.Finds f total n ts True s :=
  ⟨h, fun hs => ⟨hs, trivial⟩⟩

theorem Finds.mono (h : s.Finds f total n ts P s') (hn : n ≤ m) (hP : P → P') :
    s.Finds f total m ts P' s' :=
  ⟨h.toAt.mono hn, fun hs => (h.found hs).imp_right hP⟩

/-- What is found after something else is found with it. -/
theorem Finds.trans (h : s.Finds f total n ts P s') (h' : s'.Finds f total m us P' s'') :
    s.Finds f total m us (P ∧ P') s'' := by
  refine ⟨h'.toAt, fun hs => ?_⟩
  obtain ⟨hs', hP'⟩ := h'.found hs
  obtain ⟨hs, hP⟩ := h.found hs'
  exact ⟨hs, hP, hP'⟩

theorem Lost.finds (h : s'.Lost total) (hready : s'.Ready f) : s.Finds f total n ts P s' :=
  ⟨⟨hready, .inl h⟩, fun hs => by cases hs.symm.trans h.gaveUp⟩

theorem Finds.of_lost (h : s'.Finds f total n ts P' s'') (hs' : s'.Lost total) :
    s.Finds f total n ts P s'' :=
  ⟨h.toAt, fun hs => by cases (h.found hs).1.symm.trans hs'.gaveUp⟩

theorem Lost.rest (h : s.Lost total) (hs : s.Ready f) : s.rest = [] := (hs.gaveUp h.gaveUp).1

/-- A parser that has given up stays so. -/
theorem Lost.onward (h : s.Lost total) (h' : s.Onward f s') : s'.Lost total := by
  obtain ⟨hgaveUp, hreported⟩ := h'.gaveUp h.gaveUp
  exact ⟨hgaveUp, hreported ▸ h.reported, h.deep⟩

/-- Without a level the parser gives up. -/
theorem Clear.giveUp (h : s.Clear total 0 ts) : s.giveUp.Lost total where
  gaveUp := rfl
  reported := by
    refine ⟨s.here, ?_⟩
    simp [ParserState.giveUp, ParserState.skipWhile, ParserState.report, h.gaveUp, h.reported]
  deep := by
    have := h.paid
    omega

/-- A token can be read, and one level taken for it. -/
theorem Clear.read (h : s.Clear total n (t :: ts)) (hs : s.Placed f) (hm : n ≤ m + 1) :
    ∃ l ls, s.rest = l :: ls ∧ l.token = t ∧ l.span.file = f ∧
      s.Finds f total m ts True { s with rest := ls, last := some l } := by
  obtain ⟨l, ls, hrest, htoken, hls⟩ := List.map_eq_cons_iff.1 h.tokens
  have hlevels : maxDepth + ts.length ≤ m + total := by
    have := h.paid
    rw [List.length_cons] at this
    omega
  refine ⟨l, ls, hrest, htoken, hs.rest l (hrest ▸ List.mem_cons_self ..), ⟨?_, .inr ?_⟩, ?_⟩
  · exact (Parser.onward_advance hs hrest).ready
  · exact ⟨hls, h.reported, h.gaveUp, hlevels⟩
  · exact fun _ => ⟨h.gaveUp, trivial⟩

end ParserState

/-- No token behind the phrase fits. -/
def Stops (p : Token → Bool) (ts : List Token) : Prop := ∀ t ∈ ts.head?, t.fits p = false

theorem Stops.nil (p : Token → Bool) : Stops p [] := nofun

theorem Stops.cons {p : Token → Bool} {t : Token} {ts : List Token} (h : t.fits p = false) :
    Stops p (t :: ts) := by
  intro _ ht
  cases ht
  exact h

/-- A token stops at every other one. -/
theorem Stops.of_ne {t u : Token} {ts : List Token} (hvalid : t ≠ .invalid) (hne : t ≠ u) :
    Stops (· == u) (t :: ts) := by
  refine .cons ?_
  simp [Token.fits, hvalid, hne]

/-- What stops at more tokens stops at fewer. -/
theorem Stops.mono {p p' : Token → Bool} {ts : List Token} (h : Stops p ts)
    (hp : ∀ t, p' t = true → p t = true) : Stops p' ts := by
  intro t ht
  have := h t ht
  simp only [Token.fits, Bool.or_eq_false_iff] at this ⊢
  exact ⟨this.1, Bool.eq_false_iff.2 fun hp' => Bool.eq_false_iff.1 this.2 (hp t hp')⟩

namespace Parser

open LetPoly.ParserState

variable {f : FileId} {total n m : Nat} {ts us : List Token} {t : Token} {s : ParserState}

/-- A parser that has given up stays so, and it is enough to look at one that goes on. -/
theorem meets_at {α : Type} {q : Parser α} {P : α → Prop} {L : α → Language Token} {V : α → Prop}
    (hs : s.At f total n ts) (hreads : q.Reads f P L)
    (h : s.Clear total n ts → q.Meets s fun a s' => P a ∧ s.Finds f total m us (V a) s') :
    q.Meets s fun a s' => P a ∧ s.Finds f total m us (V a) s' := by
  rcases hs.stands with hlost | hclear
  · refine (hreads s hs.ready).mono fun a s' ⟨ha, honward⟩ => ⟨ha, ?_⟩
    exact (hlost.onward honward.toOnward).finds honward.ready
  · exact h hclear

/-- Without levels a parser gives up, and there were as many tokens as levels. -/
theorem meets_giveUp_at {Q : Unit → ParserState → Prop} (hs : s.At f total 0 ts)
    (h : ∀ s', s'.Ready f → s'.Lost total → Q () s') : giveUp.Meets s Q := by
  refine .modify (h _ hs.ready.giveUp.1.ready ?_)
  rcases hs.stands with hlost | hclear
  · exact hlost.onward hs.ready.giveUp.1
  · exact hclear.giveUp

/-- The next token is read if it fits. -/
theorem meets_accept?_clear {p : Token → Bool} {Q : Option Lexeme → ParserState → Prop}
    (hs : s.Clear total n (t :: ts)) (hplaced : s.Placed f) (ht : t.fits p = true) (hm : n ≤ m + 1)
    (h : ∀ l s', l.token = t → l.span.file = f → s.Finds f total m ts True s' → Q (some l) s') :
    (accept? p).Meets s Q := by
  obtain ⟨l, ls, hrest, htoken, hfile, hfinds⟩ := hs.read hplaced hm
  refine ⟨some l, _, ?_, h l _ htoken hfile hfinds⟩
  rw [accept?_cons hrest, if_pos (htoken ▸ ht)]

/-- A parser before tokens at which it stops does not begin to read. -/
theorem begins_of_stops {p : Token → Bool} (hs : s.At f total n ts) (hstops : Stops p ts) :
    s.begins p = false := by
  rcases hs.stands with hlost | hclear
  · exact begins_nil (hlost.rest hs.ready)
  · cases hrest : s.rest with
    | nil => exact begins_nil hrest
    | cons l ls =>
      rw [begins_cons hrest]
      exact hstops _ (by simp [← hclear.tokens, tokens, hrest])

/-- The next token is not read if it does not fit. -/
theorem meets_accept?_stops {p : Token → Bool} {Q : Option Lexeme → ParserState → Prop}
    (hs : s.At f total n ts) (hstops : Stops p ts) (h : Q none s) : (accept? p).Meets s Q :=
  ⟨none, s, accept?_of_begins (begins_of_stops hs hstops), h⟩

/-- It is seen whether the next token fits, unless the parser has given up. -/
theorem meets_peek_at {p : Token → Bool} {Q : Bool → ParserState → Prop}
    (hs : s.At f total n (t :: ts)) (ht : t.fits p = true) (htrue : Q true s)
    (hfalse : s.Lost total → Q false s) : (peek p).Meets s Q := by
  refine meets_peek ?_
  rcases hs.stands with hlost | hclear
  · rw [begins_nil (hlost.rest hs.ready)]
    exact hfalse hlost
  · obtain ⟨l, ls, hrest, rfl, -⟩ := List.map_eq_cons_iff.1 hclear.tokens
    rw [begins_cons hrest, ht]
    exact htrue

theorem fits_self (t : Token) : t.fits (· == t) = true := by simp [Token.fits]

/-- The next token is read if it fits, unless the parser has given up. -/
theorem meets_accept?_at {p : Token → Bool} {Q : Option Lexeme → ParserState → Prop}
    (hs : s.At f total n (t :: ts)) (ht : t.fits p = true) (hm : n ≤ m + 1)
    (hsome : ∀ l s', l.token = t → l.span.file = f → s.Finds f total m ts True s' → Q (some l) s')
    (hnone : s.Lost total → Q none s) : (accept? p).Meets s Q := by
  rcases hs.stands with hlost | hclear
  · exact ⟨none, s, accept?_nil (hlost.rest hs.ready), hnone hlost⟩
  · exact meets_accept?_clear hclear hs.ready.toPlaced ht hm hsome

/-- A token that stands there is read, unless the parser has given up. -/
theorem meets_token?_at {Q : Option Lexeme → ParserState → Prop} (hs : s.At f total n (t :: ts))
    (hm : n ≤ m + 1)
    (hsome : ∀ l s', l.span.file = f → s.Finds f total m ts True s' → Q (some l) s')
    (hnone : s.Lost total → Q none s) : (token? t).Meets s Q :=
  meets_accept?_at hs (fits_self t) hm (fun l s' _ => hsome l s') hnone

/-- An expected token that stands there is read. -/
theorem meets_expect_at {Q : Unit → ParserState → Prop} (hs : s.At f total n (t :: ts))
    (h : ∀ s', s.Finds f total n ts True s' → Q () s') : (expect t).Meets s Q := by
  refine .bind (meets_token?_at hs n.le_succ (fun _ s' _ h' => .pure (h s' h')) fun hlost => ?_)
  refine .bind (meets_here (meets_report hs.ready fun s' h' _ => h s' ?_))
  exact (hlost.onward h').finds h'.ready

/-- A closing parenthesis that stands there is read. -/
theorem meets_closeGroup_at {opener : Span} {Q : Unit → ParserState → Prop}
    (hs : s.At f total n (.punctuation .groupClose :: ts))
    (h : ∀ s', s.Finds f total n ts True s' → Q () s') : (closeGroup opener).Meets s Q := by
  refine .bind (meets_token?_at hs n.le_succ (fun _ s' _ h' => .pure (h s' h')) fun hlost => ?_)
  exact meets_report hs.ready fun s' h' _ => h s' ((hlost.onward h').finds h'.ready)

/-! ## Lists -/

/-- The tokens begin with a comma or a closing parenthesis. -/
def Delimited (ts : List Token) : Prop :=
  ∃ p us, ts = .punctuation p :: us ∧ (p = .comma ∨ p = .groupClose)

/-- In front of a comma or a closing parenthesis all stops that neither of them continues. -/
theorem Delimited.stops {p : Token → Bool} (h : Delimited ts)
    (hcomma : p (.punctuation .comma) = false) (hclose : p (.punctuation .groupClose) = false) :
    Stops p ts := by
  obtain ⟨_, us, rfl, rfl | rfl⟩ := h
  · exact .cons hcomma
  · exact .cons hclose

/-- Behind an item of a list there is a comma or the closing parenthesis. -/
theorem delimited_commas {β : Type} (xs : List (Phrase β)) (ts : List Token) :
    Delimited (Phrase.commas xs ++ .punctuation .groupClose :: ts) := by
  cases xs with
  | nil => exact ⟨_, _, rfl, .inr rfl⟩
  | cons x xs => exact ⟨_, _, rfl, .inl rfl⟩

/-- The parser finds the value of a phrase of a list. -/
def FindsItem {α β : Type} (f : FileId) (total n : Nat) (P : α → Prop) (g : α → β) (x : Phrase β)
    (q : Parser α) : Prop :=
  ∀ s ts, Delimited ts → s.At f total n (x.tokens ++ ts) →
    q.Meets s fun a s' => P a ∧ s.Finds f total n ts (g a = x.value) s'

variable {α β : Type} {P : α → Prop} {g : α → β} {xs : List (Phrase β)}

/-- Further items are found up to the closing parenthesis, behind those before. -/
theorem finds_moreItemsFrom {item : Parser α} (hxs : ∀ x ∈ xs, item.FindsItem f total n P g x)
    {ls : List Lexeme} (hls : xs.length ≤ ls.length) (acc : List α)
    (hs : s.At f total n (Phrase.commas xs ++ .punctuation .groupClose :: ts)) :
    (moreItemsFrom item ls acc).Meets s fun bs s' => ∃ as, bs = acc.reverse ++ as ∧
      s.Finds f total n (.punctuation .groupClose :: ts) (as.map g = xs.map (·.value)) s' := by
  induction xs generalizing ls acc s with
  | nil =>
    have hend : ∃ as, acc.reverse = acc.reverse ++ as ∧
        s.Finds f total n (.punctuation .groupClose :: ts) (as.map g = []) s :=
      ⟨[], (List.append_nil _).symm, hs.finds.mono n.le_refl fun _ => rfl⟩
    cases ls with
    | nil => exact .pure hend
    | cons l ls => exact .bind (meets_accept?_stops hs (.cons rfl) (.pure hend))
  | cons x xs ih =>
    obtain ⟨hx, hxs⟩ := List.forall_mem_cons.1 hxs
    cases ls with
    | nil => cases hls
    | cons l ls =>
      rw [Phrase.commas_cons_append] at hs
      refine .bind (meets_token?_at hs n.le_succ (fun _ s₁ _ h₁ => ?_) fun hlost => ?_)
      · refine .bind ((hx s₁ _ (delimited_commas xs ts) h₁.toAt).mono fun a s₂ ⟨_, h₂⟩ => ?_)
        refine (ih hxs (Nat.le_of_succ_le_succ hls) (a :: acc) h₂.toAt).mono ?_
        rintro _ s₃ ⟨as, rfl, h₃⟩
        refine ⟨a :: as, by simp, (h₁.trans (h₂.trans h₃)).mono n.le_refl ?_⟩
        rintro ⟨-, ha, has⟩
        exact congr (congrArg _ ha) has
      · exact .pure ⟨[], (List.append_nil _).symm, hlost.finds hs.ready⟩

/-- A list has at least as many tokens as items. -/
theorem length_le_commas (xs : List (Phrase β)) : xs.length ≤ (Phrase.commas xs).length := by
  induction xs with
  | nil => exact le_rfl
  | cons x xs ih =>
    rw [Phrase.commas] at ih ⊢
    simp only [List.flatMap_cons, List.cons_append, List.length_cons, List.length_append]
    omega

/-- All further items are found, for which there are enough lexemes. -/
theorem finds_moreItems {item : Parser α} {L : α → Language Token} (hitem : item.Reads f P L)
    (hxs : ∀ x ∈ xs, item.FindsItem f total n P g x)
    (hs : s.At f total n (Phrase.commas xs ++ .punctuation .groupClose :: ts)) :
    (moreItems item).Meets s fun as s' =>
      s.Finds f total n (.punctuation .groupClose :: ts) (as.map g = xs.map (·.value)) s' := by
  rcases hs.stands with hlost | hclear
  · refine (reads_moreItems hitem hs.ready).mono fun as s' ⟨h, _⟩ => ?_
    exact (hlost.onward h.toOnward).finds h.ready
  · have hlength : xs.length ≤ s.rest.length := by
      have htokens := congrArg List.length hclear.tokens
      have hcommas := length_le_commas xs
      simp only [tokens, List.length_map, List.length_append] at htokens
      omega
    refine .bind (.get ((finds_moreItemsFrom hxs hlength [] hs).mono ?_))
    rintro _ s' ⟨as, rfl, h⟩
    exact h

/-- The items of a list get one level deeper each time. -/
theorem finds_moreBelow {item : Levels → Parser α}
    (hxs : ∀ x ∈ xs, ∀ n, (item (.ofDepth n)).FindsItem f total n P g x)
    (hs : s.At f total n (Phrase.commas xs ++ .punctuation .groupClose :: ts)) :
    (moreBelow item (.ofDepth n)).Meets s fun r s' => ∃ m ≤ n, r.2 = .ofDepth m ∧
      (∀ a ∈ r.1, P a) ∧
      s.Finds f total m (.punctuation .groupClose :: ts) (r.1.map g = xs.map (·.value)) s' := by
  induction xs generalizing n s with
  | nil =>
    have hend : s.Finds f total n (.punctuation .groupClose :: ts) ([].map g = []) s :=
      hs.finds.mono n.le_refl fun _ => rfl
    cases n with
    | zero =>
      refine .bind (meets_accept?_stops hs (.cons rfl) ?_)
      exact .pure ⟨0, le_rfl, rfl, nofun, hend⟩
    | succ n =>
      refine .bind (meets_accept?_stops hs (.cons rfl) ?_)
      exact .pure ⟨n + 1, le_rfl, rfl, nofun, hend⟩
  | cons x xs ih =>
    obtain ⟨hx, hxs⟩ := List.forall_mem_cons.1 hxs
    rw [Phrase.commas_cons_append] at hs
    cases n with
    | zero =>
      refine .bind (meets_token?_at hs (Nat.le_succ 0) (fun _ s₁ _ h₁ => ?_) fun hlost => ?_)
      · refine .bind (meets_giveUp_at h₁.toAt fun s₂ hready hlost => ?_)
        exact .pure ⟨0, le_rfl, rfl, nofun, hlost.finds hready⟩
      · exact .pure ⟨0, le_rfl, rfl, nofun, hlost.finds hs.ready⟩
    | succ n =>
      -- The comma is the token for the level that the item takes.
      refine .bind (meets_token?_at hs le_rfl (fun _ s₁ _ h₁ => ?_) fun hlost => ?_)
      · refine .bind ((hx n s₁ _ (delimited_commas xs ts) h₁.toAt).mono fun a s₂ ⟨ha, h₂⟩ => ?_)
        refine .bind ((ih hxs h₂.toAt).mono ?_)
        rintro ⟨as, left⟩ s₃ ⟨m, hm, hleft, has, h₃⟩
        refine .pure ⟨m, hm.trans n.le_succ, hleft, List.forall_mem_cons.2 ⟨ha, has⟩, ?_⟩
        refine (h₁.trans (h₂.trans h₃)).mono m.le_refl ?_
        rintro ⟨-, ha, has⟩
        exact congr (congrArg _ ha) has
      · exact .pure ⟨n + 1, le_rfl, rfl, nofun, hlost.finds hs.ready⟩

end Parser

/-! ## Types and binders -/

/-- Whether a token behind a type makes it longer. -/
def TypeSort.continuedBy : TypeSort → Token → Bool
  | type, t => t == .punctuation .arrow
  | base, _ => false

/-- Whether a type can begin with a token. -/
def TypeExpr.startedBy : Token → Bool
  | .name _ | .punctuation .wildcard | .punctuation .groupOpen => true
  | _ => false

/-- The parser of a nonterminal. -/
def TypeSort.parser : TypeSort → Levels → Parser TypeExpr
  | type => Parser.typeAbove
  | base => Parser.baseType

namespace TypeExpr

open LetPoly.ParserState LetPoly.Parser

variable {f : FileId} {total n : Nat} {k : TypeSort} {ts rest : List Token} {t : TypeExpr}
  {s : ParserState}

/-- The names of the table are those of primitive types. -/
theorem primitive?_of_mem {x : String} {c : Con} (h : (x, c) ∈ primitives) :
    Con.primitive? x = some c := by
  simp only [primitives, List.mem_cons, Prod.mk.injEq, List.not_mem_nil, or_false] at h
  rcases h with ⟨rfl, rfl⟩ | ⟨rfl, rfl⟩ | ⟨rfl, rfl⟩ | ⟨rfl, rfl⟩ | ⟨rfl, rfl⟩ <;> rfl

/-- A type begins with a token, which can begin one. -/
theorem Derives.starts (h : Derives k ts t) : ∃ x us, ts = x :: us ∧ startedBy x = true := by
  induction h with
  | base _ ih => exact ih
  | fn _ _ ih _ =>
    obtain ⟨x, us, rfl, hx⟩ := ih
    exact ⟨x, _, rfl, hx⟩
  | prim | wildcard | unit | group | tuple => exact ⟨_, _, rfl, rfl⟩

/-- So what cannot begin a type does not stand where one does. -/
theorem Derives.stops (h : Derives k ts t) {u : Token} (hu : startedBy u = false) :
    Stops (· == u) (ts ++ rest) := by
  obtain ⟨x, us, rfl, hx⟩ := h.starts
  refine .of_ne ?_ ?_ <;> rintro rfl
  · cases hx
  · cases hu.symm.trans hx

/-- The parser finds a type in the tokens.  The first of them is for the level of the type. -/
def Recognized (f : FileId) (total : Nat) (k : TypeSort) (ts : List Token) (t : TypeExpr) : Prop :=
  ∀ n s rest, s.At f total (n + 1) (ts ++ rest) → Stops k.continuedBy rest →
    (k.parser (.ofDepth n)).Meets s fun a s' =>
      a.span.file = f ∧ s.Finds f total n rest (a.unplaced = t) s'

/-- The parser of a sort reads types of that sort. -/
theorem parser_reads (k : TypeSort) {levels : Levels} (hl : levels.Read f) :
    (k.parser levels).ReadsType f k :=
  match k with
  | .type => reads_typeAbove hl
  | .base => reads_baseType hl

/-- It is enough to look at a parser that goes on. -/
theorem Recognized.of_clear (h : ∀ n s rest, s.At f total (n + 1) (ts ++ rest) →
    s.Clear total (n + 1) (ts ++ rest) → Stops k.continuedBy rest →
    (k.parser (.ofDepth n)).Meets s fun a s' =>
      a.span.file = f ∧ s.Finds f total n rest (a.unplaced = t) s') : Recognized f total k ts t :=
  fun n s rest hs hrest => meets_at hs (parser_reads k (Levels.read_ofDepth f n)) fun hclear =>
    h n s rest hs hclear hrest

/-- A type in another one or in an expression is recognized on a level below. -/
theorem Recognized.nested (h : Recognized f total .type ts t) (hs : s.At f total n (ts ++ rest))
    (hrest : Stops TypeSort.type.continuedBy rest) :
    (Levels.ofDepth n).type.Meets s fun a s' =>
      a.span.file = f ∧ s.Finds f total n rest (a.unplaced = t) s' := by
  cases n with
  | zero =>
    refine .bind (meets_giveUp_at hs fun s' hready hlost => .bind (meets_here (.pure ?_)))
    exact ⟨hready.here, hlost.finds hready⟩
  | succ n =>
    refine (h n s rest hs hrest).mono fun a s' ⟨ha, h'⟩ => ⟨ha, h'.mono n.le_succ id⟩

theorem Recognized.item {x : Phrase TypeExpr} (h : Recognized f total .type x.tokens x.value)
    (n : Nat) : (Levels.ofDepth n).type.FindsItem f total n (·.span.file = f) unplaced x :=
  fun _ _ hrest hs => h.nested hs (hrest.stops rfl rfl)

/-! ### Productions -/

/-- A primitive type is recognized by its name. -/
theorem recognized_prim {x : String} {c : Con} (h : (x, c) ∈ primitives) :
    Recognized f total .base [.name x] (.prim .nowhere c) := by
  refine .of_clear fun n s rest hs hclear _ => ?_
  refine .bind (meets_accept?_clear hclear hs.ready.toPlaced rfl le_rfl ?_)
  rintro ⟨_, span⟩ s' rfl hfile h'
  dsimp only
  rw [primitive?_of_mem h]
  exact .pure ⟨hfile, h'.mono le_rfl fun _ => rfl⟩

/-- A wildcard is recognized by its token. -/
theorem recognized_wildcard :
    Recognized f total .base [.punctuation .wildcard] (.wildcard .nowhere) := by
  refine .of_clear fun n s rest hs hclear _ => ?_
  refine .bind (meets_accept?_clear hclear hs.ready.toPlaced rfl le_rfl ?_)
  rintro ⟨_, span⟩ s' rfl hfile h'
  exact .pure ⟨hfile, h'.mono le_rfl fun _ => rfl⟩

/-- A parenthesis opens a group. -/
theorem recognized_of_group (h : ∀ n s rest opener, opener.file = f → s.At f total n (ts ++ rest) →
    s.Clear total n (ts ++ rest) → (typeGroup (.ofDepth n) opener).Meets s fun a s' =>
      a.span.file = f ∧ s.Finds f total n rest (a.unplaced = t) s') :
    Recognized f total .base (.punctuation .groupOpen :: ts) t := by
  refine .of_clear fun n s rest hs hclear _ => ?_
  refine .bind (meets_accept?_clear hclear hs.ready.toPlaced rfl le_rfl ?_)
  rintro ⟨_, span⟩ s₁ rfl hfile h₁
  have hreads := reads_typeGroup (Levels.read_ofDepth f n) hfile
  refine (meets_at h₁.toAt hreads (h n s₁ rest span hfile h₁.toAt)).mono fun a s₂ ⟨ha, h₂⟩ => ?_
  exact ⟨ha, (h₁.trans h₂).mono le_rfl And.right⟩

/-- The unit type is recognized. -/
theorem recognized_unit :
    Recognized f total .base [.punctuation .groupOpen, .punctuation .groupClose]
      (.prim .nowhere .unit) := by
  refine recognized_of_group fun n s rest opener hopener hs hclear => ?_
  refine .bind (meets_accept?_clear hclear hs.ready.toPlaced rfl n.le_succ ?_)
  intro l s₁ _ hfile h₁
  exact .bind (.join hopener hfile fun span hspan => .pure ⟨hspan, h₁.mono le_rfl fun _ => rfl⟩)

/-- A type in parentheses is recognized as the type. -/
theorem recognized_group (h : Derives .type ts t) (hrecognized : Recognized f total .type ts t) :
    Recognized f total .base (.punctuation .groupOpen :: ts ++ [.punctuation .groupClose]) t := by
  rw [List.cons_append]
  refine recognized_of_group fun n s rest opener hopener hs _ => ?_
  rw [List.append_assoc, List.singleton_append] at hs
  refine .bind (meets_accept?_stops hs (h.stops rfl) (.bind ?_))
  refine (hrecognized.nested hs (.cons rfl)).mono fun a s₁ ⟨ha, h₁⟩ => .bind (meets_peek ?_)
  rw [begins_of_stops h₁.toAt (.cons rfl)]
  refine .bind (meets_closeGroup_at h₁.toAt fun s₂ h₂ => .pure ⟨ha, ?_⟩)
  exact (h₁.trans h₂).mono le_rfl And.left

/-- A tuple type is recognized, which has at least two elements. -/
theorem recognized_tuple {x : Phrase TypeExpr} {xs : List (Phrase TypeExpr)} (hne : xs ≠ [])
    (h : Derives .type x.tokens x.value) (hx : Recognized f total .type x.tokens x.value)
    (hxs : ∀ y ∈ xs, Recognized f total .type y.tokens y.value) :
    Recognized f total .base
      (.punctuation .groupOpen :: x.tokens ++ Phrase.commas xs ++ [.punctuation .groupClose])
      (.tuple .nowhere (x.value :: xs.map (·.value))) := by
  rw [List.cons_append, List.cons_append]
  refine recognized_of_group fun n s rest opener hopener hs _ => ?_
  rw [List.append_assoc, List.append_assoc, List.singleton_append] at hs
  refine .bind (meets_accept?_stops hs (h.stops rfl) (.bind ?_))
  refine (hx.item n s _ (delimited_commas xs rest) hs).mono fun a s₁ ⟨ha, h₁⟩ => .bind ?_
  obtain ⟨y, ys, rfl⟩ := List.exists_cons_of_ne_nil hne
  refine meets_peek_at h₁.toAt rfl ?_ fun hlost => ?_
  · have hitem := (Levels.read_ofDepth f n).type
    refine .bind ((finds_moreItems hitem (fun y hy => (hxs y hy).item n) h₁.toAt).mono ?_)
    intro as s₂ h₂
    refine .bind (meets_closeGroup_at h₂.toAt fun s₃ h₃ => .bind (meets_previous (.bind ?_)))
    refine .join hopener h₃.ready.previous fun span hspan => .pure ⟨hspan, ?_⟩
    refine (h₁.trans (h₂.trans h₃)).mono le_rfl ?_
    rintro ⟨ha, has, -⟩
    simp only [unplaced, unplacedAll_eq_map, List.map_cons, ha, has]
  · -- A parser that has given up sees no comma.
    have hs₁ : s₁.At f total n (.punctuation .groupClose :: rest) := ⟨h₁.ready, .inl hlost⟩
    exact .bind (meets_closeGroup_at hs₁ fun s₂ h₂ => .pure ⟨ha, h₂.of_lost hlost⟩)

/-- A type without an arrow is recognized as a type, if no arrow follows. -/
theorem recognized_base (h : Recognized f total .base ts t) : Recognized f total .type ts t := by
  intro n s rest hs hrest
  refine .bind ((h n s rest hs (hrest.mono nofun)).mono fun a s₁ ⟨ha, h₁⟩ => ?_)
  exact .bind (meets_accept?_stops h₁.toAt hrest (.pure ⟨ha, h₁⟩))

/-- An arrow between a type without one and a type is recognized. -/
theorem recognized_fn {us : List Token} {u : TypeExpr} (ht : Recognized f total .base ts t)
    (hu : Recognized f total .type us u) :
    Recognized f total .type (ts ++ .punctuation .arrow :: us) (.fn .nowhere t u) := by
  intro n s rest hs hrest
  rw [List.append_assoc, List.cons_append] at hs
  refine .bind ((ht n s _ hs (.cons rfl)).mono fun a s₁ ⟨ha, h₁⟩ => ?_)
  refine .bind (meets_token?_at h₁.toAt n.le_succ (fun _ s₂ _ h₂ => ?_) fun hlost => ?_)
  · refine .bind ((hu.nested h₂.toAt hrest).mono fun b s₃ ⟨hb, h₃⟩ => ?_)
    refine .bind (.join ha hb fun span hspan => .pure ⟨hspan, ?_⟩)
    refine (h₁.trans (h₂.trans h₃)).mono le_rfl ?_
    rintro ⟨rfl, -, rfl⟩
    rfl
  · exact .pure ⟨ha, hlost.finds h₁.ready⟩

/-- Every type of the grammar is found. -/
theorem Derives.recognized (h : Derives k ts t) : Recognized f total k ts t := by
  induction h with
  | base _ ih => exact recognized_base ih
  | fn _ _ iht ihu => exact recognized_fn iht ihu
  | prim h => exact recognized_prim h
  | wildcard => exact recognized_wildcard
  | unit => exact recognized_unit
  | group h ih => exact recognized_group h ih
  | tuple hne hx _ ihx ihxs => exact recognized_tuple hne hx ihx ihxs

end TypeExpr

namespace Parser

open LetPoly.ParserState

variable {f : FileId} {total n : Nat} {s : ParserState}

/-- A name is found. -/
theorem finds_name {x : String} {ts : List Token} (hs : s.At f total n (.name x :: ts)) :
    name.Meets s fun r s' => r.2.file = f ∧ s.Finds f total n ts (r.1 = x) s' := by
  refine meets_at hs reads_name fun hclear => ?_
  refine .bind (meets_accept?_clear hclear hs.ready.toPlaced rfl n.le_succ ?_)
  rintro ⟨_, span⟩ s' rfl hfile h'
  exact .pure ⟨hfile, h'.mono le_rfl fun _ => rfl⟩

/-- Every binder of the grammar is found. -/
theorem finds_binder {b : Binder} {bs rest : List Token} (h : Binder.Derives bs b)
    (hs : s.At f total n (bs ++ rest)) (hcolon : Stops (· == .punctuation .colon) rest)
    (harrow : Stops (· == .punctuation .arrow) rest) :
    (binder (.ofDepth n)).Meets s fun a s' =>
      a.span.file = f ∧ s.Finds f total n rest (a.unplaced = b) s' := by
  cases h with
  | plain x =>
    refine .bind ((finds_name hs).mono fun r s₁ ⟨hr, h₁⟩ => ?_)
    refine .bind (meets_accept?_stops h₁.toAt hcolon (.pure ⟨hr, h₁.mono le_rfl ?_⟩))
    rintro rfl
    rfl
  | annotated x ht =>
    refine .bind ((finds_name hs).mono fun r s₁ ⟨hr, h₁⟩ => ?_)
    refine .bind (meets_token?_at h₁.toAt n.le_succ (fun _ s₂ _ h₂ => ?_) fun hlost => ?_)
    · refine .bind ((ht.recognized.nested h₂.toAt harrow).mono fun t s₃ ⟨_, h₃⟩ => .pure ⟨hr, ?_⟩)
      refine (h₁.trans (h₂.trans h₃)).mono le_rfl ?_
      rintro ⟨rfl, -, rfl⟩
      rfl
    · exact .pure ⟨hr, hlost.finds h₁.ready⟩

theorem findsItem_binder {x : Phrase Binder} (h : Binder.Derives x.tokens x.value) (n : Nat) :
    (binder (.ofDepth n)).FindsItem f total n (·.span.file = f) Binder.unplaced x :=
  fun _ _ hrest hs => finds_binder h hs (hrest.stops rfl rfl) (hrest.stops rfl rfl)

end Parser

end LetPoly
