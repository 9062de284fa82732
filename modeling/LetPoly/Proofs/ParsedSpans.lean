import LetPoly.Proofs.Spans
import LetPoly.Proofs.Tiling
import LetPoly.Parsing.Program

/-!
# Parsing lexemes in other places

A parser looks at the places of lexemes only to join them and to say where something is missing.  So
if the lexemes are moved then the tree and the diagnostics are the same, moved in the same way.  A
function on spans has to agree with joining for that.  Giving the files other numbers does, as long
as different files stay different.

A parser and its counterpart are run side by side, from a state and from the state with all spans
moved.  There is one lemma for each parser.
-/

namespace LetPoly

/-! ## Functions on spans -/

/-- A function on spans agrees with what parsers do with them. -/
structure Span.Relocates (g : Span → Span) : Prop where
  /-- Spans that can be joined are moved together. -/
  join : ∀ s t, (g s).join (g t) = (s.join t).map g
  /-- The place behind a span is moved with it. -/
  after : ∀ s, (g s).after = g s.after

/-- A span with another number for its file. -/
def Span.renumber (φ : FileId → FileId) (s : Span) : Span := { s with file := φ s.file }

/-- Giving the files other numbers relocates spans if no two files get the same number. -/
theorem Span.relocates_renumber {φ : FileId → FileId} (hφ : Function.Injective φ) :
    Relocates (renumber φ) where
  join s t := by
    unfold Span.join renumber
    by_cases h : s.file = t.file
    · simp [h, Except.map]
    · simp [h, hφ.ne h, Except.map]
  after s := rfl

variable {g : Span → Span}

/-! ## States -/

namespace ParserState

/-- A state with all spans moved. -/
def mapSpans (g : Span → Span) (s : ParserState) : ParserState where
  rest := s.rest.map (Lexeme.mapSpans g)
  last := s.last.map (Lexeme.mapSpans g)
  origin := g s.origin
  reported := s.reported.map (Diagnostic.mapSpans g)
  gaveUp := s.gaveUp

/-- Where a parser stands in relocated lexemes is where it stood, relocated. -/
theorem here_mapSpans (hg : Span.Relocates g) (s : ParserState) :
    (s.mapSpans g).here = g s.here := by
  obtain ⟨_ | ⟨l, ls⟩, _ | last, origin, reported, gaveUp⟩ := s
  · rfl
  · exact hg.after last.span
  · rfl
  · rfl

theorem previous_mapSpans (s : ParserState) : (s.mapSpans g).previous = g s.previous := by
  obtain ⟨rest, _ | last, origin, reported, gaveUp⟩ := s <;> rfl

/-- A problem that is reported at a relocated span is the relocated report. -/
theorem report_mapSpans (s : ParserState) (span : Span) (p : Problem) :
    (s.mapSpans g).report (g span) (p.mapSpans g) = (s.report span p).mapSpans g := by
  obtain ⟨rest, last, origin, reported, _ | _⟩ := s <;> rfl

/-- Lexemes are skipped by their tokens, so it does not matter where they are. -/
theorem skipWhile_mapSpans (s : ParserState) {p : Lexeme → Bool}
    (hp : p ∘ Lexeme.mapSpans g = p) :
    (s.mapSpans g).skipWhile p = (s.skipWhile p).mapSpans g := by
  simp only [skipWhile, mapSpans, List.takeWhile_map, List.dropWhile_map, List.getLast?_map, hp]
  cases (s.rest.takeWhile p).getLast? <;> rfl

/-- Giving up reports the relocated place, and skips all the rest in either case. -/
theorem giveUp_mapSpans (hg : Span.Relocates g) (s : ParserState) :
    (s.mapSpans g).giveUp = s.giveUp.mapSpans g := by
  have hreport := report_mapSpans (g := g) s s.here (.nestedTooDeeply maxDepth)
  rw [← here_mapSpans hg] at hreport
  have hskip := skipWhile_mapSpans (g := g) (s.report s.here (.nestedTooDeeply maxDepth))
    (p := fun _ => true) rfl
  rw [← hreport] at hskip
  have hgaveUp := congrArg (fun s : ParserState => { s with gaveUp := true }) hskip
  exact hgaveUp

end ParserState

/-! ## Parsers side by side -/

/-- From a state and the state with all spans moved, both parsers end in such states with values in
a relation, or both stop. -/
def Parser.Moves {α β : Type} (g : Span → Span) (R : α → β → Prop) (q : Parser α)
    (q' : Parser β) : Prop :=
  ∀ s, (∃ a b s', q s = .ok (a, s') ∧ q' (s.mapSpans g) = .ok (b, s'.mapSpans g) ∧ R a b) ∨
    ∃ d, q s = .error d ∧ q' (s.mapSpans g) = .error d

namespace Parser

variable {α α' β β' : Type} {R : α → α' → Prop} {R' : β → β' → Prop}

namespace Moves

variable {q : Parser α} {q' : Parser α'} {k : α → Parser β} {k' : α' → Parser β'}

protected theorem pure {a : α} {a' : α'} (h : R a a') : Moves g R (pure a) (pure a') := by
  intro s
  exact .inl ⟨a, a', s, rfl, rfl, h⟩

/-- Parsers that go on from related values in relocated states move together. -/
protected theorem bind (hq : Moves g R q q') (hk : ∀ a a', R a a' → Moves g R' (k a) (k' a')) :
    Moves g R' (q >>= k) (q' >>= k') := by
  intro s
  obtain ⟨a, a', s₁, hrun, hrun', ha⟩ | ⟨d, hrun, hrun'⟩ := hq s
  · simp only [Bind.bind, StateT.bind, Except.bind, hrun, hrun']
    exact hk a a' ha s₁
  · refine .inr ⟨d, ?_, ?_⟩ <;> simp only [Bind.bind, StateT.bind, Except.bind, hrun, hrun']

end Moves

/-! ## First steps -/

theorem moves_here (hg : Span.Relocates g) : Moves g (g · = ·) here here := by
  intro s
  exact .inl ⟨_, _, s, rfl, rfl, (s.here_mapSpans hg).symm⟩

theorem moves_previous : Moves g (g · = ·) previous previous := by
  intro s
  exact .inl ⟨_, _, s, rfl, rfl, s.previous_mapSpans.symm⟩

/-- Two relocated spans are joined to the relocated join, or cannot be joined in either case. -/
theorem moves_join (hg : Span.Relocates g) {x y x' y' : Span} (hx : x' = g x) (hy : y' = g y) :
    Moves g (g · = ·) (join x y) (join x' y') := by
  intro s
  subst hx hy
  simp only [join, StateT.lift, hg.join x y]
  cases x.join y with
  | error d => exact .inr ⟨d, rfl, rfl⟩
  | ok z => exact .inl ⟨z, g z, s, rfl, rfl, rfl⟩

/-- A change of the state moves if it commutes with relocating. -/
theorem moves_modify {f f' : ParserState → ParserState}
    (hf : ∀ s, f' (s.mapSpans g) = (f s).mapSpans g) :
    Moves g (fun _ _ => True) (modify f) (modify f') := by
  intro s
  have hrun : (modify f' : Parser Unit) (s.mapSpans g) = .ok ((), (f s).mapSpans g) := by
    rw [← hf s]
    rfl
  exact .inl ⟨(), (), f s, rfl, hrun, trivial⟩

/-- Reports move unless their problem mentions a place. -/
theorem moves_report {span span' : Span} {p : Problem} (hspan : g span = span')
    (hp : p.mapSpans g = p) : Moves g (fun _ _ => True) (report span p) (report span' p) := by
  refine moves_modify fun s => ?_
  have h := s.report_mapSpans (g := g) span p
  rwa [hspan, hp] at h

theorem moves_giveUp (hg : Span.Relocates g) : Moves g (fun _ _ => True) giveUp giveUp :=
  moves_modify fun s => s.giveUp_mapSpans hg

/-- Looking at the next token does not depend on where its lexeme is. -/
theorem moves_peek (p : Token → Bool) : Moves g Eq (peek p) (peek p) := by
  intro s
  obtain ⟨_ | ⟨l, ls⟩, last, origin, reported, gaveUp⟩ := s
  · exact .inl ⟨false, false, _, rfl, rfl, rfl⟩
  · exact .inl ⟨l.token.fits p, l.token.fits p, _, rfl, rfl, rfl⟩

/-- The lexeme that is read is the relocated one, and one is read in either case or in none. -/
theorem moves_accept? (p : Token → Bool) :
    Moves g (Option.map (Lexeme.mapSpans g) · = ·) (accept? p) (accept? p) := by
  intro s
  obtain ⟨_ | ⟨l, ls⟩, last, origin, reported, gaveUp⟩ := s
  · exact .inl ⟨none, none, _, rfl, rfl, rfl⟩
  · by_cases hl : l.token.fits p = true
    · refine .inl ⟨some l, some (l.mapSpans g), ⟨ls, some l, origin, reported, gaveUp⟩, ?_, ?_, rfl⟩
      · simp [accept?, hl]
      · simp [accept?, ParserState.mapSpans, Lexeme.mapSpans, hl]
    · refine .inl ⟨none, none, ⟨l :: ls, last, origin, reported, gaveUp⟩, ?_, ?_, rfl⟩
      · simp [accept?, hl]
      · simp [accept?, ParserState.mapSpans, Lexeme.mapSpans, hl]

/-- If an expected token is missing, that is reported at the relocated place. -/
theorem moves_expect (hg : Span.Relocates g) (t : Token) :
    Moves g (fun _ _ => True) (expect t) (expect t) := by
  refine (moves_accept? _).bind ?_
  rintro (_ | l) _ rfl
  · exact (moves_here hg).bind fun span span' hspan => moves_report hspan rfl
  · exact .pure trivial

/-- If a closing parenthesis is missing, that is reported at the relocated opening one. -/
theorem moves_closeGroup {opener opener' : Span} (hopener : g opener = opener') :
    Moves g (fun _ _ => True) (closeGroup opener) (closeGroup opener') := by
  refine (moves_accept? _).bind ?_
  rintro (_ | l) _ rfl
  · exact moves_report hopener rfl
  · exact .pure trivial

variable {h : α → α} {item : Parser α}

/-- Items behind commas move if each of them does. -/
theorem moves_moreItemsFrom (hitem : Moves g (h · = ·) item item) (ls : List Lexeme)
    (acc : List α) :
    Moves g (List.map h · = ·) (moreItemsFrom item ls acc)
      (moreItemsFrom item (ls.map (Lexeme.mapSpans g)) (acc.map h)) := by
  induction ls generalizing acc with
  | nil => exact .pure List.map_reverse
  | cons l ls ih =>
    refine (moves_accept? _).bind ?_
    rintro (_ | l) _ rfl
    · exact .pure List.map_reverse
    · refine hitem.bind ?_
      rintro a _ rfl
      exact ih (a :: acc)

/-- The items of a list move, whatever the number of lexemes that are left. -/
theorem moves_moreItems (hitem : Moves g (h · = ·) item item) :
    Moves g (List.map h · = ·) (moreItems item) (moreItems item) := by
  intro s
  exact moves_moreItemsFrom hitem s.rest [] s

end Parser

/-! ## Levels -/

namespace Levels

/-- The parsers of all levels move with the lexemes. -/
def Move (g : Span → Span) (levels : Levels) : Prop :=
  ∀ l ∈ levels, Parser.Moves g (Expr.mapSpans g · = ·) l.expr l.expr ∧
    Parser.Moves g (TypeExpr.mapSpans g · = ·) l.type l.type

theorem Move.tail {l : Level} {levels : Levels} (h : Move g (l :: levels)) : Move g levels :=
  fun l' hl' => h l' (List.mem_cons_of_mem l hl')

/-- An expression on the next level moves, also if there is no level left for it. -/
theorem Move.expr (hg : Span.Relocates g) {levels : Levels} (h : levels.Move g) :
    Parser.Moves g (Expr.mapSpans g · = ·) levels.expr levels.expr := by
  cases levels with
  | nil =>
    refine (Parser.moves_giveUp hg).bind fun _ _ _ => (Parser.moves_here hg).bind ?_
    rintro span _ rfl
    exact .pure rfl
  | cons l levels => exact (h l (List.mem_cons_self ..)).1

/-- A type on the next level moves, also if there is no level left for it. -/
theorem Move.type (hg : Span.Relocates g) {levels : Levels} (h : levels.Move g) :
    Parser.Moves g (TypeExpr.mapSpans g · = ·) levels.type levels.type := by
  cases levels with
  | nil =>
    refine (Parser.moves_giveUp hg).bind fun _ _ _ => (Parser.moves_here hg).bind ?_
    rintro span _ rfl
    exact .pure rfl
  | cons l levels => exact (h l (List.mem_cons_self ..)).2

end Levels

namespace Parser

variable {levels : Levels}

/-! ## Types and binders -/

/-- A type in parentheses moves: the unit type, a tuple, or the type itself. -/
theorem moves_typeGroup (hg : Span.Relocates g) (hl : levels.Move g) (opener : Span) :
    Moves g (TypeExpr.mapSpans g · = ·) (typeGroup levels opener)
      (typeGroup levels (g opener)) := by
  refine (moves_accept? _).bind ?_
  rintro (_ | closer) _ rfl
  · refine (hl.type hg).bind ?_
    rintro t _ rfl
    refine (moves_peek _).bind ?_
    rintro (_ | _) _ rfl
    · exact (moves_closeGroup rfl).bind fun _ _ _ => .pure rfl
    · refine (moves_moreItems (hl.type hg)).bind ?_
      rintro ts _ rfl
      refine (moves_closeGroup rfl).bind fun _ _ _ => moves_previous.bind ?_
      rintro closer _ rfl
      refine (moves_join hg rfl rfl).bind ?_
      rintro span _ rfl
      exact .pure (by simp [TypeExpr.mapSpans])
  · refine (moves_join hg rfl rfl).bind ?_
    rintro span _ rfl
    exact .pure rfl

/-- A type without an arrow moves, whichever token it begins with. -/
theorem moves_baseType (hg : Span.Relocates g) (hl : levels.Move g) :
    Moves g (TypeExpr.mapSpans g · = ·) (baseType levels) (baseType levels) := by
  refine (moves_accept? _).bind ?_
  rintro (_ | ⟨t, span⟩) _ rfl
  · refine (moves_here hg).bind ?_
    rintro span _ rfl
    exact (moves_report rfl rfl).bind fun _ _ _ => .pure rfl
  · have hother : Moves g (TypeExpr.mapSpans g · = ·)
        (do report span .expectedType; return .invalid span)
        (do report (g span) .expectedType; return .invalid (g span)) :=
      (moves_report rfl rfl).bind fun _ _ _ => .pure rfl
    cases t with
    | name x =>
      simp only [Option.map_some, Lexeme.mapSpans]
      cases Con.primitive? x with
      | none => exact (moves_report rfl rfl).bind fun _ _ _ => .pure rfl
      | some c => exact .pure rfl
    | punctuation p =>
      cases p with
      | wildcard => exact .pure rfl
      | groupOpen => exact moves_typeGroup hg hl span
      | _ => exact hother
    | invalid => exact .pure rfl
    | _ => exact hother

/-- An arrow between two types joins their relocated spans. -/
theorem moves_typeAbove (hg : Span.Relocates g) (hl : levels.Move g) :
    Moves g (TypeExpr.mapSpans g · = ·) (typeAbove levels) (typeAbove levels) := by
  refine (moves_baseType hg hl).bind ?_
  rintro t _ rfl
  refine (moves_accept? _).bind ?_
  rintro (_ | arrow) _ rfl
  · exact .pure rfl
  · refine (hl.type hg).bind ?_
    rintro u _ rfl
    refine (moves_join hg (t.span_mapSpans) (u.span_mapSpans)).bind ?_
    rintro span _ rfl
    exact .pure rfl

/-- A name is the same in relocated lexemes, at the relocated place. -/
theorem moves_name (hg : Span.Relocates g) : Moves g (Prod.map id g · = ·) name name := by
  refine (moves_accept? _).bind ?_
  rintro (_ | ⟨t, span⟩) _ rfl
  · refine (moves_here hg).bind ?_
    rintro span _ rfl
    exact (moves_report rfl rfl).bind fun _ _ _ => .pure rfl
  · cases t <;> exact .pure rfl

/-- A binder moves with its annotation. -/
theorem moves_binder (hg : Span.Relocates g) (hl : levels.Move g) :
    Moves g (Binder.mapSpans g · = ·) (binder levels) (binder levels) := by
  refine (moves_name hg).bind ?_
  rintro ⟨x, span⟩ _ rfl
  refine (moves_accept? _).bind ?_
  rintro (_ | colon) _ rfl
  · exact .pure rfl
  · refine (hl.type hg).bind ?_
    rintro t _ rfl
    exact .pure rfl

/-! ## Lists one level deeper each time -/

/-- Items that are moved, and the levels that are left. -/
def MovedBelow (g : Span → Span) (h : α → α) (r r' : List α × Levels) : Prop :=
  r' = (r.1.map h, r.2) ∧ r.2.Move g

/-- The levels that are left behind the items are levels on which all moves, so what follows the
items moves too. -/
theorem moves_moreBelow (hg : Span.Relocates g) {h : α → α} {item : Levels → Parser α}
    (hitem : ∀ levels : Levels, levels.Move g → Moves g (h · = ·) (item levels) (item levels))
    (hl : levels.Move g) :
    Moves g (MovedBelow g h) (moreBelow item levels) (moreBelow item levels) := by
  induction levels with
  | nil =>
    refine (moves_accept? _).bind ?_
    rintro (_ | comma) _ rfl
    · exact .pure ⟨rfl, hl⟩
    · exact (moves_giveUp hg).bind fun _ _ _ => .pure ⟨rfl, hl⟩
  | cons level levels ih =>
    refine (moves_accept? _).bind ?_
    rintro (_ | comma) _ rfl
    · exact .pure ⟨rfl, hl⟩
    · refine (hitem levels hl.tail).bind ?_
      rintro a _ rfl
      refine (ih hl.tail).bind ?_
      rintro ⟨as, left⟩ _ ⟨rfl, hleft⟩
      exact .pure ⟨rfl, hleft⟩

/-! ## Expressions -/

/-- An applied operator becomes a call of its name, with the relocated spans of both operands. -/
theorem moves_applyOperator (hg : Span.Relocates g) (op : Lexeme) (l r : Expr) :
    Moves g (Expr.mapSpans g · = ·) (applyOperator op l r)
      (applyOperator (op.mapSpans g) (l.mapSpans g) (r.mapSpans g)) := by
  refine (moves_join hg l.span_mapSpans rfl).bind ?_
  rintro inner _ rfl
  refine (moves_join hg l.span_mapSpans r.span_mapSpans).bind ?_
  rintro outer _ rfl
  exact .pure rfl

variable {operand : Levels → Parser Expr}

/-- A chain of operators moves from any first operand on. -/
theorem moves_chain (hg : Span.Relocates g) (ops : List Operator)
    (hoperand : ∀ levels : Levels, levels.Move g →
      Moves g (Expr.mapSpans g · = ·) (operand levels) (operand levels))
    (hl : levels.Move g) (e : Expr) :
    Moves g (Expr.mapSpans g · = ·) (chain ops operand levels e)
      (chain ops operand levels (e.mapSpans g)) := by
  induction levels generalizing e with
  | nil =>
    unfold chain
    refine (moves_accept? _).bind ?_
    rintro (_ | op) _ rfl
    · exact .pure rfl
    · exact (moves_giveUp hg).bind fun _ _ _ => .pure rfl
  | cons level levels ih =>
    unfold chain
    refine (moves_accept? _).bind ?_
    rintro (_ | op) _ rfl
    · exact .pure rfl
    · refine (hoperand levels hl.tail).bind ?_
      rintro r _ rfl
      refine (moves_applyOperator hg op e r).bind ?_
      rintro e _ rfl
      exact ih hl.tail e

/-- Each round of a chain takes a level, and all moves on the levels below as well. -/
theorem moves_binary (hg : Span.Relocates g) (ops : List Operator)
    (hoperand : ∀ levels : Levels, levels.Move g →
      Moves g (Expr.mapSpans g · = ·) (operand levels) (operand levels))
    (hl : levels.Move g) :
    Moves g (Expr.mapSpans g · = ·) (binary ops operand levels) (binary ops operand levels) := by
  refine (hoperand levels hl).bind ?_
  rintro e _ rfl
  exact moves_chain hg ops hoperand hl e

/-- What stands in parentheses moves: the unit value, an annotated expression, a tuple, or the
expression itself. -/
theorem moves_group (hg : Span.Relocates g) (hl : levels.Move g) (opener : Span) :
    Moves g (Expr.mapSpans g · = ·) (group levels opener) (group levels (g opener)) := by
  refine (moves_accept? _).bind ?_
  rintro (_ | closer) _ rfl
  · refine (hl.expr hg).bind ?_
    rintro e _ rfl
    refine (moves_accept? _).bind ?_
    rintro (_ | colon) _ rfl
    · refine (moves_peek _).bind ?_
      rintro (_ | _) _ rfl
      · exact (moves_closeGroup rfl).bind fun _ _ _ => .pure rfl
      · refine (moves_moreItems (hl.expr hg)).bind ?_
        rintro es _ rfl
        refine (moves_closeGroup rfl).bind fun _ _ _ => moves_previous.bind ?_
        rintro closer _ rfl
        refine (moves_join hg rfl rfl).bind ?_
        rintro span _ rfl
        exact .pure (by simp [Expr.mapSpans, Mark.mapSpans, Mark.new])
    · refine (hl.type hg).bind ?_
      rintro t _ rfl
      refine (moves_closeGroup rfl).bind fun _ _ _ => moves_previous.bind ?_
      rintro closer _ rfl
      refine (moves_join hg rfl rfl).bind ?_
      rintro span _ rfl
      exact .pure rfl
  · refine (moves_join hg rfl rfl).bind ?_
    rintro span _ rfl
    exact .pure rfl

/-- A literal, a name or a group moves, whichever token it begins with. -/
theorem moves_baseExpr (hg : Span.Relocates g) (hl : levels.Move g) :
    Moves g (Expr.mapSpans g · = ·) (baseExpr levels) (baseExpr levels) := by
  refine (moves_accept? _).bind ?_
  rintro (_ | ⟨t, span⟩) _ rfl
  · refine (moves_here hg).bind ?_
    rintro span _ rfl
    exact (moves_report rfl rfl).bind fun _ _ _ => .pure rfl
  · have hother : Moves g (Expr.mapSpans g · = ·)
        (do report span .expectedExpression; return .invalid (.new span))
        (do report (g span) .expectedExpression; return .invalid (.new (g span))) :=
      (moves_report rfl rfl).bind fun _ _ _ => .pure rfl
    cases t with
    | int | float | string | bool | name | invalid => exact .pure rfl
    | punctuation p =>
      cases p with
      | groupOpen => exact moves_group hg hl span
      | _ => exact hother
    | _ => exact hother

/-- The arguments of a call move, and so do the levels they leave. -/
theorem moves_arguments (hg : Span.Relocates g) (hl : levels.Move g) (opener : Span) :
    Moves g (MovedBelow g (Expr.mapSpans g)) (arguments levels opener)
      (arguments levels (g opener)) := by
  refine (moves_accept? _).bind ?_
  rintro (_ | closer) _ rfl
  · refine (hl.expr hg).bind ?_
    rintro e _ rfl
    refine (moves_moreBelow hg (fun _ hl => hl.expr hg) hl).bind ?_
    rintro ⟨es, left⟩ _ ⟨rfl, hleft⟩
    exact (moves_closeGroup rfl).bind fun _ _ _ => .pure ⟨rfl, hleft⟩
  · refine (moves_join hg rfl rfl).bind ?_
    rintro span _ rfl
    exact .pure ⟨rfl, hl⟩

/-- A call with several arguments is a row of calls, whose spans all end at the closing
parenthesis. -/
theorem moves_applyAll (hg : Span.Relocates g) (close : Span) (e : Expr) (es : List Expr) :
    Moves g (Expr.mapSpans g · = ·) (applyAll close e es)
      (applyAll (g close) (e.mapSpans g) (es.map (Expr.mapSpans g))) := by
  induction es generalizing e with
  | nil => exact .pure rfl
  | cons a es ih =>
    refine (moves_join hg e.span_mapSpans a.span_mapSpans).bind ?_
    rintro span _ rfl
    refine (moves_join hg rfl rfl).bind ?_
    rintro span _ rfl
    exact ih _

/-- Calls of an expression move, however many of them follow each other. -/
theorem moves_callsFrom (hg : Span.Relocates g) (n : Nat) (hl : levels.Move g) (e : Expr) :
    Moves g (Expr.mapSpans g · = ·) (callsFrom n levels e)
      (callsFrom n levels (e.mapSpans g)) := by
  induction n generalizing levels e with
  | zero =>
    unfold callsFrom
    refine (moves_accept? _).bind ?_
    rintro (_ | opener) _ rfl
    · exact .pure rfl
    · exact (moves_giveUp hg).bind fun _ _ _ => .pure rfl
  | succ n ih =>
    unfold callsFrom
    refine (moves_accept? _).bind ?_
    rintro (_ | opener) _ rfl
    · exact .pure rfl
    · cases levels with
      | nil => exact (moves_giveUp hg).bind fun _ _ _ => .pure rfl
      | cons level levels =>
        refine (moves_arguments hg hl.tail opener.span).bind ?_
        rintro ⟨es, left⟩ _ ⟨rfl, hleft⟩
        refine moves_previous.bind ?_
        rintro close _ rfl
        refine (moves_applyAll hg close e es).bind ?_
        rintro e _ rfl
        exact ih hleft e

theorem moves_callExpr (hg : Span.Relocates g) (hl : levels.Move g) :
    Moves g (Expr.mapSpans g · = ·) (callExpr levels) (callExpr levels) := by
  refine (moves_baseExpr hg hl).bind ?_
  rintro e _ rfl
  exact moves_callsFrom hg levels.length hl e

theorem moves_addExpr (hg : Span.Relocates g) (hl : levels.Move g) :
    Moves g (Expr.mapSpans g · = ·) (addExpr levels) (addExpr levels) :=
  moves_binary hg _ (fun _ hl => moves_binary hg _ (fun _ hl => moves_callExpr hg hl) hl) hl

/-- A comparison moves, of which there is at most one. -/
theorem moves_cmpExpr (hg : Span.Relocates g) (hl : levels.Move g) :
    Moves g (Expr.mapSpans g · = ·) (cmpExpr levels) (cmpExpr levels) := by
  refine (moves_addExpr hg hl).bind ?_
  rintro e _ rfl
  refine (moves_accept? _).bind ?_
  rintro (_ | op) _ rfl
  · exact .pure rfl
  · refine (moves_addExpr hg hl).bind ?_
    rintro r _ rfl
    exact moves_applyOperator hg op e r

/-- A chain of disjunctions moves, and the chains of which it is made. -/
theorem moves_orExpr (hg : Span.Relocates g) (hl : levels.Move g) :
    Moves g (Expr.mapSpans g · = ·) (orExpr levels) (orExpr levels) :=
  moves_binary hg _ (fun _ hl => moves_binary hg _ (fun _ hl => moves_cmpExpr hg hl) hl) hl

/-- A local definition stands from its keyword to the end of its body, also when it is relocated. -/
theorem moves_letExpr (hg : Span.Relocates g) (hl : levels.Move g) (opener : Span) :
    Moves g (Expr.mapSpans g · = ·) (letExpr levels opener) (letExpr levels (g opener)) := by
  refine (moves_binder hg hl).bind ?_
  rintro b _ rfl
  refine (moves_expect hg _).bind fun _ _ _ => (hl.expr hg).bind ?_
  rintro d _ rfl
  refine (moves_expect hg _).bind fun _ _ _ => (hl.expr hg).bind ?_
  rintro e _ rfl
  refine (moves_join hg rfl e.span_mapSpans).bind ?_
  rintro span _ rfl
  exact .pure rfl

/-- A conditional stands from its keyword to the end of its second branch, also when it is
relocated. -/
theorem moves_ifExpr (hg : Span.Relocates g) (hl : levels.Move g) (opener : Span) :
    Moves g (Expr.mapSpans g · = ·) (ifExpr levels opener) (ifExpr levels (g opener)) := by
  refine (hl.expr hg).bind ?_
  rintro c _ rfl
  refine (moves_expect hg _).bind fun _ _ _ => (hl.expr hg).bind ?_
  rintro t _ rfl
  refine (moves_expect hg _).bind fun _ _ _ => (hl.expr hg).bind ?_
  rintro e _ rfl
  refine (moves_join hg rfl e.span_mapSpans).bind ?_
  rintro span _ rfl
  exact .pure rfl

/-- Further parameters are functions of their own, from the parameter to the end of the body. -/
theorem moves_curry (hg : Span.Relocates g) (body : Expr) (bs : List Binder) :
    Moves g (Expr.mapSpans g · = ·) (curry body bs)
      (curry (body.mapSpans g) (bs.map (Binder.mapSpans g))) := by
  induction bs with
  | nil => exact .pure rfl
  | cons b bs ih =>
    refine ih.bind ?_
    rintro inner _ rfl
    refine (moves_join hg rfl inner.span_mapSpans).bind ?_
    rintro span _ rfl
    exact .pure rfl

/-- A function stands from its keyword to the end of its body, also when it is relocated. -/
theorem moves_fnExpr (hg : Span.Relocates g) (hl : levels.Move g) (opener : Span) :
    Moves g (Expr.mapSpans g · = ·) (fnExpr levels opener) (fnExpr levels (g opener)) := by
  refine (moves_expect hg _).bind fun _ _ _ => (moves_binder hg hl).bind ?_
  rintro b _ rfl
  refine (moves_moreBelow hg (fun _ hl => moves_binder hg hl) hl).bind ?_
  rintro ⟨bs, left⟩ _ ⟨rfl, hleft⟩
  refine (moves_expect hg _).bind fun _ _ _ => (moves_expect hg _).bind fun _ _ _ => ?_
  refine (hleft.expr hg).bind ?_
  rintro body _ rfl
  refine (moves_curry hg body bs).bind ?_
  rintro inner _ rfl
  refine (moves_join hg rfl inner.span_mapSpans).bind ?_
  rintro span _ rfl
  exact .pure rfl

/-- An expression moves on the level it takes, whichever keyword it begins with. -/
theorem moves_exprAbove (hg : Span.Relocates g) (hl : levels.Move g) :
    Moves g (Expr.mapSpans g · = ·) (exprAbove levels) (exprAbove levels) := by
  refine (moves_accept? _).bind ?_
  rintro (_ | l) _ rfl
  · refine (moves_accept? _).bind ?_
    rintro (_ | l) _ rfl
    · refine (moves_accept? _).bind ?_
      rintro (_ | l) _ rfl
      · exact moves_orExpr hg hl
      · exact moves_fnExpr hg hl l.span
    · exact moves_ifExpr hg hl l.span
  · exact moves_letExpr hg hl l.span

end Parser

/-- All parsers of expressions and types move, by induction on the number of levels. -/
theorem Levels.move_ofDepth (hg : Span.Relocates g) (n : Nat) : (ofDepth n).Move g := by
  induction n with
  | zero =>
    intro l hl
    cases hl
  | succ n ih =>
    intro l hl
    cases hl with
    | head => exact ⟨Parser.moves_exprAbove hg ih, Parser.moves_typeAbove hg ih⟩
    | tail _ hl => exact ih l hl

/-! ## Programs -/

namespace Parser

/-- A declaration stands from its keyword to the end of its definition, also when it is
relocated. -/
theorem moves_decl (hg : Span.Relocates g) (opener : Span) :
    Moves g (Decl.mapSpans g · = ·) (decl opener) (decl (g opener)) := by
  have hl : allLevels.Move g := Levels.move_ofDepth hg maxDepth
  refine (moves_binder hg hl).bind ?_
  rintro b _ rfl
  refine (moves_expect hg _).bind fun _ _ _ => (hl.expr hg).bind ?_
  rintro e _ rfl
  refine (moves_accept? _).bind ?_
  rintro semicolon _ rfl
  refine (moves_join hg rfl e.span_mapSpans).bind ?_
  rintro span _ rfl
  exact .pure rfl

theorem moves_get : Moves g (ParserState.mapSpans g · = ·) get get := by
  intro s
  exact .inl ⟨s, s.mapSpans g, s, rfl, rfl, rfl⟩

/-- Declarations move, and so does what is skipped between them. -/
theorem moves_declsFrom (hg : Span.Relocates g) (n : Nat) (acc : List Decl) :
    Moves g (Program.mapSpans g · = ·) (declsFrom n acc)
      (declsFrom n (acc.map (Decl.mapSpans g))) := by
  induction n generalizing acc with
  | zero => exact .pure List.map_reverse
  | succ n ih =>
    refine (moves_accept? _).bind ?_
    rintro (_ | l) _ rfl
    · refine moves_get.bind ?_
      rintro ⟨_ | ⟨l, ls⟩, last, origin, reported, gaveUp⟩ _ rfl
      · exact .pure List.map_reverse
      · refine (moves_modify fun s => s.skipWhile_mapSpans rfl).bind fun _ _ _ => ?_
        exact (moves_report rfl rfl).bind fun _ _ _ => ih acc
    · refine (moves_decl hg l.span).bind ?_
      rintro d _ rfl
      exact ih (d :: acc)

end Parser

/-- To parse is to read declarations from the first lexeme on, and to put the reports in order. -/
theorem parse_eq_map (file : FileId) (ls : List Lexeme) :
    parse file ls = (Parser.declsFrom ls.length [] ⟨ls, none, .origin file, [], false⟩).map
      fun r => (r.1, r.2.reported.reverse) := by
  simp only [parse]
  cases Parser.declsFrom ls.length [] ⟨ls, none, .origin file, [], false⟩ <;> rfl

/-- Lexemes of renumbered files give the tree and the diagnostics with these numbers. -/
theorem parse_renumber {φ : FileId → FileId} (hφ : Function.Injective φ) (file : FileId)
    (ls : List Lexeme) :
    parse (φ file) (ls.map (Lexeme.mapSpans (.renumber φ))) =
      (parse file ls).map (Prod.map (Program.mapSpans (.renumber φ))
        (List.map (Diagnostic.mapSpans (.renumber φ)))) := by
  have hmoves := Parser.moves_declsFrom (Span.relocates_renumber hφ) ls.length []
    ⟨ls, none, .origin file, [], false⟩
  rw [parse_eq_map, parse_eq_map, List.length_map]
  obtain ⟨p, _, s, hrun, hrun', rfl⟩ | ⟨d, hrun, hrun'⟩ := hmoves
  · rw [hrun]
    refine (congrArg (Except.map _) hrun').trans ?_
    simp [Except.map, ParserState.mapSpans]
  · rw [hrun]
    exact congrArg (Except.map _) hrun'

/-! ## Lexing -/

/-- What is wrong with a piece has no spans. -/
theorem Piece.mapSpans_of_read {p : Piece} {e : Problem} (h : p.read = some (.error e)) :
    e.mapSpans g = e := by
  unfold Piece.read at h
  grind [Problem.mapSpans]

/-- What lexing has found so far, in another place. -/
def Lexing.mapSpans (g : Span → Span) (l : Lexing) : Lexing :=
  ⟨l.offset, l.lexemes.map (Lexeme.mapSpans g), l.diagnostics.map (Diagnostic.mapSpans g)⟩

/-- A piece of the text is added as a lexeme with the number of its file, or as a diagnostic with
it. -/
theorem Lexing.add_renumber (φ : FileId → FileId) (file : FileId) (l : Lexing) (p : Piece) :
    (l.mapSpans (.renumber φ)).add (φ file) p = (l.add file p).mapSpans (.renumber φ) := by
  cases hp : p.read with
  | none => simp [add_skipped hp, mapSpans]
  | some r =>
    cases r with
    | ok t => simp [add_token hp, mapSpans, Lexeme.mapSpans, Span.renumber]
    | error e =>
      simp [add_problem hp, mapSpans, Lexeme.mapSpans, Diagnostic.mapSpans, Span.renumber,
        Piece.mapSpans_of_read hp]

/-- The lexer looks at the number of a file only to put it into spans. -/
theorem lex_renumber (φ : FileId → FileId) (file : FileId) (source : String) :
    lex (φ file) source = Prod.map (List.map (Lexeme.mapSpans (.renumber φ)))
      (List.map (Diagnostic.mapSpans (.renumber φ))) (lex file source) := by
  have h : (Piece.cut source.toList).foldl (Lexing.add (φ file))
        (Lexing.mapSpans (.renumber φ) ⟨0, [], []⟩) =
      ((Piece.cut source.toList).foldl (Lexing.add file) ⟨0, [], []⟩).mapSpans (.renumber φ) :=
    List.foldl_hom (Lexing.mapSpans (.renumber φ)) fun l p => l.add_renumber φ file p
  simp only [Lexing.mapSpans, List.map_nil] at h
  simp [lex, h]

end LetPoly
