import LetPoly.Proofs.Depth
import LetPoly.Proofs.ParsedSpans

/-!
# Programs one after the other

The lexemes of a program that is well written can be followed by those of another, and the trees
and reports are put together.  The second program may be as malformed as it likes.  It has to begin
with the keyword of a declaration, or the last definition of the first might go on.

The keyword begins expressions as well, so a parser that is in need of an expression would go on
with the second program.  But at the end of the first it would have reported that it is missing.  A
parser *ignores* what follows if each run that reports nothing stays the same when it is
there.  There is one lemma for each parser.  Between declarations nothing is left in the state of
the parser that matters: all levels are free again, and the last lexeme is not looked at before
another one is read.
-/

namespace LetPoly

/-- The state with more lexemes behind those that are left. -/
def ParserState.followedBy (s : ParserState) (k : List Lexeme) : ParserState :=
  { s with rest := s.rest ++ k }

/-- A parser takes back no report and gives no lexeme back. -/
structure ParserState.Later (s s' : ParserState) : Prop where
  rest : s'.rest.length ≤ s.rest.length
  reported : s.reported.length ≤ s'.reported.length
  origin : s'.origin = s.origin

namespace ParserState

variable {s s' s'' : ParserState}

theorem Later.refl (s : ParserState) : s.Later s := ⟨Nat.le_refl _, Nat.le_refl _, rfl⟩

theorem Later.trans (h : s.Later s') (h' : s'.Later s'') : s.Later s'' :=
  ⟨h'.rest.trans h.rest, h.reported.trans h'.reported, h'.origin.trans h.origin⟩

/-- A report is added to those before. -/
theorem later_report (s : ParserState) (span : Span) (p : Problem) : s.Later (s.report span p) := by
  unfold report
  split
  · exact .refl s
  · exact ⟨Nat.le_refl _, Nat.le_succ _, rfl⟩

/-- Before giving up a report is one more. -/
theorem length_reported_report (h : s.gaveUp = false) (span : Span) (p : Problem) :
    s.reported.length < (s.report span p).reported.length := by
  rw [report, h]
  exact Nat.lt_succ_self _

theorem later_skipWhile (s : ParserState) (p : Lexeme → Bool) : s.Later (s.skipWhile p) :=
  ⟨(List.dropWhile_suffix p).length_le, Nat.le_refl _, rfl⟩

theorem later_giveUp (s : ParserState) : s.Later s.giveUp := by
  have hreport := s.later_report s.here (.nestedTooDeeply maxDepth)
  have h := hreport.trans (later_skipWhile _ fun _ => true)
  exact ⟨h.rest, h.reported, h.origin⟩

end ParserState

/-! ## Parsers that ignore what follows -/

namespace Parser

/-- The parser takes back no report and gives no lexeme back. -/
def Advances {α : Type} (q : Parser α) : Prop := ∀ s a s', q s = .ok (a, s') → s.Later s'

/-- The parser reports something, unless it has given up before. -/
def Reports {α : Type} (q : Parser α) : Prop :=
  ∀ s a s', q s = .ok (a, s') →
    s.Later s' ∧ (s.gaveUp = false → s.reported.length < s'.reported.length)

/-- The parser reports something if there is nothing left to read. -/
def ReportsAtEnd {α : Type} (q : Parser α) : Prop :=
  ∀ s a s', s.rest = [] → s.gaveUp = false → q s = .ok (a, s') →
    s.reported.length < s'.reported.length

/-- If the first parser reports nothing then the second does the same with the given lexemes
behind. -/
def Continues {α : Type} (k : List Lexeme) (s : ParserState) (q q' : Parser α) : Prop :=
  ∀ a s', q s = .ok (a, s') → s.Later s' ∧
    (s.gaveUp = false → s'.reported.length = s.reported.length →
      s'.gaveUp = false ∧ q' (s.followedBy k) = .ok (a, s'.followedBy k))

/-- If the parser reports nothing then it does the same with the given lexemes behind. -/
def Ignores {α : Type} (k : List Lexeme) (q : Parser α) : Prop := ∀ s, Continues k s q q

section

variable {α β : Type} {k : List Lexeme} {s : ParserState} {q q' : Parser α} {r r' : α → Parser β}

theorem Ignores.advances (h : q.Ignores k) : q.Advances := fun s a s' hrun => (h s a s' hrun).1

/-- A parser that reports something can do what it likes with the lexemes behind. -/
theorem Reports.ignores (h : q.Reports) : q.Ignores k := by
  intro s a s' hrun
  obtain ⟨hlater, hlt⟩ := h s a s' hrun
  exact ⟨hlater, fun hs heq => absurd heq (hlt hs).ne'⟩

theorem Reports.atEnd (h : q.Reports) : q.ReportsAtEnd :=
  fun s a s' _ hs hrun => (h s a s' hrun).2 hs

theorem ignores_pure (a : α) : Ignores k (pure a : Parser α) := by
  rintro s _ _ ⟨⟩
  exact ⟨.refl s, fun hs _ => ⟨hs, rfl⟩⟩

/-- Sequences continue if the first parsers do and the second ones do from where they end. -/
theorem Continues.bind (hq : Continues k s q q')
    (hr : ∀ a s', q s = .ok (a, s') → Continues k s' (r a) (r' a)) :
    Continues k s (q >>= r) (q' >>= r') := by
  intro b s'' hrun
  obtain ⟨a, s', hfirst, hsecond⟩ := bind_eq_ok.1 hrun
  obtain ⟨hlater, hsame⟩ := hq a s' hfirst
  obtain ⟨hlater', hsame'⟩ := hr a s' hfirst b s'' hsecond
  refine ⟨hlater.trans hlater', fun hs heq => ?_⟩
  have hle := hlater.reported
  have hle' := hlater'.reported
  -- neither half can have reported anything
  obtain ⟨hs', hrun'⟩ := hsame hs (by omega)
  obtain ⟨hs'', hrun''⟩ := hsame' hs' (by omega)
  exact ⟨hs'', (bind_of_ok hrun').trans hrun''⟩

theorem Ignores.bind (hq : q.Ignores k) (hr : ∀ a, (r a).Ignores k) : Ignores k (q >>= r) :=
  fun s => (hq s).bind fun a s' _ => hr a s'

/-- A sequence ignores some lexemes if its second parser does with the values the first one can
have. -/
theorem Ignores.bind_yields {P : α → Prop} (hq : q.Ignores k) (hP : q.Yields P)
    (hr : ∀ a, P a → (r a).Ignores k) : Ignores k (q >>= r) :=
  fun s => (hq s).bind fun a s' hrun => hr a (hP s a s' hrun) s'

/-- A sequence reports something if its first parser does. -/
theorem Reports.bind (hq : q.Reports) (hr : ∀ a, (r a).Advances) : Reports (q >>= r) := by
  intro s b s'' hrun
  obtain ⟨a, s', hfirst, hsecond⟩ := bind_eq_ok.1 hrun
  obtain ⟨hlater, hlt⟩ := hq s a s' hfirst
  have hlater' := hr a s' b s'' hsecond
  exact ⟨hlater.trans hlater', fun hs => (hlt hs).trans_le hlater'.reported⟩

/-- A sequence reports something at the end if its first parser does. -/
theorem ReportsAtEnd.bind (hq : q.ReportsAtEnd) (hr : ∀ a, (r a).Advances) :
    ReportsAtEnd (q >>= r) := by
  intro s b s'' hrest hs hrun
  obtain ⟨a, s', hfirst, hsecond⟩ := bind_eq_ok.1 hrun
  exact (hq s a s' hrest hs hfirst).trans_le (hr a s' b s'' hsecond).reported

theorem reports_report (span : Span) (p : Problem) : (report span p).Reports := by
  rintro s _ _ ⟨⟩
  exact ⟨s.later_report span p, fun hs => s.length_reported_report hs span p⟩

theorem reports_giveUp : giveUp.Reports := by
  rintro s _ _ ⟨⟩
  exact ⟨s.later_giveUp, fun hs => s.length_reported_report hs s.here _⟩

/-- A report that is followed by a value. -/
theorem Reports.value (hq : q.Reports) (b : β) : Reports (do let _ ← q; return b) :=
  hq.bind fun _ => (ignores_pure (k := []) b).advances

/-- Where the parser stands matters only to what is reported there. -/
theorem Reports.here {r : Span → Parser β} (hr : ∀ span, (r span).Reports) :
    Reports (Parser.here >>= r) := fun s => hr s.here s

theorem ignores_previous : previous.Ignores k := by
  rintro s _ _ ⟨⟩
  exact ⟨.refl s, fun hs _ => ⟨hs, rfl⟩⟩

theorem ignores_join (x y : Span) : (join x y).Ignores k := by
  intro s z s' hrun
  obtain ⟨hz, rfl⟩ := join_eq_ok.1 hrun
  exact ⟨.refl _, fun hs _ => ⟨hs, join_eq_ok.2 ⟨hz, rfl⟩⟩⟩

end

/-! ## The first lexeme of the second program -/

/-- The keyword that declarations begin with. -/
abbrev letToken : Token := .keyword .letWord

/-- The lexemes begin with a declaration. -/
def BeginWithDecl (k : List Lexeme) : Prop := ∃ l ls, k = l :: ls ∧ l.token = letToken

section

variable {α β : Type} {k : List Lexeme} {s : ParserState} {p : Token → Bool}
  {r r' : Option Lexeme → Parser β}

theorem followedBy_nil (h : s.rest = []) : (s.followedBy k).rest = k := by
  rw [ParserState.followedBy, h, List.nil_append]

theorem followedBy_cons {l : Lexeme} {ls : List Lexeme} (h : s.rest = l :: ls) :
    (s.followedBy k).rest = l :: (ls ++ k) := by
  rw [ParserState.followedBy, h, List.cons_append]

/-- What a declaration does not begin with is not found in front of one either. -/
theorem begins_followedBy (hk : BeginWithDecl k) (hp : letToken.fits p = false)
    (s : ParserState) : (s.followedBy k).begins p = s.begins p := by
  cases hrest : s.rest with
  | nil =>
    obtain ⟨l, ls, rfl, hl⟩ := hk
    rw [ParserState.begins_nil hrest, ParserState.begins_cons (followedBy_nil hrest), hl, hp]
  | cons l ls =>
    rw [ParserState.begins_cons hrest, ParserState.begins_cons (followedBy_cons hrest)]

/-- If a lexeme is missing at the end, then whatever follows reports that. -/
theorem reportsAtEnd_accept? (h : (r none).ReportsAtEnd) : ReportsAtEnd (accept? p >>= r) := by
  intro s b s' hrest hs hrun
  rw [bind_of_ok (accept?_nil hrest)] at hrun
  exact h s b s' hrest hs hrun

/-- A lexeme that is asked for may be the first of the second program only if the parser reports its
absence at the end of the first. -/
theorem Continues.accept? (hk : BeginWithDecl k)
    (hsome : ∀ l s', s'.rest.length < s.rest.length → Continues k s' (r (some l)) (r' (some l)))
    (hnone : Continues k s (r none) (r' none))
    (hend : letToken.fits p = true → (r none).ReportsAtEnd) :
    Continues k s (Parser.accept? p >>= r) (Parser.accept? p >>= r') := by
  intro b s' hrun
  obtain ⟨l, ls, hrest, hfits, haccept⟩ | ⟨hbegins, haccept⟩ := accept?_cases p s
  · rw [bind_of_ok haccept] at hrun
    have hshorter : ls.length < s.rest.length := hrest ▸ Nat.lt_succ_self _
    obtain ⟨hlater, hsame⟩ := hsome l _ hshorter b s' hrun
    refine ⟨⟨hlater.rest.trans hshorter.le, hlater.reported, hlater.origin⟩, fun hs heq => ?_⟩
    obtain ⟨hs', hrun'⟩ := hsame hs heq
    exact ⟨hs', (bind_of_ok (accept?_of_fits (followedBy_cons hrest) hfits)).trans hrun'⟩
  · rw [bind_of_ok haccept] at hrun
    obtain ⟨hlater, hsame⟩ := hnone b s' hrun
    refine ⟨hlater, fun hs heq => ?_⟩
    obtain ⟨hs', hrun'⟩ := hsame hs heq
    have hbegins' : (s.followedBy k).begins p = false := by
      cases hrest : s.rest with
      | cons l ls =>
        rw [ParserState.begins_cons hrest] at hbegins
        rw [ParserState.begins_cons (followedBy_cons hrest), hbegins]
      | nil =>
        cases hfits : letToken.fits p with
        | true => exact absurd heq (hend hfits s b s' hrest hs hrun).ne'
        | false => rw [begins_followedBy hk hfits, hbegins]
    exact ⟨hs', (bind_of_ok (accept?_of_begins hbegins')).trans hrun'⟩

/-- To take a lexeme if it fits ignores a declaration behind, unless the keyword fits and nothing is
reported without it. -/
theorem ignores_accept? (hk : BeginWithDecl k) (hsome : ∀ l, (r (some l)).Ignores k)
    (hnone : (r none).Ignores k) (hend : letToken.fits p = true → (r none).ReportsAtEnd) :
    Ignores k (accept? p >>= r) :=
  fun s => Continues.accept? hk (fun l s' _ => hsome l s') (hnone s) hend

/-- A lexeme whose absence is reported. -/
theorem ignores_needed (hk : BeginWithDecl k) (hsome : ∀ l, (r (some l)).Ignores k)
    (hnone : (r none).Reports) : Ignores k (accept? p >>= r) :=
  ignores_accept? hk hsome hnone.ignores fun _ => hnone.atEnd

/-- An optional lexeme, which the second program does not begin with. -/
theorem ignores_optional (hp : letToken.fits p = false) (hk : BeginWithDecl k)
    (hsome : ∀ l, (r (some l)).Ignores k) (hnone : (r none).Ignores k) :
    Ignores k (accept? p >>= r) :=
  ignores_accept? hk hsome hnone fun hfits => absurd hfits (by rw [hp]; exact Bool.false_ne_true)

theorem peek_eq (p : Token → Bool) (s : ParserState) : peek p s = .ok (s.begins p, s) := by
  obtain ⟨a, s', hrun, rfl, rfl⟩ := meets_peek (p := p) (s := s)
    (Q := fun b s' => b = s.begins p ∧ s' = s) ⟨rfl, rfl⟩
  exact hrun

/-- To look for a token other than the keyword ignores a declaration behind. -/
theorem ignores_peek (hp : letToken.fits p = false) (hk : BeginWithDecl k) :
    (peek p).Ignores k := by
  intro s b s' hrun
  cases (peek_eq p s).symm.trans hrun
  refine ⟨.refl s, fun hs _ => ⟨hs, ?_⟩⟩
  rw [peek_eq, begins_followedBy hk hp]

theorem ignores_expect (t : Token) (hk : BeginWithDecl k) : (expect t).Ignores k :=
  ignores_needed hk (fun _ => ignores_pure ()) (.here fun _ => reports_report _ _)

theorem ignores_closeGroup (opener : Span) (hk : BeginWithDecl k) :
    (closeGroup opener).Ignores k :=
  ignores_needed hk (fun _ => ignores_pure ()) (reports_report _ _)

/-- A step for each lexeme is enough, so it does not matter that there are more of both. -/
theorem continues_moreItemsFrom {item : Parser α} (hitem : item.Ignores k) (hk : BeginWithDecl k)
    {ls : List Lexeme} (hls : s.rest.length ≤ ls.length) (acc : List α) :
    Continues k s (moreItemsFrom item ls acc) (moreItemsFrom item (ls ++ k) acc) := by
  induction ls generalizing s acc with
  | nil =>
    rintro _ _ ⟨⟩
    refine ⟨.refl s, fun hs _ => ⟨hs, ?_⟩⟩
    have hrest : s.rest = [] := List.eq_nil_of_length_eq_zero (Nat.le_zero.1 hls)
    have hbegins : (s.followedBy k).begins (· == .punctuation .comma) = false := by
      rw [begins_followedBy hk rfl, ParserState.begins_nil hrest]
    obtain ⟨l, ls, rfl, -⟩ := hk
    exact bind_of_ok (accept?_of_begins hbegins)
  | cons l ls ih =>
    refine Continues.accept? hk (fun _ s₁ hshorter => ?_) (ignores_pure _ s) fun hfits => ?_
    · refine (hitem s₁).bind fun a s₂ hrun => ih ?_ (a :: acc)
      exact (hitem s₁ a s₂ hrun).1.rest.trans (Nat.lt_succ_iff.1 (hshorter.trans_le hls))
    · exact absurd hfits (by decide)

theorem ignores_moreItems {item : Parser α} (hitem : item.Ignores k) (hk : BeginWithDecl k) :
    (moreItems item).Ignores k := fun _ => continues_moreItemsFrom hitem hk (Nat.le_refl _) []

end

end Parser

/-! ## Levels -/

namespace Levels

variable {k : List Lexeme} {levels levels' : Levels}

/-- The parsers of all levels ignore the given lexemes. -/
def Ignore (k : List Lexeme) (levels : Levels) : Prop :=
  ∀ l ∈ levels, l.expr.Ignores k ∧ l.type.Ignores k

theorem Ignore.tail {l : Level} (h : Ignore k (l :: levels)) : levels.Ignore k :=
  fun l' hl' => h l' (List.mem_cons_of_mem l hl')

theorem Ignore.of_suffix (h : levels.Ignore k) (hle : levels' <:+ levels) : levels'.Ignore k :=
  fun l hl => h l (hle.subset hl)

/-- On the next level a declaration behind is ignored, and without a level something is reported. -/
theorem Ignore.expr (h : levels.Ignore k) : levels.expr.Ignores k := by
  cases levels with
  | cons l levels => exact (h l (List.mem_cons_self ..)).1
  | nil =>
    refine (Parser.reports_giveUp.bind fun _ => ?_).ignores
    rintro s _ _ ⟨⟩
    exact .refl s

theorem Ignore.type (h : levels.Ignore k) : levels.type.Ignores k := by
  cases levels with
  | cons l levels => exact (h l (List.mem_cons_self ..)).2
  | nil =>
    refine (Parser.reports_giveUp.bind fun _ => ?_).ignores
    rintro s _ _ ⟨⟩
    exact .refl s

end Levels

namespace Parser

variable {k : List Lexeme} {levels : Levels}

/-! ## Types and binders -/

/-- A type in parentheses ends before a declaration. -/
theorem ignores_typeGroup (hl : levels.Ignore k) (hk : BeginWithDecl k) (opener : Span) :
    (typeGroup levels opener).Ignores k := by
  refine ignores_optional rfl hk (fun closer => (ignores_join _ _).bind fun _ => ignores_pure _) ?_
  refine hl.type.bind fun t => (ignores_peek rfl hk).bind fun comma => ?_
  split
  · refine (ignores_moreItems hl.type hk).bind fun ts =>
      (ignores_closeGroup opener hk).bind fun _ => ?_
    exact ignores_previous.bind fun _ => (ignores_join _ _).bind fun _ => ignores_pure _
  · exact (ignores_closeGroup opener hk).bind fun _ => ignores_pure _

/-- Without a token to begin with, a type is reported as missing. -/
theorem ignores_baseType (hl : levels.Ignore k) (hk : BeginWithDecl k) :
    (baseType levels).Ignores k := by
  have hreport (span : Span) (p : Problem) :
      Reports (do report span p; return TypeExpr.invalid span) := (reports_report span p).value _
  refine ignores_needed hk (fun l => ?_) (.here fun span => hreport span _)
  obtain ⟨t, span⟩ := l
  dsimp only
  split
  · split
    · exact ignores_pure _
    · exact (hreport span _).ignores
  · exact ignores_pure _
  · exact ignores_typeGroup hl hk span
  · exact ignores_pure _
  · exact (hreport span _).ignores

/-- A type ends before a declaration, which begins with no arrow. -/
theorem ignores_typeAbove (hl : levels.Ignore k) (hk : BeginWithDecl k) :
    (typeAbove levels).Ignores k := by
  refine (ignores_baseType hl hk).bind fun t => ?_
  refine ignores_optional rfl hk (fun _ => ?_) (ignores_pure t)
  exact hl.type.bind fun u => (ignores_join _ _).bind fun _ => ignores_pure _

theorem ignores_name (hk : BeginWithDecl k) : name.Ignores k := by
  refine ignores_needed hk (fun l => ?_) (.here fun span => (reports_report span _).value _)
  obtain ⟨t, span⟩ := l
  cases t <;> exact ignores_pure _

theorem ignores_binder (hl : levels.Ignore k) (hk : BeginWithDecl k) :
    (binder levels).Ignores k := by
  refine (ignores_name hk).bind fun x => ?_
  exact ignores_optional rfl hk (fun _ => hl.type.bind fun _ => ignores_pure _) (ignores_pure _)

/-! ## Expressions -/

/-- Items end before a declaration on the levels below as well. -/
theorem ignores_moreBelow {α : Type} {item : Levels → Parser α}
    (hitem : ∀ levels : Levels, levels.Ignore k → (item levels).Ignores k) (hl : levels.Ignore k)
    (hk : BeginWithDecl k) : (moreBelow item levels).Ignores k := by
  induction levels with
  | nil =>
    exact ignores_optional rfl hk (fun _ => (reports_giveUp.value _).ignores) (ignores_pure _)
  | cons level levels ih =>
    refine ignores_optional rfl hk (fun _ => ?_) (ignores_pure _)
    exact (hitem levels hl.tail).bind fun a => (ih hl.tail).bind fun r => ignores_pure _

/-- The levels that are left are among those there were. -/
theorem yields_moreBelow_suffix {α : Type} (item : Levels → Parser α) (levels : Levels) :
    (moreBelow item levels).Yields fun r => r.2 <:+ levels := by
  induction levels with
  | nil =>
    refine .next fun found => ?_
    cases found with
    | none => exact .pure (List.suffix_refl _)
    | some l => exact .next fun _ => .pure (List.suffix_refl _)
  | cons level levels ih =>
    refine .next fun found => ?_
    cases found with
    | none => exact .pure (List.suffix_refl _)
    | some l =>
      exact .next fun a => .bind (ih.mono fun r hr => .pure (hr.trans (List.suffix_cons ..)))

theorem ignores_applyOperator (op : Lexeme) (lhs rhs : Expr) :
    (applyOperator op lhs rhs).Ignores k :=
  (ignores_join _ _).bind fun _ => (ignores_join _ _).bind fun _ => ignores_pure _

/-- No declaration begins with an operator. -/
theorem ignores_operator? {ops : List Operator} {r : Option Lexeme → Parser Expr}
    (hk : BeginWithDecl k) (hsome : ∀ l, (r (some l)).Ignores k) (hnone : (r none).Ignores k) :
    Ignores k (operator? ops >>= r) := ignores_optional rfl hk hsome hnone

section

variable {ops : List Operator} {operand : Levels → Parser Expr}

/-- A chain of operators ends before a declaration, which begins with no operator. -/
theorem ignores_chain (hoperand : ∀ levels : Levels, levels.Ignore k → (operand levels).Ignores k)
    (hl : levels.Ignore k) (hk : BeginWithDecl k) (e : Expr) :
    (chain ops operand levels e).Ignores k := by
  induction levels generalizing e with
  | nil =>
    rw [chain]
    exact ignores_operator? hk (fun _ => (reports_giveUp.value e).ignores) (ignores_pure e)
  | cons level levels ih =>
    rw [chain]
    refine ignores_operator? hk (fun op => ?_) (ignores_pure e)
    refine (hoperand levels hl.tail).bind fun rhs => ?_
    exact (ignores_applyOperator op e rhs).bind fun e => ih hl.tail e

theorem ignores_binary (hoperand : ∀ levels : Levels, levels.Ignore k → (operand levels).Ignores k)
    (hl : levels.Ignore k) (hk : BeginWithDecl k) : (binary ops operand levels).Ignores k :=
  (hoperand levels hl).bind fun e => ignores_chain hoperand hl hk e

end

/-- What stands in parentheses ends before a declaration, or the missing parenthesis is reported. -/
theorem ignores_group (hl : levels.Ignore k) (hk : BeginWithDecl k) (opener : Span) :
    (group levels opener).Ignores k := by
  refine ignores_optional rfl hk (fun closer => (ignores_join _ _).bind fun _ => ignores_pure _) ?_
  refine hl.expr.bind fun e => ignores_optional rfl hk (fun _ => ?_) ?_
  · refine hl.type.bind fun t => (ignores_closeGroup opener hk).bind fun _ => ?_
    exact ignores_previous.bind fun _ => (ignores_join _ _).bind fun _ => ignores_pure _
  · refine (ignores_peek rfl hk).bind fun comma => ?_
    split
    · refine (ignores_moreItems hl.expr hk).bind fun es =>
        (ignores_closeGroup opener hk).bind fun _ => ?_
      exact ignores_previous.bind fun _ => (ignores_join _ _).bind fun _ => ignores_pure _
    · exact (ignores_closeGroup opener hk).bind fun _ => ignores_pure _

/-- Without a token to begin with, an expression is reported as missing. -/
theorem ignores_baseExpr (hl : levels.Ignore k) (hk : BeginWithDecl k) :
    (baseExpr levels).Ignores k := by
  have hreport (span : Span) (p : Problem) :
      Reports (do report span p; return Expr.invalid (.new span)) := (reports_report span p).value _
  refine ignores_needed hk (fun l => ?_) (.here fun span => hreport span _)
  obtain ⟨t, span⟩ := l
  dsimp only
  split
  case h_6 => exact ignores_group hl hk span
  case h_8 => exact (hreport span _).ignores
  all_goals exact ignores_pure _

theorem ignores_arguments (hl : levels.Ignore k) (hk : BeginWithDecl k) (opener : Span) :
    (arguments levels opener).Ignores k := by
  refine ignores_optional rfl hk (fun closer => (ignores_join _ _).bind fun _ => ignores_pure _) ?_
  refine hl.expr.bind fun e => ?_
  refine (ignores_moreBelow (fun _ => Levels.Ignore.expr) hl hk).bind fun r => ?_
  exact (ignores_closeGroup opener hk).bind fun _ => ignores_pure _

theorem ignores_applyAll (close : Span) (e : Expr) (es : List Expr) :
    (applyAll close e es).Ignores k := by
  induction es generalizing e with
  | nil => exact ignores_pure e
  | cons a es ih => exact (ignores_join _ _).bind fun _ => (ignores_join _ _).bind fun _ => ih _

/-- Arguments leave some of the levels. -/
theorem yields_arguments_suffix (levels : Levels) (opener : Span) :
    (arguments levels opener).Yields fun r => r.2 <:+ levels := by
  refine .next fun found => ?_
  cases found with
  | some closer => exact .next fun _ => .pure (List.suffix_refl _)
  | none =>
    refine .next fun e => .bind ((yields_moreBelow_suffix Levels.expr levels).mono fun r hr => ?_)
    exact .next fun _ => .pure hr

/-- Calls end before a declaration, which begins with no parenthesis. -/
theorem ignores_callsFrom (hl : levels.Ignore k) (hk : BeginWithDecl k) (n : Nat) (e : Expr) :
    (callsFrom n levels e).Ignores k := by
  induction n generalizing levels e with
  | zero =>
    unfold callsFrom
    exact ignores_optional rfl hk (fun _ => (reports_giveUp.value e).ignores) (ignores_pure e)
  | succ n ih =>
    unfold callsFrom
    refine ignores_optional rfl hk (fun opener => ?_) (ignores_pure e)
    cases levels with
    | nil => exact (reports_giveUp.value e).ignores
    | cons level levels =>
      refine (ignores_arguments hl.tail hk opener.span).bind_yields
        (yields_arguments_suffix levels opener.span) fun r hr => ?_
      refine ignores_previous.bind fun close => (ignores_applyAll close e r.1).bind fun e => ?_
      exact ih (hl.tail.of_suffix hr) e

theorem ignores_callExpr (hl : levels.Ignore k) (hk : BeginWithDecl k) :
    (callExpr levels).Ignores k :=
  (ignores_baseExpr hl hk).bind fun e => ignores_callsFrom hl hk levels.length e

theorem ignores_mulExpr (hk : BeginWithDecl k) (levels : Levels) (hl : levels.Ignore k) :
    (mulExpr levels).Ignores k := ignores_binary (fun _ hl => ignores_callExpr hl hk) hl hk

theorem ignores_addExpr (hk : BeginWithDecl k) (levels : Levels) (hl : levels.Ignore k) :
    (addExpr levels).Ignores k := ignores_binary (ignores_mulExpr hk) hl hk

/-- A comparison ends before a declaration, which begins with no operator. -/
theorem ignores_cmpExpr (hk : BeginWithDecl k) (levels : Levels) (hl : levels.Ignore k) :
    (cmpExpr levels).Ignores k := by
  refine (ignores_addExpr hk levels hl).bind fun e => ?_
  refine ignores_operator? hk (fun op => ?_) (ignores_pure e)
  exact (ignores_addExpr hk levels hl).bind fun rhs => ignores_applyOperator op e rhs

theorem ignores_andExpr (hk : BeginWithDecl k) (levels : Levels) (hl : levels.Ignore k) :
    (andExpr levels).Ignores k := ignores_binary (ignores_cmpExpr hk) hl hk

theorem ignores_orExpr (hk : BeginWithDecl k) (levels : Levels) (hl : levels.Ignore k) :
    (orExpr levels).Ignores k := ignores_binary (ignores_andExpr hk) hl hk

theorem ignores_letExpr (hl : levels.Ignore k) (hk : BeginWithDecl k) (opener : Span) :
    (letExpr levels opener).Ignores k := by
  refine (ignores_binder hl hk).bind fun b => (ignores_expect _ hk).bind fun _ => ?_
  refine hl.expr.bind fun bound => (ignores_expect _ hk).bind fun _ => hl.expr.bind fun body => ?_
  exact (ignores_join _ _).bind fun _ => ignores_pure _

theorem ignores_ifExpr (hl : levels.Ignore k) (hk : BeginWithDecl k) (opener : Span) :
    (ifExpr levels opener).Ignores k := by
  refine hl.expr.bind fun test => (ignores_expect _ hk).bind fun _ => ?_
  refine hl.expr.bind fun yes => (ignores_expect _ hk).bind fun _ => hl.expr.bind fun no => ?_
  exact (ignores_join _ _).bind fun _ => ignores_pure _

theorem ignores_curry (body : Expr) (bs : List Binder) : (curry body bs).Ignores k := by
  induction bs with
  | nil => exact ignores_pure body
  | cons b bs ih => exact ih.bind fun inner => (ignores_join _ _).bind fun _ => ignores_pure _

theorem ignores_fnExpr (hl : levels.Ignore k) (hk : BeginWithDecl k) (opener : Span) :
    (fnExpr levels opener).Ignores k := by
  refine (ignores_expect _ hk).bind fun _ => (ignores_binder hl hk).bind fun b => ?_
  refine (ignores_moreBelow (fun _ hl => ignores_binder hl hk) hl hk).bind_yields
    (yields_moreBelow_suffix binder levels) fun r hr => ?_
  refine (ignores_expect _ hk).bind fun _ => (ignores_expect _ hk).bind fun _ => ?_
  refine (hl.of_suffix hr).expr.bind fun body => (ignores_curry body r.1).bind fun inner => ?_
  exact (ignores_join _ _).bind fun _ => ignores_pure _

/-! ## Expressions do not end before they begin

At the end of the first program an expression might take the first keyword of the second for its
own.  But there it would have been missed without the second program. -/

theorem reportsAtEnd_baseExpr (levels : Levels) : (baseExpr levels).ReportsAtEnd :=
  reportsAtEnd_accept? (Reports.here fun span => (reports_report span _).value _).atEnd

theorem reportsAtEnd_callExpr (hl : levels.Ignore k) (hk : BeginWithDecl k) :
    (callExpr levels).ReportsAtEnd :=
  (reportsAtEnd_baseExpr levels).bind fun e => (ignores_callsFrom hl hk levels.length e).advances

/-- A chain of operators reports that its first operand is missing. -/
theorem reportsAtEnd_binary {ops : List Operator} {operand : Levels → Parser Expr}
    (hend : (operand levels).ReportsAtEnd)
    (hoperand : ∀ levels : Levels, levels.Ignore k → (operand levels).Ignores k)
    (hl : levels.Ignore k) (hk : BeginWithDecl k) : (binary ops operand levels).ReportsAtEnd :=
  hend.bind fun e => (ignores_chain hoperand hl hk e).advances

theorem reportsAtEnd_addExpr (hl : levels.Ignore k) (hk : BeginWithDecl k) :
    (addExpr levels).ReportsAtEnd := by
  have hmul : (mulExpr levels).ReportsAtEnd :=
    reportsAtEnd_binary (reportsAtEnd_callExpr hl hk) (fun _ hl => ignores_callExpr hl hk) hl hk
  exact reportsAtEnd_binary hmul (ignores_mulExpr hk) hl hk

theorem reportsAtEnd_cmpExpr (hl : levels.Ignore k) (hk : BeginWithDecl k) :
    (cmpExpr levels).ReportsAtEnd := by
  refine (reportsAtEnd_addExpr hl hk).bind fun e => Ignores.advances (k := k) ?_
  refine ignores_operator? hk (fun op => ?_) (ignores_pure e)
  exact (ignores_addExpr hk levels hl).bind fun rhs => ignores_applyOperator op e rhs

theorem reportsAtEnd_orExpr (hl : levels.Ignore k) (hk : BeginWithDecl k) :
    (orExpr levels).ReportsAtEnd := by
  have hand : (andExpr levels).ReportsAtEnd :=
    reportsAtEnd_binary (reportsAtEnd_cmpExpr hl hk) (ignores_cmpExpr hk) hl hk
  exact reportsAtEnd_binary hand (ignores_andExpr hk) hl hk

/-- An expression can begin with the keyword of a declaration, but if there is nothing left then
something is reported. -/
theorem ignores_exprAbove (hl : levels.Ignore k) (hk : BeginWithDecl k) :
    (exprAbove levels).Ignores k := by
  refine ignores_accept? hk (fun l => ignores_letExpr hl hk l.span) ?_ fun _ => ?_
  · refine ignores_optional rfl hk (fun l => ignores_ifExpr hl hk l.span) ?_
    refine ignores_optional rfl hk (fun l => ignores_fnExpr hl hk l.span) ?_
    exact ignores_orExpr hk levels hl
  · exact reportsAtEnd_accept? (reportsAtEnd_accept? (reportsAtEnd_orExpr hl hk))

end Parser

/-- On all levels declarations behind are ignored, by induction on the number of levels. -/
theorem Levels.ignore_ofDepth {k : List Lexeme} (hk : Parser.BeginWithDecl k) (n : Nat) :
    (Levels.ofDepth n).Ignore k := by
  induction n with
  | zero => exact List.forall_mem_nil _
  | succ n ih =>
    exact List.forall_mem_cons.2
      ⟨⟨Parser.ignores_exprAbove ih hk, Parser.ignores_typeAbove ih hk⟩, ih⟩

/-! ## Declarations -/

namespace Parser

variable {k ls : List Lexeme} {l : Lexeme} {s s' : ParserState}

/-- A declaration that is read without reports ends before the next one. -/
theorem ignores_decl (hk : BeginWithDecl k) (opener : Span) : (decl opener).Ignores k := by
  have hl : allLevels.Ignore k := Levels.ignore_ofDepth hk maxDepth
  refine (ignores_binder hl hk).bind fun b => (ignores_expect _ hk).bind fun _ => ?_
  refine hl.expr.bind fun bound => ?_
  have hend : Ignores k do return (⟨← join opener bound.span, b, bound⟩ : Decl) :=
    (ignores_join _ _).bind fun _ => ignores_pure _
  exact ignores_optional rfl hk (fun _ => hend) hend

/-- What is no declaration is skipped. -/
theorem length_rest_skip (hrest : s.rest = l :: ls) (hl : beginsDecl l = false) (span : Span)
    (p : Problem) :
    ((s.skipWhile fun l => !beginsDecl l).report span p).rest.length < s.rest.length := by
  have hskip : (s.skipWhile fun l => !beginsDecl l).rest = ls.dropWhile fun l => !beginsDecl l := by
    rw [ParserState.skipWhile, hrest, List.dropWhile_cons_of_pos (by rw [hl]; rfl)]
  calc ((s.skipWhile fun l => !beginsDecl l).report span p).rest.length
      ≤ (s.skipWhile fun l => !beginsDecl l).rest.length := (ParserState.later_report ..).rest
    _ ≤ ls.length := hskip ▸ (List.dropWhile_suffix _).length_le
    _ < s.rest.length := hrest ▸ Nat.lt_succ_self _

theorem advances_decl (opener : Span) : (decl opener).Advances :=
  (ignores_decl (k := [⟨letToken, .nowhere⟩]) ⟨_, _, rfl, rfl⟩ opener).advances

/-- The declarations that came before are not looked at, and it does not matter how many steps may
be taken if there is one for each lexeme. -/
theorem declsFrom_append {n m : Nat} (hn : s.rest.length ≤ n) (hm : s.rest.length ≤ m)
    (acc before : List Decl) :
    declsFrom m (acc ++ before) s =
      (declsFrom n acc s).map fun r => (before.reverse ++ r.1, r.2) := by
  induction n generalizing m acc s with
  | zero =>
    have hrest := List.eq_nil_of_length_eq_zero (Nat.le_zero.1 hn)
    rw [declsFrom_nil hrest, declsFrom_nil hrest, List.reverse_append]
    rfl
  | succ n ih =>
    cases hrest : s.rest with
    | nil =>
      rw [declsFrom_nil hrest, declsFrom_nil hrest, List.reverse_append]
      rfl
    | cons l ls =>
      have hlength : s.rest.length = ls.length + 1 := by rw [hrest, List.length_cons]
      obtain ⟨m, rfl⟩ : ∃ m', m = m' + 1 := ⟨m - 1, by omega⟩
      cases hl : beginsDecl l with
      | true =>
        rw [declsFrom_decl hrest hl, declsFrom_decl hrest hl]
        cases hdecl : decl l.span { s with rest := ls, last := some l } with
        | error d => simp only [Bind.bind, StateT.bind, Except.bind, hdecl, Except.map]
        | ok r =>
          have hlater := (advances_decl l.span _ _ _ hdecl).rest
          rw [bind_of_ok hdecl, bind_of_ok hdecl]
          exact ih (by simp only at hlater; omega) (by simp only at hlater; omega) (r.1 :: acc)
      | false =>
        have hshorter := length_rest_skip hrest hl l.span .expectedDeclaration
        rw [declsFrom_other hrest hl, declsFrom_other hrest hl]
        exact ih (by omega) (by omega) acc

/-- A program that is well written is read to its end, and then the parser is where it would be at
the start. -/
theorem declsFrom_followedBy (hk : BeginWithDecl k) {n : Nat} {acc : List Decl} {p : Program}
    (hrun : declsFrom n acc s = .ok (p, s')) :
    s.Later s' ∧ (s.gaveUp = false → s'.reported.length = s.reported.length → s.rest.length ≤ n →
      s'.gaveUp = false ∧ s'.rest = [] ∧ ∀ m, s.rest.length + k.length ≤ m →
        ∃ m', k.length ≤ m' ∧
          declsFrom m acc (s.followedBy k) = declsFrom m' p.reverse (s'.followedBy k)) := by
  induction n generalizing acc s with
  | zero =>
    cases hrun
    refine ⟨.refl s', fun hs _ hlength => ⟨hs, ?_, fun m hm => ⟨m, by omega, ?_⟩⟩⟩
    · exact List.eq_nil_of_length_eq_zero (Nat.le_zero.1 hlength)
    · rw [List.reverse_reverse]
  | succ n ih =>
    cases hrest : s.rest with
    | nil =>
      rw [declsFrom_nil hrest] at hrun
      cases hrun
      refine ⟨.refl s', fun hs _ _ => ⟨hs, hrest, fun m hm => ⟨m, by simpa [hrest] using hm, ?_⟩⟩⟩
      rw [List.reverse_reverse]
    | cons l ls =>
      cases hl : beginsDecl l with
      | true =>
        rw [declsFrom_decl hrest hl] at hrun
        obtain ⟨d, s₂, hdecl, hrun⟩ := bind_eq_ok.1 hrun
        obtain ⟨hlater, hsame⟩ := ignores_decl hk l.span _ d s₂ hdecl
        obtain ⟨hlater', hnext⟩ := ih hrun
        have hlength : s.rest.length = ls.length + 1 := by rw [hrest, List.length_cons]
        have hread : s.Later { s with rest := ls, last := some l } :=
          ⟨hlength ▸ Nat.le_succ _, Nat.le_refl _, rfl⟩
        refine ⟨hread.trans (hlater.trans hlater'), fun hs heq hn => ?_⟩
        simp only [List.length_cons] at hn
        obtain ⟨hrest₂, hreported₂, -⟩ := hlater
        have hreported' := hlater'.reported
        obtain ⟨hs₂, hdecl'⟩ := hsame hs (by simp only at hreported₂ ⊢; omega)
        obtain ⟨hs', hrest', hend⟩ := hnext hs₂ (by simp only at hreported₂ ⊢; omega)
          (by simp only at hrest₂; omega)
        refine ⟨hs', hrest', fun m hm => ?_⟩
        simp only [List.length_cons] at hm
        obtain ⟨m, rfl⟩ : ∃ m', m = m' + 1 := ⟨m - 1, by omega⟩
        obtain ⟨m', hm', hrun'⟩ := hend m (by simp only at hrest₂; omega)
        refine ⟨m', hm', ?_⟩
        rw [declsFrom_decl (followedBy_cons hrest) hl]
        exact (bind_of_ok hdecl').trans hrun'
      | false =>
        rw [declsFrom_other hrest hl] at hrun
        obtain ⟨hlater, -⟩ := ih hrun
        have hskip := s.later_skipWhile fun l => !beginsDecl l
        refine ⟨hskip.trans ((ParserState.later_report ..).trans hlater), fun hs heq _ => ?_⟩
        have hreported := ParserState.length_reported_report
          (s := s.skipWhile fun l => !beginsDecl l) hs l.span .expectedDeclaration
        exact absurd heq (hreported.trans_le hlater.reported).ne'

/-- The last lexeme is not looked at before another one is read. -/
theorem declsFrom_last (hk : BeginWithDecl k) {n : Nat} (hn : k.length ≤ n) (acc : List Decl)
    (last last' : Option Lexeme) (origin : Span) (reported : List Diagnostic) (gaveUp : Bool) :
    declsFrom n acc ⟨k, last, origin, reported, gaveUp⟩ =
      declsFrom n acc ⟨k, last', origin, reported, gaveUp⟩ := by
  obtain ⟨l, ls, rfl, hl⟩ := hk
  obtain ⟨n, rfl⟩ : ∃ n', n = n' + 1 := ⟨n - 1, by simp only [List.length_cons] at hn; omega⟩
  have hbegins : beginsDecl l = true := by rw [beginsDecl, hl]; rfl
  rw [declsFrom_decl rfl hbegins, declsFrom_decl rfl hbegins]

end Parser

/-- The tree and the reports of a program behind one that is well written. -/
theorem parse_append_eq_map {file : FileId} {ls ks : List Lexeme} {p : Program}
    (hclean : parse file ls = .ok (p, [])) (hks : ks = [] ∨ Parser.BeginWithDecl ks) :
    parse file (ls ++ ks) = (parse file ks).map fun r => (p ++ r.1, r.2) := by
  rcases hks with rfl | hks
  · rw [List.append_nil, hclean]
    exact congrArg (fun q => Except.ok (q, ([] : List Diagnostic))) (List.append_nil p).symm
  rw [parse_eq_map] at hclean
  cases hrun : Parser.declsFrom ls.length [] ⟨ls, none, .origin file, [], false⟩ with
  | error d =>
    rw [hrun] at hclean
    cases hclean
  | ok r =>
    obtain ⟨p', s'⟩ := r
    rw [hrun] at hclean
    obtain ⟨rfl, hreported⟩ := Prod.ext_iff.1 (Except.ok.inj hclean)
    have hreported : s'.reported = [] := List.reverse_eq_nil_iff.1 hreported
    obtain ⟨hlater, hend⟩ := Parser.declsFrom_followedBy hks hrun
    obtain ⟨hs', hrest, hnext⟩ := hend rfl (by rw [hreported]) (Nat.le_refl _)
    obtain ⟨m, hm, hrun'⟩ := hnext (ls ++ ks).length (List.length_append ▸ Nat.le_refl _)
    have hstate : s'.followedBy ks = ⟨ks, s'.last, .origin file, [], false⟩ := by
      have horigin : s'.origin = .origin file := hlater.origin
      rw [ParserState.followedBy, hrest, hreported, hs', horigin, List.nil_append]
    rw [hstate, Parser.declsFrom_last hks hm _ _ none] at hrun'
    have hboth := Parser.declsFrom_append (s := ⟨ks, none, .origin file, [], false⟩)
      (Nat.le_refl _) hm [] p'.reverse
    rw [List.nil_append, List.reverse_reverse] at hboth
    rw [parse_eq_map, parse_eq_map]
    refine (congrArg (Except.map _) (hrun'.trans hboth)).trans ?_
    cases Parser.declsFrom ks.length [] ⟨ks, none, .origin file, [], false⟩ <;> rfl

/-- Lexemes of one file have a tree. -/
theorem parse_total (file f : FileId) (ls : List Lexeme) (hfile : ∀ l ∈ ls, l.span.file = f) :
    ∃ p ds, parse file ls = .ok (p, ds) := by
  have hplaced : (⟨ls, none, .origin file, [], false⟩ : ParserState).Placed f := ⟨hfile, nofun⟩
  obtain ⟨p, s', hrun, -⟩ := Parser.reads_declsFrom ls.length [] hplaced
  exact ⟨p, s'.reported.reverse, by rw [parse_eq_map, hrun]; rfl⟩

/-- Programs concatenate: behind one that is well written there may be any other. -/
theorem programs_concatenate (file f : FileId) (ls ks : List Lexeme) (p : Program)
    (hfile : ∀ l ∈ ls ++ ks, l.span.file = f) (hclean : parse file ls = .ok (p, []))
    (hks : ks = [] ∨ Parser.BeginWithDecl ks) :
    ∃ q ds, parse file ks = .ok (q, ds) ∧ parse file (ls ++ ks) = .ok (p ++ q, ds) := by
  have hfile' : ∀ l ∈ ks, l.span.file = f := fun l hl => hfile l (List.mem_append_right ls hl)
  obtain ⟨q, ds, hparse⟩ := parse_total file f ks hfile'
  refine ⟨q, ds, hparse, ?_⟩
  rw [parse_append_eq_map hclean hks, hparse]
  rfl

/-- The lexemes of `let x = y`. -/
def Program.copyLexemes : List Lexeme :=
  [⟨.keyword .letWord, ⟨0, 3, 0⟩⟩, ⟨.name "x", ⟨4, 5, 0⟩⟩, ⟨.punctuation .equal, ⟨6, 7, 0⟩⟩,
    ⟨.name "y", ⟨8, 9, 0⟩⟩]

/-- The lexemes of `let (`, behind the others. -/
def Program.brokenLexemes : List Lexeme :=
  [⟨.keyword .letWord, ⟨10, 13, 0⟩⟩, ⟨.punctuation .groupOpen, ⟨14, 15, 0⟩⟩]

/-- Behind a program without reports a broken one has the reports it has alone. -/
theorem programs_concatenate_broken :
    ∃ p q ds, p.map (·.binder.name) = ["x"] ∧ parse 0 Program.copyLexemes = .ok (p, []) ∧
      parse 0 Program.brokenLexemes = .ok (q, ds) ∧
      parse 0 (Program.copyLexemes ++ Program.brokenLexemes) = .ok (p ++ q, ds) := by
  obtain ⟨p, ds, hclean⟩ := parse_total 0 0 Program.copyLexemes (by decide)
  have hread : (parse 0 Program.copyLexemes).map (fun r => (r.1.map (·.binder.name), r.2.length)) =
      .ok (["x"], 0) := by decide +kernel
  rw [hclean] at hread
  obtain ⟨hnames, hlength⟩ := Prod.ext_iff.1 (Except.ok.inj hread)
  cases List.eq_nil_of_length_eq_zero hlength
  obtain ⟨q, ds, hbroken, hboth⟩ := programs_concatenate 0 0 _ Program.brokenLexemes p (by decide)
    hclean (.inr ⟨_, _, rfl, rfl⟩)
  exact ⟨p, q, ds, hnames, hclean, hbroken, hboth⟩

end LetPoly
