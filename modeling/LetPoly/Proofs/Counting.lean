import LetPoly.Proofs.Concatenation
import LetPoly.Proofs.Counter

/-!
# The counter is kept

The parser that counts and the parser with levels do the same.  Where the counter stands at `d`
there are `maxDepth - d` levels left.  The counting parser goes on recording after it has abandoned
the source, and what it keeps in the end is what the other one has reported.

A counting parser *keeps* the counter if it follows the parser with levels and ends with the value
it began with.  There is one lemma for each parser.  The loops that go deeper with each round do not
keep it, and each of them stands in a parser that sets it back.  From the lemmas it follows that the
number of calls that a counting parser may make does not matter if it is greater than the limit, and
the number of rounds if it is greater than the number of lexemes that are left.
-/

namespace LetPoly

/-! ## States that agree -/

/-- The diagnostic that nesting is too deep. -/
def Diagnostic.IsTooDeep (m : Diagnostic) : Prop := m.problem.code = "EP07"

/-- How many messages are kept and what was recorded each time the counter did not go up, against
all that was recorded, what the parser with levels has reported, and whether it has given up. -/
inductive Recorded : Option Nat → List (List Diagnostic) → List Diagnostic → List Diagnostic →
    Bool → Prop
  /-- The counter went up each time. -/
  | all {recorded : List Diagnostic} (clean : ∀ m ∈ recorded, ¬m.IsTooDeep) :
      Recorded none [] recorded recorded false
  /-- There is a first time the counter did not go up, and what was recorded before is kept. -/
  | cut {refusals : List (List Diagnostic)} {recorded before : List Diagnostic} {span : Span}
      (first : refusals.getLast? = some before) (clean : ∀ m ∈ before, ¬m.IsTooDeep)
      (suffix : ⟨span, .nestedTooDeeply maxDepth⟩ :: before <:+ recorded) :
      Recorded (some (before.length + 1)) refusals recorded
        (⟨span, .nestedTooDeeply maxDepth⟩ :: before) true

/-- The counting parser is where the parser with levels is. -/
structure Agree (c : Counter) (s t : ParserState) : Prop where
  /-- The limit is kept. -/
  values : ∀ d ∈ c.values, 0 ≤ d ∧ d ≤ maxDepth
  rest : s.rest = t.rest
  last : s.last = t.last
  origin : s.origin = t.origin
  /-- The counting parser goes on recording. -/
  recording : s.gaveUp = false
  recorded : Recorded c.kept c.refusals s.reported t.reported t.gaveUp

namespace Recorded

variable {kept : Option Nat} {refusals : List (List Diagnostic)}
  {recorded reported : List Diagnostic} {gaveUp : Bool}

/-- A report that is made by both parsers. -/
theorem report (h : Recorded kept refusals recorded reported gaveUp) {m : Diagnostic}
    (hm : ¬m.IsTooDeep) :
    Recorded kept refusals (m :: recorded) (if gaveUp then reported else m :: reported) gaveUp := by
  cases h with
  | all clean => exact .all (List.forall_mem_cons.2 ⟨hm, clean⟩)
  | cut first clean suffix => exact .cut first clean (suffix.trans (List.suffix_cons ..))

/-- The first time the counter does not go up is recorded, and the others are not. -/
theorem refuse (h : Recorded kept refusals recorded reported gaveUp) (span : Span) :
    let m : Diagnostic := ⟨span, .nestedTooDeeply maxDepth⟩
    let recorded' := if kept.isNone then m :: recorded else recorded
    Recorded (kept.or (some recorded'.length)) (recorded :: refusals) recorded'
      (if gaveUp then reported else m :: reported) true := by
  cases h with
  | all clean => exact .cut rfl clean List.suffix_rfl
  | cut first clean suffix =>
    refine .cut ?_ clean suffix
    rw [List.getLast?_cons, first]
    rfl

/-- What is kept is what was reported. -/
theorem messages {c : Counter} (h : Recorded c.kept c.refusals recorded reported gaveUp) :
    c.messages recorded = reported.reverse := by
  rw [Counter.messages]
  generalize c.kept = kept, c.refusals = refusals at h
  cases h with
  | all => rfl
  | cut first clean suffix =>
    have hprefix := List.reverse_prefix.2 suffix
    have htake := List.prefix_iff_eq_take.1 hprefix
    rw [List.length_reverse, List.length_cons] at htake
    exact htake.symm

/-- If the counter always went up, nothing was too deep. -/
theorem clean (h : Recorded kept refusals recorded reported gaveUp) (hrefusals : refusals = []) :
    ∀ m ∈ reported, ¬m.IsTooDeep := by
  cases h with
  | all clean => exact clean
  | cut first =>
    rw [hrefusals] at first
    cases first

/-- The first time it did not go up is reported last, behind what was recorded before. -/
theorem first_refusal {before : List Diagnostic}
    (h : Recorded kept refusals recorded reported gaveUp)
    (hrefusals : refusals.getLast? = some before) :
    (∀ m ∈ before, ¬m.IsTooDeep) ∧
      ∃ span, reported = ⟨span, .nestedTooDeeply maxDepth⟩ :: before := by
  cases h with
  | all => cases hrefusals
  | @cut _ _ _ span first clean =>
    cases Option.some.inj (hrefusals.symm.trans first)
    exact ⟨clean, span, rfl⟩

end Recorded

namespace Agree

variable {c : Counter} {s t : ParserState}

theorem here (h : Agree c s t) : s.here = t.here := by
  rw [ParserState.here, ParserState.here, h.rest, h.last, h.origin]

/-- The rounds a loop may take. -/
theorem rounds (h : Agree c s t) : t.rest.length < s.rest.length + 1 := by
  rw [h.rest]
  exact Nat.lt_succ_self _

theorem previous (h : Agree c s t) : s.previous = t.previous := by
  rw [ParserState.previous, ParserState.previous, h.last, h.origin]

/-- Both report the same, apart from the depth of nesting. -/
theorem report (h : Agree c s t) (span : Span) {p : Problem} (hp : p.code ≠ "EP07") :
    Agree c (s.report span p) (t.report span p) := by
  obtain ⟨hvalues, hrest, hlast, horigin, hrecording, hrecorded⟩ := h
  obtain ⟨rest, last, origin, recorded, gaveUp⟩ := s
  obtain ⟨rest', last', origin', reported, gaveUp'⟩ := t
  cases hrecording
  have hreport := hrecorded.report (m := ⟨span, p⟩) hp
  cases gaveUp' <;> exact ⟨hvalues, hrest, hlast, horigin, rfl, hreport⟩

theorem skipWhile (h : Agree c s t) (p : Lexeme → Bool) :
    Agree c (s.skipWhile p) (t.skipWhile p) := by
  refine ⟨h.values, ?_, ?_, h.origin, h.recording, h.recorded⟩
  · rw [ParserState.skipWhile, ParserState.skipWhile, h.rest]
  · rw [ParserState.skipWhile, ParserState.skipWhile, h.rest, h.last]

theorem goTo (h : Agree c s t) {d : Int} (hd : 0 ≤ d ∧ d ≤ maxDepth) : Agree (c.goTo d) s t :=
  ⟨List.forall_mem_cons.2 ⟨hd, h.values⟩, h.rest, h.last, h.origin, h.recording, h.recorded⟩

/-- Abandoning the source is giving up. -/
theorem abandon (h : Agree c s t) :
    Agree (c.refuse s.reported (CountingParser.abandon c s).reported.length)
      (CountingParser.abandon c s) t.giveUp := by
  have hhere := h.here
  obtain ⟨hvalues, hrest, hlast, horigin, hrecording, hrecorded⟩ := h
  have hrefuse := hrecorded.refuse s.here
  obtain ⟨depth, past, kept, refusals⟩ := c
  obtain ⟨rest, last, origin, recorded, gaveUp⟩ := s
  obtain ⟨rest', last', origin', reported, gaveUp'⟩ := t
  cases hrecording
  cases hrest
  cases hlast
  cases horigin
  cases kept <;> cases gaveUp' <;> exact ⟨hvalues, rfl, rfl, rfl, rfl, hrefuse⟩

end Agree

/-! ## Parsers without a counter -/

/-- The parser does the same in states that agree. -/
def Parser.Steady {α : Type} (q : Parser α) : Prop :=
  ∀ c s t, Agree c s t → ∀ a t', q t = .ok (a, t') →
    t'.rest.length ≤ t.rest.length ∧ ∃ s', q s = .ok (a, s') ∧ Agree c s' t'

namespace Parser

variable {α β : Type} {q : Parser α} {r : α → Parser β}

theorem steady_pure (a : α) : Steady (pure a : Parser α) := by
  rintro c s t h _ _ ⟨⟩
  exact ⟨Nat.le_refl _, s, rfl, h⟩

/-- A sequence does the same in states that agree if both its parsers do. -/
theorem Steady.bind (hq : q.Steady) (hr : ∀ a, (r a).Steady) : Steady (q >>= r) := by
  intro c s t h b t'' hrun
  obtain ⟨a, t', hfirst, hsecond⟩ := bind_eq_ok.1 hrun
  obtain ⟨hle, s', hfirst', h'⟩ := hq c s t h a t' hfirst
  obtain ⟨hle', s'', hsecond', h''⟩ := hr a c s' t' h' b t'' hsecond
  exact ⟨hle'.trans hle, s'', (bind_of_ok hfirst').trans hsecond', h''⟩

theorem steady_here : here.Steady := by
  rintro c s t h _ _ ⟨⟩
  exact ⟨Nat.le_refl _, s, by rw [← h.here]; rfl, h⟩

theorem steady_previous : previous.Steady := by
  rintro c s t h _ _ ⟨⟩
  exact ⟨Nat.le_refl _, s, by rw [← h.previous]; rfl, h⟩

theorem steady_join (x y : Span) : (join x y).Steady := by
  intro c s t h z t' hrun
  obtain ⟨hz, rfl⟩ := join_eq_ok.1 hrun
  exact ⟨Nat.le_refl _, s, join_eq_ok.2 ⟨hz, rfl⟩, h⟩

/-- A report is the same in states that agree, unless it is about the depth of nesting. -/
theorem steady_report (span : Span) {p : Problem} (hp : p.code ≠ "EP07") :
    (report span p).Steady := by
  rintro c s t h _ _ ⟨⟩
  exact ⟨(t.later_report span p).rest, _, rfl, h.report span hp⟩

/-- A lexeme is read by both parsers or by none. -/
theorem accept?_agree {c : Counter} {s t t' : ParserState} {p : Token → Bool}
    {found : Option Lexeme} (h : Agree c s t) (hrun : accept? p t = .ok (found, t')) :
    ∃ s', accept? p s = .ok (found, s') ∧ Agree c s' t' ∧
      (found = none ∧ s' = s ∧ t' = t ∨
        (∃ l, found = some l) ∧ t'.rest.length < t.rest.length) := by
  obtain ⟨l, ls, hrest, hfits, haccept⟩ | ⟨hbegins, haccept⟩ := accept?_cases p t
  · cases haccept.symm.trans hrun
    refine ⟨_, accept?_of_fits (h.rest.trans hrest) hfits, ?_, .inr ⟨⟨l, rfl⟩, ?_⟩⟩
    · exact ⟨h.values, rfl, rfl, h.origin, h.recording, h.recorded⟩
    · exact hrest ▸ Nat.lt_succ_self _
  · cases haccept.symm.trans hrun
    have hbegins' : s.begins p = false := by
      rw [ParserState.begins, h.rest]
      exact hbegins
    exact ⟨s, accept?_of_begins hbegins', h, .inl ⟨rfl, rfl, rfl⟩⟩

/-- Lexemes are the same in states that agree, so the same one is taken. -/
theorem steady_accept? (p : Token → Bool) : (accept? p).Steady := by
  intro c s t h found t' hrun
  obtain ⟨s', hrun', h', ⟨-, -, rfl⟩ | ⟨-, hlt⟩⟩ := accept?_agree h hrun
  · exact ⟨Nat.le_refl _, s', hrun', h'⟩
  · exact ⟨hlt.le, s', hrun', h'⟩

theorem steady_peek (p : Token → Bool) : (peek p).Steady := by
  intro c s t h b t' hrun
  rw [peek_eq] at hrun
  cases hrun
  refine ⟨Nat.le_refl _, s, ?_, h⟩
  rw [peek_eq, ParserState.begins, ParserState.begins, h.rest]

theorem steady_expect (t : Token) : (expect t).Steady := by
  refine (steady_accept? _).bind fun found => ?_
  cases found with
  | some l => exact steady_pure ()
  | none => exact steady_here.bind fun span => steady_report span (by simp [Problem.code])

theorem steady_closeGroup (opener : Span) : (closeGroup opener).Steady := by
  refine (steady_accept? _).bind fun found => ?_
  cases found with
  | some l => exact steady_pure ()
  | none => exact steady_report opener (by decide)

/-- A name is read without a counter. -/
theorem steady_name : name.Steady := by
  refine (steady_accept? _).bind fun found => ?_
  cases found with
  | some l =>
    obtain ⟨t, span⟩ := l
    cases t <;> exact steady_pure _
  | none =>
    exact steady_here.bind fun span => (steady_report span (by decide)).bind fun _ => steady_pure _

theorem steady_applyOperator (op : Lexeme) (lhs rhs : Expr) : (applyOperator op lhs rhs).Steady :=
  (steady_join _ _).bind fun _ => (steady_join _ _).bind fun _ => steady_pure _

theorem steady_applyAll (close : Span) (e : Expr) (es : List Expr) :
    (applyAll close e es).Steady := by
  induction es generalizing e with
  | nil => exact steady_pure e
  | cons a es ih => exact (steady_join _ _).bind fun _ => (steady_join _ _).bind fun _ => ih _

theorem steady_curry (body : Expr) (bs : List Binder) : (curry body bs).Steady := by
  induction bs with
  | nil => exact steady_pure body
  | cons b bs ih => exact ih.bind fun inner => (steady_join _ _).bind fun _ => steady_pure _

end Parser

/-! ## Following a parser with levels -/

namespace CountingParser

section

variable {α β γ δ : Type} {c c' : Counter} {s s' t : ParserState} {a : α} {q : CountingParser α}
  {q' : Parser β} {r : α → CountingParser γ} {r' : β → Parser δ} {R : α → Counter → β → Prop}
  {R' : γ → Counter → δ → Prop}

/-- If the parser with levels ends then the counting one does, with values in a relation. -/
def Follows (c : Counter) (s t : ParserState) (q : CountingParser α) (q' : Parser β)
    (R : α → Counter → β → Prop) : Prop :=
  ∀ b t', q' t = .ok (b, t') → t'.rest.length ≤ t.rest.length ∧
    ∃ a c' s', q c s = .ok ((a, c'), s') ∧ R a c' b ∧ Agree c' s' t'

theorem bind_of_ok (h : q c s = .ok ((a, c'), s')) : (q >>= r) c s = r a c' s' := by
  simp only [Bind.bind, StateT.bind, Except.bind, h]

theorem Follows.pure {a : α} {b : β} (h : Agree c s t) (hR : R a c b) :
    Follows c s t (pure a) (pure b) R := by
  rintro _ _ ⟨⟩
  exact ⟨Nat.le_refl _, a, c, s, rfl, hR, h⟩

/-- Sequences follow each other if the first parsers do, and then the second ones from states that
agree. -/
theorem Follows.bind (hq : Follows c s t q q' R)
    (hr : ∀ a c' s' b t', R a c' b → Agree c' s' t' → t'.rest.length ≤ t.rest.length →
      Follows c' s' t' (r a) (r' b) R') :
    Follows c s t (q >>= r) (q' >>= r') R' := by
  intro d t'' hrun
  obtain ⟨b, t', hfirst, hsecond⟩ := Parser.bind_eq_ok.1 hrun
  obtain ⟨hle, a, c', s', hfirst', hab, h'⟩ := hq b t' hfirst
  obtain ⟨hle', d', c'', s'', hsecond', hR', h''⟩ := hr a c' s' b t' hab h' hle d t'' hsecond
  exact ⟨hle'.trans hle, d', c'', s'', (bind_of_ok hfirst').trans hsecond', hR', h''⟩

/-- The relation between the values can be weakened. -/
theorem Follows.mono {R₁ : α → Counter → β → Prop} (hq : Follows c s t q q' R)
    (h : ∀ a c' b, R a c' b → R₁ a c' b) : Follows c s t q q' R₁ := by
  intro b t' hrun
  obtain ⟨hle, a, c', s', hrun', hR, h'⟩ := hq b t' hrun
  exact ⟨hle, a, c', s', hrun', h a c' b hR, h'⟩

/-- What the parser with levels does to its value in the end. -/
theorem Follows.map_right {f : β → δ} {R₁ : α → Counter → δ → Prop} (hq : Follows c s t q q' R)
    (h : ∀ a c' b, R a c' b → R₁ a c' (f b)) :
    Follows c s t q (do return f (← q')) R₁ := by
  intro d t' hrun
  obtain ⟨b, t'', hfirst, hsecond⟩ := Parser.bind_eq_ok.1 hrun
  cases hsecond
  obtain ⟨hle, a, c', s', hrun', hR, h'⟩ := hq b _ hfirst
  exact ⟨hle, a, c', s', hrun', h a c' b hR, h'⟩

/-- A parser without a counter follows itself and leaves the counter as it is. -/
theorem follows_plain {q : Parser α} (hq : q.Steady) (h : Agree c s t) :
    Follows c s t (plain q) q fun a c' b => a = b ∧ c' = c := by
  intro a t' hrun
  obtain ⟨hle, s', hrun', h'⟩ := hq c s t h a t' hrun
  exact ⟨hle, a, c, s', by rw [plain, hrun'], ⟨rfl, rfl⟩, h'⟩

end

/-! ## Keeping the counter -/

/-- With the given number of levels left, the counting parser follows the other one and ends with
the counter where it was. -/
def Keeps {α : Type} (k : Nat) (q : CountingParser α) (q' : Parser α) : Prop :=
  ∀ c s t, Agree c s t → c.depth + k = maxDepth →
    Follows c s t q q' fun a c' b => a = b ∧ c'.depth = c.depth

section

variable {α β : Type} {k : Nat} {c : Counter} {s t : ParserState}

theorem Keeps.follows {q : CountingParser α} {q' : Parser α} (hq : Keeps k q q') (h : Agree c s t)
    (hk : c.depth + k = maxDepth) : Follows c s t q q' fun a _ b => a = b :=
  (hq c s t h hk).mono fun _ _ _ h => h.1

theorem keeps_pure (a : α) : Keeps k (pure a) (pure a) :=
  fun _ _ _ h _ => .pure h ⟨rfl, rfl⟩

/-- A sequence keeps the counter if both its parsers do. -/
theorem Keeps.bind {q : CountingParser α} {q' : Parser α} {r : α → CountingParser β}
    {r' : α → Parser β} (hq : Keeps k q q') (hr : ∀ a, Keeps k (r a) (r' a)) :
    Keeps k (q >>= r) (q' >>= r') := by
  intro c s t h hk
  refine (hq c s t h hk).bind ?_
  rintro a c' s' _ t' ⟨rfl, hdepth⟩ h' -
  refine (hr a c' s' t' h' (by rw [hdepth, hk])).mono ?_
  rintro b c'' _ ⟨rfl, hdepth'⟩
  exact ⟨rfl, hdepth'.trans hdepth⟩

theorem keeps_plain {q : Parser α} (hq : q.Steady) : Keeps k (plain q) q := by
  intro c s t h _
  refine (follows_plain hq h).mono ?_
  rintro a _ _ ⟨rfl, rfl⟩
  exact ⟨rfl, rfl⟩

/-- Something that is placed from one span to another. -/
theorem keeps_join (x y : Span) (f : Span → α) :
    Keeps k (do return f (← plain (Parser.join x y))) (do return f (← Parser.join x y)) :=
  (keeps_plain (Parser.steady_join x y)).bind fun _ => keeps_pure _

/-- Something that is placed from one parenthesis to the other. -/
theorem keeps_closeGroup (opener : Span) (f : Span → α) :
    Keeps k
      (do
        plain (Parser.closeGroup opener)
        return f (← plain (Parser.join opener (← plain Parser.previous))))
      (do
        Parser.closeGroup opener
        return f (← Parser.join opener (← Parser.previous))) := by
  refine (keeps_plain (Parser.steady_closeGroup opener)).bind fun _ => ?_
  exact (keeps_plain Parser.steady_previous).bind fun close => keeps_join opener close f

/-- A lexeme that is asked for is read by both parsers or by none. -/
theorem Follows.accept? {γ : Type} {p : Token → Bool} {r : Option Lexeme → CountingParser γ}
    {r' : Option Lexeme → Parser β} {R : γ → Counter → β → Prop} (h : Agree c s t)
    (hsome : ∀ l s' t', Agree c s' t' → t'.rest.length < t.rest.length →
      Follows c s' t' (r (some l)) (r' (some l)) R)
    (hnone : Follows c s t (r none) (r' none) R) :
    Follows c s t (plain (Parser.accept? p) >>= r) (Parser.accept? p >>= r') R := by
  intro b t'' hrun
  obtain ⟨found, t', hfirst, hsecond⟩ := Parser.bind_eq_ok.1 hrun
  obtain ⟨s', hfirst', h', hcases⟩ := Parser.accept?_agree h hfirst
  have hplain : plain (Parser.accept? p) c s = .ok ((found, c), s') := by rw [plain, hfirst']
  rw [bind_of_ok hplain]
  obtain ⟨rfl, rfl, rfl⟩ | ⟨⟨l, rfl⟩, hlt⟩ := hcases
  · exact hnone b t'' hsecond
  · obtain ⟨hle, hend⟩ := hsome l s' t' h' hlt b t'' hsecond
    exact ⟨hle.trans hlt.le, hend⟩

/-! ### Levels -/

/-- With a level left, the counter goes up by one. -/
theorem descend_succ (h : Agree c s t) (hk : c.depth + (k + 1 : Nat) = maxDepth) :
    descend c s = .ok ((true, c.goTo (c.depth + 1)), s) ∧ Agree (c.goTo (c.depth + 1)) s t := by
  have hdepth := h.values c.depth (List.mem_cons_self ..)
  refine ⟨if_pos (by omega), h.goTo (by omega)⟩

/-- At the limit the counter does not go up, and the rest of the source is abandoned. -/
theorem descend_zero (hk : c.depth + (0 : Nat) = maxDepth) :
    descend c s =
      .ok ((false, c.refuse s.reported (abandon c s).reported.length), abandon c s) :=
  if_neg (by omega)

/-- Where no level is left both parsers give up. -/
theorem keeps_nested_zero {form : CountingParser α} {invalid : Span → α} :
    Keeps 0 (nested form invalid) (do Parser.giveUp; return invalid (← Parser.here)) := by
  rintro c s t h hk _ _ ⟨⟩
  refine ⟨t.later_giveUp.rest, _, _, _, bind_of_ok (descend_zero hk), ⟨?_, rfl⟩, h.abandon⟩
  rw [h.abandon.here]

/-- A nested parser takes a level and sets the counter back. -/
theorem Keeps.nested {form : CountingParser α} {form' : Parser α} {invalid : Span → α}
    (hform : Keeps k form form') : Keeps (k + 1) (nested form invalid) form' := by
  intro c s t h hk b t' hrun
  obtain ⟨hdescend, h₁⟩ := descend_succ h hk
  have hk₁ : (c.goTo (c.depth + 1)).depth + k = maxDepth := by
    rw [Counter.depth_goTo]
    omega
  obtain ⟨hle, a, c', s', hrun', ⟨rfl, hdepth⟩, h'⟩ := hform _ s t h₁ hk₁ b t' hrun
  have hvalue := h.values c.depth (List.mem_cons_self ..)
  have hback : c'.depth - 1 = c.depth := by
    rw [hdepth, Counter.depth_goTo]
    omega
  refine ⟨hle, a, c'.goTo c.depth, s', ?_, ⟨rfl, rfl⟩, h'.goTo hvalue⟩
  refine (bind_of_ok hdescend).trans ((bind_of_ok hrun').trans ?_)
  rw [← hback]
  rfl

/-- A parser that sets the counter back need not keep it. -/
theorem keeps_resetting {q : CountingParser α} {q' : Parser α}
    (hq : ∀ c s t, Agree c s t → c.depth + k = maxDepth →
      Follows c s t q q' fun a _ b => a = b) : Keeps k (resetting q) q' := by
  intro c s t h hk b t' hrun
  obtain ⟨hle, a, c', s', hrun', rfl, h'⟩ := hq c s t h hk b t' hrun
  have hvalue := h.values c.depth (List.mem_cons_self ..)
  refine ⟨hle, a, c'.goTo c.depth, s', ?_, ⟨rfl, rfl⟩, h'.goTo hvalue⟩
  exact bind_of_ok (r := fun a => do setDepth c.depth; return a) hrun'

end

section

variable {α β : Type} {k : Nat} {c : Counter} {s t : ParserState} {p : Token → Bool}
  {r : Option Lexeme → CountingParser α} {r' : Option Lexeme → Parser β}
  {R : α → Counter → β → Prop}

/-- If a level is left then it is taken with the lexeme. -/
theorem Follows.acceptBelow? (h : Agree c s t) (hk : c.depth + (k + 1 : Nat) = maxDepth)
    (hsome : ∀ l c' s' t', Agree c' s' t' → c'.depth + k = maxDepth →
      t'.rest.length < t.rest.length → Follows c' s' t' (r (some l)) (r' (some l)) R)
    (hnone : Follows c s t (r none) (r' none) R) :
    Follows c s t (acceptBelow? p >>= r) (Parser.accept? p >>= r') R := by
  rw [CountingParser.acceptBelow?, bind_assoc]
  refine .accept? h (fun l s₁ t₁ h₁ hlt => ?_) hnone
  obtain ⟨hdescend, h₂⟩ := descend_succ h₁ hk
  intro b t' hrun
  obtain ⟨hle, a, c', s', hrun', hR, h'⟩ :=
    hsome l _ s₁ t₁ h₂ (by rw [Counter.depth_goTo]; omega) hlt b t' hrun
  refine ⟨hle, a, c', s', ?_, hR, h'⟩
  dsimp only
  rw [bind_assoc]
  exact (bind_of_ok hdescend).trans hrun'

/-- If none is left then the loop ends, and the parser with levels gives up. -/
theorem Follows.acceptBelow?_zero {u : Parser β} (h : Agree c s t)
    (hk : c.depth + (0 : Nat) = maxDepth) (hgiveUp : ∀ l, r' (some l) = do Parser.giveUp; u)
    (hsome : ∀ c' s' t', Agree c' s' t' → c'.depth + (0 : Nat) = maxDepth →
      Follows c' s' t' (r none) u R)
    (hnone : Follows c s t (r none) (r' none) R) :
    Follows c s t (CountingParser.acceptBelow? p >>= r) (Parser.accept? p >>= r') R := by
  rw [CountingParser.acceptBelow?, bind_assoc]
  refine .accept? h (fun l s₁ t₁ h₁ hlt => ?_) hnone
  rw [hgiveUp]
  intro b t' hrun
  obtain ⟨hle, a, c', s', hrun', hR, h'⟩ := hsome _ _ _ h₁.abandon hk b t' hrun
  refine ⟨hle.trans t₁.later_giveUp.rest, a, c', s', ?_, hR, h'⟩
  dsimp only
  rw [bind_assoc]
  exact (bind_of_ok (descend_zero hk)).trans hrun'

end

/-! ### Loops -/

section

variable {α β : Type} {k n : Nat} {c : Counter} {s t : ParserState}

/-- With one round for each lexeme that is left, and one more, a loop comes to its end. -/
theorem follows_moreItemsFrom {item : CountingParser α} {item' : Parser α}
    (hitem : Keeps k item item') {ls : List Lexeme} (items : List α) (h : Agree c s t)
    (hk : c.depth + k = maxDepth) (hn : t.rest.length < n) (hls : t.rest.length ≤ ls.length) :
    Follows c s t (iterate (nextItem item) n items) (Parser.moreItemsFrom item' ls items)
      fun as c' bs => bs = as.reverse ∧ c'.depth = c.depth := by
  induction n generalizing c s t ls items with
  | zero => exact absurd hn (Nat.not_lt_zero _)
  | succ n ih =>
    rw [iterate, nextItem, bind_assoc]
    cases ls with
    | nil =>
      have hrest : s.rest = [] := h.rest.trans (List.eq_nil_of_length_eq_zero (Nat.le_zero.1 hls))
      have hplain : plain (Parser.mark? .comma) c s = .ok ((none, c), s) := by
        rw [plain, Parser.mark?, Parser.token?, Parser.accept?_nil hrest]
      rintro _ _ ⟨⟩
      exact ⟨Nat.le_refl _, items, c, s, bind_of_ok hplain, ⟨rfl, rfl⟩, h⟩
    | cons l ls =>
      rw [Parser.moreItemsFrom]
      refine Follows.accept? h (fun l s₁ t₁ h₁ hlt => ?_) (.pure h ⟨rfl, rfl⟩)
      dsimp only
      rw [bind_assoc]
      refine (hitem c s₁ t₁ h₁ hk).bind ?_
      rintro a c₂ s₂ _ t₂ ⟨rfl, hdepth⟩ h₂ hle
      refine (ih (a :: items) h₂ (by rw [hdepth, hk]) ?_ ?_).mono ?_
      · omega
      · rw [List.length_cons] at hls
        omega
      · rintro as c₃ bs ⟨hbs, hdepth₃⟩
        exact ⟨hbs, hdepth₃.trans hdepth⟩

/-- Items of a list keep the counter if one item does. -/
theorem keeps_moreItems {item : CountingParser α} {item' : Parser α} (hitem : Keeps k item item') :
    Keeps k (moreItems item) (Parser.moreItems item') := by
  intro c s t h hk b t' hrun
  obtain ⟨hle, as, c', s', hrun', ⟨rfl, hdepth⟩, h'⟩ :=
    follows_moreItemsFrom hitem [] h hk h.rounds (Nat.le_refl _) b t' hrun
  exact ⟨hle, as.reverse, c', s', bind_of_ok hrun', ⟨rfl, hdepth⟩, h'⟩

/-- As many levels are left as the counter says. -/
def Left (k : Nat) (c : Counter) (levels : Levels) : Prop :=
  ∃ k' ≤ k, levels = .ofDepth k' ∧ c.depth + k' = maxDepth

/-- Items each of which takes a level leave the counter as high as levels are taken. -/
theorem follows_moreBelowFrom {item : CountingParser α} {item' : Levels → Parser α}
    (hitem : ∀ k' < k, Keeps k' item (item' (.ofDepth k'))) (items : List α) (h : Agree c s t)
    (hk : c.depth + k = maxDepth) (hn : t.rest.length < n) :
    Follows c s t (iterate (nextBelow item) n items) (Parser.moreBelow item' (.ofDepth k))
      fun as c' r => as = r.1.reverse ++ items ∧ Left k c' r.2 := by
  induction n generalizing k c s t items with
  | zero => exact absurd hn (Nat.not_lt_zero _)
  | succ n ih =>
    rw [iterate, nextBelow, bind_assoc]
    cases k with
    | zero =>
      refine Follows.acceptBelow?_zero h hk (fun _ => rfl) (fun c' s' t' h' hk' => ?_) ?_
      · exact .pure h' ⟨rfl, 0, Nat.le_refl _, rfl, hk'⟩
      · exact .pure h ⟨rfl, 0, Nat.le_refl _, rfl, hk⟩
    | succ k =>
      refine Follows.acceptBelow? h hk (fun l c₁ s₁ t₁ h₁ hk₁ hlt => ?_) ?_
      · dsimp only
        rw [bind_assoc]
        refine (hitem k (Nat.lt_succ_self k) c₁ s₁ t₁ h₁ hk₁).bind ?_
        rintro a c₂ s₂ _ t₂ ⟨rfl, hdepth⟩ h₂ hle
        refine (ih (fun k' hk' => hitem k' (hk'.trans (Nat.lt_succ_self k))) (a :: items) h₂
          (by rw [hdepth, hk₁]) (by omega)).map_right ?_
        rintro as c₃ ⟨bs, left⟩ ⟨rfl, k', hk', hleft, hdepth'⟩
        refine ⟨?_, k', hk'.trans (Nat.le_succ k), hleft, hdepth'⟩
        rw [List.reverse_cons, List.append_assoc]
        rfl
      · exact .pure h ⟨rfl, k + 1, Nat.le_refl _, rfl, hk⟩

theorem follows_moreBelow {item : CountingParser α} {item' : Levels → Parser α}
    (hitem : ∀ k' < k, Keeps k' item (item' (.ofDepth k'))) (h : Agree c s t)
    (hk : c.depth + k = maxDepth) :
    Follows c s t (moreBelow item) (Parser.moreBelow item' (.ofDepth k))
      fun as c' r => as = r.1 ∧ Left k c' r.2 := by
  intro r t' hrun
  obtain ⟨hle, as, c', s', hrun', ⟨rfl, hleft⟩, h'⟩ :=
    follows_moreBelowFrom hitem [] h hk h.rounds r t' hrun
  refine ⟨hle, _, c', s', bind_of_ok hrun', ⟨?_, hleft⟩, h'⟩
  rw [List.append_nil, List.reverse_reverse]

/-- A chain takes a level for each operand, and its first operand has all of them. -/
theorem follows_chain {ops : List Operator} {operand : CountingParser Expr}
    {operand' : Levels → Parser Expr}
    (hoperand : ∀ k' < k, Keeps k' operand (operand' (.ofDepth k'))) (e : Expr) (h : Agree c s t)
    (hk : c.depth + k = maxDepth) (hn : t.rest.length < n) :
    Follows c s t (iterate (nextOperand ops operand) n e)
      (Parser.chain ops operand' (.ofDepth k) e) fun a _ b => a = b := by
  induction n generalizing k c s t e with
  | zero => exact absurd hn (Nat.not_lt_zero _)
  | succ n ih =>
    rw [iterate, nextOperand, bind_assoc, Parser.chain]
    cases k with
    | zero =>
      refine Follows.acceptBelow?_zero h hk (fun _ => rfl) (fun c' s' t' h' hk' => ?_) ?_
      · exact .pure h' rfl
      · exact .pure h rfl
    | succ k =>
      refine Follows.acceptBelow? h hk (fun op c₁ s₁ t₁ h₁ hk₁ hlt => ?_) (.pure h rfl)
      dsimp only
      rw [bind_assoc]
      refine (hoperand k (Nat.lt_succ_self k) c₁ s₁ t₁ h₁ hk₁).bind ?_
      rintro rhs c₂ s₂ _ t₂ ⟨rfl, hdepth⟩ h₂ hle
      rw [bind_assoc]
      refine (follows_plain (Parser.steady_applyOperator op e rhs) h₂).bind ?_
      rintro e' _ s₃ _ t₃ ⟨rfl, rfl⟩ h₃ hle'
      exact ih (fun k' hk' => hoperand k' (hk'.trans (Nat.lt_succ_self k))) e' h₃
        (by rw [hdepth, hk₁]) (by omega)

/-- After a chain the counter is set back. -/
theorem keeps_binary {ops : List Operator} {operand : CountingParser Expr}
    {operand' : Levels → Parser Expr}
    (hoperand : ∀ k' ≤ k, Keeps k' operand (operand' (.ofDepth k'))) :
    Keeps k (binary ops operand) (Parser.binary ops operand' (.ofDepth k)) := by
  refine keeps_resetting fun c s t h hk => ?_
  refine (hoperand k (Nat.le_refl k) c s t h hk).bind ?_
  rintro e c₁ s₁ _ t₁ ⟨rfl, hdepth⟩ h₁ -
  exact follows_chain (fun k' hk' => hoperand k' hk'.le) e h₁ (by rw [hdepth, hk]) h₁.rounds

end

/-! ## Types and binders -/

/-- The parsers of nested expressions and types keep the counter if fewer than `n` levels are
left. -/
def Inner.Keeps (n : Nat) (i : Inner) : Prop :=
  ∀ k < n, CountingParser.Keeps k i.expr (Levels.ofDepth k).expr ∧
    CountingParser.Keeps k i.type (Levels.ofDepth k).type

section

variable {i : Inner} {n k : Nat} {c : Counter} {s t : ParserState}

theorem keeps_typeGroup (hi : i.Keeps n) (hk : k < n) (opener : Span) :
    Keeps k (typeGroup i opener) (Parser.typeGroup (.ofDepth k) opener) := by
  refine (keeps_plain (Parser.steady_accept? _)).bind fun found => ?_
  cases found with
  | some closer => exact keeps_join _ _ _
  | none =>
    refine (hi k hk).2.bind fun t => (keeps_plain (Parser.steady_peek _)).bind fun comma => ?_
    cases comma with
    | true =>
      exact (keeps_moreItems (hi k hk).2).bind fun ts => keeps_closeGroup opener _
    | false => exact (keeps_plain (Parser.steady_closeGroup opener)).bind fun _ => keeps_pure t

theorem keeps_baseType (hi : i.Keeps n) (hk : k < n) :
    Keeps k (baseType i) (Parser.baseType (.ofDepth k)) := by
  refine (keeps_plain (Parser.steady_accept? _)).bind fun found => ?_
  have hreport (span : Span) {p : Problem} (hp : p.code ≠ "EP07") :
      Keeps k (do plain (Parser.report span p); return TypeExpr.invalid span)
        (do Parser.report span p; return TypeExpr.invalid span) :=
    (keeps_plain (Parser.steady_report span hp)).bind fun _ => keeps_pure _
  have hexpected (span : Span) := hreport span (p := .expectedType) (by decide)
  cases found with
  | none => exact (keeps_plain Parser.steady_here).bind fun span => hexpected span
  | some l =>
    obtain ⟨t, span⟩ := l
    cases t with
    | name x =>
      dsimp only
      cases Con.primitive? x with
      | some c => exact keeps_pure _
      | none => exact hreport span (p := .unknownType x) (by simp [Problem.code])
    | punctuation p =>
      cases p with
      | wildcard => exact keeps_pure _
      | groupOpen => exact keeps_typeGroup hi hk span
      | _ => exact hexpected span
    | invalid => exact keeps_pure _
    | _ => exact hexpected span

theorem keeps_typeForm (hi : i.Keeps n) (hk : k < n) :
    Keeps k (typeForm i) (Parser.typeAbove (.ofDepth k)) := by
  refine (keeps_baseType hi hk).bind fun t => (keeps_plain (Parser.steady_accept? _)).bind ?_
  intro found
  cases found with
  | none => exact keeps_pure t
  | some l =>
    refine (hi k hk).2.bind fun u => ?_
    exact keeps_join _ _ _

theorem keeps_binder (hi : i.Keeps n) (hk : k < n) :
    Keeps k (binder i) (Parser.binder (.ofDepth k)) := by
  refine (keeps_plain Parser.steady_name).bind fun x => ?_
  refine (keeps_plain (Parser.steady_accept? _)).bind fun found => ?_
  cases found with
  | some l => exact (hi k hk).2.bind fun t => keeps_pure _
  | none => exact keeps_pure _

/-! ## Expressions -/

theorem keeps_group (hi : i.Keeps n) (hk : k < n) (opener : Span) :
    Keeps k (group i opener) (Parser.group (.ofDepth k) opener) := by
  refine (keeps_plain (Parser.steady_accept? _)).bind fun found => ?_
  cases found with
  | some closer => exact keeps_join _ _ _
  | none =>
    refine (hi k hk).1.bind fun e => (keeps_plain (Parser.steady_accept? _)).bind fun colon => ?_
    cases colon with
    | some l =>
      exact (hi k hk).2.bind fun t => keeps_closeGroup opener _
    | none =>
      refine (keeps_plain (Parser.steady_peek _)).bind fun comma => ?_
      cases comma with
      | true =>
        exact (keeps_moreItems (hi k hk).1).bind fun es => keeps_closeGroup opener _
      | false => exact (keeps_plain (Parser.steady_closeGroup opener)).bind fun _ => keeps_pure e

theorem keeps_baseExpr (hi : i.Keeps n) (hk : k < n) :
    Keeps k (baseExpr i) (Parser.baseExpr (.ofDepth k)) := by
  refine (keeps_plain (Parser.steady_accept? _)).bind fun found => ?_
  have hreport (span : Span) :
      Keeps k (do plain (Parser.report span .expectedExpression); return Expr.invalid (.new span))
        (do Parser.report span .expectedExpression; return Expr.invalid (.new span)) :=
    (keeps_plain (Parser.steady_report span (by decide))).bind fun _ => keeps_pure _
  cases found with
  | none => exact (keeps_plain Parser.steady_here).bind fun span => hreport span
  | some l =>
    obtain ⟨t, span⟩ := l
    cases t with
    | punctuation p =>
      cases p with
      | groupOpen => exact keeps_group hi hk span
      | _ => exact hreport span
    | keyword | operator => exact hreport span
    | _ => exact keeps_pure _

/-- A call goes on with the levels that its arguments have left. -/
theorem follows_arguments (hi : i.Keeps n) (hk : k < n) (opener : Span) (h : Agree c s t)
    (hdepth : c.depth + k = maxDepth) :
    Follows c s t (arguments i opener) (Parser.arguments (.ofDepth k) opener)
      fun es c' r => es = r.1 ∧ Left k c' r.2 := by
  refine (follows_plain (Parser.steady_accept? _) h).bind ?_
  rintro found _ s₁ _ t₁ ⟨rfl, rfl⟩ h₁ -
  cases found with
  | some closer =>
    refine (follows_plain (Parser.steady_join _ _) h₁).bind ?_
    rintro span _ s₂ _ t₂ ⟨rfl, rfl⟩ h₂ -
    exact .pure h₂ ⟨rfl, k, Nat.le_refl k, rfl, hdepth⟩
  | none =>
    refine ((hi k hk).1 _ s₁ t₁ h₁ hdepth).bind ?_
    rintro e c₂ s₂ _ t₂ ⟨rfl, hdepth₂⟩ h₂ -
    refine (follows_moreBelow (fun k' hk' => (hi k' (hk'.trans hk)).1) h₂
      (by rw [hdepth₂, hdepth])).bind ?_
    rintro es c₃ s₃ ⟨_, left⟩ t₃ ⟨rfl, hleft⟩ h₃ -
    refine (follows_plain (Parser.steady_closeGroup opener) h₃).bind ?_
    rintro _ _ s₄ _ t₄ ⟨-, rfl⟩ h₄ -
    exact .pure h₄ ⟨rfl, hleft⟩

/-- Calls take a level for each round, and for each argument. -/
theorem follows_callsFrom (hi : i.Keeps n) (hk : k < n) {m calls : Nat} (e : Expr)
    (h : Agree c s t) (hdepth : c.depth + k = maxDepth) (hm : t.rest.length < m)
    (hcalls : k ≤ calls) :
    Follows c s t (iterate (nextCall i) m e) (Parser.callsFrom calls (.ofDepth k) e)
      fun a _ b => a = b := by
  induction m generalizing k c s t e calls with
  | zero => exact absurd hm (Nat.not_lt_zero _)
  | succ m ih =>
    rw [iterate, nextCall, bind_assoc]
    unfold Parser.callsFrom
    cases k with
    | zero =>
      refine Follows.acceptBelow?_zero (u := pure e) h hdepth (fun _ => ?_)
        (fun c' s' t' h' _ => ?_) ?_
      · cases calls <;> rfl
      · exact .pure h' rfl
      · exact .pure h rfl
    | succ k =>
      obtain ⟨calls, rfl⟩ : ∃ calls', calls = calls' + 1 := ⟨calls - 1, by omega⟩
      refine Follows.acceptBelow? h hdepth (fun op c₁ s₁ t₁ h₁ hdepth₁ hlt => ?_) (.pure h rfl)
      dsimp only
      rw [bind_assoc]
      refine (follows_arguments hi (by omega) op.span h₁ hdepth₁).bind ?_
      rintro es c₂ s₂ ⟨_, left⟩ t₂ ⟨rfl, k', hk', rfl, hdepth₂⟩ h₂ hle
      rw [bind_assoc]
      refine (follows_plain Parser.steady_previous h₂).bind ?_
      rintro close _ s₃ _ t₃ ⟨rfl, rfl⟩ h₃ hle₃
      rw [bind_assoc]
      refine (follows_plain (Parser.steady_applyAll close e es) h₃).bind ?_
      rintro e' _ s₄ _ t₄ ⟨rfl, rfl⟩ h₄ hle₄
      exact ih (by omega) e' h₄ hdepth₂ (by omega) (by omega)

/-- After the calls the counter is set back. -/
theorem keeps_callExpr (hi : i.Keeps n) (hk : k < n) :
    Keeps k (callExpr i) (Parser.callExpr (.ofDepth k)) := by
  refine keeps_resetting fun c s t h hdepth => ?_
  refine (keeps_baseExpr hi hk c s t h hdepth).bind ?_
  rintro e c₁ s₁ _ t₁ ⟨rfl, hdepth₁⟩ h₁ -
  have hcalls : k ≤ (Levels.ofDepth k).length := (Levels.length_ofDepth k).ge
  exact follows_callsFrom hi hk e h₁ (by rw [hdepth₁, hdepth]) h₁.rounds hcalls

theorem keeps_mulExpr (hi : i.Keeps n) (hk : k < n) :
    Keeps k (mulExpr i) (Parser.mulExpr (.ofDepth k)) :=
  keeps_binary fun _ h => keeps_callExpr hi (h.trans_lt hk)

theorem keeps_addExpr (hi : i.Keeps n) (hk : k < n) :
    Keeps k (addExpr i) (Parser.addExpr (.ofDepth k)) :=
  keeps_binary fun _ h => keeps_mulExpr hi (h.trans_lt hk)

/-- A comparison takes no level, so it keeps the counter. -/
theorem keeps_cmpExpr (hi : i.Keeps n) (hk : k < n) :
    Keeps k (cmpExpr i) (Parser.cmpExpr (.ofDepth k)) := by
  refine (keeps_addExpr hi hk).bind fun e => (keeps_plain (Parser.steady_accept? _)).bind ?_
  intro found
  cases found with
  | none => exact keeps_pure e
  | some op =>
    exact (keeps_addExpr hi hk).bind fun rhs => keeps_plain (Parser.steady_applyOperator op e rhs)

theorem keeps_andExpr (hi : i.Keeps n) (hk : k < n) :
    Keeps k (andExpr i) (Parser.andExpr (.ofDepth k)) :=
  keeps_binary fun _ h => keeps_cmpExpr hi (h.trans_lt hk)

theorem keeps_orExpr (hi : i.Keeps n) (hk : k < n) :
    Keeps k (orExpr i) (Parser.orExpr (.ofDepth k)) :=
  keeps_binary fun _ h => keeps_andExpr hi (h.trans_lt hk)

theorem keeps_letExpr (hi : i.Keeps n) (hk : k < n) (opener : Span) :
    Keeps k (letExpr i opener) (Parser.letExpr (.ofDepth k) opener) := by
  refine (keeps_binder hi hk).bind fun b => (keeps_plain (Parser.steady_expect _)).bind fun _ => ?_
  refine (hi k hk).1.bind fun bound => (keeps_plain (Parser.steady_expect _)).bind fun _ => ?_
  refine (hi k hk).1.bind fun body => ?_
  exact keeps_join _ _ _

theorem keeps_ifExpr (hi : i.Keeps n) (hk : k < n) (opener : Span) :
    Keeps k (ifExpr i opener) (Parser.ifExpr (.ofDepth k) opener) := by
  refine (hi k hk).1.bind fun test => (keeps_plain (Parser.steady_expect _)).bind fun _ => ?_
  refine (hi k hk).1.bind fun yes => (keeps_plain (Parser.steady_expect _)).bind fun _ => ?_
  refine (hi k hk).1.bind fun no => ?_
  exact keeps_join _ _ _

/-- The body of a function stands below all its parameters. -/
theorem keeps_fnExpr (hi : i.Keeps n) (hk : k < n) (opener : Span) :
    Keeps k (fnExpr i opener) (Parser.fnExpr (.ofDepth k) opener) := by
  refine (keeps_plain (Parser.steady_expect _)).bind fun _ => ?_
  refine keeps_resetting fun c s t h hdepth => ?_
  refine (keeps_binder hi hk c s t h hdepth).bind ?_
  rintro b c₁ s₁ _ t₁ ⟨rfl, hdepth₁⟩ h₁ -
  refine (follows_moreBelow (fun k' hk' => keeps_binder hi (hk'.trans hk)) h₁
    (by rw [hdepth₁, hdepth])).bind ?_
  rintro bs c₂ s₂ ⟨_, left⟩ t₂ ⟨rfl, k', hk', rfl, hdepth₂⟩ h₂ -
  refine Keeps.follows ?_ h₂ hdepth₂
  refine (keeps_plain (Parser.steady_expect _)).bind fun _ => ?_
  refine (keeps_plain (Parser.steady_expect _)).bind fun _ => ?_
  refine (hi k' (hk'.trans_lt hk)).1.bind fun body => ?_
  refine (keeps_plain (Parser.steady_curry body bs)).bind fun rest => ?_
  exact keeps_join _ _ _

/-- An expression keeps the counter, whichever keyword it begins with. -/
theorem keeps_exprForm (hi : i.Keeps n) (hk : k < n) :
    Keeps k (exprForm i) (Parser.exprAbove (.ofDepth k)) := by
  refine (keeps_plain (Parser.steady_accept? _)).bind fun found => ?_
  cases found with
  | some l => exact keeps_letExpr hi hk l.span
  | none =>
    refine (keeps_plain (Parser.steady_accept? _)).bind fun found => ?_
    cases found with
    | some l => exact keeps_ifExpr hi hk l.span
    | none =>
      refine (keeps_plain (Parser.steady_accept? _)).bind fun found => ?_
      cases found with
      | some l => exact keeps_fnExpr hi hk l.span
      | none => exact keeps_orExpr hi hk

end

/-- Calls up to a depth that is greater than the number of levels left suffice. -/
theorem inner_keeps (n : Nat) : (inner n).Keeps n := by
  induction n with
  | zero => exact fun k hk => absurd hk (Nat.not_lt_zero k)
  | succ n ih =>
    intro k hk
    cases k with
    | zero => exact ⟨keeps_nested_zero, keeps_nested_zero⟩
    | succ k =>
      have hk : k < n := Nat.lt_of_succ_lt_succ hk
      exact ⟨(keeps_exprForm ih hk).nested, (keeps_typeForm ih hk).nested⟩

/-! ## Programs -/

section

variable {i : Inner} {n k : Nat} {c : Counter} {s t : ParserState}

/-- A declaration begins and ends with the counter at zero. -/
theorem keeps_decl (hi : i.Keeps n) (hn : maxDepth < n) (opener : Span) :
    Keeps maxDepth (decl i opener) (Parser.decl opener) := by
  refine (keeps_binder hi hn).bind fun b => (keeps_plain (Parser.steady_expect _)).bind fun _ => ?_
  refine (hi maxDepth hn).1.bind fun bound => ?_
  refine (keeps_plain (Parser.steady_accept? _)).bind fun _ => ?_
  exact keeps_join _ _ _

/-- Without lexemes there are no more declarations. -/
theorem iterate_nextDecl_nil (hrest : s.rest = []) (m : Nat) (ds : List Decl) :
    iterate (nextDecl i) (m + 1) ds c s = .ok ((ds, c), s) := by
  obtain ⟨rest, last, origin, reported, gaveUp⟩ := s
  cases hrest
  rfl

/-- Where a declaration begins, it is read next. -/
theorem iterate_nextDecl_decl {l : Lexeme} {ls : List Lexeme} (hrest : s.rest = l :: ls)
    (hl : Parser.beginsDecl l = true) (m : Nat) (ds : List Decl) :
    iterate (nextDecl i) (m + 1) ds c s =
      (decl i l.span >>= fun d => iterate (nextDecl i) m (d :: ds)) c
        { s with rest := ls, last := some l } := by
  have hread : plain (Parser.keyword? .letWord) c s =
      .ok ((some l, c), { s with rest := ls, last := some l }) := by
    rw [plain, Parser.keyword?, Parser.token?, Parser.accept?_of_fits hrest hl]
  rw [iterate, nextDecl, bind_assoc, bind_of_ok hread]
  dsimp only
  rw [bind_assoc]
  rfl

/-- What does not begin a declaration is skipped and reported, without a change of the counter. -/
theorem iterate_nextDecl_other {l : Lexeme} {ls : List Lexeme} (hrest : s.rest = l :: ls)
    (hl : Parser.beginsDecl l = false) (m : Nat) (ds : List Decl) :
    iterate (nextDecl i) (m + 1) ds c s = iterate (nextDecl i) m ds c
      ((s.skipWhile fun l => !Parser.beginsDecl l).report l.span .expectedDeclaration) := by
  have hbegins : s.begins (· == .keyword .letWord) = false := by
    rw [ParserState.begins_cons hrest]
    exact hl
  have hread : plain (Parser.keyword? .letWord) c s = .ok ((none, c), s) := by
    rw [plain, Parser.keyword?, Parser.token?, Parser.accept?_of_begins hbegins]
  rw [iterate, nextDecl, bind_assoc, bind_of_ok hread]
  obtain ⟨rest, last, origin, reported, gaveUp⟩ := s
  cases hrest
  rfl

/-- Declarations are followed one after the other. -/
theorem follows_declsFrom (hi : i.Keeps n) (hn : maxDepth < n) {m steps : Nat} (ds : List Decl)
    (h : Agree c s t) (hdepth : c.depth + maxDepth = maxDepth) (hm : t.rest.length < m)
    (hsteps : t.rest.length ≤ steps) :
    Follows c s t (iterate (nextDecl i) m ds) (Parser.declsFrom steps ds)
      fun as c' bs => bs = as.reverse ∧ c'.depth = c.depth := by
  induction m generalizing c s t ds steps with
  | zero => exact absurd hm (Nat.not_lt_zero _)
  | succ m ih =>
    intro b t' hrun
    cases hrest : t.rest with
    | nil =>
      rw [Parser.declsFrom_nil hrest] at hrun
      cases hrun
      exact ⟨by rw [hrest], ds, c, s, iterate_nextDecl_nil (h.rest.trans hrest) m ds, ⟨rfl, rfl⟩, h⟩
    | cons l ls =>
      have hlength : t.rest.length = ls.length + 1 := by rw [hrest, List.length_cons]
      obtain ⟨steps, rfl⟩ : ∃ steps', steps = steps' + 1 := ⟨steps - 1, by omega⟩
      cases hl : Parser.beginsDecl l with
      | true =>
        rw [Parser.declsFrom_decl hrest hl] at hrun
        rw [iterate_nextDecl_decl (h.rest.trans hrest) hl]
        have h₁ : Agree c { s with rest := ls, last := some l }
            { t with rest := ls, last := some l } :=
          ⟨h.values, rfl, rfl, h.origin, h.recording, h.recorded⟩
        have hnext : Follows c { s with rest := ls, last := some l }
            { t with rest := ls, last := some l }
            (decl i l.span >>= fun d => iterate (nextDecl i) m (d :: ds))
            (Parser.decl l.span >>= fun d => Parser.declsFrom steps (d :: ds))
            fun as c' bs => bs = as.reverse ∧ c'.depth = c.depth := by
          refine (keeps_decl hi hn l.span c _ _ h₁ hdepth).bind ?_
          rintro d c₂ s₂ _ t₂ ⟨rfl, hdepth₂⟩ h₂ hle
          simp only at hle
          refine (ih (d :: ds) h₂ (by rw [hdepth₂, hdepth]) (by omega) (by omega)).mono ?_
          rintro as c₃ bs ⟨hbs, hdepth₃⟩
          exact ⟨hbs, hdepth₃.trans hdepth₂⟩
        obtain ⟨hle, hend⟩ := hnext b t' hrun
        exact ⟨hle.trans (Nat.le_succ _), hend⟩
      | false =>
        rw [Parser.declsFrom_other hrest hl] at hrun
        rw [iterate_nextDecl_other (h.rest.trans hrest) hl]
        have hshorter := Parser.length_rest_skip hrest hl l.span .expectedDeclaration
        have h₁ := (h.skipWhile fun l => !Parser.beginsDecl l).report l.span
          (p := .expectedDeclaration) (by decide)
        obtain ⟨hle, hend⟩ := ih ds h₁ hdepth (by omega) (by omega) b t' hrun
        exact ⟨hle.trans (hrest ▸ hshorter.le), hend⟩

/-- A program begins and ends with the counter at zero. -/
theorem follows_program (hi : i.Keeps n) (hn : maxDepth < n) (h : Agree c s t)
    (hdepth : c.depth = 0) :
    Follows c s t (program i) (Parser.declsFrom t.rest.length [])
      fun p c' p' => p = p' ∧ c'.depth = 0 := by
  intro p t' hrun
  have hdepth' : c.depth + maxDepth = maxDepth := by rw [hdepth, zero_add]
  obtain ⟨hle, ds, c', s', hrun', ⟨rfl, hc'⟩, h'⟩ :=
    follows_declsFrom hi hn [] h hdepth' h.rounds (Nat.le_refl _) p t' hrun
  exact ⟨hle, ds.reverse, c', s', bind_of_ok hrun', ⟨rfl, hc'.trans hdepth⟩, h'⟩

end

end CountingParser

/-- With a step for each lexeme, the parser reads to the end. -/
theorem Parser.rest_declsFrom {n : Nat} {acc : List Decl} {p : Program} {s s' : ParserState}
    (hrun : declsFrom n acc s = .ok (p, s')) (hn : s.rest.length ≤ n) : s'.rest = [] := by
  induction n generalizing acc s with
  | zero =>
    cases hrun
    exact List.eq_nil_of_length_eq_zero (Nat.le_zero.1 hn)
  | succ n ih =>
    cases hrest : s.rest with
    | nil =>
      rw [declsFrom_nil hrest] at hrun
      cases hrun
      exact hrest
    | cons l ls =>
      rw [hrest, List.length_cons] at hn
      cases hl : beginsDecl l with
      | true =>
        rw [declsFrom_decl hrest hl] at hrun
        obtain ⟨d, s₁, hdecl, hrun⟩ := bind_eq_ok.1 hrun
        have hlater := (advances_decl l.span _ _ _ hdecl).rest
        exact ih hrun (hlater.trans (Nat.le_of_succ_le_succ hn))
      | false =>
        rw [declsFrom_other hrest hl] at hrun
        have hshorter := length_rest_skip hrest hl l.span .expectedDeclaration
        rw [hrest, List.length_cons] at hshorter
        exact ih hrun (by omega)

/-! ## Productions -/

/-- The parsers of expressions, types and their parts. -/
inductive Production where
  | expr
  | letExpr (opener : Span)
  | ifExpr (opener : Span)
  | fnExpr (opener : Span)
  | orExpr
  | andExpr
  | cmpExpr
  | addExpr
  | mulExpr
  | callExpr
  | baseExpr
  | group (opener : Span)
  | type
  | baseType
  | typeGroup (opener : Span)
  | binder
  | name

namespace Production

/-- What is parsed. -/
def Value : Production → Type
  | type | baseType | typeGroup _ => TypeExpr
  | binder => Binder
  | name => String × Span
  | _ => Expr

/-- The lexeme that the production stands behind. -/
def opener? : Production → Option Span
  | letExpr opener | ifExpr opener | fnExpr opener | group opener | typeGroup opener => some opener
  | _ => none

/-- The parser with a counter. -/
def counting (i : CountingParser.Inner) : (P : Production) → CountingParser P.Value
  | expr => i.expr
  | letExpr opener => CountingParser.letExpr i opener
  | ifExpr opener => CountingParser.ifExpr i opener
  | fnExpr opener => CountingParser.fnExpr i opener
  | orExpr => CountingParser.orExpr i
  | andExpr => CountingParser.andExpr i
  | cmpExpr => CountingParser.cmpExpr i
  | addExpr => CountingParser.addExpr i
  | mulExpr => CountingParser.mulExpr i
  | callExpr => CountingParser.callExpr i
  | baseExpr => CountingParser.baseExpr i
  | group opener => CountingParser.group i opener
  | type => i.type
  | baseType => CountingParser.baseType i
  | typeGroup opener => CountingParser.typeGroup i opener
  | binder => CountingParser.binder i
  | name => CountingParser.plain Parser.name

/-- The parser with levels. -/
def parser (levels : Levels) : (P : Production) → Parser P.Value
  | expr => levels.expr
  | letExpr opener => Parser.letExpr levels opener
  | ifExpr opener => Parser.ifExpr levels opener
  | fnExpr opener => Parser.fnExpr levels opener
  | orExpr => Parser.orExpr levels
  | andExpr => Parser.andExpr levels
  | cmpExpr => Parser.cmpExpr levels
  | addExpr => Parser.addExpr levels
  | mulExpr => Parser.mulExpr levels
  | callExpr => Parser.callExpr levels
  | baseExpr => Parser.baseExpr levels
  | group opener => Parser.group levels opener
  | type => levels.type
  | baseType => Parser.baseType levels
  | typeGroup opener => Parser.typeGroup levels opener
  | binder => Parser.binder levels
  | name => Parser.name

open CountingParser in
/-- Every production keeps the counter. -/
theorem keeps {i : Inner} {n k : Nat} (hi : i.Keeps n) (hk : k < n) (P : Production) :
    Keeps k (P.counting i) (P.parser (.ofDepth k)) := by
  cases P with
  | expr => exact (hi k hk).1
  | letExpr opener => exact keeps_letExpr hi hk opener
  | ifExpr opener => exact keeps_ifExpr hi hk opener
  | fnExpr opener => exact keeps_fnExpr hi hk opener
  | orExpr => exact keeps_orExpr hi hk
  | andExpr => exact keeps_andExpr hi hk
  | cmpExpr => exact keeps_cmpExpr hi hk
  | addExpr => exact keeps_addExpr hi hk
  | mulExpr => exact keeps_mulExpr hi hk
  | callExpr => exact keeps_callExpr hi hk
  | baseExpr => exact keeps_baseExpr hi hk
  | group opener => exact keeps_group hi hk opener
  | type => exact (hi k hk).2
  | baseType => exact keeps_baseType hi hk
  | typeGroup opener => exact keeps_typeGroup hi hk opener
  | binder => exact keeps_binder hi hk
  | name => exact keeps_plain Parser.steady_name

/-- In one file, each production has a value. -/
theorem meets {f : FileId} {levels : Levels} {s : ParserState} (hl : levels.Read f)
    (hs : s.Ready f) (P : Production) (hopener : ∀ x ∈ P.opener?, x.file = f) :
    (P.parser levels).Meets s fun _ s' => s'.Ready f := by
  have hvalue {α : Type} {q : Parser α} {A : α → Prop} {L : α → Language Token}
      (hq : q.Reads f A L) : q.Meets s fun _ s' => s'.Ready f :=
    (hq s hs).mono fun _ _ h => h.2.ready
  cases P with
  | expr => exact hvalue hl.expr
  | letExpr opener => exact hvalue (Parser.reads_letExpr hl (hopener opener rfl))
  | ifExpr opener => exact hvalue (Parser.reads_ifExpr hl (hopener opener rfl))
  | fnExpr opener => exact hvalue (Parser.reads_fnExpr hl (hopener opener rfl))
  | orExpr => exact hvalue (Parser.reads_orExpr hl)
  | andExpr => exact hvalue (Parser.reads_andExpr hl)
  | cmpExpr => exact hvalue (Parser.reads_cmpExpr hl)
  | addExpr => exact hvalue (Parser.reads_addExpr hl)
  | mulExpr => exact hvalue (Parser.reads_mulExpr hl)
  | callExpr => exact hvalue (Parser.reads_callExpr hl)
  | baseExpr => exact hvalue (Parser.reads_baseExpr hl)
  | group opener => exact hvalue (Parser.reads_group hl (hopener opener rfl))
  | type => exact hvalue hl.type
  | baseType => exact hvalue (Parser.reads_baseType hl)
  | typeGroup opener => exact hvalue (Parser.reads_typeGroup hl (hopener opener rfl))
  | binder => exact hvalue (Parser.reads_binder hl)
  | name => exact hvalue Parser.reads_name

/-- In one file, each production has a value, and ends with the counter where it was. -/
theorem returns {n : Nat} (hn : maxDepth < n) {f : FileId} {c : Counter} {s t : ParserState}
    (h : Agree c s t) (ht : t.Ready f) (P : Production) (hopener : ∀ x ∈ P.opener?, x.file = f) :
    ∃ a c' s' t', P.counting (CountingParser.inner n) c s = .ok ((a, c'), s') ∧
      P.parser (.ofDepth (maxDepth - c.depth).toNat) t = .ok (a, t') ∧
      t'.Ready f ∧ Agree c' s' t' ∧ c'.depth = c.depth := by
  have hvalue := h.values c.depth (List.mem_cons_self ..)
  have hk : (maxDepth - c.depth).toNat < n := by omega
  have hleft : c.depth + (maxDepth - c.depth).toNat = maxDepth := by omega
  obtain ⟨a, t', hrun, ht'⟩ := P.meets (Levels.read_ofDepth f _) ht hopener
  obtain ⟨-, _, c', s', hrun', ⟨rfl, hdepth⟩, h'⟩ :=
    P.keeps (CountingParser.inner_keeps n) hk c s t h hleft a t' hrun
  exact ⟨_, c', s', t', hrun', hrun, ht', h', hdepth⟩

end Production

/-- At the start the two parsers agree. -/
theorem agree_start (file : FileId) (ls : List Lexeme) :
    Agree .start ⟨ls, none, .origin file, [], false⟩ ⟨ls, none, .origin file, [], false⟩ where
  values := List.forall_mem_singleton.2 ⟨Int.le_refl 0, Int.natCast_nonneg maxDepth⟩
  rest := rfl
  last := rfl
  origin := rfl
  recording := rfl
  recorded := .all (List.forall_mem_nil _)

/-- The counter is kept: each production ends with the value it began with, and all values are
between zero and the limit.  Lexemes of one file are read to their end.  That nesting is too deep is
reported exactly if the counter was refused once.  It is then the last diagnostic, behind those that
were recorded before the first time. -/
theorem depth_counter_kept (file f : FileId) (ls : List Lexeme) (hfile : ∀ l ∈ ls, l.span.file = f)
    (n : Nat) (hn : maxDepth < n) :
    (∀ (P : Production) (c : Counter) (s t : ParserState), (∀ x ∈ P.opener?, x.file = f) →
      t.Ready f → Agree c s t →
      ∃ a c' s' t', P.counting (CountingParser.inner n) c s = .ok ((a, c'), s') ∧
        P.parser (.ofDepth (maxDepth - c.depth).toNat) t = .ok (a, t') ∧
        t'.Ready f ∧ Agree c' s' t' ∧ c'.depth = c.depth) ∧
    ∃ p ds c s, parse file ls = .ok (p, ds) ∧
      CountingParser.program (CountingParser.inner n) .start
        ⟨ls, none, .origin file, [], false⟩ = .ok ((p, c), s) ∧
      s.rest = [] ∧ ds = c.messages s.reported ∧
      c.depth = 0 ∧ (∀ d ∈ c.values, 0 ≤ d ∧ d ≤ maxDepth) ∧
      (c.refusals = [] → ∀ m ∈ ds, ¬m.IsTooDeep) ∧
      ∀ before, c.refusals.getLast? = some before → (∀ m ∈ before, ¬m.IsTooDeep) ∧
        ∃ m : Diagnostic, m.IsTooDeep ∧ ds = before.reverse ++ [m] := by
  refine ⟨fun P c s t hopener ht h => P.returns hn h ht hopener, ?_⟩
  have hplaced : (⟨ls, none, .origin file, [], false⟩ : ParserState).Placed f := ⟨hfile, nofun⟩
  obtain ⟨_, t', hrun, -⟩ := Parser.reads_declsFrom ls.length [] hplaced
  have hfollows :=
    CountingParser.follows_program (CountingParser.inner_keeps n) hn (agree_start file ls)
  obtain ⟨-, p, c, s, hprogram, ⟨rfl, hdepth⟩, h⟩ := hfollows rfl _ t' hrun
  have hparse : parse file ls = .ok (p, t'.reported.reverse) := by
    rw [parse_eq_map, hrun]
    rfl
  refine ⟨p, t'.reported.reverse, c, s, hparse, hprogram, ?_, h.recorded.messages.symm, hdepth,
    h.values, fun hrefusals m hm => ?_, fun before hbefore => ?_⟩
  · rw [h.rest]
    exact Parser.rest_declsFrom hrun (Nat.le_refl _)
  · exact h.recorded.clean hrefusals m (List.mem_reverse.1 hm)
  · obtain ⟨hclean, span, hreported⟩ := h.recorded.first_refusal hbefore
    refine ⟨hclean, ⟨span, .nestedTooDeeply maxDepth⟩, rfl, ?_⟩
    rw [hreported, List.reverse_cons]

/-- `let x = ((…`, with more parentheses than the limit allows. -/
def unclosedGroups : List Lexeme :=
  let opening : List Token := [.keyword .letWord, .name "x", .punctuation .equal]
  (opening ++ List.replicate 200 (Token.punctuation .groupOpen)).map (⟨·, .nowhere⟩)

/-- The source ends behind `let`. -/
def behindLet : ParserState := ⟨[], some ⟨.keyword .letWord, .nowhere⟩, .origin 0, [], false⟩

/-- An expression leaves the counter at the limit if it was there, and too many parentheses are
refused. -/
theorem depth_counter_kept_unclosedGroups : (∀ l ∈ unclosedGroups, l.span.file = 0) ∧
    (∃ a c s, Production.expr.counting (CountingParser.inner (maxDepth + 1))
      ⟨maxDepth, [], none, []⟩ behindLet = .ok ((a, c), s) ∧ c.depth = maxDepth) ∧
    ∃ p ds c s, parse 0 unclosedGroups = .ok (p, ds) ∧
      CountingParser.program (CountingParser.inner (maxDepth + 1)) .start
        ⟨unclosedGroups, none, .origin 0, [], false⟩ = .ok ((p, c), s) ∧
      s.rest = [] ∧ c.depth = 0 ∧ c.refusals ≠ [] := by
  have hfile : ∀ l ∈ unclosedGroups, l.span.file = 0 := by
    intro l hl
    obtain ⟨t, -, rfl⟩ := List.mem_map.1 hl
    rfl
  obtain ⟨hproductions, p, ds, c, s, hparse, hprogram, hrest, -, hdepth, -, hclean, -⟩ :=
    depth_counter_kept 0 0 unclosedGroups hfile (maxDepth + 1) (Nat.lt_succ_self maxDepth)
  refine ⟨hfile, ?_, p, ds, c, s, hparse, hprogram, hrest, hdepth, fun hrefusals => ?_⟩
  · have hready : behindLet.Ready 0 :=
      ⟨⟨List.forall_mem_nil _, fun h => Bool.noConfusion h⟩, _, rfl, rfl⟩
    have hagree : Agree ⟨maxDepth, [], none, []⟩ behindLet behindLet :=
      ⟨by decide, rfl, rfl, rfl, rfl, .all (List.forall_mem_nil _)⟩
    obtain ⟨a, c, s, _, hrun, -, -, -, hdepth⟩ := hproductions .expr _ _ _ (by decide) hready hagree
    exact ⟨a, c, s, hrun, hdepth⟩
  · have hcodes : (parse 0 unclosedGroups).map (fun r => r.2.map (·.problem.code)) =
        .ok ["EP07"] := by decide +kernel
    rw [hparse] at hcodes
    obtain ⟨m, rfl, hm⟩ := List.map_eq_singleton_iff.1 (Except.ok.inj hcodes)
    exact hclean hrefusals m (List.mem_singleton_self m) hm

end LetPoly
