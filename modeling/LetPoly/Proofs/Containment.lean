import LetPoly.Proofs.ParsedSpans
import LetPoly.Proofs.Parsers
import LetPoly.Proofs.Trees

/-!
# Spans contain each other

In the tree of a source, be it well written or not, all spans lie in the source, and what is part of
something lies inside of it.  The declarations stand one behind the other.

Most spans are joins of spans of lexemes.  What a parser reads lies between the last lexeme before
and the last lexeme after it.  A missing name is the exception: its span is that of the next
lexeme, which the parser has not read yet.  So for each state there are two places to look at, the
end of the last lexeme and the end of the next.  An expression ends behind both of the state it
starts in, since there is none without a lexeme unless the source is at its end.
-/

namespace LetPoly

/-! ## Spans of trees -/

/-- The span is in the file, which has the given size. -/
structure Span.InFile (f : FileId) (size : Nat) (x : Span) : Prop where
  file : x.file = f
  le : x.start ≤ x.stop
  stop : x.stop ≤ size

/-- The first span lies in the second. -/
structure Span.Within (x y : Span) : Prop where
  file : x.file = y.file
  start : y.start ≤ x.start
  stop : x.stop ≤ y.stop

namespace Span.Within

variable {x y z : Span}

theorem refl (x : Span) : x.Within x := ⟨rfl, Nat.le_refl _, Nat.le_refl _⟩

theorem trans (h : x.Within y) (h' : y.Within z) : x.Within z :=
  ⟨h.file.trans h'.file, h'.start.trans h.start, h.stop.trans h'.stop⟩

end Span.Within

namespace TypeExpr

/-- The immediate parts, left to right. -/
def children : TypeExpr → List TypeExpr
  | prim _ _ => []
  | fn _ param result => [param, result]
  | tuple _ elems => elems
  | wildcard _ => []
  | invalid _ => []

mutual

/-- All parts, a type before its parts and the parts left to right. -/
def walk : TypeExpr → List TypeExpr
  | prim s c => [prim s c]
  | fn s t u => fn s t u :: walk t ++ walk u
  | tuple s ts => tuple s ts :: walkAll ts
  | wildcard s => [wildcard s]
  | invalid s => [invalid s]

/-- All parts of the types of a list. -/
def walkAll : List TypeExpr → List TypeExpr
  | [] => []
  | t :: ts => walk t ++ walkAll ts

end

/-- All spans of a written type. -/
def spans (t : TypeExpr) : List Span := t.walk.map span

theorem walkAll_eq_flatMap (ts : List TypeExpr) : walkAll ts = ts.flatMap walk := by
  induction ts with
  | nil => rfl
  | cons t ts ih => rw [walkAll, ih, List.flatMap_cons]

theorem walk_eq (t : TypeExpr) : t.walk = t :: t.children.flatMap walk := by
  cases t <;> simp [walk, children, walkAll_eq_flatMap]

/-- The parts of a type lie in it, and so do theirs in them. -/
inductive Nested (f : FileId) (size : Nat) : TypeExpr → Prop
  | intro {t : TypeExpr} (inFile : t.span.InFile f size)
      (within : ∀ u ∈ t.children, u.span.Within t.span)
      (nested : ∀ u ∈ t.children, Nested f size u) : Nested f size t

section

variable {f : FileId} {size : Nat} {t u : TypeExpr} {x : Span}

theorem Nested.inFile (h : t.Nested f size) : t.span.InFile f size := by
  obtain ⟨hfile, -, -⟩ := h
  exact hfile

/-- In a nested type every part lies in the whole and is nested itself. -/
theorem Nested.walk (h : t.Nested f size) (hu : u ∈ t.walk) :
    u.Nested f size ∧ u.span.Within t.span := by
  induction h with
  | intro hfile hwithin hnested ih =>
    rw [walk_eq, List.mem_cons, List.mem_flatMap] at hu
    rcases hu with rfl | ⟨c, hc, hu⟩
    · exact ⟨.intro hfile hwithin hnested, .refl _⟩
    · obtain ⟨hu, hx⟩ := ih c hc hu
      exact ⟨hu, hx.trans (hwithin c hc)⟩

/-- All spans of a nested type lie in the file and in the span of the type. -/
theorem Nested.spans (h : t.Nested f size) (hx : x ∈ t.spans) :
    x.InFile f size ∧ x.Within t.span := by
  obtain ⟨u, hu, rfl⟩ := List.mem_map.1 hx
  obtain ⟨hnested, hwithin⟩ := h.walk hu
  exact ⟨hnested.inFile, hwithin⟩

/-- A type without parts. -/
theorem Nested.leaf (hx : t.span.InFile f size) (ht : t.children = []) : t.Nested f size := by
  refine .intro hx ?_ ?_ <;> simp [ht]

/-- A function type is nested if parameter and result are and lie in its span. -/
theorem Nested.fn (hx : x.InFile f size) (ht : t.Nested f size) (hu : u.Nested f size)
    (htx : t.span.Within x) (hux : u.span.Within x) : (fn x t u).Nested f size :=
  .intro hx (by simpa [children] using ⟨htx, hux⟩) (by simpa [children] using ⟨ht, hu⟩)

/-- A tuple type is nested if its elements are and lie in its span. -/
theorem Nested.tuple {ts : List TypeExpr} (hx : x.InFile f size)
    (hts : ∀ t ∈ ts, t.Nested f size ∧ t.span.Within x) : (tuple x ts).Nested f size :=
  .intro hx (fun t ht => (hts t ht).2) fun t ht => (hts t ht).1

end

end TypeExpr

/-- All spans of a binder. -/
def Binder.spans (b : Binder) : List Span := b.span :: b.anno.toList.flatMap TypeExpr.spans

/-- A binder and its annotation lie in a span. -/
structure Binder.NestedIn (f : FileId) (size : Nat) (x : Span) (b : Binder) : Prop where
  inFile : b.span.InFile f size
  within : b.span.Within x
  anno : ∀ t ∈ b.anno, t.Nested f size ∧ t.span.Within x

namespace Expr

/-- The annotations of an expression, without those of its parts. -/
def annotations : Expr → List TypeExpr
  | lam _ b _ => b.anno.toList
  | letIn _ b _ _ => b.anno.toList
  | anno _ _ t => [t]
  | _ => []

/-- The spans of an expression, without those of its parts. -/
def ownSpans (e : Expr) : List Span :=
  e.span :: e.binder?.toList.map (·.span) ++ e.annotations.flatMap TypeExpr.spans

/-- All spans of an expression. -/
def spans (e : Expr) : List Span := e.walk.flatMap ownSpans

/-- The parts of an expression lie in it, and so do theirs in them. -/
inductive Nested (f : FileId) (size : Nat) : Expr → Prop
  | intro {e : Expr} (inFile : e.span.InFile f size)
      (binder : ∀ b ∈ e.binder?, b.span.InFile f size ∧ b.span.Within e.span)
      (annotations : ∀ t ∈ e.annotations, t.Nested f size ∧ t.span.Within e.span)
      (within : ∀ c ∈ e.children, c.span.Within e.span)
      (nested : ∀ c ∈ e.children, Nested f size c) : Nested f size e

section

variable {f : FileId} {size : Nat} {e e' e'' c : Expr} {x : Span} {b : Binder} {t : TypeExpr}

theorem Nested.inFile (h : e.Nested f size) : e.span.InFile f size := by
  obtain ⟨hfile, -, -, -, -⟩ := h
  exact hfile

theorem Nested.of_annotations (h : e.Nested f size) (ht : t ∈ e.annotations) : t.Nested f size := by
  obtain ⟨-, -, hannotations, -, -⟩ := h
  exact (hannotations t ht).1

/-- The spans that an expression has of its own lie in the file and in the span of the
expression. -/
theorem Nested.ownSpans (h : e.Nested f size) (hx : x ∈ e.ownSpans) :
    x.InFile f size ∧ x.Within e.span := by
  obtain ⟨hfile, hbinder, hannotations, -, -⟩ := h
  rw [Expr.ownSpans, List.mem_append, List.mem_cons, List.mem_map, List.mem_flatMap] at hx
  rcases hx with (rfl | ⟨b, hb, rfl⟩) | ⟨t, ht, hx⟩
  · exact ⟨hfile, .refl _⟩
  · exact hbinder b (Option.mem_toList.1 hb)
  · obtain ⟨ht, hwithin⟩ := hannotations t ht
    exact ⟨(ht.spans hx).1, (ht.spans hx).2.trans hwithin⟩

/-- In a nested expression every subexpression lies in the whole and is nested itself. -/
theorem Nested.walk (h : e.Nested f size) (hc : c ∈ e.walk) :
    c.Nested f size ∧ c.span.Within e.span := by
  induction h with
  | intro hfile hbinder hannotations hwithin hnested ih =>
    rw [walk_eq, List.mem_cons, List.mem_flatMap] at hc
    rcases hc with rfl | ⟨d, hd, hc⟩
    · exact ⟨.intro hfile hbinder hannotations hwithin hnested, .refl _⟩
    · obtain ⟨hc, hx⟩ := ih d hd hc
      exact ⟨hc, hx.trans (hwithin d hd)⟩

/-- All spans of a nested expression lie in the file and in the span of the expression. -/
theorem Nested.spans (h : e.Nested f size) (hx : x ∈ e.spans) :
    x.InFile f size ∧ x.Within e.span := by
  obtain ⟨c, hc, hx⟩ := List.mem_flatMap.1 hx
  obtain ⟨hnested, hwithin⟩ := h.walk hc
  obtain ⟨hfile, hx⟩ := hnested.ownSpans hx
  exact ⟨hfile, hx.trans hwithin⟩

/-! ### Nested expressions by form -/

/-- An expression without parts. -/
theorem Nested.leaf (hx : e.span.InFile f size) (he : e.children = []) (hb : e.binder? = none)
    (ht : e.annotations = []) : e.Nested f size := by
  refine .intro hx ?_ ?_ ?_ ?_ <;> simp [he, hb, ht]

/-- A function is nested if its body is and parameter and body lie in its span. -/
theorem Nested.lam (hx : x.InFile f size) (hb : b.NestedIn f size x) (he : e.Nested f size)
    (hex : e.span.Within x) : (lam (.new x) b e).Nested f size := by
  refine .intro hx ?_ ?_ ?_ ?_
  · simpa [binder?] using ⟨hb.inFile, hb.within⟩
  · exact fun t ht => hb.anno t (Option.mem_toList.1 ht)
  · exact List.forall_mem_singleton.2 hex
  · exact List.forall_mem_singleton.2 he

/-- A call is nested if callee and argument are and lie in its span. -/
theorem Nested.app (hx : x.InFile f size) (he : e.Nested f size) (he' : e'.Nested f size)
    (hex : e.span.Within x) (hex' : e'.span.Within x) : (app (.new x) e e').Nested f size := by
  refine .intro hx ?_ ?_ ?_ ?_
  · simp [binder?]
  · simp [annotations]
  · simpa [children] using ⟨hex, hex'⟩
  · simpa [children] using ⟨he, he'⟩

/-- A local definition is nested if definition and body are and the bound name lies in its span
too. -/
theorem Nested.letIn (hx : x.InFile f size) (hb : b.NestedIn f size x) (he : e.Nested f size)
    (he' : e'.Nested f size) (hex : e.span.Within x) (hex' : e'.span.Within x) :
    (letIn (.new x) b e e').Nested f size := by
  refine .intro hx ?_ ?_ ?_ ?_
  · simpa [binder?] using ⟨hb.inFile, hb.within⟩
  · exact fun t ht => hb.anno t (Option.mem_toList.1 ht)
  · simpa [children] using ⟨hex, hex'⟩
  · simpa [children] using ⟨he, he'⟩

/-- A conditional is nested if its three parts are and lie in its span. -/
theorem Nested.cond (hx : x.InFile f size) (he : e.Nested f size) (he' : e'.Nested f size)
    (he'' : e''.Nested f size) (hex : e.span.Within x) (hex' : e'.span.Within x)
    (hex'' : e''.span.Within x) : (cond (.new x) e e' e'').Nested f size := by
  refine .intro hx ?_ ?_ ?_ ?_
  · simp [binder?]
  · simp [annotations]
  · simpa [children] using ⟨hex, hex', hex''⟩
  · simpa [children] using ⟨he, he', he''⟩

/-- An annotated expression is nested if expression and annotation are and lie in its span. -/
theorem Nested.anno (hx : x.InFile f size) (he : e.Nested f size) (ht : t.Nested f size)
    (hex : e.span.Within x) (htx : t.span.Within x) : (anno (.new x) e t).Nested f size := by
  refine .intro hx ?_ ?_ ?_ ?_
  · simp [binder?]
  · simpa [annotations] using ⟨ht, htx⟩
  · exact List.forall_mem_singleton.2 hex
  · exact List.forall_mem_singleton.2 he

/-- A tuple is nested if its elements are and lie in its span. -/
theorem Nested.tuple {es : List Expr} (hx : x.InFile f size)
    (hes : ∀ e ∈ es, e.Nested f size ∧ e.span.Within x) : (tuple (.new x) es).Nested f size := by
  refine .intro hx ?_ ?_ (fun e he => (hes e he).2) fun e he => (hes e he).1
  · simp [binder?]
  · simp [annotations]

end

end Expr

/-! ## States -/

namespace ParserState

/-- The last lexeme and those that are left. -/
def window (s : ParserState) : List Lexeme := s.last.toList ++ s.rest

/-- The lexemes stand one behind the other in a file of the given size, and none is empty. -/
structure InOrder (f : FileId) (size : Nat) (s : ParserState) : Prop where
  inFile : ∀ l ∈ s.window, l.span.InFile f size ∧ l.span.start < l.span.stop
  apart : s.window.Pairwise fun l l' => l.span.stop ≤ l'.span.start

/-- The first lexeme was read. -/
structure Begun (f : FileId) (size : Nat) (s : ParserState) : Prop extends InOrder f size s where
  last : ∃ l, s.last = some l

/-- A parser that started in one state may end in the other. -/
structure Proceeds (f : FileId) (size : Nat) (s s' : ParserState) : Prop where
  begun : s'.Begun f size
  start : s.previous.start ≤ s'.previous.start
  stop : s.previous.stop ≤ s'.previous.stop
  here : s.here.stop ≤ s'.here.stop

/-- The span lies behind the last lexeme of one state and not behind that of the other. -/
structure Inside (f : FileId) (size : Nat) (s s' : ParserState) (x : Span) : Prop where
  inFile : x.InFile f size
  start : s.previous.stop ≤ x.start
  stop : x.stop ≤ s'.previous.stop

/-- The span covers the next lexeme as well. -/
structure Stands (f : FileId) (size : Nat) (s s' : ParserState) (x : Span) : Prop
    extends Inside f size s s' x where
  reaches : s.here.stop ≤ x.stop

/-- The next lexeme was read, which has the span. -/
structure Takes (f : FileId) (size : Nat) (s s' : ParserState) (x : Span) : Prop
    extends Proceeds f size s s' where
  before : s.Begun f size
  here_eq : s.here = x
  previous_eq : s'.previous = x

/-- The span lies behind the last lexeme of one state and not behind the next one of the other. -/
structure Shows (f : FileId) (size : Nat) (s s' : ParserState) (x : Span) : Prop where
  inFile : x.InFile f size
  start : s.previous.stop ≤ x.start
  stop : x.stop ≤ s'.here.stop

variable {f : FileId} {size : Nat} {s s' s₀ s₁ : ParserState} {x : Span}

/-- The last lexeme is in the file, and is not empty. -/
theorem Begun.previous (h : s.Begun f size) :
    s.previous.InFile f size ∧ s.previous.start < s.previous.stop := by
  obtain ⟨l, hl⟩ := h.last
  rw [ParserState.previous, hl]
  exact h.inFile l (by simp [window, hl])

/-- What comes next lies behind the last lexeme. -/
theorem Begun.here (h : s.Begun f size) :
    s.here.InFile f size ∧ s.previous.stop ≤ s.here.start := by
  obtain ⟨l, hl⟩ := h.last
  have hprevious := h.previous.1
  rw [ParserState.previous, hl] at hprevious ⊢
  rw [ParserState.here, hl]
  cases hrest : s.rest with
  | nil => exact ⟨⟨hprevious.file, Nat.le_refl _, hprevious.stop⟩, Nat.le_refl _⟩
  | cons l' ls =>
    have hwindow : s.window = l :: l' :: ls := by rw [window, hl, hrest]; rfl
    have hapart := h.apart
    rw [hwindow, List.pairwise_cons] at hapart
    exact ⟨(h.inFile l' (by simp [hwindow])).1, hapart.1 l' (List.mem_cons_self ..)⟩

theorem Begun.previous_le_here (h : s.Begun f size) : s.previous.stop ≤ s.here.stop :=
  h.here.2.trans h.here.1.le

/-- What is left lies behind the last lexeme, and does not end before the next one. -/
theorem Begun.le_of_mem_rest (h : s.Begun f size) {l : Lexeme} (hmem : l ∈ s.rest) :
    s.previous.stop ≤ l.span.start ∧ s.here.stop ≤ l.span.stop := by
  obtain ⟨l₀, hl₀⟩ := h.last
  obtain ⟨l₁, ls, hrest⟩ := List.exists_cons_of_ne_nil (List.ne_nil_of_mem hmem)
  have hwindow : s.window = l₀ :: l₁ :: ls := by rw [window, hl₀, hrest]; rfl
  have hapart := h.apart
  rw [hwindow, List.pairwise_cons, List.pairwise_cons, ← hrest] at hapart
  have hhere : s.here = l₁.span := by rw [ParserState.here, hrest]
  rw [ParserState.previous, hl₀, hhere]
  refine ⟨hapart.1 l hmem, ?_⟩
  rw [hrest, List.mem_cons] at hmem
  rcases hmem with rfl | hmem
  · exact Nat.le_refl _
  · have hbehind := hapart.2.1 l hmem
    have hlt := (h.inFile l (by simp [hwindow, hmem])).2
    omega

/-- At the end the parser stands right behind the last lexeme. -/
theorem here_eq_of_rest_nil (h : s.Begun f size) (hrest : s.rest = []) :
    s.here = s.previous.after := by
  obtain ⟨l, hl⟩ := h.last
  rw [ParserState.here, ParserState.previous, hrest, hl]

theorem Proceeds.refl (h : s.Begun f size) : s.Proceeds f size s :=
  ⟨h, Nat.le_refl _, Nat.le_refl _, Nat.le_refl _⟩

theorem Proceeds.trans (h : s₀.Proceeds f size s) (h' : s.Proceeds f size s') :
    s₀.Proceeds f size s' :=
  ⟨h'.begun, h.start.trans h'.start, h.stop.trans h'.stop, h.here.trans h'.here⟩

/-- Lexemes are read from the left. -/
theorem InOrder.of_suffix (h : s.InOrder f size) (hwindow : s'.window <:+ s.window) :
    s'.InOrder f size :=
  ⟨fun l hl => h.inFile l (hwindow.subset hl), h.apart.sublist hwindow.sublist⟩

/-- A parser proceeds if it reads from the left, since the lexemes stand one behind the other. -/
theorem proceeds_of_suffix (h : s.Begun f size) (hlast : ∃ l, s'.last = some l)
    (hwindow : s'.window <:+ s.window) : s.Proceeds f size s' := by
  have hbegun : s'.Begun f size := ⟨h.toInOrder.of_suffix hwindow, hlast⟩
  obtain ⟨l, hl⟩ := h.last
  obtain ⟨l', hl'⟩ := hlast
  rw [window, window, hl, hl', Option.toList_some, Option.toList_some, List.singleton_append,
    List.singleton_append, List.suffix_cons_iff] at hwindow
  rcases hwindow with heq | hsuffix
  · obtain ⟨rfl, hrest⟩ := List.cons.inj heq
    have hprevious : s'.previous = s.previous := by
      rw [ParserState.previous, ParserState.previous, hl, hl']
    have hhere : s'.here = s.here := by
      rw [ParserState.here, ParserState.here, hrest, hl, hl']
      cases s.rest <;> rfl
    exact ⟨hbegun, by rw [hprevious], by rw [hprevious], by rw [hhere]⟩
  · have hprevious' : s'.previous = l'.span := by rw [ParserState.previous, hl']
    obtain ⟨hbehind, hnext⟩ := h.le_of_mem_rest (hsuffix.subset (List.mem_cons_self ..))
    have hlt := h.previous.2
    have hlt' := hbegun.previous.2
    obtain ⟨hhere, hhere'⟩ := hbegun.here
    have hle := hhere.le
    rw [← hprevious'] at hbehind hnext
    exact ⟨hbegun, by omega, by omega, by omega⟩

/-- Taking a lexeme forgets the one before. -/
theorem window_advance {l : Lexeme} {ls : List Lexeme} (h : s.rest = l :: ls) :
    window { s with rest := ls, last := some l } <:+ s.window := by
  rw [window, window, h]
  exact List.suffix_append ..

@[simp] theorem window_report (s : ParserState) (x : Span) (p : Problem) :
    (s.report x p).window = s.window := by
  unfold report
  split <;> rfl

@[simp] theorem rest_report (s : ParserState) (x : Span) (p : Problem) :
    (s.report x p).rest = s.rest := by
  unfold report
  split <;> rfl

theorem InOrder.report (h : s.InOrder f size) (x : Span) (p : Problem) :
    (s.report x p).InOrder f size := h.of_suffix (by rw [window_report])

/-- A report does not change where the parser is. -/
theorem Begun.report (h : s.Begun f size) (x : Span) (p : Problem) :
    s.Proceeds f size (s.report x p) := by
  refine proceeds_of_suffix h ?_ (by rw [window_report])
  unfold ParserState.report
  split <;> exact h.last

/-- Lexemes that are skipped count as read. -/
theorem window_skipWhile (s : ParserState) (p : Lexeme → Bool) :
    (s.skipWhile p).window <:+ s.window := by
  rw [window, window, skipWhile]
  rcases List.eq_nil_or_concat (s.rest.takeWhile p) with hnil | ⟨ls, l, hconcat⟩
  · have hrest := List.takeWhile_append_dropWhile (p := p) (l := s.rest)
    rw [hnil, List.nil_append] at hrest
    simp only [hnil, hrest]
    exact List.suffix_rfl
  · have hrest := List.takeWhile_append_dropWhile (p := p) (l := s.rest)
    rw [hconcat] at hrest
    refine ⟨s.last.toList ++ ls, ?_⟩
    conv_rhs => rw [← hrest]
    simp [hconcat]

/-- Skipping lexemes proceeds. -/
theorem Begun.skipWhile (h : s.Begun f size) (p : Lexeme → Bool) :
    s.Proceeds f size (s.skipWhile p) := by
  obtain ⟨l, hl⟩ := h.last
  refine proceeds_of_suffix h ?_ (window_skipWhile s p)
  cases hlast : (s.rest.takeWhile p).getLast? with
  | none => exact ⟨l, by rw [ParserState.skipWhile, hlast]; exact hl⟩
  | some l' => exact ⟨l', by rw [ParserState.skipWhile, hlast]; rfl⟩

/-- Giving up proceeds to the end of the lexemes. -/
theorem Begun.giveUp (h : s.Begun f size) : s.Proceeds f size s.giveUp := by
  have hreport := h.report s.here (.nestedTooDeeply maxDepth)
  have hskip := hreport.trans (hreport.begun.skipWhile fun _ => true)
  exact ⟨⟨⟨hskip.begun.inFile, hskip.begun.apart⟩, hskip.begun.last⟩, hskip.start, hskip.stop,
    hskip.here⟩

theorem rest_giveUp (s : ParserState) : s.giveUp.rest = [] :=
  List.dropWhile_eq_nil_iff.2 fun _ _ => rfl

/-! ## Places between states -/

theorem Inside.earlier (h₀ : s₀.Proceeds f size s) (h : s.Inside f size s' x) :
    s₀.Inside f size s' x := ⟨h.inFile, h₀.stop.trans h.start, h.stop⟩

theorem Inside.later (h : s.Inside f size s' x) (h₁ : s'.Proceeds f size s₁) :
    s.Inside f size s₁ x := ⟨h.inFile, h.start, h.stop.trans h₁.stop⟩

theorem Stands.earlier (h₀ : s₀.Proceeds f size s) (h : s.Stands f size s' x) :
    s₀.Stands f size s' x := ⟨h.toInside.earlier h₀, h₀.here.trans h.reaches⟩

theorem Stands.later (h : s.Stands f size s' x) (h₁ : s'.Proceeds f size s₁) :
    s.Stands f size s₁ x := ⟨h.toInside.later h₁, h.reaches⟩

/-- At the end of the source there is nothing but the end of the last lexeme. -/
theorem Begun.stands_here (h : s.Begun f size) (hrest : s.rest = []) :
    s.Stands f size s s.here := by
  obtain ⟨hfile, hle⟩ := h.here
  refine ⟨⟨hfile, hle, ?_⟩, Nat.le_refl _⟩
  rw [here_eq_of_rest_nil h hrest]
  exact Nat.le_refl _

/-- The lexeme that is taken stands between the state before and the state after. -/
theorem Takes.stands (h : s.Takes f size s' x) : s.Stands f size s' x := by
  obtain ⟨hfile, hle⟩ := h.before.here
  rw [h.here_eq] at hfile hle
  exact ⟨⟨hfile, hle, by rw [h.previous_eq]⟩, by rw [h.here_eq]⟩

/-- What is read behind a lexeme ends with a lexeme that stands behind all that was read before. -/
theorem Takes.inside_previous (h : s.Takes f size s' x) (h' : s'.Proceeds f size s₁) :
    s.Inside f size s₁ s₁.previous := by
  have hstart := h'.start
  rw [h.previous_eq] at hstart
  exact ⟨h'.begun.previous.1, h.stands.start.trans hstart, Nat.le_refl _⟩

/-- What is read behind a lexeme does not begin before a span that covers the lexeme. -/
theorem Takes.start_le {z : Span} {n : Nat} (h : s.Takes f size s' x) (hx : x.Within z)
    (hn : s'.previous.stop ≤ n) : z.start ≤ n := by
  rw [h.previous_eq] at hn
  exact hx.start.trans (h.stands.inFile.le.trans hn)

/-- A span that begins with the lexeme taken covers what stands behind it, as far as it reaches. -/
theorem Takes.within {y z : Span} (h : s.Takes f size s' x) (hx : x.Within z)
    (hy : s'.Inside f size s₁ y) (hstop : y.stop ≤ z.stop) : y.Within z :=
  ⟨hy.inFile.file.trans (h.stands.inFile.file.symm.trans hx.file), h.start_le hx hy.start, hstop⟩

/-- What is read earlier ends earlier. -/
theorem Inside.stop_le {s₂ : ParserState} {y : Span} (hx : s.Inside f size s' x)
    (h : s'.Proceeds f size s₁) (hy : s₁.Inside f size s₂ y) : x.stop ≤ y.stop :=
  hx.stop.trans (h.stop.trans (hy.start.trans hy.inFile.le))

end ParserState

/-- Where a written type stands that was read between two states. -/
structure TypeExpr.At (f : FileId) (size : Nat) (s : ParserState) (t : TypeExpr)
    (s' : ParserState) : Prop where
  stands : s.Stands f size s' t.span
  nested : t.Nested f size

/-- Where an expression stands that was read between two states. -/
structure Expr.At (f : FileId) (size : Nat) (s : ParserState) (e : Expr) (s' : ParserState) :
    Prop where
  stands : s.Stands f size s' e.span
  nested : e.Nested f size

/-- Where a binder stands that was read between two states.  Its name may be missing. -/
structure Binder.At (f : FileId) (size : Nat) (s : ParserState) (b : Binder) (s' : ParserState) :
    Prop where
  shows : s.Shows f size s' b.span
  anno : ∀ t ∈ b.anno, t.Nested f size ∧ b.span.start ≤ t.span.start ∧ t.span.stop ≤ s'.here.stop

/-- A binder lies in a span that begins not behind its name and ends not before the next lexeme. -/
theorem Binder.At.nestedIn {f : FileId} {size : Nat} {s s' : ParserState} {b : Binder} {x : Span}
    (h : b.At f size s s') (hfile : x.file = f) (hstart : x.start ≤ b.span.start)
    (hstop : s'.here.stop ≤ x.stop) : b.NestedIn f size x where
  inFile := h.shows.inFile
  within := ⟨h.shows.inFile.file.trans hfile.symm, hstart, h.shows.stop.trans hstop⟩
  anno t ht := by
    obtain ⟨hnested, hstart', hstop'⟩ := h.anno t ht
    exact ⟨hnested, hnested.inFile.file.trans hfile.symm, hstart.trans hstart', hstop'.trans hstop⟩

/-! ## First steps -/

namespace Parser

variable {α β : Type} {f : FileId} {size : Nat} {s s' s₁ : ParserState} {q : Parser α}
  {R : ParserState → α → ParserState → Prop} {Q : β → ParserState → Prop}

/-- The parser proceeds, with a value that stands in a relation to both states. -/
def Encloses (f : FileId) (size : Nat) (R : ParserState → α → ParserState → Prop) (q : Parser α) :
    Prop :=
  ∀ s : ParserState, s.Begun f size → q.Meets s fun a s' => s.Proceeds f size s' ∧ R s a s'

/-- The relation goes over to earlier and to later states. -/
structure Widens (f : FileId) (size : Nat) (R : ParserState → α → ParserState → Prop) : Prop where
  earlier : ∀ {s₀ s s' a}, s₀.Proceeds f size s → R s a s' → R s₀ a s'
  later : ∀ {s s' s₁ a}, R s a s' → s'.Proceeds f size s₁ → R s a s₁

theorem widens_type : Widens f size (TypeExpr.At f size) where
  earlier h₀ h := ⟨h.stands.earlier h₀, h.nested⟩
  later h h₁ := ⟨h.stands.later h₁, h.nested⟩

theorem widens_expr : Widens f size (Expr.At f size) where
  earlier h₀ h := ⟨h.stands.earlier h₀, h.nested⟩
  later h h₁ := ⟨h.stands.later h₁, h.nested⟩

theorem widens_binder : Widens f size (Binder.At f size) where
  earlier h₀ h := ⟨⟨h.shows.inFile, h₀.stop.trans h.shows.start, h.shows.stop⟩, h.anno⟩
  later h h₁ := by
    refine ⟨⟨h.shows.inFile, h.shows.start, h.shows.stop.trans h₁.here⟩, fun t ht => ?_⟩
    obtain ⟨hnested, hstart, hstop⟩ := h.anno t ht
    exact ⟨hnested, hstart, hstop.trans h₁.here⟩

/-- In a sequence the second parser begins where the first has proceeded to. -/
theorem Encloses.next {k : α → Parser β} (hq : q.Encloses f size R) (hs : s.Begun f size)
    (h : ∀ a s', s.Proceeds f size s' → R s a s' → (k a).Meets s' Q) :
    Parser.Meets (q >>= k) s Q := by
  refine .bind ((hq s hs).mono ?_)
  rintro a s' ⟨hproceeds, ha⟩
  exact h a s' hproceeds ha

/-- Either a lexeme is taken, or the lexemes do not begin with one that fits. -/
theorem takes_accept? {p : Token → Bool} {Q : Option Lexeme → ParserState → Prop}
    (hs : s.Begun f size) (hsome : ∀ l s', s.Takes f size s' l.span → Q (some l) s')
    (hnone : s.begins p = false → Q none s) : (accept? p).Meets s Q := by
  obtain ⟨l, ls, hrest, -, hrun⟩ | ⟨hbegins, hrun⟩ := accept?_cases p s
  · refine ⟨some l, _, hrun, hsome l _ ⟨?_, hs, ?_, rfl⟩⟩
    · exact ParserState.proceeds_of_suffix hs ⟨l, rfl⟩ (ParserState.window_advance hrest)
    · rw [ParserState.here, hrest]
  · exact ⟨none, s, hrun, hnone hbegins⟩

theorem encloses_report (x : Span) (p : Problem) :
    (report x p).Encloses f size fun _ _ _ => True :=
  fun _ hs => .modify ⟨hs.report x p, trivial⟩

theorem encloses_giveUp : giveUp.Encloses f size fun _ _ s' => s'.rest = [] :=
  fun s hs => .modify ⟨hs.giveUp, s.rest_giveUp⟩

/-- An expected token may be missing, but the parser proceeds. -/
theorem encloses_expect (t : Token) : (expect t).Encloses f size fun _ _ _ => True := by
  intro s hs
  refine .bind (takes_accept? hs (fun l s' h => .pure ⟨h.toProceeds, trivial⟩) fun _ => ?_)
  exact .bind (meets_here (encloses_report _ _ s hs))

theorem encloses_closeGroup (opener : Span) :
    (closeGroup opener).Encloses f size fun _ _ _ => True := by
  intro s hs
  refine .bind (takes_accept? hs (fun l s' h => .pure ⟨h.toProceeds, trivial⟩) fun _ => ?_)
  exact encloses_report _ _ s hs

/-- Spans in the file can be joined. -/
theorem meets_joined {x y : Span} {Q : Span → ParserState → Prop} (hx : x.InFile f size)
    (hy : y.InFile f size) (h : ∀ z : Span, z.InFile f size → x.Within z → y.Within z →
      z.start = min x.start y.start → z.stop = max x.stop y.stop → Q z s) :
    (join x y).Meets s Q := by
  refine ⟨⟨min x.start y.start, max x.stop y.stop, x.file⟩, s, ?_, h _ ⟨hx.file, ?_, ?_⟩
    ⟨rfl, Nat.min_le_left .., Nat.le_max_left ..⟩
    ⟨hy.file.trans hx.file.symm, Nat.min_le_right .., Nat.le_max_right ..⟩ rfl rfl⟩
  · rw [join, Span.join, if_pos (hx.file.trans hy.file.symm)]
    rfl
  · exact (Nat.min_le_left ..).trans (hx.le.trans (Nat.le_max_left ..))
  · exact Nat.max_le.2 ⟨hx.stop, hy.stop⟩

/-- The join of two places inside two states is inside them and covers both places. -/
theorem meets_join {x y : Span} {Q : Span → ParserState → Prop} (hx : s.Inside f size s' x)
    (hy : s.Inside f size s' y)
    (h : ∀ z : Span, s.Inside f size s' z → x.Within z → y.Within z → Q z s₁) :
    (join x y).Meets s₁ Q := by
  refine meets_joined hx.inFile hy.inFile fun z hz hxz hyz hstart hstop => h z ⟨hz, ?_, ?_⟩ hxz hyz
  · rw [hstart]
    exact Nat.le_min.2 ⟨hx.start, hy.start⟩
  · rw [hstop]
    exact Nat.max_le.2 ⟨hx.stop, hy.stop⟩

/-- All items stand between the states before the first and after the last. -/
theorem encloses_moreItems (hR : Widens f size R) (hitem : q.Encloses f size R) :
    (moreItems q).Encloses f size fun s as s' => ∀ a ∈ as, R s a s' := by
  suffices hfrom : ∀ (ls : List Lexeme) (acc : List α) (s₀ s : ParserState),
      s₀.Proceeds f size s → (∀ a ∈ acc, R s₀ a s) →
      (moreItemsFrom q ls acc).Meets s fun as s' =>
        s₀.Proceeds f size s' ∧ ∀ a ∈ as, R s₀ a s' from
    fun s hs => .bind (.get (hfrom s.rest [] s s (.refl hs) (List.forall_mem_nil _)))
  intro ls
  induction ls with
  | nil =>
    intro acc s₀ s h hacc
    exact .pure ⟨h, fun a ha => hacc a (List.mem_reverse.1 ha)⟩
  | cons l ls ih =>
    intro acc s₀ s h hacc
    refine .bind (takes_accept? h.begun (fun comma s₁ h₁ => ?_) fun _ => ?_)
    · refine hitem.next h₁.begun fun a s₂ h₂ ha => ?_
      have h₀ := h.trans h₁.toProceeds
      refine ih (a :: acc) s₀ s₂ (h₀.trans h₂) (List.forall_mem_cons.2 ⟨?_, fun a' ha' => ?_⟩)
      · exact hR.earlier h₀ ha
      · exact hR.later (hacc a' ha') (h₁.toProceeds.trans h₂)
    · exact .pure ⟨h, fun a ha => hacc a (List.mem_reverse.1 ha)⟩

/-- The items and the levels that are left. -/
def Below (R : ParserState → α → ParserState → Prop) (levels : Levels) (s : ParserState)
    (r : List α × Levels) (s' : ParserState) : Prop := r.2 <:+ levels ∧ ∀ a ∈ r.1, R s a s'

theorem encloses_moreBelow {item : Levels → Parser α} {levels : Levels} (hR : Widens f size R)
    (hitem : ∀ levels', levels' <:+ levels → (item levels').Encloses f size R) :
    (moreBelow item levels).Encloses f size (Below R levels) := by
  induction levels with
  | nil =>
    intro s hs
    refine .bind (takes_accept? hs (fun comma s₁ h₁ => ?_) fun _ => ?_)
    · refine encloses_giveUp.next h₁.begun fun _ s₂ h₂ _ => ?_
      exact .pure ⟨h₁.toProceeds.trans h₂, List.suffix_rfl, List.forall_mem_nil _⟩
    · exact .pure ⟨.refl hs, List.suffix_rfl, List.forall_mem_nil _⟩
  | cons level levels ih =>
    intro s hs
    have hsuffix : levels <:+ level :: levels := List.suffix_cons ..
    refine .bind (takes_accept? hs (fun comma s₁ h₁ => ?_) fun _ => ?_)
    · refine (hitem levels hsuffix).next h₁.begun fun a s₂ h₂ ha => ?_
      refine (ih fun levels' h => hitem levels' (h.trans hsuffix)).next h₂.begun ?_
      rintro ⟨as, left⟩ s₃ h₃ ⟨hleft, has⟩
      have h := h₁.toProceeds.trans h₂
      refine .pure ⟨h.trans h₃, hleft.trans hsuffix, List.forall_mem_cons.2 ⟨?_, fun a' ha' => ?_⟩⟩
      · exact hR.later (hR.earlier h₁.toProceeds ha) h₃
      · exact hR.earlier h (has a' ha')
    · exact .pure ⟨.refl hs, List.suffix_rfl, List.forall_mem_nil _⟩

end Parser

/-! ## Levels -/

namespace Levels

variable {f : FileId} {size : Nat} {levels levels' : Levels}

/-- The parsers of all levels enclose what they read. -/
def Enclose (f : FileId) (size : Nat) (levels : Levels) : Prop :=
  ∀ l ∈ levels, l.expr.Encloses f size (Expr.At f size) ∧
    l.type.Encloses f size (TypeExpr.At f size)

theorem Enclose.of_suffix (h : levels.Enclose f size) (hle : levels' <:+ levels) :
    levels'.Enclose f size := fun l hl => h l (hle.subset hl)

/-- On the next level an expression is enclosed, and if there is none the parser stands at the
end. -/
theorem Enclose.expr (h : levels.Enclose f size) :
    levels.expr.Encloses f size (Expr.At f size) := by
  cases levels with
  | cons l levels => exact (h l (List.mem_cons_self ..)).1
  | nil =>
    intro s hs
    refine Parser.encloses_giveUp.next hs fun _ s₁ h₁ hrest => ?_
    refine .bind (Parser.meets_here (.pure ⟨h₁, ?_, ?_⟩))
    · exact (h₁.begun.stands_here hrest).earlier h₁
    · exact .leaf h₁.begun.here.1 rfl rfl rfl

theorem Enclose.type (h : levels.Enclose f size) :
    levels.type.Encloses f size (TypeExpr.At f size) := by
  cases levels with
  | cons l levels => exact (h l (List.mem_cons_self ..)).2
  | nil =>
    intro s hs
    refine Parser.encloses_giveUp.next hs fun _ s₁ h₁ hrest => ?_
    refine .bind (Parser.meets_here (.pure ⟨h₁, ?_, ?_⟩))
    · exact (h₁.begun.stands_here hrest).earlier h₁
    · exact .leaf h₁.begun.here.1 rfl

end Levels

/-! ## Types and binders -/

namespace Parser

variable {f : FileId} {size : Nat} {s s' s₁ : ParserState} {levels : Levels} {opener : Span}

/-- The span of what stands in parentheses covers all that was read between them. -/
theorem meets_closed {α : Type} {Q : α → ParserState → Prop} {k : Span → Parser α}
    (h₁ : s.Takes f size s₁ opener) (h : s₁.Proceeds f size s')
    (hk : ∀ z s₂, s.Proceeds f size s₂ → s.Stands f size s₂ z →
      (∀ y, s₁.Inside f size s' y → y.Within z) → (k z).Meets s₂ Q) :
    Parser.Meets (do closeGroup opener; k (← join opener (← previous))) s' Q := by
  refine (encloses_closeGroup opener).next h.begun fun _ s₂ h₂ _ => .bind (meets_previous ?_)
  have h' := h.trans h₂
  refine .bind (meets_join (h₁.stands.toInside.later h') (h₁.inside_previous h')
    fun z hz hopener hlast => hk z s₂ (h₁.toProceeds.trans h') ⟨hz, ?_⟩ fun y hy => ?_)
  · exact h₁.stands.reaches.trans hopener.stop
  · exact h₁.within hopener hy ((hy.later h₂).stop.trans hlast.stop)

/-- A type in parentheses covers them, also if the closing one is missing. -/
theorem encloses_typeGroup (hl : levels.Enclose f size) (h₁ : s.Takes f size s₁ opener) :
    (typeGroup levels opener).Meets s₁ fun t s' => s.Proceeds f size s' ∧ t.At f size s s' := by
  refine .bind (takes_accept? h₁.begun (fun closer s₂ h₂ => ?_) fun _ => ?_)
  · refine .bind (meets_join (h₁.stands.toInside.later h₂.toProceeds)
      (h₂.stands.toInside.earlier h₁.toProceeds) fun z hz hopener _ => .pure ⟨?_, ⟨hz, ?_⟩, ?_⟩)
    · exact h₁.toProceeds.trans h₂.toProceeds
    · exact h₁.stands.reaches.trans hopener.stop
    · exact .leaf hz.inFile rfl
  · refine hl.type.next h₁.begun fun t s₂ h₂ ht => .bind (meets_peek ?_)
    split
    · refine (encloses_moreItems widens_type hl.type).next h₂.begun fun ts s₃ h₃ hts => ?_
      refine meets_closed h₁ (h₂.trans h₃) fun z s₄ h₄ hz hwithin => .pure ⟨h₄, hz, ?_⟩
      refine .tuple hz.inFile (List.forall_mem_cons.2 ⟨⟨ht.nested, ?_⟩, fun u hu => ?_⟩)
      · exact hwithin _ (ht.stands.toInside.later h₃)
      · exact ⟨(hts u hu).nested, hwithin _ ((hts u hu).stands.toInside.earlier h₂)⟩
    · refine (encloses_closeGroup opener).next h₂.begun fun _ s₃ h₃ _ => .pure ⟨?_, ?_⟩
      · exact h₁.toProceeds.trans (h₂.trans h₃)
      · exact widens_type.later (widens_type.earlier h₁.toProceeds ht) h₃

/-- Where any token will do, none is found at the end only. -/
theorem rest_nil_of_begins (h : s.begins (fun _ => true) = false) : s.rest = [] := by
  cases hrest : s.rest with
  | nil => rfl
  | cons l ls =>
    rw [ParserState.begins_cons hrest, Token.fits, Bool.or_true] at h
    cases h

/-- A type without an arrow covers the lexemes it was read from. -/
theorem encloses_baseType (hl : levels.Enclose f size) :
    (baseType levels).Encloses f size (TypeExpr.At f size) := by
  intro s hs
  refine .bind (takes_accept? hs (fun l s₁ h₁ => ?_) fun hend => .bind (meets_here ?_))
  · obtain ⟨t, span⟩ := l
    have hleaf (t : TypeExpr) (ht : t.span = span) (hchildren : t.children = []) :
        t.At f size s s₁ := ⟨ht ▸ h₁.stands, .leaf (ht ▸ h₁.stands.inFile) hchildren⟩
    have hreport (p : Problem) : Parser.Meets (do report span p; return TypeExpr.invalid span) s₁
        fun t s' => s.Proceeds f size s' ∧ t.At f size s s' := by
      refine (encloses_report span p).next h₁.begun fun _ s₂ h₂ _ => .pure ⟨?_, ?_⟩
      · exact h₁.toProceeds.trans h₂
      · exact widens_type.later (hleaf _ rfl rfl) h₂
    dsimp only
    split
    · split
      · exact .pure ⟨h₁.toProceeds, hleaf _ rfl rfl⟩
      · exact hreport _
    · exact .pure ⟨h₁.toProceeds, hleaf _ rfl rfl⟩
    · exact encloses_typeGroup hl h₁
    · exact .pure ⟨h₁.toProceeds, hleaf _ rfl rfl⟩
    · exact hreport _
  · have hhere := hs.stands_here (rest_nil_of_begins hend)
    refine (encloses_report _ _).next hs fun _ s₁ h₁ _ => .pure ⟨h₁, hhere.later h₁, ?_⟩
    exact .leaf hhere.inFile rfl

/-- An arrow covers both types. -/
theorem encloses_typeAbove (hl : levels.Enclose f size) :
    (typeAbove levels).Encloses f size (TypeExpr.At f size) := by
  intro s hs
  refine (encloses_baseType hl).next hs fun t s₁ h₁ ht => ?_
  refine .bind (takes_accept? h₁.begun (fun _ s₂ h₂ => ?_) fun _ => .pure ⟨h₁, ht⟩)
  refine hl.type.next h₂.begun fun u s₃ h₃ hu => ?_
  have h := h₁.trans (h₂.toProceeds.trans h₃)
  refine .bind (meets_join (ht.stands.toInside.later (h₂.toProceeds.trans h₃))
    (hu.stands.toInside.earlier (h₁.trans h₂.toProceeds)) fun z hz htz huz =>
    .pure ⟨h, ⟨hz, ht.stands.reaches.trans htz.stop⟩, ?_⟩)
  exact .fn hz.inFile ht.nested hu.nested htz huz

/-- A name stands where it was read, or where it is missing. -/
theorem encloses_name :
    name.Encloses f size fun s r s' => s.Shows f size s' r.2 := by
  intro s hs
  refine .bind (takes_accept? hs (fun l s₁ h₁ => ?_) fun _ => .bind (meets_here ?_))
  · obtain ⟨t, span⟩ := l
    have hshows : s.Shows f size s₁ span := by
      refine ⟨h₁.stands.inFile, h₁.stands.start, ?_⟩
      exact h₁.stands.stop.trans h₁.begun.previous_le_here
    cases t <;> exact .pure ⟨h₁.toProceeds, hshows⟩
  · obtain ⟨hfile, hstart⟩ := hs.here
    exact (encloses_report _ _).next hs fun _ s₁ h₁ _ => .pure ⟨h₁, hfile, hstart, h₁.here⟩

/-- A binder begins with its name, and its annotation stands behind it. -/
theorem encloses_binder (hl : levels.Enclose f size) :
    (binder levels).Encloses f size (Binder.At f size) := by
  intro s hs
  refine encloses_name.next hs ?_
  rintro ⟨x, span⟩ s₁ h₁ hshows
  refine .bind (takes_accept? h₁.begun (fun colon s₂ h₂ => ?_) fun _ => ?_)
  · refine hl.type.next h₂.begun fun t s₃ h₃ ht => .pure ⟨h₁.trans (h₂.toProceeds.trans h₃), ?_⟩
    refine ⟨⟨hshows.inFile, hshows.start, ?_⟩, ?_⟩
    · exact hshows.stop.trans (h₂.here.trans h₃.here)
    · rintro _ ⟨⟩
      refine ⟨ht.nested, ?_, ht.stands.stop.trans h₃.begun.previous_le_here⟩
      -- the colon ends where the name does or behind it
      have hcolon : span.stop ≤ s₂.previous.stop := by
        rw [h₂.previous_eq, ← h₂.here_eq]
        exact hshows.stop
      exact hshows.inFile.le.trans (hcolon.trans ht.stands.start)
  · exact .pure ⟨h₁, hshows, by simp⟩

/-! ## Expressions -/

/-- An operator and its operands, the first of which was read before `s₁`. -/
theorem encloses_applyOperator {s₂ s₃ : ParserState} {op : Lexeme} {lhs rhs : Expr}
    (h₁ : s.Proceeds f size s₁) (hlhs : lhs.At f size s s₁) (h₂ : s₁.Takes f size s₂ op.span)
    (h₃ : s₂.Proceeds f size s₃) (hrhs : rhs.At f size s₂ s₃) :
    (applyOperator op lhs rhs).Meets s₃ fun e s' => s' = s₃ ∧ e.At f size s s₃ := by
  have hlhs₂ := hlhs.stands.toInside.later h₂.toProceeds
  have hrhs₀ := hrhs.stands.toInside.earlier (h₁.trans h₂.toProceeds)
  refine .bind (meets_joined hlhs₂.inFile h₂.stands.inFile fun inner hinner hlhsi hopi hstart
    hstop => ?_)
  refine .bind (meets_join (hlhs₂.later h₃) hrhs₀ fun outer houter hlhso hrhso => ?_)
  have hin : inner.Within outer := by
    -- the operator stands between the operands
    refine ⟨hinner.file.trans houter.inFile.file.symm, ?_, ?_⟩
    · rw [hstart]
      have hop := (hlhs.stands.stop.trans h₂.stands.start)
      exact Nat.le_min.2 ⟨hlhso.start, hlhso.start.trans (hlhs.stands.inFile.le.trans hop)⟩
    · rw [hstop]
      have hop := h₂.stands.stop.trans (hrhs.stands.start.trans hrhs.stands.inFile.le)
      exact Nat.max_le.2 ⟨hlhso.stop, hop.trans hrhso.stop⟩
  have hop : (Expr.name (.new op.span) (op.token.operatorName?.getD "")).Nested f size :=
    .leaf h₂.stands.inFile rfl rfl rfl
  refine .pure ⟨rfl, ⟨houter, hlhs.stands.reaches.trans hlhso.stop⟩, ?_⟩
  exact .app houter.inFile (.app hinner hop hlhs.nested hopi hlhsi) hrhs.nested hin hrhso

section

variable {ops : List Operator} {operand : Levels → Parser Expr}

/-- A chain of operators covers the operands it has so far, and goes on to cover the next ones. -/
theorem encloses_chain
    (hoperand : ∀ levels' : Levels, levels' <:+ levels →
      (operand levels').Encloses f size (Expr.At f size))
    {e : Expr} (h₁ : s.Proceeds f size s₁) (he : e.At f size s s₁) :
    (chain ops operand levels e).Meets s₁ fun e' s' =>
      s.Proceeds f size s' ∧ e'.At f size s s' := by
  induction levels generalizing e s₁ with
  | nil =>
    rw [chain]
    refine .bind (takes_accept? h₁.begun (fun op s₂ h₂ => ?_) fun _ => .pure ⟨h₁, he⟩)
    refine encloses_giveUp.next h₂.begun fun _ s₃ h₃ _ => .pure ?_
    have h := h₂.toProceeds.trans h₃
    exact ⟨h₁.trans h, widens_expr.later he h⟩
  | cons level levels ih =>
    rw [chain]
    have hsuffix : levels <:+ level :: levels := List.suffix_cons ..
    refine .bind (takes_accept? h₁.begun (fun op s₂ h₂ => ?_) fun _ => .pure ⟨h₁, he⟩)
    refine (hoperand levels hsuffix).next h₂.begun fun rhs s₃ h₃ hrhs => ?_
    refine .bind ((encloses_applyOperator h₁ he h₂ h₃ hrhs).mono ?_)
    rintro e' _ ⟨rfl, he'⟩
    exact ih (fun levels' h => hoperand levels' (h.trans hsuffix))
      (h₁.trans (h₂.toProceeds.trans h₃)) he'

theorem encloses_binary
    (hoperand : ∀ levels' : Levels, levels' <:+ levels →
      (operand levels').Encloses f size (Expr.At f size)) :
    (binary ops operand levels).Encloses f size (Expr.At f size) := by
  intro s hs
  refine (hoperand levels List.suffix_rfl).next hs fun e s₁ h₁ he => ?_
  exact encloses_chain hoperand h₁ he

end

/-- What stands in parentheses covers them, or lies between them. -/
theorem encloses_group (hl : levels.Enclose f size) (h₁ : s.Takes f size s₁ opener) :
    (group levels opener).Meets s₁ fun e s' => s.Proceeds f size s' ∧ e.At f size s s' := by
  refine .bind (takes_accept? h₁.begun (fun closer s₂ h₂ => ?_) fun _ => ?_)
  · refine .bind (meets_join (h₁.stands.toInside.later h₂.toProceeds)
      (h₂.stands.toInside.earlier h₁.toProceeds) fun z hz hopener _ => .pure ⟨?_, ⟨hz, ?_⟩, ?_⟩)
    · exact h₁.toProceeds.trans h₂.toProceeds
    · exact h₁.stands.reaches.trans hopener.stop
    · exact .leaf hz.inFile rfl rfl rfl
  · refine hl.expr.next h₁.begun fun e s₂ h₂ he => ?_
    refine .bind (takes_accept? h₂.begun (fun colon s₃ h₃ => ?_) fun _ => .bind (meets_peek ?_))
    · refine hl.type.next h₃.begun fun t s₄ h₄ ht => ?_
      have h := h₃.toProceeds.trans h₄
      refine meets_closed h₁ (h₂.trans h) fun z s₅ h₅ hz hwithin => .pure ⟨h₅, hz, ?_⟩
      refine .anno hz.inFile he.nested ht.nested ?_ ?_
      · exact hwithin _ (he.stands.toInside.later h)
      · exact hwithin _ (ht.stands.toInside.earlier (h₂.trans h₃.toProceeds))
    · split
      · refine (encloses_moreItems widens_expr hl.expr).next h₂.begun fun es s₃ h₃ hes => ?_
        refine meets_closed h₁ (h₂.trans h₃) fun z s₄ h₄ hz hwithin => .pure ⟨h₄, hz, ?_⟩
        refine .tuple hz.inFile (List.forall_mem_cons.2 ⟨⟨he.nested, ?_⟩, fun c hc => ?_⟩)
        · exact hwithin _ (he.stands.toInside.later h₃)
        · exact ⟨(hes c hc).nested, hwithin _ ((hes c hc).stands.toInside.earlier h₂)⟩
      · refine (encloses_closeGroup opener).next h₂.begun fun _ s₃ h₃ _ => .pure ⟨?_, ?_⟩
        · exact h₁.toProceeds.trans (h₂.trans h₃)
        · exact widens_expr.later (widens_expr.earlier h₁.toProceeds he) h₃

/-- An expression without calls covers the lexemes it was read from. -/
theorem encloses_baseExpr (hl : levels.Enclose f size) :
    (baseExpr levels).Encloses f size (Expr.At f size) := by
  intro s hs
  refine .bind (takes_accept? hs (fun l s₁ h₁ => ?_) fun hend => .bind (meets_here ?_))
  · obtain ⟨t, span⟩ := l
    have hleaf (e : Expr) (he : e.span = span) (hchildren : e.children = [])
        (hbinder : e.binder? = none) (hannotations : e.annotations = []) : e.At f size s s₁ :=
      ⟨he ▸ h₁.stands, .leaf (he ▸ h₁.stands.inFile) hchildren hbinder hannotations⟩
    dsimp only
    split
    case h_6 => exact encloses_group hl h₁
    case h_8 =>
      refine (encloses_report span _).next h₁.begun fun _ s₂ h₂ _ => .pure ⟨?_, ?_⟩
      · exact h₁.toProceeds.trans h₂
      · exact widens_expr.later (hleaf _ rfl rfl rfl rfl) h₂
    all_goals exact .pure ⟨h₁.toProceeds, hleaf _ rfl rfl rfl rfl⟩
  · have hhere := hs.stands_here (rest_nil_of_begins hend)
    refine (encloses_report _ _).next hs fun _ s₁ h₁ _ => .pure ⟨h₁, hhere.later h₁, ?_⟩
    exact .leaf hhere.inFile rfl rfl rfl

/-! ### Calls -/

/-- Arguments stand behind the opening parenthesis, as far as the closing one. -/
theorem encloses_arguments (hl : levels.Enclose f size) (h₁ : s.Takes f size s₁ opener) :
    (arguments levels opener).Meets s₁ fun r s' =>
      s₁.Proceeds f size s' ∧ Below (Expr.At f size) levels s r s' := by
  refine .bind (takes_accept? h₁.begun (fun closer s₂ h₂ => ?_) fun _ => ?_)
  · refine .bind (meets_join (h₁.stands.toInside.later h₂.toProceeds)
      (h₂.stands.toInside.earlier h₁.toProceeds) fun z hz hopener _ => .pure ⟨h₂.toProceeds, ?_⟩)
    refine ⟨List.suffix_rfl, List.forall_mem_singleton.2 ⟨⟨hz, ?_⟩, .leaf hz.inFile rfl rfl rfl⟩⟩
    exact h₁.stands.reaches.trans hopener.stop
  · refine hl.expr.next h₁.begun fun e s₂ h₂ he => ?_
    refine (encloses_moreBelow widens_expr fun _ h => (hl.of_suffix h).expr).next h₂.begun ?_
    rintro ⟨es, left⟩ s₃ h₃ ⟨hleft, hes⟩
    refine (encloses_closeGroup opener).next h₃.begun fun _ s₄ h₄ _ => .pure ⟨?_, hleft, ?_⟩
    · exact h₂.trans (h₃.trans h₄)
    · refine List.forall_mem_cons.2 ⟨?_, fun c hc => ?_⟩
      · exact widens_expr.later (widens_expr.earlier h₁.toProceeds he) (h₃.trans h₄)
      · exact widens_expr.later (widens_expr.earlier (h₁.toProceeds.trans h₂) (hes c hc)) h₄

/-- A row of calls covers the callee, the arguments and the closing parenthesis. -/
theorem encloses_applyAll {close : Span} {e : Expr} {es : List Expr} (he : e.At f size s s')
    (hes : ∀ c ∈ es, c.At f size s s') (hclose : s.Inside f size s' close) :
    (applyAll close e es).Meets s' fun e' s₂ => s₂ = s' ∧ e'.At f size s s' := by
  induction es generalizing e with
  | nil => exact .pure ⟨rfl, he⟩
  | cons c es ih =>
    obtain ⟨hc, hes⟩ := List.forall_mem_cons.1 hes
    refine .bind (meets_join he.stands.toInside hc.stands.toInside fun y hy hey hcy => ?_)
    refine .bind (meets_join hy hclose fun z hz hyz _ => ih ?_ hes)
    have hez := hey.trans hyz
    exact ⟨⟨hz, he.stands.reaches.trans hez.stop⟩,
      .app hz.inFile he.nested hc.nested hez (hcy.trans hyz)⟩

/-- Calls cover what they are applied to, however many follow each other. -/
theorem encloses_callsFrom (hl : levels.Enclose f size) (n : Nat) {e : Expr}
    (h₁ : s.Proceeds f size s₁) (he : e.At f size s s₁) :
    (callsFrom n levels e).Meets s₁ fun e' s' =>
      s.Proceeds f size s' ∧ e'.At f size s s' := by
  have hgiveUp {s₁ s₂ : ParserState} {e : Expr} {x : Span} (h₁ : s.Proceeds f size s₁)
      (he : e.At f size s s₁) (h₂ : s₁.Takes f size s₂ x) :
      Parser.Meets (do giveUp; return e) s₂ fun e' s' =>
        s.Proceeds f size s' ∧ e'.At f size s s' := by
    refine encloses_giveUp.next h₂.begun fun _ s₃ h₃ _ => .pure ?_
    have h := h₂.toProceeds.trans h₃
    exact ⟨h₁.trans h, widens_expr.later he h⟩
  induction n generalizing levels e s₁ with
  | zero =>
    unfold callsFrom
    refine .bind (takes_accept? h₁.begun (fun x s₂ h₂ => ?_) fun _ => .pure ⟨h₁, he⟩)
    exact hgiveUp h₁ he h₂
  | succ n ih =>
    unfold callsFrom
    refine .bind (takes_accept? h₁.begun (fun x s₂ h₂ => ?_) fun _ => .pure ⟨h₁, he⟩)
    cases levels with
    | nil => exact hgiveUp h₁ he h₂
    | cons level levels =>
      have hl' := hl.of_suffix (List.suffix_cons ..)
      refine .bind ((encloses_arguments hl' h₂).mono ?_)
      rintro ⟨es, left⟩ s₃ ⟨h₃, hleft, hes⟩
      have h := h₂.toProceeds.trans h₃
      refine .bind (meets_previous (.bind ((encloses_applyAll (widens_expr.later he h)
        (fun c hc => widens_expr.earlier h₁ (hes c hc))
        ((h₂.inside_previous h₃).earlier h₁)).mono ?_)))
      rintro e' _ ⟨rfl, he'⟩
      exact ih (hl'.of_suffix hleft) (h₁.trans h) he'

theorem encloses_callExpr (hl : levels.Enclose f size) :
    (callExpr levels).Encloses f size (Expr.At f size) := by
  intro s hs
  refine (encloses_baseExpr hl).next hs fun e s₁ h₁ he => ?_
  exact encloses_callsFrom hl levels.length h₁ he

/-! ### Precedence -/

theorem encloses_addExpr (hl : levels.Enclose f size) :
    (addExpr levels).Encloses f size (Expr.At f size) :=
  encloses_binary fun _ h => encloses_binary fun _ h' =>
    encloses_callExpr ((hl.of_suffix h).of_suffix h')

/-- A comparison covers both sides. -/
theorem encloses_cmpExpr (hl : levels.Enclose f size) :
    (cmpExpr levels).Encloses f size (Expr.At f size) := by
  intro s hs
  refine (encloses_addExpr hl).next hs fun e s₁ h₁ he => ?_
  refine .bind (takes_accept? h₁.begun (fun op s₂ h₂ => ?_) fun _ => .pure ⟨h₁, he⟩)
  refine (encloses_addExpr hl).next h₂.begun fun rhs s₃ h₃ hrhs => ?_
  refine (encloses_applyOperator h₁ he h₂ h₃ hrhs).mono ?_
  rintro e' _ ⟨rfl, he'⟩
  exact ⟨h₁.trans (h₂.toProceeds.trans h₃), he'⟩

theorem encloses_orExpr (hl : levels.Enclose f size) :
    (orExpr levels).Encloses f size (Expr.At f size) :=
  encloses_binary fun _ h => encloses_binary fun _ h' =>
    encloses_cmpExpr ((hl.of_suffix h).of_suffix h')

/-! ### Definitions, conditionals and functions -/

/-- A local definition covers all from its keyword to the end of its body. -/
theorem encloses_letExpr (hl : levels.Enclose f size) (h₁ : s.Takes f size s₁ opener) :
    (letExpr levels opener).Meets s₁ fun e s' => s.Proceeds f size s' ∧ e.At f size s s' := by
  refine (encloses_binder hl).next h₁.begun fun b s₂ h₂ hb => ?_
  refine (encloses_expect _).next h₂.begun fun _ s₃ h₃ _ => ?_
  refine hl.expr.next h₃.begun fun bound s₄ h₄ hbound => ?_
  refine (encloses_expect _).next h₄.begun fun _ s₅ h₅ _ => ?_
  refine hl.expr.next h₅.begun fun body s₆ h₆ hbody => ?_
  have h₂₃ := h₂.trans h₃
  have h₂₅ := h₂₃.trans (h₄.trans h₅)
  have h := h₂₅.trans h₆
  refine .bind (meets_join (h₁.stands.toInside.later h)
    (hbody.stands.toInside.earlier (h₁.toProceeds.trans h₂₅)) fun z hz hopener hbodyz =>
    .pure ⟨h₁.toProceeds.trans h, ⟨hz, h₁.stands.reaches.trans hopener.stop⟩, ?_⟩)
  have hboundz : bound.span.stop ≤ z.stop :=
    (hbound.stands.toInside.stop_le h₅ hbody.stands.toInside).trans hbodyz.stop
  refine .letIn hz.inFile (hb.nestedIn hz.inFile.file ?_ ?_) hbound.nested hbody.nested ?_ hbodyz
  · exact h₁.start_le hopener hb.shows.start
  · exact (h₃.trans (h₄.trans h₅)).here.trans (hbody.stands.reaches.trans hbodyz.stop)
  · exact h₁.within hopener (hbound.stands.toInside.earlier h₂₃) hboundz

/-- A conditional covers all from its keyword to the end of its second branch. -/
theorem encloses_ifExpr (hl : levels.Enclose f size) (h₁ : s.Takes f size s₁ opener) :
    (ifExpr levels opener).Meets s₁ fun e s' => s.Proceeds f size s' ∧ e.At f size s s' := by
  refine hl.expr.next h₁.begun fun test s₂ h₂ htest => ?_
  refine (encloses_expect _).next h₂.begun fun _ s₃ h₃ _ => ?_
  refine hl.expr.next h₃.begun fun yes s₄ h₄ hyes => ?_
  refine (encloses_expect _).next h₄.begun fun _ s₅ h₅ _ => ?_
  refine hl.expr.next h₅.begun fun no s₆ h₆ hno => ?_
  have h₂₃ := h₂.trans h₃
  have h₃₅ := h₃.trans (h₄.trans h₅)
  have h₂₅ := h₂.trans h₃₅
  have h := h₂₅.trans h₆
  refine .bind (meets_join (h₁.stands.toInside.later h)
    (hno.stands.toInside.earlier (h₁.toProceeds.trans h₂₅)) fun z hz hopener hnoz =>
    .pure ⟨h₁.toProceeds.trans h, ⟨hz, h₁.stands.reaches.trans hopener.stop⟩, ?_⟩)
  refine .cond hz.inFile htest.nested hyes.nested hno.nested ?_ ?_ hnoz
  · refine h₁.within hopener htest.stands.toInside ?_
    exact (htest.stands.toInside.stop_le h₃₅ hno.stands.toInside).trans hnoz.stop
  · refine h₁.within hopener (hyes.stands.toInside.earlier h₂₃) ?_
    exact (hyes.stands.toInside.stop_le h₅ hno.stands.toInside).trans hnoz.stop

/-- The body of a function ends behind its parameters, so each of the functions does. -/
theorem encloses_curry {s₂ s₃ : ParserState} {body : Expr} {bs : List Binder}
    (hbs : ∀ b ∈ bs, b.At f size s s₁) (h₁ : s.Proceeds f size s₁) (h₂ : s₁.Proceeds f size s₂)
    (hbody : body.At f size s₂ s₃) :
    (curry body bs).Meets s₃ fun e s' => s' = s₃ ∧ s.Inside f size s₃ e.span ∧
      body.span.stop ≤ e.span.stop ∧ e.Nested f size := by
  induction bs with
  | nil =>
    exact .pure ⟨rfl, hbody.stands.toInside.earlier (h₁.trans h₂), Nat.le_refl _, hbody.nested⟩
  | cons b bs ih =>
    obtain ⟨hb, hbs⟩ := List.forall_mem_cons.1 hbs
    refine .bind ((ih hbs).mono ?_)
    rintro inner s₄ ⟨rfl, hinner, hstop, hnested⟩
    have hbstop := h₂.here.trans hbody.stands.reaches
    have hinside : s.Inside f size s₄ b.span :=
      ⟨hb.shows.inFile, hb.shows.start, hb.shows.stop.trans (hbstop.trans hbody.stands.stop)⟩
    refine .bind (meets_join hinside hinner fun z hz hbz hinnerz => ?_)
    have hstopz := hstop.trans hinnerz.stop
    refine .pure ⟨rfl, hz, hstopz, .lam hz.inFile (hb.nestedIn hz.inFile.file hbz.start ?_) hnested
      hinnerz⟩
    exact hbstop.trans hstopz

/-- A function covers all from its keyword to the end of its body. -/
theorem encloses_fnExpr (hl : levels.Enclose f size) (h₁ : s.Takes f size s₁ opener) :
    (fnExpr levels opener).Meets s₁ fun e s' => s.Proceeds f size s' ∧ e.At f size s s' := by
  refine (encloses_expect _).next h₁.begun fun _ s₂ h₂ _ => ?_
  refine (encloses_binder hl).next h₂.begun fun b s₃ h₃ hb => ?_
  refine (encloses_moreBelow widens_binder fun _ h => encloses_binder (hl.of_suffix h)).next
    h₃.begun ?_
  rintro ⟨bs, left⟩ s₄ h₄ ⟨hleft, hbs⟩
  refine (encloses_expect _).next h₄.begun fun _ s₅ h₅ _ => ?_
  refine (encloses_expect _).next h₅.begun fun _ s₆ h₆ _ => ?_
  refine (hl.of_suffix hleft).expr.next h₆.begun fun body s₇ h₇ hbody => ?_
  have h₅₆ := h₅.trans h₆
  have h₃₆ := h₄.trans h₅₆
  refine .bind ((encloses_curry hbs h₄ h₅₆ hbody).mono ?_)
  rintro inner _ ⟨rfl, hinner, hstop, hnested⟩
  have h₂₃ := h₂.trans h₃
  have h := h₂₃.trans (h₃₆.trans h₇)
  refine .bind (meets_join (h₁.stands.toInside.later h)
    (hinner.earlier (h₁.toProceeds.trans h₂₃)) fun z hz hopener hinnerz =>
    .pure ⟨h₁.toProceeds.trans h, ⟨hz, h₁.stands.reaches.trans hopener.stop⟩, ?_⟩)
  refine .lam hz.inFile (hb.nestedIn hz.inFile.file ?_ ?_) hnested hinnerz
  · exact h₁.start_le hopener (h₂.stop.trans hb.shows.start)
  · exact h₃₆.here.trans (hbody.stands.reaches.trans (hstop.trans hinnerz.stop))

/-- An expression covers the lexemes it was read from, whichever keyword it begins with. -/
theorem encloses_exprAbove (hl : levels.Enclose f size) :
    (exprAbove levels).Encloses f size (Expr.At f size) := by
  intro s hs
  refine .bind (takes_accept? hs (fun l s₁ h₁ => encloses_letExpr hl h₁) fun _ => ?_)
  refine .bind (takes_accept? hs (fun l s₁ h₁ => encloses_ifExpr hl h₁) fun _ => ?_)
  refine .bind (takes_accept? hs (fun l s₁ h₁ => encloses_fnExpr hl h₁) fun _ => ?_)
  exact encloses_orExpr hl s hs

end Parser

/-- On all levels expressions and types are enclosed, by induction on the number of levels. -/
theorem Levels.enclose_ofDepth (f : FileId) (size n : Nat) : (Levels.ofDepth n).Enclose f size := by
  induction n with
  | zero => exact List.forall_mem_nil _
  | succ n ih =>
    exact List.forall_mem_cons.2
      ⟨⟨Parser.encloses_exprAbove ih, Parser.encloses_typeAbove ih⟩, ih⟩

/-! ## Declarations -/

/-- All spans of a declaration. -/
def Decl.spans (d : Decl) : List Span := d.span :: d.binder.spans ++ d.bound.spans

/-- All written types in a declaration. -/
def Decl.annotations (d : Decl) : List TypeExpr :=
  d.binder.anno.toList ++ d.bound.walk.flatMap Expr.annotations

/-- The spans of a declaration in a file of the given size. -/
structure Decl.Nested (f : FileId) (size : Nat) (d : Decl) : Prop where
  /-- All spans are in the file. -/
  inFile : ∀ x ∈ d.spans, x.InFile f size
  /-- The name, its annotation and the definition lie in the declaration. -/
  within : ∀ x ∈ d.spans, x.Within d.span
  /-- The parts, the binder and the annotations of an expression lie in the expression. -/
  exprs : ∀ e ∈ d.bound.walk, ∀ x ∈ e.spans, x.Within e.span
  /-- The parts of a type lie in the type. -/
  types : ∀ t ∈ d.annotations, ∀ u ∈ t.walk, ∀ x ∈ u.spans, x.Within u.span

/-- A declaration is nested if its definition is and name and definition lie in it. -/
theorem Decl.nested_of {f : FileId} {size : Nat} {d : Decl} (hd : d.span.InFile f size)
    (hb : d.binder.NestedIn f size d.span) (he : d.bound.Nested f size)
    (hwithin : d.bound.span.Within d.span) : d.Nested f size := by
  have hspans : ∀ x ∈ d.spans, x.InFile f size ∧ x.Within d.span := by
    intro x hx
    rw [Decl.spans, Binder.spans, List.mem_append, List.mem_cons, List.mem_cons,
      List.mem_flatMap] at hx
    rcases hx with (rfl | rfl | ⟨t, ht, hx⟩) | hx
    · exact ⟨hd, .refl _⟩
    · exact ⟨hb.inFile, hb.within⟩
    · obtain ⟨ht, htd⟩ := hb.anno t (Option.mem_toList.1 ht)
      exact ⟨(ht.spans hx).1, (ht.spans hx).2.trans htd⟩
    · exact ⟨(he.spans hx).1, (he.spans hx).2.trans hwithin⟩
  have hannotations : ∀ t ∈ d.annotations, t.Nested f size := by
    intro t ht
    rw [Decl.annotations, List.mem_append, List.mem_flatMap] at ht
    rcases ht with ht | ⟨e, hmem, ht⟩
    · exact (hb.anno t (Option.mem_toList.1 ht)).1
    · exact (he.walk hmem).1.of_annotations ht
  refine ⟨fun x hx => (hspans x hx).1, fun x hx => (hspans x hx).2, fun e hmem x hx => ?_,
    fun t ht u hu x hx => ?_⟩
  · exact ((he.walk hmem).1.spans hx).2
  · exact (((hannotations t ht).walk hu).1.spans hx).2

namespace Parser

variable {f : FileId} {size : Nat} {s : ParserState} {opener : Span}

/-- A declaration begins with its keyword and ends with the last lexeme that was read for it. -/
theorem encloses_decl (hs : s.Begun f size) (hopener : s.previous = opener) :
    (decl opener).Meets s fun d s' => s.Proceeds f size s' ∧ d.Nested f size ∧
      d.span.start = opener.start ∧ opener.stop ≤ d.span.stop ∧
      d.span.stop ≤ s'.previous.stop := by
  have hl : allLevels.Enclose f size := Levels.enclose_ofDepth f size maxDepth
  have hlast := hs.previous
  rw [hopener] at hlast
  refine (encloses_binder hl).next hs fun b s₁ h₁ hb => ?_
  refine (encloses_expect _).next h₁.begun fun _ s₂ h₂ _ => ?_
  refine hl.expr.next h₂.begun fun bound s₃ h₃ hbound => ?_
  have hstart := (h₁.trans h₂).stop.trans hbound.stands.start
  rw [hopener] at hstart
  have hsemicolon : (mark? .semicolon).Meets s₃ fun _ s' => s₃.Proceeds f size s' :=
    takes_accept? h₃.begun (fun _ s' h => h.toProceeds) fun _ => .refl h₃.begun
  refine .bind (hsemicolon.mono fun _ s₄ h₄ => ?_)
  refine .bind (meets_joined hlast.1 hbound.stands.inFile fun z hz hopenerz hboundz hzstart
    hzstop => .pure ⟨(h₁.trans h₂).trans (h₃.trans h₄), ?_, ?_, hopenerz.stop, ?_⟩)
  · refine Decl.nested_of hz (hb.nestedIn hz.file ?_ ?_) hbound.nested hboundz
    · have hbstart := hb.shows.start
      rw [hopener] at hbstart
      exact hopenerz.start.trans (hlast.1.le.trans hbstart)
    · exact h₂.here.trans (hbound.stands.reaches.trans hboundz.stop)
  · rw [hzstart]
    exact Nat.min_eq_left (hlast.1.le.trans hstart)
  · have hstop := hbound.stands.stop.trans h₄.stop
    change z.stop ≤ s₄.previous.stop
    rw [hzstop]
    exact Nat.max_le.2 ⟨(hstart.trans hbound.stands.inFile.le).trans hstop, hstop⟩

/-- The declarations stand one behind the other, and none begins before the first of the lexemes. -/
structure DeclsInOrder (f : FileId) (size : Nat) (ls : List Lexeme) (ds : List Decl) : Prop where
  nested : ∀ d ∈ ds, d.Nested f size
  apart : ds.Pairwise fun d d' =>
    d.span.start < d'.span.start ∧ d.span.stop ≤ d'.span.start
  start : ∀ m, (∀ l ∈ ls, m ≤ l.span.start) → ∀ d ∈ ds, m ≤ d.span.start

theorem DeclsInOrder.nil (ls : List Lexeme) : DeclsInOrder f size ls [] :=
  ⟨List.forall_mem_nil _, .nil, fun _ _ => List.forall_mem_nil _⟩

theorem DeclsInOrder.mono {ls ls' : List Lexeme} {ds : List Decl} (hds : DeclsInOrder f size ls' ds)
    (hls : ls' ⊆ ls) : DeclsInOrder f size ls ds :=
  ⟨hds.nested, hds.apart, fun m hm => hds.start m fun l hl => hm l (hls hl)⟩

/-- A declaration comes in order if it ends before the lexemes from which the others are read. -/
theorem DeclsInOrder.cons {l : Lexeme} {ls ls' : List Lexeme} {d : Decl} {ds : List Decl}
    (hl : l ∈ ls) (hd : d.Nested f size) (hstart : d.span.start = l.span.start)
    (hlt : d.span.start < d.span.stop) (hle : ∀ l' ∈ ls', d.span.stop ≤ l'.span.start)
    (hds : DeclsInOrder f size ls' ds) : DeclsInOrder f size ls (d :: ds) := by
  have hbehind := hds.start d.span.stop hle
  refine ⟨List.forall_mem_cons.2 ⟨hd, hds.nested⟩, List.pairwise_cons.2 ⟨?_, hds.apart⟩, ?_⟩
  · exact fun d' hd' => ⟨hlt.trans_le (hbehind d' hd'), hbehind d' hd'⟩
  · intro m hm
    have hmd : m ≤ d.span.start := hstart ▸ hm l hl
    exact List.forall_mem_cons.2 ⟨hmd, fun d' hd' => (hmd.trans hlt.le).trans (hbehind d' hd')⟩

/-- The declarations that are read from some lexemes stand in order. -/
theorem encloses_declsFrom (n : Nat) (acc : List Decl) (hs : s.InOrder f size) :
    (declsFrom n acc).Meets s fun p _ => ∃ ds : List Decl, p = acc.reverse ++ ds ∧
      DeclsInOrder f size s.rest ds := by
  induction n generalizing acc s with
  | zero => exact .pure ⟨[], (List.append_nil _).symm, .nil _⟩
  | succ n ih =>
    cases hrest : s.rest with
    | nil => exact ⟨_, _, declsFrom_nil hrest _ _, [], (List.append_nil _).symm, .nil _⟩
    | cons l ls =>
      cases hl : beginsDecl l with
      | true =>
        have hbegun : ParserState.Begun f size { s with rest := ls, last := some l } :=
          ⟨hs.of_suffix (ParserState.window_advance hrest), l, rfl⟩
        refine .of_eq (.bind ((encloses_decl hbegun rfl).mono ?_)) (declsFrom_decl hrest hl n acc)
        rintro d s₂ ⟨h₂, hd, hstart, hstop, hlast⟩
        refine (ih (d :: acc) h₂.begun.toInOrder).mono ?_
        rintro p _ ⟨ds, hp, hds⟩
        refine ⟨d :: ds, by rw [hp, List.reverse_cons, List.append_assoc]; rfl, ?_⟩
        refine .cons (List.mem_cons_self ..) hd hstart ?_ (fun l' hl' => ?_) hds
        · have hlt : l.span.start < l.span.stop := hbegun.previous.2
          exact hstart ▸ hlt.trans_le hstop
        · exact hlast.trans (h₂.begun.le_of_mem_rest hl').1
      | false =>
        have hskip := hs.of_suffix (s.window_skipWhile fun l => !beginsDecl l)
        refine .of_eq ((ih acc (hskip.report l.span .expectedDeclaration)).mono ?_)
          (declsFrom_other hrest hl n acc)
        rintro p _ ⟨ds, hp, hds⟩
        refine ⟨ds, hp, hds.mono fun l' hl' => ?_⟩
        rw [ParserState.rest_report] at hl'
        exact hrest ▸ (List.dropWhile_suffix _).subset hl'

end Parser

/-- Spans nest.  Every source has a tree.  All its spans lie in the source, what is part of
something lies inside of it, and the declarations stand one behind the other. -/
theorem parsed_spans_nest (file : FileId) (source : String) :
    ∃ p ds, parse file (lex file source).1 = .ok (p, ds) ∧
      (∀ d ∈ p, d.Nested file source.utf8ByteSize) ∧
      p.Pairwise fun d d' => d.span.start < d'.span.start ∧ d.span.stop ≤ d'.span.start := by
  have htiled := lex_tiled file source
  have hs : (⟨(lex file source).1, none, .origin file, [], false⟩ : ParserState).InOrder file
      source.utf8ByteSize := by
    refine ⟨fun l hl => ?_, htiled.apart⟩
    obtain ⟨hfile, before, text, after, hstretch, ht⟩ := htiled.lexemes [] rfl rfl l hl
    have hlt := hstretch.lt ht.text_ne_nil
    exact ⟨⟨hfile, hlt.le, hstretch.le⟩, hlt⟩
  obtain ⟨p, s', hrun, ds, rfl, hds⟩ := Parser.encloses_declsFrom (lex file source).1.length [] hs
  exact ⟨_, s'.reported.reverse, by rw [parse_eq_map, hrun]; rfl, hds.nested, hds.apart⟩

-- The name and the definition are missing, so they stand at the end of the source.
example : (parse 0 (lex 0 "let").1).map (fun r => r.1.map Decl.spans) =
    .ok [[⟨0, 3, 0⟩, ⟨3, 3, 0⟩, ⟨3, 3, 0⟩]] := by decide +kernel

end LetPoly
