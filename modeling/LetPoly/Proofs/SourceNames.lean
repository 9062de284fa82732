import LetPoly.Proofs.Concatenation
import LetPoly.Proofs.Containment
import LetPoly.Proofs.Phases
import LetPoly.Proofs.Trees

/-!
# Names of a tree come from its source

A parser makes up no names.  Each name of a tree is a word of the source, the name of an operator,
or empty where a name was missing.  This holds of every source, be it well written or not, so
whatever holds of all such names holds of the names of every tree (`names_of_parse`).
-/

namespace LetPoly

/-! ## Names of trees -/

namespace Expr

/-- The names of a node, without those of its parts. -/
def ownNames : Expr → List String
  | name _ x => [x]
  | lam _ b _ => [b.name]
  | letIn _ b _ _ => [b.name]
  | _ => []

/-- All names of an expression. -/
def names (e : Expr) : List String := e.walk.flatMap ownNames

/-- The names of an expression are its own ones and those of its parts. -/
theorem names_eq (e : Expr) : e.names = e.ownNames ++ e.children.flatMap names := by
  rw [names, walk_eq, List.flatMap_cons, List.flatMap_assoc]
  rfl

theorem ownNames_clear (e : Expr) : e.clear.ownNames = e.ownNames := by
  cases e <;> simp [ownNames, Binder.clear, Binder.update]

/-- The names of an expression do not depend on its slots. -/
theorem names_clear (e : Expr) : e.clear.names = e.names := by
  rw [names, clear, walk_update, List.flatMap_map]
  exact List.flatMap_congr fun d _ => ownNames_clear d

end Expr

/-- All names of a declaration. -/
def Decl.names (d : Decl) : List String := d.binder.name :: d.bound.names

/-- All names of a program. -/
def Program.names (p : Program) : List String := p.flatMap Decl.names

theorem Program.names_clear (p : Program) : p.clear.names = p.names := by
  rw [names, clear, List.flatMap_map]
  exact List.flatMap_congr fun d _ => congrArg (d.binder.name :: ·) d.bound.names_clear

/-! ## Parsers that copy names -/

/-- The property holds of the empty name and of the names of operators. -/
structure NameProperty (N : String → Prop) : Prop where
  empty : N ""
  operator : ∀ o : Operator, N o.text

/-- The property holds of the names among the lexemes that are left. -/
def ParserState.Names (N : String → Prop) (s : ParserState) : Prop :=
  ∀ l ∈ s.rest, ∀ x, l.token = .name x → N x

namespace Parser

/-- If a property holds of all names that are left then so it does behind the parser, and the value
has the other property. -/
def Copies {α : Type} (N : String → Prop) (P : α → Prop) (q : Parser α) : Prop :=
  ∀ s a s', s.Names N → q s = .ok (a, s') → s'.Names N ∧ P a

/-- The value of the parser matters to no name. -/
abbrev Passes {α : Type} (N : String → Prop) (q : Parser α) : Prop := q.Copies N fun _ => True

section

variable {α β : Type} {N : String → Prop} {P : α → Prop} {R : β → Prop} {q : Parser α}
  {k : α → Parser β}

theorem copies_pure {a : α} (h : P a) : Copies N P (pure a : Parser α) := by
  rintro s _ _ hs ⟨⟩
  exact ⟨hs, h⟩

/-- Parsers in sequence copy names, if the second does so with what the first has read. -/
protected theorem Copies.bind (hq : q.Copies N P) (hk : ∀ a, P a → (k a).Copies N R) :
    Copies N R (q >>= k) := by
  intro s b s'' hs hrun
  obtain ⟨a, s', hfirst, hsecond⟩ := bind_eq_ok.1 hrun
  obtain ⟨hs', ha⟩ := hq s a s' hs hfirst
  exact hk a ha s' b s'' hs' hsecond

theorem Passes.bind (hq : q.Passes N) (hk : ∀ a, (k a).Copies N R) : Copies N R (q >>= k) :=
  Copies.bind hq fun a _ => hk a

/-- A parser that reads nothing, or skips what is left. -/
theorem passes_of_rest (h : ∀ s a s', q s = .ok (a, s') → s'.rest ⊆ s.rest) : q.Passes N :=
  fun s a s' hs hrun => ⟨fun l hl => hs l (h s a s' hrun hl), trivial⟩

/-- Parsers that only look where they are leave all names in place. -/
theorem passes_here : here.Passes N := by
  refine passes_of_rest ?_
  rintro s _ _ ⟨⟩
  exact List.Subset.refl _

theorem passes_previous : previous.Passes N := by
  refine passes_of_rest ?_
  rintro s _ _ ⟨⟩
  exact List.Subset.refl _

theorem passes_join (x y : Span) : (join x y).Passes N := by
  refine passes_of_rest fun s z s' hrun => ?_
  rw [(join_eq_ok.1 hrun).2]
  exact List.Subset.refl _

/-- A report does not change the lexemes. -/
theorem passes_report (span : Span) (p : Problem) : (report span p).Passes N := by
  refine passes_of_rest ?_
  rintro s _ _ ⟨⟩
  have hrest : (s.report span p).rest = s.rest := s.rest_report span p
  exact hrest ▸ List.Subset.refl _

/-- Giving up leaves no lexemes, and so no names. -/
theorem passes_giveUp : giveUp.Passes N := by
  refine passes_of_rest ?_
  rintro s _ _ ⟨⟩
  have hrest : s.giveUp.rest = [] := s.rest_giveUp
  exact hrest ▸ List.nil_subset _

theorem passes_peek (p : Token → Bool) : (peek p).Passes N := by
  refine passes_of_rest fun s a s' hrun => ?_
  rw [peek_eq] at hrun
  cases hrun
  exact List.Subset.refl _

/-- A lexeme that is read was among those that were left. -/
theorem copies_accept? (p : Token → Bool) :
    (accept? p).Copies N fun found => ∀ l ∈ found, ∀ x, l.token = .name x → N x := by
  intro s found s' hs hrun
  obtain ⟨l, ls, hrest, -, haccept⟩ | ⟨-, haccept⟩ := accept?_cases p s
  · cases haccept.symm.trans hrun
    unfold ParserState.Names at hs
    rw [hrest, List.forall_mem_cons] at hs
    exact ⟨hs.2, by simpa using hs.1⟩
  · cases haccept.symm.trans hrun
    exact ⟨hs, by simp⟩

/-- What is done depends on whether a lexeme fits, and not on which it is. -/
theorem passes_accept? {p : Token → Bool} {r : Option Lexeme → Parser β}
    (hsome : ∀ l, (r (some l)).Copies N R) (hnone : (r none).Copies N R) :
    Copies N R (accept? p >>= r) := by
  refine (copies_accept? p).bind fun found _ => ?_
  cases found with
  | none => exact hnone
  | some l => exact hsome l

theorem passes_expect (t : Token) : (expect t).Passes N :=
  passes_accept? (fun _ => copies_pure trivial) (passes_here.bind fun span => passes_report span _)

theorem passes_closeGroup (opener : Span) : (closeGroup opener).Passes N :=
  passes_accept? (fun _ => copies_pure trivial) (passes_report opener _)

/-- The names of items are copied, if those of one item are. -/
theorem copies_moreItems {item : Parser α} (hitem : item.Copies N P) :
    (moreItems item).Copies N fun as => ∀ a ∈ as, P a := by
  suffices hfrom : ∀ (ls : List Lexeme) (acc : List α), (∀ a ∈ acc, P a) →
      (moreItemsFrom item ls acc).Copies N fun as => ∀ a ∈ as, P a by
    intro s as s' hs hrun
    exact hfrom s.rest [] (List.forall_mem_nil _) s as s' hs hrun
  intro ls
  induction ls with
  | nil => exact fun acc hacc => copies_pure fun a ha => hacc a (List.mem_reverse.1 ha)
  | cons l ls ih =>
    intro acc hacc
    refine passes_accept? (fun _ => hitem.bind fun a ha => ?_)
      (copies_pure fun a ha => hacc a (List.mem_reverse.1 ha))
    exact ih (a :: acc) (List.forall_mem_cons.2 ⟨ha, hacc⟩)

end

end Parser

/-! ## Types, binders and expressions -/

/-- The property holds of all names of the expression. -/
def Expr.Named (N : String → Prop) (e : Expr) : Prop := ∀ x ∈ e.names, N x

/-- A tree has only such names if its own ones are such and those of its parts are. -/
theorem Expr.named_iff {N : String → Prop} {e : Expr} :
    e.Named N ↔ (∀ x ∈ e.ownNames, N x) ∧ ∀ d ∈ e.children, d.Named N := by
  rw [Named, names_eq, List.forall_mem_append, List.forall_mem_flatMap]
  rfl

namespace Expr

variable {N : String → Prop} {m : Mark} {e e' e'' : Expr}

theorem named_lit (l : Literal) : (lit m l).Named N := by
  simp [named_iff (e := lit m l), ownNames, children]

theorem named_invalid (m : Mark) : (invalid m).Named N := by
  simp [named_iff (e := invalid m), ownNames, children]

theorem named_name {x : String} : (name m x).Named N ↔ N x := by
  simp [named_iff (e := name m x), ownNames, children]

theorem named_lam {b : Binder} : (lam m b e).Named N ↔ N b.name ∧ e.Named N := by
  simp [named_iff (e := lam m b e), ownNames, children]

theorem named_app : (app m e e').Named N ↔ e.Named N ∧ e'.Named N := by
  simp [named_iff (e := app m e e'), ownNames, children]

theorem named_letIn {b : Binder} :
    (letIn m b e e').Named N ↔ N b.name ∧ e.Named N ∧ e'.Named N := by
  simp [named_iff (e := letIn m b e e'), ownNames, children]

theorem named_cond : (cond m e e' e'').Named N ↔ e.Named N ∧ e'.Named N ∧ e''.Named N := by
  simp [named_iff (e := cond m e e' e''), ownNames, children]

theorem named_anno {t : TypeExpr} : (anno m e t).Named N ↔ e.Named N := by
  simp [named_iff (e := anno m e t), ownNames, children]

theorem named_tuple {es : List Expr} : (tuple m es).Named N ↔ ∀ e ∈ es, e.Named N := by
  simp [named_iff (e := tuple m es), ownNames, children]

end Expr

namespace Levels

variable {N : String → Prop} {levels : Levels}

/-- The parsers of all levels copy the names of the source. -/
def Copy (N : String → Prop) (levels : Levels) : Prop :=
  ∀ l ∈ levels, l.expr.Copies N (Expr.Named N) ∧ l.type.Passes N

theorem Copy.tail {l : Level} (h : Copy N (l :: levels)) : levels.Copy N :=
  fun l' hl' => h l' (List.mem_cons_of_mem _ hl')

/-- On the next level names are copied, and if there is none no name is made. -/
theorem Copy.expr (h : levels.Copy N) : levels.expr.Copies N (Expr.Named N) := by
  cases levels with
  | nil =>
    exact Parser.passes_giveUp.bind fun _ => Parser.passes_here.bind fun _ =>
      Parser.copies_pure (Expr.named_invalid _)
  | cons l levels => exact (h l List.mem_cons_self).1

/-- Types are read on the next level, without names of the tree. -/
theorem Copy.type (h : levels.Copy N) : levels.type.Passes N := by
  cases levels with
  | nil =>
    exact Parser.passes_giveUp.bind fun _ => Parser.passes_here.bind fun _ =>
      Parser.copies_pure trivial
  | cons l levels => exact (h l List.mem_cons_self).2

end Levels

namespace Parser

variable {N : String → Prop} {levels : Levels}

/-- The names of types in parentheses are not copied into the tree. -/
theorem passes_typeGroup (hl : levels.Copy N) (opener : Span) :
    (typeGroup levels opener).Passes N := by
  refine passes_accept? (fun closer => (passes_join _ _).bind fun _ => copies_pure trivial) ?_
  refine hl.type.bind fun t => (passes_peek _).bind fun comma => ?_
  split
  · refine (copies_moreItems hl.type).bind fun ts _ => (passes_closeGroup opener).bind fun _ => ?_
    exact passes_previous.bind fun _ => (passes_join _ _).bind fun _ => copies_pure trivial
  · exact (passes_closeGroup opener).bind fun _ => copies_pure trivial

theorem passes_baseType (hl : levels.Copy N) : (baseType levels).Passes N := by
  have hreport (span : Span) (p : Problem) :
      Passes N (do report span p; return TypeExpr.invalid span) :=
    (passes_report span p).bind fun _ => copies_pure trivial
  refine passes_accept? (fun l => ?_) (passes_here.bind fun span => hreport span _)
  obtain ⟨t, span⟩ := l
  dsimp only
  split
  · split
    · exact copies_pure trivial
    · exact hreport span _
  · exact copies_pure trivial
  · exact passes_typeGroup hl span
  · exact copies_pure trivial
  · exact hreport span _

theorem passes_typeAbove (hl : levels.Copy N) : (typeAbove levels).Passes N := by
  refine (passes_baseType hl).bind fun t => ?_
  refine passes_accept? (fun _ => ?_) (copies_pure trivial)
  exact hl.type.bind fun u => (passes_join _ _).bind fun _ => copies_pure trivial

/-- A name comes from a lexeme, or is the one that stands for a missing name. -/
theorem copies_name (hN : NameProperty N) : name.Copies N fun x => N x.1 := by
  refine (copies_accept? _).bind fun found hfound => ?_
  cases found with
  | none =>
    exact passes_here.bind fun span => (passes_report span _).bind fun _ => copies_pure hN.empty
  | some l =>
    obtain ⟨t, span⟩ := l
    cases t with
    | name x => exact copies_pure (hfound _ rfl x rfl)
    | _ => exact copies_pure hN.empty

/-- The name of a binder is copied, and its annotation has none. -/
theorem copies_binder (hN : NameProperty N) (hl : levels.Copy N) :
    (binder levels).Copies N fun b => N b.name := by
  refine (copies_name hN).bind fun x hx => ?_
  exact passes_accept? (fun _ => hl.type.bind fun _ => copies_pure hx) (copies_pure hx)

/-- Items copy names on the levels below, which are left for what follows. -/
theorem copies_moreBelow {α : Type} {P : α → Prop} {item : Levels → Parser α}
    (hitem : ∀ levels : Levels, levels.Copy N → (item levels).Copies N P) (hl : levels.Copy N) :
    (moreBelow item levels).Copies N fun r => (∀ a ∈ r.1, P a) ∧ r.2.Copy N := by
  induction levels with
  | nil =>
    have hnil : Levels.Copy N [] := List.forall_mem_nil _
    exact passes_accept?
      (fun _ => passes_giveUp.bind fun _ => copies_pure ⟨List.forall_mem_nil _, hnil⟩)
      (copies_pure ⟨List.forall_mem_nil _, hnil⟩)
  | cons level levels ih =>
    refine passes_accept? (fun _ => ?_) (copies_pure ⟨List.forall_mem_nil _, hl⟩)
    refine (hitem levels hl.tail).bind fun a ha => (ih hl.tail).bind fun r hr => ?_
    exact copies_pure ⟨List.forall_mem_cons.2 ⟨ha, hr.1⟩, hr.2⟩

/-! ## Operators -/

/-- An applied operator adds the name of its function, and copies those of its operands. -/
theorem copies_applyOperator (hN : NameProperty N) (op : Lexeme) {lhs rhs : Expr}
    (hlhs : lhs.Named N) (hrhs : rhs.Named N) :
    (applyOperator op lhs rhs).Copies N (Expr.Named N) := by
  refine (passes_join _ _).bind fun _ => (passes_join _ _).bind fun _ => copies_pure ?_
  have hname : N (op.token.operatorName?.getD "") := by
    cases op.token with
    | operator o => exact hN.operator o
    | _ => exact hN.empty
  exact Expr.named_app.2 ⟨Expr.named_app.2 ⟨Expr.named_name.2 hname, hlhs⟩, hrhs⟩

section

variable {ops : List Operator} {operand : Levels → Parser Expr}
  (hoperand : ∀ levels : Levels, levels.Copy N → (operand levels).Copies N (Expr.Named N))

include hoperand

/-- A chain of operators copies the names of its operands. -/
theorem copies_chain (hN : NameProperty N) (hl : levels.Copy N) {e : Expr} (he : e.Named N) :
    (chain ops operand levels e).Copies N (Expr.Named N) := by
  induction levels generalizing e with
  | nil =>
    rw [chain]
    exact passes_accept? (fun _ => passes_giveUp.bind fun _ => copies_pure he) (copies_pure he)
  | cons level levels ih =>
    rw [chain]
    refine passes_accept? (fun op => ?_) (copies_pure he)
    refine (hoperand levels hl.tail).bind fun rhs hrhs => ?_
    exact (copies_applyOperator hN op he hrhs).bind fun e he => ih hl.tail he

theorem copies_binary (hN : NameProperty N) (hl : levels.Copy N) :
    (binary ops operand levels).Copies N (Expr.Named N) :=
  (hoperand levels hl).bind fun _ he => copies_chain hoperand hN hl he

end

/-! ## Parentheses and calls -/

/-- What stands in parentheses copies the names in them. -/
theorem copies_group (hl : levels.Copy N) (opener : Span) :
    (group levels opener).Copies N (Expr.Named N) := by
  refine passes_accept?
    (fun closer => (passes_join _ _).bind fun _ => copies_pure (Expr.named_lit _)) ?_
  refine hl.expr.bind fun e he => passes_accept? (fun _ => ?_) ?_
  · refine hl.type.bind fun t => (passes_closeGroup opener).bind fun _ => passes_previous.bind ?_
    exact fun _ => (passes_join _ _).bind fun _ => copies_pure (Expr.named_anno.2 he)
  · refine (passes_peek _).bind fun comma => ?_
    split
    · refine (copies_moreItems hl.expr).bind fun es hes => (passes_closeGroup opener).bind fun _ =>
        passes_previous.bind fun _ => (passes_join _ _).bind fun _ => copies_pure ?_
      exact Expr.named_tuple.2 (List.forall_mem_cons.2 ⟨he, hes⟩)
    · exact (passes_closeGroup opener).bind fun _ => copies_pure he

/-- A name is copied, a literal has none, and a group copies its own. -/
theorem copies_baseExpr (hl : levels.Copy N) : (baseExpr levels).Copies N (Expr.Named N) := by
  have hreport (span : Span) (p : Problem) :
      Copies N (Expr.Named N) (do report span p; return Expr.invalid (.new span)) :=
    (passes_report span p).bind fun _ => copies_pure (Expr.named_invalid _)
  refine (copies_accept? _).bind fun found hfound => ?_
  cases found with
  | none => exact passes_here.bind fun span => hreport span _
  | some l =>
    obtain ⟨t, span⟩ := l
    dsimp only
    split
    case h_5 x => exact copies_pure (Expr.named_name.2 (hfound _ rfl x rfl))
    case h_6 => exact copies_group hl span
    case h_7 => exact copies_pure (Expr.named_invalid _)
    case h_8 => exact hreport span _
    all_goals exact copies_pure (Expr.named_lit _)

/-- The names in the arguments of a call are copied. -/
theorem copies_arguments (hl : levels.Copy N) (opener : Span) :
    (arguments levels opener).Copies N fun r => (∀ e ∈ r.1, e.Named N) ∧ r.2.Copy N := by
  refine passes_accept? (fun closer => (passes_join _ _).bind fun _ => copies_pure ⟨?_, hl⟩) ?_
  · exact List.forall_mem_singleton.2 (Expr.named_lit _)
  · refine hl.expr.bind fun e he => (copies_moreBelow (fun _ => Levels.Copy.expr) hl).bind
      fun r hr => (passes_closeGroup opener).bind fun _ => copies_pure ?_
    exact ⟨List.forall_mem_cons.2 ⟨he, hr.1⟩, hr.2⟩

/-- Calls have the names of the callee and of the arguments. -/
theorem copies_applyAll (close : Span) {e : Expr} {es : List Expr} (he : e.Named N)
    (hes : ∀ a ∈ es, a.Named N) : (applyAll close e es).Copies N (Expr.Named N) := by
  induction es generalizing e with
  | nil => exact copies_pure he
  | cons a es ih =>
    obtain ⟨ha, hes⟩ := List.forall_mem_cons.1 hes
    refine (passes_join _ _).bind fun _ => (passes_join _ _).bind fun _ => ?_
    exact ih (Expr.named_app.2 ⟨he, ha⟩) hes

/-- Calls that follow each other copy names, however many they are. -/
theorem copies_callsFrom (hl : levels.Copy N) (n : Nat) {e : Expr} (he : e.Named N) :
    (callsFrom n levels e).Copies N (Expr.Named N) := by
  induction n generalizing levels e with
  | zero =>
    unfold callsFrom
    exact passes_accept? (fun _ => passes_giveUp.bind fun _ => copies_pure he) (copies_pure he)
  | succ n ih =>
    unfold callsFrom
    refine passes_accept? (fun opener => ?_) (copies_pure he)
    cases levels with
    | nil => exact passes_giveUp.bind fun _ => copies_pure he
    | cons level levels =>
      refine (copies_arguments hl.tail opener.span).bind fun r hr => ?_
      refine passes_previous.bind fun close => ?_
      exact (copies_applyAll close he hr.1).bind fun e he => ih hr.2 he

/-! ## Precedence -/

theorem copies_mulExpr (hN : NameProperty N) (levels : Levels) (hl : levels.Copy N) :
    (mulExpr levels).Copies N (Expr.Named N) :=
  copies_binary
    (fun levels hl => (copies_baseExpr hl).bind fun _ he => copies_callsFrom hl levels.length he)
    hN hl

theorem copies_addExpr (hN : NameProperty N) (levels : Levels) (hl : levels.Copy N) :
    (addExpr levels).Copies N (Expr.Named N) := copies_binary (copies_mulExpr hN) hN hl

theorem copies_cmpExpr (hN : NameProperty N) (levels : Levels) (hl : levels.Copy N) :
    (cmpExpr levels).Copies N (Expr.Named N) := by
  refine (copies_addExpr hN levels hl).bind fun e he => ?_
  refine passes_accept? (fun op => ?_) (copies_pure he)
  exact (copies_addExpr hN levels hl).bind fun rhs hrhs => copies_applyOperator hN op he hrhs

theorem copies_orExpr (hN : NameProperty N) (levels : Levels) (hl : levels.Copy N) :
    (orExpr levels).Copies N (Expr.Named N) :=
  copies_binary (fun _ hl => copies_binary (copies_cmpExpr hN) hN hl) hN hl

/-! ## Definitions, conditionals and functions -/

/-- A local definition copies the name it defines, and those in its definition and body. -/
theorem copies_letExpr (hN : NameProperty N) (hl : levels.Copy N) (opener : Span) :
    (letExpr levels opener).Copies N (Expr.Named N) := by
  refine (copies_binder hN hl).bind fun b hb => (passes_expect _).bind fun _ => ?_
  refine hl.expr.bind fun bound hbound => (passes_expect _).bind fun _ => ?_
  refine hl.expr.bind fun body hbody => (passes_join _ _).bind fun _ => copies_pure ?_
  exact Expr.named_letIn.2 ⟨hb, hbound, hbody⟩

theorem copies_ifExpr (hl : levels.Copy N) (opener : Span) :
    (ifExpr levels opener).Copies N (Expr.Named N) := by
  refine hl.expr.bind fun test htest => (passes_expect _).bind fun _ => ?_
  refine hl.expr.bind fun yes hyes => (passes_expect _).bind fun _ => ?_
  refine hl.expr.bind fun no hno => (passes_join _ _).bind fun _ => copies_pure ?_
  exact Expr.named_cond.2 ⟨htest, hyes, hno⟩

/-- A function of several parameters has their names and those of its body. -/
theorem copies_curry {body : Expr} {bs : List Binder} (hbody : body.Named N)
    (hbs : ∀ b ∈ bs, N b.name) : (curry body bs).Copies N (Expr.Named N) := by
  induction bs with
  | nil => exact copies_pure hbody
  | cons b bs ih =>
    obtain ⟨hb, hbs⟩ := List.forall_mem_cons.1 hbs
    refine (ih hbs).bind fun inner hinner => (passes_join _ _).bind fun _ => copies_pure ?_
    exact Expr.named_lam.2 ⟨hb, hinner⟩

/-- A function copies the names of its parameters and those of its body. -/
theorem copies_fnExpr (hN : NameProperty N) (hl : levels.Copy N) (opener : Span) :
    (fnExpr levels opener).Copies N (Expr.Named N) := by
  refine (passes_expect _).bind fun _ => (copies_binder hN hl).bind fun b hb => ?_
  refine (copies_moreBelow (fun _ hl => copies_binder hN hl) hl).bind fun r hr => ?_
  refine (passes_expect _).bind fun _ => (passes_expect _).bind fun _ => ?_
  refine hr.2.expr.bind fun body hbody => (copies_curry hbody hr.1).bind fun inner hinner => ?_
  exact (passes_join _ _).bind fun _ => copies_pure (Expr.named_lam.2 ⟨hb, hinner⟩)

/-- An expression copies names, whichever keyword it begins with. -/
theorem copies_exprAbove (hN : NameProperty N) (hl : levels.Copy N) :
    (exprAbove levels).Copies N (Expr.Named N) := by
  refine passes_accept? (fun l => copies_letExpr hN hl l.span) ?_
  refine passes_accept? (fun l => copies_ifExpr hl l.span) ?_
  exact passes_accept? (fun l => copies_fnExpr hN hl l.span) (copies_orExpr hN levels hl)

end Parser

/-- Names are copied on all levels, by induction on their number. -/
theorem Levels.copy_ofDepth {N : String → Prop} (hN : NameProperty N) (n : Nat) :
    (Levels.ofDepth n).Copy N := by
  induction n with
  | zero => exact List.forall_mem_nil _
  | succ n ih =>
    exact List.forall_mem_cons.2 ⟨⟨Parser.copies_exprAbove hN ih, Parser.passes_typeAbove ih⟩, ih⟩

/-! ## Declarations -/

namespace Parser

variable {N : String → Prop}

/-- A declaration copies its own name and those of its definition. -/
theorem copies_decl (hN : NameProperty N) (opener : Span) :
    (decl opener).Copies N fun d => ∀ x ∈ d.names, N x := by
  have hl : allLevels.Copy N := Levels.copy_ofDepth hN maxDepth
  refine (copies_binder hN hl).bind fun b hb => (passes_expect _).bind fun _ => ?_
  refine hl.expr.bind fun bound hbound => ?_
  refine (copies_accept? _).bind fun _ _ => (passes_join _ _).bind fun _ => copies_pure ?_
  exact List.forall_mem_cons.2 ⟨hb, hbound⟩

/-- Declarations copy names, and what is skipped between them has no part in it. -/
theorem copies_declsFrom (hN : NameProperty N) (n : Nat) {acc : List Decl}
    (hacc : ∀ d ∈ acc, ∀ x ∈ d.names, N x) :
    (declsFrom n acc).Copies N fun p => ∀ d ∈ p, ∀ x ∈ d.names, N x := by
  have hreverse : ∀ acc : List Decl, (∀ d ∈ acc, ∀ x ∈ d.names, N x) →
      ∀ d ∈ acc.reverse, ∀ x ∈ d.names, N x :=
    fun acc h d hd => h d (List.mem_reverse.1 hd)
  induction n generalizing acc with
  | zero => exact copies_pure (hreverse acc hacc)
  | succ n ih =>
    intro s p s' hs hrun
    cases hrest : s.rest with
    | nil =>
      rw [declsFrom_nil hrest] at hrun
      cases hrun
      exact ⟨hs, hreverse acc hacc⟩
    | cons l ls =>
      have htail : ({ s with rest := ls, last := some l } : ParserState).Names N :=
        fun l hl => hs l (hrest ▸ List.mem_cons_of_mem _ hl)
      cases hl : beginsDecl l with
      | true =>
        rw [declsFrom_decl hrest hl] at hrun
        have hnext := (copies_decl hN l.span).bind fun d hd =>
          ih (List.forall_mem_cons.2 ⟨hd, hacc⟩)
        exact hnext _ p s' htail hrun
      | false =>
        -- what is skipped stood in front
        rw [declsFrom_other hrest hl] at hrun
        refine ih hacc _ p s' (fun l' hl' => hs l' ?_) hrun
        rw [ParserState.rest_report] at hl'
        exact (List.dropWhile_suffix _).subset hl'

end Parser

/-- Whatever holds of all names of the source, of the names of operators and of the empty name holds
of all names of the tree. -/
theorem names_of_parse {N : String → Prop} (hN : NameProperty N) {file : FileId}
    {ls : List Lexeme} {p : Program} {ds : List Diagnostic}
    (hls : ∀ l ∈ ls, ∀ x, l.token = .name x → N x) (hparse : parse file ls = .ok (p, ds)) :
    ∀ x ∈ p.names, N x := by
  rw [parse_eq_map] at hparse
  cases hrun : Parser.declsFrom ls.length [] ⟨ls, none, .origin file, [], false⟩ with
  | error d =>
    rw [hrun] at hparse
    cases hparse
  | ok r =>
    rw [hrun] at hparse
    cases hparse
    have hstart : (⟨ls, none, .origin file, [], false⟩ : ParserState).Names N := hls
    have hcopies := Parser.copies_declsFrom hN ls.length (List.forall_mem_nil _)
    exact List.forall_mem_flatMap.2 (hcopies _ r.1 r.2 hstart hrun).2

/-! ## Words -/

theorem Piece.continuesWord_of_isLetter {c : Char} (h : isLetter c = true) :
    continuesWord c = true := by
  simp [continuesWord, h]

/-- A name that the lexer reads is a word. -/
theorem Token.Munched.continuesWord {x : String} {text rest : List Char}
    (h : (Token.name x).Munched text rest) : ∀ c ∈ x.toList, Piece.continuesWord c = true := by
  cases h with
  | matched hwins hdenotes =>
    cases hdenotes with
    | name =>
      obtain ⟨c, cs, rfl, hc, hcs⟩ := Rule.mem_runOf.1 hwins.own.2
      rw [String.toList_ofList]
      exact List.forall_mem_cons.2 ⟨Piece.continuesWord_of_isLetter hc, hcs⟩

/-- The characters that can stand in a name of a tree. -/
def Piece.inName (c : Char) : Bool := continuesWord c || "+-*/=!<>&|".toList.contains c

/-- The characters of words and operators make a property of names. -/
theorem nameProperty_inName : NameProperty fun x => ∀ c ∈ x.toList, Piece.inName c = true where
  empty := List.forall_mem_nil _
  operator o := by cases o <;> exact List.all_eq_true.1 rfl

/-- The names of the tree of a source are words and names of operators. -/
theorem inName_of_parse {file : FileId} {source : String} {p : Program} {ds : List Diagnostic}
    (hparse : parse file (lex file source).1 = .ok (p, ds)) :
    ∀ x ∈ p.names, ∀ c ∈ x.toList, Piece.inName c = true := by
  refine names_of_parse nameProperty_inName (fun l hl x hx => ?_) hparse
  obtain ⟨-, _, _, _, -, hmunched⟩ := (lex_tiled file source).lexemes [] rfl rfl l hl
  rw [hx] at hmunched
  intro c hc
  simp [Piece.inName, hmunched.continuesWord c hc]

end LetPoly
