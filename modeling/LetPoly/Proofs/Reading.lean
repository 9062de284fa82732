import LetPoly.Proofs.Parsers

/-!
# What parsers read

A parser that has nothing to report has read tokens that derive from the grammar, and its value is
the tree of the derivation up to places.  There is one lemma for each parser, which also says that
the parser goes onward from every state.  The parsers of a level follow from the levels behind it.
-/

namespace LetPoly

/-! ## Lists -/

/-- The tokens of a list of items, each behind a comma. -/
def Phrase.listed {α : Type} (L : α → Language Token) : List α → Language Token
  | [] => 1
  | a :: as => {[.punctuation .comma]} * (L a * listed L as)

/-- The items of a list are phrases. -/
theorem Phrase.exists_of_mem_listed {α β : Type} {D : List Token → β → Prop} {g : α → β}
    {as : List α} {ts : List Token} (h : ts ∈ listed (fun a => {ts | D ts (g a)}) as) :
    ∃ xs : List (Phrase β), commas xs = ts ∧ xs.map (·.value) = as.map g ∧
      ∀ x ∈ xs, D x.tokens x.value := by
  induction as generalizing ts with
  | nil =>
    cases h
    exact ⟨[], rfl, rfl, nofun⟩
  | cons a as ih =>
    obtain ⟨_, rfl, _, ⟨us, hus, vs, hvs, rfl⟩, rfl⟩ := h
    obtain ⟨xs, rfl, hvalues, hxs⟩ := ih hvs
    refine ⟨⟨us, g a⟩ :: xs, rfl, congrArg _ hvalues, fun x hx => ?_⟩
    rcases List.mem_cons.1 hx with rfl | hx
    · exact hus
    · exact hxs x hx

namespace Parser

variable {f : FileId} {s : ParserState} {levels : Levels} {opener : Span}

/-- Reading items adds to those before, and uses up the tokens of the new ones with their commas. -/
theorem reads_moreItemsFrom {α : Type} {item : Parser α} {P : α → Prop} {L : α → Language Token}
    (hitem : item.Reads f P L) (ls : List Lexeme) (acc : List α) (hs : s.Ready f) :
    (moreItemsFrom item ls acc).Meets s fun bs s' =>
      ∃ as, bs = acc.reverse ++ as ∧ s.Reads f (Phrase.listed L as) s' ∧
        (ls ≠ [] → s.begins (· == .punctuation .comma) = true → as ≠ []) := by
  induction ls generalizing acc s with
  | nil => exact .pure ⟨[], (List.append_nil _).symm, .nil hs rfl, nofun⟩
  | cons l ls ih =>
    refine .bind (meets_token? hs.toPlaced (fun _ s₁ _ h₁ => ?_) fun hnone => ?_)
    · refine .bind ((hitem s₁ h₁.ready).mono fun a s₂ ⟨_, h₂⟩ => ?_)
      refine (ih (a :: acc) h₂.ready).mono ?_
      rintro _ s₃ ⟨as, rfl, h₃, -⟩
      exact ⟨a :: as, by simp, h₁.trans (h₂.trans h₃), nofun⟩
    · refine .pure ⟨[], (List.append_nil _).symm, .nil hs rfl, fun _ hsome => ?_⟩
      cases hnone.symm.trans hsome

/-- If there is a comma then there are more items. -/
theorem reads_moreItems {α : Type} {item : Parser α} {P : α → Prop} {L : α → Language Token}
    (hitem : item.Reads f P L) (hs : s.Ready f) :
    (moreItems item).Meets s fun as s' => s.Reads f (Phrase.listed L as) s' ∧
      (s.begins (· == .punctuation .comma) = true → as ≠ []) := by
  refine .bind (.get ((reads_moreItemsFrom hitem s.rest [] hs).mono ?_))
  rintro _ s' ⟨as, rfl, h, hne⟩
  refine ⟨h, fun hcomma => hne ?_ hcomma⟩
  intro hrest
  cases (ParserState.begins_nil hrest).symm.trans hcomma

end Parser

/-! ## Levels -/

/-- The token lists that derive from a nonterminal and stand for a written type. -/
def TypeExpr.phrases (k : TypeSort) (t : TypeExpr) : Language Token :=
  {ts | Derives k ts t.unplaced}

/-- The token lists that derive from a nonterminal and stand for an expression. -/
def Expr.phrases (k : ExprSort) (e : Expr) : Language Token := {ts | Derives k ts e.unplaced}

/-- The token lists that stand for a binder. -/
def Binder.phrases (b : Binder) : Language Token := {ts | Derives ts b.unplaced}

/-- A parser of types of a file. -/
def Parser.ReadsType (f : FileId) (k : TypeSort) (q : Parser TypeExpr) : Prop :=
  q.Reads f (·.span.file = f) (TypeExpr.phrases k)

/-- A parser of expressions of a file. -/
def Parser.ReadsExpr (f : FileId) (k : ExprSort) (q : Parser Expr) : Prop :=
  q.Reads f (·.span.file = f) (Expr.phrases k)

/-- The parsers of all levels read what they should. -/
def Levels.Read (f : FileId) (levels : Levels) : Prop :=
  ∀ l ∈ levels, l.expr.ReadsExpr f .expr ∧ l.type.ReadsType f .type

namespace Levels

variable {f : FileId} {levels levels' : Levels}

theorem Read.of_suffix (h : levels.Read f) (hsuffix : levels' <:+ levels) : levels'.Read f :=
  fun l hl => h l (hsuffix.subset hl)

theorem Read.tail {l : Level} (h : Levels.Read f (l :: levels)) : levels.Read f :=
  h.of_suffix (List.suffix_cons ..)

/-- On the next level an expression is read, and without a level the parser gives up. -/
theorem Read.expr (h : levels.Read f) : levels.expr.ReadsExpr f .expr := by
  cases levels with
  | cons l levels => exact (h l (List.mem_cons_self ..)).1
  | nil =>
    intro s hs
    refine .bind (Parser.meets_giveUp hs fun s₁ h₁ hreported => ?_)
    exact .bind (Parser.meets_here (.pure ⟨h₁.ready.here, h₁.reads hreported⟩))

theorem Read.type (h : levels.Read f) : levels.type.ReadsType f .type := by
  cases levels with
  | cons l levels => exact (h l (List.mem_cons_self ..)).2
  | nil =>
    intro s hs
    refine .bind (Parser.meets_giveUp hs fun s₁ h₁ hreported => ?_)
    exact .bind (Parser.meets_here (.pure ⟨h₁.ready.here, h₁.reads hreported⟩))

end Levels

/-! ## Types and binders -/

namespace Parser

variable {f : FileId} {s : ParserState} {levels : Levels} {opener : Span}

/-- Behind an opening parenthesis there is the rest of a type in parentheses. -/
theorem reads_typeGroup (hl : levels.Read f) (hopener : opener.file = f) :
    (typeGroup levels opener).Reads f (·.span.file = f)
      (fun t => {ts | .punctuation .groupOpen :: ts ∈ t.phrases .base}) := by
  intro s hs
  refine .bind (meets_token? hs.toPlaced (fun closer s₁ hcloser h₁ => ?_) fun _ => ?_)
  · refine .bind (.join hopener hcloser fun span hspan => .pure ⟨hspan, h₁.mono ?_⟩)
    rintro _ rfl
    exact .unit
  · refine .bind ((hl.type s hs).mono fun t s₁ ⟨ht, h₁⟩ => .bind (meets_peek ?_))
    split
    · rename_i hcomma
      refine .bind ((reads_moreItems hl.type h₁.ready).mono fun us s₂ ⟨h₂, hne⟩ => ?_)
      refine .bind (meets_closeGroup h₂.ready fun s₃ h₃ => ?_)
      refine .bind (meets_previous (.bind (.join hopener h₃.ready.previous fun span hspan => ?_)))
      refine .pure ⟨hspan, (h₁.trans (h₂.trans h₃)).mono ?_⟩
      rintro _ ⟨ts, hts, _, ⟨us, hus, _, rfl, rfl⟩, rfl⟩
      obtain ⟨xs, rfl, hvalues, hxs⟩ := Phrase.exists_of_mem_listed hus
      have hne' : xs ≠ [] := by
        rintro rfl
        exact hne hcomma (List.map_eq_nil_iff.1 hvalues.symm)
      have htuple := TypeExpr.Derives.tuple (x := ⟨ts, t.unplaced⟩) hne' hts hxs
      change TypeExpr.Derives .base (_ :: _) (.tuple _ (TypeExpr.unplacedAll (t :: us)))
      simpa [hvalues] using htuple
    · refine .bind (meets_closeGroup h₁.ready fun s₂ h₂ => .pure ⟨ht, (h₁.trans h₂).mono ?_⟩)
      rintro _ ⟨ts, hts, _, rfl, rfl⟩
      exact .group hts

/-- The names of primitive types are those of the table. -/
theorem mem_primitives {x : String} {c : Con} (h : Con.primitive? x = some c) :
    (x, c) ∈ TypeExpr.primitives := by
  unfold Con.primitive? at h
  split at h <;> cases h <;> decide

/-- A name of a primitive type or a group is a type without an arrow. -/
theorem reads_baseType (hl : levels.Read f) : (baseType levels).ReadsType f .base := by
  intro s hs
  refine .bind (meets_accept? hs.toPlaced (fun l s₁ hfile h₁ => ?_) fun _ => ?_)
  · obtain ⟨t, span⟩ := l
    have hreport (p : Problem) : Meets (do report span p; return TypeExpr.invalid span) s₁
        fun t s' => t.span.file = f ∧ s.Reads f (t.phrases .base) s' :=
      .bind (meets_report h₁.ready fun s₂ h₂ hreported =>
        .pure ⟨hfile, (h₁.toOnward.trans h₂).reads hreported⟩)
    cases t with
    | name x =>
      dsimp only
      split
      · rename_i c hc
        refine .pure ⟨hfile, h₁.mono ?_⟩
        rintro _ ⟨rfl, -⟩
        exact .prim (mem_primitives hc)
      · exact hreport _
    | punctuation p =>
      cases p with
      | wildcard =>
        refine .pure ⟨hfile, h₁.mono ?_⟩
        rintro _ ⟨rfl, -⟩
        exact .wildcard
      | groupOpen =>
        refine (reads_typeGroup hl hfile s₁ h₁.ready).mono fun t s₂ ⟨ht, h₂⟩ => ⟨ht, ?_⟩
        refine (h₁.trans h₂).mono ?_
        rintro _ ⟨_, ⟨rfl, -⟩, ts, hts, rfl⟩
        exact hts
      | groupClose | comma | colon | semicolon | equal | arrow => exact hreport _
    | invalid =>
      refine .pure ⟨hfile, h₁.mono ?_⟩
      rintro _ ⟨-, -, hne⟩
      exact absurd rfl hne
    | keyword | operator | int | float | string | bool => exact hreport _
  · refine .bind (meets_here (.bind (meets_report hs fun s₁ h₁ hreported => ?_)))
    exact .pure ⟨hs.here, h₁.reads hreported⟩

/-- A type is one without an arrow, or an arrow between such a type and a type. -/
theorem reads_typeAbove (hl : levels.Read f) : (typeAbove levels).ReadsType f .type := by
  intro s hs
  refine .bind ((reads_baseType hl s hs).mono fun t s₁ ⟨ht, h₁⟩ => ?_)
  refine .bind (meets_token? h₁.ready.toPlaced (fun l s₂ _ h₂ => ?_) fun _ => ?_)
  · refine .bind ((hl.type s₂ h₂.ready).mono fun u s₃ ⟨hu, h₃⟩ => ?_)
    refine .bind (.join ht hu fun span hspan => .pure ⟨hspan, (h₁.trans (h₂.trans h₃)).mono ?_⟩)
    rintro _ ⟨ts, hts, _, ⟨_, rfl, us, hus, rfl⟩, rfl⟩
    exact .fn hts hus
  · exact .pure ⟨ht, h₁.mono fun ts hts => .base hts⟩

/-- A name is read from its token. -/
theorem reads_name : name.Reads f (·.2.file = f) (fun x => {[.name x.1]}) := by
  intro s hs
  refine .bind (meets_accept? hs.toPlaced (fun l s₁ hfile h₁ => ?_) fun _ => ?_)
  · obtain ⟨t, span⟩ := l
    cases t with
    | name x => exact .pure ⟨hfile, h₁.mono fun ts hts => hts.1⟩
    | keyword | punctuation | operator | int | float | string | bool | invalid =>
      refine .pure ⟨hfile, h₁.mono ?_⟩
      rintro _ ⟨-, hname, -⟩
      cases hname
  · refine .bind (meets_here (.bind (meets_report hs fun s₁ h₁ hreported => ?_)))
    exact .pure ⟨hs.here, h₁.reads hreported⟩

/-- A binder is a name with or without an annotation. -/
theorem reads_binder (hl : levels.Read f) :
    (binder levels).Reads f (·.span.file = f) Binder.phrases := by
  intro s hs
  refine .bind ((reads_name s hs).mono fun x s₁ ⟨hx, h₁⟩ => ?_)
  refine .bind (meets_token? h₁.ready.toPlaced (fun l s₂ _ h₂ => ?_) fun _ => ?_)
  · refine .bind ((hl.type s₂ h₂.ready).mono fun t s₃ ⟨_, h₃⟩ => .pure ⟨hx, ?_⟩)
    refine (h₁.trans (h₂.trans h₃)).mono ?_
    rintro _ ⟨_, rfl, _, ⟨_, rfl, ts, hts, rfl⟩, rfl⟩
    exact .annotated x.1 hts
  · refine .pure ⟨hx, h₁.mono ?_⟩
    rintro _ rfl
    exact .plain x.1

/-! ## Chains of operators -/

/-- The items of a list get one level deeper each time. -/
theorem reads_moreBelow {α : Type} {item : Levels → Parser α} {P : α → Prop}
    {L : α → Language Token} (hitem : ∀ levels', levels' <:+ levels → (item levels').Reads f P L)
    (hs : s.Ready f) :
    (moreBelow item levels).Meets s fun r s' => r.2 <:+ levels ∧ (∀ a ∈ r.1, P a) ∧
      s.Reads f (Phrase.listed L r.1) s' := by
  induction levels generalizing s with
  | nil =>
    refine .bind (meets_token? hs.toPlaced (fun _ s₁ _ h₁ => ?_) fun _ => ?_)
    · refine .bind (meets_giveUp h₁.ready fun s₂ h₂ hreported => ?_)
      exact .pure ⟨List.suffix_rfl, nofun, (h₁.toOnward.trans h₂).reads hreported⟩
    · exact .pure ⟨List.suffix_rfl, nofun, .nil hs rfl⟩
  | cons level levels ih =>
    refine .bind (meets_token? hs.toPlaced (fun _ s₁ _ h₁ => ?_) fun _ => ?_)
    · have hlevels := List.suffix_cons level levels
      refine .bind ((hitem levels hlevels s₁ h₁.ready).mono fun a s₂ ⟨ha, h₂⟩ => ?_)
      refine .bind ((ih (fun l hl => hitem l (hl.trans hlevels)) h₂.ready).mono ?_)
      rintro ⟨as, left⟩ s₃ ⟨hleft, has, h₃⟩
      exact .pure ⟨hleft.trans hlevels, List.forall_mem_cons.2 ⟨ha, has⟩, h₁.trans (h₂.trans h₃)⟩
    · exact .pure ⟨List.suffix_rfl, nofun, .nil hs rfl⟩

/-- An applied operator becomes an operation on its operands, in the same file. -/
theorem meets_applyOperator {op : Lexeme} {l r : Expr} {Q : Expr → ParserState → Prop}
    (hop : op.span.file = f) (hl : l.span.file = f) (hr : r.span.file = f)
    (h : ∀ e : Expr, e.span.file = f →
      (∀ o, op.token = .operator o → e.unplaced = .operation o l.unplaced r.unplaced) → Q e s) :
    (applyOperator op l r).Meets s Q := by
  refine .bind (.join hl hop fun inner _ => .bind (.join hl hr fun outer houter => ?_))
  refine .pure (h _ houter fun o ho => ?_)
  rw [ho]
  rfl

/-- An operator is read, and it is one of those that are asked for unless it is invalid. -/
theorem meets_operator? {ops : List Operator} {Q : Option Lexeme → ParserState → Prop}
    (hs : s.Ready f) (hsome : ∀ l s', l.span.file = f →
      s.Reads f {ts | ∃ o ∈ ops, l.token = .operator o ∧ ts = [.operator o]} s' → Q (some l) s')
    (hnone : Q none s) : (operator? ops).Meets s Q := by
  refine meets_accept? hs.toPlaced (fun l s₁ hl h₁ => hsome l s₁ hl (h₁.mono ?_)) fun _ => hnone
  rintro _ ⟨rfl, hops, -⟩
  split at hops
  · rename_i o ho
    exact ⟨o, List.contains_iff_mem.1 hops, ho, by rw [ho]⟩
  · cases hops

/-- The tokens of a chain behind an expression, which it makes a part of another. -/
def chainPhrases (ops : List Operator) (k : ExprSort) (e e' : Expr) : Language Token :=
  {ts | ∃ xs : List (Operator × Phrase Expr), Expr.chainTokens xs = ts ∧ (∀ x ∈ xs, x.1 ∈ ops) ∧
    (∀ x ∈ xs, Expr.Derives k x.2.tokens x.2.value) ∧
    xs.foldl (fun l x => .operation x.1 l x.2.value) e.unplaced = e'.unplaced}

/-- From an operand on, operators and operands are read and grouped to the left. -/
theorem reads_chain {ops : List Operator} {operand : Levels → Parser Expr} {k : ExprSort}
    (hoperand : ∀ levels', levels' <:+ levels → (operand levels').ReadsExpr f k) {e : Expr}
    (he : e.span.file = f) (hs : s.Ready f) :
    (chain ops operand levels e).Meets s fun e' s' => e'.span.file = f ∧
      s.Reads f (chainPhrases ops k e e') s' := by
  induction levels generalizing e s with
  | nil =>
    unfold chain
    refine .bind (meets_operator? hs (fun op s₁ _ h₁ => ?_) ?_)
    · refine .bind (meets_giveUp h₁.ready fun s₂ h₂ hreported => ?_)
      exact .pure ⟨he, (h₁.toOnward.trans h₂).reads hreported⟩
    · exact .pure ⟨he, .nil hs ⟨[], rfl, nofun, nofun, rfl⟩⟩
  | cons level levels ih =>
    have hlevels := List.suffix_cons level levels
    unfold chain
    refine .bind (meets_operator? hs (fun op s₁ hop h₁ => ?_) ?_)
    · refine .bind ((hoperand levels hlevels s₁ h₁.ready).mono fun r s₂ ⟨hr, h₂⟩ => ?_)
      refine .bind (meets_applyOperator hop he hr fun e₁ he₁ hoperation => ?_)
      refine (ih (fun l hl => hoperand l (hl.trans hlevels)) he₁ h₂.ready).mono ?_
      rintro e' s₃ ⟨he', h₃⟩
      refine ⟨he', (h₁.trans (h₂.trans h₃)).mono ?_⟩
      rintro _ ⟨_, ⟨o, ho, htoken, rfl⟩, _, ⟨rs, hrs, _, ⟨xs, rfl, hops, hxs, hfold⟩, rfl⟩, rfl⟩
      refine ⟨(o, ⟨rs, r.unplaced⟩) :: xs, rfl, List.forall_mem_cons.2 ⟨ho, hops⟩,
        List.forall_mem_cons.2 ⟨hrs, hxs⟩, ?_⟩
      rw [List.foldl_cons, ← hfold, hoperation o htoken]
    · exact .pure ⟨he, .nil hs ⟨[], rfl, nofun, nofun, rfl⟩⟩

/-- A chain of one rank is read from the operands of that rank. -/
theorem reads_binary (r : Rank) {operand : Levels → Parser Expr}
    (hoperand : ∀ levels', levels' <:+ levels → (operand levels').ReadsExpr f r.operand) :
    (binary r.operators operand levels).ReadsExpr f (.chain r) := by
  intro s hs
  refine .bind ((hoperand levels List.suffix_rfl s hs).mono fun e s₁ ⟨he, h₁⟩ => ?_)
  refine (reads_chain hoperand he h₁.ready).mono fun e' s₂ ⟨he', h₂⟩ => ⟨he', ?_⟩
  refine (h₁.trans h₂).mono ?_
  rintro _ ⟨ts, hts, _, ⟨xs, rfl, hops, hxs, hfold⟩, rfl⟩
  change Expr.Derives _ _ _
  rw [← hfold]
  exact .chain r hts hops hxs

/-! ## Parentheses and calls -/

/-- Behind an opening parenthesis there is the rest of an expression in parentheses. -/
theorem reads_group (hl : levels.Read f) (hopener : opener.file = f) :
    (group levels opener).Reads f (·.span.file = f)
      (fun e => {ts | .punctuation .groupOpen :: ts ∈ e.phrases .base}) := by
  intro s hs
  refine .bind (meets_token? hs.toPlaced (fun closer s₁ hcloser h₁ => ?_) fun _ => ?_)
  · refine .bind (.join hopener hcloser fun span hspan => .pure ⟨hspan, h₁.mono ?_⟩)
    rintro _ rfl
    exact .unit
  refine .bind ((hl.expr s hs).mono fun e s₁ ⟨he, h₁⟩ => ?_)
  refine .bind (meets_token? h₁.ready.toPlaced (fun _ s₂ _ h₂ => ?_) fun _ => .bind (meets_peek ?_))
  · refine .bind ((hl.type s₂ h₂.ready).mono fun t s₃ ⟨_, h₃⟩ => ?_)
    refine .bind (meets_closeGroup h₃.ready fun s₄ h₄ => ?_)
    refine .bind (meets_previous (.bind (.join hopener h₄.ready.previous fun span hspan => ?_)))
    refine .pure ⟨hspan, (h₁.trans (h₂.trans (h₃.trans h₄))).mono ?_⟩
    rintro _ ⟨es, hes, _, ⟨_, rfl, _, ⟨ts, hts, _, rfl, rfl⟩, rfl⟩, rfl⟩
    change Expr.Derives .base (_ :: _) (.anno .nowhere _ _)
    simpa using Expr.Derives.anno hes hts
  · split
    · rename_i hcomma
      refine .bind ((reads_moreItems hl.expr h₁.ready).mono fun es s₂ ⟨h₂, hne⟩ => ?_)
      refine .bind (meets_closeGroup h₂.ready fun s₃ h₃ => ?_)
      refine .bind (meets_previous (.bind (.join hopener h₃.ready.previous fun span hspan => ?_)))
      refine .pure ⟨hspan, (h₁.trans (h₂.trans h₃)).mono ?_⟩
      rintro _ ⟨ts, hts, _, ⟨us, hus, _, rfl, rfl⟩, rfl⟩
      obtain ⟨xs, rfl, hvalues, hxs⟩ := Phrase.exists_of_mem_listed hus
      have hne' : xs ≠ [] := by
        rintro rfl
        exact hne hcomma (List.map_eq_nil_iff.1 hvalues.symm)
      have htuple := Expr.Derives.tuple (x := ⟨ts, e.unplaced⟩) hne' hts hxs
      change Expr.Derives .base (_ :: _) (.tuple .nowhere (Expr.unplacedAll (e :: es)))
      simpa [hvalues] using htuple
    · refine .bind (meets_closeGroup h₁.ready fun s₂ h₂ => .pure ⟨he, (h₁.trans h₂).mono ?_⟩)
      rintro _ ⟨ts, hts, _, rfl, rfl⟩
      exact .group hts

/-- A literal, a name or a group is an expression without calls. -/
theorem reads_baseExpr (hl : levels.Read f) : (baseExpr levels).ReadsExpr f .base := by
  intro s hs
  refine .bind (meets_accept? hs.toPlaced (fun l s₁ hfile h₁ => ?_) fun _ => ?_)
  · obtain ⟨t, span⟩ := l
    have hreport (p : Problem) : Meets (do report span p; return Expr.invalid (.new span)) s₁
        fun e s' => e.span.file = f ∧ s.Reads f (e.phrases .base) s' :=
      .bind (meets_report h₁.ready fun s₂ h₂ hreported =>
        .pure ⟨hfile, (h₁.toOnward.trans h₂).reads hreported⟩)
    cases t with
    | int n => exact .pure ⟨hfile, h₁.mono fun ts hts => hts.1 ▸ .int n⟩
    | float d => exact .pure ⟨hfile, h₁.mono fun ts hts => hts.1 ▸ .float d⟩
    | string x => exact .pure ⟨hfile, h₁.mono fun ts hts => hts.1 ▸ .string x⟩
    | bool b => exact .pure ⟨hfile, h₁.mono fun ts hts => hts.1 ▸ .bool b⟩
    | name x => exact .pure ⟨hfile, h₁.mono fun ts hts => hts.1 ▸ .name x⟩
    | punctuation p =>
      cases p with
      | groupOpen =>
        refine (reads_group hl hfile s₁ h₁.ready).mono fun e s₂ ⟨he, h₂⟩ => ⟨he, ?_⟩
        refine (h₁.trans h₂).mono ?_
        rintro _ ⟨_, ⟨rfl, -⟩, ts, hts, rfl⟩
        exact hts
      | groupClose | comma | colon | semicolon | equal | arrow | wildcard => exact hreport _
    | invalid =>
      refine .pure ⟨hfile, h₁.mono ?_⟩
      rintro _ ⟨-, -, hne⟩
      exact absurd rfl hne
    | keyword | operator => exact hreport _
  · refine .bind (meets_here (.bind (meets_report hs fun s₁ h₁ hreported => ?_)))
    exact .pure ⟨hs.here, h₁.reads hreported⟩

/-- The tokens behind the opening parenthesis of a call with the arguments. -/
def argumentPhrases (as : List Expr) : Language Token :=
  {ts | ∃ xs : List (Phrase Expr), Expr.argumentTokens xs = .punctuation .groupOpen :: ts ∧
    (∀ x ∈ xs, Expr.Derives .expr x.tokens x.value) ∧
    ∀ g : Expr, g.call (xs.map (·.value)) = (as.map Expr.unplaced).foldl (.app .nowhere) g}

/-- Behind an opening parenthesis there are arguments, each of which uses up a level. -/
theorem reads_arguments (hl : levels.Read f) (hopener : opener.file = f) (hs : s.Ready f) :
    (arguments levels opener).Meets s fun r s' => r.2 <:+ levels ∧ (∀ a ∈ r.1, a.span.file = f) ∧
      s.Reads f (argumentPhrases r.1) s' := by
  refine .bind (meets_token? hs.toPlaced (fun closer s₁ hcloser h₁ => ?_) fun _ => ?_)
  · refine .bind (.join hopener hcloser fun span hspan => .pure ⟨List.suffix_rfl, ?_, h₁.mono ?_⟩)
    · exact List.forall_mem_singleton.2 hspan
    · rintro _ rfl
      exact ⟨[], rfl, nofun, fun _ => rfl⟩
  · refine .bind ((hl.expr s hs).mono fun e s₁ ⟨he, h₁⟩ => ?_)
    have hbelow := reads_moreBelow (fun l hl' => (hl.of_suffix hl').expr) h₁.ready
    refine .bind (hbelow.mono ?_)
    rintro ⟨es, left⟩ s₂ ⟨hleft, hes, h₂⟩
    refine .bind (meets_closeGroup h₂.ready fun s₃ h₃ => ?_)
    refine .pure ⟨hleft, List.forall_mem_cons.2 ⟨he, hes⟩, (h₁.trans (h₂.trans h₃)).mono ?_⟩
    rintro _ ⟨ts, hts, _, ⟨us, hus, _, rfl, rfl⟩, rfl⟩
    obtain ⟨xs, rfl, hvalues, hxs⟩ := Phrase.exists_of_mem_listed hus
    refine ⟨⟨ts, e.unplaced⟩ :: xs, ?_, List.forall_mem_cons.2 ⟨hts, hxs⟩, fun g => ?_⟩
    · simp [Expr.argumentTokens]
    · simp [Expr.call, hvalues]

/-- A row of calls applies a function to all arguments in order. -/
theorem meets_applyAll {close : Span} {e : Expr} {as : List Expr} {Q : Expr → ParserState → Prop}
    (hclose : close.file = f) (he : e.span.file = f) (has : ∀ a ∈ as, a.span.file = f)
    (h : ∀ e' : Expr, e'.span.file = f →
      e'.unplaced = (as.map Expr.unplaced).foldl (.app .nowhere) e.unplaced → Q e' s) :
    (applyAll close e as).Meets s Q := by
  induction as generalizing e with
  | nil => exact .pure (h e he rfl)
  | cons a as ih =>
    obtain ⟨ha, has⟩ := List.forall_mem_cons.1 has
    refine .bind (.join he ha fun x hx => .bind (.join hx hclose fun span hspan => ?_))
    exact ih hspan has h

/-- The tokens of calls of an expression, which they make a part of another. -/
def callPhrases (e e' : Expr) : Language Token :=
  {ts | ∃ calls : List (List (Phrase Expr)), calls.flatMap Expr.argumentTokens = ts ∧
    (∀ xs ∈ calls, ∀ x ∈ xs, Expr.Derives .expr x.tokens x.value) ∧
    calls.foldl (fun g xs => g.call (xs.map (·.value))) e.unplaced = e'.unplaced}

theorem nil_mem_callPhrases (e : Expr) : [] ∈ callPhrases e e := ⟨[], rfl, nofun, rfl⟩

/-- Calls are read one after the other, each of them applied to the next arguments. -/
theorem reads_callsFrom (hl : levels.Read f) (n : Nat) {e : Expr} (he : e.span.file = f)
    (hs : s.Ready f) :
    (callsFrom n levels e).Meets s fun e' s' =>
      e'.span.file = f ∧ s.Reads f (callPhrases e e') s' := by
  induction n generalizing levels e s with
  | zero =>
    unfold callsFrom
    refine .bind (meets_token? hs.toPlaced (fun _ s₁ _ h₁ => ?_) fun _ => ?_)
    · refine .bind (meets_giveUp h₁.ready fun s₂ h₂ hreported => ?_)
      exact .pure ⟨he, (h₁.toOnward.trans h₂).reads hreported⟩
    · exact .pure ⟨he, .nil hs (nil_mem_callPhrases e)⟩
  | succ n ih =>
    unfold callsFrom
    refine .bind (meets_token? hs.toPlaced (fun opener s₁ hopener h₁ => ?_) fun _ => ?_)
    · cases levels with
      | nil =>
        refine .bind (meets_giveUp h₁.ready fun s₂ h₂ hreported => ?_)
        exact .pure ⟨he, (h₁.toOnward.trans h₂).reads hreported⟩
      | cons level levels =>
        refine .bind ((reads_arguments hl.tail hopener h₁.ready).mono ?_)
        rintro ⟨as, left⟩ s₂ ⟨hleft, has, h₂⟩
        refine .bind (meets_previous (.bind ?_))
        refine meets_applyAll h₂.ready.previous he has fun e₁ he₁ hcall => ?_
        refine (ih (hl.tail.of_suffix hleft) he₁ h₂.ready).mono fun e' s₃ ⟨he', h₃⟩ => ⟨he', ?_⟩
        refine (h₁.trans (h₂.trans h₃)).mono ?_
        rintro _ ⟨_, rfl, _, ⟨us, ⟨xs, hus, hxs, hcalled⟩, _, hvs, rfl⟩, rfl⟩
        obtain ⟨calls, rfl, hcalls, hfold⟩ := hvs
        refine ⟨xs :: calls, ?_, List.forall_mem_cons.2 ⟨hxs, hcalls⟩, ?_⟩
        · rw [List.flatMap_cons, hus]
          rfl
        · rw [List.foldl_cons, ← hfold, hcall, hcalled]
    · exact .pure ⟨he, .nil hs (nil_mem_callPhrases e)⟩

/-- A call is an expression without calls and the arguments behind it. -/
theorem reads_callExpr (hl : levels.Read f) : (callExpr levels).ReadsExpr f .call := by
  intro s hs
  refine .bind ((reads_baseExpr hl s hs).mono fun e s₁ ⟨he, h₁⟩ => ?_)
  refine (reads_callsFrom hl _ he h₁.ready).mono fun e' s₂ ⟨he', h₂⟩ => ⟨he', ?_⟩
  refine (h₁.trans h₂).mono ?_
  rintro _ ⟨ts, hts, _, ⟨calls, rfl, hcalls, hfold⟩, rfl⟩
  change Expr.Derives _ _ _
  rw [← hfold]
  exact .call hts hcalls

/-! ## Precedence -/

theorem reads_mulExpr (hl : levels.Read f) : (mulExpr levels).ReadsExpr f (.chain .mul) :=
  reads_binary .mul fun _ h => reads_callExpr (hl.of_suffix h)

theorem reads_addExpr (hl : levels.Read f) : (addExpr levels).ReadsExpr f (.chain .add) :=
  reads_binary .add fun _ h => reads_mulExpr (hl.of_suffix h)

/-- There is at most one comparison, between two sums. -/
theorem reads_cmpExpr (hl : levels.Read f) : (cmpExpr levels).ReadsExpr f .cmp := by
  intro s hs
  refine .bind ((reads_addExpr hl s hs).mono fun l s₁ ⟨hfile, h₁⟩ => ?_)
  refine .bind (meets_operator? h₁.ready (fun op s₂ hop h₂ => ?_) ?_)
  · refine .bind ((reads_addExpr hl s₂ h₂.ready).mono fun r s₃ ⟨hr, h₃⟩ => ?_)
    refine meets_applyOperator hop hfile hr fun e he hoperation => ⟨he, ?_⟩
    refine (h₁.trans (h₂.trans h₃)).mono ?_
    rintro _ ⟨ls, hls, _, ⟨_, ⟨o, ho, htoken, rfl⟩, rs, hrs, rfl⟩, rfl⟩
    change Expr.Derives _ _ _
    rw [hoperation o htoken]
    exact .compared ho hls hrs
  · exact .pure ⟨hfile, h₁.mono fun ts hts => .uncompared hts⟩

theorem reads_andExpr (hl : levels.Read f) : (andExpr levels).ReadsExpr f (.chain .and) :=
  reads_binary .and fun _ h => reads_cmpExpr (hl.of_suffix h)

theorem reads_orExpr (hl : levels.Read f) : (orExpr levels).ReadsExpr f (.chain .or) :=
  reads_binary .or fun _ h => reads_andExpr (hl.of_suffix h)

/-! ## Definitions, conditionals and functions -/

/-- Behind its keyword there is the rest of a local definition. -/
theorem reads_letExpr (hl : levels.Read f) (hopener : opener.file = f) :
    (letExpr levels opener).Reads f (·.span.file = f)
      (fun e => {ts | .keyword .letWord :: ts ∈ e.phrases .expr}) := by
  intro s hs
  refine .bind ((reads_binder hl s hs).mono fun b s₁ ⟨_, h₁⟩ => ?_)
  refine .bind (meets_expect _ h₁.ready fun s₂ h₂ => ?_)
  refine .bind ((hl.expr s₂ h₂.ready).mono fun d s₃ ⟨_, h₃⟩ => ?_)
  refine .bind (meets_expect _ h₃.ready fun s₄ h₄ => ?_)
  refine .bind ((hl.expr s₄ h₄.ready).mono fun e s₅ ⟨he, h₅⟩ => ?_)
  refine .bind (.join hopener he fun span hspan => .pure ⟨hspan, ?_⟩)
  refine (h₁.trans (h₂.trans (h₃.trans (h₄.trans h₅)))).mono ?_
  rintro _ ⟨bs, hbs, _, ⟨_, rfl, _, ⟨ds, hds, _, ⟨_, rfl, es, hes, rfl⟩, rfl⟩, rfl⟩, rfl⟩
  change Expr.Derives .expr (_ :: _) (.letIn .nowhere _ _ _)
  simpa using Expr.Derives.letIn hbs hds hes

/-- Behind its keyword there is the rest of a conditional. -/
theorem reads_ifExpr (hl : levels.Read f) (hopener : opener.file = f) :
    (ifExpr levels opener).Reads f (·.span.file = f)
      (fun e => {ts | .keyword .ifWord :: ts ∈ e.phrases .expr}) := by
  intro s hs
  refine .bind ((hl.expr s hs).mono fun c s₁ ⟨_, h₁⟩ => ?_)
  refine .bind (meets_expect _ h₁.ready fun s₂ h₂ => ?_)
  refine .bind ((hl.expr s₂ h₂.ready).mono fun t s₃ ⟨_, h₃⟩ => ?_)
  refine .bind (meets_expect _ h₃.ready fun s₄ h₄ => ?_)
  refine .bind ((hl.expr s₄ h₄.ready).mono fun e s₅ ⟨he, h₅⟩ => ?_)
  refine .bind (.join hopener he fun span hspan => .pure ⟨hspan, ?_⟩)
  refine (h₁.trans (h₂.trans (h₃.trans (h₄.trans h₅)))).mono ?_
  rintro _ ⟨cs, hcs, _, ⟨_, rfl, _, ⟨ts, hts, _, ⟨_, rfl, es, hes, rfl⟩, rfl⟩, rfl⟩, rfl⟩
  change Expr.Derives .expr (_ :: _) (.cond .nowhere _ _ _)
  simpa using Expr.Derives.cond hcs hts hes

/-- A function of several parameters is made of functions of one. -/
theorem meets_curry {body : Expr} {bs : List Binder} {Q : Expr → ParserState → Prop}
    (hbody : body.span.file = f) (hbs : ∀ b ∈ bs, b.span.file = f)
    (h : ∀ e : Expr, e.span.file = f →
      e.unplaced = .function (bs.map Binder.unplaced) body.unplaced → Q e s) :
    (curry body bs).Meets s Q := by
  induction bs generalizing Q with
  | nil => exact .pure (h body hbody rfl)
  | cons b bs ih =>
    obtain ⟨hb, hbs⟩ := List.forall_mem_cons.1 hbs
    refine .bind (ih hbs fun e he hfunction => .bind (.join hb he fun span hspan => .pure ?_))
    refine h _ hspan ?_
    simp only [Expr.unplaced, hfunction]
    rfl

/-- Behind its keyword there is the rest of a function, with at least one parameter. -/
theorem reads_fnExpr (hl : levels.Read f) (hopener : opener.file = f) :
    (fnExpr levels opener).Reads f (·.span.file = f)
      (fun e => {ts | .keyword .fnWord :: ts ∈ e.phrases .expr}) := by
  intro s hs
  refine .bind (meets_expect _ hs fun s₁ h₁ => ?_)
  refine .bind ((reads_binder hl s₁ h₁.ready).mono fun b s₂ ⟨_, h₂⟩ => ?_)
  have hbelow := reads_moreBelow (fun l hl' => reads_binder (hl.of_suffix hl')) h₂.ready
  refine .bind (hbelow.mono ?_)
  rintro ⟨bs, left⟩ s₃ ⟨hleft, hbs, h₃⟩
  refine .bind (meets_expect _ h₃.ready fun s₄ h₄ => ?_)
  refine .bind (meets_expect _ h₄.ready fun s₅ h₅ => ?_)
  refine .bind (((hl.of_suffix hleft).expr s₅ h₅.ready).mono fun e s₆ ⟨he, h₆⟩ => ?_)
  refine .bind (meets_curry he hbs fun inner hinner hfunction => ?_)
  refine .bind (.join hopener hinner fun span hspan => .pure ⟨hspan, ?_⟩)
  refine (h₁.trans (h₂.trans (h₃.trans (h₄.trans (h₅.trans h₆))))).mono ?_
  rintro _ ⟨_, rfl, _, ⟨ts, hts, _, ⟨us, hus, _, hvs, rfl⟩, rfl⟩, rfl⟩
  obtain ⟨_, rfl, _, ⟨_, rfl, es, hes, rfl⟩, rfl⟩ := hvs
  obtain ⟨ps, rfl, hvalues, hps⟩ := Phrase.exists_of_mem_listed hus
  have hfn := Expr.Derives.fn (p := ⟨ts, b.unplaced⟩) hts hps hes
  change Expr.Derives .expr (_ :: _) (.lam .nowhere b.unplaced inner.unplaced)
  rw [hfunction, ← hvalues]
  simpa [Expr.function] using hfn

/-- An expression is read by the keyword it begins with, or as a chain. -/
theorem reads_exprAbove (hl : levels.Read f) : (exprAbove levels).ReadsExpr f .expr := by
  intro s hs
  refine .bind (meets_token? hs.toPlaced (fun l s₁ hfile h₁ => ?_) fun _ => .bind ?_)
  · refine (reads_letExpr hl hfile s₁ h₁.ready).mono fun e s₂ ⟨he, h₂⟩ => ⟨he, ?_⟩
    exact (h₁.trans h₂).mono fun _ ⟨_, rfl, ts, hts, heq⟩ => heq ▸ hts
  refine meets_token? hs.toPlaced (fun l s₁ hfile h₁ => ?_) fun _ => .bind ?_
  · refine (reads_ifExpr hl hfile s₁ h₁.ready).mono fun e s₂ ⟨he, h₂⟩ => ⟨he, ?_⟩
    exact (h₁.trans h₂).mono fun _ ⟨_, rfl, ts, hts, heq⟩ => heq ▸ hts
  refine meets_token? hs.toPlaced (fun l s₁ hfile h₁ => ?_) fun _ => ?_
  · refine (reads_fnExpr hl hfile s₁ h₁.ready).mono fun e s₂ ⟨he, h₂⟩ => ⟨he, ?_⟩
    exact (h₁.trans h₂).mono fun _ ⟨_, rfl, ts, hts, heq⟩ => heq ▸ hts
  · exact (reads_orExpr hl s hs).mono fun e s₁ ⟨he, h₁⟩ =>
      ⟨he, h₁.mono fun ts hts => .or hts⟩

end Parser

/-- Every number of levels reads expressions and types, by induction. -/
theorem Levels.read_ofDepth (f : FileId) (n : Nat) : (ofDepth n).Read f := by
  induction n with
  | zero => nofun
  | succ n ih =>
    exact List.forall_mem_cons.2 ⟨⟨Parser.reads_exprAbove ih, Parser.reads_typeAbove ih⟩, ih⟩

/-! ## Programs -/

/-- The tokens of a declaration behind its keyword. -/
def Decl.phrases (d : Decl) : Language Token :=
  {ts | ∃ bs es, ∃ semicolon : Bool, Binder.Derives bs d.binder.unplaced ∧
    Expr.Derives .expr es d.bound.unplaced ∧
    ts = bs ++ .punctuation .equal :: es ++
      (if semicolon then [.punctuation .semicolon] else [])}

namespace Parser

variable {f : FileId} {s : ParserState} {opener : Span}

/-- Behind its keyword there is the rest of a declaration. -/
theorem reads_decl (hopener : opener.file = f) :
    (decl opener).Reads f (fun _ => True) Decl.phrases := by
  intro s hs
  have hlevels := Levels.read_ofDepth f maxDepth
  refine .bind ((reads_binder hlevels s hs).mono fun b s₁ ⟨_, h₁⟩ => ?_)
  refine .bind (meets_expect _ h₁.ready fun s₂ h₂ => ?_)
  refine .bind ((hlevels.expr s₂ h₂.ready).mono fun e s₃ ⟨he, h₃⟩ => ?_)
  have h := h₁.trans (h₂.trans h₃)
  refine .bind (meets_token? h₃.ready.toPlaced (fun _ s₄ _ h₄ => ?_) fun _ => ?_)
  · refine .bind (.join hopener he fun span _ => .pure ⟨trivial, (h.trans h₄).mono ?_⟩)
    rintro _ ⟨_, ⟨bs, hbs, _, ⟨_, rfl, es, hes, rfl⟩, rfl⟩, _, rfl, rfl⟩
    exact ⟨bs, es, true, hbs, hes, rfl⟩
  · refine .bind (.join hopener he fun span _ => .pure ⟨trivial, h.mono ?_⟩)
    rintro _ ⟨bs, hbs, _, ⟨_, rfl, es, hes, rfl⟩, rfl⟩
    exact ⟨bs, es, false, hbs, hes, (List.append_nil _).symm⟩

/-- With a step for each lexeme, a parser that has nothing to report has read a program. -/
theorem reads_declsFrom (n : Nat) (acc : List Decl) (hs : s.Placed f) :
    (declsFrom n acc).Meets s fun p s' => ∃ ds : List Decl, p = acc.reverse ++ ds ∧
      s.reported <:+ s'.reported ∧
      (s.rest.length ≤ n → (∀ l ∈ s.rest, l.token ≠ .invalid) → s'.reported = [] →
        Program.Derives s.tokens (Program.unplaced ds)) := by
  induction n generalizing acc s with
  | zero =>
    refine .pure ⟨[], (List.append_nil _).symm, List.suffix_rfl, fun hlength _ _ => ?_⟩
    rw [ParserState.tokens, List.eq_nil_of_length_eq_zero (Nat.le_zero.1 hlength)]
    exact .nil
  | succ n ih =>
    refine .bind (meets_token? hs (fun l s₁ hl h₁ => ?_) fun _ => .bind (.get ?_))
    · refine .bind ((reads_decl hl s₁ h₁.ready).mono ?_)
      rintro d s₂ ⟨-, h₂⟩
      refine (ih (d :: acc) h₂.ready.toPlaced).mono ?_
      rintro _ s₃ ⟨ds, rfl, h₃, hprogram⟩
      have h := h₁.trans h₂
      refine ⟨d :: ds, by simp, h.reported.trans h₃, fun hlength hvalid hclean => ?_⟩
      have hclean₂ : s₂.reported = [] := List.suffix_nil.1 (hclean ▸ h₃)
      obtain ⟨_, ⟨_, rfl, _, ⟨bs, es, semicolon, hbs, hes, rfl⟩, rfl⟩, htokens⟩ :=
        h.text hvalid hclean₂
      have hlength₂ : s₂.rest.length ≤ n := by
        have hsum := congrArg List.length htokens
        simp only [ParserState.tokens, List.length_map, List.length_append,
          List.length_cons] at hsum
        omega
      have hds := hprogram hlength₂ (fun l hl => hvalid l (h.rest.subset hl)) hclean
      rw [htokens]
      have hcons := Program.Derives.cons hbs hes semicolon hds
      simpa [Program.unplaced, Decl.unplaced] using hcons
    · split
      · rename_i hrest
        refine .pure ⟨[], (List.append_nil _).symm, List.suffix_rfl, fun _ _ _ => ?_⟩
        rw [ParserState.tokens, hrest]
        exact .nil
      · -- What is no declaration is reported, so it does not matter what was read.
        rename_i l ls _
        have hskip := hs.skipWhile fun l => !beginsDecl l
        obtain ⟨hplaced, hreported⟩ := hskip.report l.span .expectedDeclaration
        have hsuffix := ParserState.reported_suffix_report (s.skipWhile fun l => !beginsDecl l)
          l.span .expectedDeclaration
        refine .bind (.modify (.bind (.modify ((ih acc hplaced).mono ?_))))
        rintro p s' ⟨ds, hp, h', -⟩
        refine ⟨ds, hp, hsuffix.trans h', fun _ _ hclean => ?_⟩
        exact absurd (List.suffix_nil.1 (hclean ▸ h')) hreported

end Parser

end LetPoly
