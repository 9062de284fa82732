import LetPoly.Proofs.Recognition

/-!
# Accepting programs

An expression is continued by a call, or by an operator that binds at most as loosely as the
expression may.  If it is not continued then the parser of its nonterminal finds its tree.  With the
declarations this makes the parser of programs accept exactly the grammar.
-/

namespace LetPoly

/-! ## Expressions -/

/-- How loosely an operator binds. -/
def Operator.looseness : Operator → Nat
  | times | divide => 1
  | plus | minus | append => 2
  | equals | notEquals | less | lessEqual | greater | greaterEqual => 3
  | and => 4
  | or => 5

/-- How loosely the operators of a phrase may bind. -/
def ExprSort.looseness : ExprSort → Nat
  | base | call => 0
  | chain .mul => 1
  | chain .add => 2
  | cmp => 3
  | chain .and => 4
  | chain .or | expr => 5

/-- Whether a token behind an expression makes it longer. -/
def ExprSort.continuedBy (k : ExprSort) : Token → Bool
  | .punctuation .groupOpen => k != .base
  | .operator o => o.looseness ≤ k.looseness
  | _ => false

/-- Whether an expression can begin with a token. -/
def ExprSort.startedBy (k : ExprSort) : Token → Bool
  | .keyword .letWord | .keyword .ifWord | .keyword .fnWord => k == .expr
  | .int _ | .float _ | .string _ | .bool _ | .name _ | .punctuation .groupOpen => true
  | _ => false

/-- The parser of a nonterminal. -/
def ExprSort.parser : ExprSort → Levels → Parser Expr
  | expr => Parser.exprAbove
  | chain .or => Parser.orExpr
  | chain .and => Parser.andExpr
  | cmp => Parser.cmpExpr
  | chain .add => Parser.addExpr
  | chain .mul => Parser.mulExpr
  | call => Parser.callExpr
  | base => Parser.baseExpr

/-- The levels that are left are those of some depth. -/
theorem Levels.eq_ofDepth_of_suffix {levels : Levels} {n : Nat} (h : levels <:+ ofDepth n) :
    ∃ m ≤ n, levels = ofDepth m := by
  induction n with
  | zero => exact ⟨0, le_rfl, List.suffix_nil.1 h⟩
  | succ n ih =>
    rcases List.suffix_cons_iff.1 h with heq | h
    · exact ⟨n + 1, le_rfl, heq⟩
    · obtain ⟨m, hm, heq⟩ := ih h
      exact ⟨m, hm.trans n.le_succ, heq⟩

namespace Rank

theorem looseness_of_mem (r : Rank) :
    ∀ o ∈ r.operators, o.looseness = (ExprSort.chain r).looseness := by
  cases r <;> decide

theorem looseness_operand (r : Rank) : r.operand.looseness < (ExprSort.chain r).looseness := by
  cases r <;> decide

theorem parser_eq (r : Rank) (levels : Levels) :
    (ExprSort.chain r).parser levels = Parser.binary r.operators r.operand.parser levels := by
  cases r <;> rfl

end Rank

/-- What does not continue a phrase does not continue a tighter one. -/
theorem Stops.tighter {k k' : ExprSort} {ts : List Token} (h : Stops k.continuedBy ts)
    (hk : k ≠ .base) (hle : k'.looseness ≤ k.looseness) : Stops k'.continuedBy ts := by
  refine h.mono fun t ht => ?_
  unfold ExprSort.continuedBy at ht ⊢
  split at ht
  · simpa using hk
  · exact decide_eq_true ((of_decide_eq_true ht).trans hle)
  · cases ht

namespace Parser

open LetPoly.ParserState

variable {f : FileId} {total n m : Nat} {ts : List Token} {s : ParserState} {ops : List Operator}
  {Q : Option Lexeme → ParserState → Prop}

/-- No operator is read where what follows cannot continue the expression. -/
theorem meets_operator?_stops {k : ExprSort} (hs : s.At f total n ts)
    (hstops : Stops k.continuedBy ts) (hops : ∀ o ∈ ops, o.looseness ≤ k.looseness)
    (h : Q none s) : (operator? ops).Meets s Q := by
  refine meets_accept?_stops hs (hstops.mono fun t ht => ?_) h
  split at ht
  · exact decide_eq_true (hops _ (List.contains_iff_mem.1 ht))
  · cases ht

/-- An operator of the rank is read, if the parser has not lost its way. -/
theorem meets_operator?_at {o : Operator} (hs : s.At f total n (.operator o :: ts)) (ho : o ∈ ops)
    (hm : n ≤ m + 1)
    (hsome : ∀ l s', l.token = .operator o → l.span.file = f → s.Finds f total m ts True s' →
      Q (some l) s') (hnone : s.Lost total → Q none s) : (operator? ops).Meets s Q :=
  meets_accept?_at hs (List.contains_iff_mem.2 ho) hm hsome hnone

end Parser

namespace Expr

open LetPoly.ParserState LetPoly.Parser

variable {f : FileId} {total n : Nat} {k : ExprSort} {ts rest : List Token} {e : Expr}
  {s : ParserState}

/-- Whatever begins a tighter expression begins every expression. -/
theorem startedBy_of_ne {k' : ExprSort} {t : Token} (hk : k ≠ .expr) (h : k.startedBy t = true) :
    k'.startedBy t = true := by
  unfold ExprSort.startedBy at h ⊢
  split at h
  case h_10 => cases h
  all_goals first | rfl | exact absurd (beq_iff_eq.1 h) hk

/-- An expression begins with a token, which can begin one of its sort. -/
theorem Derives.starts (h : Derives k ts e) : ∃ x us, ts = x :: us ∧ k.startedBy x = true := by
  induction h with
  | letIn | cond | fn => exact ⟨_, _, rfl, rfl⟩
  | or _ ih =>
    obtain ⟨x, us, rfl, hx⟩ := ih
    exact ⟨x, us, rfl, startedBy_of_ne (k := .chain .or) nofun hx⟩
  | uncompared _ ih => exact ih
  | chain r _ _ _ ih _ =>
    obtain ⟨x, us, rfl, hx⟩ := ih
    exact ⟨x, _, rfl, startedBy_of_ne (by cases r <;> nofun) hx⟩
  | compared _ _ _ ih _ =>
    obtain ⟨x, us, rfl, hx⟩ := ih
    exact ⟨x, _, rfl, hx⟩
  | call _ _ ih _ =>
    obtain ⟨x, us, rfl, hx⟩ := ih
    exact ⟨x, _, rfl, hx⟩
  | int | float | string | bool | name | unit | group | anno | tuple => exact ⟨_, _, rfl, rfl⟩

/-- So what cannot begin an expression of the sort does not follow where one does. -/
theorem Derives.stops (h : Derives k ts e) {u : Token} (hu : k.startedBy u = false) :
    Stops (· == u) (ts ++ rest) := by
  obtain ⟨x, us, rfl, hx⟩ := h.starts
  refine .of_ne ?_ ?_ <;> rintro rfl
  · cases hx
  · cases hu.symm.trans hx

/-- The parser finds an expression in the tokens.  The first of them is for the level of the
expression. -/
def Recognized (f : FileId) (total : Nat) (k : ExprSort) (ts : List Token) (e : Expr) : Prop :=
  ∀ n s rest, s.At f total (n + 1) (ts ++ rest) → Stops k.continuedBy rest →
    (k.parser (.ofDepth n)).Meets s fun a s' =>
      a.span.file = f ∧ s.Finds f total n rest (a.unplaced = e) s'

/-- The parser of a sort reads expressions of that sort. -/
theorem parser_reads (k : ExprSort) {levels : Levels} (hl : levels.Read f) :
    (k.parser levels).ReadsExpr f k :=
  match k with
  | .expr => reads_exprAbove hl
  | .chain .or => reads_orExpr hl
  | .chain .and => reads_andExpr hl
  | .cmp => reads_cmpExpr hl
  | .chain .add => reads_addExpr hl
  | .chain .mul => reads_mulExpr hl
  | .call => reads_callExpr hl
  | .base => reads_baseExpr hl

/-- It is enough to look at a parser that goes on. -/
theorem Recognized.of_clear (h : ∀ n s rest, s.At f total (n + 1) (ts ++ rest) →
    s.Clear total (n + 1) (ts ++ rest) → Stops k.continuedBy rest →
    (k.parser (.ofDepth n)).Meets s fun a s' =>
      a.span.file = f ∧ s.Finds f total n rest (a.unplaced = e) s') : Recognized f total k ts e :=
  fun n s rest hs hrest => meets_at hs (parser_reads k (Levels.read_ofDepth f n)) fun hclear =>
    h n s rest hs hclear hrest

/-- An expression in another one is recognized on a level below. -/
theorem Recognized.nested (h : Recognized f total .expr ts e) (hs : s.At f total n (ts ++ rest))
    (hrest : Stops ExprSort.expr.continuedBy rest) :
    (Levels.ofDepth n).expr.Meets s fun a s' =>
      a.span.file = f ∧ s.Finds f total n rest (a.unplaced = e) s' := by
  cases n with
  | zero =>
    refine .bind (meets_giveUp_at hs fun s' hready hlost => .bind (meets_here (.pure ?_)))
    exact ⟨hready.here, hlost.finds hready⟩
  | succ n =>
    refine (h n s rest hs hrest).mono fun a s' ⟨ha, h'⟩ => ⟨ha, h'.mono n.le_succ id⟩

theorem Recognized.item {x : Phrase Expr} (h : Recognized f total .expr x.tokens x.value)
    (n : Nat) : (Levels.ofDepth n).expr.FindsItem f total n (·.span.file = f) unplaced x :=
  fun _ _ hrest hs => h.nested hs (hrest.stops rfl rfl)

/-! ### Literals, names and parentheses -/

/-- The expression that a token alone stands for. -/
def word? : Token → Option Expr
  | .int n => some (.lit .nowhere (.int n))
  | .float d => some (.lit .nowhere (.float d))
  | .string x => some (.lit .nowhere (.string x))
  | .bool b => some (.lit .nowhere (.bool b))
  | .name x => some (.name .nowhere x)
  | _ => none

/-- A literal or a name is recognized by its token. -/
theorem recognized_word {t : Token} (h : word? t = some e) : Recognized f total .base [t] e := by
  refine .of_clear fun n s rest hs hclear _ => ?_
  refine .bind (meets_accept?_clear hclear hs.ready.toPlaced ?_ le_rfl ?_)
  · simp [Token.fits]
  rintro ⟨t, span⟩ s' rfl hfile h'
  cases t with
  | int | float | string | bool | name =>
    cases h
    exact .pure ⟨hfile, h'.mono le_rfl fun _ => rfl⟩
  | keyword | punctuation | operator | invalid => cases h

/-- A parenthesis opens a group. -/
theorem recognized_of_group (h : ∀ n s rest opener, opener.file = f → s.At f total n (ts ++ rest) →
    s.Clear total n (ts ++ rest) → (group (.ofDepth n) opener).Meets s fun a s' =>
      a.span.file = f ∧ s.Finds f total n rest (a.unplaced = e) s') :
    Recognized f total .base (.punctuation .groupOpen :: ts) e := by
  refine .of_clear fun n s rest hs hclear _ => ?_
  refine .bind (meets_accept?_clear hclear hs.ready.toPlaced rfl le_rfl ?_)
  rintro ⟨_, span⟩ s₁ rfl hfile h₁
  have hreads := reads_group (Levels.read_ofDepth f n) hfile
  refine (meets_at h₁.toAt hreads (h n s₁ rest span hfile h₁.toAt)).mono fun a s₂ ⟨ha, h₂⟩ => ?_
  exact ⟨ha, (h₁.trans h₂).mono le_rfl And.right⟩

/-- The unit value is recognized. -/
theorem recognized_unit :
    Recognized f total .base [.punctuation .groupOpen, .punctuation .groupClose]
      (.lit .nowhere .unit) := by
  refine recognized_of_group fun n s rest opener hopener hs hclear => ?_
  refine .bind (meets_accept?_clear hclear hs.ready.toPlaced rfl n.le_succ ?_)
  intro l s₁ _ hfile h₁
  exact .bind (.join hopener hfile fun span hspan => .pure ⟨hspan, h₁.mono le_rfl fun _ => rfl⟩)

/-- An expression in parentheses is recognized as the expression. -/
theorem recognized_group (h : Derives .expr ts e) (hrecognized : Recognized f total .expr ts e) :
    Recognized f total .base (.punctuation .groupOpen :: ts ++ [.punctuation .groupClose]) e := by
  rw [List.cons_append]
  refine recognized_of_group fun n s rest opener hopener hs _ => ?_
  rw [List.append_assoc, List.singleton_append] at hs
  refine .bind (meets_accept?_stops hs (h.stops rfl) (.bind ?_))
  refine (hrecognized.nested hs (.cons rfl)).mono fun a s₁ ⟨ha, h₁⟩ => ?_
  refine .bind (meets_accept?_stops h₁.toAt (.cons rfl) (.bind (meets_peek ?_)))
  rw [begins_of_stops h₁.toAt (.cons rfl)]
  refine .bind (meets_closeGroup_at h₁.toAt fun s₂ h₂ => .pure ⟨ha, ?_⟩)
  exact (h₁.trans h₂).mono le_rfl And.left

/-- An annotated expression is recognized, in parentheses. -/
theorem recognized_anno {es : List Token} {t : TypeExpr} (h : Derives .expr es e)
    (he : Recognized f total .expr es e) (ht : TypeExpr.Recognized f total .type ts t) :
    Recognized f total .base
      (.punctuation .groupOpen :: es ++ .punctuation .colon :: ts ++ [.punctuation .groupClose])
      (.anno .nowhere e t) := by
  rw [List.cons_append, List.cons_append]
  refine recognized_of_group fun n s rest opener hopener hs _ => ?_
  rw [List.append_assoc, List.append_assoc, List.cons_append, List.singleton_append] at hs
  refine .bind (meets_accept?_stops hs (h.stops rfl) (.bind ?_))
  refine (he.nested hs (.cons rfl)).mono fun a s₁ ⟨ha, h₁⟩ => ?_
  refine .bind (meets_token?_at h₁.toAt n.le_succ (fun _ s₂ _ h₂ => ?_) fun hlost => ?_)
  · refine .bind ((ht.nested h₂.toAt (.cons rfl)).mono fun b s₃ ⟨_, h₃⟩ => ?_)
    refine .bind (meets_closeGroup_at h₃.toAt fun s₄ h₄ => .bind (meets_previous (.bind ?_)))
    refine .join hopener h₄.ready.previous fun span hspan => .pure ⟨hspan, ?_⟩
    refine (h₁.trans (h₂.trans (h₃.trans h₄))).mono le_rfl ?_
    rintro ⟨rfl, -, rfl, -⟩
    rfl
  · -- A parser that has given up sees neither the colon nor a comma.
    have hs₁ : s₁.At f total n (.punctuation .groupClose :: rest) := ⟨h₁.ready, .inl hlost⟩
    refine .bind (meets_peek ?_)
    rw [begins_of_stops hs₁ (.cons rfl)]
    exact .bind (meets_closeGroup_at hs₁ fun s₂ h₂ => .pure ⟨ha, h₂.of_lost hlost⟩)

/-- A tuple is recognized, which has at least two elements. -/
theorem recognized_tuple {x : Phrase Expr} {xs : List (Phrase Expr)} (hne : xs ≠ [])
    (h : Derives .expr x.tokens x.value) (hx : Recognized f total .expr x.tokens x.value)
    (hxs : ∀ y ∈ xs, Recognized f total .expr y.tokens y.value) :
    Recognized f total .base
      (.punctuation .groupOpen :: x.tokens ++ Phrase.commas xs ++ [.punctuation .groupClose])
      (.tuple .nowhere (x.value :: xs.map (·.value))) := by
  rw [List.cons_append, List.cons_append]
  refine recognized_of_group fun n s rest opener hopener hs _ => ?_
  rw [List.append_assoc, List.append_assoc, List.singleton_append] at hs
  refine .bind (meets_accept?_stops hs (h.stops rfl) (.bind ?_))
  refine (hx.item n s _ (delimited_commas xs rest) hs).mono fun a s₁ ⟨ha, h₁⟩ => .bind ?_
  obtain ⟨y, ys, rfl⟩ := List.exists_cons_of_ne_nil hne
  refine meets_accept?_stops h₁.toAt (.cons rfl) (.bind ?_)
  refine meets_peek_at h₁.toAt rfl ?_ fun hlost => ?_
  · have hitem := (Levels.read_ofDepth f n).expr
    refine .bind ((finds_moreItems hitem (fun y hy => (hxs y hy).item n) h₁.toAt).mono ?_)
    intro as s₂ h₂
    refine .bind (meets_closeGroup_at h₂.toAt fun s₃ h₃ => .bind (meets_previous (.bind ?_)))
    refine .join hopener h₃.ready.previous fun span hspan => .pure ⟨hspan, ?_⟩
    refine (h₁.trans (h₂.trans h₃)).mono le_rfl ?_
    rintro ⟨ha, has, -⟩
    simp only [unplaced, unplacedAll_eq_map, List.map_cons, ha, has]
    rfl
  · -- A parser that has given up sees no comma.
    have hs₁ : s₁.At f total n (.punctuation .groupClose :: rest) := ⟨h₁.ready, .inl hlost⟩
    exact .bind (meets_closeGroup_at hs₁ fun s₂ h₂ => .pure ⟨ha, h₂.of_lost hlost⟩)

/-! ### Calls -/

/-- Arguments are found up to the closing parenthesis, and their levels are used up. -/
theorem finds_arguments {xs : List (Phrase Expr)} {opener : Span}
    (h : ∀ x ∈ xs, Derives .expr x.tokens x.value)
    (hxs : ∀ x ∈ xs, Recognized f total .expr x.tokens x.value) (hopener : opener.file = f)
    (hs : s.At f total n ((argumentTokens xs).tail ++ rest)) :
    (arguments (.ofDepth n) opener).Meets s fun r s' => ∃ m ≤ n, r.2 = .ofDepth m ∧
      (∀ a ∈ r.1, a.span.file = f) ∧ s.Finds f total m rest (∀ g : Expr,
        (r.1.map unplaced).foldl (.app .nowhere) g = g.call (xs.map (·.value))) s' := by
  rcases hs.stands with hlost | hclear
  · refine (reads_arguments (Levels.read_ofDepth f n) hopener hs.ready).mono ?_
    rintro ⟨as, left⟩ s₁ ⟨hleft, has, h₁⟩
    obtain ⟨m, hm, hleft⟩ := Levels.eq_ofDepth_of_suffix hleft
    exact ⟨m, hm, hleft, has, (hlost.onward h₁.toOnward).finds h₁.ready⟩
  cases xs with
  | nil =>
    refine .bind (meets_accept?_clear hclear hs.ready.toPlaced rfl n.le_succ ?_)
    intro l s₁ _ hfile h₁
    refine .bind (.join hopener hfile fun span hspan => .pure ?_)
    exact ⟨n, le_rfl, rfl, List.forall_mem_singleton.2 hspan, h₁.mono le_rfl fun _ _ => rfl⟩
  | cons x xs =>
    obtain ⟨hx, hxs⟩ := List.forall_mem_cons.1 hxs
    rw [argumentTokens, List.cons_append, List.cons_append, List.tail_cons, List.append_assoc,
      List.append_assoc, List.singleton_append] at hs
    refine .bind (meets_accept?_stops hs ((h x (List.mem_cons_self ..)).stops rfl) (.bind ?_))
    refine (hx.item n s _ (delimited_commas xs rest) hs).mono ?_
    rintro a s₁ ⟨ha, h₁⟩
    refine .bind ((finds_moreBelow (fun y hy => (hxs y hy).item) h₁.toAt).mono ?_)
    rintro ⟨as, left⟩ s₂ ⟨m, hm, hleft, has, h₂⟩
    refine .bind (meets_closeGroup_at h₂.toAt fun s₃ h₃ => .pure ?_)
    refine ⟨m, hm, hleft, List.forall_mem_cons.2 ⟨ha, has⟩, ?_⟩
    refine (h₁.trans (h₂.trans h₃)).mono le_rfl ?_
    rintro ⟨ha, has, -⟩ g
    simp only [List.map_cons, ha, has]
    rfl

theorem argumentTokens_eq (xs : List (Phrase Expr)) :
    argumentTokens xs = .punctuation .groupOpen :: (argumentTokens xs).tail := by
  cases xs <;> rfl

/-- Each call takes a level, so as many steps as there are levels are enough. -/
theorem finds_callsFrom {calls : List (List (Phrase Expr))} {p : Nat} (hp : n ≤ p)
    (h : ∀ xs ∈ calls, ∀ x ∈ xs, Derives .expr x.tokens x.value)
    (hcalls : ∀ xs ∈ calls, ∀ x ∈ xs, Recognized f total .expr x.tokens x.value)
    (he : e.span.file = f) (hs : s.At f total n (calls.flatMap argumentTokens ++ rest))
    (hrest : Stops ExprSort.call.continuedBy rest) :
    (callsFrom p (.ofDepth n) e).Meets s fun a s' => a.span.file = f ∧ s.Finds f total n rest
      (a.unplaced = calls.foldl (fun g xs => g.call (xs.map (·.value))) e.unplaced) s' := by
  induction calls generalizing n p e s with
  | nil =>
    have hopen : Stops (· == .punctuation .groupOpen) rest := hrest.mono fun t ht => by
      rw [beq_iff_eq.1 ht]
      rfl
    unfold callsFrom
    exact .bind (meets_accept?_stops hs hopen (.pure ⟨he, hs.finds.mono le_rfl fun _ => rfl⟩))
  | cons xs calls ih =>
    obtain ⟨hxs, hcalls⟩ := List.forall_mem_cons.1 hcalls
    obtain ⟨hd, h⟩ := List.forall_mem_cons.1 h
    rw [List.flatMap_cons, argumentTokens_eq, List.cons_append, List.cons_append,
      List.append_assoc] at hs
    unfold callsFrom
    cases n with
    | zero =>
      refine .bind (meets_token?_at hs (Nat.le_succ 0) (fun _ s₁ _ h₁ => ?_) fun hlost => ?_)
      · cases p <;>
          exact .bind (meets_giveUp_at h₁.toAt fun s₂ hready hlost =>
            .pure ⟨he, hlost.finds hready⟩)
      · exact .pure ⟨he, hlost.finds hs.ready⟩
    | succ n =>
      obtain ⟨p, rfl⟩ := Nat.exists_eq_succ_of_ne_zero (Nat.ne_zero_of_lt hp)
      refine .bind (meets_token?_at hs le_rfl (fun l s₁ hfile h₁ => ?_) fun hlost => ?_)
      · refine .bind ((finds_arguments hd hxs hfile h₁.toAt).mono ?_)
        rintro ⟨as, _⟩ s₂ ⟨m, hm, rfl, has, h₂⟩
        refine .bind (meets_previous (.bind ?_))
        refine meets_applyAll h₂.ready.previous he has fun e' he' hcall => ?_
        have hmp : m ≤ p := hm.trans (Nat.le_of_succ_le_succ hp)
        refine (ih hmp h hcalls he' h₂.toAt).mono ?_
        rintro a s₃ ⟨ha, h₃⟩
        refine ⟨ha, (h₁.trans (h₂.trans h₃)).mono (hm.trans n.le_succ) ?_⟩
        rintro ⟨-, hargs, hfold⟩
        rw [hfold, hcall, hargs, List.foldl_cons]
      · exact .pure ⟨he, hlost.finds hs.ready⟩

/-- In front of arguments an expression without calls stops. -/
theorem stops_calls {calls : List (List (Phrase Expr))}
    (hrest : Stops ExprSort.call.continuedBy rest) :
    Stops ExprSort.base.continuedBy (calls.flatMap argumentTokens ++ rest) := by
  cases calls with
  | nil => exact hrest.tighter nofun le_rfl
  | cons xs calls =>
    rw [List.flatMap_cons, argumentTokens_eq]
    exact .cons rfl

/-- An expression with arguments behind it is recognized as the calls of it. -/
theorem recognized_call {calls : List (List (Phrase Expr))} (hbase : Recognized f total .base ts e)
    (h : ∀ xs ∈ calls, ∀ x ∈ xs, Derives .expr x.tokens x.value)
    (hcalls : ∀ xs ∈ calls, ∀ x ∈ xs, Recognized f total .expr x.tokens x.value) :
    Recognized f total .call (ts ++ calls.flatMap argumentTokens)
      (calls.foldl (fun g xs => g.call (xs.map (·.value))) e) := by
  intro n s rest hs hrest
  rw [List.append_assoc] at hs
  refine .bind ((hbase n s _ hs (stops_calls hrest)).mono fun a s₁ ⟨ha, h₁⟩ => ?_)
  rw [Levels.length_ofDepth]
  refine (finds_callsFrom le_rfl h hcalls ha h₁.toAt hrest).mono fun b s₂ ⟨hb, h₂⟩ => ⟨hb, ?_⟩
  refine (h₁.trans h₂).mono le_rfl ?_
  rintro ⟨rfl, hfold⟩
  exact hfold

/-! ### Operators -/

/-- In front of an operator of the rank an operand stops. -/
theorem stops_chain {r : Rank} {xs : List (Operator × Phrase Expr)}
    (hops : ∀ x ∈ xs, x.1 ∈ r.operators) (hrest : Stops (ExprSort.chain r).continuedBy rest) :
    Stops r.operand.continuedBy (chainTokens xs ++ rest) := by
  cases xs with
  | nil => exact hrest.tighter nofun r.looseness_operand.le
  | cons x xs =>
    have hx := r.looseness_of_mem x.1 (hops x (List.mem_cons_self ..))
    refine .cons (decide_eq_false ?_)
    rw [hx]
    exact r.looseness_operand.not_ge

/-- From an operand on, the rest of a chain is found and grouped to the left. -/
theorem finds_chain {r : Rank} {xs : List (Operator × Phrase Expr)}
    (hops : ∀ x ∈ xs, x.1 ∈ r.operators)
    (hxs : ∀ x ∈ xs, Recognized f total r.operand x.2.tokens x.2.value) (he : e.span.file = f)
    (hs : s.At f total n (chainTokens xs ++ rest))
    (hrest : Stops (ExprSort.chain r).continuedBy rest) :
    (chain r.operators r.operand.parser (.ofDepth n) e).Meets s fun a s' =>
      a.span.file = f ∧ s.Finds f total n rest
        (a.unplaced = xs.foldl (fun l x => .operation x.1 l x.2.value) e.unplaced) s' := by
  induction xs generalizing n e s with
  | nil =>
    unfold chain
    refine .bind (meets_operator?_stops hs hrest (fun o ho => (r.looseness_of_mem o ho).le) ?_)
    exact .pure ⟨he, hs.finds.mono le_rfl fun _ => rfl⟩
  | cons x xs ih =>
    obtain ⟨hx, hxs⟩ := List.forall_mem_cons.1 hxs
    obtain ⟨hop, hops⟩ := List.forall_mem_cons.1 hops
    rw [chainTokens_cons_append] at hs
    unfold chain
    cases n with
    | zero =>
      refine .bind (meets_operator?_at hs hop (Nat.le_succ 0) ?_ fun hlost => ?_)
      · intro _ s₁ _ _ h₁
        exact .bind (meets_giveUp_at h₁.toAt fun s₂ hready hlost => .pure ⟨he, hlost.finds hready⟩)
      · exact .pure ⟨he, hlost.finds hs.ready⟩
    | succ n =>
      refine .bind (meets_operator?_at hs hop le_rfl ?_ fun hlost => ?_)
      · -- The operator is the token for the level that it takes, so the operand has one for its own.
        intro op s₁ htoken hfile h₁
        have hs₁ := h₁.toAt.mono n.le_succ
        refine .bind ((hx n s₁ _ hs₁ (stops_chain hops hrest)).mono ?_)
        rintro b s₂ ⟨hb, h₂⟩
        refine .bind (meets_applyOperator hfile he hb fun e' he' hoperation => ?_)
        refine (ih hops hxs he' h₂.toAt).mono ?_
        rintro a s₃ ⟨ha, h₃⟩
        refine ⟨ha, (h₁.trans (h₂.trans h₃)).mono n.le_succ ?_⟩
        rintro ⟨-, hvalue, hfold⟩
        rw [hfold, hoperation x.1 htoken, hvalue, List.foldl_cons]
      · exact .pure ⟨he, hlost.finds hs.ready⟩

/-- A chain of operands is recognized as its operations, from left to right. -/
theorem recognized_chain (r : Rank) {xs : List (Operator × Phrase Expr)}
    (h : Recognized f total r.operand ts e) (hops : ∀ x ∈ xs, x.1 ∈ r.operators)
    (hxs : ∀ x ∈ xs, Recognized f total r.operand x.2.tokens x.2.value) :
    Recognized f total (.chain r) (ts ++ chainTokens xs)
      (xs.foldl (fun l x => .operation x.1 l x.2.value) e) := by
  intro n s rest hs hrest
  rw [List.append_assoc] at hs
  rw [Rank.parser_eq]
  refine .bind ((h n s _ hs (stops_chain hops hrest)).mono fun a s₁ ⟨ha, h₁⟩ => ?_)
  refine (finds_chain hops hxs ha h₁.toAt hrest).mono fun b s₂ ⟨hb, h₂⟩ => ⟨hb, ?_⟩
  refine (h₁.trans h₂).mono le_rfl ?_
  rintro ⟨rfl, hfold⟩
  exact hfold

/-- A chain of sums is recognized without a comparison behind it. -/
theorem recognized_uncompared (h : Recognized f total (.chain .add) ts e) :
    Recognized f total .cmp ts e := by
  intro n s rest hs hrest
  refine .bind ((h n s rest hs (hrest.tighter nofun (by decide))).mono fun a s₁ ⟨ha, h₁⟩ => ?_)
  exact .bind (meets_operator?_stops h₁.toAt hrest (by decide) (.pure ⟨ha, h₁⟩))

/-- A comparison of two chains of sums is recognized. -/
theorem recognized_compared {o : Operator} {ls rs : List Token} {l r : Expr}
    (ho : o ∈ Operator.comparisons) (hl : Recognized f total (.chain .add) ls l)
    (hr : Recognized f total (.chain .add) rs r) :
    Recognized f total .cmp (ls ++ .operator o :: rs) (.operation o l r) := by
  intro n s rest hs hrest
  have hstops : ∀ o ∈ Operator.comparisons,
      (Token.operator o).fits (ExprSort.chain .add).continuedBy = false := by decide
  rw [List.append_assoc, List.cons_append] at hs
  refine .bind ((hl n s _ hs (.cons (hstops o ho))).mono fun a s₁ ⟨ha, h₁⟩ => .bind ?_)
  refine meets_operator?_at h₁.toAt ho n.le_succ (fun op s₂ htoken hfile h₂ => ?_) fun hlost => ?_
  · have hs₂ := h₂.toAt.mono n.le_succ
    refine .bind ((hr n s₂ rest hs₂ (hrest.tighter nofun (by decide))).mono fun b s₃ ⟨hb, h₃⟩ => ?_)
    refine meets_applyOperator hfile ha hb fun e he hoperation => ⟨he, ?_⟩
    refine (h₁.trans (h₂.trans h₃)).mono le_rfl ?_
    rintro ⟨rfl, -, rfl⟩
    exact hoperation o htoken
  · exact .pure ⟨ha, hlost.finds h₁.ready⟩

/-! ### Definitions, conditionals and functions -/

/-- A local definition is recognized if binder, definition and body are. -/
theorem recognized_letIn {bs ds es : List Token} {b : Binder} {d : Expr} (hb : Binder.Derives bs b)
    (hd : Recognized f total .expr ds d) (he : Recognized f total .expr es e) :
    Recognized f total .expr
      (.keyword .letWord :: bs ++ .punctuation .equal :: ds ++ .keyword .inWord :: es)
      (.letIn .nowhere b d e) := by
  refine .of_clear fun n s rest hs hclear hrest => ?_
  refine .bind (meets_accept?_clear hclear hs.ready.toPlaced rfl le_rfl ?_)
  intro l s₁ _ hfile h₁
  have hs₁ := h₁.toAt
  simp only [List.append_eq, List.append_assoc, List.cons_append] at hs₁
  refine .bind ((finds_binder hb hs₁ (.cons rfl) (.cons rfl)).mono fun b' s₂ ⟨_, h₂⟩ => ?_)
  refine .bind (meets_expect_at h₂.toAt fun s₃ h₃ => ?_)
  refine .bind ((hd.nested h₃.toAt (.cons rfl)).mono fun d' s₄ ⟨_, h₄⟩ => ?_)
  refine .bind (meets_expect_at h₄.toAt fun s₅ h₅ => ?_)
  refine .bind ((he.nested h₅.toAt hrest).mono fun e' s₆ ⟨he', h₆⟩ => ?_)
  refine .bind (.join hfile he' fun span hspan => .pure ⟨hspan, ?_⟩)
  refine (h₁.trans (h₂.trans (h₃.trans (h₄.trans (h₅.trans h₆))))).mono le_rfl ?_
  rintro ⟨-, rfl, -, rfl, -, rfl⟩
  rfl

/-- A conditional is recognized if its three parts are. -/
theorem recognized_cond {cs es : List Token} {c t : Expr} (hc : Recognized f total .expr cs c)
    (ht : Recognized f total .expr ts t) (he : Recognized f total .expr es e) :
    Recognized f total .expr
      (.keyword .ifWord :: cs ++ .keyword .thenWord :: ts ++ .keyword .elseWord :: es)
      (.cond .nowhere c t e) := by
  refine .of_clear fun n s rest hs hclear hrest => ?_
  refine .bind (meets_accept?_stops hs (.cons rfl) (.bind ?_))
  refine meets_accept?_clear hclear hs.ready.toPlaced rfl le_rfl ?_
  intro l s₁ _ hfile h₁
  have hs₁ := h₁.toAt
  simp only [List.append_eq, List.append_assoc, List.cons_append] at hs₁
  refine .bind ((hc.nested hs₁ (.cons rfl)).mono fun c' s₂ ⟨_, h₂⟩ => ?_)
  refine .bind (meets_expect_at h₂.toAt fun s₃ h₃ => ?_)
  refine .bind ((ht.nested h₃.toAt (.cons rfl)).mono fun t' s₄ ⟨_, h₄⟩ => ?_)
  refine .bind (meets_expect_at h₄.toAt fun s₅ h₅ => ?_)
  refine .bind ((he.nested h₅.toAt hrest).mono fun e' s₆ ⟨he', h₆⟩ => ?_)
  refine .bind (.join hfile he' fun span hspan => .pure ⟨hspan, ?_⟩)
  refine (h₁.trans (h₂.trans (h₃.trans (h₄.trans (h₅.trans h₆))))).mono le_rfl ?_
  rintro ⟨-, rfl, -, rfl, -, rfl⟩
  rfl

/-- A function is recognized if its parameters and its body are. -/
theorem recognized_fn {p : Phrase Binder} {ps : List (Phrase Binder)} {es : List Token}
    (hp : Binder.Derives p.tokens p.value) (hps : ∀ q ∈ ps, Binder.Derives q.tokens q.value)
    (he : Recognized f total .expr es e) :
    Recognized f total .expr
      (.keyword .fnWord :: .punctuation .groupOpen :: p.tokens ++ Phrase.commas ps ++
        .punctuation .groupClose :: .punctuation .arrow :: es)
      (function (p.value :: ps.map (·.value)) e) := by
  refine .of_clear fun n s rest hs hclear hrest => ?_
  refine .bind (meets_accept?_stops hs (.cons rfl) (.bind ?_))
  refine meets_accept?_stops hs (.cons rfl) (.bind ?_)
  refine meets_accept?_clear hclear hs.ready.toPlaced rfl le_rfl ?_
  intro l s₁ _ hfile h₁
  have hs₁ := h₁.toAt
  simp only [List.append_eq, List.append_assoc, List.cons_append] at hs₁
  refine .bind (meets_expect_at hs₁ fun s₂ h₂ => ?_)
  have hbinder := findsItem_binder hp n s₂ _ (delimited_commas ps _) h₂.toAt
  refine .bind (hbinder.mono fun b s₃ ⟨_, h₃⟩ => ?_)
  refine .bind ((finds_moreBelow (fun q hq => findsItem_binder (hps q hq)) h₃.toAt).mono ?_)
  rintro ⟨bs, _⟩ s₄ ⟨m, hm, rfl, hbs, h₄⟩
  refine .bind (meets_expect_at h₄.toAt fun s₅ h₅ => ?_)
  refine .bind (meets_expect_at h₅.toAt fun s₆ h₆ => ?_)
  refine .bind ((he.nested h₆.toAt hrest).mono fun e' s₇ ⟨he', h₇⟩ => ?_)
  refine .bind (meets_curry he' hbs fun inner hinner hfunction => ?_)
  refine .bind (.join hfile hinner fun span hspan => .pure ⟨hspan, ?_⟩)
  have h := h₁.trans (h₂.trans (h₃.trans (h₄.trans (h₅.trans (h₆.trans h₇)))))
  refine h.mono hm ?_
  rintro ⟨-, -, hb, hvalues, -, -, rfl⟩
  change Expr.lam .nowhere b.unplaced inner.unplaced = _
  rw [hfunction, hvalues, hb]
  rfl

/-- A chain of disjunctions is recognized as an expression. -/
theorem recognized_or (h : Derives (.chain .or) ts e)
    (hrecognized : Recognized f total (.chain .or) ts e) : Recognized f total .expr ts e := by
  intro n s rest hs hrest
  refine .bind (meets_accept?_stops hs (h.stops rfl) (.bind ?_))
  refine meets_accept?_stops hs (h.stops rfl) (.bind ?_)
  refine meets_accept?_stops hs (h.stops rfl) ?_
  exact hrecognized n s rest hs (hrest.tighter nofun le_rfl)

/-- Every expression of the grammar is found. -/
theorem Derives.recognized (h : Derives k ts e) : Recognized f total k ts e := by
  induction h with
  | letIn hb _ _ ihd ihe => exact recognized_letIn hb ihd ihe
  | cond _ _ _ ihc iht ihe => exact recognized_cond ihc iht ihe
  | fn hp hps _ ihe => exact recognized_fn hp hps ihe
  | or h ih => exact recognized_or h ih
  | chain r _ hops _ ih ihxs => exact recognized_chain r ih hops ihxs
  | uncompared _ ih => exact recognized_uncompared ih
  | compared ho _ _ ihl ihr => exact recognized_compared ho ihl ihr
  | call _ hcalls ih ihcalls => exact recognized_call ih hcalls ihcalls
  | int | float | string | bool | name => exact recognized_word rfl
  | unit => exact recognized_unit
  | group h ih => exact recognized_group h ih
  | anno h ht ih => exact recognized_anno h ih ht.recognized
  | tuple hne hx _ ihx ihxs => exact recognized_tuple hne hx ihx ihxs

end Expr

/-! ## Programs -/

namespace Program

open LetPoly.ParserState LetPoly.Parser

variable {f : FileId} {total n : Nat} {ts : List Token} {p : Program} {s : ParserState}

/-- A program is empty or begins with a keyword. -/
theorem Derives.stops (h : Derives ts p) {q : Token → Bool} (hq : q (.keyword .letWord) = false) :
    Stops q ts := by
  cases h with
  | nil => exact .nil q
  | cons => exact .cons hq

/-- A declaration is found, with or without a semicolon behind it. -/
theorem finds_decl {bs es : List Token} {b : Binder} {e : Expr} {opener : Span}
    (hb : Binder.Derives bs b) (he : Expr.Derives .expr es e) (semicolon : Bool)
    (hp : Derives ts p) (hopener : opener.file = f)
    (hs : s.At f total maxDepth (bs ++ .punctuation .equal :: (es ++
      ((if semicolon then [.punctuation .semicolon] else []) ++ ts)))) :
    (decl opener).Meets s fun d s' =>
      s.Finds f total maxDepth ts (d.unplaced = ⟨.nowhere, b, e⟩) s' := by
  have hrest : Stops ExprSort.expr.continuedBy
      ((if semicolon then [.punctuation .semicolon] else []) ++ ts) := by
    cases semicolon with
    | true => exact .cons rfl
    | false => exact hp.stops rfl
  refine .bind ((finds_binder hb hs (.cons rfl) (.cons rfl)).mono fun b' s₁ ⟨_, h₁⟩ => ?_)
  refine .bind (meets_expect_at h₁.toAt fun s₂ h₂ => ?_)
  refine .bind ((he.recognized.nested h₂.toAt hrest).mono fun e' s₃ ⟨he', h₃⟩ => .bind ?_)
  have h := h₁.trans (h₂.trans h₃)
  cases semicolon with
  | true =>
    refine meets_token?_at h₃.toAt (Nat.le_succ _) (fun _ s₄ _ h₄ => ?_) fun hlost => ?_
    · refine .bind (.join hopener he' fun span _ => .pure ((h.trans h₄).mono le_rfl ?_))
      rintro ⟨⟨rfl, -, rfl⟩, -⟩
      rfl
    · exact .bind (.join hopener he' fun span _ => .pure (hlost.finds h₃.ready))
  | false =>
    refine meets_accept?_stops h₃.toAt (hp.stops rfl) ?_
    refine .bind (.join hopener he' fun span _ => .pure (h.mono le_rfl ?_))
    rintro ⟨rfl, -, rfl⟩
    rfl

/-- At the end the declarations so far are all. -/
theorem meets_declsFrom_nil {acc : List Decl} {Q : Program → ParserState → Prop}
    (hrest : s.rest = []) (h : Q acc.reverse s) : (declsFrom n acc).Meets s Q := by
  cases n with
  | zero => exact .pure h
  | succ n =>
    refine .bind ⟨none, s, accept?_nil hrest, .bind (.get ?_)⟩
    rw [hrest]
    exact .pure h

/-- Every program of the grammar is found. -/
theorem Derives.finds (h : Derives ts p) (acc : List Decl) (hn : ts.length ≤ n)
    (hplaced : s.Placed f) (hclear : s.Clear total (maxDepth + 1) ts) :
    (declsFrom n acc).Meets s fun q s' => s'.Lost total ∨
      s'.reported = [] ∧ ∃ ds, q = acc.reverse ++ ds ∧ Program.unplaced ds = p := by
  induction h generalizing n acc s with
  | nil =>
    refine meets_declsFrom_nil (List.map_eq_nil_iff.1 hclear.tokens) (.inr ⟨hclear.reported, ?_⟩)
    exact ⟨[], (List.append_nil _).symm, rfl⟩
  | @cons bs es ts b e p hb he semicolon hp ih =>
    obtain ⟨n, rfl⟩ := Nat.exists_eq_succ_of_ne_zero (Nat.ne_zero_of_lt hn)
    refine .bind (meets_accept?_clear hclear hplaced rfl le_rfl fun l s₁ _ hfile h₁ => ?_)
    have hs₁ := h₁.toAt
    simp only [List.append_eq, List.append_assoc, List.cons_append] at hs₁
    refine .bind ((finds_decl hb he semicolon hp hfile hs₁).mono fun d s₂ h₂ => ?_)
    rcases h₂.stands with hlost | hclear₂
    · exact meets_declsFrom_nil (hlost.rest h₂.ready) (.inl hlost)
    · have hlength : ts.length ≤ n := by
        simp only [List.length_append, List.length_cons, Nat.succ_eq_add_one] at hn
        omega
      refine (ih (d :: acc) hlength h₂.ready.toPlaced (hclear₂.mono (Nat.le_succ _))).mono ?_
      rintro _ s₃ (hlost | ⟨hreported, ds, rfl, hds⟩)
      · exact .inl hlost
      · refine .inr ⟨hreported, d :: ds, by simp, ?_⟩
        obtain ⟨-, hd⟩ := h₂.found hclear₂.gaveUp
        rw [← hd, ← hds]
        rfl

end Program

/-- The parser accepts exactly the programs of the grammar.  If it has nothing to report then the
tokens are a program, and its value is the tree of the program up to places.  For the tokens of a
program it has nothing to report, or nothing but that there are not enough levels, which takes more
tokens than there are levels. -/
theorem parse_accepts_grammar (file f : FileId) (ls : List Lexeme)
    (hvalid : ∀ l ∈ ls, l.token ≠ .invalid) (hfile : ∀ l ∈ ls, l.span.file = f) :
    ∃ p ds, parse file ls = .ok (p, ds) ∧
      (ds = [] → Program.Derives (ls.map (·.token)) p.unplaced) ∧
      ∀ t, Program.Derives (ls.map (·.token)) t →
        ds = [] ∧ p.unplaced = t ∨
        (∃ span, ds = [⟨span, .nestedTooDeeply maxDepth⟩]) ∧ maxDepth < ls.length := by
  let s : ParserState := ⟨ls, none, .origin file, [], false⟩
  have hplaced : s.Placed f := ⟨hfile, nofun⟩
  obtain ⟨p, s', hrun, ds, hp, -, hsound⟩ := Parser.reads_declsFrom ls.length [] hplaced
  obtain rfl : p = ds := hp
  refine ⟨p, s'.reported.reverse, ?_, fun hclean => ?_, fun t ht => ?_⟩
  · simp only [parse]
    rw [hrun]
    rfl
  · exact hsound le_rfl hvalid (List.reverse_eq_nil_iff.1 hclean)
  · -- The first keyword is not read for a level.
    have hclear : s.Clear (ls.length - 1) (maxDepth + 1) (ls.map (·.token)) :=
      ⟨rfl, rfl, rfl, by rw [List.length_map]; omega⟩
    have hlength : (ls.map (·.token)).length ≤ ls.length := (List.length_map _).le
    obtain ⟨_, _, hrun', hrecognized⟩ := ht.finds [] hlength hplaced hclear
    cases hrun.symm.trans hrun'
    rcases hrecognized with hlost | ⟨hreported, es, rfl, hes⟩
    · obtain ⟨span, hspan⟩ := hlost.reported
      have hdeep : maxDepth ≤ ls.length - 1 := hlost.deep
      exact .inr ⟨⟨span, by rw [hspan]; rfl⟩, by unfold maxDepth at hdeep ⊢; omega⟩
    · exact .inl ⟨by rw [hreported]; rfl, hes⟩

/-- The lexemes of `let x = f(1, 2) + 3`. -/
def Program.sumLexemes : List Lexeme :=
  [.keyword .letWord, .name "x", .punctuation .equal, .name "f", .punctuation .groupOpen, .int 1,
    .punctuation .comma, .int 2, .punctuation .groupClose, .operator .plus, .int 3].map
    (⟨·, .nowhere⟩)

/-- The tree of `let x = f(1, 2) + 3`. -/
def Program.sum : Program :=
  [⟨.nowhere, ⟨"x", .nowhere, none, .empty⟩, .operation .plus
    (.call (.name .nowhere "f") [.lit .nowhere (.int 1), .lit .nowhere (.int 2)])
    (.lit .nowhere (.int 3))⟩]

/-- The tokens derive from the grammar as a sum of a call and a number. -/
theorem Program.derives_sum : Program.Derives (sumLexemes.map (·.token)) sum := by
  let int (n : Int) : Phrase Expr := ⟨[.int n], .lit .nowhere (.int n)⟩
  have hint (n : Int) : Expr.Derives (.chain .mul) [.int n] (.lit .nowhere (.int n)) :=
    .of_operand .mul (.of_base (.int n))
  have hargs : ∀ x ∈ [int 1, int 2], Expr.Derives .expr x.tokens x.value :=
    List.forall_mem_cons.2 ⟨.of_sum (.of_operand .add (hint 1)),
      List.forall_mem_singleton.2 (.of_sum (.of_operand .add (hint 2)))⟩
  have hcall := Expr.Derives.call (.name "f") (List.forall_mem_singleton.2 hargs)
  have hthree : ∀ x ∈ [(Operator.plus, int 3)],
      Expr.Derives (.chain .mul) x.2.tokens x.2.value := List.forall_mem_singleton.2 (hint 3)
  have hsum := Expr.Derives.chain .add (.of_operand .mul hcall) (by decide) hthree
  exact .cons (.plain "x") (.of_sum hsum) false .nil

/-- The lexemes of a sum are accepted, and read as the sum. -/
theorem parse_accepts_grammar_sum : (∀ l ∈ Program.sumLexemes, l.token ≠ .invalid) ∧
    (∀ l ∈ Program.sumLexemes, l.span.file = 0) ∧
    ∃ p, parse 0 Program.sumLexemes = .ok (p, []) ∧ p.unplaced = .sum := by
  have hvalid : ∀ l ∈ Program.sumLexemes, l.token ≠ .invalid := by decide
  have hfile : ∀ l ∈ Program.sumLexemes, l.span.file = 0 := by decide
  obtain ⟨p, ds, hparse, -, haccepts⟩ := parse_accepts_grammar 0 0 _ hvalid hfile
  rcases haccepts _ Program.derives_sum with ⟨rfl, hp⟩ | ⟨-, hlong⟩
  · exact ⟨hvalid, hfile, p, hparse, hp⟩
  · exact absurd hlong (by decide)

end LetPoly
