import Mathlib.Data.Nat.Choose.Basic
import Mathlib.Tactic.Ring
import LetPoly.Proofs.Reading

/-!
# How deep trees get

An expression may take `maxDepth` levels.  Each nested expression takes a level, and so does each
link of a chain of operators, calls or arguments.  But the levels of a chain are given back at its
end, and its first operand is parsed with all the levels that the chain has.  So a link counts on
the way to what stands on its right.  It does not count on the way to what stands on its left,
although the tree gets deeper there as well.

There are five kinds of chains, each of which may begin with one of the next kind, and parentheses
lead from the last kind back to the first.  So the height of a tree is not bounded by a multiple of
the limit, but by about `9 / 2` times its square.

A *measure* counts what lies on the way to a leaf, at a cost for each kind of step.  The bound for a
measure follows from its costs alone, so there is one lemma for each parser and all measures.
`parse_depth` has the bounds for levels and for nodes, and `deep_without_report` is about a tree that
is deeper than it may be and that is accepted.
-/

namespace LetPoly

/-! ## Measures of depth -/

/-- The operators that form chains. -/
def Operator.chained : List Operator := [Rank.or, .and, .add, .mul].flatMap Rank.operators

namespace Expr

mutual

/-- The number of nodes on the longest way from the root to a leaf. -/
def height : Expr → Nat
  | lit _ _ => 1
  | name _ _ => 1
  | lam _ _ b => height b + 1
  | app _ f a => max (height f) (height a) + 1
  | letIn _ _ d e => max (height d) (height e) + 1
  | cond _ c t e => max (height c) (max (height t) (height e)) + 1
  | anno _ e _ => height e + 1
  | tuple _ es => heightAll es + 1
  | invalid _ => 1

/-- The largest height in a list. -/
def heightAll : List Expr → Nat
  | [] => 0
  | e :: es => max (height e) (heightAll es)

end

/-- The name is that of an operator that forms chains. -/
def isChained (x : String) : Bool := Operator.chained.any (·.text == x)

/-- The name is that of a comparison, which is no link.  An invalid operator has the empty name. -/
def isComparison (x : String) : Bool := x == "" || Operator.comparisons.any (·.text == x)

mutual

/-- The most levels that a way from the root to a leaf crosses, where a link counts `left` on the
way to what stands on its left.  An argument is a nested expression behind a link.  Parentheses
leave no trace in the tree, and an invalid expression takes no level.  Nor does the unit value,
which is the argument of a call without arguments. -/
def levels (left : Nat) : Expr → Nat
  | lit _ .unit => 0
  | lit _ _ => 1
  | name _ _ => 1
  | lam _ _ b => levels left b + 1
  | app _ (app _ (name _ x) l) r =>
    if isComparison x then max (levels left l) (levels left r)
    else if isChained x then max (levels left l + left) (levels left r + 1)
    else max (max (1 + left) (levels left l + 2) + left) (levels left r + 2)
  | app _ f a => max (levels left f + left) (levels left a + 2)
  | letIn _ _ d e => max (levels left d) (levels left e) + 1
  | cond _ c t e => max (levels left c) (max (levels left t) (levels left e)) + 1
  | anno _ e _ => levels left e + 1
  | tuple _ es => levelsAll left es + 1
  | invalid _ => 0

/-- The most levels in a list. -/
def levelsAll (left : Nat) : List Expr → Nat
  | [] => 0
  | e :: es => max (levels left e) (levelsAll left es)

end

end Expr

/-- What a measure counts besides one for each nested expression and each step to the right. -/
structure Costs where
  /-- An invalid expression. -/
  gap : Nat
  /-- A comparison. -/
  compare : Nat
  /-- A step to the left of an operator of a chain. -/
  chain : Nat
  /-- A step to the left of a call. -/
  call : Nat

/-- The most that a measure can be for an expression with a number of levels. -/
def Costs.bound (c : Costs) : Nat → Nat
  | 0 => c.gap
  | n + 1 => c.bound n + 1 + n * c.call + 4 * (n * c.chain) + c.compare

/-- A measure counts the steps to a leaf, at the given costs. -/
structure Costs.Measures (c : Costs) (μ : Expr → Nat) : Prop where
  invalid : ∀ m, μ (.invalid m) ≤ c.gap
  unit : ∀ m, μ (.lit m .unit) ≤ c.gap
  lit : ∀ m l, μ (.lit m l) ≤ 1
  name : ∀ m x, μ (.name m x) ≤ 1
  lam : ∀ m p b, μ (.lam m p b) ≤ μ b + 1
  letIn : ∀ m b d e, μ (.letIn m b d e) ≤ max (μ d) (μ e) + 1
  cond : ∀ m t y n, μ (.cond m t y n) ≤ max (μ t) (max (μ y) (μ n)) + 1
  anno : ∀ m e t, μ (.anno m e t) ≤ μ e + 1
  tuple : ∀ m es n, (∀ e ∈ es, μ e ≤ n) → μ (.tuple m es) ≤ n + 1
  chained : ∀ m m' m'' x l r, Expr.isChained x = true ∨ Expr.isComparison x = true →
    μ (.app m (.app m' (.name m'' x) l) r) ≤ max (μ l + c.chain) (μ r + 1)
  compared : ∀ m m' m'' x l r, Expr.isComparison x = true →
    μ (.app m (.app m' (.name m'' x) l) r) ≤ max (μ l) (μ r) + c.compare
  call : ∀ m f a, μ (.app m f a) ≤ max (μ f + c.call) (μ a + 2)

/-- What the nodes on the way to a leaf cost. -/
def Costs.nodes : Costs := ⟨1, 2, 2, 1⟩

/-- What the levels on the way to a leaf cost, where a link costs `left` on its left. -/
def Costs.levels (left : Nat) : Costs := ⟨0, 0, left, left⟩

namespace Expr

/-- If the measure of a list is its largest then it is bounded with its elements. -/
theorem largest_le {μ : Expr → Nat} {all : List Expr → Nat} (hnil : all [] = 0)
    (hcons : ∀ e es, all (e :: es) = max (μ e) (all es)) {es : List Expr} {n : Nat}
    (h : ∀ e ∈ es, μ e ≤ n) : all es ≤ n := by
  induction es with
  | nil => exact hnil.trans_le (Nat.zero_le n)
  | cons e es ih =>
    obtain ⟨he, hes⟩ := List.forall_mem_cons.1 h
    rw [hcons]
    exact Nat.max_le.2 ⟨he, ih hes⟩

theorem height_pos (e : Expr) : 0 < e.height := by
  cases e <;> simp [height]

end Expr

/-- The height of a tree counts nodes. -/
theorem Costs.nodes_measures : Costs.nodes.Measures Expr.height where
  invalid _ := Nat.le_refl 1
  unit _ := Nat.le_refl 1
  lit _ _ := Nat.le_refl 1
  name _ _ := Nat.le_refl 1
  lam _ _ _ := by rw [Expr.height]
  letIn _ _ _ _ := by rw [Expr.height]
  cond _ _ _ _ := by rw [Expr.height]
  anno _ _ _ := by rw [Expr.height]
  tuple _ _ _ h := by
    rw [Expr.height]
    exact Nat.succ_le_succ (Expr.largest_le rfl (fun _ _ => rfl) h)
  chained _ _ _ _ l r _ := by
    have := l.height_pos
    simp only [Expr.height, nodes]
    omega
  compared _ _ _ _ l r _ := by
    have := l.height_pos
    simp only [Expr.height, nodes]
    omega
  call _ f a := by
    simp only [Expr.height, nodes]
    omega

/-- The levels of a tree are counted at the given cost for links on the left. -/
theorem Costs.levels_measures (left : Nat) : (Costs.levels left).Measures (Expr.levels left) where
  invalid _ := Nat.le_refl 0
  unit _ := Nat.le_refl 0
  lit _ l := by cases l <;> simp [Expr.levels]
  name _ _ := by simp [Expr.levels]
  lam _ _ _ := by rw [Expr.levels]
  letIn _ _ _ _ := by rw [Expr.levels]
  cond _ _ _ _ := by rw [Expr.levels]
  anno _ _ _ := by rw [Expr.levels]
  tuple _ _ _ h := by
    rw [Expr.levels]
    exact Nat.succ_le_succ (Expr.largest_le rfl (fun _ _ => rfl) h)
  chained _ _ _ x l r hx := by
    simp only [Expr.levels, levels]
    split <;> try split
    all_goals grind
  compared _ _ _ x l r hx := by
    simp only [Expr.levels, levels, hx, if_true]
    omega
  call _ f a := by
    by_cases h : ∃ m m' x l, f = .app m (.name m' x) l
    · obtain ⟨_, _, x, l, rfl⟩ := h
      simp only [Expr.levels, levels]
      split <;> try split
      all_goals omega
    · rw [Expr.levels]
      · exact le_rfl
      · exact fun m m' x l hf => h ⟨m, m', x, l, hf⟩

namespace Costs

variable (c : Costs)

theorem bound_lt_bound_succ (n : Nat) : c.bound n + 1 ≤ c.bound (n + 1) := by
  rw [bound]
  omega

/-- So many levels more allow for so many steps more. -/
theorem bound_add_le (k n : Nat) : c.bound n + k ≤ c.bound (k + n) := by
  induction k with
  | zero => rw [Nat.zero_add, Nat.add_zero]
  | succ k ih =>
    rw [Nat.succ_add]
    exact (Nat.succ_le_succ ih).trans (c.bound_lt_bound_succ (k + n))

/-- More levels allow for more. -/
theorem bound_mono {k n : Nat} (h : k ≤ n) : c.bound k ≤ c.bound n := by
  have hadd := c.bound_add_le (n - k) k
  rw [Nat.sub_add_cancel h] at hadd
  exact Nat.le_of_add_right_le hadd

/-- The costs of the steps to the left add up over all levels. -/
theorem bound_eq (n : Nat) :
    c.bound n = c.gap + (c.compare + 1) * n + (c.call + 4 * c.chain) * n.choose 2 := by
  induction n with
  | zero => simp [bound]
  | succ n ih =>
    rw [bound, ih, Nat.choose_succ_succ, Nat.choose_one_right]
    ring

end Costs

/-! ## Values of parsers -/

/-- The value of a parser satisfies `P`, if there is one. -/
def Parser.Yields {α : Type} (q : Parser α) (P : α → Prop) : Prop :=
  ∀ s a s', q s = .ok (a, s') → P a

namespace Parser.Yields

variable {α β : Type} {q : Parser α} {P P' : α → Prop} {R : β → Prop}

theorem mono (h : q.Yields P) (hP : ∀ a, P a → P' a) : q.Yields P' :=
  fun s a s' hrun => hP a (h s a s' hrun)

protected theorem pure {a : α} (h : P a) : Parser.Yields (pure a : Parser α) P := by
  rintro s _ _ ⟨⟩
  exact h

/-- A sequence yields what its second parser does with what the first yields. -/
protected theorem bind {k : α → Parser β} (h : q.Yields fun a => (k a).Yields R) :
    Parser.Yields (q >>= k) R := by
  intro s b s'' hrun
  simp only [Bind.bind, StateT.bind, Except.bind] at hrun
  cases hq : q s with
  | error d =>
    rw [hq] at hrun
    cases hrun
  | ok r =>
    rw [hq] at hrun
    exact h s r.1 r.2 hq r.2 b s'' hrun

/-- Nothing need be known of the first value. -/
theorem next {k : α → Parser β} (h : ∀ a, (k a).Yields R) : Parser.Yields (q >>= k) R :=
  .bind fun _ a _ _ => h a

/-- Nothing is said of the value. -/
theorem any (q : Parser α) : q.Yields fun _ => True := fun _ _ _ _ => trivial

end Parser.Yields

namespace Parser

/-- A lexeme that is taken fits. -/
theorem yields_accept? (p : Token → Bool) :
    (accept? p).Yields fun found => ∀ l ∈ found, l.token.fits p = true := by
  intro s found s' hrun
  obtain ⟨l, ls, -, hfits, haccept⟩ | ⟨-, haccept⟩ := accept?_cases p s
  · cases haccept.symm.trans hrun
    rintro _ ⟨⟩
    exact hfits
  · cases haccept.symm.trans hrun
    rintro _ ⟨⟩

/-- An operator has the name of one of those that are asked for, unless it is invalid. -/
theorem yields_operator? (ops : List Operator) :
    (operator? ops).Yields fun found => ∀ l ∈ found,
      l.token.operatorName?.getD "" = "" ∨ ∃ o ∈ ops, l.token.operatorName?.getD "" = o.text := by
  refine (yields_accept? _).mono fun found hfound l hl => ?_
  have hfits := hfound l hl
  rw [Token.fits, Bool.or_eq_true, beq_iff_eq] at hfits
  rcases hfits with hinvalid | hops
  · rw [hinvalid]
    exact .inl rfl
  · split at hops
    · rename_i o ho
      rw [ho]
      exact .inr ⟨o, List.contains_iff_mem.1 hops, rfl⟩
    · cases hops

/-- Items yield what one item does. -/
theorem yields_moreItems {α : Type} {item : Parser α} {P : α → Prop} (hitem : item.Yields P) :
    (moreItems item).Yields fun as => ∀ a ∈ as, P a := by
  suffices hfrom : ∀ (ls : List Lexeme) (acc : List α), (∀ a ∈ acc, P a) →
      (moreItemsFrom item ls acc).Yields fun as => ∀ a ∈ as, P a from
    .next fun s => hfrom s.rest [] nofun
  intro ls
  induction ls with
  | nil => exact fun acc hacc => .pure fun a ha => hacc a (List.mem_reverse.1 ha)
  | cons l ls ih =>
    intro acc hacc
    refine .next fun comma => ?_
    cases comma with
    | none => exact .pure fun a ha => hacc a (List.mem_reverse.1 ha)
    | some _ =>
      exact .bind (hitem.mono fun a ha => ih (a :: acc) (List.forall_mem_cons.2 ⟨ha, hacc⟩))

/-- Each item uses up a level. -/
theorem yields_moreBelow {α : Type} {item : Levels → Parser α} {P : α → Prop} {n : Nat}
    (hitem : ∀ k ≤ n, (item (.ofDepth k)).Yields P) :
    (moreBelow item (.ofDepth n)).Yields fun r =>
      (∃ k, r.2 = .ofDepth k ∧ r.1.length + k = n) ∧ ∀ a ∈ r.1, P a := by
  induction n with
  | zero =>
    refine .next fun comma => ?_
    cases comma with
    | none => exact .pure ⟨⟨0, rfl, rfl⟩, nofun⟩
    | some _ => exact .next fun _ => .pure ⟨⟨0, rfl, rfl⟩, nofun⟩
  | succ n ih =>
    refine .next fun comma => ?_
    cases comma with
    | none => exact .pure ⟨⟨n + 1, rfl, Nat.zero_add _⟩, nofun⟩
    | some _ =>
      refine .bind ((hitem n (Nat.le_succ n)).mono fun a ha => ?_)
      refine .bind ((ih fun k hk => hitem k (Nat.le_succ_of_le hk)).mono ?_)
      rintro ⟨as, left⟩ ⟨⟨k, hleft, rfl⟩, has⟩
      exact .pure ⟨⟨k, hleft, Nat.succ_add ..⟩, List.forall_mem_cons.2 ⟨ha, has⟩⟩

end Parser

/-! ## Bounds for parsers -/

/-- Up to `N` levels, the measure of what a parser finds has a bound that depends on the levels. -/
def Parser.Bounded (μ : Expr → Nat) (N : Nat) (q : Levels → Parser Expr) (b : Nat → Nat) : Prop :=
  ∀ n ≤ N, (q (.ofDepth n)).Yields (μ · ≤ b n)

/-- One more level makes the bound greater. -/
def Steep (b : Nat → Nat) : Prop := ∀ n, b n + 1 ≤ b (n + 1)

/-- A steep bound stays steep if a cost for each level is added. -/
theorem Steep.add_mul {b : Nat → Nat} (h : Steep b) (d : Nat) : Steep fun n => b n + n * d := by
  intro n
  have hn := h n
  show b n + n * d + 1 ≤ b (n + 1) + (n + 1) * d
  rw [Nat.succ_mul]
  omega

namespace Parser

variable {c : Costs} {μ : Expr → Nat} {N : Nat}

/-- An applied operator is a call with two arguments. -/
theorem yields_applyOperator (op : Lexeme) (l r : Expr) :
    (applyOperator op l r).Yields fun e => ∃ m m' m'',
      e = .app m (.app m' (.name m'' (op.token.operatorName?.getD "")) l) r :=
  .next fun _ => .next fun _ => .pure ⟨_, _, _, rfl⟩

/-- Each link costs a step to its left, and what stands on its right has a level less. -/
theorem yields_chain (hμ : c.Measures μ) {ops : List Operator} (hops : ops ⊆ Operator.chained)
    {operand : Levels → Parser Expr} {b : Nat → Nat} (hb : Steep b)
    (hoperand : Bounded μ N operand b) {n : Nat} (hn : n ≤ N) {e : Expr} {K : Nat}
    (he : μ e ≤ K) (hK : b n ≤ K) :
    (chain ops operand (.ofDepth n) e).Yields (μ · ≤ K + n * c.chain) := by
  -- `K` grows by a step to the left with each link.  It stays above the bound for an operand, which
  -- has lost a level and so makes up for the step to the right.
  induction n generalizing e K with
  | zero =>
    unfold chain
    refine .next fun op => ?_
    cases op with
    | none => exact .pure (Nat.le_add_right_of_le he)
    | some op => exact .next fun _ => .pure (Nat.le_add_right_of_le he)
  | succ n ih =>
    unfold chain
    refine .bind ((yields_operator? ops).mono fun op hop => ?_)
    cases op with
    | none => exact .pure (Nat.le_add_right_of_le he)
    | some op =>
      have hlink : Expr.isChained (op.token.operatorName?.getD "") = true ∨
          Expr.isComparison (op.token.operatorName?.getD "") = true := by
        rcases hop op rfl with hname | ⟨o, ho, hname⟩
        · rw [hname]
          exact .inr (by decide)
        · rw [hname]
          exact .inl (List.any_eq_true.2 ⟨o, hops ho, beq_self_eq_true _⟩)
      refine .bind ((hoperand n (Nat.le_of_succ_le hn)).mono fun r hr => ?_)
      refine .bind ((yields_applyOperator op e r).mono ?_)
      rintro _ ⟨m, m', m'', rfl⟩
      have hsteep := hb n
      have happ := hμ.chained m m' m'' _ e r hlink
      refine (ih (Nat.le_of_succ_le hn) (K := K + c.chain) ?_ ?_).mono fun e' he' => ?_
      · omega
      · omega
      · rw [Nat.succ_mul]
        omega

/-- A chain costs one link for each level. -/
theorem bounded_binary (hμ : c.Measures μ) {ops : List Operator} (hops : ops ⊆ Operator.chained)
    {operand : Levels → Parser Expr} {b : Nat → Nat} (hb : Steep b)
    (hoperand : Bounded μ N operand b) :
    Bounded μ N (binary ops operand) fun n => b n + n * c.chain := by
  intro n hn
  exact .bind ((hoperand n hn).mono fun e he => yields_chain hμ hops hb hoperand hn he le_rfl)

/-- What stands in parentheses is bounded by one step more than what is nested. -/
theorem yields_group (hμ : c.Measures μ) {n : Nat} (opener : Span)
    (hn : (Levels.ofDepth n).expr.Yields (μ · ≤ c.bound n)) :
    (group (.ofDepth n) opener).Yields (μ · ≤ c.bound n + 1) := by
  refine .next fun closer => ?_
  cases closer with
  | some _ => exact .next fun _ => .pure ((hμ.lit _ _).trans (Nat.le_add_left _ _))
  | none =>
    refine .bind (hn.mono fun e he => .next fun colon => ?_)
    cases colon with
    | some _ =>
      refine .next fun t => .next fun _ => .next fun _ => .next fun _ => .pure ?_
      exact (hμ.anno _ e t).trans (Nat.succ_le_succ he)
    | none =>
      refine .next fun comma => ?_
      split
      · refine .bind ((yields_moreItems hn).mono fun es hes => ?_)
        refine .next fun _ => .next fun _ => .next fun _ => .pure ?_
        exact hμ.tuple _ _ _ (List.forall_mem_cons.2 ⟨he, hes⟩)
      · exact .next fun _ => .pure (Nat.le_succ_of_le he)

theorem bounded_baseExpr (hμ : c.Measures μ) (hN : Bounded μ N Levels.expr c.bound) :
    Bounded μ N baseExpr fun n => c.bound n + 1 := by
  intro n hn
  have hgap : ∀ m, μ (.invalid m) ≤ c.bound n + 1 := fun m =>
    (hμ.invalid m).trans (Nat.le_succ_of_le (c.bound_mono (Nat.zero_le n)))
  have hone : 1 ≤ c.bound n + 1 := Nat.le_add_left _ _
  refine .next fun l => ?_
  cases l with
  | none => exact .next fun _ => .next fun _ => .pure (hgap _)
  | some l =>
    obtain ⟨t, span⟩ := l
    dsimp only
    split
    · exact .pure ((hμ.lit _ _).trans hone)
    · exact .pure ((hμ.lit _ _).trans hone)
    · exact .pure ((hμ.lit _ _).trans hone)
    · exact .pure ((hμ.lit _ _).trans hone)
    · exact .pure ((hμ.name _ _).trans hone)
    · exact yields_group hμ span (hN n hn)
    · exact .pure (hgap _)
    · exact .next fun _ => .pure (hgap _)

/-! ### Calls -/

/-- The arguments and the levels that are left make up for the levels there were and the level of
the call. -/
theorem yields_arguments (hμ : c.Measures μ) (hN : Bounded μ N Levels.expr c.bound) {n : Nat}
    (hn : n ≤ N) (opener : Span) :
    (arguments (.ofDepth n) opener).Yields fun r =>
      (∃ k, r.2 = .ofDepth k ∧ r.1.length + k = n + 1) ∧ ∀ a ∈ r.1, μ a ≤ c.bound n := by
  refine .next fun closer => ?_
  cases closer with
  | some _ =>
    refine .next fun span => .pure ⟨⟨n, rfl, Nat.add_comm 1 n⟩, ?_⟩
    rintro _ ⟨⟩
    · exact (hμ.unit _).trans (c.bound_mono (Nat.zero_le n))
    · contradiction
  | none =>
    have hitem : ∀ k ≤ n, (Levels.ofDepth k).expr.Yields (μ · ≤ c.bound n) := fun k hk =>
      (hN k (hk.trans hn)).mono fun a ha => ha.trans (c.bound_mono hk)
    refine .bind ((hN n hn).mono fun e he => .bind ((yields_moreBelow hitem).mono ?_))
    rintro ⟨es, left⟩ ⟨⟨k, hleft, rfl⟩, hes⟩
    exact .next fun _ => .pure ⟨⟨k, hleft, Nat.succ_add ..⟩, List.forall_mem_cons.2 ⟨he, hes⟩⟩

/-- Each call of a row costs one more on the way to the callee. -/
theorem yields_applyAll (hμ : c.Measures μ) {close : Span} {as : List Expr} {e : Expr} {K : Nat}
    (he : μ e ≤ K) (has : ∀ a ∈ as, μ a + 2 ≤ K) :
    (applyAll close e as).Yields (μ · ≤ K + as.length * c.call) := by
  induction as generalizing e K with
  | nil => exact .pure (Nat.le_add_right_of_le he)
  | cons a as ih =>
    obtain ⟨ha, has⟩ := List.forall_mem_cons.1 has
    refine .next fun _ => .next fun span => ?_
    have happ := hμ.call (.new span) e a
    refine (ih (K := K + c.call) ?_ fun d hd => ?_).mono fun e' he' => ?_
    · omega
    · exact Nat.le_add_right_of_le (has d hd)
    · rw [List.length_cons, Nat.succ_mul]
      omega

/-- Calls cost one more for each level they take. -/
theorem yields_callsFrom (hμ : c.Measures μ) (hN : Bounded μ N Levels.expr c.bound) (calls : Nat)
    {n : Nat} (hn : n ≤ N) {e : Expr} {K : Nat} (he : μ e ≤ K) (hK : c.bound n + 1 ≤ K) :
    (callsFrom calls (.ofDepth n) e).Yields (μ · ≤ K + n * c.call) := by
  induction calls generalizing n e K with
  | zero =>
    unfold callsFrom
    refine .next fun opener => ?_
    cases opener with
    | none => exact .pure (Nat.le_add_right_of_le he)
    | some _ => exact .next fun _ => .pure (Nat.le_add_right_of_le he)
  | succ calls ih =>
    unfold callsFrom
    refine .next fun opener => ?_
    cases opener with
    | none => exact .pure (Nat.le_add_right_of_le he)
    | some opener =>
      cases n with
      | zero => exact .next fun _ => .pure (Nat.le_add_right_of_le he)
      | succ n =>
        have hn' := Nat.le_of_succ_le hn
        have hbound := c.bound_lt_bound_succ n
        refine .bind ((yields_arguments hμ hN hn' opener.span).mono ?_)
        rintro ⟨as, left⟩ ⟨⟨k, rfl, hk : as.length + k = n + 1⟩, has⟩
        have hargs : ∀ a ∈ as, μ a + 2 ≤ K := by
          intro a ha
          have := has a ha
          omega
        refine .next fun close => .bind ((yields_applyAll hμ he hargs).mono fun e' he' => ?_)
        have hleft : k ≤ n + 1 := hk ▸ Nat.le_add_left ..
        have hK' := (Nat.succ_le_succ (c.bound_mono hleft)).trans hK
        refine (ih (hleft.trans hn) he' (Nat.le_add_right_of_le hK')).mono fun e'' he'' => ?_
        rwa [← hk, Nat.add_mul, ← Nat.add_assoc]

/-- A call is bounded by the calls that its levels allow. -/
theorem bounded_callExpr (hμ : c.Measures μ) (hN : Bounded μ N Levels.expr c.bound) :
    Bounded μ N callExpr fun n => c.bound n + 1 + n * c.call := by
  intro n hn
  refine .bind ((bounded_baseExpr hμ hN n hn).mono fun e he => ?_)
  exact yields_callsFrom hμ hN _ hn he le_rfl

/-! ### Precedence -/

/-- A comparison is made once, at its own cost. -/
theorem yields_cmpExpr (hμ : c.Measures μ) {levels : Levels} {K : Nat}
    (h : (addExpr levels).Yields (μ · ≤ K)) : (cmpExpr levels).Yields (μ · ≤ K + c.compare) := by
  refine .bind (h.mono fun l hl => .bind ((yields_operator? _).mono fun op hop => ?_))
  cases op with
  | none => exact .pure (Nat.le_add_right_of_le hl)
  | some op =>
    have hcompares : Expr.isComparison (op.token.operatorName?.getD "") = true := by
      rcases hop op rfl with hname | ⟨o, ho, hname⟩
      · rw [hname]
        decide
      · rw [hname, Expr.isComparison, Bool.or_eq_true]
        exact .inr (List.any_eq_true.2 ⟨o, ho, beq_self_eq_true _⟩)
    refine .bind (h.mono fun r hr => (yields_applyOperator op l r).mono ?_)
    rintro _ ⟨m, m', m'', rfl⟩
    have happ := hμ.compared m m' m'' _ l r hcompares
    omega

/-- A bound for expressions without a keyword.  The four kinds of operator chains begin with
each other. -/
theorem bounded_orExpr (hμ : c.Measures μ) (hN : Bounded μ N Levels.expr c.bound) :
    Bounded μ N orExpr fun n => c.bound (n + 1) := by
  have hbase : Steep fun n => c.bound n + 1 := fun n => Nat.succ_le_succ (c.bound_lt_bound_succ n)
  have hcall := hbase.add_mul c.call
  have hmul := hcall.add_mul c.chain
  have hadd := hmul.add_mul c.chain
  have hcmp : Steep fun n =>
      c.bound n + 1 + n * c.call + n * c.chain + n * c.chain + c.compare := fun n =>
    (Nat.add_right_comm _ _ _).trans_le (Nat.add_le_add_right (hadd n) c.compare)
  have hand := hcmp.add_mul c.chain
  have hmulExpr : Bounded μ N mulExpr _ :=
    bounded_binary hμ (by decide) hcall (bounded_callExpr hμ hN)
  have haddExpr : Bounded μ N addExpr _ := bounded_binary hμ (by decide) hmul hmulExpr
  have hcmpExpr : Bounded μ N cmpExpr _ := fun n hn => yields_cmpExpr hμ (haddExpr n hn)
  have handExpr : Bounded μ N andExpr _ := bounded_binary hμ (by decide) hcmp hcmpExpr
  have horExpr : Bounded μ N orExpr _ := bounded_binary hμ (by decide) hand handExpr
  intro n hn
  refine (horExpr n hn).mono fun e he => ?_
  show μ e ≤ c.bound n + 1 + n * c.call + 4 * (n * c.chain) + c.compare
  omega

/-! ### Expressions with keywords -/

/-- A local definition is one step above its parts. -/
theorem yields_letExpr (hμ : c.Measures μ) {n : Nat} (opener : Span)
    (hn : (Levels.ofDepth n).expr.Yields (μ · ≤ c.bound n)) :
    (letExpr (.ofDepth n) opener).Yields (μ · ≤ c.bound n + 1) := by
  refine .next fun b => .next fun _ => .bind (hn.mono fun d hd => ?_)
  refine .next fun _ => .bind (hn.mono fun e he => .next fun _ => .pure ?_)
  exact (hμ.letIn _ b d e).trans (Nat.succ_le_succ (Nat.max_le.2 ⟨hd, he⟩))

/-- A conditional is one step above its parts. -/
theorem yields_ifExpr (hμ : c.Measures μ) {n : Nat} (opener : Span)
    (hn : (Levels.ofDepth n).expr.Yields (μ · ≤ c.bound n)) :
    (ifExpr (.ofDepth n) opener).Yields (μ · ≤ c.bound n + 1) := by
  refine .bind (hn.mono fun t ht => .next fun _ => .bind (hn.mono fun y hy => ?_))
  refine .next fun _ => .bind (hn.mono fun e he => .next fun _ => .pure ?_)
  exact (hμ.cond _ t y e).trans (Nat.succ_le_succ (Nat.max_le.2 ⟨ht, Nat.max_le.2 ⟨hy, he⟩⟩))

/-- Each parameter of a function is one step. -/
theorem yields_curry (hμ : c.Measures μ) (body : Expr) (bs : List Binder) :
    (curry body bs).Yields (μ · ≤ μ body + bs.length) := by
  induction bs with
  | nil => exact .pure le_rfl
  | cons b bs ih =>
    refine .bind (ih.mono fun e he => .next fun _ => .pure ?_)
    exact (hμ.lam _ b e).trans (Nat.succ_le_succ he)

/-- Each further parameter takes a level from the body, so a function is bounded by one step more
than what is nested. -/
theorem yields_fnExpr (hμ : c.Measures μ) (hN : Bounded μ N Levels.expr c.bound) {n : Nat}
    (hn : n ≤ N) (opener : Span) : (fnExpr (.ofDepth n) opener).Yields (μ · ≤ c.bound n + 1) := by
  refine .next fun _ => .next fun b => ?_
  refine .bind ((yields_moreBelow fun k _ => Yields.any (binder (.ofDepth k))).mono ?_)
  rintro ⟨bs, left⟩ ⟨⟨k, rfl, rfl⟩, -⟩
  have hk : k ≤ N := (Nat.le_add_left ..).trans hn
  refine .next fun _ => .next fun _ => .bind ((hN k hk).mono fun body hbody => ?_)
  refine .bind ((yields_curry hμ body bs).mono fun e he => .next fun span => .pure ?_)
  calc
    μ (.lam (.new span) b e) ≤ μ e + 1 := hμ.lam _ b e
    _ ≤ μ body + bs.length + 1 := Nat.succ_le_succ he
    _ ≤ c.bound k + bs.length + 1 := by omega
    _ ≤ c.bound (bs.length + k) + 1 := Nat.succ_le_succ (c.bound_add_le bs.length k)

/-- An expression with one level more is bounded by the next bound. -/
theorem yields_exprAbove (hμ : c.Measures μ) (hN : Bounded μ N Levels.expr c.bound) {n : Nat}
    (hn : n ≤ N) : (exprAbove (.ofDepth n)).Yields (μ · ≤ c.bound (n + 1)) := by
  have hsucc : ∀ e, μ e ≤ c.bound n + 1 → μ e ≤ c.bound (n + 1) :=
    fun e he => he.trans (c.bound_lt_bound_succ n)
  refine .next fun word => ?_
  cases word with
  | some l => exact (yields_letExpr hμ l.span (hN n hn)).mono hsucc
  | none =>
    refine .next fun word => ?_
    cases word with
    | some l => exact (yields_ifExpr hμ l.span (hN n hn)).mono hsucc
    | none =>
      refine .next fun word => ?_
      cases word with
      | some l => exact (yields_fnExpr hμ hN hn l.span).mono hsucc
      | none => exact bounded_orExpr hμ hN n hn

/-- An expression never exceeds the bound for its levels. -/
theorem bounded_expr (hμ : c.Measures μ) (N : Nat) : Bounded μ N Levels.expr c.bound := by
  induction N with
  | zero =>
    rintro _ ⟨⟩
    exact .next fun _ => .next fun _ => .pure (hμ.invalid _)
  | succ N ih =>
    intro n hn
    cases Nat.le_succ_iff.1 hn with
    | inl h => exact ih n h
    | inr h =>
      subst h
      exact yields_exprAbove hμ ih le_rfl

-- The bound for nodes is one more than what is reached, here with two levels.
example :
    let ts : List Token := [.punctuation .groupOpen, .int 1, .operator .equals, .int 1,
      .punctuation .colon, .name "Int", .punctuation .groupClose, .punctuation .groupOpen,
      .punctuation .groupClose, .operator .times, .int 1, .operator .plus, .int 1,
      .operator .equals, .int 1, .operator .and, .int 1, .operator .or, .int 1]
    ((Levels.ofDepth 2).expr ⟨ts.map (⟨·, .nowhere⟩), none, .nowhere, [], false⟩).map
      (fun (e, s) => (e.height, s.rest, s.reported)) = .ok (15, [], []) ∧
    Costs.nodes.bound 2 = 16 := by
  decide +kernel

/-! ### Programs -/

/-- The definition of a declaration has all levels. -/
theorem yields_decl (hμ : c.Measures μ) (opener : Span) :
    (decl opener).Yields fun d => μ d.bound ≤ c.bound maxDepth := by
  refine .next fun b => .next fun _ => .bind ?_
  refine (bounded_expr hμ maxDepth maxDepth le_rfl).mono fun e he => ?_
  exact .next fun _ => .next fun _ => .pure he

/-- All declarations of a program are bounded. -/
theorem yields_declsFrom (hμ : c.Measures μ) (n : Nat) {acc : List Decl}
    (hacc : ∀ d ∈ acc, μ d.bound ≤ c.bound maxDepth) :
    (declsFrom n acc).Yields fun p : List Decl => ∀ d ∈ p, μ d.bound ≤ c.bound maxDepth := by
  induction n generalizing acc with
  | zero => exact .pure fun d hd => hacc d (List.mem_reverse.1 hd)
  | succ n ih =>
    refine .next fun word => ?_
    cases word with
    | some l =>
      refine .bind ((yields_decl hμ l.span).mono fun d hd => ?_)
      exact ih (List.forall_mem_cons.2 ⟨hd, hacc⟩)
    | none =>
      refine .next fun s => ?_
      split
      · exact .pure fun d hd => hacc d (List.mem_reverse.1 hd)
      · exact .next fun _ => .next fun _ => ih hacc

end Parser

/-- All ways through the tree of a declaration respect the limit as far as links to their right are
concerned, and with the others the limit is passed at most quadratically: no way crosses more than
`40768` levels or `73537` nodes. -/
theorem parse_depth (file f : FileId) (ls : List Lexeme) (hfile : ∀ l ∈ ls, l.span.file = f) :
    ∃ p ds, parse file ls = .ok (p, ds) ∧ ∀ d ∈ p,
      d.bound.levels 0 ≤ maxDepth ∧
      d.bound.levels 1 ≤ maxDepth + 5 * maxDepth.choose 2 ∧
      d.bound.height ≤ 1 + 3 * maxDepth + 9 * maxDepth.choose 2 := by
  let s : ParserState := ⟨ls, none, .origin file, [], false⟩
  have hplaced : s.Placed f := ⟨hfile, nofun⟩
  obtain ⟨p, s', hrun, -⟩ := Parser.reads_declsFrom ls.length [] hplaced
  have hdepth : ∀ {c : Costs} {μ : Expr → Nat}, c.Measures μ → ∀ d ∈ p,
      μ d.bound ≤ c.bound maxDepth := fun hμ =>
    Parser.yields_declsFrom hμ ls.length (List.forall_mem_nil _) s p s' hrun
  refine ⟨p, s'.reported.reverse, ?_, fun d hd => ⟨?_, ?_, ?_⟩⟩
  · simp only [parse]
    rw [hrun]
    rfl
  · have hlevels := hdepth (Costs.levels_measures 0) d hd
    rw [Costs.bound_eq] at hlevels
    simpa [Costs.levels] using hlevels
  · have hlevels := hdepth (Costs.levels_measures 1) d hd
    rw [Costs.bound_eq] at hlevels
    simpa [Costs.levels] using hlevels
  · have hnodes := hdepth Costs.nodes_measures d hd
    rw [Costs.bound_eq] at hnodes
    simpa [Costs.nodes] using hnodes

/-- A call without arguments, `n` times. -/
def emptyCalls (n : Nat) : List Token :=
  (List.replicate n [.punctuation .groupOpen, .punctuation .groupClose]).flatten

/-- An operator and a number, `n` times. -/
def onesBehind (o : Operator) (n : Nat) : List Token :=
  (List.replicate n [.operator o, .int 1]).flatten

/-- `let x = f() … () * 1 … * 1 + 1 … + 1`, with chains that are as long as the limit allows. -/
def stackedChains : List Lexeme :=
  let callee : List Token := [.keyword .letWord, .name "x", .punctuation .equal, .name "f"]
  (callee ++ emptyCalls 127 ++ onesBehind .times 127 ++ onesBehind .plus 127).map (⟨·, .nowhere⟩)

/-- Chains that are stacked as high as the limit allows keep to the bounds. -/
theorem parse_depth_stackedChains : (∀ l ∈ stackedChains, l.span.file = 0) ∧
    ∃ p ds, parse 0 stackedChains = .ok (p, ds) ∧ ∀ d ∈ p,
      d.bound.levels 0 ≤ maxDepth ∧
      d.bound.levels 1 ≤ maxDepth + 5 * maxDepth.choose 2 ∧
      d.bound.height ≤ 1 + 3 * maxDepth + 9 * maxDepth.choose 2 := by
  have hfile : ∀ l ∈ stackedChains, l.span.file = 0 := by
    intro l hl
    obtain ⟨t, -, rfl⟩ := List.mem_map.1 hl
    rfl
  exact ⟨hfile, parse_depth 0 0 stackedChains hfile⟩

/-- The first name stands below `382` levels and `636` nodes, and nothing is reported. -/
theorem deep_without_report :
    (parse 0 stackedChains).map (fun (p, ds) =>
      (p.map fun d => (d.bound.levels 1, d.bound.height), ds)) = .ok ([(382, 636)], []) := by
  decide +kernel

end LetPoly
