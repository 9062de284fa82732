import LetPoly.Proofs.Confluence
import LetPoly.Proofs.PrintedRenaming
import LetPoly.Proofs.Readability

/-!
# Printouts of typed trees

The printout of a tree whose slots are all filled shows every slot, so it determines what is in
them up to the numbers of variables.  If the variables are numbered in the order in which they are
printed then a declaration can be read off its line from the left (`Decl.Filled.legible`).
Two declarations with the same line are the same with their variables so numbered, and that makes
them renamings of each other.
-/

namespace LetPoly

/-! ## Filled trees -/

/-- The slot of a mark is filled, with a type of the given kind. -/
def Mark.Filled (P : Ty → Prop) (m : Mark) : Prop := ∃ t, m.ty = .filled t ∧ P t

/-- The slot of a binder is filled, with a scheme of a type of the given kind. -/
def Binder.Filled (P : Ty → Prop) (b : Binder) : Prop := ∃ σ, b.scheme = .filled σ ∧ P σ.ty

/-- All slots of an expression are filled, with types of the given kind. -/
def Expr.Filled (P : Ty → Prop) (e : Expr) : Prop :=
  ∀ d ∈ e.walk, d.mark.Filled P ∧ ∀ b, d.binder? = some b → b.Filled P

/-- All slots of a declaration are filled, with types of the given kind. -/
structure Decl.Filled (P : Ty → Prop) (d : Decl) : Prop where
  binder : d.binder.Filled P
  bound : d.bound.Filled P

/-- All slots of a program are filled, with types of the given kind. -/
def Program.Filled (P : Ty → Prop) (p : Program) : Prop := ∀ d ∈ p, d.Filled P

theorem Mark.Filled.rename {m : Mark} (h : m.Filled Ty.Regular) (π : TyVar → TyVar) :
    (m.rename π).Filled Ty.Regular := by
  obtain ⟨t, ht, hregular⟩ := h
  exact ⟨t.rename π, congrArg (Slot.resolve · (Ty.rename π)) ht, hregular.rename π⟩

theorem Binder.Filled.rename {b : Binder} (h : b.Filled Ty.Regular) (π : TyVar → TyVar) :
    (b.rename π).Filled Ty.Regular := by
  obtain ⟨σ, hσ, hregular⟩ := h
  exact ⟨σ.rename π, congrArg (Slot.resolve · (Scheme.rename π)) hσ, hregular.rename π⟩

/-- Renaming variables keeps all slots filled. -/
theorem Expr.Filled.rename {e : Expr} (h : e.Filled Ty.Regular) (π : TyVar → TyVar) :
    (e.rename π).Filled Ty.Regular := by
  intro d hd
  rw [Expr.rename, retype, walk_update] at hd
  obtain ⟨c, hc, rfl⟩ := List.mem_map.1 hd
  obtain ⟨hmark, hbinder⟩ := h c hc
  refine ⟨mark_update _ _ c ▸ hmark.rename π, fun b hb => ?_⟩
  rw [binder?_update] at hb
  obtain ⟨b, hmem, rfl⟩ := Option.map_eq_some_iff.1 hb
  exact (hbinder b hmem).rename π

theorem Decl.Filled.rename {d : Decl} (h : d.Filled Ty.Regular) (π : TyVar → TyVar) :
    (d.rename π).Filled Ty.Regular :=
  ⟨h.binder.rename π, h.bound.rename π⟩

/-! ## Reading schemes -/

namespace Scheme

/-- The characters of the names of quantified variables, each behind a blank. -/
def nameChars (vs : List TyVar) : List Char := vs.flatMap fun v => ' ' :: (Naming.nth v).toList

variable {vs ws : List TyVar} {x y : List Char} {σ τ : Scheme}

theorem endsWord_nameChars : EndsWord (nameChars vs ++ '.' :: x) := by
  cases vs <;> exact .cons rfl

/-- The names of quantified variables can be read off a text up to the point. -/
theorem nameChars_inj (h : nameChars vs ++ '.' :: x = nameChars ws ++ '.' :: y) :
    vs = ws ∧ x = y := by
  induction vs generalizing ws with
  | nil =>
    cases ws with
    | nil => exact ⟨rfl, (List.cons.inj h).2⟩
    | cons w ws => cases (List.cons.inj h).1
  | cons v vs ih =>
    cases ws with
    | nil => cases (List.cons.inj h).1
    | cons w ws =>
      simp only [nameChars, List.flatMap_cons, List.cons_append, List.append_assoc,
        List.cons.injEq, true_and] at h
      obtain ⟨hname, hrest⟩ := Ty.word_append_inj (fun _ => Naming.continuesWord_of_mem_nth)
        (fun _ => Naming.continuesWord_of_mem_nth) endsWord_nameChars endsWord_nameChars h
      obtain rfl := Naming.nth_inj (String.toList_inj.1 hname)
      obtain ⟨rfl, hxy⟩ := ih hrest
      exact ⟨rfl, hxy⟩

theorem chars_plain (h : σ.vars = []) : (σ.textWith Naming.nth).toList = σ.ty.chars false := by
  simp [textWith, h, Ty.chars]

/-- A scheme with quantified variables begins with the word for all. -/
theorem chars_quantified (h : σ.vars ≠ []) :
    (σ.textWith Naming.nth).toList =
      'f' :: ("orall".toList ++ (nameChars σ.vars ++ '.' :: ' ' :: σ.ty.chars false)) := by
  obtain ⟨v, vs, hvars⟩ := List.exists_cons_of_ne_nil h
  simp [textWith, hvars, nameChars, Ty.chars, String.toList_intercalate, intercalate_cons,
    List.flatMap_map]

/-- No text of a type begins like that of a quantified scheme. -/
theorem head?_chars {t : Ty} (h : t.Regular) (atomic : Bool) (x : List Char) :
    (t.chars atomic ++ x).head? ≠ some 'f' := by
  induction h generalizing atomic x with
  | var v =>
    rw [Ty.chars_var, Naming.toList_nth]
    simp
  | prim hc =>
    rw [Ty.chars_prim hc]
    simp only [List.mem_cons, List.not_mem_nil, or_false] at hc
    rcases hc with rfl | rfl | rfl | rfl | rfl <;> simp [Con.name]
  | fn _ _ iht _ =>
    cases atomic with
    | true => simp [Ty.chars_fn_true]
    | false =>
      rw [Ty.chars_fn_false]
      exact iht true _
  | @tuple ts hlength _ _ =>
    cases ts with
    | nil => cases hlength
    | cons t ts => simp [Ty.chars_tuple]

/-- The text of a scheme determines it and what stands behind. -/
theorem readable (hσ : σ.ty.Regular) (hτ : τ.ty.Regular)
    (h : (σ.textWith Naming.nth).toList ++ ']' :: x = (τ.textWith Naming.nth).toList ++ ']' :: y) :
    σ = τ ∧ x = y := by
  have hends (z : List Char) : Ty.Ends false (']' :: z) := Ty.ends_cons rfl (by decide)
  have hread (hvars : σ.vars = τ.vars)
      (hty : σ.ty.chars false ++ ']' :: x = τ.ty.chars false ++ ']' :: y) : σ = τ ∧ x = y := by
    obtain ⟨heq, hrest⟩ := hσ.readable false τ.ty hτ _ _ (hends x) (hends y) hty
    refine ⟨?_, (List.cons.inj hrest).2⟩
    cases σ
    cases τ
    exact congrArg₂ Scheme.mk hvars heq
  by_cases hplain : σ.vars = [] <;> by_cases hplain' : τ.vars = []
  · rw [chars_plain hplain, chars_plain hplain'] at h
    exact hread (hplain.trans hplain'.symm) h
  · rw [chars_plain hplain, chars_quantified hplain'] at h
    exact absurd (congrArg List.head? h) (head?_chars hσ false _)
  · rw [chars_quantified hplain, chars_plain hplain'] at h
    exact absurd (congrArg List.head? h.symm) (head?_chars hτ false _)
  · rw [chars_quantified hplain, chars_quantified hplain'] at h
    simp only [List.cons_append, List.append_assoc, List.cons.injEq, true_and,
      List.append_cancel_left_eq] at h
    obtain ⟨hvars, hrest⟩ := nameChars_inj h
    exact hread hvars (List.cons.inj hrest).2

end Scheme

/-! ## Reading trees -/

/-- The type of a node can be read off the text up to the closing parenthesis. -/
theorem Mark.Filled.readable {m m' : Mark} {x y : List Char} (hm : m.Filled Ty.Regular)
    (hm' : m'.Filled Ty.Regular) (hclear : m.clear = m'.clear)
    (h : (m.textWith Naming.nth).toList ++ ')' :: x =
      (m'.textWith Naming.nth).toList ++ ')' :: y) : m = m' ∧ x = y := by
  obtain ⟨span, ty⟩ := m
  obtain ⟨span', ty'⟩ := m'
  obtain ⟨t, rfl, ht⟩ := hm
  obtain ⟨t', rfl, ht'⟩ := hm'
  obtain rfl : span = span' := congrArg Mark.span hclear
  have hends (z : List Char) : Ty.Ends false (')' :: z) := Ty.ends_cons rfl (by decide)
  simp only [textWith, Slot.filled, String.toList_append, List.append_assoc,
    List.append_cancel_left_eq] at h
  obtain ⟨rfl, hrest⟩ := ht.readable false t' ht' _ _ (hends x) (hends y) h
  exact ⟨rfl, (List.cons.inj hrest).2⟩

/-- The scheme of a binder can be read off the text, if the name is known. -/
theorem Binder.Filled.readable {b b' : Binder} {x y : List Char} (hb : b.Filled Ty.Regular)
    (hb' : b'.Filled Ty.Regular) (hclear : b.clear = b'.clear)
    (h : (b.textWith Naming.nth).toList ++ x = (b'.textWith Naming.nth).toList ++ y) :
    b = b' ∧ x = y := by
  obtain ⟨name, span, anno, scheme⟩ := b
  obtain ⟨name', span', anno', scheme'⟩ := b'
  obtain ⟨σ, rfl, hσ⟩ := hb
  obtain ⟨σ', rfl, hσ'⟩ := hb'
  obtain ⟨rfl, rfl, rfl, -⟩ := Binder.mk.inj hclear
  simp only [textWith, Slot.filled, String.toList_append, List.append_assoc,
    List.append_cancel_left_eq] at h
  obtain ⟨rfl, hxy⟩ := Scheme.readable hσ hσ' h
  exact ⟨rfl, hxy⟩

namespace Expr

/-- The expression with another mark, another binder and other parts. -/
def withParts : Expr → Mark → Option Binder → List Expr → Expr
  | lit _ l, m, _, _ => lit m l
  | name _ x, m, _, _ => name m x
  | lam _ _ _, m, some p, [b] => lam m p b
  | app _ _ _, m, _, [f, a] => app m f a
  | letIn _ _ _ _, m, some b, [d, e] => letIn m b d e
  | cond _ _ _ _, m, _, [c, t, e] => cond m c t e
  | anno _ _ t, m, _, [e] => anno m e t
  | tuple _ _, m, _, es => tuple m es
  | invalid _, m, _, _ => invalid m
  | e, _, _, _ => e

theorem withParts_clear (e : Expr) : e.clear.withParts e.mark e.binder? e.children = e := by
  cases e <;> simp [withParts, mark, binder?, children]

/-- A tree is determined by its shape, its mark, its binder and its parts. -/
theorem eq_of_clear {e e' : Expr} (hclear : e.clear = e'.clear) (hmark : e.mark = e'.mark)
    (hbinder : e.binder? = e'.binder?) (hchildren : e.children = e'.children) : e = e' := by
  rw [← withParts_clear e, hclear, hmark, hbinder, hchildren, withParts_clear]

/-- What stands before the binder of an expression. -/
def keyword : Expr → String
  | lam _ _ _ => "fn "
  | letIn _ _ _ _ => "let "
  | _ => ""

theorem keyword_clear (e : Expr) : e.clear.keyword = e.keyword := by cases e <;> simp [keyword]

/-- What stands before the parts of an expression with a binder is a keyword and the binder. -/
theorem headWith_of_some {f : TyVar → String} {e : Expr} {b : Binder} (h : e.binder? = some b) :
    e.headWith f = e.keyword ++ b.textWith f := by
  cases e <;> cases h <;> rfl

/-- What stands before the parts of any other expression does not depend on slots. -/
theorem headWith_of_none {f : TyVar → String} {e : Expr} (h : e.binder? = none) :
    e.headWith f = e.clear.headWith f := by
  cases e with
  | lam | letIn => cases h
  | tuple m es => rw [clear_tuple, headWith, headWith]
  | _ => rfl

/-- What stands before the parts of an expression determines its binder. -/
theorem head_readable {e e' : Expr} {x y : List Char}
    (hfilled : ∀ b, e.binder? = some b → b.Filled Ty.Regular)
    (hfilled' : ∀ b, e'.binder? = some b → b.Filled Ty.Regular) (hclear : e.clear = e'.clear)
    (h : (e.headWith Naming.nth).toList ++ x = (e'.headWith Naming.nth).toList ++ y) :
    e.binder? = e'.binder? ∧ x = y := by
  have hbinders : e.binder?.map Binder.clear = e'.binder?.map Binder.clear := by
    have hbinder (e : Expr) : e.clear.binder? = e.binder?.map Binder.clear := binder?_update ..
    rw [← hbinder, hclear, hbinder]
  cases hb : e.binder? with
  | none =>
    rw [hb, Option.map_none, eq_comm, Option.map_eq_none_iff] at hbinders
    rw [headWith_of_none hb, headWith_of_none hbinders, hclear] at h
    exact ⟨hbinders.symm, List.append_cancel_left h⟩
  | some b =>
    rw [hb, Option.map_some, eq_comm, Option.map_eq_some_iff] at hbinders
    obtain ⟨b', hb', hbclear⟩ := hbinders
    have hkeyword : e.keyword = e'.keyword := by rw [← keyword_clear, hclear, keyword_clear]
    rw [headWith_of_some hb, headWith_of_some hb', hkeyword] at h
    simp only [String.toList_append, List.append_assoc, List.append_cancel_left_eq] at h
    obtain ⟨rfl, hxy⟩ := (hfilled b hb).readable (hfilled' b' hb') hbclear.symm h
    exact ⟨hb'.symm, hxy⟩

/-- No other filling of the expression has a line that begins the same. -/
def Legible (e : Expr) : Prop :=
  ∀ e', e'.Filled Ty.Regular → e.clear = e'.clear → ∀ x y,
    (e.lineWith Naming.nth).toList ++ x = (e'.lineWith Naming.nth).toList ++ y → e = e' ∧ x = y

/-- The parts of an expression can be read off a text one after the other. -/
theorem legible_parts {es es' : List Expr} (hes : ∀ e ∈ es, e.Legible)
    (hes' : ∀ e ∈ es', e.Filled Ty.Regular) (hclear : es.map clear = es'.map clear)
    {x y : List Char}
    (h : (String.join (es.map fun e => " " ++ e.lineWith Naming.nth)).toList ++ x =
      (String.join (es'.map fun e => " " ++ e.lineWith Naming.nth)).toList ++ y) :
    es = es' ∧ x = y := by
  induction es generalizing es' with
  | nil =>
    obtain rfl := List.map_eq_nil_iff.1 hclear.symm
    exact ⟨rfl, h⟩
  | cons e es ih =>
    cases es' with
    | nil => cases hclear
    | cons e' es' =>
      obtain ⟨he, hlegible⟩ := List.forall_mem_cons.1 hes
      obtain ⟨he', hfilled⟩ := List.forall_mem_cons.1 hes'
      obtain ⟨hhead, htail⟩ := List.cons.inj hclear
      simp only [List.map_cons, String.join_cons, String.toList_append, List.append_assoc,
        List.append_cancel_left_eq] at h
      obtain ⟨rfl, hrest⟩ := he e' he' hhead _ _ h
      obtain ⟨rfl, hxy⟩ := ih hlegible hfilled htail hrest
      exact ⟨rfl, hxy⟩

/-- The line of an expression determines what is in its slots, and what stands behind. -/
theorem Filled.legible {e : Expr} (h : e.Filled Ty.Regular) : e.Legible := by
  induction e using inductionOnParts with
  | step e ih =>
    intro e' h' hclear x y heq
    obtain ⟨hmark, hbinder⟩ := h e e.mem_walk_self
    obtain ⟨hmark', hbinder'⟩ := h' e' e'.mem_walk_self
    have hchildren : e.children.map clear = e'.children.map clear := by
      rw [← children_clear, hclear, children_clear]
    have hmarks : e.mark.clear = e'.mark.clear := by
      have hmark (e : Expr) : e.clear.mark = e.mark.clear := mark_update ..
      rw [← hmark, hclear, hmark]
    rw [lineWith_eq, lineWith_eq] at heq
    simp only [String.toList_append, List.append_assoc, List.append_cancel_left_eq] at heq
    -- the head, the parts and the mark are read in the order of the text
    obtain ⟨hsame, hrest⟩ := head_readable hbinder hbinder' hclear heq
    obtain ⟨hparts, hbehind⟩ := legible_parts
      (fun d hd => ih d hd (forall_walk_of_mem_children h hd))
      (fun d hd => forall_walk_of_mem_children h' hd) hchildren hrest
    obtain ⟨hty, hxy⟩ := hmark.readable hmark' hmarks hbehind
    exact ⟨eq_of_clear hclear hty hsame hparts, hxy⟩

end Expr

/-- The line of a declaration determines what is in its slots, and what stands behind. -/
theorem Decl.Filled.legible {d d' : Decl} (h : d.Filled Ty.Regular) (h' : d'.Filled Ty.Regular)
    (hclear : d.clear = d'.clear) {x y : List Char}
    (heq : (d.lineWith Naming.nth).toList ++ x = (d'.lineWith Naming.nth).toList ++ y) :
    d = d' ∧ x = y := by
  obtain ⟨span, binder, bound⟩ := d
  obtain ⟨span', binder', bound'⟩ := d'
  obtain ⟨rfl, hbinder, hbound⟩ := Decl.mk.inj hclear
  simp only [lineWith, String.toList_append, List.append_assoc, List.append_cancel_left_eq] at heq
  obtain ⟨rfl, hrest⟩ := h.binder.readable h'.binder hbinder heq
  obtain ⟨rfl, hcloser⟩ := h.bound.legible bound' h'.bound hbound _ _
    (List.append_cancel_left hrest)
  exact ⟨rfl, List.append_cancel_left hcloser⟩

/-! ## Renamings -/

/-- The positions of the variables of a list can be turned back into the variables. -/
theorem Naming.exists_inverse_position (vs : List TyVar) :
    ∃ ρ : Nat → TyVar, ∀ v ∈ vs, ρ ((empty.addAll vs).position v) = v := by
  obtain ⟨ρ, hρ⟩ := (distinct_empty.addAll vs).exists_inverse
  refine ⟨ρ, fun v hv => ?_⟩
  obtain ⟨i, hi⟩ := empty.exists_position?_addAll hv
  rw [position, hi]
  exact hρ v i hi

/-- Lists of variables that can be numbered the same are renamings of each other. -/
theorem exists_perm_of_map_eq {vs ws : List TyVar} {π ρ π' ρ' : TyVar → TyVar}
    (h : vs.map π = ws.map π') (hρ : ∀ v ∈ vs, ρ (π v) = v) (hρ' : ∀ w ∈ ws, ρ' (π' w) = w) :
    ∃ κ : Equiv.Perm TyVar, ∀ v ∈ vs, κ v = ρ' (π v) := by
  have hto {vs ws : List TyVar} {π π' ρ' : TyVar → TyVar} (h : vs.map π = ws.map π')
      (hρ' : ∀ w ∈ ws, ρ' (π' w) = w) :
      (vs.map Ty.var).map (Ty.replace fun v => .var (ρ' (π v))) = ws.map Ty.var := by
    have hws := congrArg (List.map fun i => Ty.var (ρ' i)) h
    simp only [List.map_map] at hws ⊢
    exact hws.trans (List.map_congr_left fun w hw => congrArg Ty.var (hρ' w hw))
  obtain ⟨κ, hκ⟩ := exists_perm_of_map_replace (hto h hρ') (hto h.symm hρ)
  refine ⟨κ, fun v hv => (Ty.var.inj ?_).symm⟩
  exact hκ (.var v) (List.mem_map_of_mem hv) v (List.mem_singleton_self v)

/-- Declarations with the same line are renamings of each other. -/
theorem Decl.Filled.exists_rename {d d' : Decl} (h : d.Filled Ty.Regular)
    (h' : d'.Filled Ty.Regular) (hclear : d.clear = d'.clear) {x y : List Char}
    (heq : d.line.toList ++ x = d'.line.toList ++ y) :
    (∃ π : Equiv.Perm TyVar, d.rename π = d') ∧ x = y := by
  -- the variables of both are numbered in the order in which they are printed
  have hnumbered (d : Decl) : d.line = (d.rename d.naming.position).lineWith Naming.nth :=
    (lineWith_rename ..).symm
  rw [hnumbered d, hnumbered d'] at heq
  have hclear' : (d.rename d.naming.position).clear = (d'.rename d'.naming.position).clear := by
    rw [Decl.rename, Decl.rename, clear_retype, clear_retype, hclear]
  obtain ⟨hsame, hxy⟩ := (h.rename _).legible (h'.rename _) hclear' heq
  refine ⟨?_, hxy⟩
  have hvars := congrArg Decl.occurrences hsame
  rw [occurrences_rename, occurrences_rename] at hvars
  obtain ⟨ρ, hρ⟩ := Naming.exists_inverse_position d.occurrences
  obtain ⟨ρ', hρ'⟩ := Naming.exists_inverse_position d'.occurrences
  obtain ⟨π, hπ⟩ := exists_perm_of_map_eq hvars hρ hρ'
  refine ⟨π, ?_⟩
  calc d.rename π
      = d.rename (ρ' ∘ d.naming.position) := rename_congr hπ
    _ = (d'.rename d'.naming.position).rename ρ' := by rw [← rename_rename, hsame]
    _ = d'.rename (ρ' ∘ d'.naming.position) := rename_rename ..
    _ = d'.rename id := rename_congr hρ'
    _ = d' := d'.rename_id

/-- Two declarations are the same up to the numbers of their variables. -/
def Decl.Renamed (d d' : Decl) : Prop := ∃ π : Equiv.Perm TyVar, d.rename π = d'

namespace Program

/-- The lines of declarations, each behind a blank. -/
def lineChars (p : Program) : List Char := p.flatMap fun d => ' ' :: d.line.toList

/-- The line of a program is made of the lines of its declarations. -/
theorem cons_line {p : Program} (h : p ≠ []) : ' ' :: p.line.toList = p.lineChars := by
  obtain ⟨d, ds, rfl⟩ := List.exists_cons_of_ne_nil h
  simp [line, lineChars, String.toList_intercalate, intercalate_cons, List.flatMap_map]

/-- Programs with the same lines are renamings of each other, declaration by declaration. -/
theorem renamed_of_lineChars {p q : Program} (hp : p.Filled Ty.Regular) (hq : q.Filled Ty.Regular)
    (hclear : p.clear = q.clear) (h : p.lineChars = q.lineChars) :
    List.Forall₂ Decl.Renamed p q := by
  induction p generalizing q with
  | nil =>
    obtain rfl := List.map_eq_nil_iff.1 hclear.symm
    exact .nil
  | cons d ds ih =>
    cases q with
    | nil => cases hclear
    | cons d' ds' =>
      obtain ⟨hd, hds⟩ := List.forall_mem_cons.1 hp
      obtain ⟨hd', hds'⟩ := List.forall_mem_cons.1 hq
      obtain ⟨hhead, htail⟩ := List.cons.inj hclear
      obtain ⟨hrenamed, hrest⟩ := hd.exists_rename hd' hhead (List.cons.inj h).2
      exact .cons hrenamed (ih hds hds' htail hrest)

theorem renamed_of_line {p q : Program} (hp : p.Filled Ty.Regular) (hq : q.Filled Ty.Regular)
    (hclear : p.clear = q.clear) (h : p.line = q.line) : List.Forall₂ Decl.Renamed p q := by
  cases p with
  | nil =>
    obtain rfl := List.map_eq_nil_iff.1 hclear.symm
    exact .nil
  | cons d ds =>
    have hne : q ≠ [] := by
      rintro rfl
      cases hclear
    refine renamed_of_lineChars hp hq hclear ?_
    rw [← cons_line (List.cons_ne_nil d ds), h, cons_line hne]

/-- Renamings of each other have the same text at every width. -/
theorem text_of_renamed {p q : Program} (h : List.Forall₂ Decl.Renamed p q) (width : Nat) :
    p.text width = q.text width := by
  have hdocs : p.map Decl.doc = q.map Decl.doc := by
    induction h with
    | nil => rfl
    | @cons d d' _ _ hd _ ih =>
      obtain ⟨π, rfl⟩ := hd
      rw [List.map_cons, List.map_cons, ih, d.doc_rename π.injective]
  rw [text, text, doc, doc, hdocs]

end Program

/-- The printout identifies a typing.  Whatever the width, two fillings of all slots of the tree of
a source with regular types are printed the same if and only if each declaration of the one becomes
that of the other by a one-to-one renaming of variables. -/
theorem printout_identifies_typing (file : FileId) (source : String) :
    ∃ p ds, parse file (lex file source).1 = .ok (p, ds) ∧
      ∀ q q' : Program, q.clear = p.clear → q'.clear = p.clear →
        q.Filled Ty.Regular → q'.Filled Ty.Regular → ∀ width,
          (q.text width = q'.text width ↔
            List.Forall₂ (fun d d' => ∃ π : Equiv.Perm TyVar, d.rename π = d') q q') := by
  obtain ⟨p, ds, hparse⟩ := parse_total file file (lex file source).1 (lex_file file source)
  refine ⟨p, ds, hparse, fun q q' hclear hclear' hq hq' width => ⟨fun h => ?_, fun h => ?_⟩⟩
  · have hline : q.line = q'.line := by
      rw [← (Program.laid_of_parse hparse hclear width).unbroken, h,
        (Program.laid_of_parse hparse hclear' width).unbroken]
    exact Program.renamed_of_line hq hq' (hclear.trans hclear'.symm) hline
  · exact Program.text_of_renamed h width

/-! ## A sample -/

/-- The declaration with the same scheme in all slots. -/
def Decl.filledWith (σ : Scheme) (d : Decl) : Decl :=
  d.update (fun _ => .filled σ.ty) (fun _ => .filled σ)

/-- A declaration that is filled with one scheme has all slots filled. -/
theorem Decl.filled_filledWith {σ : Scheme} (h : σ.ty.Regular) (d : Decl) :
    (d.filledWith σ).Filled Ty.Regular := by
  refine ⟨⟨σ, rfl, h⟩, fun e he => ?_⟩
  simp only [filledWith, update, Expr.walk_update] at he
  obtain ⟨c, -, rfl⟩ := List.mem_map.1 he
  refine ⟨⟨σ.ty, by rw [Expr.mark_update]; rfl, h⟩, fun b hb => ?_⟩
  rw [Expr.binder?_update] at hb
  obtain ⟨b, -, rfl⟩ := Option.map_eq_some_iff.1 hb
  exact ⟨σ, rfl, h⟩

theorem Decl.rename_filledWith (π : TyVar → TyVar) (σ : Scheme) (d : Decl) :
    (d.filledWith σ).rename π = d.filledWith (σ.rename π) :=
  congrArg (Decl.mk d.span _) (Expr.update_update ..)

theorem Decl.clear_filledWith (σ : Scheme) (d : Decl) : (d.filledWith σ).clear = d.clear :=
  congrArg (Decl.mk d.span _) (Expr.clear_update ..)

/-- The scheme of functions from one variable to another, of which the first is quantified. -/
def Scheme.arrowSample (v w : TyVar) : Scheme := ⟨[v], .fn (.var v) (.var w)⟩

/-- Two fillings of one tree that differ in the numbers of variables only have the same printout. -/
theorem printout_identifies_typing_sample :
    ∃ p, parse 0 (lex 0 "let f = fn (x) -> x").1 = .ok (p, []) ∧
      Program.text (p.map (Decl.filledWith (.arrowSample 3 7))) 30 =
        Program.text (p.map (Decl.filledWith (.arrowSample 7 3))) 30 ∧
      Program.text (p.map (Decl.filledWith (.arrowSample 3 7))) 30 ≠
        Program.text (p.map (Decl.filledWith (.arrowSample 3 3))) 30 := by
  have hcounts : ((parse 0 (lex 0 "let f = fn (x) -> x").1).map fun r =>
      (r.1.length, r.2.length)) = .ok (1, 0) := by decide +kernel
  obtain ⟨p, ds, hparse, h⟩ := printout_identifies_typing 0 "let f = fn (x) -> x"
  rw [hparse, Except.map, Except.ok.injEq, Prod.mk.injEq] at hcounts
  obtain ⟨hlength, hnone⟩ := hcounts
  cases List.eq_nil_of_length_eq_zero hnone
  have hregular (v w : TyVar) : (Scheme.arrowSample v w).ty.Regular := .fn (.var v) (.var w)
  have hclear (σ : Scheme) : Program.clear (p.map (Decl.filledWith σ)) = p.clear := by
    rw [Program.clear, List.map_map]
    exact List.map_congr_left fun d _ => d.clear_filledWith σ
  have hfilled (v w : TyVar) :
      Program.Filled Ty.Regular (p.map (Decl.filledWith (.arrowSample v w))) :=
    List.forall_mem_map.2 fun d _ => d.filled_filledWith (hregular v w)
  have hiff (v w : TyVar) := h _ _ (hclear _) (hclear _) (hfilled 3 7) (hfilled v w) 30
  simp only [List.forall₂_map_left_iff, List.forall₂_map_right_iff, List.forall₂_same,
    Decl.rename_filledWith] at hiff
  refine ⟨p, hparse, (hiff 7 3).2 fun d _ => ⟨Equiv.swap 3 7, ?_⟩, fun heq => ?_⟩
  · exact congrArg (Decl.filledWith · d) (by decide)
  · have hpos : 0 < p.length := Nat.lt_of_lt_of_eq Nat.zero_lt_one hlength.symm
    obtain ⟨d, hd⟩ := List.exists_mem_of_length_pos hpos
    obtain ⟨π, hπ⟩ := (hiff 3 3).1 heq d hd
    -- two variables would have to become one
    have hvars : [π 3, π 7] = [3, 3] :=
      Option.some.inj (congrArg (fun d => d.binder.scheme.get?.map (·.ty.occurrences)) hπ)
    simp only [List.cons.injEq, and_true] at hvars
    exact absurd (π.injective (hvars.1.trans hvars.2.symm)) (by decide)

end LetPoly
