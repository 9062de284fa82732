import LetPoly.Proofs.Generalization

/-!
# What a walk leaves behind

A walk leaves a tree behind, and the tree mentions variables.  The *generic* variables of
a tree are those that its binders quantify over.  A tree is *tidy* in a territory if each of
its slots is known in the territory less the generic variables of the rest of the tree.  Only
the definition of a generic variable may mention it.

`Left` puts together what holds whether a walk ends or stops: the tree is the same but for its
slots, it is tidy, and the session took a stretch that retires the generic variables of the tree.
`LeftAll` is the same for parts that are walked one after another, and `Left.node` goes from the
parts of an expression to the expression.
-/

namespace LetPoly

namespace Expr

/-! ## Generic variables -/

/-- The variables that the binder of a node quantifies over. -/
def own (e : Expr) : List TyVar :=
  match e.binder? with
  | some b => b.quantified
  | none => []

/-- The variables that the binders of an expression quantify over. -/
def generic (e : Expr) : Set TyVar := {v | ∃ d ∈ e.walk, v ∈ d.own}

/-- The variables that the binders of some expressions quantify over. -/
def genericAll (es : List Expr) : Set TyVar := {v | ∃ e ∈ es, v ∈ e.generic}

/-- A variable is generic if it is so at the node, or in a part. -/
theorem mem_generic {e : Expr} {v : TyVar} :
    v ∈ e.generic ↔ v ∈ e.own ∨ v ∈ genericAll e.children := by
  simp only [generic, genericAll, Set.mem_ofPred_eq]
  rw [walk_eq]
  simp only [List.mem_cons, List.mem_flatMap]
  constructor
  · rintro ⟨d, rfl | ⟨c, hc, hd⟩, hv⟩
    · exact .inl hv
    · exact .inr ⟨c, hc, d, hd, hv⟩
  · rintro (hv | ⟨c, hc, d, hd, hv⟩)
    · exact ⟨e, .inl rfl, hv⟩
    · exact ⟨d, .inr ⟨c, hc, hd⟩, hv⟩

theorem own_clear (e : Expr) : e.clear.own = [] := by
  cases e <;> rfl

/-- A cleared tree has no schemes, so no variable is generic. -/
theorem generic_clear (e : Expr) : e.clear.generic = ∅ := by
  induction e using inductionOnParts with
  | step e ih =>
    refine Set.eq_empty_of_forall_notMem fun v hv => ?_
    rw [mem_generic, own_clear, children_clear] at hv
    obtain hv | ⟨d, hd, hv⟩ := hv
    · cases hv
    · obtain ⟨c, hc, rfl⟩ := List.mem_map.1 hd
      rw [ih c hc] at hv
      exact hv

theorem generic_of_blank {e : Expr} (h : e.clear = e) : e.generic = ∅ := by
  rw [← h, generic_clear]

/-- The part of an expression with a number is the definition of its binder. -/
def IsDefinition : Expr → Nat → Prop
  | letIn _ _ _ _, i => i = 0
  | _, _ => False

/-- The variables that the binders of some expressions quantify over, all but one. -/
def genericBut (es : List Expr) (i : Nat) : Set TyVar :=
  {v | ∃ (j : Nat) (e : Expr), j ≠ i ∧ es[j]? = some e ∧ v ∈ e.generic}

/-- The generic variables of an expression from outside the part with a number. -/
def around (e : Expr) (i : Nat) : Set TyVar :=
  {v | (v ∈ e.own ∧ ¬ e.IsDefinition i) ∨ v ∈ genericBut e.children i}

theorem mem_generic_of_part {e c : Expr} {i : Nat} (hc : e.children[i]? = some c) {v : TyVar}
    (hv : v ∈ c.generic) : v ∈ e.generic :=
  mem_generic.2 (.inr ⟨c, List.mem_of_getElem? hc, hv⟩)

/-- What is generic around a part is generic in the tree. -/
theorem around_subset (e : Expr) (i : Nat) : e.around i ⊆ e.generic := by
  rintro v (⟨hv, -⟩ | ⟨j, c, -, hc, hv⟩)
  · exact mem_generic.2 (.inl hv)
  · exact mem_generic_of_part hc hv

/-! ## Tidy trees -/

/-- Every slot is known in the territory less the generic variables of the rest of the tree, and no
variable is quantified by two binders. -/
inductive Tidy (s : Session) : Set TyVar → Expr → Prop where
  | node {T : Set TyVar} {e : Expr}
      (own : ∀ v ∈ e.own, v ∈ T ∧ v ∉ genericAll e.children)
      (mark : ∀ t, e.mark.ty = .filled t → t.Known (T \ e.generic) s)
      (binder : ∀ b σ, e.binder? = some b → b.scheme = .filled σ → σ.Known (T \ e.generic) s)
      (parts : ∀ i c, e.children[i]? = some c → Tidy s (T \ e.around i) c) : Tidy s T e

variable {T T' U N : Set TyVar} {s s' s₁ s₂ : Session}

/-- The variables of the node's own binder are not quantified in its parts. -/
theorem Tidy.own {e : Expr} (h : Tidy s T e) : ∀ v ∈ e.own, v ∈ T ∧ v ∉ genericAll e.children := by
  cases h with
  | node own _ _ _ => exact own

/-- The type of the node has no generic variables of the tree. -/
theorem Tidy.mark {e : Expr} (h : Tidy s T e) :
    ∀ t, e.mark.ty = .filled t → t.Known (T \ e.generic) s := by
  cases h with
  | node _ mark _ _ => exact mark

/-- The scheme of the node's binder has no generic variables of the tree among its free ones. -/
theorem Tidy.binder {e : Expr} (h : Tidy s T e) :
    ∀ b σ, e.binder? = some b → b.scheme = .filled σ → σ.Known (T \ e.generic) s := by
  cases h with
  | node _ _ binder _ => exact binder

/-- A part is tidy without the variables that are generic around it. -/
theorem Tidy.parts {e : Expr} (h : Tidy s T e) :
    ∀ i c, e.children[i]? = some c → Tidy s (T \ e.around i) c := by
  cases h with
  | node _ _ _ parts => exact parts

/-- A tree that is tidy in a territory is tidy in a larger one. -/
theorem Tidy.mono {e : Expr} (h : Tidy s T e) (hT : T ⊆ T') : Tidy s T' e := by
  induction h generalizing T' with
  | @node T e own mark binder _ ih =>
    have hsub : T \ e.generic ⊆ T' \ e.generic := Set.sdiff_subset_sdiff_left hT
    exact .node (fun v hv => ⟨hT (own v hv).1, (own v hv).2⟩) (fun t ht => (mark t ht).mono hsub)
      (fun b σ hb hσ => (binder b σ hb hσ).mono hsub)
      fun i c hc => ih i c hc (Set.sdiff_subset_sdiff_left hT)

theorem own_eq {e : Expr} {b : Binder} {σ : Scheme} (hb : e.binder? = some b)
    (hσ : b.scheme = .filled σ) : e.own = σ.vars := by
  simp only [own, hb, Binder.quantified, hσ, Slot.filled]

/-- A variable that the node quantifies comes from the scheme of its binder. -/
theorem exists_of_mem_own {e : Expr} {v : TyVar} (hv : v ∈ e.own) :
    ∃ b σ, e.binder? = some b ∧ b.scheme = .filled σ ∧ v ∈ σ.vars := by
  cases hb : e.binder? with
  | none => simp [own, hb] at hv
  | some b =>
    cases hσ : b.scheme with
    | mk σ? =>
      cases σ? with
      | none => simp [own, hb, Binder.quantified, hσ] at hv
      | some σ => exact ⟨b, σ, rfl, hσ, by rwa [own_eq hb hσ] at hv⟩

/-- A tree stays tidy on a stretch that leaves its generic variables alone. -/
theorem Tidy.steps {e : Expr} (h : Tidy s T e) (hs : s.Sound U) (hsteps : s.Steps U N s')
    (hU : U ⊆ T \ e.generic) : Tidy s' (T \ N) e := by
  induction h with
  | @node T e own mark binder parts ih =>
    have hsound := hs.mono hU
    have hsteps' := hsteps.mono hU (Set.Subset.refl N)
    have hcomm : (T \ e.generic) \ N = (T \ N) \ e.generic := sdiff_right_comm ..
    refine .node (fun v hv => ⟨⟨(own v hv).1, fun hN => ?_⟩, (own v hv).2⟩) (fun t ht => ?_)
      (fun b σ hb hσ => ?_) fun i c hc => ?_
    · obtain ⟨b, σ, hb, hσ, hv⟩ := exists_of_mem_own hv
      exact Nat.not_lt.2 (hsteps.retires v hN).drawn_le ((binder b σ hb hσ).below v hv)
    · rw [← hcomm]
      exact (mark t ht).steps hsound hsteps'
    · rw [← hcomm]
      refine (binder b σ hb hσ).steps hsound hsteps' fun v hv hmem => hmem.2 ?_
      exact mem_generic.2 (.inl (by rwa [own_eq hb hσ]))
    · rw [sdiff_right_comm]
      refine ih i c hc fun v hv => ⟨⟨(hU hv).1, fun hmem => ?_⟩, fun hmem => ?_⟩
      · exact (hU hv).2 (e.around_subset i hmem)
      · exact (hU hv).2 (mem_generic_of_part hc hmem)

/-- A blank tree has nothing to keep tidy. -/
theorem tidy_clear (e : Expr) : Tidy s T e.clear := by
  induction e using inductionOnParts generalizing T with
  | step e ih =>
    refine .node (fun v hv => ?_) (fun t ht => ?_) (fun b σ hb hσ => ?_) fun i c hc => ?_
    · rw [own_clear] at hv
      cases hv
    · have : e.clear.mark.ty = .empty := by cases e <;> rfl
      rw [this] at ht
      cases ht
    · have : b.scheme = .empty := by cases e <;> cases hb <;> rfl
      rw [this] at hσ
      cases hσ
    · rw [children_clear, List.getElem?_map, Option.map_eq_some_iff] at hc
      obtain ⟨d, hd, rfl⟩ := hc
      exact ih d (List.mem_of_getElem? hd)

/-! ## Changing the slot of the node -/

/-- The expression with another mark. -/
def withMark (m : Mark) : Expr → Expr
  | lit _ l => lit m l
  | name _ x => name m x
  | lam _ p b => lam m p b
  | app _ f a => app m f a
  | letIn _ b d e => letIn m b d e
  | cond _ c t e => cond m c t e
  | anno _ e a => anno m e a
  | tuple _ es => tuple m es
  | invalid _ => invalid m

@[simp] theorem mark_withMark (m : Mark) (e : Expr) : (e.withMark m).mark = m := by
  cases e <;> rfl

@[simp] theorem binder?_withMark (m : Mark) (e : Expr) : (e.withMark m).binder? = e.binder? := by
  cases e <;> rfl

@[simp] theorem children_withMark (m : Mark) (e : Expr) : (e.withMark m).children = e.children := by
  cases e <;> rfl

/-- Changing the type of the node does not change the tree apart from its slots. -/
theorem clear_withMark {m : Mark} {e : Expr} (h : m.clear = e.mark.clear) :
    (e.withMark m).clear = e.clear := by
  cases e <;> simp only [withMark, clear_lit, clear_name, clear_lam, clear_app, clear_letIn,
    clear_cond, clear_anno, clear_tuple, clear_invalid, h] <;> rfl

@[simp] theorem generic_withMark (m : Mark) (e : Expr) : (e.withMark m).generic = e.generic := by
  ext v
  rw [mem_generic, mem_generic, children_withMark, own, own, binder?_withMark]

@[simp] theorem around_withMark (m : Mark) (e : Expr) (i : Nat) :
    (e.withMark m).around i = e.around i := by
  have hdef : (e.withMark m).IsDefinition i ↔ e.IsDefinition i := by cases e <;> rfl
  simp only [around, hdef, children_withMark, own, binder?_withMark]

/-- A tidy tree stays tidy when its node gets a type without generic variables. -/
theorem Tidy.withMark {e : Expr} (h : Tidy s T e) {m : Mark}
    (hm : ∀ t, m.ty = .filled t → t.Known (T \ e.generic) s) : Tidy s T (e.withMark m) := by
  refine .node (fun v hv => ?_) (fun t ht => ?_) (fun b σ hb hσ => ?_) fun i c hc => ?_
  · rw [Expr.own, binder?_withMark] at hv
    rw [children_withMark]
    exact h.own v hv
  · rw [generic_withMark]
    exact hm t (by rwa [mark_withMark] at ht)
  · rw [generic_withMark]
    exact h.binder b σ (by rwa [binder?_withMark] at hb) hσ
  · rw [around_withMark]
    exact h.parts i c (by rwa [children_withMark] at hc)

/-! ## From the parts to the whole -/

/-- What holds of the tree `e'` that a walk of `e` leaves behind, and of the session at its end. -/
structure Left (T : Set TyVar) (e e' : Expr) (s s' : Session) : Prop where
  /-- The tree is the same but for its slots. -/
  shape : e'.clear = e.clear
  /-- The generic variables of the tree are retired. -/
  steps : s.Steps T e'.generic s'
  /-- The tree is tidy. -/
  tidy : e'.Tidy s' T

/-- What holds of the trees that walks of some parts leave behind, one after another.  Parts at
the end may not have been walked. -/
inductive LeftAll : Set TyVar → List Expr → List Expr → Session → Session → Prop where
  | rest {T : Set TyVar} {es : List Expr} {s : Session} (hes : ∀ e ∈ es, e.clear = e)
      (hs : s.Sound T) : LeftAll T es es s s
  | act {T : Set TyVar} {es es' : List Expr} {s s₁ s₂ : Session} (h : s.Steps T ∅ s₁)
      (h' : LeftAll T es es' s₁ s₂) : LeftAll T es es' s s₂
  | cons {T : Set TyVar} {e e' : Expr} {es es' : List Expr} {s s₁ s₂ : Session}
      (h : Left T e e' s s₁) (h' : LeftAll (T \ e'.generic) es es' s₁ s₂) :
      LeftAll T (e :: es) (e' :: es') s s₂

theorem Left.sound {e e' : Expr} (h : Left T e e' s s') : s'.Sound (T \ e'.generic) := h.steps.sound

/-- A tree that was not walked is left as it was. -/
theorem Left.refl {e : Expr} (he : e.clear = e) (hs : s.Sound T) : Left T e e s s where
  shape := rfl
  steps := by rw [generic_of_blank he]; exact .refl hs
  tidy := by rw [← he]; exact tidy_clear e

/-- Acts after the walk of a tree leave what it left. -/
theorem Left.act {e e' : Expr} (h : Left T e e' s s₁) (h' : s₁.Steps (T \ e'.generic) ∅ s₂) :
    Left T e e' s s₂ where
  shape := h.shape
  steps := h.steps.trans_act h'
  tidy := (h.tidy.steps h.sound h' (Set.Subset.refl _)).mono Set.sdiff_subset

/-- After the walk the node can get its type. -/
theorem Left.withMark {e e' : Expr} (h : Left T e e' s s') {m : Mark}
    (hclear : m.clear = e'.mark.clear)
    (hm : ∀ t, m.ty = .filled t → t.Known (T \ e'.generic) s') : Left T e (e'.withMark m) s s' where
  shape := by rw [clear_withMark hclear, h.shape]
  steps := by rw [generic_withMark]; exact h.steps
  tidy := h.tidy.withMark hm

/-- The generic variables of several expressions are those of the first and those of the others. -/
theorem genericAll_cons (e : Expr) (es : List Expr) :
    genericAll (e :: es) = e.generic ∪ genericAll es := by
  ext v
  simp [genericAll]

@[simp] theorem genericAll_nil : genericAll [] = ∅ := by
  ext v
  simp [genericAll]

theorem generic_of_own_eq_nil {e : Expr} (h : e.own = []) : e.generic = genericAll e.children := by
  ext v
  simp [mem_generic, h]

@[simp] theorem generic_app (m : Mark) (f a : Expr) :
    (app m f a).generic = f.generic ∪ a.generic := by
  rw [generic_of_own_eq_nil rfl]
  simp [children, genericAll_cons]

@[simp] theorem generic_cond (m : Mark) (c t e : Expr) :
    (cond m c t e).generic = c.generic ∪ t.generic ∪ e.generic := by
  rw [generic_of_own_eq_nil rfl]
  simp [children, genericAll_cons, Set.union_assoc]

@[simp] theorem generic_anno (m : Mark) (e : Expr) (a : TypeExpr) :
    (anno m e a).generic = e.generic := by
  rw [generic_of_own_eq_nil rfl]
  simp [children, genericAll_cons]

@[simp] theorem generic_tuple (m : Mark) (es : List Expr) :
    (tuple m es).generic = genericAll es :=
  generic_of_own_eq_nil rfl

/-- A parameter has a type without quantifiers. -/
theorem generic_lam {p : Binder} (h : p.quantified = []) (m : Mark) (b : Expr) :
    (lam m p b).generic = b.generic := by
  have hown : (lam m p b).own = [] := h
  rw [generic_of_own_eq_nil hown]
  simp [children, genericAll_cons]

/-- The parts that are left are the same but for their slots. -/
theorem LeftAll.shape {es es' : List Expr} (h : LeftAll T es es' s s') :
    es'.map clear = es.map clear := by
  induction h with
  | rest => rfl
  | act _ _ ih => exact ih
  | cons h _ ih => rw [List.map_cons, List.map_cons, h.shape, ih]

/-- The generic variables of all parts are retired, one part after the other. -/
theorem LeftAll.steps {es es' : List Expr} (h : LeftAll T es es' s s') :
    s.Steps T (genericAll es') s' := by
  induction h with
  | @rest T es s hes hs =>
    have : genericAll es = ∅ := Set.eq_empty_of_forall_notMem fun v ⟨e, he, hv⟩ => by
      rw [generic_of_blank (hes e he)] at hv
      exact hv
    rw [this]
    exact .refl hs
  | act h _ ih => exact h.act_trans ih
  | @cons T e e' es es' s s₁ s₂ h _ ih =>
    rw [genericAll_cons]
    exact h.steps.trans ih

/-- Each part is tidy apart from the generic variables of the other parts. -/
theorem LeftAll.tidy {es es' : List Expr} (h : LeftAll T es es' s s') :
    ∀ (i : Nat) c, es'[i]? = some c → Tidy s' (T \ genericBut es' i) c := by
  induction h with
  | @rest T es s hes hs =>
    intro i c hc
    rw [← hes c (List.mem_of_getElem? hc)]
    exact tidy_clear c
  | act _ _ ih => exact ih
  | @cons T e e' es es' s s₁ s₂ h hs ih =>
    intro i c hc
    cases i with
    | zero =>
      cases hc
      refine (h.tidy.steps h.sound hs.steps (Set.Subset.refl _)).mono fun v hv => ⟨hv.1, ?_⟩
      rintro ⟨_ | j, d, hne, hd, hmem⟩
      · exact hne rfl
      · exact hv.2 ⟨d, List.mem_of_getElem? hd, hmem⟩
    | succ i =>
      refine (ih i c hc).mono fun v hv => ⟨hv.1.1, ?_⟩
      rintro ⟨_ | j, d, hne, hd, hmem⟩
      · cases hd
        exact hv.1.2 hmem
      · exact hv.2 ⟨j, d, fun e => hne (congrArg Nat.succ e), hd, hmem⟩

/-- An expression whose binder quantifies over nothing is left like its parts. -/
theorem Left.node {e e' : Expr} (h : LeftAll T e.children e'.children s s')
    (shape : e'.clear = e.clear) (hown : e'.own = [])
    (mark : ∀ t, e'.mark.ty = .filled t → t.Known (T \ genericAll e'.children) s')
    (binder : ∀ b σ, e'.binder? = some b → b.scheme = .filled σ →
      σ.Known (T \ genericAll e'.children) s') : Left T e e' s s' := by
  have hgeneric := generic_of_own_eq_nil hown
  refine ⟨shape, by rw [hgeneric]; exact h.steps, .node ?_ ?_ ?_ fun i c hc => ?_⟩
  · rw [hown]
    nofun
  · rwa [hgeneric]
  · rwa [hgeneric]
  · refine (h.tidy i c hc).mono fun v hv => ⟨hv.1, ?_⟩
    rintro (⟨hmem, -⟩ | hmem)
    · rw [hown] at hmem
      cases hmem
    · exact hv.2 hmem

/-- Acts before the walk of a tree leave what it needs. -/
theorem Left.prepend {e e' : Expr} (h : s.Steps T ∅ s₁) (h' : Left T e e' s₁ s₂) :
    Left T e e' s s₂ where
  shape := h'.shape
  steps := h.act_trans h'.steps
  tidy := h'.tidy

/-! ## Definitions -/

/-- What holds of a definition after it was generalized to a scheme. -/
structure Defined (T : Set TyVar) (e e' : Expr) (σ : Scheme) (s s' : Session) : Prop where
  /-- The tree of the definition. -/
  left : Left T e e' s s'
  /-- The quantified variables are generic in nothing else. -/
  vars : ∀ v ∈ σ.vars, v ∈ T \ e'.generic
  /-- The quantified variables are retired. -/
  retires : ∀ v ∈ σ.vars, s.Retires s' v
  /-- The scheme is known apart from its quantified variables. -/
  known : σ.Known ((T \ e'.generic) \ {v | v ∈ σ.vars}) s'

/-- After a definition its generic variables are retired, and those that its scheme quantifies. -/
theorem Defined.steps {e e' : Expr} {σ : Scheme} (h : Defined T e e' σ s s') :
    s.Steps T (e'.generic ∪ {v | v ∈ σ.vars}) s' :=
  h.left.steps.retire h.retires

/-- After a definition the session is sound without both. -/
theorem Defined.sound {e e' : Expr} {σ : Scheme} (h : Defined T e e' σ s s') :
    s'.Sound ((T \ e'.generic) \ {v | v ∈ σ.vars}) := by
  rw [Set.sdiff_sdiff]
  exact h.steps.sound

/-- Acts after a definition leave what it left. -/
theorem Defined.act {e e' : Expr} {σ : Scheme} (h : Defined T e e' σ s s₁)
    (h' : s₁.Steps ((T \ e'.generic) \ {v | v ∈ σ.vars}) ∅ s₂) : Defined T e e' σ s s₂ where
  left := h.left.act (h'.mono Set.sdiff_subset (Set.Subset.refl ∅))
  vars := h.vars
  retires v hv := (h.retires v hv).steps h.sound h' fun hmem => hmem.2 hv
  known := (h.known.steps h.sound h' fun _ hv hmem => hmem.2 hv).mono Set.sdiff_subset

/-- A local definition quantifies the variables of its scheme, besides those of its parts. -/
theorem generic_letIn {m : Mark} {b : Binder} {d e : Expr} {σ : Scheme}
    (hb : b.scheme = .filled σ) :
    (letIn m b d e).generic = (d.generic ∪ {v | v ∈ σ.vars}) ∪ e.generic := by
  ext v
  rw [mem_generic, own_eq rfl hb]
  simp only [genericAll, children, List.mem_cons, List.not_mem_nil, or_false, exists_eq_or_imp,
    exists_eq_left, Set.mem_ofPred_eq, Set.mem_union]
  tauto

/-- A local definition is left like its definition and, in what remains of the territory, its
body. -/
theorem Left.letIn {m m' : Mark} {b b' : Binder} {d d' e e' : Expr} {σ : Scheme}
    (hd : Defined T d d' σ s s₁) (he : Left ((T \ d'.generic) \ {v | v ∈ σ.vars}) e e' s₁ s₂)
    (hb : b'.scheme = .filled σ) (hbclear : b'.clear = b.clear) (hmclear : m'.clear = m.clear)
    (mark : ∀ t, m'.ty = .filled t →
      t.Known (T \ (letIn m' b' d' e').generic) s₂) :
    Left T (letIn m b d e) (letIn m' b' d' e') s s₂ := by
  have hgeneric := generic_letIn (m := m') (d := d') (e := e') hb
  have hterritory : ((T \ d'.generic) \ {v | v ∈ σ.vars}) \ e'.generic =
      T \ (Expr.letIn m' b' d' e').generic := by
    rw [hgeneric, ← Set.sdiff_sdiff, ← Set.sdiff_sdiff]
  have hrest : s₁.Steps (T \ (d'.generic ∪ {v | v ∈ σ.vars})) e'.generic s₂ := by
    rw [← Set.sdiff_sdiff]
    exact he.steps
  refine ⟨?_, by rw [hgeneric]; exact hd.steps.trans hrest, .node ?_ mark ?_ ?_⟩
  · rw [clear_letIn, clear_letIn, hmclear, hbclear, hd.left.shape, he.shape]
  · intro v hv
    rw [own_eq rfl hb] at hv
    refine ⟨(hd.vars v hv).1, ?_⟩
    rintro ⟨c, hc, hmem⟩
    simp only [children, List.mem_cons, List.not_mem_nil, or_false] at hc
    rcases hc with rfl | rfl
    · exact (hd.vars v hv).2 hmem
    · exact Nat.not_lt.2 (he.steps.retires v hmem).drawn_le (hd.known.below v hv)
  · rintro _ τ ⟨⟩ hτ
    obtain rfl : σ = τ := by
      rw [hb] at hτ
      cases hτ
      rfl
    rw [← hterritory]
    exact hd.known.steps hd.sound he.steps fun v hv hmem => hmem.2 hv
  · rintro (_ | _ | i) c hc
    · cases hc
      refine (hd.left.tidy.steps hd.sound he.steps Set.sdiff_subset).mono fun v hv => ⟨hv.1, ?_⟩
      rintro (⟨-, hdef⟩ | ⟨_ | _ | j, c, hne, hc, hmem⟩)
      · exact hdef rfl
      · exact hne rfl
      · cases hc
        exact hv.2 hmem
      · cases hc
    · cases hc
      refine he.tidy.mono fun v hv => ⟨hv.1.1, ?_⟩
      rintro (⟨hmem, -⟩ | ⟨_ | _ | j, c, hne, hc, hmem⟩)
      · rw [own_eq rfl hb] at hmem
        exact hv.2 hmem
      · cases hc
        exact hv.1.2 hmem
      · exact hne rfl
      · cases hc
    · cases hc

end Expr

end LetPoly
