import LetPoly.Proofs.Observation
import LetPoly.Proofs.Unification

/-!
# Drawn variables

Whatever type variables occur in is *drawn* at a count of the supply if they are all below that
count.  For schemes this includes that no variable is quantified twice.  Neither resolving a type
nor any step of unification brings in a variable that is not drawn.
-/

namespace LetPoly

variable {α β τ υ : Type} {n n' : Supply}

/-! ## Values made of drawn variables -/

/-- Values that type variables occur in. -/
class Drawable (α : Type) where
  /-- The value is made of the first variables of the supply. -/
  drawn : Supply → α → Prop
  /-- Variables stay drawn. -/
  mono : ∀ {n n' : Supply} {a : α}, n ≤ n' → drawn n a → drawn n' a

/-- The value is made of the first variables of the supply. -/
def Drawn [Drawable α] (n : Supply) (a : α) : Prop := Drawable.drawn n a

theorem Drawn.mono [Drawable α] {a : α} (h : Drawn n a) (hn : n ≤ n') : Drawn n' a :=
  Drawable.mono hn h

instance : Drawable Unit := ⟨fun _ _ => True, fun _ h => h⟩

instance : Drawable Ty where
  drawn n t := ∀ v ∈ t.occurrences, v < n
  mono hn h v hv := Nat.lt_of_lt_of_le (h v hv) hn

/-- A scheme also has to quantify over no variable twice. -/
instance : Drawable Scheme where
  drawn n σ := σ.vars.Nodup ∧ (∀ v ∈ σ.vars, v < n) ∧ Drawn n σ.ty
  mono hn h := ⟨h.1, fun v hv => Nat.lt_of_lt_of_le (h.2.1 v hv) hn, h.2.2.mono hn⟩

instance [Drawable α] : Drawable (List α) where
  drawn n as := ∀ a ∈ as, Drawn n a
  mono hn h a ha := (h a ha).mono hn

instance [Drawable α] : Drawable (Option α) where
  drawn n a? := ∀ a, a? = some a → Drawn n a
  mono hn h a ha := (h a ha).mono hn

instance [Drawable α] [Drawable β] : Drawable (α × β) where
  drawn n p := Drawn n p.1 ∧ Drawn n p.2
  mono hn h := ⟨h.1.mono hn, h.2.mono hn⟩

instance : Drawable Demand := ⟨fun n d => Drawn n d.expected, fun hn h => Drawn.mono h hn⟩

instance : Drawable Subst where
  drawn n s := ∀ v t, s.get? v = some t → v < n ∧ Drawn n t
  mono hn h v t hv := ⟨Nat.lt_of_lt_of_le (h v t hv).1 hn, (h v t hv).2.mono hn⟩

instance : Drawable Env where
  drawn n Γ := ∀ x σ, Γ.lookup? x = some σ → Drawn n σ
  mono hn h x σ hx := (h x σ hx).mono hn

/-! Of a tree, what is in its slots counts. -/

instance [Drawable α] : Drawable (Slot α) where
  drawn n x := Drawn n x.get?
  mono hn h := Drawn.mono h hn

instance : Drawable Mark := ⟨fun n m => Drawn n m.ty, fun hn h => Drawn.mono h hn⟩

instance : Drawable Binder := ⟨fun n b => Drawn n b.scheme, fun hn h => Drawn.mono h hn⟩

instance : Drawable Expr where
  drawn n e := ∀ d ∈ e.walk, Drawn n d.mark ∧ Drawn n d.binder?
  mono hn h d hd := ⟨(h d hd).1.mono hn, (h d hd).2.mono hn⟩

instance : Drawable Decl where
  drawn n d := Drawn n d.binder ∧ Drawn n d.bound
  mono hn h := ⟨h.1.mono hn, h.2.mono hn⟩

@[simp] theorem drawn_none [Drawable α] : Drawn n (none : Option α) :=
  fun _ h => nomatch h

@[simp] theorem drawn_some [Drawable α] {a : α} : Drawn n (some a) ↔ Drawn n a :=
  ⟨fun h => h a rfl, fun h _ hb => Option.some.inj hb ▸ h⟩

@[simp] theorem drawn_nil [Drawable α] : Drawn n ([] : List α) := List.forall_mem_nil _

@[simp] theorem drawn_cons [Drawable α] {a : α} {as : List α} :
    Drawn n (a :: as) ↔ Drawn n a ∧ Drawn n as :=
  List.forall_mem_cons

@[simp] theorem drawn_append [Drawable α] {as bs : List α} :
    Drawn n (as ++ bs) ↔ Drawn n as ∧ Drawn n bs :=
  List.forall_mem_append

@[simp] theorem drawn_pair [Drawable α] [Drawable β] {a : α} {b : β} :
    Drawn n (a, b) ↔ Drawn n a ∧ Drawn n b :=
  Iff.rfl

@[simp] theorem drawn_filled [Drawable α] {a : α} : Drawn n (Slot.filled a) ↔ Drawn n a :=
  drawn_some

/-! ## Types and schemes -/

@[simp] theorem drawn_var {v : TyVar} : Drawn n (Ty.var v) ↔ v < n := List.forall_mem_singleton

@[simp] theorem drawn_fn {t u : Ty} : Drawn n (Ty.fn t u) ↔ Drawn n t ∧ Drawn n u := by
  simp only [Drawn, Drawable.drawn, Ty.occurrences_fn, List.forall_mem_append]

@[simp] theorem drawn_tuple {ts : List Ty} : Drawn n (Ty.tuple ts) ↔ Drawn n ts := by
  simp only [Drawn, Drawable.drawn, Ty.occurrences_tuple, List.mem_flatMap]
  exact ⟨fun h t ht v hv => h v ⟨t, ht, hv⟩, fun h v ⟨t, ht, hv⟩ => h t ht v hv⟩

@[simp] theorem drawn_mono {t : Ty} : Drawn n (Scheme.mono t) ↔ Drawn n t :=
  ⟨fun h => h.2.2, fun h => ⟨List.nodup_nil, List.forall_mem_nil _, h⟩⟩

theorem drawn_literal (l : Literal) : Drawn n l.ty := by
  cases l <;> exact List.forall_mem_nil _

/-- A type in which variables are replaced by drawn types is drawn. -/
theorem Ty.drawn_replace {t : Ty} {f : TyVar → Ty} (h : ∀ v ∈ t.occurrences, Drawn n (f v)) :
    Drawn n (t.replace f) := by
  intro w hw
  obtain ⟨v, hv, hw⟩ := Ty.mem_occurrences_replace.1 hw
  exact h v hv w hw

/-! ## Expressions -/

namespace Expr

/-- An expression is drawn if its node is and its parts are. -/
theorem drawn_iff {e : Expr} :
    Drawn n e ↔ Drawn n e.mark ∧ Drawn n e.binder? ∧ Drawn n e.children := by
  have hwalk : Drawn n e ↔ ∀ d ∈ e.walk, Drawn n d.mark ∧ Drawn n d.binder? := Iff.rfl
  rw [hwalk, walk_eq, List.forall_mem_cons, and_assoc]
  refine and_congr_right fun _ => and_congr_right fun _ => ?_
  simp only [List.mem_flatMap]
  exact ⟨fun h c hc d hd => h d ⟨c, hc, hd⟩, fun h d ⟨c, hc, hd⟩ => h c hc d hd⟩

variable {m : Mark} {p : Binder} {b c d e f a : Expr}

@[simp] theorem drawn_lit {l : Literal} : Drawn n (lit m l) ↔ Drawn n m := by
  simp [drawn_iff, mark, binder?, children]

@[simp] theorem drawn_name {x : String} : Drawn n (name m x) ↔ Drawn n m := by
  simp [drawn_iff, mark, binder?, children]

@[simp] theorem drawn_lam : Drawn n (lam m p b) ↔ Drawn n m ∧ Drawn n p ∧ Drawn n b := by
  simp [drawn_iff, mark, binder?, children]

@[simp] theorem drawn_app : Drawn n (app m f a) ↔ Drawn n m ∧ Drawn n f ∧ Drawn n a := by
  simp [drawn_iff, mark, binder?, children]

@[simp] theorem drawn_letIn :
    Drawn n (letIn m p d e) ↔ Drawn n m ∧ Drawn n p ∧ Drawn n d ∧ Drawn n e := by
  simp [drawn_iff, mark, binder?, children]

@[simp] theorem drawn_cond :
    Drawn n (cond m c d e) ↔ Drawn n m ∧ Drawn n c ∧ Drawn n d ∧ Drawn n e := by
  simp [drawn_iff, mark, binder?, children]

@[simp] theorem drawn_anno {t : TypeExpr} : Drawn n (anno m e t) ↔ Drawn n m ∧ Drawn n e := by
  simp [drawn_iff, mark, binder?, children]

@[simp] theorem drawn_elems {es : List Expr} :
    Drawn n (tuple m es) ↔ Drawn n m ∧ Drawn n es := by
  simp [drawn_iff, mark, binder?, children]

@[simp] theorem drawn_invalid : Drawn n (invalid m) ↔ Drawn n m := by
  simp [drawn_iff, mark, binder?, children]

end Expr

/-! ## Substitutions -/

namespace Subst

/-- The empty substitution mentions no variable. -/
theorem drawn_empty : Drawn n empty := by
  intro v t hv
  rw [get?_empty] at hv
  cases hv

/-- Following a variable through the solutions leads to drawn variables only. -/
theorem drawn_solution {s : Subst} (hs : Drawn n s) (k : Nat) {v : TyVar} (hv : v < n) :
    Drawn n (s.solution k v) := by
  induction k generalizing v with
  | zero => exact drawn_var.2 hv
  | succ k ih =>
    rw [solution_succ]
    cases hget : s.get? v with
    | none => exact drawn_var.2 hv
    | some t => exact Ty.drawn_replace fun w hw => ih ((hs v t hget).2 w hw)

/-- Resolving a type brings in no variables that are not drawn. -/
theorem drawn_apply {s : Subst} (hs : Drawn n s) {t : Ty} (ht : Drawn n t) : Drawn n (s.apply t) :=
  Ty.drawn_replace fun v hv => drawn_solution hs s.size (ht v hv)

theorem drawn_without {s : Subst} (hs : Drawn n s) (vs : List TyVar) : Drawn n (s.without vs) :=
  fun v t hv => hs v t (without_le s vs v t hv)

theorem drawn_applyScheme {s : Subst} (hs : Drawn n s) {σ : Scheme} (hσ : Drawn n σ) :
    Drawn n (s.applyScheme σ) :=
  ⟨hσ.1, hσ.2.1, drawn_apply (drawn_without hs σ.vars) hσ.2.2⟩

/-- A drawn solution for a drawn variable can be added. -/
theorem drawn_bind {s r : Subst} {v : TyVar} {t : Ty} (hs : Drawn n s) (hv : v < n)
    (ht : Drawn n t) (h : s.bind v t = .ok r) : Drawn n r := by
  intro w u hw
  rw [get?_of_bind_eq_ok h] at hw
  split at hw
  · rename_i hvw
    cases hw
    subst hvw
    exact ⟨hv, ht⟩
  · exact hs w u hw

end Subst

/-! ## Unification -/

/-- Equations are drawn if all variables on both sides are. -/
theorem drawn_pairs {pairs : List (Ty × Ty)} : Drawn n pairs ↔ ∀ v ∈ pairVars pairs, v < n := by
  simp only [pairVars, List.mem_flatMap, List.mem_append]
  constructor
  · rintro h v ⟨p, hp, hv | hv⟩
    · exact (h p hp).1 v hv
    · exact (h p hp).2 v hv
  · intro h p hp
    exact ⟨fun v hv => h v ⟨p, hp, .inl hv⟩, fun v hv => h v ⟨p, hp, .inr hv⟩⟩

/-- The two sides of a difference and what is to the right of them. -/
def Difference.pairs (d : Difference) : List (Ty × Ty) := (d.expected, d.actual) :: d.right

namespace Unify

variable {pairs : List (Ty × Ty)} {d : Difference} {x x' : Extension}

/-- A difference is made of what it was found in. -/
theorem drawn_firstDifference? {s : Subst} (hs : Drawn n s) (hpairs : Drawn n pairs)
    (h : firstDifference? s pairs = some d) : Drawn n d.pairs := by
  induction pairs with
  | nil => cases h
  | cons p pairs ih =>
    obtain ⟨t, u⟩ := p
    obtain ⟨⟨ht, hu⟩, hrest⟩ := drawn_cons.1 hpairs
    rw [firstDifference?] at h
    cases hd : Ty.difference? (s.apply t) (s.apply u) with
    | none =>
      rw [hd] at h
      exact ih hrest h
    | some d' =>
      rw [hd] at h
      cases h
      have hsides : Drawn n [(s.apply t, s.apply u)] :=
        drawn_cons.2 ⟨⟨Subst.drawn_apply hs ht, Subst.drawn_apply hs hu⟩, drawn_nil⟩
      have hsplits := ((s.apply t).compares (s.apply u)).2 d' hd
      have hd' : Drawn n d'.pairs := drawn_pairs.2 fun v hv =>
        drawn_pairs.1 hsides v (hsplits.mem v hv)
      obtain ⟨hboth, hright⟩ := drawn_cons.1 hd'
      exact drawn_cons.2 ⟨hboth, drawn_append.2 ⟨hright, hrest⟩⟩

/-- One step of unification brings in no variables that are not drawn. -/
theorem drawn_step {v : TyVar} {t : Ty} (hx : Drawn n x.subst) (hpairs : Drawn n pairs)
    (hd : firstDifference? x.subst pairs = some d) (hr : remedy d.expected d.actual = .ok (v, t))
    (hb : x.bind v t = .ok x') : Drawn n x'.subst ∧ Drawn n d.right := by
  obtain ⟨⟨hexpected, hactual⟩, hright⟩ := drawn_cons.1 (drawn_firstDifference? hx hpairs hd)
  refine ⟨?_, hright⟩
  obtain ⟨⟨hv, rfl⟩ | ⟨hv, rfl⟩, -⟩ := remedy_eq_ok hr
  · rw [hv] at hexpected
    exact Subst.drawn_bind hx (drawn_var.1 hexpected) hactual (bind_subst hb)
  · rw [hv] at hactual
    exact Subst.drawn_bind hx (drawn_var.1 hactual) hexpected (bind_subst hb)

/-- Unification goes through drawn substitutions only. -/
theorem Trail.drawn {xs : List Extension} (h : Trail pairs x xs x') (hx : Drawn n x.subst)
    (hpairs : Drawn n pairs) : (∀ y ∈ xs, Drawn n y.subst) ∧ Drawn n x'.subst := by
  induction h with
  | stop => exact ⟨List.forall_mem_nil _, hx⟩
  | step hd hr hb _ ih =>
    obtain ⟨hx', hright⟩ := drawn_step hx hpairs hd hr hb
    obtain ⟨hxs, hend⟩ := ih hx' hright
    exact ⟨List.forall_mem_cons.2 ⟨hx, hxs⟩, hend⟩

end Unify

end LetPoly
