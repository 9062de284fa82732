import LetPoly.Proofs.Programs

/-!
# Places in a program

A *place* is the number of a declaration, followed by the numbers of the parts on the way down from
its definition.  The definition of a declaration or of a local definition is itself at a
place, and what stands inside the definition is at the places that begin with it.

The variables that a definition is generic in stand inside the definition and in the slot of its
binder.  No slot outside of it comes to mention them (`Program.Tidy.avoids`).
-/

namespace LetPoly

/-- The number of a declaration and those of the parts on the way from its definition. -/
abbrev Place := List Nat

/-- The part of an expression at the end of a way. -/
def Expr.at? : Expr → List Nat → Option Expr
  | e, [] => some e
  | e, i :: π =>
    match e.children[i]? with
    | some c => c.at? π
    | none => none

namespace Program

/-- The expression at a place. -/
def at? (p : Program) : Place → Option Expr
  | [] => none
  | i :: π =>
    match p[i]? with
    | some d => d.bound.at? π
    | none => none

/-- The definition of a binder is at a place. -/
inductive Defines (p : Program) (b : Binder) : Place → Prop where
  | decl {i : Nat} {d : Decl} (hd : p[i]? = some d) (hb : d.binder = b) : Defines p b [i]
  | letIn {κ : Place} {m : Mark} {d e : Expr} (h : p.at? κ = some (.letIn m b d e)) :
      Defines p b (κ ++ [0])

/-- A scheme stands in a slot outside the definition at a place, and not in that of its binder.  The
type of an expression counts as a scheme without quantifiers. -/
inductive Outside (p : Program) (δ : Place) : Scheme → Prop where
  | mark {κ : Place} {e : Expr} {t : Ty} (hκ : ¬ δ <+: κ) (he : p.at? κ = some e)
      (ht : e.mark.ty = .filled t) : Outside p δ (.mono t)
  | binder {κ : Place} {e : Expr} {b : Binder} {σ : Scheme} (hκ : ¬ δ <+: κ)
      (hown : κ ++ [0] ≠ δ) (he : p.at? κ = some e) (hb : e.binder? = some b)
      (hσ : b.scheme = .filled σ) : Outside p δ σ
  | decl {i : Nat} {d : Decl} {σ : Scheme} (hown : [i] ≠ δ) (hd : p[i]? = some d)
      (hσ : d.binder.scheme = .filled σ) : Outside p δ σ

end Program

/-! ## Schemes that avoid a variable -/

/-- A scheme does not mention a variable, and comes not to stand for a type with it. -/
def Scheme.Avoids (s : Session) (v : TyVar) (σ : Scheme) : Prop :=
  v ∉ σ.vars ∧ v ∉ (s.subst.apply σ.ty).occurrences

variable {T : Set TyVar} {s : Session} {v : TyVar}

theorem Scheme.Known.avoids {σ : Scheme} (hσ : σ.Known T s) (hvars : v ∉ σ.vars) (hv : v ∉ T) :
    σ.Avoids s v := by
  refine ⟨hvars, fun hmem => ?_⟩
  obtain ⟨w, hw, hmem⟩ := Subst.mem_apply.1 hmem
  by_cases hwvars : w ∈ σ.vars
  · rw [Subst.apply_of_get?_eq_none (hσ.unsolved w hwvars), Ty.occurrences_var,
      List.mem_singleton] at hmem
    exact hvars (hmem ▸ hwvars)
  · exact hv ((hσ.free w (Scheme.mem_freeVars.2 ⟨hw, hwvars⟩)).2 v hmem)

namespace Expr

variable {e c : Expr} {π κ : List Nat}

theorem at?_cons {i : Nat} (h : e.at? (i :: π) = some c) :
    ∃ d, e.children[i]? = some d ∧ d.at? π = some c := by
  rw [at?] at h
  cases hd : e.children[i]? with
  | none =>
    rw [hd] at h
    cases h
  | some d =>
    rw [hd] at h
    exact ⟨d, rfl, h⟩

/-- The slots of a node avoid a variable. -/
structure Avoids (s : Session) (v : TyVar) (e : Expr) : Prop where
  /-- The type of the expression. -/
  mark : ∀ t, e.mark.ty = .filled t → (Scheme.mono t).Avoids s v
  /-- The scheme of the binder. -/
  binder : ∀ b σ, e.binder? = some b → b.scheme = .filled σ → σ.Avoids s v

theorem Tidy.mark_avoids (h : e.Tidy s T) (hv : v ∉ T \ e.generic) {t : Ty}
    (ht : e.mark.ty = .filled t) : (Scheme.mono t).Avoids s v :=
  (Scheme.known_mono (h.mark t ht)).avoids nofun hv

theorem Tidy.binder_avoids (h : e.Tidy s T) (hown : v ∉ e.own) (hv : v ∉ T \ e.generic) {b : Binder}
    {σ : Scheme} (hb : e.binder? = some b) (hσ : b.scheme = .filled σ) : σ.Avoids s v :=
  (h.binder b σ hb hσ).avoids (own_eq hb hσ ▸ hown) hv

/-- A part of a tidy tree is tidy in a smaller territory. -/
theorem Tidy.at? (h : e.Tidy s T) (hc : e.at? π = some c) : ∃ T' ⊆ T, c.Tidy s T' := by
  induction π generalizing e T with
  | nil =>
    cases hc
    exact ⟨T, Set.Subset.refl T, h⟩
  | cons i π ih =>
    obtain ⟨d, hd, hc⟩ := at?_cons hc
    obtain ⟨T', hT', hc⟩ := ih (h.parts i d hd) hc
    exact ⟨T', hT'.trans Set.sdiff_subset, hc⟩

/-- A tidy tree avoids what is not in its territory. -/
theorem Tidy.avoids (h : e.Tidy s T) (hv : v ∉ T) (hc : e.at? π = some c) : c.Avoids s v := by
  obtain ⟨T', hT', hc⟩ := h.at? hc
  have hv' : v ∉ T' \ c.generic := fun hmem => hv (hT' hmem.1)
  exact ⟨fun t => hc.mark_avoids hv',
    fun b σ => hc.binder_avoids (fun hmem => hv (hT' (hc.own v hmem).1)) hv'⟩

theorem mem_generic_of_at? (hc : e.at? π = some c) (hv : v ∈ c.generic) : v ∈ e.generic := by
  induction π generalizing e with
  | nil =>
    cases hc
    exact hv
  | cons i π ih =>
    obtain ⟨d, hd, hc⟩ := at?_cons hc
    exact mem_generic_of_part hd (ih hc)

/-- The slots outside a definition, but for that of its binder, avoid what it is generic in. -/
theorem Tidy.avoids_outside (h : e.Tidy s T) {m : Mark} {b : Binder} {d e' : Expr}
    (hdef : e.at? π = some (.letIn m b d e')) (hv : v ∈ b.quantified) (hc : e.at? κ = some c)
    (hκ : ¬ π ++ [0] <+: κ) :
    (∀ t, c.mark.ty = .filled t → (Scheme.mono t).Avoids s v) ∧ (κ ≠ π → c.Avoids s v) := by
  induction π generalizing e T κ with
  | nil =>
    cases hdef
    have hgeneric : v ∈ (Expr.letIn m b d e').generic := mem_generic.2 (.inl hv)
    cases κ with
    | nil =>
      cases hc
      exact ⟨fun t => h.mark_avoids fun hmem => hmem.2 hgeneric, fun hne => absurd rfl hne⟩
    | cons j κ =>
      obtain ⟨c', hc', hc⟩ := at?_cons hc
      have hdefn : ¬ (Expr.letIn m b d e').IsDefinition j := by
        rintro rfl
        exact hκ ⟨κ, rfl⟩
      have havoids := (h.parts j c' hc').avoids (fun hmem => hmem.2 (.inl ⟨hv, hdefn⟩)) hc
      exact ⟨havoids.mark, fun _ => havoids⟩
  | cons i π ih =>
    obtain ⟨d', hd', hdef'⟩ := at?_cons hdef
    have hgeneric : v ∈ d'.generic := mem_generic_of_at? hdef' (mem_generic.2 (.inl hv))
    cases κ with
    | nil =>
      cases hc
      have hv' : v ∉ T \ c.generic := fun hmem => hmem.2 (mem_generic_of_part hd' hgeneric)
      have hown : v ∉ c.own := fun hmem =>
        (h.own v hmem).2 ⟨d', List.mem_of_getElem? hd', hgeneric⟩
      exact ⟨fun t => h.mark_avoids hv', fun _ => ⟨fun t => h.mark_avoids hv',
        fun b σ => h.binder_avoids hown hv'⟩⟩
    | cons j κ =>
      obtain ⟨c', hc', hc⟩ := at?_cons hc
      by_cases hij : j = i
      · subst hij
        cases hd'.symm.trans hc'
        obtain ⟨hmark, hbinder⟩ := ih (h.parts j d' hd') hdef' hc fun hmem =>
          hκ (List.cons_prefix_cons.2 ⟨rfl, hmem⟩)
        exact ⟨hmark, fun hne => hbinder fun heq => hne (congrArg _ heq)⟩
      · have hv' : v ∈ e.around j := .inr ⟨i, d', fun heq => hij heq.symm, hd', hgeneric⟩
        have havoids := (h.parts j c' hc').avoids (fun hmem => hmem.2 hv') hc
        exact ⟨havoids.mark, fun _ => havoids⟩

end Expr

/-! ## Definitions of a program -/

namespace Program

variable {p : Program} {b : Binder} {δ κ : Place} {σ τ : Scheme} {e : Expr}

theorem at?_cons {i : Nat} {π : List Nat} (h : p.at? (i :: π) = some e) :
    ∃ d, p[i]? = some d ∧ d.bound.at? π = some e := by
  rw [at?] at h
  cases hd : p[i]? with
  | none =>
    rw [hd] at h
    cases h
  | some d =>
    rw [hd] at h
    exact ⟨d, rfl, h⟩

/-- A definition belongs to a declaration: it is the definition of the declaration, or of a local
definition in it. -/
theorem Defines.exists_decl (hb : p.Defines b δ) : ∃ i π c, δ = i :: π ∧ p[i]? = some c ∧
    (π = [] ∧ c.binder = b ∨
      ∃ κ m d e, π = κ ++ [0] ∧ c.bound.at? κ = some (.letIn m b d e)) := by
  cases hb with
  | @decl i c hc hb => exact ⟨i, [], c, rfl, hc, .inl ⟨rfl, hb⟩⟩
  | @letIn κ m d e h =>
    cases κ with
    | nil => cases h
    | cons i κ =>
      obtain ⟨c, hc, hat⟩ := at?_cons h
      exact ⟨i, κ ++ [0], c, rfl, hc, .inr ⟨κ, m, d, e, rfl, hat⟩⟩

/-- What a definition quantifies over is generic in its declaration. -/
theorem mem_generic_of_defines {c : Decl} {π : List Nat} (hv : v ∈ b.quantified)
    (h : π = [] ∧ c.binder = b ∨ ∃ κ m d e, π = κ ++ [0] ∧ c.bound.at? κ = some (.letIn m b d e)) :
    v ∈ c.generic := by
  rcases h with ⟨-, rfl⟩ | ⟨κ, m, d, e, -, hat⟩
  · exact .inr hv
  · exact .inl (Expr.mem_generic_of_at? hat (Expr.mem_generic.2 (.inl hv)))

/-- The scheme of a definition is known apart from what it quantifies over. -/
theorem Tidy.defined (h : p.Tidy T s) (hb : p.Defines b δ) (hσ : b.scheme = .filled σ) :
    ∃ T', σ.Known T' s ∧ ∀ v ∈ σ.vars, v ∉ T' := by
  have hquantified : b.quantified = σ.vars := by simp only [Binder.quantified, hσ, Slot.filled]
  obtain ⟨i, π, c, -, hc, ⟨-, rfl⟩ | ⟨κ, m, d, e, -, hat⟩⟩ := hb.exists_decl
  · refine ⟨_, h.binder c (List.mem_of_getElem? hc) σ hσ, fun v hv hmem => hmem.2 ?_⟩
    exact ⟨c, List.mem_of_getElem? hc, .inr (hquantified ▸ hv)⟩
  · obtain ⟨T', -, htidy⟩ := (h.bound i c hc).at? hat
    refine ⟨_, htidy.binder b σ rfl hσ, fun v hv hmem => hmem.2 ?_⟩
    exact Expr.mem_generic.2 (.inl (by rwa [Expr.own_eq rfl hσ]))

/-- Expressions of other declarations avoid what is generic in a declaration. -/
theorem Tidy.avoids_elsewhere (h : p.Tidy T s) {i j : Nat} {c : Decl} {π : List Nat} (hij : j ≠ i)
    (hc : p[i]? = some c) (hv : v ∈ c.generic) (he : p.at? (j :: π) = some e) : e.Avoids s v := by
  obtain ⟨d, hd, he⟩ := at?_cons he
  exact (h.bound j d hd).avoids (fun hmem => hmem.2 ⟨i, c, hij.symm, hc, hv⟩) he

/-- Expressions outside a definition avoid the variables it is generic in. -/
theorem Tidy.avoids_at? (h : p.Tidy T s) (hb : p.Defines b δ) (hv : v ∈ b.quantified)
    (hκ : ¬ δ <+: κ) (he : p.at? κ = some e) :
    (∀ t, e.mark.ty = .filled t → (Scheme.mono t).Avoids s v) ∧ (κ ++ [0] ≠ δ → e.Avoids s v) := by
  obtain ⟨i, π, c, rfl, hc, hdef⟩ := hb.exists_decl
  cases κ with
  | nil => cases he
  | cons j κ =>
    by_cases hij : j = i
    · subst hij
      obtain ⟨c', hc', he⟩ := at?_cons he
      cases hc.symm.trans hc'
      obtain ⟨rfl, -⟩ | ⟨κ', m, d, e', rfl, hat⟩ := hdef
      · exact absurd ⟨κ, rfl⟩ hκ
      · obtain ⟨hmark, hnode⟩ := (h.bound j c hc).avoids_outside hat hv he fun hmem =>
          hκ (List.cons_prefix_cons.2 ⟨rfl, hmem⟩)
        exact ⟨hmark, fun hne => hnode fun heq => hne (by rw [heq]; rfl)⟩
    · have havoids := h.avoids_elsewhere hij hc (mem_generic_of_defines hv hdef) he
      exact ⟨havoids.mark, fun _ => havoids⟩

/-- No two binders quantify over one variable. -/
theorem Tidy.not_mem_quantified (h : p.Tidy T s) (hb : p.Defines b δ) (hv : v ∈ b.quantified)
    {j : Nat} {d : Decl} (hd : p[j]? = some d) (hδ : [j] ≠ δ) : v ∉ d.binder.quantified := by
  intro hmem
  obtain ⟨hbound, hbut⟩ := h.own j d hd v hmem
  obtain ⟨i, π, c, rfl, hc, hdef⟩ := hb.exists_decl
  by_cases hij : i = j
  · subst hij
    cases hc.symm.trans hd
    obtain ⟨rfl, -⟩ | ⟨κ, m, d', e, -, hat⟩ := hdef
    · exact hδ rfl
    · exact hbound (Expr.mem_generic_of_at? hat (Expr.mem_generic.2 (.inl hv)))
  · exact hbut ⟨i, c, hij, hc, mem_generic_of_defines hv hdef⟩

/-- Slots outside a definition avoid the variables it is generic in. -/
theorem Tidy.avoids (h : p.Tidy T s) (hb : p.Defines b δ) (hv : v ∈ b.quantified)
    (hτ : p.Outside δ τ) : τ.Avoids s v := by
  cases hτ with
  | mark hκ he ht => exact (h.avoids_at? hb hv hκ he).1 _ ht
  | binder hκ hown he hb' hτ => exact ((h.avoids_at? hb hv hκ he).2 hown).binder _ _ hb' hτ
  | @decl j d _ hown hd hτ =>
    have hquantified : d.binder.quantified = τ.vars := by
      simp only [Binder.quantified, hτ, Slot.filled]
    obtain ⟨i, π, c, -, hc, hdef⟩ := hb.exists_decl
    refine (h.binder d (List.mem_of_getElem? hd) τ hτ).avoids ?_ fun hmem => hmem.2 ?_
    · exact hquantified ▸ h.not_mem_quantified hb hv hd hown
    · exact ⟨c, List.mem_of_getElem? hc, mem_generic_of_defines hv hdef⟩

end Program

end LetPoly
