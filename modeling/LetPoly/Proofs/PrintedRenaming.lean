import LetPoly.Proofs.LineBreaks

/-!
# Renaming printed variables

The text of a declaration does not depend on the numbers of its variables.  Renaming the variables
has the same effect as printing under other names (`Decl.docWith_rename`).  The names are given in
the order in which the variables are printed, which a one-to-one renaming keeps
(`Decl.doc_rename`).
-/

namespace LetPoly

/-! ## Trees -/

/-- Renames the variables in the slot of a mark. -/
def Mark.rename (π : TyVar → TyVar) (m : Mark) : Mark := m.update (·.resolve (Ty.rename π))

/-- Renames the variables in the slot of a binder. -/
def Binder.rename (π : TyVar → TyVar) (b : Binder) : Binder :=
  b.update (·.resolve (Scheme.rename π))

/-- Renames the variables in every slot of a declaration. -/
def Decl.rename (π : TyVar → TyVar) (d : Decl) : Decl := d.retype (Ty.rename π) (Scheme.rename π)

section

variable (f : TyVar → String) (π ρ : TyVar → TyVar)

namespace Scheme

theorem textWith_rename (σ : Scheme) : (σ.rename π).textWith f = σ.textWith (f ∘ π) := by
  simp only [textWith, rename, Ty.textWith_rename, List.map_map, List.isEmpty_map]

theorem occurrences_rename (σ : Scheme) : (σ.rename π).occurrences = σ.occurrences.map π := by
  simp only [occurrences, rename, Ty.occurrences_rename, List.map_append]

theorem rename_rename (σ : Scheme) : (σ.rename π).rename ρ = σ.rename (ρ ∘ π) := by
  simp only [rename, Ty.rename_rename, List.map_map]

end Scheme

namespace Mark

/-- The type of a renamed node is written with the names of the renamed variables. -/
theorem docWith_rename (m : Mark) : (m.rename π).docWith f = m.docWith (f ∘ π) := by
  obtain ⟨span, ⟨_ | t⟩⟩ := m
  · rfl
  · exact congrArg (fun s => Doc.ofString (" : " ++ s)) (t.textWith_rename f π false)

theorem occurrences_rename (m : Mark) : (m.rename π).occurrences = m.occurrences.map π := by
  obtain ⟨span, ⟨_ | t⟩⟩ := m
  · rfl
  · simpa [occurrences, rename, update, Slot.resolve] using t.occurrences_rename π

end Mark

namespace Binder

/-- A renamed binder is written with the names of the renamed variables. -/
theorem textWith_rename (b : Binder) : (b.rename π).textWith f = b.textWith (f ∘ π) := by
  obtain ⟨x, span, anno, ⟨_ | σ⟩⟩ := b
  · cases anno <;> rfl
  · exact congrArg (fun s => "[" ++ x ++ " : " ++ s ++ "]") (σ.textWith_rename f π)

theorem occurrences_rename (b : Binder) : (b.rename π).occurrences = b.occurrences.map π := by
  obtain ⟨x, span, anno, ⟨_ | σ⟩⟩ := b
  · rfl
  · simpa [occurrences, rename, update, Slot.resolve] using σ.occurrences_rename π

end Binder

namespace Expr

theorem mark_rename (e : Expr) : (e.rename π).mark = e.mark.rename π := mark_update ..

theorem binder?_rename (e : Expr) : (e.rename π).binder? = e.binder?.map (Binder.rename π) :=
  binder?_update ..

theorem children_rename (e : Expr) : (e.rename π).children = e.children.map (rename π) :=
  children_update ..

/-- Apart from its parts a renamed expression is written with the names of the renamed variables. -/
theorem headDocWith_rename (e : Expr) : (e.rename π).headDocWith f = e.headDocWith (f ∘ π) := by
  cases e with
  | lam m p b => exact congrArg (Doc.ofString "fn " ++ Doc.ofString ·) (p.textWith_rename f π)
  | letIn m b d e => exact congrArg (Doc.ofString "let " ++ Doc.ofString ·) (b.textWith_rename f π)
  | _ => rfl

/-- A renamed expression is shown as the expression under other names. -/
theorem docWith_rename (e : Expr) : (e.rename π).docWith f = e.docWith (f ∘ π) := by
  induction e using inductionOnParts with
  | step e ih =>
    have hparts : (e.children.map (rename π)).map (docWith f) =
        e.children.map (docWith (f ∘ π)) := by
      rw [List.map_map]
      exact List.map_congr_left ih
    rw [docWith_eq, docWith_eq, headDocWith_rename, children_rename, mark_rename, hparts,
      Mark.docWith_rename]

/-- The variables of a renamed tree are the renamed variables, in the order in which they are
written. -/
theorem occurrences_rename (e : Expr) : (e.rename π).occurrences = e.occurrences.map π := by
  induction e using inductionOnParts with
  | step e ih =>
    have hbinder : (e.rename π).binderOccurrences = e.binderOccurrences.map π := by
      rw [binderOccurrences, binder?_rename, binderOccurrences]
      cases e.binder? with
      | none => rfl
      | some b => simpa using b.occurrences_rename π
    have hparts : (e.children.map (rename π)).flatMap occurrences =
        (e.children.flatMap occurrences).map π := by
      rw [List.flatMap_map, List.map_flatMap]
      exact List.flatMap_congr ih
    rw [occurrences_eq, occurrences_eq, children_rename, mark_rename, hbinder, hparts,
      Mark.occurrences_rename, List.map_append, List.map_append]

end Expr

namespace Decl

/-- A renamed declaration is written with the names of the renamed variables. -/
theorem docWith_rename (d : Decl) : (d.rename π).docWith f = d.docWith (f ∘ π) := by
  have hbinder := d.binder.textWith_rename f π
  have hbound := d.bound.docWith_rename f π
  unfold docWith
  rw [← hbinder, ← hbound]
  rfl

theorem lineWith_rename (d : Decl) : (d.rename π).lineWith f = d.lineWith (f ∘ π) := by
  rw [← flatText_docWith, docWith_rename, flatText_docWith]

/-- The variables of a renamed declaration are the renamed variables, in the same order. -/
theorem occurrences_rename (d : Decl) : (d.rename π).occurrences = d.occurrences.map π := by
  have hbinder := d.binder.occurrences_rename π
  have hbound := d.bound.occurrences_rename π
  rw [occurrences, occurrences, List.map_append, ← hbinder, ← hbound]
  rfl

theorem rename_rename (d : Decl) : (d.rename π).rename ρ = d.rename (ρ ∘ π) := by
  have hty : Ty.rename ρ ∘ Ty.rename π = Ty.rename (ρ ∘ π) := funext (Ty.rename_rename π ρ)
  have hscheme : Scheme.rename ρ ∘ Scheme.rename π = Scheme.rename (ρ ∘ π) :=
    funext (Scheme.rename_rename π ρ)
  rw [rename, rename, retype_retype, hty, hscheme]
  rfl

end Decl

end

/-! ## Renamings that agree -/

section

variable {π ρ : TyVar → TyVar}

theorem Ty.rename_congr {t : Ty} (h : ∀ v ∈ t.occurrences, π v = ρ v) : t.rename π = t.rename ρ :=
  replace_congr fun v hv => congrArg var (h v hv)

theorem Scheme.rename_congr {σ : Scheme} (h : ∀ v ∈ σ.occurrences, π v = ρ v) :
    σ.rename π = σ.rename ρ := by
  obtain ⟨hvars, hty⟩ := List.forall_mem_append.1 h
  exact congrArg₂ Scheme.mk (List.map_congr_left hvars) (Ty.rename_congr hty)

namespace Expr

/-- The variables of a subexpression are variables of the tree. -/
theorem occurrences_subset {d e : Expr} (hd : d ∈ e.walk) : d.occurrences ⊆ e.occurrences := by
  induction e using inductionOnParts with
  | step e ih =>
    rw [walk_eq] at hd
    rcases List.mem_cons.1 hd with rfl | hd
    · exact List.Subset.refl _
    · obtain ⟨c, hc, hd⟩ := List.mem_flatMap.1 hd
      intro v hv
      rw [occurrences_eq]
      exact List.mem_append_left _ (List.mem_append_right _
        (List.mem_flatMap.2 ⟨c, hc, ih c hc hd hv⟩))

/-- Renamings that agree on the variables of a tree make the same of it. -/
theorem rename_congr {e : Expr} (h : ∀ v ∈ e.occurrences, π v = ρ v) :
    e.rename π = e.rename ρ := by
  refine retype_congr (fun d hd t ht => ?_) fun d hd b σ hb hσ => ?_
  · refine Ty.rename_congr fun v hv => h v (occurrences_subset hd ?_)
    rw [occurrences_eq]
    exact List.mem_append_right _ (by simpa [Mark.occurrences, ht, Slot.filled] using hv)
  · refine Scheme.rename_congr fun v hv => h v (occurrences_subset hd ?_)
    rw [occurrences_eq]
    refine List.mem_append_left _ (List.mem_append_left _ ?_)
    simpa [binderOccurrences, hb, Binder.occurrences, hσ, Slot.filled] using hv

end Expr

namespace Decl

/-- Renamings that agree on the variables of a declaration make the same of it. -/
theorem rename_congr {d : Decl} (h : ∀ v ∈ d.occurrences, π v = ρ v) : d.rename π = d.rename ρ := by
  obtain ⟨hbinder, hbound⟩ := List.forall_mem_append.1 h
  refine congrArg₂ (Decl.mk d.span) ?_ (Expr.rename_congr hbound)
  refine congrArg (Binder.mk d.binder.name d.binder.span d.binder.anno) ?_
  refine Slot.resolve_congr fun σ hσ => Scheme.rename_congr fun v hv => hbinder v ?_
  simpa [Binder.occurrences, hσ, Slot.filled] using hv

theorem rename_id (d : Decl) : d.rename id = d := by
  have hty : Ty.rename id = id := funext fun t => t.rename_eq_self fun _ _ => rfl
  have hscheme : Scheme.rename id = id := funext fun σ => by simp [Scheme.rename, hty]
  have hslot {α : Type} : (fun s : Slot α => s.resolve id) = id := funext fun s => by
    simp [Slot.resolve]
  rw [rename, retype, hty, hscheme, hslot, hslot]
  exact congrArg (Decl.mk d.span d.binder) d.bound.update_id

end Decl

/-! ## Names after renaming -/

namespace Naming

/-- The namings name the same variables in the same order, up to renaming. -/
structure Renames (π : TyVar → TyVar) (names names' : Naming) : Prop where
  size : names'.positions.size = names.positions.size
  position : ∀ v, names'.position? (π v) = names.position? v

variable {names names' : Naming}

/-- A variable and the renamed one get the same position. -/
theorem Renames.add (h : Renames π names names') (hπ : π.Injective) (v : TyVar) :
    Renames π (names.add v) (names'.add (π v)) := by
  cases hv : names.position? v with
  | some i => rwa [add_of_position? hv, add_of_position? ((h.position v).trans hv)]
  | none =>
    have hv' := (h.position v).trans hv
    refine ⟨by rw [size_add_of_none hv, size_add_of_none hv', h.size], fun w => ?_⟩
    rw [position?_add_of_none hv, position?_add_of_none hv', h.position, h.size]
    simp [hπ.eq_iff]

theorem Renames.addAll (h : Renames π names names') (hπ : π.Injective) (vs : List TyVar) :
    Renames π (names.addAll vs) (names'.addAll (vs.map π)) := by
  induction vs generalizing names names' with
  | nil => exact h
  | cons v vs ih => exact ih (h.add hπ v)

end Naming

/-- A one-to-one renaming keeps the names. -/
theorem Decl.label_rename (hπ : π.Injective) (d : Decl) :
    (d.rename π).naming.label ∘ π = d.naming.label := by
  have hempty : Naming.Renames π Naming.empty Naming.empty := ⟨rfl, fun v => by simp⟩
  have hnames := hempty.addAll hπ d.occurrences
  rw [← occurrences_rename] at hnames
  exact funext fun v => congrArg (fun i : Option Nat => Naming.nth (i.getD 0)) (hnames.position v)

/-- A one-to-one renaming keeps the text. -/
theorem Decl.doc_rename (hπ : π.Injective) (d : Decl) : (d.rename π).doc = d.doc := by
  rw [doc_eq, docWith_rename, label_rename hπ, ← doc_eq]

end

end LetPoly
