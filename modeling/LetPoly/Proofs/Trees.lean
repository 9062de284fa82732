import LetPoly.Proofs.Types
import LetPoly.Tree.Expr

/-!
# Trees and their slots

Two trees with the same `clear` are one tree with different slots.  A tree is *blank* if all
its slots are empty, that is if it is its own `clear`.

A tree is *retyped* by changing all types and schemes in its slots.  What that does depends only on
those that are there (`Expr.retype_congr`).
-/

namespace LetPoly

namespace Expr

/-- Induction on expressions, with a hypothesis for every element of a tuple. -/
theorem inductionOn {motive : Expr → Prop} (e : Expr) (lit : ∀ m l, motive (.lit m l))
    (name : ∀ m x, motive (.name m x)) (lam : ∀ m p b, motive b → motive (.lam m p b))
    (app : ∀ m f a, motive f → motive a → motive (.app m f a))
    (letIn : ∀ m b d e, motive d → motive e → motive (.letIn m b d e))
    (cond : ∀ m c t e, motive c → motive t → motive e → motive (.cond m c t e))
    (anno : ∀ m e a, motive e → motive (.anno m e a))
    (tuple : ∀ m es, (∀ e ∈ es, motive e) → motive (.tuple m es))
    (invalid : ∀ m, motive (.invalid m)) : motive e :=
  @Expr.rec motive (fun es => ∀ e ∈ es, motive e) lit name lam app letIn cond
    (fun m e a h => anno m e a h) tuple invalid (by simp) (fun _ _ h hs => by simpa using ⟨h, hs⟩) e

/-- Induction on expressions, with a hypothesis for every part. -/
theorem inductionOnParts {motive : Expr → Prop} (e : Expr)
    (step : ∀ e, (∀ d ∈ e.children, motive d) → motive e) : motive e := by
  induction e using Expr.inductionOn with
  | lit | name | invalid => exact step _ (by simp [children])
  | lam m p b ih => exact step _ (by simpa [children] using ih)
  | app m f a ihf iha => exact step _ (by simpa [children] using ⟨ihf, iha⟩)
  | letIn m b d e ihd ihe => exact step _ (by simpa [children] using ⟨ihd, ihe⟩)
  | cond m c t e ihc iht ihe => exact step _ (by simpa [children] using ⟨ihc, iht, ihe⟩)
  | anno m e a ih => exact step _ (by simpa [children] using ih)
  | tuple m es ih => exact step _ ih

/-! ## Changing slots -/

@[simp] theorem updateAll_eq_map (f : Slot Ty → Slot Ty) (g : Slot Scheme → Slot Scheme)
    (es : List Expr) : updateAll f g es = es.map (update f g) := by
  induction es with
  | nil => rfl
  | cons e es ih => rw [updateAll, ih, List.map_cons]

/-- Two changes of the slots are one change by the composed functions. -/
theorem update_update (f f' : Slot Ty → Slot Ty) (g g' : Slot Scheme → Slot Scheme) (e : Expr) :
    (e.update f g).update f' g' = e.update (f' ∘ f) (g' ∘ g) := by
  induction e using Expr.inductionOn with
  | lit | name | invalid => rfl
  | lam m p b ih => simp only [update, ih]; rfl
  | app m f a ihf iha => simp only [update, ihf, iha]; rfl
  | letIn m b d e ihd ihe => simp only [update, ihd, ihe]; rfl
  | cond m c t e ihc iht ihe => simp only [update, ihc, iht, ihe]; rfl
  | anno m e a ih => simp only [update, ih]; rfl
  | tuple m es ih =>
    simp only [update, updateAll_eq_map, List.map_map]
    exact congrArg (tuple _) (List.map_congr_left fun e he => ih e he)

/-- Changing nothing leaves the tree as it is. -/
theorem update_id (e : Expr) : e.update id id = e := by
  induction e using Expr.inductionOn with
  | lit | name | invalid => rfl
  | lam m p b ih => exact congrArg (lam m p) ih
  | app m f a ihf iha => exact congrArg₂ (app m) ihf iha
  | letIn m b d e ihd ihe => exact congrArg₂ (letIn m b) ihd ihe
  | cond m c t e ihc iht ihe =>
    simp only [update, ihc, iht, ihe]
    rfl
  | anno m e a ih => exact congrArg (anno m · a) ih
  | tuple m es ih =>
    have hes : es.map (update id id) = es := (List.map_congr_left ih).trans (List.map_id' es)
    simp only [update, updateAll_eq_map, hes]
    rfl

/-- The expression with all slots emptied. -/
def clear (e : Expr) : Expr := e.update (fun _ => .empty) (fun _ => .empty)

@[simp] theorem clear_update (f : Slot Ty → Slot Ty) (g : Slot Scheme → Slot Scheme) (e : Expr) :
    (e.update f g).clear = e.clear :=
  update_update ..

@[simp] theorem clear_clear (e : Expr) : e.clear.clear = e.clear := clear_update ..

end Expr

/-- The mark with its slot emptied. -/
def Mark.clear (m : Mark) : Mark := m.update fun _ => .empty

/-- The binder with its slot emptied. -/
def Binder.clear (b : Binder) : Binder := b.update fun _ => .empty

@[simp] theorem Mark.ty_clear (m : Mark) : m.clear.ty = .empty := rfl

@[simp] theorem Binder.scheme_clear (b : Binder) : b.clear.scheme = .empty := rfl

theorem Mark.ty_of_blank {m : Mark} (h : m.clear = m) : m.ty = .empty := by
  rw [← h, ty_clear]

theorem Binder.scheme_of_blank {b : Binder} (h : b.clear = b) : b.scheme = .empty := by
  rw [← h, scheme_clear]

/-- A mark without a type is not changed by clearing. -/
theorem Mark.clear_of_empty {m : Mark} (h : m.ty = .empty) : m.clear = m := by
  cases m
  cases h
  rfl

/-- A binder without a scheme is not changed by clearing. -/
theorem Binder.clear_of_empty {b : Binder} (h : b.scheme = .empty) : b.clear = b := by
  cases b
  cases h
  rfl

namespace Expr

section

variable (m : Mark) (p : Binder) (e e' e'' : Expr)

@[simp] theorem clear_lit (l : Literal) : (lit m l).clear = lit m.clear l := rfl

@[simp] theorem clear_name (x : String) : (name m x).clear = name m.clear x := rfl

@[simp] theorem clear_lam : (lam m p e).clear = lam m.clear p.clear e.clear := rfl

@[simp] theorem clear_app : (app m e e').clear = app m.clear e.clear e'.clear := rfl

@[simp] theorem clear_letIn : (letIn m p e e').clear = letIn m.clear p.clear e.clear e'.clear := rfl

@[simp] theorem clear_cond :
    (cond m e e' e'').clear = cond m.clear e.clear e'.clear e''.clear := rfl

@[simp] theorem clear_anno (a : TypeExpr) : (anno m e a).clear = anno m.clear e.clear a := rfl

@[simp] theorem clear_tuple (es : List Expr) :
    (tuple m es).clear = tuple m.clear (es.map clear) := by
  simp only [clear, update, updateAll_eq_map]
  rfl

@[simp] theorem clear_invalid : (invalid m).clear = invalid m.clear := rfl

end

end Expr

/-! ## Subexpressions -/

namespace Expr

/-- The binder of a function or of a local definition. -/
def binder? : Expr → Option Binder
  | lam _ p _ => some p
  | letIn _ b _ _ => some b
  | _ => none

/-- The subexpressions of a list are those of its members, from left to right. -/
theorem walkAll_eq_flatMap (es : List Expr) : walkAll es = es.flatMap walk := by
  induction es with
  | nil => rfl
  | cons e es ih => rw [walkAll, ih, List.flatMap_cons]

theorem walk_eq (e : Expr) : e.walk = e :: e.children.flatMap walk := by
  cases e <;> simp [walk, children, walkAll_eq_flatMap]

theorem mem_walk_self (e : Expr) : e ∈ e.walk := by
  rw [walk_eq]
  exact List.mem_cons_self ..

/-- What holds of all subexpressions holds of those of a part. -/
theorem forall_walk_of_mem_children {P : Expr → Prop} {e c : Expr} (h : ∀ d ∈ e.walk, P d)
    (hc : c ∈ e.children) : ∀ d ∈ c.walk, P d := by
  intro d hd
  rw [walk_eq] at h
  exact h d (List.mem_cons_of_mem e (List.mem_flatMap.2 ⟨c, hc, hd⟩))

theorem children_update (f : Slot Ty → Slot Ty) (g : Slot Scheme → Slot Scheme) (e : Expr) :
    (e.update f g).children = e.children.map (update f g) := by
  cases e <;> simp [update, children]

theorem children_clear (e : Expr) : e.clear.children = e.children.map clear := children_update ..

/-- The subexpressions of a changed expression are the changed subexpressions, in the same order. -/
theorem walk_update (f : Slot Ty → Slot Ty) (g : Slot Scheme → Slot Scheme) (e : Expr) :
    (e.update f g).walk = e.walk.map (update f g) := by
  induction e using inductionOnParts with
  | step e ih =>
    rw [walk_eq, walk_eq e, children_update, List.flatMap_map, List.map_cons, List.map_flatMap]
    exact congrArg _ (List.flatMap_congr ih)

theorem mark_update (f : Slot Ty → Slot Ty) (g : Slot Scheme → Slot Scheme) (e : Expr) :
    (e.update f g).mark = e.mark.update f := by
  cases e <;> rfl

theorem binder?_update (f : Slot Ty → Slot Ty) (g : Slot Scheme → Slot Scheme) (e : Expr) :
    (e.update f g).binder? = e.binder?.map (Binder.update g) := by
  cases e <;> rfl

/-- Two changes that agree on all slots of an expression have the same result. -/
theorem update_congr {f f' : Slot Ty → Slot Ty} {g g' : Slot Scheme → Slot Scheme} {e : Expr}
    (h : ∀ d ∈ e.walk, f d.mark.ty = f' d.mark.ty ∧
      ∀ b, d.binder? = some b → g b.scheme = g' b.scheme) :
    e.update f g = e.update f' g' := by
  have hmark (e : Expr) (he : f e.mark.ty = f' e.mark.ty) : e.mark.update f = e.mark.update f' :=
    congrArg (Mark.mk e.mark.span) he
  have hbinder (b : Binder) (hb : g b.scheme = g' b.scheme) : b.update g = b.update g' :=
    congrArg (Binder.mk b.name b.span b.anno) hb
  induction e using Expr.inductionOn with
  | lit m l => exact congrArg (lit · l) (hmark (lit m l) (h _ (mem_walk_self _)).1)
  | name m x => exact congrArg (name · x) (hmark (name m x) (h _ (mem_walk_self _)).1)
  | invalid m => exact congrArg invalid (hmark (invalid m) (h _ (mem_walk_self _)).1)
  | lam m p b ih =>
    obtain ⟨hm, hb⟩ := h _ (mem_walk_self _)
    have hbody := ih (forall_walk_of_mem_children h (by simp [children]))
    simp only [update, hbody, hbinder p (hb p rfl)]
    exact congrArg (lam · _ _) (hmark (lam m p b) hm)
  | app m e a ihe iha =>
    have he := ihe (forall_walk_of_mem_children h (by simp [children]))
    have ha := iha (forall_walk_of_mem_children h (by simp [children]))
    simp only [update, he, ha]
    exact congrArg (app · _ _) (hmark (app m e a) (h _ (mem_walk_self _)).1)
  | letIn m b d e ihd ihe =>
    obtain ⟨hm, hb⟩ := h _ (mem_walk_self _)
    have hd := ihd (forall_walk_of_mem_children h (by simp [children]))
    have he := ihe (forall_walk_of_mem_children h (by simp [children]))
    simp only [update, hd, he, hbinder b (hb b rfl)]
    exact congrArg (letIn · _ _ _) (hmark (letIn m b d e) hm)
  | cond m c t e ihc iht ihe =>
    have hc := ihc (forall_walk_of_mem_children h (by simp [children]))
    have ht := iht (forall_walk_of_mem_children h (by simp [children]))
    have he := ihe (forall_walk_of_mem_children h (by simp [children]))
    simp only [update, hc, ht, he]
    exact congrArg (cond · _ _ _) (hmark (cond m c t e) (h _ (mem_walk_self _)).1)
  | anno m e a ih =>
    have he := ih (forall_walk_of_mem_children h (by simp [children]))
    simp only [update, he]
    exact congrArg (anno · _ _) (hmark (anno m e a) (h _ (mem_walk_self _)).1)
  | tuple m es ih =>
    have hes : es.map (update f g) = es.map (update f' g') := List.map_congr_left fun e he =>
      ih e he (forall_walk_of_mem_children h he)
    simp only [update, updateAll_eq_map, hes]
    exact congrArg (tuple · _) (hmark (tuple m es) (h _ (mem_walk_self _)).1)

end Expr

/-! ## Changing types and schemes -/

namespace Slot

variable {α : Type}

/-- Two changes of what fills a slot are one change by the composed function. -/
theorem resolve_resolve (x : Slot α) (f g : α → α) :
    (x.resolve f).resolve g = x.resolve (g ∘ f) := by
  simp [resolve]

/-- A change of a slot depends only on what it makes of the content of the slot. -/
theorem resolve_congr {x : Slot α} {f g : α → α} (h : ∀ a, x = .filled a → f a = g a) :
    x.resolve f = x.resolve g := by
  cases x with
  | mk a? =>
    cases a? with
    | none => rfl
    | some a => exact congrArg filled (h a rfl)

/-- Only a filled slot becomes a filled one. -/
theorem eq_filled_of_resolve {x : Slot α} {f g : α → α} {a : α}
    (h : x.resolve f = (Slot.filled a).resolve g) : ∃ b, x = .filled b ∧ f b = g a := by
  cases x with
  | mk b? =>
    cases b? with
    | none => cases h
    | some b => exact ⟨b, rfl, Option.some.inj (Slot.mk.inj h)⟩

end Slot

namespace Expr

/-- Changes every type and every scheme of an expression. -/
def retype (f : Ty → Ty) (g : Scheme → Scheme) (e : Expr) : Expr :=
  e.update (·.resolve f) (·.resolve g)

/-- Two changes of the types and schemes are one change by the composed functions. -/
theorem retype_retype (f f' : Ty → Ty) (g g' : Scheme → Scheme) (e : Expr) :
    (e.retype f g).retype f' g' = e.retype (f' ∘ f) (g' ∘ g) := by
  simp only [retype, update_update, Function.comp_def, Slot.resolve_resolve]

/-- Types and schemes are in slots only, so a tree without them stays the same. -/
theorem clear_retype (f : Ty → Ty) (g : Scheme → Scheme) (e : Expr) :
    (e.retype f g).clear = e.clear :=
  clear_update ..

theorem retype_tuple (f : Ty → Ty) (g : Scheme → Scheme) (m : Mark) (es : List Expr) :
    (tuple m es).retype f g = tuple (m.update (·.resolve f)) (es.map (retype f g)) := by
  rw [retype, update, updateAll_eq_map]
  rfl

/-- Two changes that agree on all types and schemes of an expression have the same result. -/
theorem retype_congr {f f' : Ty → Ty} {g g' : Scheme → Scheme} {e : Expr}
    (hf : ∀ d ∈ e.walk, ∀ t, d.mark.ty = .filled t → f t = f' t)
    (hg : ∀ d ∈ e.walk, ∀ b σ, d.binder? = some b → b.scheme = .filled σ → g σ = g' σ) :
    e.retype f g = e.retype f' g' :=
  update_congr fun d hd => ⟨Slot.resolve_congr (hf d hd), fun b hb =>
    Slot.resolve_congr fun σ hσ => hg d hd b σ hb hσ⟩

/-- The types in the slots of a node. -/
def ownTypes (e : Expr) : List Ty :=
  e.mark.ty.get?.toList ++ ((e.binder?.bind (·.scheme.get?)).map (·.ty)).toList

/-- The types in the slots of an expression. -/
def types (e : Expr) : List Ty := e.walk.flatMap ownTypes

/-- The type of each subexpression is a type of the tree. -/
theorem mem_types_of_mark {e d : Expr} {t : Ty} (hd : d ∈ e.walk) (ht : d.mark.ty = .filled t) :
    t ∈ e.types :=
  List.mem_flatMap.2 ⟨d, hd, by simp [ownTypes, ht, Slot.filled]⟩

/-- The type below the scheme of each binder is a type of the tree. -/
theorem mem_types_of_binder {e d : Expr} {b : Binder} {σ : Scheme} (hd : d ∈ e.walk)
    (hb : d.binder? = some b) (hσ : b.scheme = .filled σ) : σ.ty ∈ e.types :=
  List.mem_flatMap.2 ⟨d, hd, by simp [ownTypes, hb, hσ, Slot.filled]⟩

/-- If schemes are changed along with their types, the types of a changed tree are the changed
types. -/
theorem types_retype {f : Ty → Ty} {g : Scheme → Scheme} (h : ∀ σ, (g σ).ty = f σ.ty) (e : Expr) :
    (e.retype f g).types = e.types.map f := by
  rw [types, types, retype, walk_update, List.flatMap_map, List.map_flatMap]
  refine List.flatMap_congr fun d _ => ?_
  rw [ownTypes, ownTypes, mark_update, binder?_update, List.map_append]
  refine congrArg₂ _ ?_ ?_
  · cases hm : d.mark.ty with
    | mk t? => cases t? <;> simp [Mark.update, Slot.resolve, hm]
  · cases d.binder? with
    | none => rfl
    | some b =>
      cases hb : b.scheme with
      | mk σ? => cases σ? <;> simp [Binder.update, Slot.resolve, hb, h]

end Expr

/-! ## Programs -/

/-- The declaration with all slots emptied. -/
def Decl.clear (d : Decl) : Decl := d.update (fun _ => .empty) (fun _ => .empty)

/-- Changes every type and every scheme of a declaration. -/
def Decl.retype (f : Ty → Ty) (g : Scheme → Scheme) (d : Decl) : Decl :=
  d.update (·.resolve f) (·.resolve g)

/-- The types in the slots of a declaration. -/
def Decl.types (d : Decl) : List Ty := (d.binder.scheme.get?.map (·.ty)).toList ++ d.bound.types

/-- Two changes of the types and schemes of a declaration are one change. -/
theorem Decl.retype_retype (f f' : Ty → Ty) (g g' : Scheme → Scheme) (d : Decl) :
    (d.retype f g).retype f' g' = d.retype (f' ∘ f) (g' ∘ g) :=
  congrArg₂ (Decl.mk d.span)
    (congrArg (Binder.mk d.binder.name d.binder.span d.binder.anno) (Slot.resolve_resolve ..))
    (Expr.retype_retype ..)

theorem Decl.clear_retype (f : Ty → Ty) (g : Scheme → Scheme) (d : Decl) :
    (d.retype f g).clear = d.clear :=
  congrArg (Decl.mk _ _) (Expr.clear_retype ..)

/-- The types of a changed declaration are the changed types. -/
theorem Decl.types_retype {f : Ty → Ty} {g : Scheme → Scheme} (h : ∀ σ, (g σ).ty = f σ.ty)
    (d : Decl) : (d.retype f g).types = d.types.map f := by
  rw [types, types, List.map_append]
  refine congrArg₂ _ ?_ (Expr.types_retype h d.bound)
  cases hd : d.binder.scheme with
  | mk σ? => cases σ? <;> simp [retype, update, Binder.update, Slot.resolve, hd, h]

namespace Program

/-- Changes every type and every scheme of a program. -/
def retype (f : Ty → Ty) (g : Scheme → Scheme) (p : Program) : Program := p.map (Decl.retype f g)

/-- The types in the slots of a program. -/
def types (p : Program) : List Ty := p.flatMap Decl.types

/-- Two changes of the types and schemes of a program are one change. -/
theorem retype_retype (f f' : Ty → Ty) (g g' : Scheme → Scheme) (p : Program) :
    (p.retype f g).retype f' g' = p.retype (f' ∘ f) (g' ∘ g) := by
  rw [retype, retype, List.map_map]
  exact List.map_congr_left fun d _ => d.retype_retype f f' g g'

/-- A program without its types and schemes stays the same when they are changed. -/
theorem clear_retype (f : Ty → Ty) (g : Scheme → Scheme) (p : Program) :
    (p.retype f g).clear = p.clear := by
  rw [clear, clear, retype, List.map_map]
  exact List.map_congr_left fun d _ => d.clear_retype f g

/-- The types of a changed program are the changed types. -/
theorem types_retype {f : Ty → Ty} {g : Scheme → Scheme} (h : ∀ σ, (g σ).ty = f σ.ty)
    (p : Program) : (p.retype f g).types = p.types.map f := by
  rw [types, types, retype, List.flatMap_map, List.map_flatMap]
  exact List.flatMap_congr fun d _ => d.types_retype h

theorem clear_clear (p : Program) : p.clear.clear = p.clear := by
  rw [clear, clear, List.map_map]
  exact List.map_congr_left fun d _ => congrArg (Decl.mk _ _) (Expr.clear_update ..)

end Program

end LetPoly
