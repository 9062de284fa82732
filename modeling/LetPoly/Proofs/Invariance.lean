import LetPoly.Proofs.Confluence
import LetPoly.Proofs.Independence

/-!
# Changes that types do not see

Two changes of a program leave all its types as they are: to swap two declarations that do not use
each other, and to write down the type that was found for a declaration.  A run does notice them.
It draws other variables and solves equations in another order, and a definition with an annotation
is checked where it was synthesized before.

So the argument is one about derivations.  Each of the changes takes derivations to derivations, and
can be undone.  A run follows every derivation of its program.  So the tree of the changed program
becomes the changed tree under an assignment, and the other way round, and trees of this kind are
the same up to renaming (`Program.Walked.recast`).
-/

namespace LetPoly

/-! ## Changes that can be undone -/

/-- `F` changes the trees of `p` into trees of `p'`, whatever is in their slots.  `G` changes them
back, and takes derivations to derivations. -/
structure Program.Recasts (F G : Program → Program) (p p' : Program) : Prop where
  /-- A changed tree of `p` is a tree of `p'`. -/
  shape : ∀ d : Program, d.clear = p.clear → (F d).clear = p'.clear
  /-- Slots are changed before or after. -/
  retype : ∀ f g d, F (Program.retype f g d) = (F d).retype f g
  /-- The change makes no type ambiguous. -/
  ambiguities : ∀ d : Program, d.ambiguities = [] → (F d).ambiguities = []
  /-- A tree of `p'` that is changed back is a tree of `p`. -/
  undo_shape : ∀ d : Program, d.clear = p'.clear → (G d).clear = p.clear
  /-- A derivation that is changed back is a derivation. -/
  undo_typed : ∀ d : Program, d.clear = p'.clear → d.Typed Env.Generalizes Prelude.env →
    (G d).Typed Env.Generalizes Prelude.env
  /-- Nothing is lost on the way back. -/
  undo : ∀ d : Program, d.clear = p'.clear → F (G d) = d

namespace Program

variable {F G : Program → Program} {p p' q : Program} {m₁ : Mode} {s : Session}

theorem Recasts.specialize (h : Recasts F G p p') (θ : TyVar → Ty) (d : Program) :
    F (d.specialize θ) = (F d).specialize θ :=
  h.retype ..

/-- If the walk of a program ends and its changed tree is a derivation, then the walk of the changed
program ends in every mode, with the changed tree up to renaming. -/
theorem Walked.recast (h : p.Walked m₁ q s) (hF : Recasts F G p p')
    (htyped : (F (q.resolve s.subst)).Typed Env.Generalizes Prelude.env) (m₂ : Mode) :
    ∃ q' s', p'.Walked m₂ q' s' ∧
      ∃ π : Equiv.Perm TyVar, q'.resolve s'.subst = (F (q.resolve s.subst)).rename π := by
  have hclear : (q.resolve s.subst).clear = p.clear := by
    rw [clear_resolve, h.found.left.shape, clear_clear]
  obtain ⟨q', s', θ', h', htree'⟩ := walked_of_typed m₂
    (htyped.mono fun _ _ _ => Env.Generalizes.closes) (hF.shape _ hclear)
  have hclear' : (q'.resolve s'.subst).clear = p'.clear := by
    rw [clear_resolve, h'.found.left.shape, clear_clear]
  -- The tree of the changed program, changed back, is a derivation that the first run follows.
  obtain ⟨_, _, θ, hagain, htree⟩ := walked_of_typed m₁
    ((hF.undo_typed _ hclear' h'.derivation).mono fun _ _ _ => Env.Generalizes.closes)
    (hF.undo_shape _ hclear')
  obtain ⟨rfl, rfl⟩ := hagain.unique h
  have hchanged := congrArg F htree
  rw [hF.specialize, hF.specialize, hF.undo _ hclear'] at hchanged
  exact ⟨q', s', h', htyped.exists_rename h'.derivation hchanged htree'⟩

theorem walked_of_verdict {mode : Mode} (h : (p.inferTypes mode).verdict = .typed) :
    ∃ q s, p.Walked mode q s ∧ (q.resolve s.subst).ambiguities = [] := by
  obtain ⟨q, e, s, hfailed⟩ | ⟨q, s, hwalked⟩ := p.failed_or_walked mode
  · rw [hfailed.verdict] at h
    cases h
  · exact ⟨q, s, hwalked, hwalked.typed.1 h⟩

/-- If a program has types and its changed tree is a derivation, then the changed program has types
in every mode, which are those of the changed tree up to renaming. -/
theorem typed_of_recasts (h : (p.inferTypes m₁).verdict = .typed) (hF : Recasts F G p p')
    (htyped : (F (p.inferTypes m₁).program).Typed Env.Generalizes Prelude.env) (m₂ : Mode) :
    (p'.inferTypes m₂).verdict = .typed ∧ ∃ π : Equiv.Perm TyVar,
      (p'.inferTypes m₂).program = (F (p.inferTypes m₁).program).rename π := by
  obtain ⟨q, s, hwalked, hnone⟩ := walked_of_verdict h
  rw [hwalked.program] at htyped ⊢
  obtain ⟨q', s', hwalked', π, hπ⟩ := hwalked.recast hF htyped m₂
  have hnone' := ambiguities_rename π.injective (F (q.resolve s.subst))
  rw [← hπ, hF.ambiguities _ hnone] at hnone'
  rw [hwalked'.program]
  exact ⟨hwalked'.typed.2 hnone', π, hπ⟩

end Program

/-! ## Names that an expression uses -/

namespace Expr

mutual

/-- The names that an expression uses without binding them. -/
def freeNames : Expr → List String
  | lit _ _ => []
  | name _ x => [x]
  | lam _ p b => (freeNames b).filter (· != p.name)
  | app _ f a => freeNames f ++ freeNames a
  | letIn _ b d e => freeNames d ++ (freeNames e).filter (· != b.name)
  | cond _ c t e => freeNames c ++ (freeNames t ++ freeNames e)
  | anno _ e _ => freeNames e
  | tuple _ es => freeNamesAll es
  | invalid _ => []

/-- The names that the expressions of a list use without binding them. -/
def freeNamesAll : List Expr → List String
  | [] => []
  | e :: es => freeNames e ++ freeNamesAll es

end

@[simp] theorem freeNamesAll_eq_flatMap (es : List Expr) :
    freeNamesAll es = es.flatMap freeNames := by
  induction es with
  | nil => rfl
  | cons e es ih => simp [freeNamesAll, ih]

/-- Which names are used does not depend on slots. -/
theorem freeNames_update (f : Slot Ty → Slot Ty) (g : Slot Scheme → Slot Scheme) (e : Expr) :
    (e.update f g).freeNames = e.freeNames := by
  induction e using Expr.inductionOn with
  | lit | name | invalid => rfl
  | lam m p b ih => simp [update, freeNames, ih, Binder.update]
  | app m e a ihe iha => simp [update, freeNames, ihe, iha]
  | letIn m b d e ihd ihe => simp [update, freeNames, ihd, ihe, Binder.update]
  | cond m c t e ihc iht ihe => simp [update, freeNames, ihc, iht, ihe]
  | anno m e a ih => simp [update, freeNames, ih]
  | tuple m es ih =>
    simp only [update, updateAll_eq_map, freeNames, freeNamesAll_eq_flatMap, List.flatMap_map]
    exact List.flatMap_congr ih

end Expr

/-- The environments have the same schemes for the given names, and every name has the same free
variables in both. -/
structure Env.AgreesOn (xs : List String) (Γ Γ' : Env) : Prop where
  /-- The schemes of the names. -/
  names : ∀ x ∈ xs, Γ.lookup? x = Γ'.lookup? x
  /-- The free variables. -/
  free : Γ.Renames id Γ'

section

variable {Γ Γ' : Env} {xs ys : List String}

theorem Env.AgreesOn.mono (h : Γ.AgreesOn xs Γ') (hys : ∀ y ∈ ys, y ∈ xs) : Γ.AgreesOn ys Γ' :=
  ⟨fun y hy => h.names y (hys y hy), h.free⟩

theorem Env.AgreesOn.left (h : Γ.AgreesOn (xs ++ ys) Γ') : Γ.AgreesOn xs Γ' :=
  h.mono fun _ hx => List.mem_append_left ys hx

theorem Env.AgreesOn.right (h : Γ.AgreesOn (xs ++ ys) Γ') : Γ.AgreesOn ys Γ' :=
  h.mono fun _ hy => List.mem_append_right xs hy

theorem Scheme.rename_id (σ : Scheme) : σ.rename id = σ := by
  have hty : σ.ty.rename id = σ.ty := Ty.replace_var_self σ.ty
  simp [rename, hty]

/-- The scope of a binder hides what its name was before. -/
theorem Env.AgreesOn.extend {x : String} (h : Γ.AgreesOn (xs.filter (· != x)) Γ') (σ : Scheme) :
    (Γ.extend x σ).AgreesOn xs (Γ'.extend x σ) where
  names y hy := by
    rw [lookup?_extend, lookup?_extend]
    split
    · rfl
    · rename_i hxy
      exact h.names y (by simpa [hy] using Ne.symm hxy)
  free := by
    have hextend := h.free.extend Function.injective_id x σ
    rwa [Scheme.rename_id] at hextend

theorem Env.AgreesOn.generalizes (h : Γ.AgreesOn xs Γ') {t : Ty} {σ : Scheme}
    (hσ : Γ.Generalizes t σ) : Γ'.Generalizes t σ where
  ty := hσ.ty
  sublist := hσ.sublist
  vars v := by
    rw [hσ.vars v, h.free.free v]
    rfl

/-- A derivation depends on its environment only through the names that the expression uses, and
through the free variables. -/
theorem Typed.agreesOn {e : Expr} {t : Ty} (he : Typed Env.Generalizes Γ e t)
    (h : Γ.AgreesOn e.freeNames Γ') : Typed Env.Generalizes Γ' e t := by
  induction he generalizing Γ' with
  | lit hm => exact .lit hm
  | @name Γ m x σ t hm hx ht =>
    rw [h.names x (by simp [Expr.freeNames])] at hx
    exact .name hm hx ht
  | lam hm hp ha _ ih => exact .lam hm hp ha (ih (h.extend _))
  | app hm _ _ ihf iha => exact .app hm (ihf h.left) (iha h.right)
  | letIn hm _ ha hb hσ _ ihd ihe =>
    exact .letIn hm (ihd h.left) ha hb (h.generalizes hσ) (ihe (h.right.extend _))
  | cond hm _ _ _ ihc iht ihe =>
    exact .cond hm (ihc h.left) (iht h.right.left) (ihe h.right.right)
  | anno hm ha _ ih => exact .anno hm ha (ih h)
  | @tuple Γ m es ts hm hlen _ ih =>
    have helem (q : Expr × Ty) (hq : q ∈ es.zip ts) : Γ.AgreesOn q.1.freeNames Γ' := by
      refine h.mono fun x hx => ?_
      rw [Expr.freeNames, Expr.freeNamesAll_eq_flatMap]
      exact List.mem_flatMap.2 ⟨q.1, (List.of_mem_zip hq).1, hx⟩
    exact .tuple hm hlen fun q hq => ih q hq (helem q hq)
  | invalid hm => exact .invalid hm

/-- In the absence of free variables, the scope of a declaration is no different for an expression
that does not use its name. -/
theorem Env.agreesOn_extend (hΓ : ∀ v, ¬ Γ.Free v) {x : String} {σ : Scheme}
    (hσ : ∀ v, ¬ (Γ.extend x σ).Free v) (hx : x ∉ xs) : Γ.AgreesOn xs (Γ.extend x σ) where
  names y hy := by
    have hxy : x ≠ y := fun heq => hx (heq ▸ hy)
    rw [lookup?_extend, if_neg hxy]
  free := renames_of_not_free hΓ hσ

theorem Env.AgreesOn.symm (h : Γ.AgreesOn xs Γ') : Γ'.AgreesOn xs Γ :=
  ⟨fun x hx => (h.names x hx).symm, fun x v => (h.free x v).symm⟩

theorem Env.extend_comm {x y : String} (hxy : x ≠ y) (σ τ : Scheme) :
    (Γ.extend x σ).extend y τ = (Γ.extend y τ).extend x σ := by
  refine ext fun z => ?_
  simp only [lookup?_extend]
  split
  · rename_i hy
    rw [if_neg fun hx => hxy (hx.trans hy.symm)]
  · rfl

end

/-! ## Declarations that do not use each other -/

/-- Neither declaration uses the name of the other, and the names are different. -/
structure Decl.Independent (c d : Decl) : Prop where
  /-- The names are different. -/
  names : c.binder.name ≠ d.binder.name
  /-- The first declaration does not use the second. -/
  first : d.binder.name ∉ c.bound.freeNames
  /-- The second declaration does not use the first. -/
  second : c.binder.name ∉ d.bound.freeNames

theorem Decl.Independent.symm {c d : Decl} (h : c.Independent d) : d.Independent c :=
  ⟨h.names.symm, h.second, h.first⟩

/-- Independence does not depend on slots. -/
theorem Decl.Independent.congr {c d c' d' : Decl} (h : c.Independent d) (hc : c'.clear = c.clear)
    (hd : d'.clear = d.clear) : c'.Independent d' := by
  have hname {a a' : Decl} (ha : a'.clear = a.clear) : a'.binder.name = a.binder.name :=
    congrArg (·.binder.name) ha
  have hnames {a a' : Decl} (ha : a'.clear = a.clear) : a'.bound.freeNames = a.bound.freeNames := by
    have hbound := congrArg (·.bound.freeNames) ha
    simpa [Decl.clear, Decl.update, Expr.freeNames_update] using hbound
  constructor
  · rw [hname hc, hname hd]
    exact h.names
  · rw [hname hd, hnames hc]
    exact h.first
  · rw [hname hc, hnames hd]
    exact h.second

namespace Program

/-- Swaps the declaration with the given number and the next one, if there are both. -/
def exchange : Nat → Program → Program
  | 0, c :: d :: ds => d :: c :: ds
  | i + 1, d :: ds => d :: exchange i ds
  | _, ds => ds

/-- The declaration with the given number and the next one, if there are both, are independent. -/
def IndependentAt (i : Nat) (p : Program) : Prop :=
  ∀ c d, p[i]? = some c → p[i + 1]? = some d → c.Independent d

theorem exchange_exchange : ∀ (i : Nat) (p : Program), (p.exchange i).exchange i = p
  | 0, [] => rfl
  | 0, [_] => rfl
  | 0, _ :: _ :: _ => rfl
  | _ + 1, [] => rfl
  | i + 1, d :: ds => congrArg (d :: ·) (exchange_exchange i ds)

theorem exchange_map (f : Decl → Decl) :
    ∀ (i : Nat) (p : Program), exchange i (p.map f) = (p.exchange i).map f
  | 0, [] => rfl
  | 0, [_] => rfl
  | 0, _ :: _ :: _ => rfl
  | _ + 1, [] => rfl
  | i + 1, d :: ds => congrArg (f d :: ·) (exchange_map f i ds)

theorem exchange_perm : ∀ (i : Nat) (p : Program), (p.exchange i).Perm p
  | 0, [] => .refl _
  | 0, [_] => .refl _
  | 0, c :: d :: ds => .swap c d ds
  | _ + 1, [] => .refl _
  | i + 1, d :: ds => (exchange_perm i ds).cons d

theorem clear_exchange (i : Nat) (p : Program) : (p.exchange i).clear = p.clear.exchange i :=
  (exchange_map _ i p).symm

theorem retype_exchange (f : Ty → Ty) (g : Scheme → Scheme) (i : Nat) (p : Program) :
    (p.exchange i).retype f g = (p.retype f g).exchange i :=
  (exchange_map _ i p).symm

theorem ambiguities_exchange {i : Nat} {p : Program} (h : p.ambiguities = []) :
    (p.exchange i).ambiguities = [] := by
  have hperm := (exchange_perm i p).filterMap Decl.ambiguous?
  rw [show p.filterMap Decl.ambiguous? = [] from h] at hperm
  exact hperm.eq_nil

variable {p q : Program} {i : Nat}

/-- Independence does not depend on slots. -/
theorem IndependentAt.congr (h : p.IndependentAt i) (hq : q.clear = p.clear) :
    q.IndependentAt i := by
  have hdecl {j : Nat} {c : Decl} (hc : q[j]? = some c) :
      ∃ c', p[j]? = some c' ∧ c'.clear = c.clear := by
    have hj := congrArg (·[j]?) hq
    simpa [clear, Decl.clear, hc, eq_comm] using hj
  intro c d hc hd
  obtain ⟨c', hc', hcclear⟩ := hdecl hc
  obtain ⟨d', hd', hdclear⟩ := hdecl hd
  exact (h c' d' hc' hd').congr hcclear.symm hdclear.symm

/-- Independent declarations stay so when they are swapped. -/
theorem IndependentAt.exchange : ∀ {i : Nat} {p : Program}, p.IndependentAt i →
    (p.exchange i).IndependentAt i
  | 0, [], h => h
  | 0, [_], h => h
  | 0, c :: d :: ds, h => by
    intro c' d' hc' hd'
    cases hc'
    cases hd'
    exact (h c d rfl rfl).symm
  | _ + 1, [], h => h
  | i + 1, _ :: ds, h => IndependentAt.exchange (i := i) (p := ds) h

/-- A derivation stays one when two independent declarations are swapped, since nothing is free in
the scope of declarations. -/
theorem Typed.exchange {Γ : Env} (hΓ : ∀ v, ¬ Γ.Free v) (h : p.Typed Env.Generalizes Γ)
    (hind : p.IndependentAt i) : (p.exchange i).Typed Env.Generalizes Γ := by
  induction i generalizing p Γ with
  | zero =>
    cases h with
    | nil => exact .nil
    | @cons _ c cs t σ hc hca hcb hσ hcs =>
      cases hcs with
      | nil => exact .cons hc hca hcb hσ .nil
      | @cons _ d ds u τ hd hda hdb hτ hds =>
        obtain ⟨hnames, hfirst, hsecond⟩ := hind c d rfl rfl
        have hΓσ := hσ.not_free_extend hΓ c.binder.name
        have hback := (Env.agreesOn_extend hΓ hΓσ hsecond).symm
        have hτ := hback.generalizes hτ
        have hΓτ := hτ.not_free_extend hΓ d.binder.name
        have hforth := Env.agreesOn_extend hΓ hΓτ hfirst
        rw [Env.extend_comm hnames] at hds
        exact .cons (hd.agreesOn hback) hda hdb hτ
          (.cons (hc.agreesOn hforth) hca hcb (hforth.generalizes hσ) hds)
  | succ i ih =>
    cases h with
    | nil => exact .nil
    | @cons _ c cs t σ hc hca hcb hσ hcs =>
      exact .cons hc hca hcb hσ (ih (hσ.not_free_extend hΓ c.binder.name) hcs hind)

/-- Swapping independent declarations takes derivations to derivations, both ways. -/
theorem recasts_exchange (hind : p.IndependentAt i) :
    Recasts (Program.exchange i) (Program.exchange i) p (p.exchange i) where
  shape d hd := by rw [clear_exchange, hd, clear_exchange]
  retype f g d := (retype_exchange f g i d).symm
  ambiguities d hd := ambiguities_exchange hd
  undo_shape d hd := by rw [clear_exchange, hd, clear_exchange, exchange_exchange]
  undo_typed d hd h := h.exchange Prelude.not_free (hind.exchange.congr hd)
  undo d _ := exchange_exchange i d

/-- A program that has types has them also after independent declarations were swapped. -/
theorem typed_exchange (mode : Mode) (hind : p.IndependentAt i)
    (h : (p.inferTypes mode).verdict = .typed) :
    ((p.exchange i).inferTypes mode).verdict = .typed ∧ ∃ π : Equiv.Perm TyVar,
      ((p.exchange i).inferTypes mode).program =
        ((p.inferTypes mode).program.exchange i).rename π := by
  obtain ⟨q, s, hwalked, -⟩ := walked_of_verdict h
  have htyped := hwalked.derivation
  rw [← hwalked.program] at htyped
  exact typed_of_recasts h (recasts_exchange hind)
    (htyped.exchange Prelude.not_free (hind.congr (p.clear_inferTypes mode))) mode

end Program

/-- Independent declarations commute.  If two declarations that follow each other have different
names and neither uses the name of the other, then the program has types if and only if it has them
with the two swapped.  All slots are the same then, up to a renaming of variables. -/
theorem independent_declarations_commute (mode : Mode) (p : Program) (i : Nat) {c d : Decl}
    (hc : p[i]? = some c) (hd : p[i + 1]? = some d) (hnames : c.binder.name ≠ d.binder.name)
    (hfirst : d.binder.name ∉ c.bound.freeNames) (hsecond : c.binder.name ∉ d.bound.freeNames) :
    ((p.inferTypes mode).verdict = .typed ↔ ((p.exchange i).inferTypes mode).verdict = .typed) ∧
    ((p.inferTypes mode).verdict = .typed → ∃ π : Equiv.Perm TyVar,
      ((p.exchange i).inferTypes mode).program =
        ((p.inferTypes mode).program.exchange i).rename π) := by
  have hind : p.IndependentAt i := by
    intro c' d' hc' hd'
    cases hc.symm.trans hc'
    cases hd.symm.trans hd'
    exact ⟨hnames, hfirst, hsecond⟩
  have hforth := Program.typed_exchange mode hind
  have hback := Program.typed_exchange mode hind.exchange
  rw [Program.exchange_exchange] at hback
  exact ⟨⟨fun h => (hforth h).1, fun h => (hback h).1⟩, fun h => (hforth h).2⟩

/-- `let a = fn (b) -> b`, `let b = 1` and `let c = a(b)`.  The first declaration uses the name `b`,
which it binds itself. -/
def Program.independentSample : Program :=
  let use (x : String) : Expr := .name .nowhere x
  [.sample "a" (.lam .nowhere ⟨"b", .nowhere, none, .empty⟩ (use "b")),
    .sample "b" (.lit .nowhere (.int 1)), .sample "c" (.app .nowhere (use "a") (use "b"))]

/-- The first two declarations of the sample can be swapped. -/
theorem independent_declarations_commute_sample :
    (Program.independentSample.inferTypes .bottomUp).verdict = .typed ∧
      ((Program.independentSample.exchange 0).inferTypes .bottomUp).verdict = .typed ∧
      ∃ π : Equiv.Perm TyVar,
        ((Program.independentSample.exchange 0).inferTypes .bottomUp).program =
          ((Program.independentSample.inferTypes .bottomUp).program.exchange 0).rename π := by
  have htyped : (Program.independentSample.inferTypes .bottomUp).verdict = .typed := by
    decide +kernel
  obtain ⟨haccepted, hslots⟩ := independent_declarations_commute .bottomUp Program.independentSample
    0 rfl rfl (by decide) (by decide) (by decide)
  exact ⟨htyped, haccepted.1 htyped, hslots htyped⟩

/-! ## Annotations for what was found -/

/-- The declaration with another annotation, or without one. -/
def Decl.annotate (a : Option TypeExpr) (d : Decl) : Decl :=
  { d with binder := { d.binder with anno := a } }

namespace Program

/-- The program in which the declaration with the given number has another annotation, or none. -/
def annotate (i : Nat) (a : Option TypeExpr) (p : Program) : Program :=
  p.modify i (Decl.annotate a)

variable {p : Program} {i : Nat} {a b : Option TypeExpr}

/-- Slots are changed before or after annotations. -/
theorem map_annotate (f : Decl → Decl) (hf : ∀ d : Decl, f (d.annotate a) = (f d).annotate a)
    (p : Program) : (p.annotate i a).map f = annotate i a (p.map f) := by
  refine List.ext_getElem? fun j => ?_
  simp only [annotate, List.getElem?_map, List.getElem?_modify]
  cases p[j]? with
  | none => rfl
  | some d =>
    simp only [Option.map_some]
    split <;> simp [hf]

theorem clear_annotate (p : Program) : (p.annotate i a).clear = p.clear.annotate i a :=
  map_annotate (Decl.update _ _) (fun _ => rfl) p

theorem retype_annotate (f : Ty → Ty) (g : Scheme → Scheme) (p : Program) :
    (p.annotate i a).retype f g = (p.retype f g).annotate i a :=
  map_annotate (Decl.retype f g) (fun _ => rfl) p

theorem annotate_annotate (p : Program) : (p.annotate i a).annotate i b = p.annotate i b := by
  simp only [annotate, List.modify_modify_eq]
  rfl

/-- To give a declaration the annotation that it has changes nothing. -/
theorem annotate_eq_self (h : ∀ d, p[i]? = some d → d.binder.anno = a) : p.annotate i a = p := by
  refine List.ext_getElem? fun j => ?_
  rw [annotate, List.getElem?_modify]
  split
  · rename_i heq
    cases hd : p[j]? with
    | none => rfl
    | some d =>
      subst heq
      rw [← h d hd]
      rfl
  · simp

theorem ambiguities_annotate (p : Program) : (p.annotate i a).ambiguities = p.ambiguities := by
  induction p generalizing i with
  | nil => simp [annotate]
  | cons d ds ih =>
    cases i with
    | zero => rfl
    | succ i =>
      have hds := ih (i := i)
      simp only [ambiguities, annotate, List.modify_succ_cons, List.filterMap_cons] at hds ⊢
      rw [hds]

/-- A derivation allows every annotation that admits the type of the declaration. -/
theorem Typed.annotate {Γ : Env} (h : p.Typed Env.Generalizes Γ)
    (ha : ∀ d σ, p[i]? = some d → d.binder.scheme = .filled σ → ∀ x ∈ a, x.Admits σ.ty) :
    (p.annotate i a).Typed Env.Generalizes Γ := by
  induction h generalizing i with
  | nil => simpa [Program.annotate] using .nil
  | @cons Γ d ds t σ hd hanno hb hσ hds ih =>
    cases i with
    | zero =>
      have hadmits : ∀ x ∈ a, x.Admits t := by
        rw [← hσ.ty]
        exact ha d σ rfl hb
      exact .cons hd hadmits hb hσ hds
    | succ i => exact .cons hd hanno hb hσ (ih ha)

/-- An annotation of a declaration can be taken away, and what was a derivation stays one. -/
theorem recasts_annotate (h : ∀ d, p[i]? = some d → d.binder.anno = none) (a : TypeExpr) :
    Recasts (Program.annotate i (some a)) (Program.annotate i none) p (p.annotate i (some a)) where
  shape d hd := by rw [clear_annotate, hd, clear_annotate]
  retype f g d := (retype_annotate f g d).symm
  ambiguities d hd := by rw [ambiguities_annotate, hd]
  undo_shape d hd := by
    rw [clear_annotate, hd, ← clear_annotate, annotate_annotate, annotate_eq_self h]
  undo_typed d _ htyped := htyped.annotate (by simp)
  undo d hd := by
    rw [annotate_annotate]
    refine annotate_eq_self fun c hc => ?_
    have hi := congrArg (·[i]?) hd
    simp only [clear, annotate, List.getElem?_map, List.getElem?_modify, hc, if_true,
      Option.map_some] at hi
    obtain ⟨e, -, he⟩ := by simpa using hi.symm
    exact (congrArg (·.binder.anno) he).symm

end Program

/-- To write down the type that was found is neutral.  If a program has types in some mode, and
a declaration without annotation gets one that lowers to the type of its scheme, then the program
still has types in every mode, and all slots are the same up to a renaming of variables.  This does
not depend on the type being ground. -/
theorem found_annotation_neutral (m₁ m₂ : Mode) (p : Program) (i : Nat) {c d : Decl} {σ : Scheme}
    {a : TypeExpr} (n : Supply) (htyped : (p.inferTypes m₁).verdict = .typed)
    (hc : p[i]? = some c) (hplain : c.binder.anno = none)
    (hd : (p.inferTypes m₁).program[i]? = some d) (hσ : d.binder.scheme = .filled σ)
    (ha : (a.lower n).1 = σ.ty) :
    ((p.annotate i (some a)).inferTypes m₂).verdict = .typed ∧ ∃ π : Equiv.Perm TyVar,
      ((p.annotate i (some a)).inferTypes m₂).program =
        ((p.inferTypes m₁).program.annotate i (some a)).rename π := by
  have hnone : ∀ d, p[i]? = some d → d.binder.anno = none := by
    intro d hd
    cases hc.symm.trans hd
    exact hplain
  have hadmits : a.Admits σ.ty := by
    rw [← ha, ← Ty.replace_var_self (a.lower n).1]
    exact (a.lower_lowers n).admits .var
  obtain ⟨q, s, hwalked, -⟩ := Program.walked_of_verdict htyped
  have hderivation := hwalked.derivation
  rw [← hwalked.program] at hderivation
  refine Program.typed_of_recasts htyped (Program.recasts_annotate hnone a)
    (hderivation.annotate fun d' τ hd' hτ x hx => ?_) m₂
  cases hd.symm.trans hd'
  cases hσ.symm.trans hτ
  cases hx
  exact hadmits

/-- `let inc = fn (x) -> x + 1`. -/
def Program.incSample : Program :=
  [.sample "inc" (.lam .nowhere ⟨"x", .nowhere, none, .empty⟩
    (.operation .plus (.name .nowhere "x") (.lit .nowhere (.int 1))))]

/-- The type of the sample that is found bottom-up can be written down, and is then passed on to the
function. -/
theorem found_annotation_neutral_sample :
    let a : TypeExpr := .fn .nowhere (.prim .nowhere .int) (.prim .nowhere .int)
    (Program.incSample.inferTypes .bottomUp).verdict = .typed ∧
      ((Program.incSample.annotate 0 (some a)).inferTypes (.topDown .all)).verdict = .typed ∧
      ∃ π : Equiv.Perm TyVar,
        ((Program.incSample.annotate 0 (some a)).inferTypes (.topDown .all)).program =
          ((Program.incSample.inferTypes .bottomUp).program.annotate 0 (some a)).rename π := by
  intro a
  have htyped : (Program.incSample.inferTypes .bottomUp).verdict = .typed := by decide +kernel
  have hscheme : (Program.incSample.inferTypes .bottomUp).program[0]?.bind (·.binder.scheme.get?) =
      some (.mono (.fn .int .int)) := by
    decide +kernel
  obtain ⟨d, hd, hσ⟩ := Option.bind_eq_some_iff.1 hscheme
  exact ⟨htyped, found_annotation_neutral .bottomUp (.topDown .all) Program.incSample 0 0 htyped rfl
    rfl hd (congrArg Slot.mk hσ) rfl⟩

end LetPoly
