import LetPoly.Proofs.Derivations
import LetPoly.Proofs.Sessions
import LetPoly.Proofs.Walks

/-!
# What acts do

Each act of inference is a stretch of a run that retires nothing, and its result is known.
Besides this frame there is what the act is for: a lowered annotation admits what it
becomes, an instance of a scheme is one, and unified types are equal afterwards.

For the converse direction an assignment of types to variables is carried along.  An act can
extend it to the variables it draws without changing it on those drawn before
(`AgreesBelow`), so that the result becomes any type that the rules of typing allow.
-/

namespace LetPoly

/-- Two assignments agree on the variables below a number. -/
def AgreesBelow (n : Nat) (θ θ' : TyVar → Ty) : Prop := ∀ v, v < n → θ' v = θ v

theorem AgreesBelow.refl (n : Nat) (θ : TyVar → Ty) : AgreesBelow n θ θ := fun _ _ => rfl

theorem AgreesBelow.trans {n n' : Nat} {θ θ' θ'' : TyVar → Ty} (h : AgreesBelow n θ θ')
    (h' : AgreesBelow n' θ' θ'') (hn : n ≤ n') : AgreesBelow n θ θ'' :=
  fun v hv => (h' v (Nat.lt_of_lt_of_le hv hn)).trans (h v hv)

/-- Assignments that agree on the variables of a type make the same of it. -/
theorem AgreesBelow.replace_eq {n : Nat} {θ θ' : TyVar → Ty} (h : AgreesBelow n θ θ') {t : Ty}
    (ht : ∀ v ∈ t.occurrences, v < n) : t.replace θ' = t.replace θ :=
  Ty.replace_congr fun v hv => h v (ht v hv)

/-- The next variable can be given any type. -/
theorem exists_agreesBelow (n : Nat) (θ : TyVar → Ty) (u : Ty) :
    ∃ θ', AgreesBelow n θ θ' ∧ (Ty.var n).replace θ' = u :=
  ⟨fun v => if v = n then u else θ v, fun _ hv => if_neg (Nat.ne_of_lt hv), by simp⟩

/-! ## Annotations -/

namespace TypeExpr

/-- Induction on written types, with a hypothesis for every element of a tuple. -/
theorem inductionOn {motive : TypeExpr → Prop} (a : TypeExpr) (prim : ∀ s c, motive (.prim s c))
    (fn : ∀ s a b, motive a → motive b → motive (.fn s a b))
    (tuple : ∀ s as, (∀ a ∈ as, motive a) → motive (.tuple s as))
    (wildcard : ∀ s, motive (.wildcard s)) (invalid : ∀ s, motive (.invalid s)) : motive a :=
  @TypeExpr.rec motive (fun as => ∀ a ∈ as, motive a) prim fn tuple wildcard invalid
    (by simp) (fun _ _ h hs => by simpa using ⟨h, hs⟩) a

/-- What lowering an annotation to a type does to the supply. -/
structure Lowers (a : TypeExpr) (n : Supply) (t : Ty) (n' : Supply) : Prop where
  /-- The supply grows. -/
  le : n ≤ n'
  /-- The variables of the type are the ones drawn. -/
  drawn : ∀ v ∈ t.occurrences, n ≤ v ∧ v < n'
  /-- Whatever is put for its variables, the type is admitted. -/
  admits : ∀ f, a.Admits (t.replace f)
  /-- Every admitted type comes from some choice for the drawn variables. -/
  reaches : ∀ θ u, a.Admits u → ∃ θ', AgreesBelow n θ θ' ∧ t.replace θ' = u

/-- What lowering a list of annotations does to the supply. -/
structure LowersAll (as : List TypeExpr) (n : Supply) (ts : List Ty) (n' : Supply) : Prop where
  /-- The supply grows. -/
  le : n ≤ n'
  /-- The variables of the types are the ones drawn. -/
  drawn : ∀ t ∈ ts, ∀ v ∈ t.occurrences, n ≤ v ∧ v < n'
  /-- There is a type for each annotation. -/
  length_eq : as.length = ts.length
  /-- Whatever is put for their variables, the types are admitted. -/
  admits : ∀ f, ∀ p ∈ as.zip (ts.map (Ty.replace f)), p.1.Admits p.2
  /-- All admitted types come from some choice for the drawn variables. -/
  reaches : ∀ θ us, as.length = us.length → (∀ p ∈ as.zip us, p.1.Admits p.2) →
    ∃ θ', AgreesBelow n θ θ' ∧ ts.map (Ty.replace θ') = us

theorem Lowers.cons {a : TypeExpr} {as : List TypeExpr} {n n' n'' : Supply} {t : Ty}
    {ts : List Ty} (h : a.Lowers n t n') (hs : LowersAll as n' ts n'') :
    LowersAll (a :: as) n (t :: ts) n'' where
  le := Nat.le_trans h.le hs.le
  drawn u hu v hv := by
    rcases List.mem_cons.1 hu with rfl | hu
    · have := h.drawn v hv
      exact ⟨this.1, Nat.lt_of_lt_of_le this.2 hs.le⟩
    · have := hs.drawn u hu v hv
      exact ⟨Nat.le_trans h.le this.1, this.2⟩
  length_eq := by simp [hs.length_eq]
  admits f p hp := by
    rw [List.map_cons, List.zip_cons_cons, List.mem_cons] at hp
    rcases hp with rfl | hp
    · exact h.admits f
    · exact hs.admits f p hp
  reaches θ us hlen hus := by
    cases us with
    | nil => cases hlen
    | cons u us =>
      obtain ⟨θ₁, hagree, ht⟩ := h.reaches θ u (hus (a, u) (by simp))
      obtain ⟨θ₂, hagree', hts⟩ := hs.reaches θ₁ us (by simpa using hlen)
        fun p hp => hus p (by simp [hp])
      refine ⟨θ₂, hagree.trans hagree' h.le, ?_⟩
      rw [List.map_cons, hts, hagree'.replace_eq fun v hv => (h.drawn v hv).2, ht]

/-- The annotations of a list are lowered one after the other. -/
theorem lowerAll_lowers {as : List TypeExpr}
    (h : ∀ a ∈ as, ∀ n, a.Lowers n (a.lower n).1 (a.lower n).2) (n : Supply) :
    LowersAll as n (lowerAll as n).1 (lowerAll as n).2 := by
  induction as generalizing n with
  | nil =>
    refine ⟨Nat.le_refl n, nofun, rfl, nofun, fun θ us hlen _ => ⟨θ, .refl n θ, ?_⟩⟩
    exact (List.eq_nil_of_length_eq_zero hlen.symm).symm
  | cons a as ih =>
    exact (h a (List.mem_cons_self ..) n).cons (ih (fun b hb => h b (List.mem_cons_of_mem a hb)) _)

/-- A part that is left open becomes a fresh variable. -/
theorem lowers_fresh {a : TypeExpr} (h : ∀ t, a.Admits t) (n : Supply) :
    a.Lowers n (.var n) (n + 1) where
  le := Nat.le_succ n
  drawn v hv := by
    rw [Ty.occurrences_var, List.mem_singleton] at hv
    subst hv
    exact ⟨Nat.le_refl v, Nat.lt_succ_self v⟩
  admits f := h _
  reaches θ u _ := exists_agreesBelow n θ u

/-- An annotation is lowered to a type in which each wildcard is a variable of its own. -/
theorem lower_lowers (a : TypeExpr) (n : Supply) : a.Lowers n (a.lower n).1 (a.lower n).2 := by
  induction a using TypeExpr.inductionOn generalizing n with
  | prim s c =>
    refine ⟨Nat.le_refl n, fun v hv => ?_, fun f => .prim, fun θ u hu => ⟨θ, .refl n θ, ?_⟩⟩
    · cases hv
    · cases hu
      rfl
  | fn s a b iha ihb =>
    have ht := iha n
    have hu := ihb (a.lower n).2
    refine ⟨Nat.le_trans ht.le hu.le, fun v hv => ?_, fun f => ?_, fun θ r hr => ?_⟩
    · change v ∈ (Ty.fn (a.lower n).1 (b.lower (a.lower n).2).1).occurrences at hv
      rw [Ty.occurrences_fn, List.mem_append] at hv
      rcases hv with hv | hv
      · have := ht.drawn v hv
        exact ⟨this.1, Nat.lt_of_lt_of_le this.2 hu.le⟩
      · have := hu.drawn v hv
        exact ⟨Nat.le_trans ht.le this.1, this.2⟩
    · exact .fn (ht.admits f) (hu.admits f)
    · obtain _ | ⟨hr₁, hr₂⟩ := hr
      obtain ⟨θ₁, hagree, h₁⟩ := ht.reaches θ _ hr₁
      obtain ⟨θ₂, hagree', h₂⟩ := hu.reaches θ₁ _ hr₂
      refine ⟨θ₂, hagree.trans hagree' ht.le, ?_⟩
      change (Ty.fn (a.lower n).1 (b.lower (a.lower n).2).1).replace θ₂ = _
      rw [Ty.replace_fn, h₂, hagree'.replace_eq fun v hv => (ht.drawn v hv).2, h₁]
  | tuple s as ih =>
    have hs := lowerAll_lowers ih n
    refine ⟨hs.le, fun v hv => ?_, fun f => ?_, fun θ r hr => ?_⟩
    · change v ∈ (Ty.tuple (lowerAll as n).1).occurrences at hv
      rw [Ty.occurrences_tuple, List.mem_flatMap] at hv
      obtain ⟨t, ht, hv⟩ := hv
      exact hs.drawn t ht v hv
    · change Admits _ ((Ty.tuple (lowerAll as n).1).replace f)
      rw [Ty.replace_tuple]
      exact .tuple (by simp [hs.length_eq]) (hs.admits f)
    · obtain _ | _ | ⟨hlen, hts⟩ := hr
      obtain ⟨θ', hagree, heq⟩ := hs.reaches θ _ hlen hts
      refine ⟨θ', hagree, ?_⟩
      change (Ty.tuple (lowerAll as n).1).replace θ' = _
      rw [Ty.replace_tuple, heq]
  | wildcard s => exact lowers_fresh .wildcard n
  | invalid s => exact lowers_fresh .invalid n

end TypeExpr

/-! ## Drawing -/

section

variable {T : Set TyVar} {s s' : Session}

/-- Drawing and logging leave the territory as it is. -/
theorem Session.Steps.of_subst_eq (hs : s.Sound T) (hdrawn : s.drawn ≤ s'.drawn)
    (hsubst : s'.subst = s.subst) : s.Steps T ∅ s' where
  drawn_le := hdrawn
  le := by rw [hsubst]; exact Subst.le_refl _
  added v t ht hn := by rw [hsubst, hn] at ht; cases ht
  retires _ hv := hv.elim
  sound := by
    rw [Set.sdiff_empty]
    refine ⟨by rw [hsubst]; exact hs.acyclic, fun v t ht => ?_, fun v hv => ?_⟩
    · rw [hsubst] at ht
      obtain ⟨hv, hw⟩ := hs.below v t ht
      exact ⟨Nat.lt_of_lt_of_le hv hdrawn, fun w hw' => Nat.lt_of_lt_of_le (hw w hw') hdrawn⟩
    · exact hs.fresh v (Nat.le_trans hdrawn hv)

theorem Session.Steps.log (hs : s.Sound T) (log : List Event) : s.Steps T ∅ { s with log := log } :=
  .of_subst_eq hs (Nat.le_refl _) rfl

/-- A variable drawn on a stretch that solves nothing is known. -/
theorem Session.Sound.knows_drawn (hs : s.Sound T) (hsubst : s'.subst = s.subst) {v : TyVar}
    (hle : s.drawn ≤ v) (hlt : v < s'.drawn) : s'.Knows T v :=
  Session.knows_of_get?_eq_none hlt (by rw [hsubst]; exact hs.get?_of_le hle) (hs.fresh v hle)

/-- An act that draws a type: nothing is solved and the type is made of what is drawn. -/
structure Session.Draws (s : Session) (t : Ty) (s' : Session) : Prop where
  /-- The supply grows. -/
  drawn_le : s.drawn ≤ s'.drawn
  /-- Nothing is solved. -/
  subst_eq : s'.subst = s.subst
  /-- The variables of the type are the ones drawn. -/
  drawn : ∀ v ∈ t.occurrences, s.drawn ≤ v ∧ v < s'.drawn

theorem Session.Draws.steps {t : Ty} (hs : s.Sound T) (h : s.Draws t s') : s.Steps T ∅ s' :=
  .of_subst_eq hs h.drawn_le h.subst_eq

theorem Session.Draws.known {t : Ty} (hs : s.Sound T) (h : s.Draws t s') : t.Known T s' :=
  fun v hv => hs.knows_drawn h.subst_eq (h.drawn v hv).1 (h.drawn v hv).2

/-- Changing an assignment on variables that are not drawn yet keeps it a solution. -/
theorem Session.Sound.solves_of_agreesBelow {θ θ' : TyVar → Ty} (hs : s.Sound T)
    (hθ : s.subst.Solves θ) (hagree : AgreesBelow s.drawn θ θ') : s.subst.Solves θ' := by
  intro v u hu
  obtain ⟨hv, hw⟩ := hs.below v u hu
  rw [hagree v hv, hθ v u hu, hagree.replace_eq hw]

/-- A fresh variable can become any type. -/
theorem Act.meets_fresh (s : Session) :
    Act.fresh.Meets s (fun t s' => s.Draws t s' ∧
      ∀ θ u, ∃ θ', AgreesBelow s.drawn θ θ' ∧ t.replace θ' = u) fun _ _ => False := by
  refine ⟨⟨Nat.le_succ s.drawn, rfl, fun v hv => ?_⟩, exists_agreesBelow s.drawn⟩
  rw [Ty.occurrences_var, List.mem_singleton] at hv
  subst hv
  exact ⟨Nat.le_refl s.drawn, Nat.lt_succ_self s.drawn⟩

/-- Lowering an annotation draws the most general type that it admits. -/
theorem Act.meets_lower (a : TypeExpr) (s : Session) :
    (Act.draw a.lower).Meets s (fun t s' => s.Draws t s' ∧ (∀ f, a.Admits (t.replace f)) ∧
      ∀ θ u, a.Admits u → ∃ θ', AgreesBelow s.drawn θ θ' ∧ t.replace θ' = u) fun _ _ => False := by
  have h := a.lower_lowers s.drawn
  exact ⟨⟨h.le, rfl, h.drawn⟩, h.admits, h.reaches⟩

end

/-! ## Instances -/

namespace Scheme

/-- The quantified variables of a scheme renamed to the next ones of the supply. -/
def freshening (σ : Scheme) (n : Supply) (v : TyVar) : Ty :=
  if v ∈ σ.vars then .var (n + σ.vars.idxOf v) else .var v

/-- The quantified variables are bound to fresh ones, in order. -/
theorem refresh_eq :
    ∀ (vs : List TyVar) (s : Subst) (n : Supply), vs.Nodup → (∀ v ∈ vs, s.get? v = none) →
      ∃ r, refresh vs s n = (.ok r, n + vs.length) ∧
        ∀ v, r.get? v = if v ∈ vs then some (.var (n + vs.idxOf v)) else s.get? v
  | [], s, n, _, _ => ⟨s, rfl, fun v => by simp⟩
  | w :: vs, s, n, hnodup, hs => by
    obtain ⟨hw, hnodup⟩ := List.nodup_cons.1 hnodup
    have hbind : s.bind w (.var n) = .ok ⟨s.bindings.insert w (.var n)⟩ := by
      rw [Subst.bind, hs w (List.mem_cons_self ..)]
    have hget := Subst.get?_of_bind_eq_ok hbind
    obtain ⟨r, hr, hrget⟩ := refresh_eq vs ⟨s.bindings.insert w (.var n)⟩ (n + 1) hnodup
      fun v hv => by
        rw [hget, if_neg (fun e : w = v => hw (e ▸ hv))]
        exact hs v (List.mem_cons_of_mem w hv)
    refine ⟨r, ?_, fun v => ?_⟩
    · change ExceptT.bindCont (refresh vs) (s.bind w (.var n)) (n + 1) = _
      rw [hbind, List.length_cons, Nat.add_comm vs.length, ← Nat.add_assoc]
      exact hr
    · rw [hrget, hget]
      by_cases h : w = v
      · subst h
        simp [hw]
      · have h' : ¬ v = w := fun e => h e.symm
        by_cases hv : v ∈ vs
        · simp [h, hv, List.idxOf_cons_ne, Nat.add_right_comm, ← Nat.add_assoc]
        · simp [h, h', hv]

/-- The fresh variables are not bound, if the others were drawn before them. -/
theorem not_bound_refresh {vs : List TyVar} {r : Subst} {n : Supply} (hbelow : ∀ v ∈ vs, v < n)
    (hget : ∀ v, r.get? v = if v ∈ vs then some (.var (n + vs.idxOf v)) else Subst.empty.get? v)
    (i : Nat) : r.get? (n + i) = none := by
  rw [hget, if_neg fun h => Nat.not_lt.2 (Nat.le_add_right n i) (hbelow _ h)]
  exact Subst.get?_empty _

theorem acyclic_refresh {vs : List TyVar} {r : Subst} {n : Supply} (hbelow : ∀ v ∈ vs, v < n)
    (hget : ∀ v, r.get? v = if v ∈ vs then some (.var (n + vs.idxOf v)) else Subst.empty.get? v) :
    r.Acyclic := by
  refine Subst.acyclic_of_ends fun v => ⟨1, ?_⟩
  by_cases hv : v ∈ vs
  · refine .bound (by rw [hget, if_pos hv]) fun u hu => .free ?_
    rw [Ty.occurrences_var, List.mem_singleton] at hu
    rw [hu]
    exact not_bound_refresh hbelow hget _
  · exact .free (by rw [hget, if_neg hv]; exact Subst.get?_empty v)

/-- An instance always exists if the scheme quantifies over drawn variables, each only once. -/
theorem instantiate_eq {σ : Scheme} {n : Supply} (hnodup : σ.vars.Nodup)
    (hbelow : ∀ v ∈ σ.vars, v < n) :
    σ.instantiate n = (.ok (σ.ty.replace (σ.freshening n)), n + σ.vars.length) := by
  cases hvars : σ.vars with
  | nil =>
    have hty : σ.ty.replace (σ.freshening n) = σ.ty :=
      Ty.replace_eq_self fun v _ => by simp [freshening, hvars]
    rw [instantiate, isMono, hvars, hty]
    rfl
  | cons w vs =>
    obtain ⟨r, hr, hget⟩ := refresh_eq σ.vars .empty n hnodup fun v _ => Subst.get?_empty v
    have hopen := not_bound_refresh hbelow hget
    have hacyclic := acyclic_refresh hbelow hget
    have hty : r.apply σ.ty = σ.ty.replace (σ.freshening n) := by
      rw [Subst.apply_eq_replace]
      refine Ty.replace_congr fun v _ => ?_
      rw [freshening]
      split
      · rename_i hv
        rw [hacyclic.apply_of_get?_eq_some (by rw [hget, if_pos hv]),
          Subst.apply_of_get?_eq_none (hopen _)]
      · rename_i hv
        exact Subst.apply_of_get?_eq_none (by rw [hget, if_neg hv]; exact Subst.get?_empty v)
    rw [instantiate, isMono, if_neg (by simp [hvars])]
    simp only [bind, ExceptT.bind, ExceptT.mk, StateT.bind, hr, ExceptT.bindCont]
    rw [← hty, ← hvars]
    rfl

end Scheme

/-- An instance is known, and can become any instance that agrees with the assignment on the free
variables of the scheme. -/
theorem Act.meets_instantiate {T : Set TyVar} {s : Session} (hs : s.Sound T) {σ : Scheme}
    (hσ : σ.Known T s) :
    (Act.instantiate σ).Meets s
      (fun t s' => s.drawn ≤ s'.drawn ∧ s'.subst = s.subst ∧ t.Known T s' ∧ σ.Instance t ∧
        ∀ θ ρ, (∀ v ∈ σ.freeVars, ρ v = θ v) →
          ∃ θ', AgreesBelow s.drawn θ θ' ∧ t.replace θ' = σ.ty.replace ρ)
      fun _ _ => False := by
  let s' : Session := { s with drawn := s.drawn + σ.vars.length }
  have hsubst : s'.subst = s.subst := rfl
  have hrun : Act.instantiate σ s = (.ok (σ.ty.replace (σ.freshening s.drawn)), s') := by
    rw [Act.instantiate, Scheme.instantiate_eq hσ.nodup hσ.below]
    rfl
  refine .of_eq_ok hrun ⟨Nat.le_add_right _ _, rfl, fun w hw => ?_, ⟨_, ?_, rfl⟩, fun θ ρ hρ => ?_⟩
  · obtain ⟨v, hv, hw⟩ := Ty.mem_occurrences_replace.1 hw
    rw [Scheme.freshening] at hw
    split at hw
    · rename_i hvars
      rw [Ty.occurrences_var, List.mem_singleton] at hw
      subst hw
      exact hs.knows_drawn hsubst (Nat.le_add_right _ _)
        (Nat.add_lt_add_left (List.idxOf_lt_length_of_mem hvars) _)
    · rename_i hvars
      rw [Ty.occurrences_var, List.mem_singleton] at hw
      subst hw
      have hknows := hσ.free w (Scheme.mem_freeVars.2 ⟨hv, hvars⟩)
      exact ⟨Nat.lt_of_lt_of_le hknows.1 (Nat.le_add_right _ _), hknows.2⟩
  · intro v hv
    rw [Scheme.freshening, if_neg hv]
  · refine ⟨fun w => if w < s.drawn then θ w else ρ (σ.vars.getD (w - s.drawn) w),
      fun v hv => if_pos hv, ?_⟩
    rw [Ty.replace_replace]
    refine Ty.replace_congr fun v hv => ?_
    rw [Scheme.freshening]
    split
    · rename_i hvars
      simp [List.getD_eq_getElem?_getD, List.getElem?_idxOf hvars]
    · rename_i hvars
      have hfree := Scheme.mem_freeVars.2 ⟨hv, hvars⟩
      rw [Ty.replace_var, if_pos (hσ.free v hfree).1, hρ v hfree]

/-! ## Unification -/

section

variable {T : Set TyVar} {s : Session} (hs : s.Sound T) (because : Because) (span : Span) {t u : Ty}

include hs

/-- Unification of known types stays in the territory and retires nothing. -/
theorem Act.steps_unify (ht : t.Known T s) (hu : u.Known T s) :
    s.Steps T ∅ (Act.unify because span t u s).2 := by
  have h := unify_extends hs.acyclic t u
  have hmem : ∀ v ∈ (s.subst.apply t).occurrences ++ (s.subst.apply u).occurrences,
      v ∈ T ∧ v < s.drawn ∧ s.subst.get? v = none := by
    intro v hv
    rcases List.mem_append.1 hv with hv | hv
    · exact ⟨ht.mem_of_apply hv, ht.lt_of_apply hs hv, hs.acyclic.get?_of_mem_apply hv⟩
    · exact ⟨hu.mem_of_apply hv, hu.lt_of_apply hs hv, hs.acyclic.get?_of_mem_apply hv⟩
  refine ⟨Nat.le_refl _, h.le, fun v r hr hn => ?_, fun _ hv => hv.elim, ?_⟩
  · obtain ⟨hv, hw⟩ := h.added v r hr hn
    exact ⟨(hmem v hv).1, fun w hw' => ⟨(hmem w (hw w hw')).1, (hmem w (hw w hw')).2.2⟩⟩
  · rw [Set.sdiff_empty]
    refine ⟨h.acyclic, fun v r hr => ?_, hs.fresh⟩
    cases hn : s.subst.get? v with
    | some r' =>
      have := h.le v r' hn
      rw [show (LetPoly.unify t u s.subst).2.subst.get? v = some r from hr,
        Option.some.injEq] at this
      subst this
      exact hs.below v r hn
    | none =>
      obtain ⟨hv, hw⟩ := h.added v r hr hn
      exact ⟨(hmem v hv).2.1, fun w hw' => (hmem w (hw w hw')).2.1⟩

/-- Unification makes the types equal, or stops with an error of the program. -/
theorem Act.meets_unify (ht : t.Known T s) (hu : u.Known T s) :
    (Act.unify because span t u).Meets s
      (fun _ s' => s.Steps T ∅ s' ∧ s'.subst.apply t = s'.subst.apply u)
      (fun f s' => s.Steps T ∅ s' ∧ f.Ordinary) := by
  have hsteps := Act.steps_unify hs because span ht hu
  have hsound := unify_sound hs.acyclic t u
  have hdefect := unify_not_defect hs.acyclic t u
  unfold Act.Meets
  rw [Act.unify] at hsteps ⊢
  generalize LetPoly.unify t u s.subst = r at hsteps hsound hdefect ⊢
  obtain ⟨r, x⟩ := r
  cases r with
  | ok _ => exact ⟨hsteps, hsound rfl⟩
  | error f =>
    refine ⟨hsteps, ?_⟩
    cases f with
    | defect d => exact absurd rfl (hdefect d)
    | error e =>
      refine ⟨_, rfl, ?_⟩
      rintro ⟨sp, r, he⟩
      cases e <;> cases because <;> cases he

/-- If an assignment makes the types equal, unification succeeds and keeps it a solution. -/
theorem Act.meets_unify_of_solves {θ : TyVar → Ty} (hθ : s.subst.Solves θ)
    (heq : t.replace θ = u.replace θ) :
    (Act.unify because span t u).Meets s (fun _ s' => s'.subst.Solves θ) fun _ _ => False := by
  obtain ⟨hok, hsolves⟩ := unify_complete hs.acyclic t u hθ heq
  unfold Act.Meets
  rw [Act.unify]
  generalize LetPoly.unify t u s.subst = r at hok hsolves ⊢
  obtain ⟨r, x⟩ := r
  subst hok
  exact hsolves

end

end LetPoly
