import LetPoly.Proofs.Types
import LetPoly.Ty.Subst
import Mathlib.Data.Finset.Card
import Mathlib.Logic.Relation

/-!
# Acyclic substitutions

A substitution is *acyclic* if no variable is reachable from itself through bindings.
Then a chain of bindings passes each bound variable at most once, so its length is
bounded by the number of bindings (`Subst.Acyclic.ends`).  That number is what
`Subst.apply` counts down from, so applying an acyclic substitution resolves every
variable (`Subst.Acyclic.apply_of_get?_eq_some`) and leaves none that is bound
(`Subst.Acyclic.get?_of_mem_apply`).

A *solution* of a substitution is an assignment of types to all variables that agrees
with every binding.  An acyclic substitution is a solution of itself, and each solution
factors through it (`Subst.Solves.replace_apply`).  Most facts on how substitutions act
one after the other are instances of this one.

Substitutions are ordered by their bindings: `s ≤ r` says that `r` has every binding of `s`.
-/

namespace LetPoly

namespace Subst

/-! ## Chains of bindings -/

/-- The first variable is bound to a type in which the second stands. -/
def Binds (s : Subst) (v w : TyVar) : Prop := ∃ t, s.get? v = some t ∧ w ∈ t.occurrences

/-- No variable is reachable from itself through bindings. -/
def Acyclic (s : Subst) : Prop := ∀ v, ¬ Relation.TransGen s.Binds v v

/-- Following bindings from a variable ends after at most `n` of them. -/
inductive Ends (s : Subst) : Nat → TyVar → Prop where
  | free {n : Nat} {v : TyVar} (h : s.get? v = none) : Ends s n v
  | bound {n : Nat} {v : TyVar} {t : Ty} (h : s.get? v = some t)
      (ht : ∀ w ∈ t.occurrences, Ends s n w) : Ends s (n + 1) v

/-- A chain that ends does not come back to where it began. -/
theorem Ends.not_cycle {s : Subst} {n : Nat} {v : TyVar} (h : s.Ends n v) :
    ¬ Relation.TransGen s.Binds v v := by
  induction h with
  | free h =>
    intro hc
    obtain ⟨w, ⟨t, ht, -⟩, -⟩ := Relation.TransGen.head'_iff.1 hc
    rw [h] at ht
    cases ht
  | bound h _ ih =>
    intro hc
    obtain ⟨w, ⟨t, ht, hw⟩, hrest⟩ := Relation.TransGen.head'_iff.1 hc
    rw [h, Option.some.injEq] at ht
    subst ht
    exact ih w hw (Relation.TransGen.tail' hrest ⟨_, h, hw⟩)

/-- If all chains end then there is no cycle. -/
theorem acyclic_of_ends {s : Subst} (h : ∀ v, ∃ n, s.Ends n v) : s.Acyclic := by
  intro v
  obtain ⟨n, hn⟩ := h v
  exact hn.not_cycle

/-- The variables a substitution binds. -/
def domain (s : Subst) : Finset TyVar := s.bindings.keys.toFinset

theorem mem_domain {s : Subst} {v : TyVar} {t : Ty} (h : s.get? v = some t) : v ∈ s.domain := by
  rw [domain, List.mem_toFinset, Std.ExtTreeMap.mem_keys]
  exact Std.ExtTreeMap.mem_iff_isSome_getElem?.2 (by rw [← get?, h]; rfl)

/-- There are at most as many solved variables as bindings. -/
theorem card_domain_le (s : Subst) : s.domain.card ≤ s.size := by
  rw [size, ← Std.ExtTreeMap.length_keys]
  exact List.toFinset_card_le _

/-- If a set has all bound variables that are reachable from a variable, its size bounds the chains
from there: the variable itself cannot come up again, so it can be taken out of the set. -/
theorem Acyclic.ends_of_card_le {s : Subst} (hs : s.Acyclic) :
    ∀ (n : Nat) (v : TyVar) (reach : Finset TyVar), reach.card ≤ n →
      (∀ w t, Relation.ReflTransGen s.Binds v w → s.get? w = some t → w ∈ reach) → s.Ends n v
  | n, v, reach, hn, hreach => by
    cases hv : s.get? v with
    | none => exact .free hv
    | some t =>
      have hmem : v ∈ reach := hreach v t .refl hv
      have hcard : (reach.erase v).card + 1 = reach.card := Finset.card_erase_add_one hmem
      cases n with
      | zero => omega
      | succ n =>
        refine .bound hv fun w hw => ?_
        have hvw : s.Binds v w := ⟨t, hv, hw⟩
        refine hs.ends_of_card_le n w (reach.erase v) (by omega) fun x u hx hu => ?_
        refine Finset.mem_erase.2 ⟨?_, hreach x u (.head hvw hx) hu⟩
        rintro rfl
        exact hs x (.head' hvw hx)

/-- The number of bindings bounds the length of every chain. -/
theorem Acyclic.ends {s : Subst} (hs : s.Acyclic) (v : TyVar) : s.Ends s.size v :=
  hs.ends_of_card_le s.size v s.domain s.card_domain_le fun _ _ _ h => mem_domain h

theorem acyclic_empty : empty.Acyclic :=
  acyclic_of_ends fun v => ⟨0, .free (get?_empty v)⟩

/-! ## Applying an acyclic substitution -/

theorem apply_eq_replace (s : Subst) (t : Ty) : s.apply t = t.replace fun v => s.apply (.var v) :=
  rfl

@[simp] theorem apply_fn (s : Subst) (t u : Ty) : s.apply (.fn t u) = .fn (s.apply t) (s.apply u) :=
  Ty.replace_fn _ t u

@[simp] theorem apply_tuple (s : Subst) (ts : List Ty) :
    s.apply (.tuple ts) = .tuple (ts.map s.apply) :=
  Ty.replace_tuple _ ts

theorem mem_apply {s : Subst} {t : Ty} {v : TyVar} :
    v ∈ (s.apply t).occurrences ↔ ∃ u ∈ t.occurrences, v ∈ (s.apply (.var u)).occurrences :=
  Ty.mem_occurrences_replace

/-- A variable that is not solved stands for itself. -/
theorem apply_of_get?_eq_none {s : Subst} {v : TyVar} (h : s.get? v = none) :
    s.apply (.var v) = .var v :=
  solution_of_get?_eq_none h s.size

/-- A type without bound variables stays what it is. -/
theorem apply_eq_self {s : Subst} {t : Ty} (h : ∀ v ∈ t.occurrences, s.get? v = none) :
    s.apply t = t :=
  Ty.replace_eq_self fun v hv => apply_of_get?_eq_none (h v hv)

/-- Where a chain has ended, following it further makes no difference. -/
theorem Ends.solution_succ_eq {s : Subst} {n : Nat} {v : TyVar} (h : s.Ends n v) :
    s.solution (n + 1) v = s.solution n v := by
  induction h with
  | free h => rw [solution_of_get?_eq_none h, solution_of_get?_eq_none h]
  | bound h _ ih =>
    rw [solution_succ, solution_succ, h]
    exact Ty.replace_congr ih

/-- A bound variable stands for what its type stands for. -/
theorem Acyclic.apply_of_get?_eq_some {s : Subst} (hs : s.Acyclic) {v : TyVar} {t : Ty}
    (h : s.get? v = some t) : s.apply (.var v) = s.apply t := by
  calc s.solution s.size v = s.solution (s.size + 1) v := (hs.ends v).solution_succ_eq.symm
    _ = s.apply t := by rw [solution_succ, h]; rfl

/-- Induction along bindings, from the types of variables to the variables. -/
theorem Acyclic.induction {s : Subst} (hs : s.Acyclic) {P : TyVar → Prop}
    (step : ∀ v, (∀ t, s.get? v = some t → ∀ w ∈ t.occurrences, P w) → P v) (v : TyVar) : P v := by
  have hends := hs.ends v
  generalize s.size = n at hends
  induction hends with
  | free h =>
    refine step _ fun t ht => ?_
    rw [h] at ht
    cases ht
  | bound h _ ih =>
    refine step _ fun t ht => ?_
    rw [h, Option.some.injEq] at ht
    subst ht
    exact ih

/-- No bound variable is left. -/
theorem Acyclic.get?_of_mem_apply {s : Subst} (hs : s.Acyclic) {t : Ty} {v : TyVar}
    (h : v ∈ (s.apply t).occurrences) : s.get? v = none := by
  obtain ⟨u, -, hv⟩ := mem_apply.1 h
  induction u using hs.induction with
  | step u ih =>
    cases hu : s.get? u with
    | none =>
      rw [apply_of_get?_eq_none hu, Ty.occurrences_var, List.mem_singleton] at hv
      rw [hv, hu]
    | some r =>
      rw [hs.apply_of_get?_eq_some hu] at hv
      obtain ⟨w, hw, hv⟩ := mem_apply.1 hv
      exact ih r hu w hw hv

/-! ## Heads -/

/-- Resolving the head of a type does not change what it stands for. -/
theorem Acyclic.apply_headWithin {s : Subst} (hs : s.Acyclic) (n : Nat) (t : Ty) :
    s.apply (s.headWithin n t) = s.apply t := by
  fun_induction headWithin s n t with
  | case1 t => rfl
  | case2 n c args => rfl
  | case3 n v t hv ih => rw [ih, hs.apply_of_get?_eq_some hv]
  | case4 n v hv => rfl

/-- The head of a type stands for the same as the type. -/
theorem Acyclic.apply_head {s : Subst} (hs : s.Acyclic) (t : Ty) :
    s.apply (s.head t) = s.apply t :=
  hs.apply_headWithin s.size t

/-- A variable at the head of a type is not solved. -/
theorem get?_of_headWithin {s : Subst} {n : Nat} {t : Ty} {w : TyVar}
    (hends : ∀ v ∈ t.occurrences, s.Ends n v) (h : s.headWithin n t = .var w) :
    s.get? w = none := by
  fun_induction headWithin s n t with
  | case1 t =>
    subst h
    cases hends w (List.mem_singleton.2 rfl) with
    | free hw => exact hw
  | case2 n c args => cases h
  | case3 n v t hv ih =>
    cases hends v (List.mem_singleton.2 rfl) with
    | free hfree => cases hv.symm.trans hfree
    | bound hbound ht =>
      cases hv.symm.trans hbound
      exact ih ht h
  | case4 n v hv =>
    cases h
    exact hv

/-- A head that is a variable is not bound. -/
theorem Acyclic.get?_of_head {s : Subst} (hs : s.Acyclic) {t : Ty} {w : TyVar}
    (h : s.head t = .var w) : s.get? w = none :=
  get?_of_headWithin (fun v _ => hs.ends v) h

/-! ## Solutions -/

/-- An assignment of types to variables agrees with every binding. -/
def Solves (θ : TyVar → Ty) (s : Subst) : Prop := ∀ v t, s.get? v = some t → θ v = t.replace θ

/-- A solution gives the same to a variable and to what it stands for. -/
theorem Solves.replace_solution {θ : TyVar → Ty} {s : Subst} (h : Solves θ s) (n : Nat)
    (v : TyVar) : (s.solution n v).replace θ = θ v := by
  induction n generalizing v with
  | zero => rfl
  | succ n ih =>
    rw [solution_succ]
    cases hv : s.get? v with
    | none => rfl
    | some t =>
      rw [h v t hv]
      change (t.replace (s.solution n)).replace θ = t.replace θ
      rw [Ty.replace_replace]
      exact Ty.replace_congr fun w _ => ih w

/-- A solution does not see whether the substitution was applied before. -/
theorem Solves.replace_apply {θ : TyVar → Ty} {s : Subst} (h : Solves θ s) (t : Ty) :
    (s.apply t).replace θ = t.replace θ := by
  rw [apply, Ty.replace_replace]
  exact Ty.replace_congr fun v _ => h.replace_solution s.size v

theorem Acyclic.solves {s : Subst} (hs : s.Acyclic) : Solves (fun v => s.apply (.var v)) s :=
  fun _ _ h => hs.apply_of_get?_eq_some h

/-! ## The order of substitutions -/

instance : LE Subst := ⟨fun s r => ∀ v t, s.get? v = some t → r.get? v = some t⟩

theorem le_refl (s : Subst) : s ≤ s := fun _ _ h => h

theorem le_trans {s r q : Subst} (h : s ≤ r) (h' : r ≤ q) : s ≤ q :=
  fun v t hv => h' v t (h v t hv)

theorem get?_eq_none_of_le {s r : Subst} (h : s ≤ r) {v : TyVar} (hv : r.get? v = none) :
    s.get? v = none := by
  cases hs : s.get? v with
  | none => rfl
  | some t => rw [h v t hs] at hv; cases hv

/-- With fewer bindings there are no new cycles. -/
theorem Acyclic.of_le {s r : Subst} (hr : r.Acyclic) (h : s ≤ r) : s.Acyclic := by
  intro v hcycle
  have hle : s.Binds ≤ r.Binds := fun w u ⟨t, ht, hu⟩ => ⟨t, h w t ht, hu⟩
  exact hr v (Relation.TransGen.mono hle v v hcycle)

theorem Solves.of_le {θ : TyVar → Ty} {s r : Subst} (h : s ≤ r) (hθ : Solves θ r) : Solves θ s :=
  fun v t hv => hθ v t (h v t hv)

/-- Applying a substitution after a part of it is applying it. -/
theorem Acyclic.apply_apply_of_le {s r : Subst} (hr : r.Acyclic) (h : s ≤ r) (t : Ty) :
    r.apply (s.apply t) = r.apply t :=
  (hr.solves.of_le h).replace_apply t

/-- Applying an acyclic substitution twice is applying it once. -/
theorem Acyclic.apply_apply {s : Subst} (hs : s.Acyclic) (t : Ty) :
    s.apply (s.apply t) = s.apply t :=
  hs.apply_apply_of_le (le_refl s) t

/-- What occurs after more was solved occurs through a variable that occurred before. -/
theorem Acyclic.mem_apply_of_le {s r : Subst} (hr : r.Acyclic) (h : s ≤ r) {t : Ty} {v : TyVar} :
    v ∈ (r.apply t).occurrences ↔
      ∃ u ∈ (s.apply t).occurrences, v ∈ (r.apply (.var u)).occurrences := by
  rw [← hr.apply_apply_of_le h t]
  exact mem_apply

/-- A variable that is not solved stays where it occurs. -/
theorem Acyclic.mem_apply_of_get?_eq_none {s r : Subst} (hr : r.Acyclic) (h : s ≤ r) {t : Ty}
    {v : TyVar} (hv : r.get? v = none) (hmem : v ∈ (s.apply t).occurrences) :
    v ∈ (r.apply t).occurrences := by
  refine (hr.mem_apply_of_le h).2 ⟨v, hmem, ?_⟩
  rw [apply_of_get?_eq_none hv]
  exact List.mem_singleton.2 rfl

/-! ## Binding a variable -/

/-- A binding is added to those there are. -/
theorem le_of_bind {s r : Subst} {v : TyVar} {t : Ty} (h : s.bind v t = .ok r) : s ≤ r := by
  intro w u hw
  rw [get?_of_bind_eq_ok h]
  split
  · rename_i hvw
    subst hvw
    unfold bind at h
    rw [hw] at h
    cases h
  · exact hw

/-- Binding an unsolved variable to a resolved type in which it does not occur keeps a substitution
acyclic, since every chain gets at most one binding longer. -/
theorem Acyclic.bind {s r : Subst} (hs : s.Acyclic) {v : TyVar} {t : Ty} (h : s.bind v t = .ok r)
    (hv : v ∉ t.occurrences) (ht : ∀ w ∈ t.occurrences, s.get? w = none) : r.Acyclic := by
  have hget := get?_of_bind_eq_ok h
  have hfree : ∀ n w, w ∈ t.occurrences → r.Ends n w := by
    intro n w hw
    refine .free ?_
    rw [hget, if_neg (fun e : v = w => hv (e ▸ hw))]
    exact ht w hw
  have hlong : ∀ n w, s.Ends n w → r.Ends (n + 1) w := by
    intro n w hw
    induction hw with
    | @free n w hw =>
      by_cases e : v = w
      · exact .bound (by rw [hget, if_pos e]) (hfree n)
      · exact .free (by rw [hget, if_neg e]; exact hw)
    | @bound n w u hw _ ih =>
      exact .bound (le_of_bind h w u hw) ih
  exact acyclic_of_ends fun w => ⟨_, hlong _ w (hs.ends w)⟩

/-! ## Leaving variables out -/

theorem without_le (s : Subst) (vs : List TyVar) : s.without vs ≤ s := by
  intro v t h
  rw [get?_without] at h
  split at h
  · cases h
  · exact h

/-- To leave out variables that are not solved changes nothing. -/
theorem without_eq_self {s : Subst} {vs : List TyVar} (h : ∀ v ∈ vs, s.get? v = none) :
    s.without vs = s := by
  refine ext fun v => ?_
  rw [get?_without]
  split
  · rename_i hv
    exact (h v hv).symm
  · rfl

theorem Acyclic.applyScheme_applyScheme {r : Subst} (hr : r.Acyclic) (σ : Scheme) :
    r.applyScheme (r.applyScheme σ) = r.applyScheme σ :=
  congrArg (Scheme.mk σ.vars) ((hr.of_le (without_le r σ.vars)).apply_apply σ.ty)

end Subst

end LetPoly
