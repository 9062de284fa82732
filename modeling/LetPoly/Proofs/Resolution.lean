import LetPoly.Proofs.Substitution

/-!
# Applying a substitution resolves a type

Applying a substitution is described here as it would be without a bound on the number of bindings
to follow.  A bound variable is resolved as the type it is bound to, which is no part of it, so the
recursion need not end.  `Subst.Calls` are its calls and `Subst.Resolves` are its results.  If the
substitution is acyclic then every row of calls ends, and the result is the one that `Subst.apply`
counts down to.

The result can also be described without any order of evaluation.  A type is *rewritten* by putting
what a bound variable is bound to in the place of one of its occurrences.  Rewriting does not change
what a type stands for, so there is one type at most that it ends in.
-/

namespace LetPoly

namespace Subst

/-! ## Following bindings -/

/-- What has to be resolved for a type to be resolved. -/
inductive Calls (s : Subst) : Ty → Ty → Prop where
  | bound {v : TyVar} {t : Ty} (h : s.get? v = some t) : Calls s t (.var v)
  | argument {c : Con} {args : List Ty} {a : Ty} (h : a ∈ args) : Calls s a (.con c args)

/-- Resolving the first type ends with the second. -/
inductive Resolves (s : Subst) : Ty → Ty → Prop where
  | free {v : TyVar} (h : s.get? v = none) : Resolves s (.var v) (.var v)
  | bound {v : TyVar} {t u : Ty} (h : s.get? v = some t) (ht : Resolves s t u) :
      Resolves s (.var v) u
  | con {c : Con} {args : List (Ty × Ty)} (h : ∀ a ∈ args, Resolves s a.1 a.2) :
      Resolves s (.con c (args.map (·.1))) (.con c (args.map (·.2)))

/-- The first type is a bound variable, and the second is what it is bound to. -/
def Follows (s : Subst) (t u : Ty) : Prop := ∃ v, t = .var v ∧ s.get? v = some u

/-- What a bound variable is bound to is put in the place of one of its occurrences. -/
inductive Rewrites (s : Subst) : Ty → Ty → Prop where
  | bound {v : TyVar} {t : Ty} (h : s.get? v = some t) : Rewrites s (.var v) t
  | argument {c : Con} {before behind : List Ty} {a b : Ty} (h : Rewrites s a b) :
      Rewrites s (.con c (before ++ a :: behind)) (.con c (before ++ b :: behind))

variable {s : Subst} {t u : Ty}

@[simp] theorem apply_con (s : Subst) (c : Con) (args : List Ty) :
    s.apply (.con c args) = .con c (args.map s.apply) :=
  Ty.replace_con _ c args

/-! ## Calls end -/

theorem Follows.calls (h : s.Follows t u) : s.Calls u t := by
  obtain ⟨v, rfl, hv⟩ := h
  exact .bound hv

/-- Calls end if they do for the variables of the type. -/
theorem acc_calls_of_vars (h : ∀ v ∈ t.occurrences, Acc s.Calls (.var v)) : Acc s.Calls t := by
  induction t using Ty.inductionOn with
  | var v => exact h v (by simp)
  | con c args ih =>
    simp only [Ty.occurrences_con, List.mem_flatMap] at h
    refine .intro _ fun a ha => ?_
    cases ha with
    | argument ha => exact ih a ha fun v hv => h v ⟨a, ha, hv⟩

theorem Acyclic.acc_calls (hs : s.Acyclic) (t : Ty) : Acc s.Calls t := by
  suffices hvars : ∀ v, Acc s.Calls (.var v) from acc_calls_of_vars fun v _ => hvars v
  intro v
  induction v using hs.induction with
  | step v ih =>
    refine .intro _ fun t ht => ?_
    cases ht with
    | bound hv => exact acc_calls_of_vars (ih t hv)

/-- Following bindings at the head of a type ends as well. -/
theorem Acyclic.acc_follows (hs : s.Acyclic) (t : Ty) : Acc (flip s.Follows) t :=
  Subrelation.accessible (fun h => h.calls) (hs.acc_calls t)

/-! ## Results -/

/-- A type is resolved if its variables are. -/
theorem resolves_of_vars (h : ∀ v ∈ t.occurrences, s.Resolves (.var v) (s.apply (.var v))) :
    s.Resolves t (s.apply t) := by
  induction t using Ty.inductionOn with
  | var v => exact h v (by simp)
  | con c args ih =>
    simp only [Ty.occurrences_con, List.mem_flatMap] at h
    have hargs : ∀ a ∈ args.map fun a => (a, s.apply a), s.Resolves a.1 a.2 := by
      intro a ha
      obtain ⟨b, hb, rfl⟩ := List.mem_map.1 ha
      exact ih b hb fun v hv => h v ⟨b, hb, hv⟩
    have hcon := Resolves.con (c := c) hargs
    simpa [Function.comp_def] using hcon

theorem Acyclic.resolves_apply (hs : s.Acyclic) (t : Ty) : s.Resolves t (s.apply t) := by
  suffices hvars : ∀ v, s.Resolves (.var v) (s.apply (.var v)) from
    resolves_of_vars fun v _ => hvars v
  intro v
  induction v using hs.induction with
  | step v ih =>
    cases hv : s.get? v with
    | none =>
      rw [apply_of_get?_eq_none hv]
      exact .free hv
    | some t =>
      rw [hs.apply_of_get?_eq_some hv]
      exact .bound hv (resolves_of_vars (ih t hv))

theorem Resolves.eq_apply (hs : s.Acyclic) (h : s.Resolves t u) : u = s.apply t := by
  induction h with
  | free hv => exact (apply_of_get?_eq_none hv).symm
  | bound hv _ ih => rw [ih, hs.apply_of_get?_eq_some hv]
  | con _ ih =>
    rw [apply_con, List.map_map]
    exact congrArg _ (List.map_congr_left ih)

/-! ## Rewriting -/

/-- Rewriting does not change what a type stands for. -/
theorem Rewrites.apply_eq (hs : s.Acyclic) (h : s.Rewrites t u) : s.apply t = s.apply u := by
  induction h with
  | bound hv => exact hs.apply_of_get?_eq_some hv
  | argument _ ih => simp only [apply_con, List.map_append, List.map_cons, ih]

theorem apply_eq_of_rewrites (hs : s.Acyclic) (h : Relation.ReflTransGen s.Rewrites t u) :
    s.apply t = s.apply u := by
  induction h with
  | refl => rfl
  | tail _ hstep ih => exact ih.trans (hstep.apply_eq hs)

/-- The arguments of a constructor are rewritten one after the other. -/
theorem rewrites_arguments {c : Con} {args : List (Ty × Ty)}
    (h : ∀ a ∈ args, Relation.ReflTransGen s.Rewrites a.1 a.2) (before : List Ty) :
    Relation.ReflTransGen s.Rewrites (.con c (before ++ args.map (·.1)))
      (.con c (before ++ args.map (·.2))) := by
  induction args generalizing before with
  | nil => exact .refl
  | cons a args ih =>
    obtain ⟨ha, hargs⟩ := List.forall_mem_cons.1 h
    have hfirst : Relation.ReflTransGen s.Rewrites (.con c (before ++ a.1 :: args.map (·.1)))
        (.con c (before ++ a.2 :: args.map (·.1))) :=
      ha.lift (fun t => Ty.con c (before ++ t :: args.map (·.1))) fun _ _ => .argument
    have hrest := ih hargs (before ++ [a.2])
    simp only [List.append_assoc, List.singleton_append] at hrest
    exact hfirst.trans hrest

theorem Resolves.rewrites (h : s.Resolves t u) : Relation.ReflTransGen s.Rewrites t u := by
  induction h with
  | free => exact .refl
  | bound hv _ ih => exact .head (.bound hv) ih
  | con _ ih => exact rewrites_arguments ih []

/-- Rewriting a type ends in what it stands for, and in nothing else. -/
theorem Acyclic.rewrites_iff (hs : s.Acyclic) :
    Relation.ReflTransGen s.Rewrites t u ∧ (∀ v ∈ u.occurrences, s.get? v = none) ↔
      u = s.apply t := by
  constructor
  · rintro ⟨hrewrites, hfree⟩
    rw [apply_eq_of_rewrites hs hrewrites, apply_eq_self hfree]
  · rintro rfl
    exact ⟨(hs.resolves_apply t).rewrites, fun v => hs.get?_of_mem_apply⟩

/-! ## Heads -/

theorem follows_headWithin (s : Subst) (n : Nat) (t : Ty) :
    Relation.ReflTransGen s.Follows t (s.headWithin n t) := by
  fun_induction headWithin s n t with
  | case1 t => exact .refl
  | case2 n c args => exact .refl
  | case3 n v t hv ih => exact .head ⟨v, rfl, hv⟩ ih
  | case4 n v hv => exact .refl

/-- A head is a constructor or an unbound variable. -/
theorem Acyclic.head_cases (hs : s.Acyclic) (t : Ty) :
    (∃ c args, s.head t = .con c args) ∨ ∃ v, s.head t = .var v ∧ s.get? v = none := by
  cases hhead : s.head t with
  | con c args => exact .inl ⟨c, args, rfl⟩
  | var v => exact .inr ⟨v, rfl, hs.get?_of_head hhead⟩

/-- No binding can be followed from a head. -/
theorem Acyclic.not_follows_head (hs : s.Acyclic) : ¬ s.Follows (s.head t) u := by
  rintro ⟨v, hhead, hv⟩
  cases hv.symm.trans (hs.get?_of_head hhead)

end Subst

/-- Applying an acyclic substitution resolves a type completely.  No row of calls goes on for
ever, and the recursion has one result, which is what is computed.  It has no bound variable, so it
is left as it is by applying the substitution again, and it is the only type without bound variables
that the type can be rewritten to.  Following bindings at the head ends too, with a constructor or
an unbound variable, and does not change what the type stands for. -/
theorem acyclic_apply_resolves {s : Subst} (hs : s.Acyclic) (t : Ty) :
    (Acc s.Calls t ∧ ∀ u, s.Resolves t u ↔ u = s.apply t) ∧
    (∀ v ∈ (s.apply t).occurrences, s.get? v = none) ∧
    s.apply (s.apply t) = s.apply t ∧
    (∀ u, Relation.ReflTransGen s.Rewrites t u ∧ (∀ v ∈ u.occurrences, s.get? v = none) ↔
      u = s.apply t) ∧
    (Acc (flip s.Follows) t ∧ Relation.ReflTransGen s.Follows t (s.head t) ∧
      ∀ u, ¬ s.Follows (s.head t) u) ∧
    s.apply (s.head t) = s.apply t ∧
    ((∃ c args, s.head t = .con c args) ∨ ∃ v, s.head t = .var v ∧ s.get? v = none) := by
  have hresolves (u : Ty) : s.Resolves t u ↔ u = s.apply t := by
    constructor
    · exact fun h => h.eq_apply hs
    · rintro rfl
      exact hs.resolves_apply t
  have hfollows : Relation.ReflTransGen s.Follows t (s.head t) := s.follows_headWithin s.size t
  exact ⟨⟨hs.acc_calls t, hresolves⟩, fun v => hs.get?_of_mem_apply, hs.apply_apply t,
    fun _ => hs.rewrites_iff, ⟨hs.acc_follows t, hfollows, fun _ => hs.not_follows_head⟩,
    hs.apply_head t, hs.head_cases t⟩

/-- A variable that stands for another one, which stands for a pair, of which one half is known. -/
def Subst.chainSample : Subst :=
  ⟨(((∅ : Std.ExtTreeMap TyVar Ty).insert 0 (.var 1)).insert 1 (.tuple [.var 2, .var 3])).insert 2
    .int⟩

theorem Subst.acyclic_chainSample : chainSample.Acyclic := by
  have hfirst : Acyclic ⟨(∅ : Std.ExtTreeMap TyVar Ty).insert 0 (.var 1)⟩ :=
    acyclic_empty.bind (v := 0) (t := .var 1) (by decide) (by decide) (by simp)
  have hsecond : Acyclic
      ⟨((∅ : Std.ExtTreeMap TyVar Ty).insert 0 (.var 1)).insert 1 (.tuple [.var 2, .var 3])⟩ :=
    hfirst.bind (v := 1) (t := .tuple [.var 2, .var 3]) (by decide) (by decide) (by decide)
  exact hsecond.bind (v := 2) (t := .int) (by decide) (by decide) (by decide)

theorem acyclic_apply_resolves_chain :
    Subst.chainSample.Acyclic ∧
      Subst.chainSample.head (.var 0) = .tuple [.var 2, .var 3] ∧
      Subst.chainSample.Resolves (.var 0) (.tuple [.int, .var 3]) ∧
      Relation.ReflTransGen Subst.chainSample.Rewrites (.var 0) (.tuple [.int, .var 3]) := by
  have happly : .tuple [.int, .var 3] = Subst.chainSample.apply (.var 0) := by decide
  obtain ⟨⟨-, hresolves⟩, -, -, hrewrites, -⟩ :=
    acyclic_apply_resolves Subst.acyclic_chainSample (.var 0)
  exact ⟨Subst.acyclic_chainSample, by decide, (hresolves _).2 happly, ((hrewrites _).2 happly).1⟩

end LetPoly
