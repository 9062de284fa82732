import LetPoly.Proofs.Resolution

/-!
# Composing substitutions

`Subst.compose` applies the second substitution to the types that the first binds, once, and merges
the bindings.  Chains of the first are left as they are and are followed later, through the merged
bindings.  So it is not clear from the definition that composing is applying one after the other,
nor that following bindings still ends.

Both hold if the second substitution says nothing about what the first binds (`Subst.Precedes`).
Then a chain through the merged bindings has two stretches: first it follows bindings of the first
substitution, and once it has left them it stays with the second.  That bounds its length.  What the
two give in turn agrees with every merged binding, so it is what the merged bindings give.
-/

namespace LetPoly

namespace Subst

variable {s r : Subst} {n : Nat} {v w : TyVar} {t : Ty}

/-- No variable that the first substitution binds is bound by the second, or stands in a type that
the second binds. -/
structure Precedes (s r : Subst) : Prop where
  /-- The second substitution does not bind the variable. -/
  unbound : ∀ v t, s.get? v = some t → r.get? v = none
  /-- The variable does not stand in a type of the second substitution. -/
  absent : ∀ v t, s.get? v = some t → ∀ w u, r.get? w = some u → v ∉ u.occurrences

/-- A variable that the later substitution solves is not solved by the earlier one. -/
theorem Precedes.get?_eq_none (h : s.Precedes r) (hv : r.get? v = some t) : s.get? v = none := by
  cases hs : s.get? v with
  | none => rfl
  | some u => cases (h.unbound v u hs).symm.trans hv

theorem Precedes.get?_of_mem (h : s.Precedes r) (hv : r.get? v = some t) (hw : w ∈ t.occurrences) :
    s.get? w = none := by
  cases hs : s.get? w with
  | none => rfl
  | some u => exact absurd hw (h.absent w u hs v t hv)

/-! ## Chains -/

theorem Ends.mono {m : Nat} (h : s.Ends n v) (hle : n ≤ m) : s.Ends m v := by
  induction h generalizing m with
  | free hv => exact .free hv
  | bound hv _ ih =>
    obtain ⟨k, rfl⟩ := Nat.exists_eq_add_of_le' hle
    exact .bound hv fun w hw => ih w hw (Nat.le_add_left _ k)

/-- What a variable stands for is made of the variable itself and of the types that are bound. -/
theorem Acyclic.mem_apply_var (hr : r.Acyclic) (hw : w ∈ (r.apply (.var v)).occurrences) :
    w = v ∨ ∃ u t, r.get? u = some t ∧ w ∈ t.occurrences := by
  induction v using hr.induction with
  | step v ih =>
    cases hv : r.get? v with
    | none =>
      rw [apply_of_get?_eq_none hv, Ty.occurrences_var, List.mem_singleton] at hw
      exact .inl hw
    | some t =>
      rw [hr.apply_of_get?_eq_some hv] at hw
      obtain ⟨u, hu, hw⟩ := mem_apply.1 hw
      rcases ih t hv u hu hw with rfl | hbound
      · exact .inr ⟨v, t, hv, hu⟩
      · exact .inr hbound

/-- A chain that has left the first substitution follows the second. -/
theorem Precedes.ends_second (h : s.Precedes r) (hends : r.Ends n v) (hv : s.get? v = none) :
    (s.compose r).Ends n v := by
  induction hends with
  | free hfree => exact .free (by rw [get?_compose, hfree, hv]; rfl)
  | @bound n v t hbound _ ih =>
    have hget : (s.compose r).get? v = some t := by rw [get?_compose, hbound]; rfl
    exact .bound hget fun w hw => ih w hw (h.get?_of_mem hbound hw)

/-- A chain follows the first substitution, and then the second. -/
theorem Precedes.ends_compose (h : s.Precedes r) (hr : r.Acyclic) (hends : s.Ends n v) :
    (s.compose r).Ends (n + r.size) v := by
  induction hends with
  | @free n v hfree =>
    exact h.ends_second ((hr.ends v).mono (Nat.le_add_left _ n)) hfree
  | @bound n v t hbound _ ih =>
    have hget : (s.compose r).get? v = some (r.apply t) := by
      rw [get?_compose, h.unbound v t hbound, hbound]
      rfl
    rw [Nat.add_right_comm]
    refine .bound hget fun w hw => ?_
    obtain ⟨u, hu, hw⟩ := mem_apply.1 hw
    -- A variable that the second substitution has brought in is not bound by either.
    rcases hr.mem_apply_var hw with rfl | ⟨x, q, hx, hq⟩
    · exact ih w hu
    · refine .free ?_
      rw [get?_compose, hr.get?_of_mem_apply hw, h.get?_of_mem hx hq]
      rfl

/-- The composition of acyclic substitutions, of which one precedes the other, is acyclic. -/
theorem Acyclic.compose (hs : s.Acyclic) (hr : r.Acyclic) (h : s.Precedes r) :
    (s.compose r).Acyclic :=
  acyclic_of_ends fun v => ⟨_, h.ends_compose hr (hs.ends v)⟩

/-! ## What the two substitutions give in turn -/

/-- What a variable stands for under the first substitution and then the second. -/
def inTurn (s r : Subst) (v : TyVar) : Ty := r.apply (s.apply (.var v))

/-- To replace by both in turn is to apply one after the other. -/
theorem replace_inTurn (s r : Subst) (t : Ty) : t.replace (s.inTurn r) = r.apply (s.apply t) := by
  rw [apply_eq_replace s t, apply_eq_replace r, Ty.replace_replace]
  rfl

/-- Where the first substitution binds nothing, the second decides. -/
theorem replace_inTurn_of_get?_eq_none (h : ∀ w ∈ t.occurrences, s.get? w = none) :
    t.replace (s.inTurn r) = r.apply t := by
  rw [replace_inTurn, apply_eq_self h]

theorem Precedes.solves_second (h : s.Precedes r) (hr : r.Acyclic) : Solves (s.inTurn r) r := by
  intro v t hv
  calc s.inTurn r v = r.apply (.var v) := by
        rw [inTurn, apply_of_get?_eq_none (h.get?_eq_none hv)]
    _ = r.apply t := hr.apply_of_get?_eq_some hv
    _ = t.replace (s.inTurn r) :=
        (replace_inTurn_of_get?_eq_none fun w hw => h.get?_of_mem hv hw).symm

/-- What both give in turn solves their composition. -/
theorem Precedes.solves_compose (h : s.Precedes r) (hs : s.Acyclic) (hr : r.Acyclic) :
    Solves (s.inTurn r) (s.compose r) := by
  have hsecond := h.solves_second hr
  intro v t hv
  rw [get?_compose] at hv
  cases hrv : r.get? v with
  | some u =>
    rw [hrv, Option.some_or, Option.some.injEq] at hv
    subst hv
    exact hsecond v u hrv
  | none =>
    rw [hrv, Option.none_or, Option.map_eq_some_iff] at hv
    obtain ⟨u, hsv, rfl⟩ := hv
    calc s.inTurn r v = r.apply (s.apply u) := by rw [inTurn, hs.apply_of_get?_eq_some hsv]
      _ = u.replace (s.inTurn r) := (replace_inTurn s r u).symm
      _ = (r.apply u).replace (s.inTurn r) := (hsecond.replace_apply u).symm

/-- A variable that the composition does not solve is left alone by both. -/
theorem inTurn_of_get?_compose (hv : (s.compose r).get? v = none) : s.inTurn r v = .var v := by
  rw [get?_compose, Option.or_eq_none_iff, Option.map_eq_none_iff] at hv
  rw [inTurn, apply_of_get?_eq_none hv.2, apply_of_get?_eq_none hv.1]

end Subst

/-- Composing substitutions is applying them one after the other, if both are acyclic and the
second says nothing about what the first binds.  The composed substitution is acyclic too. -/
theorem compose_applies_in_turn {s r : Subst} (hs : s.Acyclic) (hr : r.Acyclic)
    (h : s.Precedes r) :
    (s.compose r).Acyclic ∧ ∀ t, (s.compose r).apply t = r.apply (s.apply t) := by
  have hacyclic := hs.compose hr h
  refine ⟨hacyclic, fun t => ?_⟩
  have hresolved : ∀ v ∈ ((s.compose r).apply t).occurrences, s.inTurn r v = .var v :=
    fun v hv => Subst.inTurn_of_get?_compose (hacyclic.get?_of_mem_apply hv)
  calc (s.compose r).apply t
      = ((s.compose r).apply t).replace (s.inTurn r) := (Ty.replace_eq_self hresolved).symm
    _ = t.replace (s.inTurn r) := (h.solves_compose hs hr).replace_apply t
    _ = r.apply (s.apply t) := Subst.replace_inTurn s r t

namespace Subst

/-- Solves the half of the pair in `chainSample` that is open there, in two bindings. -/
def laterSample : Subst :=
  ⟨((∅ : Std.ExtTreeMap TyVar Ty).insert 3 (.fn (.var 4) (.var 5))).insert 4 .bool⟩

theorem acyclic_laterSample : laterSample.Acyclic := by
  have hfirst : Acyclic ⟨(∅ : Std.ExtTreeMap TyVar Ty).insert 3 (.fn (.var 4) (.var 5))⟩ :=
    acyclic_empty.bind (v := 3) (t := .fn (.var 4) (.var 5)) (by decide) (by decide) (by simp)
  exact hfirst.bind (v := 4) (t := .bool) (by decide) (by decide) (by decide)

theorem chainSample_precedes : chainSample.Precedes laterSample := by
  have hunbound : ∀ v ∈ chainSample.domain, laterSample.get? v = none := by decide
  have habsent : ∀ v ∈ chainSample.domain, ∀ w ∈ laterSample.domain, ∀ u ∈ laterSample.get? w,
      v ∉ u.occurrences := by
    decide
  exact ⟨fun v t hv => hunbound v (mem_domain hv),
    fun v t hv w u hw => habsent v (mem_domain hv) w (mem_domain hw) u hw⟩

end Subst

/-- The chain of the first substitution is followed to its end, and on into the second. -/
theorem compose_applies_in_turn_chain :
    Subst.chainSample.Acyclic ∧ Subst.laterSample.Acyclic ∧
      Subst.chainSample.Precedes Subst.laterSample ∧
      (Subst.chainSample.compose Subst.laterSample).get? 0 = some (.var 1) ∧
      (Subst.chainSample.compose Subst.laterSample).Acyclic ∧
      (Subst.chainSample.compose Subst.laterSample).apply (.var 0) =
        .tuple [.int, .fn .bool (.var 5)] := by
  obtain ⟨hacyclic, happly⟩ := compose_applies_in_turn Subst.acyclic_chainSample
    Subst.acyclic_laterSample Subst.chainSample_precedes
  refine ⟨Subst.acyclic_chainSample, Subst.acyclic_laterSample, Subst.chainSample_precedes,
    by decide, hacyclic, ?_⟩
  rw [happly]
  decide

end LetPoly
