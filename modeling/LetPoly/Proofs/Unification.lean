import LetPoly.Proofs.Substitution
import LetPoly.Ty.Unify

/-!
# Unification

`unify` finds the leftmost difference of two resolved types, binds a variable that stands
there, and goes on to the right.  The countdown in it is no part of the argument.
`Unify.Solved` describes the same steps without it, and `Unify.solve_solved` says that the
countdown is never used up: each binding takes a variable out of what is still to be
compared.  All other facts are proved by induction on `Unify.Solved`.

* The result is acyclic, extends the substitution that `unify` was given, and binds only
  variables of the two resolved types, to types with such variables (`unify_extends`).
* A success makes the two types equal (`unify_sound`).
* An assignment that solves the substitution and makes the two types equal solves the
  result as well, and then `unify` succeeds (`unify_complete`).  So the result is most
  general, and a failure means that nothing makes the types equal.
* No variable is bound twice (`unify_not_defect`).
-/

namespace LetPoly

/-- An assignment makes the types of each pair equal. -/
def Unifies (θ : TyVar → Ty) (pairs : List (Ty × Ty)) : Prop :=
  ∀ p ∈ pairs, p.1.replace θ = p.2.replace θ

theorem unifies_nil (θ : TyVar → Ty) : Unifies θ [] := fun _ h => nomatch h

theorem unifies_cons {θ : TyVar → Ty} {t u : Ty} {pairs : List (Ty × Ty)} :
    Unifies θ ((t, u) :: pairs) ↔ t.replace θ = u.replace θ ∧ Unifies θ pairs := by
  simp [Unifies]

theorem unifies_append {θ : TyVar → Ty} {ps qs : List (Ty × Ty)} :
    Unifies θ (ps ++ qs) ↔ Unifies θ ps ∧ Unifies θ qs := by
  simp only [Unifies, List.mem_append]
  constructor
  · intro h
    exact ⟨fun p hp => h p (.inl hp), fun p hp => h p (.inr hp)⟩
  · rintro ⟨hps, hqs⟩ p (hp | hp)
    · exact hps p hp
    · exact hqs p hp

/-- Lists of types are unified element by element. -/
theorem unifies_zip {θ : TyVar → Ty} :
    ∀ {ts us : List Ty}, ts.length = us.length →
      (Unifies θ (ts.zip us) ↔ ts.map (Ty.replace θ) = us.map (Ty.replace θ))
  | [], [], _ => by simp [unifies_nil]
  | t :: ts, u :: us, h => by
    rw [List.zip_cons_cons, unifies_cons, unifies_zip (by simpa using h)]
    simp

/-- The variables of the types of a list of pairs. -/
def pairVars (pairs : List (Ty × Ty)) : List TyVar :=
  pairs.flatMap fun p => p.1.occurrences ++ p.2.occurrences

theorem mem_pairVars_cons {t u : Ty} {pairs : List (Ty × Ty)} {v : TyVar} :
    v ∈ pairVars ((t, u) :: pairs) ↔
      (v ∈ t.occurrences ∨ v ∈ u.occurrences) ∨ v ∈ pairVars pairs := by
  simp [pairVars, or_assoc]

theorem mem_pairVars_append {ps qs : List (Ty × Ty)} {v : TyVar} :
    v ∈ pairVars (ps ++ qs) ↔ v ∈ pairVars ps ∨ v ∈ pairVars qs := by
  simp [pairVars]

/-! ## Differences -/

/-- What a difference says of the pairs of types that it was found in. -/
structure Difference.Splits (d : Difference) (pairs : List (Ty × Ty)) : Prop where
  /-- Making the pairs equal is removing the difference and making the rest equal. -/
  unifies_iff : ∀ θ, Unifies θ pairs ↔
    d.expected.replace θ = d.actual.replace θ ∧ Unifies θ d.right
  /-- The two sides differ. -/
  ne : d.expected ≠ d.actual
  /-- Two constructors at the difference do not fit. -/
  clash : ∀ c ts e us, d.expected = .con c ts → d.actual = .con e us →
    ¬ (c = e ∧ ts.length = us.length)
  /-- The difference and the rest are made of what the pairs are made of. -/
  mem : ∀ v ∈ pairVars ((d.expected, d.actual) :: d.right), v ∈ pairVars pairs

namespace Difference.Splits

/-- A difference right at two types. -/
theorem here {t u : Ty} (hne : t ≠ u)
    (hclash : ∀ c ts e us, t = .con c ts → u = .con e us → ¬ (c = e ∧ ts.length = us.length)) :
    Splits ⟨t, u, []⟩ [(t, u)] where
  unifies_iff θ := by rw [unifies_cons]
  ne := hne
  clash := hclash
  mem _ hv := hv

/-- A difference in the first pairs, with more pairs to the right. -/
theorem append {d : Difference} {ps : List (Ty × Ty)} (h : d.Splits ps) (qs : List (Ty × Ty)) :
    Splits { d with right := d.right ++ qs } (ps ++ qs) where
  unifies_iff θ := by rw [unifies_append, h.unifies_iff, unifies_append, and_assoc]
  ne := h.ne
  clash := h.clash
  mem v hv := by
    simp only [mem_pairVars_cons, mem_pairVars_append, ← or_assoc] at hv
    rw [mem_pairVars_append]
    exact hv.imp_left fun hv => h.mem v (mem_pairVars_cons.2 hv)

/-- A difference behind a pair of equal types. -/
theorem cons {d : Difference} {ps : List (Ty × Ty)} (h : d.Splits ps) (t : Ty) :
    Splits d ((t, t) :: ps) where
  unifies_iff θ := by simp only [unifies_cons, true_and, h.unifies_iff]
  ne := h.ne
  clash := h.clash
  mem v hv := mem_pairVars_cons.2 (.inr (h.mem v hv))

/-- A difference in the arguments of a constructor. -/
theorem con {d : Difference} {ts us : List Ty} (c : Con) (hlen : ts.length = us.length)
    (h : d.Splits (ts.zip us)) : Splits d [(.con c ts, .con c us)] where
  unifies_iff θ := by
    rw [← h.unifies_iff, unifies_cons, unifies_zip hlen]
    simp [unifies_nil]
  ne := h.ne
  clash := h.clash
  mem v hv := by
    have hmem := h.mem v hv
    simp only [pairVars, List.mem_flatMap, List.mem_append] at hmem
    obtain ⟨⟨t, u⟩, hp, hv⟩ := hmem
    rw [mem_pairVars_cons, Ty.occurrences_con, Ty.occurrences_con, List.mem_flatMap,
      List.mem_flatMap]
    exact .inl (hv.imp (fun h => ⟨t, (List.of_mem_zip hp).1, h⟩)
      (fun h => ⟨u, (List.of_mem_zip hp).2, h⟩))

end Difference.Splits

namespace Ty

/-- What the search for a difference of two types finds. -/
def Compares (t : Ty) : Prop :=
  ∀ u, (difference? t u = none → t = u) ∧ ∀ d, difference? t u = some d → d.Splits [(t, u)]

/-- Lists are compared from the left, and the first difference splits them. -/
theorem differenceAll?_compares :
    ∀ {ts : List Ty}, (∀ t ∈ ts, t.Compares) → ∀ {us : List Ty}, ts.length = us.length →
      (differenceAll? ts us = none → ts = us) ∧
        ∀ d, differenceAll? ts us = some d → d.Splits (ts.zip us)
  | [], _, [], _ => by simp [differenceAll?]
  | t :: ts, h, u :: us, hlen => by
    obtain ⟨heq, hsplit⟩ := h t (List.mem_cons_self ..) u
    obtain ⟨heqs, hsplits⟩ :=
      differenceAll?_compares (fun a ha => h a (List.mem_cons_of_mem t ha))
        (by simpa using hlen)
    rw [differenceAll?]
    cases hd : difference? t u with
    | some d =>
      refine ⟨nofun, fun d' h' => ?_⟩
      cases h'
      exact (hsplit d hd).append (ts.zip us)
    | none =>
      obtain rfl := heq hd
      refine ⟨fun hn => by rw [heqs hn], fun d' h' => ?_⟩
      exact (hsplits d' h').cons t

/-- Two types are equal, or have a first difference that splits them. -/
theorem compares (t : Ty) : t.Compares := by
  induction t using Ty.inductionOn with
  | var v =>
    intro u
    rw [difference?]
    split
    · rename_i hu
      exact ⟨fun _ => hu.symm, by simp⟩
    · rename_i hu
      refine ⟨by simp, fun d h => ?_⟩
      cases h
      exact .here (fun e => hu e.symm) (by simp)
  | con c ts ih =>
    intro u
    cases u with
    | var w =>
      rw [difference?]
      refine ⟨by simp, fun d h => ?_⟩
      cases h
      exact .here (by simp) (by simp)
    | con e us =>
      rw [difference?]
      split
      · rename_i h
        obtain ⟨rfl, hlen⟩ := h
        obtain ⟨heqs, hsplits⟩ := differenceAll?_compares ih hlen
        exact ⟨fun hn => by rw [heqs hn], fun d hd => (hsplits d hd).con c hlen⟩
      · rename_i hclash
        refine ⟨by simp, fun d h => ?_⟩
        cases h
        refine .here ?_ ?_
        · intro heq
          cases heq
          exact hclash ⟨rfl, rfl⟩
        · intro c' ts' e' us' ht hu
          cases ht
          cases hu
          exact hclash

end Ty

namespace Unify

/-- The pairs of types with all solved variables replaced. -/
def resolved (s : Subst) (pairs : List (Ty × Ty)) : List (Ty × Ty) :=
  pairs.map fun p => (s.apply p.1, s.apply p.2)

theorem mem_pairVars_resolved {s : Subst} {pairs : List (Ty × Ty)} {v : TyVar} :
    v ∈ pairVars (resolved s pairs) ↔
      ∃ u ∈ pairVars pairs, v ∈ (s.apply (.var u)).occurrences := by
  simp only [pairVars, resolved, List.flatMap_map, List.mem_flatMap, List.mem_append]
  constructor
  · rintro ⟨p, hp, hv | hv⟩
    · obtain ⟨u, hu, hv⟩ := Subst.mem_apply.1 hv
      exact ⟨u, ⟨p, hp, .inl hu⟩, hv⟩
    · obtain ⟨u, hu, hv⟩ := Subst.mem_apply.1 hv
      exact ⟨u, ⟨p, hp, .inr hu⟩, hv⟩
  · rintro ⟨u, ⟨p, hp, hu | hu⟩, hv⟩
    · exact ⟨p, hp, .inl (Subst.mem_apply.2 ⟨u, hu, hv⟩)⟩
    · exact ⟨p, hp, .inr (Subst.mem_apply.2 ⟨u, hu, hv⟩)⟩

/-- Resolved equations have no solved variables. -/
theorem get?_of_mem_resolved {s : Subst} (hs : s.Acyclic) {pairs : List (Ty × Ty)} {v : TyVar}
    (h : v ∈ pairVars (resolved s pairs)) : s.get? v = none := by
  obtain ⟨u, -, hv⟩ := mem_pairVars_resolved.1 h
  exact hs.get?_of_mem_apply hv

/-- What the first difference under a substitution says of the pairs. -/
structure Leads (s : Subst) (pairs : List (Ty × Ty)) (d : Difference) : Prop where
  /-- For solutions, making the pairs equal is removing the difference and making the rest equal. -/
  unifies_iff : ∀ θ, s.Solves θ →
    (Unifies θ pairs ↔ d.expected.replace θ = d.actual.replace θ ∧ Unifies θ d.right)
  /-- The two sides differ. -/
  ne : d.expected ≠ d.actual
  /-- Two constructors at the difference do not fit. -/
  clash : ∀ c ts e us, d.expected = .con c ts → d.actual = .con e us →
    ¬ (c = e ∧ ts.length = us.length)
  /-- The difference has the variables of the resolved pairs. -/
  mem : ∀ v, v ∈ d.expected.occurrences ∨ v ∈ d.actual.occurrences →
    v ∈ pairVars (resolved s pairs)
  /-- The rest has the variables of the resolved pairs. -/
  mem_right : ∀ v ∈ pairVars (resolved s d.right), v ∈ pairVars (resolved s pairs)

/-- A difference in the first equation leads on. -/
theorem Leads.here {s : Subst} (hs : s.Acyclic) {t u : Ty} {d : Difference}
    (h : d.Splits [(s.apply t, s.apply u)]) (rest : List (Ty × Ty)) :
    Leads s ((t, u) :: rest) { d with right := d.right ++ rest } where
  unifies_iff θ hθ := by
    have hhead := h.unifies_iff θ
    rw [unifies_cons, hθ.replace_apply, hθ.replace_apply] at hhead
    rw [unifies_cons, unifies_append, ← and_assoc, ← hhead]
    simp [unifies_nil]
  ne := h.ne
  clash := h.clash
  mem v hv := by
    have hmem := h.mem v (mem_pairVars_cons.2 (.inl hv))
    rw [resolved, List.map_cons, mem_pairVars_cons]
    exact .inl (by simpa [pairVars] using hmem)
  mem_right v hv := by
    rw [resolved, List.map_append, mem_pairVars_append] at hv
    rw [resolved, List.map_cons, mem_pairVars_cons]
    refine hv.imp (fun hv => ?_) id
    -- The rest of the difference is resolved already, so nothing new comes in.
    obtain ⟨w, hw, hv⟩ := mem_pairVars_resolved.1 hv
    have hmem := h.mem w (mem_pairVars_cons.2 (.inr hw))
    have hw' : w ∈ (s.apply t).occurrences ∨ w ∈ (s.apply u).occurrences := by
      simpa [pairVars] using hmem
    have hfree : s.get? w = none := hw'.elim hs.get?_of_mem_apply hs.get?_of_mem_apply
    rw [Subst.apply_of_get?_eq_none hfree, Ty.occurrences_var, List.mem_singleton] at hv
    subst hv
    exact hw'

/-- A difference behind equations that hold leads on. -/
theorem Leads.cons {s : Subst} {t u : Ty} {rest : List (Ty × Ty)} {d : Difference}
    (heq : s.apply t = s.apply u) (h : Leads s rest d) : Leads s ((t, u) :: rest) d where
  unifies_iff θ hθ := by
    rw [unifies_cons, ← hθ.replace_apply t, heq, hθ.replace_apply u, h.unifies_iff θ hθ]
    simp
  ne := h.ne
  clash := h.clash
  mem v hv := by
    rw [resolved, List.map_cons, mem_pairVars_cons]
    exact .inr (h.mem v hv)
  mem_right v hv := by
    rw [resolved, List.map_cons, mem_pairVars_cons]
    exact .inr (h.mem_right v hv)

/-- Without a difference all pairs are equal under the substitution. -/
theorem firstDifference?_eq_none {s : Subst} :
    ∀ {pairs : List (Ty × Ty)}, firstDifference? s pairs = none →
      ∀ p ∈ pairs, s.apply p.1 = s.apply p.2
  | [], _, _, hp => nomatch hp
  | (t, u) :: rest, h, p, hp => by
    rw [firstDifference?] at h
    cases hd : Ty.difference? (s.apply t) (s.apply u) with
    | some d =>
      rw [hd] at h
      cases h
    | none =>
      rw [hd] at h
      cases List.mem_cons.1 hp with
      | inl hp =>
        subst hp
        exact ((s.apply t).compares (s.apply u)).1 hd
      | inr hp => exact firstDifference?_eq_none h p hp

/-- The first difference of some equations is one that leads on. -/
theorem firstDifference?_leads {s : Subst} (hs : s.Acyclic) :
    ∀ {pairs : List (Ty × Ty)} {d : Difference}, firstDifference? s pairs = some d →
      Leads s pairs d
  | [], _, h => nomatch h
  | (t, u) :: rest, d, h => by
    obtain ⟨hnone, hsome⟩ := (s.apply t).compares (s.apply u)
    rw [firstDifference?] at h
    cases hd : Ty.difference? (s.apply t) (s.apply u) with
    | some d' =>
      rw [hd] at h
      cases h
      exact .here hs (hsome d' hd) rest
    | none =>
      rw [hd] at h
      exact .cons (hnone hd) (firstDifference?_leads hs h)

/-! ## Removing a difference -/

/-- A difference is removed by a variable on one side, which does not occur on the other. -/
theorem remedy_eq_ok {t u r : Ty} {v : TyVar} (h : remedy t u = .ok (v, r)) :
    (t = .var v ∧ u = r ∨ u = .var v ∧ t = r) ∧ v ∉ r.occurrences := by
  have hbinding : ∀ {w : TyVar} {q : Ty}, binding w q = .ok (v, r) →
      (w = v ∧ q = r) ∧ v ∉ r.occurrences := by
    intro w q hq
    unfold binding at hq
    split at hq
    · cases hq
    · rename_i hocc
      cases hq
      exact ⟨⟨rfl, rfl⟩, fun hv => hocc (Ty.occurs_iff.2 hv)⟩
  unfold remedy at h
  split at h
  · obtain ⟨⟨rfl, rfl⟩, hv⟩ := hbinding h
    exact ⟨.inl ⟨rfl, rfl⟩, hv⟩
  · obtain ⟨⟨rfl, rfl⟩, hv⟩ := hbinding h
    exact ⟨.inr ⟨rfl, rfl⟩, hv⟩
  · cases h

/-- Without a remedy nothing makes the two sides of a difference equal. -/
theorem Leads.replace_ne {s : Subst} {pairs : List (Ty × Ty)} {d : Difference} {e : UnifyError}
    (hd : Leads s pairs d) (h : remedy d.expected d.actual = .error e) (θ : TyVar → Ty) :
    d.expected.replace θ ≠ d.actual.replace θ := by
  have hoccurs : ∀ {v : TyVar} {t : Ty}, binding v t = .error e → v ∈ t.occurrences := by
    intro v t ht
    unfold binding at ht
    split at ht
    · rename_i hocc
      exact Ty.occurs_iff.1 hocc
    · cases ht
  have hne := hd.ne
  intro heq
  cases hexp : d.expected with
  | var v =>
    rw [hexp] at h hne heq
    exact Ty.replace_var_ne_of_mem (hoccurs h) (Ne.symm hne) heq
  | con c ts =>
    cases hact : d.actual with
    | var w =>
      rw [hexp, hact] at h hne heq
      exact Ty.replace_var_ne_of_mem (hoccurs h) hne heq.symm
    | con c' us =>
      rw [hexp, hact, Ty.replace_con, Ty.replace_con, Ty.con.injEq] at heq
      refine hd.clash c ts c' us hexp hact ⟨heq.1, ?_⟩
      simpa using congrArg List.length heq.2

theorem bind_subst {x x' : Extension} {v : TyVar} {t : Ty} (h : x.bind v t = .ok x') :
    x.subst.bind v t = .ok x'.subst := by
  unfold Extension.bind at h
  cases hs : x.subst.bind v t with
  | error e => rw [hs] at h; cases h
  | ok s => rw [hs] at h; cases h; rfl

/-- A variable that is not solved can be bound. -/
theorem exists_bind {x : Extension} {v : TyVar} (t : Ty) (h : x.subst.get? v = none) :
    ∃ x', x.bind v t = .ok x' := by
  refine ⟨⟨⟨x.subst.bindings.insert v t⟩, (v, t) :: x.added⟩, ?_⟩
  unfold Extension.bind Subst.bind
  rw [h]
  rfl

/-- What binding a variable to the other side of a difference does. -/
structure Remedied (x : Extension) (pairs : List (Ty × Ty)) (d : Difference) (v : TyVar) (t : Ty)
    (x' : Extension) : Prop where
  /-- The result is acyclic. -/
  acyclic : x'.subst.Acyclic
  /-- The variable is bound, and nothing else changes. -/
  get? : ∀ w, x'.subst.get? w = if v = w then some t else x.subst.get? w
  /-- The variable stood in the pairs. -/
  var_mem : v ∈ pairVars (resolved x.subst pairs)
  /-- The type is made of what stood in the pairs. -/
  ty_mem : ∀ w ∈ t.occurrences, w ∈ pairVars (resolved x.subst pairs)
  /-- The variable is gone from what is to be compared. -/
  right_mem : ∀ w ∈ pairVars (resolved x'.subst d.right),
    w ∈ pairVars (resolved x.subst pairs) ∧ w ≠ v
  /-- An assignment removes the difference exactly if it agrees with the binding. -/
  unifies_iff : ∀ θ, d.expected.replace θ = d.actual.replace θ ↔ θ v = t.replace θ

/-- A binding that removes a difference leaves the equations to its right. -/
theorem Leads.remedied {x x' : Extension} (hx : x.subst.Acyclic) {pairs : List (Ty × Ty)}
    {d : Difference} (hd : Leads x.subst pairs d) {v : TyVar} {t : Ty}
    (hr : remedy d.expected d.actual = .ok (v, t)) (hb : x.bind v t = .ok x') :
    Remedied x pairs d v t x' := by
  obtain ⟨hsides, hv⟩ := remedy_eq_ok hr
  have hbind := bind_subst hb
  have hget := Subst.get?_of_bind_eq_ok hbind
  have hvar : v ∈ pairVars (resolved x.subst pairs) := by
    refine hd.mem v ?_
    rcases hsides with ⟨h, -⟩ | ⟨h, -⟩
    · exact .inl (by rw [h]; exact List.mem_singleton.2 rfl)
    · exact .inr (by rw [h]; exact List.mem_singleton.2 rfl)
  have hty : ∀ w ∈ t.occurrences, w ∈ pairVars (resolved x.subst pairs) := by
    intro w hw
    refine hd.mem w ?_
    rcases hsides with ⟨-, h⟩ | ⟨-, h⟩
    · exact .inr (by rw [h]; exact hw)
    · exact .inl (by rw [h]; exact hw)
  have hfree : ∀ w ∈ t.occurrences, x.subst.get? w = none :=
    fun w hw => get?_of_mem_resolved hx (hty w hw)
  have hacyc : x'.subst.Acyclic := hx.bind hbind hv hfree
  refine ⟨hacyc, hget, hvar, hty, ?_, ?_⟩
  · intro w hw
    have hwfree := get?_of_mem_resolved hacyc hw
    have hwv : w ≠ v := by
      rintro rfl
      rw [hget, if_pos rfl] at hwfree
      cases hwfree
    refine ⟨?_, hwv⟩
    obtain ⟨r, hr, hw⟩ := mem_pairVars_resolved.1 hw
    obtain ⟨u, hu, hw⟩ := (hacyc.mem_apply_of_le (Subst.le_of_bind hbind)).1 hw
    have hu' : u ∈ pairVars (resolved x.subst pairs) :=
      hd.mem_right u (mem_pairVars_resolved.2 ⟨r, hr, hu⟩)
    by_cases huv : v = u
    · subst huv
      rw [hacyc.apply_of_get?_eq_some (by rw [hget, if_pos rfl])] at hw
      obtain ⟨q, hq, hw⟩ := Subst.mem_apply.1 hw
      have hqfree : x'.subst.get? q = none := by
        rw [hget, if_neg (fun e : v = q => hv (e ▸ hq))]
        exact hfree q hq
      rw [Subst.apply_of_get?_eq_none hqfree, Ty.occurrences_var, List.mem_singleton] at hw
      subst hw
      exact hty w hq
    · have hufree : x'.subst.get? u = none := by
        rw [hget, if_neg huv]
        exact get?_of_mem_resolved hx hu'
      rw [Subst.apply_of_get?_eq_none hufree, Ty.occurrences_var, List.mem_singleton] at hw
      subst hw
      exact hu'
  · intro θ
    rcases hsides with ⟨h, h'⟩ | ⟨h, h'⟩
    · rw [h, h']
      rfl
    · rw [h, h']
      exact eq_comm

/-- The variable of a binding that removes a difference is not bound yet. -/
theorem Leads.exists_remedied {x : Extension} (hx : x.subst.Acyclic) {pairs : List (Ty × Ty)}
    {d : Difference} (hd : Leads x.subst pairs d) {v : TyVar} {t : Ty}
    (hr : remedy d.expected d.actual = .ok (v, t)) :
    ∃ x', x.bind v t = .ok x' ∧ Remedied x pairs d v t x' := by
  have hfree : x.subst.get? v = none := by
    obtain ⟨hsides, -⟩ := remedy_eq_ok hr
    refine get?_of_mem_resolved hx (hd.mem v ?_)
    rcases hsides with ⟨h, -⟩ | ⟨h, -⟩
    · exact .inl (by rw [h]; exact List.mem_singleton.2 rfl)
    · exact .inr (by rw [h]; exact List.mem_singleton.2 rfl)
  obtain ⟨x', hb⟩ := exists_bind t hfree
  exact ⟨x', hb, hd.remedied hx hr hb⟩

/-- A binding leaves fewer variables to be compared. -/
theorem Remedied.card_lt {x x' : Extension} {pairs : List (Ty × Ty)} {d : Difference} {v : TyVar}
    {t : Ty} (h : Remedied x pairs d v t x') :
    (pairVars (resolved x'.subst d.right)).toFinset.card <
      (pairVars (resolved x.subst pairs)).toFinset.card := by
  have hsub : (pairVars (resolved x'.subst d.right)).toFinset ⊆
      (pairVars (resolved x.subst pairs)).toFinset.erase v := by
    intro w hw
    obtain ⟨hmem, hne⟩ := h.right_mem w (List.mem_toFinset.1 hw)
    exact Finset.mem_erase.2 ⟨hne, List.mem_toFinset.2 hmem⟩
  have hcard := Finset.card_le_card hsub
  have herase := Finset.card_erase_add_one (List.mem_toFinset.2 h.var_mem)
  omega

/-! ## Solving -/

/-- What comes out of making pairs equal under a substitution that is being extended. -/
abbrev Result := Except (Fault UnifyError) Unit × Extension

/-- The steps that make the types of pairs equal, with as many bindings as it takes. -/
inductive Solved : List (Ty × Ty) → Extension → Result → Prop where
  | done {pairs : List (Ty × Ty)} {x : Extension} (h : firstDifference? x.subst pairs = none) :
      Solved pairs x (.ok (), x)
  | stuck {pairs : List (Ty × Ty)} {x : Extension} {d : Difference} {e : UnifyError}
      (h : firstDifference? x.subst pairs = some d)
      (he : remedy d.expected d.actual = .error e) : Solved pairs x (.error (.error e), x)
  | bind {pairs : List (Ty × Ty)} {x x' : Extension} {d : Difference} {v : TyVar} {t : Ty}
      {r : Result} (h : firstDifference? x.subst pairs = some d)
      (hr : remedy d.expected d.actual = .ok (v, t)) (hb : x.bind v t = .ok x')
      (rest : Solved d.right x' r) : Solved pairs x r

/-- The countdown is not used up if it starts at the number of variables to be compared or above. -/
theorem solve_solved :
    ∀ (n : Nat) (pairs : List (Ty × Ty)) (x : Extension), x.subst.Acyclic →
      (pairVars (resolved x.subst pairs)).toFinset.card ≤ n → Solved pairs x (solve n pairs x)
  | n, pairs, x, hx, hn => by
    unfold solve
    cases hd : firstDifference? x.subst pairs with
    | none => exact .done hd
    | some d =>
      have hlead := firstDifference?_leads hx hd
      dsimp only
      cases hr : remedy d.expected d.actual with
      | error e => exact .stuck hd hr
      | ok b =>
        obtain ⟨v, t⟩ := b
        obtain ⟨x', hb, hrem⟩ := hlead.exists_remedied hx hr
        have hcard := hrem.card_lt
        dsimp only
        rw [hb]
        cases n with
        | zero => omega
        | succ n => exact .bind hd hr hb (solve_solved n d.right x' hrem.acyclic (by omega))

/-- What a substitution has beyond another: acyclic, and the new bindings stay in a set of
variables that the other leaves open. -/
structure Extends (s r : Subst) (vs : List TyVar) : Prop where
  /-- The result is acyclic. -/
  acyclic : r.Acyclic
  /-- Every binding is kept. -/
  le : s ≤ r
  /-- A new binding is for one of the variables, and its type has only such variables. -/
  added : ∀ v t, r.get? v = some t → s.get? v = none → v ∈ vs ∧ ∀ w ∈ t.occurrences, w ∈ vs

/-- Solving adds bindings for variables of the equations only. -/
theorem Solved.extends {pairs : List (Ty × Ty)} {x : Extension} {r : Result} (h : Solved pairs x r)
    (hx : x.subst.Acyclic) : Extends x.subst r.2.subst (pairVars (resolved x.subst pairs)) := by
  induction h with
  | done h => exact ⟨hx, Subst.le_refl _, fun v t ht hn => by rw [hn] at ht; cases ht⟩
  | stuck h he => exact ⟨hx, Subst.le_refl _, fun v t ht hn => by rw [hn] at ht; cases ht⟩
  | @bind pairs x x' d v t r h hr hb rest ih =>
    have hrem := (firstDifference?_leads hx h).remedied hx hr hb
    obtain ⟨hacyc, hle, hadded⟩ := ih hrem.acyclic
    have hle' : x.subst ≤ x'.subst := Subst.le_of_bind (bind_subst hb)
    refine ⟨hacyc, Subst.le_trans hle' hle, fun w u hu hn => ?_⟩
    by_cases hvw : v = w
    · subst hvw
      have hv : x'.subst.get? v = some t := by rw [hrem.get?, if_pos rfl]
      rw [hle v t hv, Option.some.injEq] at hu
      subst hu
      exact ⟨hrem.var_mem, hrem.ty_mem⟩
    · have hn' : x'.subst.get? w = none := by rw [hrem.get?, if_neg hvw, hn]
      obtain ⟨hw, hu⟩ := hadded w u hu hn'
      exact ⟨(hrem.right_mem w hw).1, fun q hq => (hrem.right_mem q (hu q hq)).1⟩

/-- If solving succeeds then both sides stand for the same. -/
theorem Solved.unifies {pairs : List (Ty × Ty)} {x : Extension} {r : Result} (h : Solved pairs x r)
    (hx : x.subst.Acyclic) (hok : r.1 = .ok ()) :
    Unifies (fun v => r.2.subst.apply (.var v)) pairs := by
  induction h with
  | done h => exact firstDifference?_eq_none h
  | stuck h he => cases hok
  | @bind pairs x x' d v t r h hr hb rest ih =>
    have hlead := firstDifference?_leads hx h
    have hrem := hlead.remedied hx hr hb
    obtain ⟨hacyc, hle, -⟩ := rest.extends hrem.acyclic
    have hle' : x.subst ≤ x'.subst := Subst.le_of_bind (bind_subst hb)
    refine (hlead.unifies_iff _ (hacyc.solves.of_le (Subst.le_trans hle' hle))).2 ?_
    refine ⟨(hrem.unifies_iff _).2 ?_, ih hrem.acyclic hok⟩
    exact hacyc.apply_of_get?_eq_some (hle v t (by rw [hrem.get?, if_pos rfl]))

/-- Solving never breaks a contract. -/
theorem Solved.not_defect {pairs : List (Ty × Ty)} {x : Extension} {r : Result}
    (h : Solved pairs x r) (b : Defect) : r.1 ≠ .error (.defect b) := by
  induction h with
  | done h => exact nofun
  | stuck h he => exact nofun
  | bind h hr hb rest ih => exact ih

/-- Solving succeeds if there is a solution, and keeps all solutions. -/
theorem Solved.complete {pairs : List (Ty × Ty)} {x : Extension} {r : Result}
    (h : Solved pairs x r) (hx : x.subst.Acyclic) {θ : TyVar → Ty} (hθ : x.subst.Solves θ)
    (hpairs : Unifies θ pairs) : r.1 = .ok () ∧ r.2.subst.Solves θ := by
  induction h with
  | done h => exact ⟨rfl, hθ⟩
  | stuck h he =>
    have hlead := firstDifference?_leads hx h
    exact absurd ((hlead.unifies_iff θ hθ).1 hpairs).1 (hlead.replace_ne he θ)
  | @bind pairs x x' d v t r h hr hb rest ih =>
    have hlead := firstDifference?_leads hx h
    have hrem := hlead.remedied hx hr hb
    obtain ⟨heq, hright⟩ := (hlead.unifies_iff θ hθ).1 hpairs
    refine ih hrem.acyclic (fun w u hu => ?_) hright
    rw [hrem.get?] at hu
    split at hu
    · rename_i hvw
      cases hu
      subst hvw
      exact (hrem.unifies_iff θ).1 heq
    · exact hθ w u hu

end Unify

/-! ## Unifying two types -/

section

variable {s : Subst} (hs : s.Acyclic) (t u : Ty)

include hs

/-- Unification solves one equation. -/
theorem unify_solved : Unify.Solved [(t, u)] (.start s) (unify t u s) := by
  refine Unify.solve_solved _ _ _ hs ?_
  refine Nat.le_trans (List.toFinset_card_le _) ?_
  simp [pairVars, Unify.resolved, Extension.start]

/-- Unification extends an acyclic substitution to an acyclic one, and stays in the variables of the
two resolved types. -/
theorem unify_extends : Unify.Extends s (unify t u s).2.subst
    ((s.apply t).occurrences ++ (s.apply u).occurrences) := by
  have h := (unify_solved hs t u).extends hs
  simpa [pairVars, Unify.resolved, Extension.start] using h

/-- A success makes the two types equal. -/
theorem unify_sound (hok : (unify t u s).1 = .ok ()) :
    (unify t u s).2.subst.apply t = (unify t u s).2.subst.apply u :=
  (unify_solved hs t u).unifies hs hok (t, u) (List.mem_singleton.2 rfl)

/-- No variable is bound twice. -/
theorem unify_not_defect (b : Defect) : (unify t u s).1 ≠ .error (.defect b) :=
  (unify_solved hs t u).not_defect b

/-- If some solution makes the types equal, unification succeeds and keeps the solution. -/
theorem unify_complete {θ : TyVar → Ty} (hθ : s.Solves θ) (heq : t.replace θ = u.replace θ) :
    (unify t u s).1 = .ok () ∧ (unify t u s).2.subst.Solves θ :=
  (unify_solved hs t u).complete hs hθ fun p hp => by
    rw [List.mem_singleton] at hp
    subst hp
    exact heq

end

end LetPoly
