import LetPoly.Proofs.Unification

/-!
# Unification by descent

Two types can be unified from their heads down.  Equal variables need nothing, and
constructors that fit leave their arguments to be unified, pair by pair from the left
and before all that stands further right.  A variable at one head is bound to the other
side.  Anything else ends the descent, and what is to the right is not looked at any
more.  `Unify.Descends` describes this with the bindings made so far, and it has no
countdown of its own.

A descent from an acyclic substitution ends (`Unify.exists_descends`).  Resolving a head
may bring up a type of any size, so the size of what is left does not decrease by itself.
But a binding takes a variable out of it for good, and between two bindings the resolved
types are only taken apart.

`unify` looks for differences of resolved types instead, and comes to the same result
(`descends_iff`).  What it returns is a most general solution, if there is any at all.
-/

namespace LetPoly

namespace Unify

/-! ## Fitting heads -/

/-- The pairs that are left to be made equal if two heads fit. -/
def arguments? : Ty → Ty → Option (List (Ty × Ty))
  | .con c ts, .con d us => if c = d ∧ ts.length = us.length then some (ts.zip us) else none
  | .var v, .var w => if v = w then some [] else none
  | _, _ => none

/-- Heads that fit are equal variables, or equal constructors with as many arguments. -/
theorem arguments?_eq_some {t u : Ty} {args : List (Ty × Ty)} (h : arguments? t u = some args) :
    (∃ v, t = .var v ∧ u = .var v ∧ args = []) ∨
      ∃ c ts us, t = .con c ts ∧ u = .con c us ∧ ts.length = us.length ∧ args = ts.zip us := by
  cases t with
  | var v =>
    cases u with
    | var w =>
      simp only [arguments?] at h
      split at h
      · rename_i hvw
        cases h
        exact .inl ⟨v, rfl, by rw [hvw], rfl⟩
      · cases h
    | con d us => cases h
  | con c ts =>
    cases u with
    | var w => cases h
    | con d us =>
      simp only [arguments?] at h
      split at h
      · rename_i hfit
        obtain ⟨rfl, hlen⟩ := hfit
        cases h
        exact .inr ⟨c, ts, us, rfl, rfl, hlen, rfl⟩
      · cases h

/-- Resolved types fit if their heads do, and then their arguments are those of the heads. -/
theorem arguments?_apply {s : Subst} (hs : s.Acyclic) (t u : Ty) :
    arguments? (s.apply t) (s.apply u) =
      (arguments? (s.head t) (s.head u)).map (resolved s) := by
  rw [← hs.apply_head t, ← hs.apply_head u]
  cases ht : s.head t with
  | var v =>
    rw [Subst.apply_of_get?_eq_none (hs.get?_of_head ht)]
    cases hu : s.head u with
    | var w =>
      rw [Subst.apply_of_get?_eq_none (hs.get?_of_head hu)]
      by_cases hvw : v = w <;> simp [arguments?, hvw, resolved]
    | con d us => simp [Subst.apply, arguments?]
  | con c ts =>
    cases hu : s.head u with
    | var w =>
      rw [Subst.apply_of_get?_eq_none (hs.get?_of_head hu)]
      simp [Subst.apply, arguments?]
    | con d us =>
      by_cases hfit : c = d ∧ ts.length = us.length <;>
        simp [Subst.apply, arguments?, hfit, resolved, List.zip_map]

theorem arguments?_apply_of_fit {s : Subst} (hs : s.Acyclic) {t u : Ty} {args : List (Ty × Ty)}
    (h : arguments? (s.head t) (s.head u) = some args) :
    arguments? (s.apply t) (s.apply u) = some (resolved s args) := by
  rw [arguments?_apply hs, h]
  rfl

theorem mem_of_mem_arguments? {t u : Ty} {args : List (Ty × Ty)} (h : arguments? t u = some args)
    {v : TyVar} (hv : v ∈ pairVars args) : v ∈ t.occurrences ∨ v ∈ u.occurrences := by
  obtain ⟨w, rfl, rfl, rfl⟩ | ⟨c, ts, us, rfl, rfl, -, rfl⟩ := arguments?_eq_some h
  · cases hv
  · simp only [pairVars, List.mem_flatMap, List.mem_append] at hv
    obtain ⟨⟨a, b⟩, hab, hv⟩ := hv
    obtain ⟨ha, hb⟩ := List.of_mem_zip hab
    simp only [Ty.occurrences_con, List.mem_flatMap]
    exact hv.imp (fun hv => ⟨a, ha, hv⟩) (fun hv => ⟨b, hb, hv⟩)

theorem sizeOf_zip_le : ∀ (ts us : List Ty), sizeOf (ts.zip us) ≤ sizeOf ts + sizeOf us
  | [], us => by simp
  | t :: ts, [] => by simp
  | t :: ts, u :: us => by
    have ih := sizeOf_zip_le ts us
    simp only [List.zip_cons_cons, List.cons.sizeOf_spec, Prod.mk.sizeOf_spec]
    omega

theorem sizeOf_append_pairs (ps qs : List (Ty × Ty)) :
    sizeOf (ps ++ qs) + 1 = sizeOf ps + sizeOf qs := by
  induction ps with
  | nil =>
    rw [List.nil_append, List.nil.sizeOf_spec]
    omega
  | cons p ps ih =>
    rw [List.cons_append, List.cons.sizeOf_spec, List.cons.sizeOf_spec]
    omega

/-- Arguments are smaller than the types they are taken from. -/
theorem sizeOf_arguments?_lt {t u : Ty} {args : List (Ty × Ty)} (h : arguments? t u = some args)
    (pairs : List (Ty × Ty)) : sizeOf (args ++ pairs) < sizeOf ((t, u) :: pairs) := by
  have happend := sizeOf_append_pairs args pairs
  rw [List.cons.sizeOf_spec, Prod.mk.sizeOf_spec]
  obtain ⟨w, rfl, rfl, rfl⟩ | ⟨c, ts, us, rfl, rfl, -, rfl⟩ := arguments?_eq_some h
  · rw [List.nil_append]
    omega
  · have hzip := sizeOf_zip_le ts us
    rw [Ty.con.sizeOf_spec, Ty.con.sizeOf_spec]
    omega

/-! ## Descents -/

/-- The steps that make the types of pairs equal from their heads down. -/
inductive Descends : List (Ty × Ty) → Extension → Result → Prop where
  | done (x : Extension) : Descends [] x (.ok (), x)
  /-- Heads that fit leave their arguments to be made equal. -/
  | fit {t u : Ty} {args pairs : List (Ty × Ty)} {x : Extension} {r : Result}
      (h : arguments? (x.subst.head t) (x.subst.head u) = some args)
      (rest : Descends (args ++ pairs) x r) : Descends ((t, u) :: pairs) x r
  /-- Other heads end the descent if none of them is a variable that can be bound. -/
  | stuck {t u : Ty} {pairs : List (Ty × Ty)} {x : Extension} {e : UnifyError}
      (h : arguments? (x.subst.head t) (x.subst.head u) = none)
      (he : remedy (x.subst.apply (x.subst.head t)) (x.subst.apply (x.subst.head u)) = .error e) :
      Descends ((t, u) :: pairs) x (.error (.error e), x)
  /-- A variable at one head is bound to the other side. -/
  | bind {t u : Ty} {pairs : List (Ty × Ty)} {x x' : Extension} {v : TyVar} {q : Ty} {r : Result}
      (h : arguments? (x.subst.head t) (x.subst.head u) = none)
      (hr : remedy (x.subst.apply (x.subst.head t)) (x.subst.apply (x.subst.head u)) = .ok (v, q))
      (hb : x.bind v q = .ok x') (rest : Descends pairs x' r) : Descends ((t, u) :: pairs) x r
  /-- A variable that is bound already must not come up. -/
  | broken {t u : Ty} {pairs : List (Ty × Ty)} {x : Extension} {v : TyVar} {q : Ty} {b : Defect}
      (h : arguments? (x.subst.head t) (x.subst.head u) = none)
      (hr : remedy (x.subst.apply (x.subst.head t)) (x.subst.apply (x.subst.head u)) = .ok (v, q))
      (hb : x.bind v q = .error b) : Descends ((t, u) :: pairs) x (.error (.defect b), x)

/-- Resolved types whose heads do not fit differ right there. -/
theorem difference?_of_arguments? {t u : Ty} (h : arguments? t u = none) :
    Ty.difference? t u = some ⟨t, u, []⟩ := by
  cases t with
  | var v =>
    rw [Ty.difference?]
    cases u with
    | var w =>
      have hvw : v ≠ w := by
        rintro rfl
        simp [arguments?] at h
      simp [hvw.symm]
    | con d us => simp
  | con c ts =>
    cases u with
    | var w => rw [Ty.difference?]
    | con d us =>
      rw [Ty.difference?, if_neg]
      intro hfit
      simp [arguments?, hfit] at h

theorem firstDifference?_of_unfit {s : Subst} (hs : s.Acyclic) {t u : Ty}
    (h : arguments? (s.head t) (s.head u) = none) (pairs : List (Ty × Ty)) :
    firstDifference? s ((t, u) :: pairs) = some ⟨s.apply t, s.apply u, pairs⟩ := by
  have hnone : arguments? (s.apply t) (s.apply u) = none := by rw [arguments?_apply hs, h]; rfl
  rw [firstDifference?, difference?_of_arguments? hnone]
  rfl

/-- A descent ends.  Along it the variables to be compared get fewer, or they stay and the types in
which they stand get smaller. -/
theorem exists_descends (pairs : List (Ty × Ty)) (x : Extension) (hx : x.subst.Acyclic) :
    ∃ r, Descends pairs x r := by
  match pairs with
  | [] => exact ⟨_, .done x⟩
  | (t, u) :: pairs =>
    cases hargs : arguments? (x.subst.head t) (x.subst.head u) with
    | some args =>
      have hresolved := arguments?_apply_of_fit hx hargs
      have hvars : (pairVars (resolved x.subst (args ++ pairs))).toFinset.card ≤
          (pairVars (resolved x.subst ((t, u) :: pairs))).toFinset.card := by
        refine Finset.card_le_card fun v hv => ?_
        simp only [resolved, List.map_append, List.map_cons, List.mem_toFinset,
          mem_pairVars_append, mem_pairVars_cons] at hv ⊢
        exact hv.imp_left (mem_of_mem_arguments? hresolved)
      have hsize : sizeOf (resolved x.subst (args ++ pairs)) <
          sizeOf (resolved x.subst ((t, u) :: pairs)) := by
        have hlt := sizeOf_arguments?_lt hresolved (resolved x.subst pairs)
        simpa [resolved] using hlt
      obtain ⟨r, hr⟩ := exists_descends (args ++ pairs) x hx
      exact ⟨r, .fit hargs hr⟩
    | none =>
      cases hr : remedy (x.subst.apply (x.subst.head t)) (x.subst.apply (x.subst.head u)) with
      | error e => exact ⟨_, .stuck hargs hr⟩
      | ok b =>
        obtain ⟨v, q⟩ := b
        have hlead := firstDifference?_leads hx (firstDifference?_of_unfit hx hargs pairs)
        obtain ⟨x', hb, hrem⟩ := hlead.exists_remedied hx
          (by rwa [hx.apply_head, hx.apply_head] at hr)
        have hvars := hrem.card_lt
        obtain ⟨r, hrest⟩ := exists_descends pairs x' hrem.acyclic
        exact ⟨r, .bind hargs hr hb hrest⟩
termination_by
  ((pairVars (resolved x.subst pairs)).toFinset.card, sizeOf (resolved x.subst pairs))
decreasing_by
  · exact Prod.Lex.left _ _ hvars
  · exact Prod.Lex.right' _ hvars hsize

/-! ## Descents and differences -/

/-- Reading the arguments of two types side by side is looking for the first difference in their
pairs.  The arguments are resolved. -/
theorem firstDifference?_zip {s : Subst} (pairs : List (Ty × Ty)) :
    ∀ {ts us : List Ty}, ts.length = us.length → ts.map s.apply = ts → us.map s.apply = us →
      (Ty.differenceAll? ts us = none →
        firstDifference? s (ts.zip us ++ pairs) = firstDifference? s pairs) ∧
      ∀ d, Ty.differenceAll? ts us = some d →
        firstDifference? s (ts.zip us ++ pairs) = some { d with right := d.right ++ pairs }
  | [], [], _, _, _ => by simp [Ty.differenceAll?]
  | t :: ts, u :: us, hlen, hts, hus => by
    simp only [List.map_cons, List.cons.injEq] at hts hus
    rw [List.zip_cons_cons, List.cons_append, firstDifference?, Ty.differenceAll?, hts.1, hus.1]
    cases Ty.difference? t u with
    | some d => simp
    | none => exact firstDifference?_zip pairs (by simpa using hlen) hts.2 hus.2

/-- Where heads fit, the first difference is in the arguments. -/
theorem firstDifference?_of_fit {s : Subst} (hs : s.Acyclic) {t u : Ty} {args : List (Ty × Ty)}
    (h : arguments? (s.head t) (s.head u) = some args) (pairs : List (Ty × Ty)) :
    firstDifference? s ((t, u) :: pairs) = firstDifference? s (resolved s args ++ pairs) := by
  have ht := hs.apply_apply t
  have hu := hs.apply_apply u
  rw [firstDifference?]
  obtain ⟨w, htw, huw, hargs⟩ | ⟨c, ts, us, htc, huc, hlen, hargs⟩ :=
    arguments?_eq_some (arguments?_apply_of_fit hs h)
  · rw [htw, huw, hargs, Ty.difference?, if_pos rfl]
    rfl
  · rw [htc, Subst.apply, Ty.replace_con, Ty.con.injEq] at ht
    rw [huc, Subst.apply, Ty.replace_con, Ty.con.injEq] at hu
    obtain ⟨hnone, hsome⟩ := firstDifference?_zip pairs hlen ht.2 hu.2
    rw [htc, huc, hargs, Ty.difference?, if_pos ⟨rfl, hlen⟩]
    cases hd : Ty.differenceAll? ts us with
    | none => exact (hnone hd).symm
    | some d => exact (hsome d hd).symm

/-- What the first difference is depends on the resolved types only. -/
theorem firstDifference?_congr {s : Subst} :
    ∀ {ps qs : List (Ty × Ty)}, resolved s ps = resolved s qs →
      (firstDifference? s ps = none → firstDifference? s qs = none) ∧
        ∀ d, firstDifference? s ps = some d →
          ∃ right, firstDifference? s qs = some ⟨d.expected, d.actual, right⟩ ∧
            resolved s d.right = resolved s right
  | [], [], _ => by simp [firstDifference?]
  | (t, u) :: ps, (t', u') :: qs, h => by
    simp only [resolved, List.map_cons, List.cons.injEq, Prod.mk.injEq] at h
    obtain ⟨⟨ht, hu⟩, hrest⟩ := h
    rw [firstDifference?, firstDifference?, ht, hu]
    cases Ty.difference? (s.apply t') (s.apply u') with
    | none => exact firstDifference?_congr hrest
    | some d =>
      simp only [Option.some.injEq, forall_eq', reduceCtorEq, false_implies, true_and]
      exact ⟨d.right ++ qs, rfl, by simp [resolved, hrest]⟩

theorem resolved_of_le {s r : Subst} (hr : r.Acyclic) (h : s ≤ r) {ps qs : List (Ty × Ty)}
    (heq : resolved s ps = resolved s qs) : resolved r ps = resolved r qs := by
  have hresolve (ps : List (Ty × Ty)) : resolved r (resolved s ps) = resolved r ps := by
    simp [resolved, hr.apply_apply_of_le h]
  rw [← hresolve ps, heq, hresolve qs]

/-- Pairs that are the same when they are resolved are made equal by the same steps. -/
theorem Solved.congr {ps qs : List (Ty × Ty)} {x : Extension} {r : Result} (h : Solved ps x r)
    (hx : x.subst.Acyclic) (heq : resolved x.subst ps = resolved x.subst qs) : Solved qs x r := by
  induction h generalizing qs with
  | done h => exact .done ((firstDifference?_congr heq).1 h)
  | stuck h he =>
    obtain ⟨right, hright, -⟩ := (firstDifference?_congr heq).2 _ h
    exact .stuck hright he
  | bind h hr hb rest ih =>
    have hrem := (firstDifference?_leads hx h).remedied hx hr hb
    obtain ⟨right, hright, hresolved⟩ := (firstDifference?_congr heq).2 _ h
    have hle := Subst.le_of_bind (bind_subst hb)
    exact .bind hright hr hb (ih hrem.acyclic (resolved_of_le hrem.acyclic hle hresolved))

theorem Solved.of_firstDifference? {ps qs : List (Ty × Ty)} {x : Extension} {r : Result}
    (h : Solved qs x r) (heq : firstDifference? x.subst ps = firstDifference? x.subst qs) :
    Solved ps x r := by
  cases h with
  | done h => exact .done (heq.trans h)
  | stuck h he => exact .stuck (heq.trans h) he
  | bind h hr hb rest => exact .bind (heq.trans h) hr hb rest

/-- A descent removes the differences, one after the other. -/
theorem Descends.solved {pairs : List (Ty × Ty)} {x : Extension} {r : Result}
    (h : Descends pairs x r) (hx : x.subst.Acyclic) : Solved pairs x r := by
  induction h with
  | done x => exact .done rfl
  | @fit t u args pairs x r h rest ih =>
    have hresolved : resolved x.subst (args ++ pairs) =
        resolved x.subst (resolved x.subst args ++ pairs) := by
      simp [resolved, hx.apply_apply]
    exact ((ih hx).congr hx hresolved).of_firstDifference? (firstDifference?_of_fit hx h pairs)
  | stuck h he =>
    rw [hx.apply_head, hx.apply_head] at he
    exact .stuck (firstDifference?_of_unfit hx h _) he
  | @bind _ _ pairs _ _ _ _ _ h hr hb rest ih =>
    rw [hx.apply_head, hx.apply_head] at hr
    have hfirst := firstDifference?_of_unfit hx h pairs
    have hrem := (firstDifference?_leads hx hfirst).remedied hx hr hb
    exact .bind hfirst hr hb (ih hrem.acyclic)
  | @broken _ _ pairs _ _ _ _ h hr hb =>
    rw [hx.apply_head, hx.apply_head] at hr
    have hlead := firstDifference?_leads hx (firstDifference?_of_unfit hx h pairs)
    obtain ⟨x', hb', -⟩ := hlead.exists_remedied hx hr
    cases hb.symm.trans hb'

/-- The differences are removed in one way only. -/
theorem Solved.unique {pairs : List (Ty × Ty)} {x : Extension} {r r' : Result}
    (h : Solved pairs x r) (h' : Solved pairs x r') : r = r' := by
  induction h with
  | done h =>
    cases h' with
    | done _ => rfl
    | stuck h' _ | bind h' _ _ _ => cases h.symm.trans h'
  | stuck h he =>
    cases h' with
    | done h' => cases h.symm.trans h'
    | stuck h' he' =>
      cases h.symm.trans h'
      cases he.symm.trans he'
      rfl
    | bind h' hr' _ _ =>
      cases h.symm.trans h'
      cases he.symm.trans hr'
  | bind h hr hb rest ih =>
    cases h' with
    | done h' => cases h.symm.trans h'
    | stuck h' he' =>
      cases h.symm.trans h'
      cases hr.symm.trans he'
    | bind h' hr' hb' rest' =>
      cases h.symm.trans h'
      cases hr.symm.trans hr'
      cases hb.symm.trans hb'
      exact ih rest'

end Unify

/-! ## The result of unification -/

/-- Unification comes to the result that a descent comes to, and a descent comes to no other. -/
theorem descends_iff {s : Subst} (hs : s.Acyclic) (t u : Ty) (r : Unify.Result) :
    Unify.Descends [(t, u)] (.start s) r ↔ r = unify t u s := by
  have hunique {r : Unify.Result} (h : Unify.Descends [(t, u)] (.start s) r) : r = unify t u s :=
    (h.solved hs).unique (unify_solved hs t u)
  constructor
  · exact hunique
  · rintro rfl
    obtain ⟨r, hr⟩ := Unify.exists_descends [(t, u)] (.start s) hs
    exact hunique hr ▸ hr

/-- Unification is sound.  From an acyclic substitution the descent through the two types ends
and binds no variable twice.  If it succeeds, it has made the types equal, by bindings for variables
of the two resolved types, and the substitution is still acyclic and has kept what it had. -/
theorem unification_sound (t u : Ty) {s : Subst} (hs : s.Acyclic) :
    (∀ r, Unify.Descends [(t, u)] (.start s) r ↔ r = unify t u s) ∧
      (∀ b, (unify t u s).1 ≠ .error (.defect b)) ∧
      ((unify t u s).1 = .ok () →
        Unify.Extends s (unify t u s).2.subst
            ((s.apply t).occurrences ++ (s.apply u).occurrences) ∧
          (unify t u s).2.subst.apply t = (unify t u s).2.subst.apply u) := by
  refine ⟨descends_iff hs t u, unify_not_defect hs t u, fun hok => ?_⟩
  exact ⟨unify_extends hs t u, unify_sound hs t u hok⟩

/-- A substitution with a variable that stands for another one. -/
def Subst.aliasSample : Subst := ⟨(∅ : Std.ExtTreeMap TyVar Ty).insert 0 (.var 1)⟩

theorem Subst.acyclic_aliasSample : aliasSample.Acyclic :=
  acyclic_empty.bind (v := 0) (t := .var 1) (by decide) (by decide) (by simp)

/-- The types `a → b → c` and `Int → d → (b, e)`, where `a` stands for `d`. -/
theorem unification_sound_alias :
    let t : Ty := .fn (.var 0) (.fn (.var 2) (.var 3))
    let u : Ty := .fn .int (.fn (.var 1) (.tuple [.var 2, .var 4]))
    let r := unify t u Subst.aliasSample
    Subst.aliasSample.Acyclic ∧ r.1 = .ok () ∧ r.2.subst.get? 3 = some (.tuple [.int, .var 4]) ∧
      r.2.subst.Acyclic ∧ r.2.subst.apply t = r.2.subst.apply u := by
  intro t u r
  have hok : r.1 = .ok () := by decide
  obtain ⟨-, -, hsound⟩ := unification_sound t u Subst.acyclic_aliasSample
  obtain ⟨hextends, heq⟩ := hsound hok
  exact ⟨Subst.acyclic_aliasSample, hok, by decide, hextends.acyclic, heq⟩

/-- Unification is complete, and its result is most general.  An assignment that solves the
substitution and makes the types equal is a solution of the result, which then is a success, and a
solution of the result is such an assignment.  There is none if unification fails, and then two
constructors differ or a variable would have to contain itself. -/
theorem unification_most_general (t u : Ty) {s : Subst} (hs : s.Acyclic) :
    (∀ θ, s.Solves θ → t.replace θ = u.replace θ →
        (unify t u s).1 = .ok () ∧ (unify t u s).2.subst.Solves θ) ∧
      ((unify t u s).1 = .ok () → ∀ θ, (unify t u s).2.subst.Solves θ →
        s.Solves θ ∧ t.replace θ = u.replace θ) ∧
      ∀ f, (unify t u s).1 = .error f →
        ((∃ expected found, f = .error (.mismatch expected found)) ∨
          ∃ v ty, f = .error (.occurs v ty)) ∧
        ∀ θ, s.Solves θ → t.replace θ ≠ u.replace θ := by
  have hcomplete (θ : TyVar → Ty) (hθ : s.Solves θ) (heq : t.replace θ = u.replace θ) :=
    unify_complete hs t u hθ heq
  refine ⟨hcomplete, fun hok θ hθ => ?_, fun f hf => ⟨?_, fun θ hθ heq => ?_⟩⟩
  · have hsound := congrArg (Ty.replace θ) (unify_sound hs t u hok)
    rw [hθ.replace_apply, hθ.replace_apply] at hsound
    exact ⟨hθ.of_le (unify_extends hs t u).le, hsound⟩
  · cases f with
    | defect b => exact absurd hf (unify_not_defect hs t u b)
    | error e =>
      cases e with
      | mismatch expected found => exact .inl ⟨expected, found, rfl⟩
      | occurs v ty => exact .inr ⟨v, ty, rfl⟩
  · cases hf.symm.trans (hcomplete θ hθ heq).1

/-- The types `a → b` and `d → Int`, where `a` stands for `d`, under an assignment that makes them
equal. -/
theorem unification_most_general_alias :
    let θ : TyVar → Ty := fun v => if v = 2 then .int else .bool
    let t : Ty := .fn (.var 0) (.var 2)
    let u : Ty := .fn (.var 1) .int
    Subst.aliasSample.Acyclic ∧ Subst.aliasSample.Solves θ ∧ t.replace θ = u.replace θ ∧
      (unify t u Subst.aliasSample).1 = .ok () ∧ (unify t u Subst.aliasSample).2.subst.Solves θ := by
  intro θ t u
  have hθ : Subst.aliasSample.Solves θ := by
    intro v r hv
    rw [Subst.aliasSample, Subst.get?, Std.ExtTreeMap.getElem?_insert] at hv
    split at hv
    · rename_i hv0
      cases hv
      cases compare_eq_iff_eq.1 hv0
      rfl
    · simp at hv
  have heq : t.replace θ = u.replace θ := by decide
  obtain ⟨hcomplete, -⟩ := unification_most_general t u Subst.acyclic_aliasSample
  exact ⟨Subst.acyclic_aliasSample, hθ, heq, hcomplete θ hθ heq⟩

end LetPoly
