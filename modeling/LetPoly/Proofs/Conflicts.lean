import LetPoly.Proofs.Descent

/-!
# Where unification fails

Unification fails at a position of the two types.  The types are resolved with all that was
solved up to then, and they agree above the position and to the left of it.  At the position
itself stand two constructors that do not fit, or a variable and a larger type in which the
variable occurs (`unification_fails_leftmost`).

While pairs are made equal, the list of those that are left has nothing that stands to the left of
an earlier difference.  But nothing is lost with it: once a difference is removed, the leftmost
difference of two types is the leftmost one of the pairs to the right of the removed one
(`Unify.leftmost?_right`), whatever is solved later.  So the difference at which unification stops
is the leftmost one of the two types, too.
-/

namespace LetPoly

/-! ## Positions -/

namespace Ty

/-- The arguments of a type. -/
def args : Ty → List Ty
  | var _ => []
  | con _ ts => ts

/-- The part of a type at a position, which is given by the numbers of the arguments on the way
down. -/
def at? : Ty → List Nat → Option Ty
  | t, [] => some t
  | t, i :: p =>
    match t.args[i]? with
    | some a => a.at? p
    | none => none

theorem at?_con (c : Con) {ts : List Ty} {i : Nat} {a : Ty} (h : ts[i]? = some a) (p : List Nat) :
    (con c ts).at? (i :: p) = a.at? p := by
  rw [at?, args, h]

end Ty

/-- A position stands to the left of another one: where their ways part, it takes the argument
further left. -/
inductive LeftOf : List Nat → List Nat → Prop where
  | here {i j : Nat} {q p : List Nat} (h : i < j) : LeftOf (i :: q) (j :: p)
  | deeper {i : Nat} {q p : List Nat} (h : LeftOf q p) : LeftOf (i :: q) (i :: p)

/-- Two types have the parts `a` and `b` at a position, and agree above the position and to the left
of it. -/
structure PartAt (t u : Ty) (p : List Nat) (a b : Ty) : Prop where
  /-- The part of the first type. -/
  first : t.at? p = some a
  /-- The part of the second type. -/
  second : u.at? p = some b
  /-- Above the position stand the same constructors with as many arguments. -/
  above : ∀ q, q <+: p → q ≠ p → ∃ c ts us,
    t.at? q = some (.con c ts) ∧ u.at? q = some (.con c us) ∧ ts.length = us.length
  /-- To the left of the position stand the same parts. -/
  left : ∀ q, LeftOf q p → t.at? q = u.at? q

namespace PartAt

theorem here (t u : Ty) : PartAt t u [] t u where
  first := rfl
  second := rfl
  above _ hq hne := absurd (List.prefix_nil.1 hq) hne
  left _ hq := nomatch hq

/-- Types part where their arguments part, if the arguments further left are equal. -/
theorem arg {c : Con} {ts us : List Ty} {i : Nat} {t u a b : Ty} {p : List Nat}
    (hlen : ts.length = us.length) (ht : ts[i]? = some t) (hu : us[i]? = some u)
    (hleft : ∀ j < i, ts[j]? = us[j]?) (h : PartAt t u p a b) :
    PartAt (.con c ts) (.con c us) (i :: p) a b where
  first := (Ty.at?_con c ht p).trans h.first
  second := (Ty.at?_con c hu p).trans h.second
  above q hq hne := by
    cases q with
    | nil => exact ⟨c, ts, us, rfl, rfl, hlen⟩
    | cons j q =>
      obtain ⟨rfl, hprefix⟩ := List.cons_prefix_cons.1 hq
      rw [Ty.at?_con c ht, Ty.at?_con c hu]
      exact h.above q hprefix fun heq => hne (congrArg _ heq)
  left q hq := by
    cases hq with
    | @here j _ q _ hj => rw [Ty.at?, Ty.at?, Ty.args, Ty.args, hleft j hj]
    | @deeper _ q _ hq =>
      rw [Ty.at?_con c ht, Ty.at?_con c hu]
      exact h.left q hq

end PartAt

/-! ## The leftmost difference -/

/-- A difference is the leftmost one in pairs of types, which are read side by side. -/
inductive Difference.LeftmostIn : Difference → List (Ty × Ty) → Prop where
  | here (t u : Ty) : LeftmostIn ⟨t, u, []⟩ [(t, u)]
  | append {d : Difference} {ps : List (Ty × Ty)} (h : LeftmostIn d ps) (qs : List (Ty × Ty)) :
      LeftmostIn { d with right := d.right ++ qs } (ps ++ qs)
  | cons {d : Difference} {ps : List (Ty × Ty)} (t : Ty) (h : LeftmostIn d ps) :
      LeftmostIn d ((t, t) :: ps)
  | con {d : Difference} {ts us : List Ty} (c : Con) (hlen : ts.length = us.length)
      (h : LeftmostIn d (ts.zip us)) : LeftmostIn d [(.con c ts, .con c us)]

namespace Ty

/-- The first difference of two lists is the leftmost. -/
theorem leftmostIn_of_differenceAll? :
    ∀ {ts us : List Ty}, ts.length = us.length →
      (∀ t ∈ ts, ∀ u d, difference? t u = some d → d.LeftmostIn [(t, u)]) →
      ∀ d, differenceAll? ts us = some d → d.LeftmostIn (ts.zip us)
  | [], [], _, _, _, h => nomatch h
  | t :: ts, u :: us, hlen, hargs, d, h => by
    rw [differenceAll?] at h
    cases hd : difference? t u with
    | some d₀ =>
      rw [hd] at h
      cases h
      exact (hargs t (List.mem_cons_self ..) u d₀ hd).append (ts.zip us)
    | none =>
      rw [hd] at h
      obtain rfl := (t.compares u).1 hd
      exact .cons t (leftmostIn_of_differenceAll? (by simpa using hlen)
        (fun a ha => hargs a (List.mem_cons_of_mem t ha)) d h)

/-- The first difference of two types is the leftmost. -/
theorem leftmostIn_of_difference? (t : Ty) :
    ∀ u d, difference? t u = some d → d.LeftmostIn [(t, u)] := by
  induction t using Ty.inductionOn with
  | var v =>
    intro u d h
    rw [difference?] at h
    split at h
    · cases h
    · cases h
      exact .here _ _
  | con c ts ih =>
    intro u d h
    cases u with
    | var w =>
      rw [difference?] at h
      cases h
      exact .here _ _
    | con c' us =>
      rw [difference?] at h
      split at h
      · rename_i hfit
        obtain ⟨rfl, hlen⟩ := hfit
        exact .con c hlen (leftmostIn_of_differenceAll? hlen ih d h)
      · cases h
        exact .here _ _

end Ty

/-- A pair of types parts at the leftmost difference, and the pairs before it are pairs of equal
types. -/
theorem Difference.LeftmostIn.partAt {d : Difference} {pairs : List (Ty × Ty)}
    (h : d.LeftmostIn pairs) :
    ∃ (i : Nat) (t u : Ty) (p : List Nat), pairs[i]? = some (t, u) ∧
      (∀ j < i, ∃ a, pairs[j]? = some (a, a)) ∧ PartAt t u p d.expected d.actual := by
  induction h with
  | here t u => exact ⟨0, t, u, [], rfl, fun j hj => absurd hj (Nat.not_lt_zero j), .here t u⟩
  | @append d ps _ qs ih =>
    obtain ⟨i, t, u, p, hi, hleft, hp⟩ := ih
    have hlt : i < ps.length := (List.getElem?_eq_some_iff.1 hi).1
    refine ⟨i, t, u, p, by rwa [List.getElem?_append_left hlt], fun j hj => ?_, hp⟩
    rw [List.getElem?_append_left (Nat.lt_trans hj hlt)]
    exact hleft j hj
  | cons t _ ih =>
    obtain ⟨i, a, b, p, hi, hleft, hp⟩ := ih
    refine ⟨i + 1, a, b, p, hi, fun j hj => ?_, hp⟩
    cases j with
    | zero => exact ⟨t, rfl⟩
    | succ j => exact hleft j (Nat.lt_of_succ_lt_succ hj)
  | @con d ts us c hlen _ ih =>
    obtain ⟨i, t, u, p, hi, hleft, hp⟩ := ih
    obtain ⟨ht, hu⟩ := List.getElem?_zip_eq_some.1 hi
    refine ⟨0, _, _, i :: p, rfl, fun j hj => absurd hj (Nat.not_lt_zero j), ?_⟩
    refine hp.arg hlen ht hu fun j hj => ?_
    obtain ⟨a, ha⟩ := hleft j hj
    obtain ⟨hta, hua⟩ := List.getElem?_zip_eq_some.1 ha
    exact hta.trans hua.symm

/-- The sides of a difference stand at the same position of both types. -/
theorem Ty.partAt_of_difference? {t u : Ty} {d : Difference} (h : difference? t u = some d) :
    ∃ p, PartAt t u p d.expected d.actual := by
  obtain ⟨i, a, b, p, hi, -, hp⟩ := (t.leftmostIn_of_difference? u d h).partAt
  cases i with
  | zero =>
    cases hi
    exact ⟨p, hp⟩
  | succ => cases hi

/-! ## Removing differences -/

/-- The two types of a difference. -/
def Difference.sides (d : Difference) : Ty × Ty := (d.expected, d.actual)

theorem Ty.difference?_self (t : Ty) : difference? t t = none := by
  cases hd : difference? t t with
  | none => rfl
  | some d =>
    have hsplit := (t.compares t).2 d hd
    have hunifies := (hsplit.unifies_iff var).1 fun p hp => by rw [List.mem_singleton.1 hp]
    rw [replace_var_self, replace_var_self] at hunifies
    exact absurd hunifies.1 hsplit.ne

namespace Unify

/-- The two types at the leftmost difference in pairs of types. -/
def leftmost? (pairs : List (Ty × Ty)) : Option (Ty × Ty) :=
  pairs.findSome? fun p => (Ty.difference? p.1 p.2).map Difference.sides

/-- Puts a type in the place of every variable of pairs of types. -/
def replacePairs (θ : TyVar → Ty) (pairs : List (Ty × Ty)) : List (Ty × Ty) :=
  pairs.map fun p => (p.1.replace θ, p.2.replace θ)

theorem leftmost?_cons (t u : Ty) (pairs : List (Ty × Ty)) :
    leftmost? ((t, u) :: pairs) =
      ((Ty.difference? t u).map Difference.sides).or (leftmost? pairs) := by
  rw [leftmost?, List.findSome?_cons]
  cases Ty.difference? t u <;> rfl

/-- What is leftmost in a list of equations is so in its first part, or else in the second. -/
theorem leftmost?_append (ps qs : List (Ty × Ty)) :
    leftmost? (ps ++ qs) = (leftmost? ps).or (leftmost? qs) :=
  List.findSome?_append

theorem sides_differenceAll? : ∀ {ts us : List Ty}, ts.length = us.length →
    (Ty.differenceAll? ts us).map Difference.sides = leftmost? (ts.zip us)
  | [], [], _ => rfl
  | t :: ts, u :: us, hlen => by
    rw [Ty.differenceAll?, List.zip_cons_cons, leftmost?_cons,
      ← sides_differenceAll? (by simpa using hlen)]
    cases Ty.difference? t u <;> rfl

/-- The leftmost difference of two applied constructors is that of their arguments. -/
theorem leftmost?_con (c : Con) {ts us : List Ty} (hlen : ts.length = us.length) :
    leftmost? [(.con c ts, .con c us)] = leftmost? (ts.zip us) := by
  rw [leftmost?_cons, Ty.difference?, if_pos ⟨rfl, hlen⟩, sides_differenceAll? hlen]
  exact Option.or_none

/-- The difference that is solved next is the leftmost one of the resolved equations. -/
theorem sides_firstDifference? (s : Subst) : ∀ pairs : List (Ty × Ty),
    (firstDifference? s pairs).map Difference.sides = leftmost? (resolved s pairs)
  | [] => rfl
  | (t, u) :: pairs => by
    rw [firstDifference?, resolved, List.map_cons, leftmost?_cons, ← resolved,
      ← sides_firstDifference? s pairs]
    cases Ty.difference? (s.apply t) (s.apply u) <;> rfl

/-- Once the leftmost difference in pairs is removed, the leftmost one is to the right of it. -/
theorem leftmost?_right {θ : TyVar → Ty} {d : Difference} {pairs : List (Ty × Ty)}
    (h : d.LeftmostIn pairs) (heq : d.expected.replace θ = d.actual.replace θ) :
    leftmost? (replacePairs θ pairs) = leftmost? (replacePairs θ d.right) := by
  induction h with
  | here t u =>
    dsimp only at heq
    rw [replacePairs, List.map_singleton, leftmost?_cons, heq, Ty.difference?_self]
    rfl
  | append _ qs ih =>
    rw [replacePairs, replacePairs, List.map_append, List.map_append, leftmost?_append,
      leftmost?_append, ← replacePairs, ih heq]
    rfl
  | cons t _ ih =>
    rw [← ih heq, replacePairs, List.map_cons, leftmost?_cons, Ty.difference?_self]
    rfl
  | @con d ts us c hlen _ ih =>
    have hlen' : (ts.map (Ty.replace θ)).length = (us.map (Ty.replace θ)).length := by
      simpa using hlen
    rw [← ih heq, replacePairs, List.map_singleton, Ty.replace_con, Ty.replace_con,
      leftmost?_con c hlen', List.zip_map]
    rfl

/-- The first difference under a substitution is the leftmost one in pairs that become the same when
more is solved. -/
theorem leftmostIn_of_firstDifference? {s r : Subst} (hr : r.Acyclic) (hle : s ≤ r) :
    ∀ {pairs : List (Ty × Ty)} {d : Difference}, firstDifference? s pairs = some d →
      ∃ qs, d.LeftmostIn qs ∧ resolved r qs = resolved r pairs
  | [], _, h => nomatch h
  | (t, u) :: rest, d, h => by
    have happly := hr.apply_apply_of_le hle
    rw [firstDifference?] at h
    cases hd : Ty.difference? (s.apply t) (s.apply u) with
    | some d₀ =>
      rw [hd] at h
      cases h
      have hleft := ((s.apply t).leftmostIn_of_difference? (s.apply u) d₀ hd).append rest
      exact ⟨_, hleft, by simp [resolved, happly]⟩
    | none =>
      rw [hd] at h
      have heq := ((s.apply t).compares (s.apply u)).1 hd
      obtain ⟨qs, hleft, hqs⟩ := leftmostIn_of_firstDifference? hr hle h
      have hu : r.apply (s.apply t) = r.apply u := by rw [heq, happly]
      exact ⟨(s.apply t, s.apply t) :: qs, .cons _ hleft,
        congrArg₂ List.cons (Prod.ext (happly t) hu) hqs⟩

/-- Where unification stops, the leftmost difference of the pairs it began with has no remedy. -/
theorem Solved.leftmost {pairs : List (Ty × Ty)} {x : Extension} {r : Result}
    (h : Solved pairs x r) (hx : x.subst.Acyclic) {f : Fault UnifyError} (hf : r.1 = .error f) :
    ∃ e a b, f = .error e ∧ leftmost? (resolved r.2.subst pairs) = some (a, b) ∧
      remedy a b = .error e := by
  induction h with
  | done => cases hf
  | @stuck pairs x d e h he =>
    cases hf
    refine ⟨e, d.expected, d.actual, rfl, ?_, he⟩
    rw [← sides_firstDifference?, h]
    rfl
  | @bind pairs x x' d v t r h hr hb rest ih =>
    have hrem := (firstDifference?_leads hx h).remedied hx hr hb
    obtain ⟨e, a, b, hfe, hleft, he⟩ := ih hrem.acyclic hf
    obtain ⟨hacyclic, hle, -⟩ := rest.extends hrem.acyclic
    have hle' : x.subst ≤ x'.subst := Subst.le_of_bind (bind_subst hb)
    obtain ⟨qs, hqs, hresolved⟩ :=
      leftmostIn_of_firstDifference? hacyclic (Subst.le_trans hle' hle) h
    refine ⟨e, a, b, hfe, ?_, he⟩
    rw [← hresolved, ← hleft]
    refine leftmost?_right hqs ((hrem.unifies_iff _).2 ?_)
    exact hacyclic.apply_of_get?_eq_some (hle v t (by rw [hrem.get?, if_pos rfl]))

end Unify

/-! ## Errors -/

/-- An error is about the two types at a position: they are constructors that do not fit, or one of
them is a variable that occurs in the other one without being it. -/
inductive UnifyError.About : UnifyError → Ty → Ty → Prop where
  | mismatch {c d : Con} {ts us : List Ty} (h : c ≠ d ∨ ts.length ≠ us.length) :
      About (.mismatch (.con c ts) (.con d us)) (.con c ts) (.con d us)
  | expected {v : TyVar} {t : Ty} (hv : v ∈ t.occurrences) (hne : t ≠ .var v) :
      About (.occurs v t) (.var v) t
  | found {v : TyVar} {t : Ty} (hv : v ∈ t.occurrences) (hne : t ≠ .var v) :
      About (.occurs v t) t (.var v)

/-- Binding a variable fails only if it occurs in the type. -/
theorem Unify.binding_eq_error {v : TyVar} {t : Ty} {e : UnifyError} (h : binding v t = .error e) :
    e = .occurs v t ∧ v ∈ t.occurrences := by
  unfold binding at h
  split at h
  · rename_i hocc
    cases h
    exact ⟨rfl, Ty.occurs_iff.1 hocc⟩
  · cases h

/-- A difference without a remedy is what the error is about. -/
theorem Difference.Splits.about {d : Difference} {pairs : List (Ty × Ty)} {e : UnifyError}
    (h : d.Splits pairs) (he : Unify.remedy d.expected d.actual = .error e) :
    e.About d.expected d.actual := by
  have hne := h.ne
  have hclash := h.clash
  generalize d.expected = a at he hne hclash
  generalize d.actual = b at he hne hclash
  cases a with
  | var v =>
    obtain ⟨rfl, hv⟩ := Unify.binding_eq_error he
    exact .expected hv hne.symm
  | con c ts =>
    cases b with
    | var w =>
      obtain ⟨rfl, hw⟩ := Unify.binding_eq_error he
      exact .found hw hne
    | con c' us =>
      cases he
      exact .mismatch (not_and_or.1 (hclash c ts c' us rfl rfl))

/-- Unification fails at the leftmost conflict.  If it fails, then the two types, resolved with
what had been solved by then, agree above a position and to the left of it, and the error is about
what stands at the position. -/
theorem unification_fails_leftmost (t u : Ty) {s : Subst} (hs : s.Acyclic) {f : Fault UnifyError}
    (hf : (unify t u s).1 = .error f) :
    ∃ e σ p a b, f = .error e ∧
      Unify.Extends s σ ((s.apply t).occurrences ++ (s.apply u).occurrences) ∧
      PartAt (σ.apply t) (σ.apply u) p a b ∧ e.About a b := by
  obtain ⟨e, a, b, rfl, hleft, he⟩ := (unify_solved hs t u).leftmost hs hf
  rw [Unify.resolved, List.map_singleton, Unify.leftmost?_cons] at hleft
  obtain ⟨d, hd, hsides⟩ := Option.map_eq_some_iff.1 (hleft.symm.trans Option.or_none).symm
  cases hsides
  obtain ⟨p, hp⟩ := Ty.partAt_of_difference? hd
  exact ⟨e, _, p, _, _, rfl, unify_extends hs t u, hp, ((Ty.compares _ _).2 d hd).about he⟩

/-- The types `a → (b, b)` and `Int → (d, Bool)`, where `a` stands for `d`.  What is solved on the
way makes `d` and then `b` an integer type, so they conflict at the second `b`. -/
theorem unification_fails_leftmost_alias :
    let t : Ty := .fn (.var 0) (.tuple [.var 2, .var 2])
    let u : Ty := .fn .int (.tuple [.var 1, .bool])
    Subst.aliasSample.Acyclic ∧
      (unify t u Subst.aliasSample).1 = .error (.error (.mismatch .int .bool)) ∧
      ∃ σ p, Subst.aliasSample ≤ σ ∧ σ.Acyclic ∧ PartAt (σ.apply t) (σ.apply u) p .int .bool := by
  intro t u
  have hf : (unify t u Subst.aliasSample).1 = .error (.error (.mismatch .int .bool)) := by decide
  obtain ⟨e, σ, p, a, b, he, hextends, hp, habout⟩ :=
    unification_fails_leftmost t u Subst.acyclic_aliasSample hf
  cases he
  cases habout
  exact ⟨Subst.acyclic_aliasSample, hf, σ, p, hextends.le, hextends.acyclic, hp⟩

end LetPoly
