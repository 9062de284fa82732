import LetPoly.Ty
import Mathlib.Data.List.Basic

/-!
# Variables and replacement

How the variables of a type behave when types are put in their places.  The
occurrences of a type after a replacement are those of what each variable was replaced
by, in order (`Ty.occurrences_replace`).  So a replacement is determined by what it
does to the variables that occur, in both directions (`Ty.replace_congr`,
`Ty.eq_of_replace_eq`), and two replacements one after the other are a single one
(`Ty.replace_replace`).

A variable never equals a type that it is a proper part of, whatever is put in its place
(`Ty.replace_var_ne_of_mem`).  This is what makes an occurs check right.
-/

namespace LetPoly

namespace Ty

/-! ## Occurrences -/

@[simp] theorem occurrences_var (v : TyVar) : (var v).occurrences = [v] := rfl

@[simp] theorem occurrences_con (c : Con) (args : List Ty) :
    (con c args).occurrences = args.flatMap occurrences := by
  rw [occurrences, occurrencesAll_eq_flatMap]

@[simp] theorem replace_var (f : TyVar → Ty) (v : TyVar) : (var v).replace f = f v := rfl

@[simp] theorem replace_con (f : TyVar → Ty) (c : Con) (args : List Ty) :
    (con c args).replace f = con c (args.map (replace f)) := by
  rw [replace, replaceAll_eq_map]

/-- A variable occurs in a type if it is among the occurrences. -/
theorem occurs_iff {v : TyVar} {t : Ty} : t.occurs v = true ↔ v ∈ t.occurrences := by
  induction t using Ty.inductionOn with
  | var w => simp [occurs]
  | con c args ih =>
    simp only [occurs, occursAny_eq_any, List.any_eq_true, occurrences_con, List.mem_flatMap]
    constructor
    · rintro ⟨a, ha, hv⟩
      exact ⟨a, ha, (ih a ha).1 hv⟩
    · rintro ⟨a, ha, hv⟩
      exact ⟨a, ha, (ih a ha).2 hv⟩

/-- What occurs after a replacement is what occurs in the types that were put in. -/
theorem occurrences_replace (f : TyVar → Ty) (t : Ty) :
    (t.replace f).occurrences = t.occurrences.flatMap fun v => (f v).occurrences := by
  induction t using Ty.inductionOn with
  | var v => simp
  | con c args ih =>
    simp only [replace_con, occurrences_con, List.flatMap_map, List.flatMap_assoc]
    exact List.flatMap_congr fun a ha => ih a ha

/-- The variables of a type after a replacement are those of what replaces its variables. -/
theorem mem_occurrences_replace {f : TyVar → Ty} {t : Ty} {v : TyVar} :
    v ∈ (t.replace f).occurrences ↔ ∃ u ∈ t.occurrences, v ∈ (f u).occurrences := by
  rw [occurrences_replace, List.mem_flatMap]

/-! ## Replacements -/

/-- A replacement depends only on what it makes of the variables of the type. -/
theorem replace_congr {f g : TyVar → Ty} {t : Ty} (h : ∀ v ∈ t.occurrences, f v = g v) :
    t.replace f = t.replace g := by
  induction t using Ty.inductionOn with
  | var v => exact h v (by simp)
  | con c args ih =>
    simp only [occurrences_con, List.mem_flatMap] at h
    rw [replace_con, replace_con,
      List.map_congr_left fun a ha => ih a ha fun v hv => h v ⟨a, ha, hv⟩]

/-- Replacements with equal results agree on every variable that occurs. -/
theorem eq_of_replace_eq {f g : TyVar → Ty} {t : Ty} (h : t.replace f = t.replace g) :
    ∀ v ∈ t.occurrences, f v = g v := by
  induction t using Ty.inductionOn with
  | var w =>
    intro v hv
    rw [occurrences_var, List.mem_singleton] at hv
    subst hv
    exact h
  | con c args ih =>
    intro v hv
    rw [occurrences_con, List.mem_flatMap] at hv
    obtain ⟨a, ha, hv⟩ := hv
    simp only [replace_con, con.injEq, true_and, List.map_inj_left] at h
    exact ih a ha (h a ha) v hv

/-- Two replacements are one, which replaces each variable by the replaced replacement. -/
theorem replace_replace (f g : TyVar → Ty) (t : Ty) :
    (t.replace f).replace g = t.replace fun v => (f v).replace g := by
  induction t using Ty.inductionOn with
  | var v => rfl
  | con c args ih =>
    simp only [replace_con, List.map_map, con.injEq, true_and]
    exact List.map_congr_left fun a ha => ih a ha

@[simp] theorem replace_var_self (t : Ty) : t.replace var = t :=
  replace_eq_self fun _ _ => rfl

/-- A type is at least as large as what replaces one of its variables. -/
theorem sizeOf_le_replace {f : TyVar → Ty} {t : Ty} {v : TyVar} (hv : v ∈ t.occurrences) :
    sizeOf (f v) ≤ sizeOf (t.replace f) := by
  induction t using Ty.inductionOn with
  | var w =>
    rw [occurrences_var, List.mem_singleton] at hv
    subst hv
    exact Nat.le_refl _
  | con c args ih =>
    rw [occurrences_con, List.mem_flatMap] at hv
    obtain ⟨a, ha, hv⟩ := hv
    have hle := ih a ha hv
    have hlt := List.sizeOf_lt_of_mem (List.mem_map_of_mem (f := replace f) ha)
    rw [replace_con, con.sizeOf_spec]
    omega

/-- A variable is never made equal to a type that it stands in, other than itself. -/
theorem replace_var_ne_of_mem {f : TyVar → Ty} {t : Ty} {v : TyVar} (hv : v ∈ t.occurrences)
    (hne : t ≠ var v) : f v ≠ t.replace f := by
  intro h
  cases t with
  | var w =>
    rw [occurrences_var, List.mem_singleton] at hv
    subst hv
    exact hne rfl
  | con c args =>
    rw [occurrences_con, List.mem_flatMap] at hv
    obtain ⟨a, ha, hv⟩ := hv
    have hle := sizeOf_le_replace (f := f) hv
    have hlt := List.sizeOf_lt_of_mem (List.mem_map_of_mem (f := replace f) ha)
    have hsize := congrArg sizeOf h
    rw [replace_con, con.sizeOf_spec] at hsize
    omega

/-! ## Functions and tuples -/

@[simp] theorem replace_fn (f : TyVar → Ty) (t u : Ty) :
    (fn t u).replace f = fn (t.replace f) (u.replace f) := by
  simp [fn]

@[simp] theorem replace_tuple (f : TyVar → Ty) (ts : List Ty) :
    (tuple ts).replace f = tuple (ts.map (replace f)) := by
  simp [tuple]

@[simp] theorem occurrences_fn (t u : Ty) :
    (fn t u).occurrences = t.occurrences ++ u.occurrences := by
  simp [fn]

@[simp] theorem occurrences_tuple (ts : List Ty) :
    (tuple ts).occurrences = ts.flatMap occurrences := by
  simp [tuple]

theorem fn_inj {t u t' u' : Ty} : fn t u = fn t' u' ↔ t = t' ∧ u = u' := by
  simp [fn]

theorem tuple_inj {ts us : List Ty} : tuple ts = tuple us ↔ ts = us := by
  simp [tuple]

/-- Only a function type is taken apart as one. -/
theorem fn?_eq_some {r t u : Ty} : r.fn? = some (t, u) ↔ r = fn t u := by
  constructor
  · intro h
    unfold fn? at h
    split at h
    · cases h
      rfl
    · cases h
  · rintro rfl
    rfl

/-- Only a tuple type is taken apart as one. -/
theorem tuple?_eq_some {r : Ty} {ts : List Ty} : r.tuple? = some ts ↔ r = tuple ts := by
  constructor
  · intro h
    unfold tuple? at h
    split at h
    · cases h
      rfl
    · cases h
  · rintro rfl
    rfl

end Ty

/-! ## Variables in order -/

/-- A variable that does not occur can be regarded as seen. -/
theorem firstOccurrences_insert {seen : VarSet} {vs : List TyVar} {w : TyVar} (hw : w ∉ vs) :
    firstOccurrences (seen.insert w) vs = firstOccurrences seen vs := by
  induction vs generalizing seen with
  | nil => rfl
  | cons v vs ih =>
    obtain ⟨hv, hvs⟩ := not_or.1 fun h => hw (List.mem_cons.2 h)
    have hseen : (seen.insert w).contains v = seen.contains v := by
      simp [Std.ExtTreeSet.contains_insert, hv]
    have hcomm : (seen.insert w).insert v = (seen.insert v).insert w :=
      Std.ExtTreeSet.ext_mem fun u => by simp only [Std.ExtTreeSet.mem_insert]; tauto
    rw [firstOccurrences, firstOccurrences, hseen, hcomm, ih hvs, ih hvs]

/-- First occurrences in a part of a list come in the order of the whole. -/
theorem filter_firstOccurrences (seen : VarSet) (vs : List TyVar) (p : TyVar → Bool) :
    (firstOccurrences seen vs).filter p = firstOccurrences seen (vs.filter p) := by
  induction vs generalizing seen with
  | nil => rfl
  | cons v vs ih =>
    by_cases hseen : seen.contains v = true <;> by_cases hp : p v = true
    · rw [firstOccurrences, if_pos hseen, List.filter_cons_of_pos hp, firstOccurrences,
        if_pos hseen,
        ih]
    · rw [firstOccurrences, if_pos hseen, List.filter_cons_of_neg hp, ih]
    · rw [firstOccurrences, if_neg hseen, List.filter_cons_of_pos hp, List.filter_cons_of_pos hp,
        firstOccurrences, if_neg hseen, ih]
    · have hout : v ∉ vs.filter p := fun h => hp (List.mem_filter.1 h).2
      rw [firstOccurrences, if_neg hseen, List.filter_cons_of_neg hp, List.filter_cons_of_neg hp,
        ih,
        firstOccurrences_insert hout]

namespace Ty

theorem mem_vars {t : Ty} {v : TyVar} : v ∈ t.vars ↔ v ∈ t.occurrences := by
  simp [vars, mem_firstOccurrences]

theorem nodup_vars (t : Ty) : t.vars.Nodup := nodup_firstOccurrences _ _

end Ty

end LetPoly
