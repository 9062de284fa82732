import LetPoly.Proofs.Renaming
import LetPoly.Proofs.Spelling
import LetPoly.Ty.Printer

/-!
# Names of type variables

A naming only grows: a name that was given stays, and no two variables get the same.  So the text
of a type does not depend on when it is printed, but only on the names that its variables have in
the end.  `Naming.Shows` says this of a computation, and goes over from the parts of a computation
to the whole.
-/

namespace LetPoly

/-! ## Namings -/

namespace Naming

/-- The position of a variable, if it has a name. -/
def position? (names : Naming) (v : TyVar) : Option Nat := names.positions[v]?

/-- The name that a variable was given. -/
def name? (names : Naming) (v : TyVar) : Option String := (names.position? v).map nth

/-- The position of a variable, and the first one if it has no name. -/
def position (names : Naming) (v : TyVar) : Nat := (names.position? v).getD 0

/-- The name at the position of a variable. -/
def label (names : Naming) : TyVar → String := nth ∘ names.position

/-- The naming in which a variable has a name. -/
def add (names : Naming) (v : TyVar) : Naming := (name v names).2

/-- The naming in which the variables of a list have names, given from the left. -/
def addAll (names : Naming) (vs : List TyVar) : Naming := vs.foldl add names

/-- No two variables have the same position, and all positions are used up from below. -/
structure Distinct (names : Naming) : Prop where
  lt : ∀ {v i}, names.position? v = some i → i < names.positions.size
  eq : ∀ {v w i}, names.position? v = some i → names.position? w = some i → v = w

instance : LE Naming :=
  ⟨fun names names' => ∀ v i, names.position? v = some i → names'.position? v = some i⟩

variable {names names' names'' : Naming} {v w : TyVar} {vs : List TyVar} {i : Nat}

theorem le_refl (names : Naming) : names ≤ names := fun _ _ h => h

theorem le_trans (h : names ≤ names') (h' : names' ≤ names'') : names ≤ names'' :=
  fun v i hv => h' v i (h v i hv)

@[simp] theorem position?_empty (v : TyVar) : empty.position? v = none := by
  simp [position?, empty]

theorem add_of_position? (h : names.position? v = some i) : names.add v = names := by
  unfold add name
  rw [← position?, h]

/-- A variable without a position gets the next one. -/
theorem add_of_none (h : names.position? v = none) :
    names.add v = ⟨names.positions.insert v names.positions.size⟩ := by
  unfold add name
  rw [← position?, h]

theorem position?_add_of_none (h : names.position? v = none) (w : TyVar) :
    (names.add v).position? w = if v = w then some names.positions.size else names.position? w := by
  simp [add_of_none h, position?, Std.ExtTreeMap.getElem?_insert]

/-- A new name takes up one position. -/
theorem size_add_of_none (h : names.position? v = none) :
    (names.add v).positions.size = names.positions.size + 1 := by
  have hmem : v ∉ names.positions := by
    rw [position?, getElem?_eq_none_iff] at h
    exact h
  rw [add_of_none h]
  exact (Std.ExtTreeMap.size_insert).trans (if_neg hmem)

/-- A variable that was named has a position. -/
theorem exists_position?_add (names : Naming) (v : TyVar) :
    ∃ i, (names.add v).position? v = some i := by
  cases h : names.position? v with
  | none => exact ⟨_, (position?_add_of_none h v).trans (if_pos rfl)⟩
  | some i => exact ⟨i, by rw [add_of_position? h, h]⟩

/-- Giving a name keeps the names there are. -/
theorem le_add (names : Naming) (v : TyVar) : names ≤ names.add v := by
  intro w i hw
  cases h : names.position? v with
  | none =>
    have hne : v ≠ w := by
      rintro rfl
      cases h.symm.trans hw
    rw [position?_add_of_none h, if_neg hne, hw]
  | some j => rw [add_of_position? h, hw]

/-- What is returned is the name that the variable has from then on. -/
theorem name_eq (h : names.add v ≤ names') : name v names = (names'.label v, names.add v) := by
  obtain ⟨i, hi⟩ := names.exists_position?_add v
  have hlabel : names'.label v = nth i := by
    rw [label, Function.comp_apply, position, h v i hi, Option.getD_some]
  rw [hlabel]
  cases hv : names.position? v with
  | none =>
    rw [position?_add_of_none hv, if_pos rfl, Option.some.injEq] at hi
    subst hi
    rw [add_of_none hv]
    unfold name
    rw [← position?, hv]
  | some j =>
    rw [add_of_position? hv, hv, Option.some.injEq] at hi
    subst hi
    rw [add_of_position? hv]
    unfold name
    rw [← position?, hv]

theorem addAll_append (names : Naming) (vs ws : List TyVar) :
    names.addAll (vs ++ ws) = (names.addAll vs).addAll ws :=
  List.foldl_append

/-- Giving names keeps the names there are. -/
theorem le_addAll (names : Naming) (vs : List TyVar) : names ≤ names.addAll vs := by
  induction vs generalizing names with
  | nil => exact le_refl names
  | cons v vs ih => exact le_trans (le_add names v) (ih (names.add v))

/-- A variable that was given a name has a position. -/
theorem exists_position?_addAll (names : Naming) (h : v ∈ vs) :
    ∃ i, (names.addAll vs).position? v = some i := by
  induction vs generalizing names with
  | nil => cases h
  | cons w vs ih =>
    rcases List.mem_cons.1 h with rfl | h
    · obtain ⟨i, hi⟩ := names.exists_position?_add v
      exact ⟨i, le_addAll (names.add v) vs v i hi⟩
    · exact ih (names.add w) h

theorem distinct_empty : empty.Distinct where
  lt h := by simp at h
  eq h := by simp at h

/-- A new name is one that no variable has. -/
theorem Distinct.add (h : names.Distinct) (v : TyVar) : (names.add v).Distinct := by
  cases hv : names.position? v with
  | some i => rwa [add_of_position? hv]
  | none =>
    have hsize := size_add_of_none hv
    constructor
    · intro w i hw
      rw [position?_add_of_none hv] at hw
      split at hw
      · cases hw
        omega
      · have := h.lt hw
        omega
    · intro w u i hw hu
      rw [position?_add_of_none hv] at hw hu
      split at hw <;> split at hu
      · rename_i hvw hvu
        rw [← hvw, hvu]
      · cases hw
        exact absurd (h.lt hu) (Nat.lt_irrefl _)
      · cases hu
        exact absurd (h.lt hw) (Nat.lt_irrefl _)
      · exact h.eq hw hu

/-- Names that are given one after the other stay distinct. -/
theorem Distinct.addAll (h : names.Distinct) (vs : List TyVar) : (names.addAll vs).Distinct := by
  induction vs generalizing names with
  | nil => exact h
  | cons v vs ih => exact ih (h.add v)

/-- Where all variables have different positions these can be turned back into variables. -/
theorem Distinct.exists_inverse (h : names.Distinct) :
    ∃ ρ : Nat → TyVar, ∀ v i, names.position? v = some i → ρ i = v := by
  classical
  refine ⟨fun i => if hi : ∃ v, names.position? v = some i then hi.choose else 0, fun v i hv => ?_⟩
  have hi : ∃ w, names.position? w = some i := ⟨v, hv⟩
  exact (dif_pos hi).trans (h.eq hi.choose_spec hv)

/-! ### Names -/

/-- A name is an apostrophe and a letter, and a number from the second alphabet on. -/
theorem toList_nth (i : Nat) :
    (nth i).toList = '\'' :: alphabet.getD (i % 26) 'a' ::
      if i < 26 then [] else Nat.toDigits 10 (i / 26) := by
  have hlength : alphabet.length = 26 := by decide
  unfold nth
  rw [hlength]
  split <;> simp [Nat.toList_repr]

/-- No two positions have the same name. -/
theorem nth_inj {i j : Nat} (h : nth i = nth j) : i = j := by
  have hletters : ∀ a < 26, ∀ b < 26, alphabet.getD a 'a' = alphabet.getD b 'a' → a = b := by
    decide
  have hchars := congrArg String.toList h
  rw [toList_nth, toList_nth, List.cons.injEq, List.cons.injEq] at hchars
  obtain ⟨-, hletter, hnumber⟩ := hchars
  have hmod := hletters _ (Nat.mod_lt i (by decide)) _ (Nat.mod_lt j (by decide)) hletter
  have hdiv : i / 26 = j / 26 := by
    split at hnumber <;> split at hnumber
    · omega
    · exact absurd hnumber.symm Nat.toDigits_ne_nil
    · exact absurd hnumber Nat.toDigits_ne_nil
    · rw [← Nat.ofDigitChars_ten_toDigits (n := i / 26), hnumber, Nat.ofDigitChars_ten_toDigits]
  omega

/-- A name is a word. -/
theorem continuesWord_of_mem_nth {i : Nat} {c : Char} (h : c ∈ (nth i).toList) :
    Piece.continuesWord c = true := by
  have hletters : ∀ a < 26, Piece.continuesWord (alphabet.getD a 'a') = true := by decide
  rw [toList_nth] at h
  rcases List.mem_cons.1 h with rfl | h
  · rfl
  rcases List.mem_cons.1 h with rfl | h
  · exact hletters _ (Nat.mod_lt i (by decide))
  · split at h
    · cases h
    · have hdigit := Nat.isDigit_of_mem_toDigits (by decide) (by decide) h
      rw [Piece.continuesWord, show Piece.isDigit c = true from hdigit]
      simp

end Naming

/-! ## Texts under given names -/

/-- The text of a constructor with arguments, from the texts of the arguments in atomic and in other
positions. -/
def Con.textOf (c : Con) (atomic : Bool) (bases types : List String) : String :=
  match c, bases, types with
  | .fn, [t, _], [_, u] =>
    if atomic then "(" ++ (t ++ " -> " ++ u) ++ ")" else t ++ " -> " ++ u
  | .tuple, _, _ => "(" ++ ", ".intercalate types ++ ")"
  | c, [], _ => c.name
  | c, _, _ => c.name ++ " " ++ " ".intercalate bases

theorem Con.textOf_other {c : Con} {atomic : Bool} {bases types : List String} (htuple : c ≠ .tuple)
    (hnil : bases ≠ []) (hfn : c = .fn → bases.length ≠ 2) :
    c.textOf atomic bases types = c.name ++ " " ++ " ".intercalate bases := by
  unfold textOf
  split
  · exact absurd rfl (hfn rfl)
  · exact absurd rfl htuple
  · exact absurd rfl hnil
  · rfl

namespace Ty

mutual

/-- The text of a type under the given names. -/
def textWith (f : TyVar → String) (atomic : Bool) : Ty → String
  | var v => f v
  | con c args => c.textOf atomic (textAllWith f true args) (textAllWith f false args)

/-- The texts of the types of a list under the given names. -/
def textAllWith (f : TyVar → String) (atomic : Bool) : List Ty → List String
  | [] => []
  | t :: ts => textWith f atomic t :: textAllWith f atomic ts

end

variable {f g : TyVar → String} {names names' : Naming} {t : Ty}

/-- Types are written one by one. -/
theorem textAllWith_eq_map (f : TyVar → String) (atomic : Bool) (ts : List Ty) :
    textAllWith f atomic ts = ts.map (textWith f atomic) := by
  induction ts with
  | nil => rfl
  | cons t ts ih => rw [textAllWith, ih, List.map_cons]

@[simp] theorem textWith_var (f : TyVar → String) (atomic : Bool) (v : TyVar) :
    (var v).textWith f atomic = f v := by
  rw [textWith]

/-- A type is written by its constructor, from the texts of its arguments. -/
theorem textWith_con (f : TyVar → String) (atomic : Bool) (c : Con) (args : List Ty) :
    (con c args).textWith f atomic =
      c.textOf atomic (args.map (textWith f true)) (args.map (textWith f false)) := by
  rw [textWith, textAllWith_eq_map, textAllWith_eq_map]

/-- A renamed type is written as the type with other names for its variables. -/
theorem textWith_rename (f : TyVar → String) (π : TyVar → TyVar) (atomic : Bool) (t : Ty) :
    (t.rename π).textWith f atomic = t.textWith (f ∘ π) atomic := by
  induction t using Ty.inductionOn generalizing atomic with
  | var v => simp [rename]
  | con c args ih =>
    have hargs (b : Bool) :
        (args.map (rename π)).map (textWith f b) = args.map (textWith (f ∘ π) b) := by
      rw [List.map_map]
      exact List.map_congr_left fun a ha => ih a ha b
    rw [rename, replace_con, textWith_con, textWith_con, ← hargs, ← hargs]
    rfl

end Ty

/-! ## Printing -/

/-- The computation names the variables of a list from the left, and its value is what the names
that they have in the end make it. -/
def Naming.Shows {α : Type} (vs : List TyVar) (x : (TyVar → String) → α) (m : StateM Naming α) :
    Prop :=
  ∀ names names' : Naming, names.addAll vs ≤ names' → m names = (x names'.label, names.addAll vs)

namespace Naming.Shows

variable {α β : Type} {vs ws : List TyVar} {x y : (TyVar → String) → α} {m : StateM Naming α}

protected theorem pure (a : α) : Shows [] (fun _ => a) (pure a : StateM Naming α) :=
  fun _ _ _ => rfl

/-- Values are shown one after the other, and the names of the first are kept for the second. -/
protected theorem bind {z : α → (TyVar → String) → β} {k : α → StateM Naming β}
    (hm : Shows vs x m) (hk : ∀ a, Shows ws (z a) (k a)) :
    Shows (vs ++ ws) (fun f => z (x f) f) (m >>= k) := by
  intro names names' hle
  rw [addAll_append] at hle ⊢
  have hfirst := hm names names' (le_trans (le_addAll _ ws) hle)
  simp only [Bind.bind, StateT.bind, hfirst]
  exact hk _ _ _ hle

/-- The value is changed at the end. -/
theorem map (hm : Shows vs x m) (g : α → β) :
    Shows vs (fun f => g (x f)) (do let a ← m; return g a) := by
  have h := hm.bind fun a => Shows.pure (g a)
  rwa [List.append_nil] at h

theorem congr (hm : Shows vs x m) (hvs : vs = ws) (hx : ∀ f, x f = y f) : Shows ws y m := by
  subst hvs
  rwa [← funext hx]

end Naming.Shows

theorem Naming.shows_name (v : TyVar) : Shows [v] (fun f => f v) (name v) :=
  fun _ _ hle => name_eq hle

namespace Ty

/-- Types are shown from the left to the right. -/
theorem shows_printAll {atomic : Bool} {ts : List Ty}
    (h : ∀ t ∈ ts, Naming.Shows t.occurrences (t.textWith · atomic) (t.printAt atomic)) :
    Naming.Shows (ts.flatMap occurrences) (fun f => ts.map (textWith f atomic))
      (printAll atomic ts) := by
  induction ts with
  | nil => exact .pure []
  | cons t ts ih =>
    obtain ⟨ht, hts⟩ := List.forall_mem_cons.1 h
    rw [printAll]
    exact ht.bind fun s => (ih hts).map (s :: ·)

/-- A type is printed under the names that its variables have in the end. -/
theorem shows_printAt (t : Ty) (atomic : Bool) :
    Naming.Shows t.occurrences (t.textWith · atomic) (t.printAt atomic) := by
  induction t using Ty.inductionOn generalizing atomic with
  | var v => exact (Naming.shows_name v).congr rfl fun f => (textWith_var f atomic v).symm
  | con c args ih =>
    have hargs (b : Bool) : Naming.Shows (args.flatMap occurrences)
        (fun f => args.map (textWith f b)) (printAll b args) :=
      shows_printAll fun a ha => ih a ha b
    rw [occurrences_con]
    unfold printAt
    split
    · rename_i heq
      cases heq
    · rename_i t u heq
      cases heq
      have ht := ih t (by simp) true
      have hu := ih u (by simp) false
      exact (ht.bind fun s => hu.map fun r => _).congr (by simp) fun f => by
        simp [textWith_con, Con.textOf]
    · rename_i heq
      cases heq
      exact ((hargs false).map _).congr rfl fun f => by simp [textWith_con, Con.textOf]
    · rename_i heq
      cases heq
      exact .congr (.pure _) rfl fun f => by simp [textWith_con, Con.textOf]
    · rename_i hfn htuple hnil heq
      cases heq
      refine ((hargs true).map _).congr rfl fun f => ?_
      rw [textWith_con, Con.textOf_other htuple (by simpa using hnil)]
      intro hc hlength
      rw [List.length_map, List.length_eq_two] at hlength
      obtain ⟨a, b, rfl⟩ := hlength
      exact hfn a b hc rfl

end Ty

/-- Variables are shown by their names, from the left to the right. -/
theorem Naming.shows_mapM (vs : List TyVar) :
    Shows vs (fun f => vs.map f) (vs.mapM name) := by
  induction vs with
  | nil => exact .pure []
  | cons v vs ih =>
    rw [List.mapM_cons]
    exact (shows_name v).bind fun s => ih.map (s :: ·)

namespace Scheme

/-- The variables of a scheme in the order in which they are printed. -/
def occurrences (σ : Scheme) : List TyVar := σ.vars ++ σ.ty.occurrences

/-- The text of a scheme under the given names. -/
def textWith (f : TyVar → String) (σ : Scheme) : String :=
  if σ.vars.isEmpty then σ.ty.textWith f false
  else "forall " ++ " ".intercalate (σ.vars.map f) ++ ". " ++ σ.ty.textWith f false

/-- A scheme is shown with the names of its variables, the quantified ones first. -/
theorem shows_print (σ : Scheme) : Naming.Shows σ.occurrences (fun f => σ.textWith f) σ.print := by
  unfold print textWith occurrences
  split
  · rename_i hvars
    rw [List.isEmpty_iff.1 hvars]
    exact σ.ty.shows_printAt false
  · exact (Naming.shows_mapM σ.vars).bind fun vars => (σ.ty.shows_printAt false).map _

end Scheme

end LetPoly
