import LetPoly.Proofs.Naming
import LetPoly.Proofs.ReadBack

/-!
# Reading texts of types

Texts of types are told apart from the left.  A parenthesis begins a tuple or a function type, and
which of the two it is shows behind the first type in it.  A type without an arrow outside of
parentheses goes on if an arrow stands behind it.  So a text determines the type that it begins
with, and what stands behind it (`Ty.Regular.readable`).  Since no two variables share a name, types
that are printed under one naming have equal texts only if they are equal.
-/

namespace LetPoly

/-! ## Regular types -/

namespace Ty

/-- The types that are made of variables, primitive types, functions and tuples of at least two
elements. -/
inductive Regular : Ty → Prop where
  | var (v : TyVar) : Regular (.var v)
  | prim {c : Con} (hc : c ∈ [Con.int, .float, .bool, .string, .unit]) : Regular (.con c [])
  | fn {t u : Ty} (ht : Regular t) (hu : Regular u) : Regular (.fn t u)
  | tuple {ts : List Ty} (hlength : 2 ≤ ts.length) (hts : ∀ t ∈ ts, Regular t) :
      Regular (.tuple ts)

/-- The characters of a type whose variables are positions. -/
def chars (atomic : Bool) (t : Ty) : List Char := (t.textWith Naming.nth atomic).toList

/-- A function type is written with an arrow between its types, the first of which is in parentheses
if need be. -/
theorem chars_fn_false (t u : Ty) (x : List Char) :
    (fn t u).chars false ++ x =
      t.chars true ++ ' ' :: '-' :: '>' :: ' ' :: (u.chars false ++ x) := by
  simp [chars, fn, textWith_con, Con.textOf]

/-- Inside another type a function type is in parentheses. -/
theorem chars_fn_true (t u : Ty) (x : List Char) :
    (fn t u).chars true ++ x = '(' :: ((fn t u).chars false ++ ')' :: x) := by
  simp [chars, fn, textWith_con, Con.textOf]

/-- The characters of the elements of a tuple behind the first. -/
def elemChars (ts : List Ty) : List Char := ts.flatMap fun t => ',' :: ' ' :: t.chars false

/-- A tuple is in parentheses, with commas between its elements. -/
theorem chars_tuple (atomic : Bool) (t : Ty) (ts : List Ty) (x : List Char) :
    (tuple (t :: ts)).chars atomic ++ x = '(' :: (t.chars false ++ (elemChars ts ++ ')' :: x)) := by
  simp [chars, elemChars, tuple, textWith_con, Con.textOf, intercalate_cons, List.flatMap_map]

theorem chars_tuple_eq (atomic : Bool) (ts : List Ty) :
    (tuple ts).chars atomic = (tuple ts).chars true := by
  simp [chars, tuple, textWith_con, Con.textOf]

theorem elemChars_cons (t : Ty) (ts : List Ty) (x : List Char) :
    elemChars (t :: ts) ++ x = ',' :: ' ' :: (t.chars false ++ (elemChars ts ++ x)) := by
  simp [elemChars]

/-- The types whose texts are words. -/
inductive Word : Ty → Prop where
  | var (v : TyVar) : Word (.var v)
  | prim {c : Con} (hc : c ∈ [Con.int, .float, .bool, .string, .unit]) : Word (.con c [])

/-- What may stand behind a type for its text to end there.  Outside of atomic positions no arrow
may follow. -/
structure Ends (atomic : Bool) (cs : List Char) : Prop where
  word : EndsWord cs
  arrow : atomic = false → cs.head? ≠ some ' '

/-- No other regular type has a text that begins the same. -/
def Readable (atomic : Bool) (t : Ty) : Prop :=
  ∀ u, u.Regular → ∀ x y, Ends atomic x → Ends atomic y →
    t.chars atomic ++ x = u.chars atomic ++ y → t = u ∧ x = y

variable {atomic : Bool} {t u : Ty} {ts us : List Ty} {x y : List Char}

theorem Ends.inside (h : Ends atomic x) : Ends true x := ⟨h.word, fun hfalse => by cases hfalse⟩

theorem ends_nil : Ends atomic [] := ⟨by simp [EndsWord], by simp⟩

theorem ends_cons {c : Char} (hword : Piece.continuesWord c = false) (harrow : c ≠ ' ') :
    Ends atomic (c :: x) :=
  ⟨.cons hword, fun _ h => harrow (Option.some.inj h)⟩

/-- In an atomic position an arrow may follow. -/
theorem ends_arrow : Ends true (' ' :: x) := ⟨.cons rfl, fun hfalse => by cases hfalse⟩

/-- Behind an element there is a comma or a parenthesis, which no element goes on with. -/
theorem ends_elems : Ends false (elemChars us ++ ')' :: x) := by
  cases us with
  | nil => exact ends_cons rfl (by decide)
  | cons u us =>
    rw [elemChars_cons]
    exact ends_cons rfl (by decide)

/-! ### Words -/

/-- Two words that end are told apart. -/
theorem word_append_inj {w w' : List Char} (hw : ∀ c ∈ w, Piece.continuesWord c = true)
    (hw' : ∀ c ∈ w', Piece.continuesWord c = true) (hx : EndsWord x) (hy : EndsWord y)
    (h : w ++ x = w' ++ y) : w = w' ∧ x = y := by
  have htake {w z : List Char} (hw : ∀ c ∈ w, Piece.continuesWord c = true) (hz : EndsWord z) :
      (w ++ z).takeWhile Piece.continuesWord = w := by
    rw [List.takeWhile_append_of_pos hw]
    cases z with
    | nil => simp
    | cons c cs => simp [hz c rfl]
  have heq : w = w' := by rw [← htake hw hx, h, htake hw' hy]
  subst heq
  exact ⟨rfl, List.append_cancel_left h⟩

theorem chars_var (atomic : Bool) (v : TyVar) : (var v).chars atomic = (Naming.nth v).toList := by
  simp [chars]

theorem chars_prim {c : Con} (hc : c ∈ [Con.int, .float, .bool, .string, .unit]) (atomic : Bool) :
    (con c []).chars atomic = c.name.toList := by
  simp only [List.mem_cons, List.not_mem_nil, or_false] at hc
  rcases hc with rfl | rfl | rfl | rfl | rfl <;> simp [chars, textWith_con, Con.textOf]

/-- A word is written in the same way everywhere. -/
theorem Word.chars_eq (h : t.Word) (atomic : Bool) : t.chars atomic = t.chars true := by
  cases h with
  | var v => rw [chars_var, chars_var]
  | prim hc => rw [chars_prim hc, chars_prim hc]

/-- A word is made of characters of words. -/
theorem Word.continuesWord (h : t.Word) : ∀ c ∈ t.chars true, Piece.continuesWord c = true := by
  cases h with
  | var v =>
    rw [chars_var]
    exact fun c => Naming.continuesWord_of_mem_nth
  | prim hc =>
    rw [chars_prim hc]
    simp only [List.mem_cons, List.not_mem_nil, or_false] at hc
    rcases hc with rfl | rfl | rfl | rfl | rfl <;> exact List.all_eq_true.1 rfl

/-- No variable is written like a primitive type. -/
theorem toList_nth_ne_prim (v : TyVar) {c : Con}
    (hc : c ∈ [Con.int, .float, .bool, .string, .unit]) :
    (Naming.nth v).toList ≠ c.name.toList := by
  have hfirst : ∀ c ∈ [Con.int, .float, .bool, .string, .unit],
      c.name.toList.head? ≠ some '\'' := by
    decide
  rw [Naming.toList_nth]
  exact fun h => hfirst c hc (by rw [← h]; rfl)

/-- A word can be read off its text. -/
theorem Word.inj (ht : t.Word) (hu : u.Word) (h : t.chars true = u.chars true) : t = u := by
  cases ht with
  | var v =>
    cases hu with
    | var w =>
      rw [chars_var, chars_var] at h
      exact congrArg _ (Naming.nth_inj (String.toList_inj.1 h))
    | prim hd =>
      rw [chars_var, chars_prim hd] at h
      exact absurd h (toList_nth_ne_prim v hd)
  | prim hc =>
    cases hu with
    | var w =>
      rw [chars_var, chars_prim hc] at h
      exact absurd h.symm (toList_nth_ne_prim w hc)
    | prim hd =>
      have hnames : ∀ c ∈ [Con.int, .float, .bool, .string, .unit],
          ∀ d ∈ [Con.int, .float, .bool, .string, .unit],
            c.name.toList = d.name.toList → c = d := by
        decide
      rw [chars_prim hc, chars_prim hd] at h
      rw [hnames _ hc _ hd h]

theorem Word.chars_ne_nil (h : t.Word) : t.chars true ≠ [] := by
  cases h with
  | var v =>
    rw [chars_var, Naming.toList_nth]
    exact List.cons_ne_nil _ _
  | prim hc =>
    rw [chars_prim hc]
    simp only [List.mem_cons, List.not_mem_nil, or_false] at hc
    rcases hc with rfl | rfl | rfl | rfl | rfl <;> decide

/-- No word begins with a parenthesis. -/
theorem Word.append_ne_group (h : t.Word) : t.chars true ++ x ≠ '(' :: y := by
  intro heq
  obtain ⟨c, cs, hchars⟩ := List.exists_cons_of_ne_nil h.chars_ne_nil
  have hc := h.continuesWord c (hchars ▸ List.mem_cons_self ..)
  rw [hchars, List.cons_append, List.cons.injEq] at heq
  rw [heq.1] at hc
  exact absurd hc (by decide)

/-! ### Functions and tuples -/

/-- What is no word is a function type or a tuple. -/
theorem Regular.cases_word (h : u.Regular) :
    u.Word ∨ (∃ a b, u = Ty.fn a b ∧ Regular a ∧ Regular b) ∨
      ∃ a b as, u = Ty.tuple (a :: b :: as) ∧ ∀ t ∈ a :: b :: as, Regular t := by
  cases h with
  | var v => exact .inl (.var v)
  | prim hc => exact .inl (.prim hc)
  | fn ha hb => exact .inr (.inl ⟨_, _, rfl, ha, hb⟩)
  | @tuple ts hlength hts =>
    match ts, hlength with
    | a :: b :: as, _ => exact .inr (.inr ⟨a, b, as, rfl, hts⟩)

/-- A word can be read off a text that goes on with something else. -/
theorem Word.readable (h : t.Word) : t.Readable true := by
  intro u hu x y hx hy heq
  rcases hu.cases_word with hword | ⟨a, b, rfl, -⟩ | ⟨a, b, as, rfl, -⟩
  · obtain ⟨hchars, hrest⟩ :=
      word_append_inj h.continuesWord hword.continuesWord hx.word hy.word heq
    exact ⟨h.inj hword hchars, hrest⟩
  · rw [chars_fn_true] at heq
    exact absurd heq h.append_ne_group
  · rw [chars_tuple] at heq
    exact absurd heq h.append_ne_group

/-- A type whose text is the same in all positions is told apart from function types by the arrow
that does not follow. -/
theorem Readable.of_atomic (h : t.Readable true) (hchars : t.chars false = t.chars true) :
    ∀ atomic, t.Readable atomic := by
  intro atomic
  cases atomic with
  | true => exact h
  | false => ?_
  intro u hu x y hx hy heq
  have hother (hu' : u.chars false = u.chars true) : t = u ∧ x = y := by
    rw [hchars, hu'] at heq
    exact h u hu x y hx.inside hy.inside heq
  rcases hu.cases_word with hword | ⟨a, b, rfl, ha, hb⟩ | ⟨a, b, as, rfl, -⟩
  · exact hother (hword.chars_eq false)
  · rw [hchars, chars_fn_false] at heq
    obtain ⟨-, rfl⟩ := h a ha x _ hx.inside ends_arrow heq
    exact absurd rfl (hx.arrow rfl)
  · exact hother (chars_tuple_eq false _)

/-- An arrow can be read off a text if both of its types can. -/
theorem Readable.fn (ht : t.Readable true) (hu : u.Readable false) :
    (Ty.fn t u).Readable false := by
  intro r hr x y hx hy heq
  rw [chars_fn_false] at heq
  have hother (hr' : r.chars false = r.chars true) : Ty.fn t u = r ∧ x = y := by
    rw [hr'] at heq
    obtain ⟨-, rfl⟩ := ht r hr _ y ends_arrow hy.inside heq
    exact absurd rfl (hy.arrow rfl)
  rcases hr.cases_word with hword | ⟨a, b, rfl, ha, hb⟩ | ⟨a, b, as, rfl, -⟩
  · exact hother (hword.chars_eq false)
  · rw [chars_fn_false] at heq
    obtain ⟨rfl, hrest⟩ := ht a ha _ _ ends_arrow ends_arrow heq
    simp only [List.cons.injEq, true_and] at hrest
    obtain ⟨rfl, hxy⟩ := hu b hb x y hx hy hrest
    exact ⟨rfl, hxy⟩
  · exact hother (chars_tuple_eq false _)

/-- Behind the first type in parentheses a function type ends and a tuple goes on. -/
theorem Readable.group (h : (Ty.fn t u).Readable false) : (Ty.fn t u).Readable true := by
  intro r hr x y _ _ heq
  rw [chars_fn_true] at heq
  have hends {z : List Char} : Ends false (')' :: z) := ends_cons rfl (by decide)
  rcases hr.cases_word with hword | ⟨a, b, rfl, -⟩ | ⟨a, b, as, rfl, hts⟩
  · exact absurd heq.symm hword.append_ne_group
  · rw [chars_fn_true, List.cons.injEq] at heq
    obtain ⟨hfn, hrest⟩ := h _ hr _ _ hends hends heq.2
    exact ⟨hfn, (List.cons.inj hrest).2⟩
  · rw [chars_tuple, List.cons.injEq] at heq
    obtain ⟨-, hrest⟩ := h a (hts a (List.mem_cons_self ..)) _ _ hends ends_elems heq.2
    rw [elemChars_cons] at hrest
    cases hrest

/-- Elements can be read off a text one after the other. -/
theorem readable_elems (hts : ∀ t ∈ ts, t.Readable false) (hus : ∀ u ∈ us, u.Regular)
    (heq : elemChars ts ++ ')' :: x = elemChars us ++ ')' :: y) : ts = us ∧ x = y := by
  induction ts generalizing us with
  | nil =>
    cases us with
    | nil => exact ⟨rfl, (List.cons.inj heq).2⟩
    | cons u us =>
      rw [elemChars_cons] at heq
      cases heq
  | cons t ts ih =>
    rw [elemChars_cons] at heq
    cases us with
    | nil => cases heq
    | cons u us =>
      obtain ⟨ht, hts'⟩ := List.forall_mem_cons.1 hts
      obtain ⟨hu, hus'⟩ := List.forall_mem_cons.1 hus
      rw [elemChars_cons] at heq
      simp only [List.cons.injEq, true_and] at heq
      obtain ⟨rfl, hrest⟩ := ht u hu _ _ ends_elems ends_elems heq
      obtain ⟨rfl, hxy⟩ := ih hts' hus' hrest
      exact ⟨rfl, hxy⟩

/-- A tuple can be read off a text if its elements can. -/
theorem readable_tuple (h : ∀ r ∈ t :: u :: ts, r.Readable false) :
    (tuple (t :: u :: ts)).Readable true := by
  obtain ⟨ht, hts⟩ := List.forall_mem_cons.1 h
  intro r hr x y _ _ heq
  rw [chars_tuple] at heq
  rcases hr.cases_word with hword | ⟨a, b, rfl, -⟩ | ⟨a, b, as, rfl, has⟩
  · exact absurd heq.symm hword.append_ne_group
  · rw [chars_fn_true, List.cons.injEq] at heq
    obtain ⟨-, hrest⟩ := ht _ hr _ _ ends_elems (ends_cons rfl (by decide)) heq.2
    rw [elemChars_cons] at hrest
    cases hrest
  · rw [chars_tuple, List.cons.injEq] at heq
    obtain ⟨ha, has'⟩ := List.forall_mem_cons.1 has
    obtain ⟨rfl, hrest⟩ := ht a ha _ _ ends_elems ends_elems heq.2
    obtain ⟨hts', hxy⟩ := readable_elems hts has' hrest
    exact ⟨congrArg (fun ts => tuple (t :: ts)) hts', hxy⟩

/-- The text of a regular type determines it and what stands behind. -/
theorem Regular.readable (h : t.Regular) (atomic : Bool) : t.Readable atomic := by
  have hword {t : Ty} (ht : t.Word) : ∀ atomic, t.Readable atomic :=
    ht.readable.of_atomic (ht.chars_eq false)
  induction h generalizing atomic with
  | var v => exact hword (.var v) atomic
  | prim hc => exact hword (.prim hc) atomic
  | fn _ _ iht ihu =>
    have hfn := (iht true).fn (ihu false)
    cases atomic with
    | true => exact hfn.group
    | false => exact hfn
  | @tuple ts hlength _ ih =>
    obtain ⟨t, u, ts, rfl⟩ : ∃ t u us, ts = t :: u :: us := by
      match ts, hlength with
      | t :: u :: us, _ => exact ⟨t, u, us, rfl⟩
    have htuple := readable_tuple fun r hr => ih r hr false
    exact htuple.of_atomic (chars_tuple_eq false _) atomic

/-! ### Renaming -/

theorem Regular.rename (h : t.Regular) (π : TyVar → TyVar) : (t.rename π).Regular := by
  induction h with
  | var v => exact .var (π v)
  | prim hc =>
    rw [Ty.rename, replace_con]
    exact .prim hc
  | fn _ _ iht ihu =>
    rw [Ty.rename, replace_fn]
    exact .fn iht ihu
  | tuple hlength _ ih =>
    rw [Ty.rename, replace_tuple]
    refine .tuple (by rwa [List.length_map]) fun r hr => ?_
    obtain ⟨t, ht, rfl⟩ := List.mem_map.1 hr
    exact ih t ht

/-- Under a naming that names all their variables, regular types with the same text are equal. -/
theorem Regular.eq_of_textWith_label {names : Naming} (hnames : names.Distinct) (ht : t.Regular)
    (hu : u.Regular) (hvars : ∀ v ∈ t.occurrences ++ u.occurrences, ∃ i, names.position? v = some i)
    (h : t.textWith names.label false = u.textWith names.label false) : t = u := by
  obtain ⟨ρ, hρ⟩ := hnames.exists_inverse
  have hback (r : Ty) (hr : ∀ v ∈ r.occurrences, ∃ i, names.position? v = some i) :
      (r.rename names.position).rename ρ = r := by
    rw [rename_rename]
    refine rename_eq_self fun v hv => ?_
    obtain ⟨i, hi⟩ := hr v hv
    rw [Function.comp_apply, Naming.position, hi]
    exact hρ v i hi
  have hchars : (t.rename names.position).chars false = (u.rename names.position).chars false := by
    rw [chars, chars, textWith_rename, textWith_rename]
    exact congrArg String.toList h
  obtain ⟨hrenamed, -⟩ := (ht.rename names.position).readable false _ (hu.rename names.position)
    [] [] ends_nil ends_nil (by rw [hchars])
  rw [← hback t fun v hv => hvars v (List.mem_append_left _ hv), hrenamed,
    hback u fun v hv => hvars v (List.mem_append_right _ hv)]

end Ty

/-! ## Sequences of calls -/

namespace Naming

/-- A call that prints under a naming. -/
inductive Call where
  | type (t : Ty)
  | scheme (σ : Scheme)
  | var (v : TyVar)

/-- What a call does. -/
def Call.run : Call → StateM Naming String
  | type t => t.print
  | scheme σ => σ.print
  | var v => name v

/-- The variables that a call prints. -/
def Call.occurrences : Call → List TyVar
  | type t => t.occurrences
  | scheme σ => σ.occurrences
  | var v => [v]

/-- The naming after calls, one after the other. -/
def after (names : Naming) (calls : List Call) : Naming :=
  calls.foldl (fun names call => (call.run names).2) names

/-- A call names what it prints. -/
theorem Call.run_snd (call : Call) (names : Naming) :
    (call.run names).2 = names.addAll call.occurrences := by
  have hprint {vs : List TyVar} {x : (TyVar → String) → String} {m : StateM Naming String}
      (h : Shows vs x m) : (m names).2 = names.addAll vs := by
    rw [h names _ (le_refl _)]
  cases call with
  | type t => exact hprint (t.shows_printAt false)
  | scheme σ => exact hprint σ.shows_print
  | var v => exact hprint (shows_name v)

/-- After some calls all variables that were printed have names. -/
theorem after_eq (names : Naming) (calls : List Call) :
    names.after calls = names.addAll (calls.flatMap Call.occurrences) := by
  induction calls generalizing names with
  | nil => rfl
  | cons call calls ih =>
    rw [List.flatMap_cons, addAll_append, ← call.run_snd]
    exact ih _

end Naming

/-- Shared names are faithful.  After any sequence of calls on one naming, a call for a variable
returns the name that it has from then on, names that were given stay the same whatever is called
later, different variables have different names, and printing two types one after the other gives
equal texts exactly if the types are equal. -/
theorem shared_names_faithful (calls later : List Naming.Call) :
    let names := Naming.empty.after calls
    (∀ v, (Naming.name v names).2.name? v = some (Naming.name v names).1) ∧
    (∀ v x, names.name? v = some x → (names.after later).name? v = some x) ∧
    (∀ v w x, names.name? v = some x → names.name? w = some x → v = w) ∧
    ∀ t u : Ty, t.Regular → u.Regular →
      ((t.print names).1 = (u.print (t.print names).2).1 ↔ t = u) := by
  intro names
  have hdistinct : names.Distinct := by
    rw [show names = _ from Naming.after_eq _ _]
    exact Naming.distinct_empty.addAll _
  refine ⟨fun v => ?_, fun v x hx => ?_, fun v w x hv hw => ?_, fun t u ht hu => ?_⟩
  · obtain ⟨i, hi⟩ := names.exists_position?_add v
    rw [Naming.name_eq (Naming.le_refl _), Naming.name?, hi, Naming.label, Function.comp_apply,
      Naming.position, hi]
    rfl
  · obtain ⟨i, hi, rfl⟩ := Option.map_eq_some_iff.1 hx
    rw [Naming.after_eq, Naming.name?, Naming.le_addAll _ _ v i hi]
    rfl
  · obtain ⟨i, hi, rfl⟩ := Option.map_eq_some_iff.1 hv
    obtain ⟨j, hj, hji⟩ := Option.map_eq_some_iff.1 hw
    obtain rfl := Naming.nth_inj hji
    exact hdistinct.eq hi hj
  · let final := (names.addAll t.occurrences).addAll u.occurrences
    have htext := t.shows_printAt false names final (Naming.le_addAll _ _)
    have hutext := u.shows_printAt false (names.addAll t.occurrences) final (Naming.le_refl _)
    rw [Ty.print, htext, Ty.print, hutext]
    constructor
    · intro heq
      have hvars : ∀ v ∈ t.occurrences ++ u.occurrences, ∃ i, final.position? v = some i := by
        intro v hv
        rw [show final = _ from (Naming.addAll_append _ _ _).symm]
        exact Naming.exists_position?_addAll _ hv
      exact ht.eq_of_textWith_label ((hdistinct.addAll _).addAll _) hu hvars heq
    · rintro rfl
      rfl

/-- After thirty variables the types `(d → c₁) → (e₁, Int)` and `d → c₁ → (e₁, Int)` are printed. -/
theorem shared_names_faithful_sample :
    let names := Naming.empty.after ((List.range 30).map .var)
    let t : Ty := .fn (.fn (.var 3) (.var 28)) (.tuple [.var 31, .int])
    let u : Ty := .fn (.var 3) (.fn (.var 28) (.tuple [.var 31, .int]))
    t.Regular ∧ u.Regular ∧ (t.print names).1 = "('d -> 'c1) -> ('e1, Int)" ∧
      (t.print names).1 ≠ (u.print (t.print names).2).1 := by
  intro names t u
  have hpair : (Ty.tuple [.var 31, .int]).Regular :=
    .tuple (by decide) (by simpa using ⟨.var 31, .prim (by decide)⟩)
  have ht : t.Regular := .fn (.fn (.var 3) (.var 28)) hpair
  have hu : u.Regular := .fn (.var 3) (.fn (.var 28) hpair)
  obtain ⟨-, -, -, htexts⟩ := shared_names_faithful ((List.range 30).map .var) []
  exact ⟨ht, hu, by decide +kernel, fun heq => absurd ((htexts t u ht hu).1 heq) (by decide)⟩

end LetPoly
