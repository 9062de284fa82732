import LetPoly.Proofs.Printing
import LetPoly.Proofs.SourceNames

/-!
# Texts on one line

No text that a printed tree is made of has a line break in it: no literal, no type and no name.
Quoting takes away the line breaks of string literals, and the names of a tree are words or
operators.
-/

namespace LetPoly

/-- The text has no line break. -/
def Text.OneLine (s : String) : Prop := '\n' ∉ s.toList

instance : DecidablePred Text.OneLine :=
  fun s => inferInstanceAs (Decidable ('\n' ∉ s.toList))

namespace Text

@[simp] theorem oneLine_append {s t : String} : OneLine (s ++ t) ↔ OneLine s ∧ OneLine t := by
  simp [OneLine]

@[simp] theorem oneLine_ofList {cs : List Char} : OneLine (String.ofList cs) ↔ '\n' ∉ cs := by
  simp [OneLine]

theorem OneLine.join {ss : List String} (h : ∀ s ∈ ss, OneLine s) : OneLine (String.join ss) := by
  simpa [OneLine, String.toList_join] using h

theorem OneLine.intercalate {sep : String} {ss : List String} (hsep : OneLine sep)
    (h : ∀ s ∈ ss, OneLine s) : OneLine (sep.intercalate ss) := by
  induction ss with
  | nil => exact List.not_mem_nil
  | cons s ss ih =>
    obtain ⟨hs, hss⟩ := List.forall_mem_cons.1 h
    cases ss with
    | nil =>
      rw [String.intercalate_singleton]
      exact hs
    | cons t ss =>
      rw [String.intercalate_cons_cons, oneLine_append, oneLine_append]
      exact ⟨⟨hs, hsep⟩, ih hss⟩

/-! ## Numbers -/

/-- Digits are no line breaks, in the bases up to sixteen. -/
theorem not_mem_toDigits {b n : Nat} (hb : 1 < b) (hle : b ≤ 16) : '\n' ∉ Nat.toDigits b n := by
  have hdigit : ∀ d < 16, Nat.digitChar d ≠ '\n' := by decide
  induction n using Nat.strongRecOn with
  | ind n ih =>
    rcases Nat.lt_or_ge n b with hn | hn
    · rw [Nat.toDigits_of_lt_base hn, List.mem_singleton]
      exact (hdigit n (by omega)).symm
    · have hmod : n % b < b := Nat.mod_lt n (by omega)
      rw [Nat.toDigits_of_base_le hb hn, List.mem_append, List.mem_singleton, not_or]
      exact ⟨ih (n / b) (Nat.div_lt_self (by omega) hb), (hdigit _ (by omega)).symm⟩

theorem oneLine_repr (n : Nat) : OneLine n.repr := by
  rw [OneLine, Nat.toList_repr]
  exact not_mem_toDigits (by decide) (by decide)

/-- An integer is written in one line, with its sign. -/
theorem oneLine_int (n : Int) : OneLine (toString n) := by
  rw [Int.toString_eq_repr, Int.repr_eq_if]
  split
  · exact oneLine_repr _
  · exact oneLine_append.2 ⟨by decide, oneLine_repr _⟩

end Text

namespace Decimal

/-- The digits of a scaled number come from a natural number. -/
theorem not_mem_ofScaled (n : Nat) (e : Int) : '\n' ∉ (ofScaled n e).digits := by
  intro h
  have hmem := (List.dropWhile_suffix _).subset (List.mem_reverse.1 h)
  exact Text.not_mem_toDigits (by decide) (by decide) (List.mem_reverse.1 hmem)

/-- Refining a number adds digits only. -/
theorem not_mem_refine (i : Interval) (num den : Nat) (e : Int) (left : Nat) :
    '\n' ∉ (refine i num den e left).digits := by
  induction left with
  | zero =>
    rw [refine]
    split <;> exact not_mem_ofScaled _ _
  | succ left ih =>
    rw [refine]
    split
    · exact not_mem_ofScaled _ _
    · exact ih

variable {d : Decimal}

/-- A decimal is written in one line, wherever its point is. -/
theorem oneLine_positional (h : '\n' ∉ d.digits) : Text.OneLine d.positional := by
  have htake (n : Nat) : '\n' ∉ d.digits.take n := fun hmem => h (List.mem_of_mem_take hmem)
  have hdrop (n : Nat) : '\n' ∉ d.digits.drop n := fun hmem => h (List.mem_of_mem_drop hmem)
  unfold positional
  simp only [Text.oneLine_append, Text.oneLine_ofList]
  refine ⟨⟨?_, by decide⟩, ?_⟩
  · split
    · decide
    · simp [htake]
  · split
    · decide
    · simp [hdrop]

theorem oneLine_scientific (h : '\n' ∉ d.digits) : Text.OneLine d.scientific := by
  have htake : '\n' ∉ d.digits.take 1 := fun hmem => h (List.mem_of_mem_take hmem)
  have hdrop : '\n' ∉ d.digits.drop 1 := fun hmem => h (List.mem_of_mem_drop hmem)
  unfold scientific
  simp only [Text.oneLine_append, Text.oneLine_ofList]
  refine ⟨⟨⟨htake, ?_⟩, by decide⟩, Text.oneLine_int _⟩
  split
  · decide
  · exact Text.oneLine_append.2 ⟨by decide, Text.oneLine_ofList.2 hdrop⟩

end Decimal

/-- A floating-point number is written in one line, also if it is infinite or no number. -/
theorem Double.oneLine_text (d : Double) : Text.OneLine d.text := by
  have hdigits : '\n' ∉ (Decimal.shortest d).digits := Decimal.not_mem_refine _ _ _ _ 16
  have hsign : Text.OneLine (if d.isNegative then "-" else "") := by split <;> decide
  unfold text
  split
  · decide
  · dsimp only
    split
    · exact Text.oneLine_append.2 ⟨hsign, by decide⟩
    split
    · exact Text.oneLine_append.2 ⟨hsign, by decide⟩
    refine Text.oneLine_append.2 ⟨hsign, ?_⟩
    split
    · exact Decimal.oneLine_positional hdigits
    · exact Decimal.oneLine_scientific hdigits

namespace Text

/-- A line break is escaped in a quoted text, and no other escape has one. -/
theorem not_mem_quoteChar (c : Char) : '\n' ∉ quoteChar c := by
  unfold quoteChar
  split
  case h_7 hc _ _ =>
    split
    · have hdigits : '\n' ∉ Nat.toDigits 16 c.toNat := not_mem_toDigits (by decide) (by decide)
      simp [hdigits]
    · -- the line break has an escape of its own, so it is not what is left as it is
      rw [List.mem_singleton]
      exact fun h => hc h.symm
  all_goals decide

/-- A quoted text is written in one line. -/
theorem oneLine_quote (s : String) : OneLine (quote s) := by
  have hchars : '\n' ∉ s.toList.flatMap quoteChar := by
    rw [List.mem_flatMap]
    rintro ⟨c, -, hc⟩
    exact not_mem_quoteChar c hc
  simp only [quote, oneLine_append, oneLine_ofList]
  exact ⟨⟨by decide, hchars⟩, by decide⟩

end Text

/-- A literal is written in one line. -/
theorem Literal.oneLine_text (l : Literal) : Text.OneLine l.text := by
  cases l with
  | int n => exact Text.oneLine_append.2 ⟨by decide, Text.oneLine_int n⟩
  | float d => exact Text.oneLine_append.2 ⟨by decide, d.oneLine_text⟩
  | bool b => cases b <;> decide
  | string s => exact Text.oneLine_append.2 ⟨by decide, Text.oneLine_quote s⟩
  | unit => decide

/-! ## Types -/

theorem Con.oneLine_name (c : Con) : Text.OneLine c.name := by cases c <;> decide

/-- A constructor and its arguments are written in one line if the arguments are. -/
theorem Con.oneLine_textOf (c : Con) (atomic : Bool) {bases types : List String}
    (hbases : ∀ s ∈ bases, Text.OneLine s) (htypes : ∀ s ∈ types, Text.OneLine s) :
    Text.OneLine (c.textOf atomic bases types) := by
  unfold textOf
  split
  · rename_i t t' u' u
    have ht : Text.OneLine t := hbases t List.mem_cons_self
    have hu : Text.OneLine u := htypes u (List.mem_cons_of_mem _ List.mem_cons_self)
    have harrow : Text.OneLine (t ++ " -> " ++ u) := by
      simp only [Text.oneLine_append]
      exact ⟨⟨ht, by decide⟩, hu⟩
    split
    · exact Text.oneLine_append.2 ⟨Text.oneLine_append.2 ⟨by decide, harrow⟩, by decide⟩
    · exact harrow
  · simp only [Text.oneLine_append]
    exact ⟨⟨by decide, .intercalate (by decide) htypes⟩, by decide⟩
  · exact c.oneLine_name
  · simp only [Text.oneLine_append]
    exact ⟨⟨c.oneLine_name, by decide⟩, .intercalate (by decide) hbases⟩

namespace TypeExpr

mutual

/-- A written type has the text of a type in one line. -/
theorem oneLine_text : ∀ t : TypeExpr, Text.OneLine t.text
  | prim _ c => c.oneLine_name
  | fn _ t u => by
    have ht := oneLine_text t
    have hu := oneLine_text u
    simp only [text, Text.oneLine_append]
    refine ⟨⟨?_, by decide⟩, hu⟩
    split
    · exact Text.oneLine_append.2 ⟨Text.oneLine_append.2 ⟨by decide, ht⟩, by decide⟩
    · exact ht
  | tuple _ ts => by
    simp only [text, Text.oneLine_append]
    exact ⟨⟨by decide, .intercalate (by decide) (oneLine_textAll ts)⟩, by decide⟩
  | wildcard _ => (by decide : Text.OneLine "_")
  | invalid _ => (by decide : Text.OneLine "<error>")

theorem oneLine_textAll : ∀ ts : List TypeExpr, ∀ s ∈ textAll ts, Text.OneLine s
  | [] => List.forall_mem_nil _
  | t :: ts => List.forall_mem_cons.2 ⟨oneLine_text t, oneLine_textAll ts⟩

end

end TypeExpr

section

variable {f : TyVar → String} (hf : ∀ v, Text.OneLine (f v))

include hf

/-- A type is written in one line if the names of its variables are. -/
theorem Ty.oneLine_textWith (t : Ty) (atomic : Bool) : Text.OneLine (t.textWith f atomic) := by
  induction t using Ty.inductionOn generalizing atomic with
  | var v =>
    rw [textWith_var]
    exact hf v
  | con c args ih =>
    rw [textWith_con]
    exact c.oneLine_textOf atomic (List.forall_mem_map.2 fun a ha => ih a ha true)
      (List.forall_mem_map.2 fun a ha => ih a ha false)

/-- A scheme is written in one line if the names of its variables are. -/
theorem Scheme.oneLine_textWith (σ : Scheme) : Text.OneLine (σ.textWith f) := by
  have hty := Ty.oneLine_textWith hf σ.ty false
  unfold textWith
  split
  · exact hty
  · have hvars : Text.OneLine (" ".intercalate (σ.vars.map f)) :=
      .intercalate (by decide) (List.forall_mem_map.2 fun v _ => hf v)
    simp only [Text.oneLine_append]
    exact ⟨⟨⟨by decide, hvars⟩, by decide⟩, hty⟩

/-! ## Trees -/

theorem Mark.oneLine_textWith (m : Mark) : Text.OneLine (m.textWith f) := by
  unfold textWith
  split
  · exact Text.oneLine_append.2 ⟨by decide, Ty.oneLine_textWith hf _ false⟩
  · decide

theorem Binder.oneLine_textWith {b : Binder} (hb : Text.OneLine b.name) :
    Text.OneLine (b.textWith f) := by
  have hlist {s : String} (hs : Text.OneLine s) :
      Text.OneLine ("[" ++ b.name ++ " : " ++ s ++ "]") := by
    simp only [Text.oneLine_append]
    exact ⟨⟨⟨⟨by decide, hb⟩, by decide⟩, hs⟩, by decide⟩
  unfold textWith
  split
  · exact hlist (Scheme.oneLine_textWith hf _)
  · exact hlist (TypeExpr.oneLine_text _)
  · exact hb

/-- What is shown of an expression apart from its parts is one line, if its own names are. -/
theorem Expr.oneLine_headWith {e : Expr} (he : ∀ x ∈ e.ownNames, Text.OneLine x) :
    Text.OneLine (e.headWith f) := by
  cases e with
  | lit m l => exact l.oneLine_text
  | name m x => exact Text.oneLine_append.2 ⟨by decide, he x List.mem_cons_self⟩
  | lam m p b =>
    exact Text.oneLine_append.2 ⟨by decide, Binder.oneLine_textWith hf (he _ List.mem_cons_self)⟩
  | letIn m b d e =>
    exact Text.oneLine_append.2 ⟨by decide, Binder.oneLine_textWith hf (he _ List.mem_cons_self)⟩
  | anno m e t =>
    exact Text.oneLine_append.2
      ⟨Text.oneLine_append.2 ⟨by decide, TypeExpr.oneLine_text t⟩, by decide⟩
  | app | cond | tuple | invalid =>
    rw [headWith]
    decide

/-- An expression fits into one line, if no name in it has a line break. -/
theorem Expr.oneLine_lineWith {e : Expr} (he : ∀ x ∈ e.names, Text.OneLine x) :
    Text.OneLine (e.lineWith f) := by
  induction e using inductionOnParts with
  | step e ih =>
    rw [names_eq, List.forall_mem_append, List.forall_mem_flatMap] at he
    rw [lineWith_eq]
    simp only [Text.oneLine_append]
    refine ⟨⟨⟨⟨by decide, oneLine_headWith hf he.1⟩, .join ?_⟩, e.mark.oneLine_textWith hf⟩,
      by decide⟩
    refine List.forall_mem_map.2 fun d hd => ?_
    exact Text.oneLine_append.2 ⟨by decide, ih d hd (he.2 d hd)⟩

/-- A declaration fits into one line, if no name in it has a line break. -/
theorem Decl.oneLine_lineWith {d : Decl} (hd : ∀ x ∈ d.names, Text.OneLine x) :
    Text.OneLine (d.lineWith f) := by
  obtain ⟨hname, hbound⟩ := List.forall_mem_cons.1 hd
  simp only [lineWith, Text.oneLine_append]
  exact ⟨⟨⟨⟨by decide, Binder.oneLine_textWith hf hname⟩, by decide⟩,
    Expr.oneLine_lineWith hf hbound⟩, by decide⟩

end

/-! ## Names -/

theorem Text.oneLine_of_inName {x : String} (h : ∀ c ∈ x.toList, Piece.inName c = true) :
    OneLine x := fun hmem => absurd (h _ hmem) (by decide)

theorem Naming.oneLine_label (names : Naming) (v : TyVar) : Text.OneLine (names.label v) :=
  fun hmem => absurd (continuesWord_of_mem_nth hmem) (by decide)

/-- The names of the tree of a source have no line break. -/
theorem oneLine_names_of_parse {file : FileId} {source : String} {p : Program}
    {ds : List Diagnostic} (hparse : parse file (lex file source).1 = .ok (p, ds)) :
    ∀ x ∈ p.names, Text.OneLine x :=
  fun x hx => Text.oneLine_of_inName (inName_of_parse hparse x hx)

end LetPoly
