import LetPoly.Proofs.Nesting
import LetPoly.Proofs.Spelling
import LetPoly.Proofs.Phases
import LetPoly.Proofs.Spans
import LetPoly.Ty.Printer

/-!
# Printed types read back

The text of a type without variables is the text of an annotation that stands for the type.  The
way back goes from the text to its tokens and from the tokens to a tree.  Both steps are followed at
once, by induction on the type.  The text is exactly as deep as the tree, so whether the
parser has levels enough for it can be told from the type.
-/

namespace LetPoly

/-! ## Types that can be written -/

namespace Ty

/-- The types that are made of primitive types, functions and tuples of at least two elements. -/
inductive Ground : Ty → Prop where
  | prim {c : Con} (hc : c ∈ [Con.int, .float, .bool, .string, .unit]) : Ground (.con c [])
  | fn {t u : Ty} (ht : Ground t) (hu : Ground u) : Ground (.fn t u)
  | tuple {ts : List Ty} (hlength : 2 ≤ ts.length) (hts : ∀ t ∈ ts, Ground t) : Ground (.tuple ts)

mutual

/-- The way a type is written. -/
def written : Ty → TypeExpr
  | con .fn [t, u] => .fn .nowhere (written t) (written u)
  | con .tuple ts => .tuple .nowhere (writtenAll ts)
  | con c _ => .prim .nowhere c
  | var _ => .wildcard .nowhere

/-- The way each type of a list is written. -/
def writtenAll : List Ty → List TypeExpr
  | [] => []
  | t :: ts => written t :: writtenAll ts

end

@[simp] theorem writtenAll_eq_map (ts : List Ty) : writtenAll ts = ts.map written := by
  induction ts with
  | nil => rfl
  | cons t ts ih => simp [writtenAll, ih]

@[simp] theorem written_fn (t u : Ty) : (Ty.fn t u).written = .fn .nowhere t.written u.written := by
  simp [Ty.fn, written]

@[simp] theorem written_tuple (ts : List Ty) :
    (Ty.tuple ts).written = .tuple .nowhere (ts.map written) := by
  simp [Ty.tuple, written]

/-- A primitive type is written by its name. -/
theorem written_prim {c : Con} (hc : c ∈ [Con.int, .float, .bool, .string, .unit]) :
    (con c []).written = .prim .nowhere c ∧ (c.name, c) ∈ TypeExpr.primitives := by
  simp only [List.mem_cons, List.not_mem_nil, or_false] at hc
  rcases hc with rfl | rfl | rfl | rfl | rfl <;> exact ⟨by simp [written], by decide⟩

end Ty

namespace TypeExpr

/-- The text of a written type that stands for a nonterminal.  As a base type a function type is in
parentheses. -/
def textAs : TypeSort → TypeExpr → String
  | .type, t => t.text
  | .base, t => if t.isFn then "(" ++ t.text ++ ")" else t.text

/-- The parameter of an arrow is in parentheses if it is a function type. -/
theorem text_fn (s : Span) (t u : TypeExpr) :
    (fn s t u).text = t.textAs .base ++ " -> " ++ u.text := by
  simp [text, textAs]

theorem text_unplaced (t : TypeExpr) : t.unplaced.text = t.text := by
  rw [unplaced_eq_mapSpans, text_mapSpans]

theorem lower_unplaced (t : TypeExpr) : t.unplaced.lower = t.lower := by
  rw [unplaced_eq_mapSpans, lower_mapSpans]

end TypeExpr

/-! ## Two texts and two types -/

namespace Ty.Ground

variable {t : Ty}

/-- The way a type is written stands for the type. -/
theorem lower_written (h : t.Ground) : t.written.lower = pure t := by
  induction h with
  | prim hc =>
    rw [(written_prim hc).1]
    rfl
  | fn _ _ iht ihu => simp [TypeExpr.lower, iht, ihu]
  | @tuple ts _ _ ih =>
    have hts : TypeExpr.lowerAll (ts.map written) = pure ts := by
      clear * - ih
      induction ts with
      | nil => rfl
      | cons t ts ihts =>
        obtain ⟨ht, hts⟩ := List.forall_mem_cons.1 ih
        simp [TypeExpr.lowerAll, ht, ihts hts]
    simp [TypeExpr.lower, hts]

/-- A type is printed the way it is written, and takes no names. -/
theorem printAt_eq (h : t.Ground) (k : TypeSort) :
    t.printAt (k == .base) = pure (t.written.textAs k) := by
  induction h generalizing k with
  | prim hc =>
    rw [(written_prim hc).1]
    simp only [List.mem_cons, List.not_mem_nil, or_false] at hc
    cases k <;> rcases hc with rfl | rfl | rfl | rfl | rfl <;> rfl
  | @fn t u _ _ iht ihu =>
    have ht : t.printAt true = pure (t.written.textAs .base) := iht .base
    have hu : u.printAt false = pure u.written.text := ihu .type
    rw [written_fn]
    cases k <;> simp [Ty.fn, printAt, ht, hu, TypeExpr.textAs, TypeExpr.text, TypeExpr.isFn]
  | @tuple ts _ _ ih =>
    have hts : printAll false ts = pure ((ts.map written).map TypeExpr.text) := by
      clear * - ih
      induction ts with
      | nil => rfl
      | cons t ts ihts =>
        obtain ⟨ht, hts⟩ := List.forall_mem_cons.1 ih
        have ht : t.printAt false = pure t.written.text := ht .type
        simp [printAll, ht, ihts hts]
    rw [written_tuple]
    cases k <;> simp [Ty.tuple, printAt, hts, TypeExpr.textAs, TypeExpr.text, TypeExpr.isFn]

theorem text_written (h : t.Ground) : t.written.text = t.text :=
  (congrArg (fun print => (print .empty).1) (h.printAt_eq .type)).symm

end Ty.Ground

/-! ## From texts to tokens and trees -/

theorem intercalate_cons {α : Type} (sep a : List α) (as : List (List α)) :
    sep.intercalate (a :: as) = a ++ as.flatMap (sep ++ ·) := by
  induction as generalizing a with
  | nil => simp
  | cons b as ih =>
    rw [List.intercalate_cons_cons, ih b]
    simp

theorem Spells.arrow {cs : List Char} {ts : List Token} (h : Spells cs ts) :
    Spells (' ' :: '-' :: '>' :: ' ' :: cs) (.punctuation .arrow :: ts) :=
  .blank (.symbol rfl (.blank h))

namespace TypeExpr

variable {f : FileId} {k : TypeSort} {t u : TypeExpr} {ts us : List Token}

/-- The text of a written type is read back as these tokens, and the tokens as the type. -/
structure ReadsBack (f : FileId) (k : TypeSort) (t : TypeExpr) (ts : List Token) : Prop where
  /-- The tokens of the text. -/
  spells : ∀ {rest us}, EndsWord rest → Spells rest us →
    Spells ((t.textAs k).toList ++ rest) (ts ++ us)
  /-- The tokens derive the type. -/
  derives : Derives k ts t
  /-- The parser finds it. -/
  measured : Measured f k ts t

/-- A primitive type is read back from its name. -/
theorem readsBack_prim {c : Con} (hc : c ∈ [Con.int, .float, .bool, .string, .unit]) :
    ReadsBack f .base (.prim .nowhere c) [.name c.name] where
  spells hrest h := by
    simp only [List.mem_cons, List.not_mem_nil, or_false] at hc
    rcases hc with rfl | rfl | rfl | rfl | rfl <;>
      exact .word (by decide) (List.all_eq_true.1 rfl) hrest h
  derives := .prim (Ty.written_prim hc).2
  measured := measured_prim (Ty.written_prim hc).2

/-- What is no function type needs no parentheses. -/
theorem ReadsBack.of_base (h : ReadsBack f .base t ts) (hfn : t.isFn = false) :
    ReadsBack f .type t ts where
  spells hrest hus := by
    have := h.spells hrest hus
    rwa [textAs, hfn, if_neg Bool.false_ne_true] at this
  derives := .base h.derives
  measured := measured_base hfn h.measured

/-- A function type stands in parentheses. -/
theorem ReadsBack.group (h : ReadsBack f .type t ts) (hfn : t.isFn = true) :
    ReadsBack f .base t (.punctuation .groupOpen :: ts ++ [.punctuation .groupClose]) where
  spells hrest hus := by
    have := (h.spells (.cons rfl) hus.groupClose).groupOpen
    simpa [textAs, hfn] using this
  derives := .group h.derives
  measured := measured_group hfn h.derives h.measured

/-- An arrow is read back if both of its types are. -/
theorem ReadsBack.fn (ht : ReadsBack f .base t ts) (hu : ReadsBack f .type u us) :
    ReadsBack f .type (.fn .nowhere t u) (ts ++ .punctuation .arrow :: us) where
  spells hrest hvs := by
    have := ht.spells (.cons rfl) (hu.spells hrest hvs).arrow
    simpa [textAs, text_fn] using this
  derives := .fn ht.derives hu.derives
  measured := measured_fn ht.measured hu.measured

/-- Types separated by commas are spelled as their tokens with commas between them. -/
theorem spells_commas {xs : List (Phrase TypeExpr)}
    (h : ∀ x ∈ xs, ReadsBack f .type x.value x.tokens) {rest : List Char} {vs : List Token}
    (hrest : EndsWord rest) (hvs : Spells rest vs) :
    EndsWord ((xs.flatMap fun x => ", ".toList ++ x.value.text.toList) ++ rest) ∧
      Spells ((xs.flatMap fun x => ", ".toList ++ x.value.text.toList) ++ rest)
        (Phrase.commas xs ++ vs) := by
  induction xs with
  | nil => exact ⟨hrest, hvs⟩
  | cons x xs ih =>
    obtain ⟨hx, hxs⟩ := List.forall_mem_cons.1 h
    obtain ⟨hends, hspells⟩ := ih hxs
    have := ((hx.spells hends hspells).blank).comma
    rw [Phrase.commas_cons_append]
    exact ⟨.cons rfl, by simpa [textAs] using this⟩

/-- A tuple is read back if its elements are. -/
theorem readsBack_tuple {x : Phrase TypeExpr} {xs : List (Phrase TypeExpr)} (hne : xs ≠ [])
    (hx : ReadsBack f .type x.value x.tokens)
    (hxs : ∀ y ∈ xs, ReadsBack f .type y.value y.tokens) :
    ReadsBack f .base (.tuple .nowhere (x.value :: xs.map (·.value)))
      (.punctuation .groupOpen :: x.tokens ++ Phrase.commas xs ++ [.punctuation .groupClose]) where
  spells hrest hvs := by
    obtain ⟨hends, hspells⟩ := spells_commas hxs (.cons rfl) hvs.groupClose
    have := (hx.spells hends hspells).groupOpen
    simpa [textAs, text, isFn, intercalate_cons, List.flatMap_map] using this
  derives := .tuple hne hx.derives fun y hy => (hxs y hy).derives
  measured := measured_tuple hne hx.derives hx.measured fun y hy => (hxs y hy).measured

end TypeExpr

/-- The text of every type that can be written is read back as the way the type is written. -/
theorem Ty.Ground.readsBack {t : Ty} (h : t.Ground) (f : FileId) (k : TypeSort) :
    ∃ ts, TypeExpr.ReadsBack f k t.written ts := by
  induction h generalizing k with
  | prim hc =>
    rw [(written_prim hc).1]
    have hbase := TypeExpr.readsBack_prim (f := f) hc
    cases k with
    | base => exact ⟨_, hbase⟩
    | type => exact ⟨_, hbase.of_base rfl⟩
  | fn _ _ iht ihu =>
    obtain ⟨ts, ht⟩ := iht .base
    obtain ⟨us, hu⟩ := ihu .type
    rw [written_fn]
    cases k with
    | type => exact ⟨_, ht.fn hu⟩
    | base => exact ⟨_, (ht.fn hu).group rfl⟩
  | @tuple ts hlength _ ih =>
    obtain ⟨t, u, ts, rfl⟩ : ∃ t u us, ts = t :: u :: us := by
      match ts, hlength with
      | t :: u :: us, _ => exact ⟨t, u, us, rfl⟩
    have hphrases : ∀ t' ∈ t :: u :: ts, ∃ us, TypeExpr.ReadsBack f .type t'.written us :=
      fun t' ht' => ih t' ht' .type
    choose! tokens htokens using hphrases
    let phrase (t' : Ty) : Phrase TypeExpr := ⟨tokens t', t'.written⟩
    obtain ⟨ht, hts⟩ := List.forall_mem_cons.1 htokens
    have hne : (u :: ts).map phrase ≠ [] := by simp
    have hbase := TypeExpr.readsBack_tuple (x := phrase t) hne ht (by simpa [phrase] using hts)
    have hvalues : ((u :: ts).map phrase).map (·.value) = (u :: ts).map written := by
      simp [phrase, Function.comp_def]
    rw [hvalues] at hbase
    rw [written_tuple]
    cases k with
    | base => exact ⟨_, hbase⟩
    | type => exact ⟨_, hbase.of_base rfl⟩

/-- The tokens of a declaration of `x` with an annotation. -/
theorem spells_annotated {text : String} {ts : List Token}
    (h : ∀ {rest us}, EndsWord rest → Spells rest us → Spells (text.toList ++ rest) (ts ++ us)) :
    Spells ("let x : " ++ text ++ " = ()").toList
      (.keyword .letWord :: .name "x" :: .punctuation .colon ::
        (ts ++ .punctuation .equal :: [.punctuation .groupOpen, .punctuation .groupClose])) := by
  have hbound : Spells [' ', '=', ' ', '(', ')']
      (.punctuation .equal :: [.punctuation .groupOpen, .punctuation .groupClose]) :=
    .blank (.symbol rfl (.blank (.groupOpen (.groupClose .nil))))
  have hanno := (h (.cons rfl) hbound).blank
  have hname :
      Spells (['x'] ++ ' ' :: ':' :: ' ' :: (text.toList ++ [' ', '=', ' ', '(', ')'])) _ :=
    .word (by decide) (List.all_eq_true.1 rfl) (.cons rfl) (.blank (.symbol rfl hanno))
  have hlet : Spells (['l', 'e', 't'] ++ ' ' :: _) _ :=
    .word (by decide) (List.all_eq_true.1 rfl) (.cons rfl) hname.blank
  have hkeyword : Piece.readWord "let" = .keyword .letWord := rfl
  have hx : Piece.readWord "x" = .name "x" := rfl
  simpa [hkeyword, hx] using hlet

/-- Printed types read back.  A type of primitive types, functions and tuples is printed as a
text that can stand in an annotation.  It is lexed and parsed without diagnostics, the annotation
stands for the type, and its text is the same.  Only if the type is nested too deeply for the
parser, that is reported and nothing else. -/
theorem printed_type_reads_back (file : FileId) {t : Ty} (ht : t.Ground) :
    let source := "let x : " ++ t.text ++ " = ()"
    (lex file source).2 = [] ∧ ∃ d ds, parse file (lex file source).1 = .ok ([d], ds) ∧
      (maxDepth ≤ t.written.nesting ∧ ds.map (·.code) = ["EP07"] ∨
        t.written.nesting < maxDepth ∧ ds = [] ∧ d.binder.name = "x" ∧
          ∃ a, d.binder.anno = some a ∧ (∀ n, a.lower n = (t, n)) ∧ a.text = t.text) := by
  obtain ⟨ts, hts⟩ := ht.readsBack file .type
  have hspells : Spells ("let x : " ++ t.text ++ " = ()").toList _ :=
    spells_annotated fun hrest hus => by
      rw [← ht.text_written]
      exact hts.spells hrest hus
  obtain ⟨htokens, hlexed⟩ := hspells.lex file
  have hunit : Expr.Derives .expr [.punctuation .groupOpen, .punctuation .groupClose]
      (.lit .nowhere .unit) := .of_sum (.of_operand .add (.of_operand .mul (.of_base .unit)))
  obtain ⟨d, ds, hparse, hfits, hdeep⟩ :=
    parse_annotated hts.measured hunit (by decide) (lex_file file _) htokens
  refine ⟨hlexed, d, ds, hparse, ?_⟩
  by_cases hnesting : t.written.nesting < maxDepth
  · obtain ⟨hds, hd⟩ := hfits hnesting
    obtain ⟨a, ha, hunplaced⟩ := Option.map_eq_some_iff.1 (congrArg (·.binder.anno) hd)
    refine .inr ⟨hnesting, hds, congrArg (·.binder.name) hd, a, ha, fun n => ?_, ?_⟩
    · rw [← a.lower_unplaced, hunplaced, ht.lower_written]
      rfl
    · rw [← a.text_unplaced, hunplaced, ht.text_written]
  · obtain ⟨span, rfl⟩ := hdeep hnesting
    exact .inl ⟨Nat.not_lt.1 hnesting, rfl⟩

/-- The type `(Int -> Bool) -> (Unit, String)`. -/
def Ty.readBackSample : Ty :=
  .fn (.fn (.con .int []) (.con .bool [])) (.tuple [.con .unit [], .con .string []])

/-- The sample is made of primitive types, functions and tuples. -/
theorem Ty.ground_readBackSample : readBackSample.Ground := by
  have hprim (c : Con) (hc : c ∈ [Con.int, .float, .bool, .string, .unit]) :
      (Ty.con c []).Ground := .prim hc
  exact .fn (.fn (hprim _ (by decide)) (hprim _ (by decide)))
    (.tuple (by decide) (by simpa using ⟨hprim _ (by decide), hprim _ (by decide)⟩))

/-- The text of the sample is read back as an annotation that stands for it. -/
theorem printed_type_reads_back_sample : Ty.readBackSample.Ground ∧
    ∃ d, parse 0 (lex 0 "let x : (Int -> Bool) -> (Unit, String) = ()").1 = .ok ([d], []) ∧
      ∃ a, d.binder.anno = some a ∧ ∀ n, a.lower n = (Ty.readBackSample, n) := by
  have htext : Ty.readBackSample.text = "(Int -> Bool) -> (Unit, String)" := by decide +kernel
  have hnesting : Ty.readBackSample.written.nesting = 2 := by decide
  have h := printed_type_reads_back 0 Ty.ground_readBackSample
  rw [htext, hnesting] at h
  obtain ⟨-, d, ds, hparse, ⟨hdeep, -⟩ | ⟨-, rfl, -, a, ha, hlower, -⟩⟩ := h
  · exact absurd hdeep (by decide)
  · exact ⟨Ty.ground_readBackSample, d, hparse, a, ha, hlower⟩

end LetPoly
