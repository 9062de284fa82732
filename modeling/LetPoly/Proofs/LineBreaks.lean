import LetPoly.Proofs.OneLine
import LetPoly.Proofs.Programs

/-!
# Line breaks

The width decides which lines of a printed tree are broken, and nothing else.  Every text of a tree
has one of a few shapes (`Expr.Laid`, `Decl.Laid`, `Program.Laid`): an expression stands on one
line, or each of its parts begins a new line that is indented by how deep the part is.  Taking the
line breaks and the indentation out again gives the same line for all widths.

What a document can look like is first said for documents of any kind (`Doc.Lays`), without the
width and the column that the choice depends on.
-/

namespace LetPoly

/-! ## Documents -/

namespace Doc

/-- The text of a document without line breaks. -/
def flatText (d : Doc) : String := String.join d.flat

section

variable (a b d : Doc)

@[simp] theorem flatText_empty : empty.flatText = "" := rfl

@[simp] theorem flatText_ofString (s : String) : (ofString s).flatText = s := by
  simp [flatText, ofString, flat]

@[simp] theorem flatText_line : line.flatText = " " := by simp [flatText, flat]

@[simp] theorem flatText_append : (a ++ b).flatText = a.flatText ++ b.flatText :=
  String.join_append

@[simp] theorem flatText_nest (n : Nat) : (nest n d).flatText = d.flatText := rfl

@[simp] theorem flatText_group : (group d).flatText = d.flatText := rfl

/-- Without line breaks documents are written one after the other. -/
theorem flatText_concat (ds : List Doc) :
    (concat ds).flatText = String.join (ds.map flatText) := by
  induction ds with
  | nil => rfl
  | cons d ds ih =>
    have happend : (concat (d :: ds)).flatText = d.flatText ++ (concat ds).flatText :=
      flatText_append d (concat ds)
    rw [happend, ih, List.map_cons, String.join_cons]

end

/-- The document has the text at the given indentation, for some width and some place. -/
def Lays (d : Doc) (indent : Nat) (s : String) : Prop :=
  ∃ width column tail, String.join (d.layout width indent column tail).1 = s

variable {a b d : Doc} {n indent : Nat} {s : String}

/-- A document without lines has only one text. -/
theorem layout_of_hasLine (h : d.hasLine = false) (width indent column tail : Nat) :
    (d.layout width indent column tail).1 = d.flat := by
  induction d generalizing indent column tail with
  | empty | text => rfl
  | line | hardLine => cases h
  | append a b iha ihb =>
    rw [hasLine, Bool.or_eq_false_iff] at h
    simp only [layout, flat, iha h.1, ihb h.2]
  | nest n d ih => exact ih h _ _ _
  | group d ih =>
    rw [layout]
    split
    · rfl
    · exact ih h _ _ _

/-- Without a place for a line break there is only one text. -/
theorem Lays.eq_flat (h : d.Lays indent s) (hline : d.hasLine = false) : s = d.flatText := by
  obtain ⟨width, column, tail, rfl⟩ := h
  rw [layout_of_hasLine hline, flatText]

/-- Two documents are laid out one after the other. -/
theorem Lays.append (h : (a ++ b).Lays indent s) :
    ∃ x y, s = x ++ y ∧ a.Lays indent x ∧ b.Lays indent y := by
  obtain ⟨width, column, tail, rfl⟩ := h
  exact ⟨_, _, String.join_append, ⟨_, _, _, rfl⟩, ⟨_, _, _, rfl⟩⟩

theorem Lays.nest (h : (nest n d).Lays indent s) : d.Lays (indent + n) s := h

theorem Lays.line (h : line.Lays indent s) : s = lineBreak indent := by
  obtain ⟨width, column, tail, rfl⟩ := h
  simp [layout]

theorem Lays.hardLine (h : hardLine.Lays indent s) : s = lineBreak indent := by
  obtain ⟨width, column, tail, rfl⟩ := h
  simp [layout]

/-- A group is laid out in one line or like what is in it. -/
theorem Lays.group (h : (group d).Lays indent s) : s = d.flatText ∨ d.Lays indent s := by
  obtain ⟨width, column, tail, rfl⟩ := h
  rw [layout]
  split
  · exact .inl rfl
  · exact .inr ⟨_, _, _, rfl⟩

theorem lineBreak_zero : lineBreak 0 = "\n" := by decide

/-- Parts on lines of their own. -/
theorem Lays.parts {ds : List Doc} (h : (concat (ds.map (Doc.line ++ ·))).Lays indent s) :
    ∃ texts, List.Forall₂ (fun d t => d.Lays indent t) ds texts ∧
      s = String.join (texts.map (lineBreak indent ++ ·)) := by
  induction ds generalizing s with
  | nil => exact ⟨[], .nil, h.eq_flat rfl⟩
  | cons d ds ih =>
    obtain ⟨x, y, rfl, hx, hy⟩ := h.append
    obtain ⟨l, t, rfl, hl, ht⟩ := hx.append
    obtain ⟨texts, htexts, rfl⟩ := ih hy
    exact ⟨t :: texts, .cons ht htexts, by rw [hl.line, List.map_cons, String.join_cons]⟩

/-- Documents with hard lines between them. -/
theorem Lays.intersperse {ds : List Doc} (h : (intersperse .hardLine ds).Lays indent s) :
    ∃ texts, List.Forall₂ (fun d t => d.Lays indent t) ds texts ∧
      s = (lineBreak indent).intercalate texts := by
  induction ds generalizing s with
  | nil => exact ⟨[], .nil, h.eq_flat rfl⟩
  | cons d ds ih =>
    cases ds with
    | nil => exact ⟨[s], .cons h .nil, String.intercalate_singleton.symm⟩
    | cons d' ds =>
      obtain ⟨x, y, rfl, hx, hy⟩ := h.append
      obtain ⟨t, l, rfl, ht, hl⟩ := hx.append
      obtain ⟨texts, htexts, rfl⟩ := ih hy
      refine ⟨t :: texts, .cons ht htexts, ?_⟩
      cases htexts with
      | cons _ _ => rw [hl.hardLine, String.intercalate_cons_cons]

end Doc

/-! ## Documents of trees -/

section

variable (f : TyVar → String)

theorem Mark.hasLine_docWith (m : Mark) : (m.docWith f).hasLine = false := by
  unfold docWith
  split <;> rfl

theorem Mark.flatText_docWith (m : Mark) : (m.docWith f).flatText = m.textWith f := by
  unfold docWith textWith
  split <;> simp

namespace Expr

theorem hasLine_headDocWith (e : Expr) : (e.headDocWith f).hasLine = false := by cases e <;> rfl

theorem flatText_headDocWith (e : Expr) : (e.headDocWith f).flatText = e.headWith f := by
  cases e <;> simp [headDocWith, headWith]

/-- Without line breaks the document of an expression is its line. -/
theorem flatText_docWith (e : Expr) : (e.docWith f).flatText = e.lineWith f := by
  induction e using inductionOnParts with
  | step e ih =>
    have hparts : (e.children.map (docWith f)).map (fun d => (Doc.line ++ d).flatText) =
        e.children.map fun d => " " ++ d.lineWith f := by
      rw [List.map_map]
      refine List.map_congr_left fun d hd => ?_
      simp [ih d hd]
    rw [docWith_eq, lineWith_eq, listDoc]
    simp only [Doc.flatText_group, Doc.flatText_append, Doc.flatText_ofString, Doc.flatText_nest,
      flatText_headDocWith, Doc.flatText_concat, List.map_map, Mark.flatText_docWith]
    rw [← hparts, List.map_map]
    rfl

end Expr

theorem Decl.flatText_docWith (d : Decl) : (d.docWith f).flatText = d.lineWith f := by
  simp [docWith, lineWith, Expr.flatText_docWith, String.append_assoc]

end

/-! ## Shapes -/

/-- The texts that an expression can have under the given names, where the depth is the number of
expressions around it.  It stands on one line, or all of its parts begin new lines.  The line that
an expression at depth `d` begins is indented by `2 * (d + 1)`. -/
inductive Expr.Laid (f : TyVar → String) : Nat → Expr → String → Prop where
  | oneLine {depth : Nat} {e : Expr} (h : Text.OneLine (e.lineWith f)) :
      Laid f depth e (e.lineWith f)
  | broken {depth : Nat} {e : Expr} {texts : List String}
      (hhead : Text.OneLine (e.headWith f)) (hmark : Text.OneLine (e.mark.textWith f))
      (hlength : texts.length = e.children.length)
      (hparts : ∀ part ∈ e.children.zip texts, Laid f (depth + 1) part.1 part.2) :
      Laid f depth e ("(" ++ e.headWith f
        ++ String.join (texts.map (Doc.lineBreak (2 * (depth + 2)) ++ ·))
        ++ e.mark.textWith f ++ ")")

/-- The texts that a declaration can have.  It stands on one line, or what it defines begins a new
line. -/
inductive Decl.Laid (d : Decl) : String → Prop where
  | oneLine (h : Text.OneLine d.line) : Laid d d.line
  | broken {bound : String} (hbinder : Text.OneLine (d.binder.textWith d.naming.label))
      (hbound : d.bound.Laid d.naming.label 0 bound) :
      Laid d ("(let " ++ d.binder.textWith d.naming.label ++ Doc.lineBreak 2 ++ bound ++ ")")

/-- The texts that a program can have: those of its declarations, each on a new line. -/
def Program.Laid (p : Program) (s : String) : Prop :=
  ∃ texts, List.Forall₂ Decl.Laid p texts ∧ s = "\n".intercalate texts

/-- Every text of the document of an expression has the shape of one, whatever the width. -/
theorem Expr.laid_of_lays {f : TyVar → String} (hf : ∀ v, Text.OneLine (f v)) {e : Expr}
    (he : ∀ x ∈ e.names, Text.OneLine x) {depth : Nat} {s : String}
    (h : (e.docWith f).Lays (2 * (depth + 1)) s) : e.Laid f depth s := by
  induction e using inductionOnParts generalizing depth s with
  | step e ih =>
    have hline := oneLine_lineWith hf he
    have hflat := e.flatText_docWith f
    rw [names_eq, List.forall_mem_append, List.forall_mem_flatMap] at he
    rw [docWith_eq] at h hflat
    rcases h.group with hs | h
    · obtain rfl : s = e.lineWith f := hs.trans hflat
      exact .oneLine hline
    · -- the document is taken apart from the right, since appending associates to the left
      obtain ⟨s, closer, rfl, h, hcloser⟩ := h.append
      obtain ⟨s, mark, rfl, h, hmark⟩ := h.append
      obtain ⟨s, parts, rfl, h, hparts⟩ := h.append
      obtain ⟨opener, head, rfl, hopener, hhead⟩ := h.append
      obtain ⟨texts, htexts, rfl⟩ := hparts.nest.parts
      obtain rfl := (hhead.eq_flat (hasLine_headDocWith f e)).trans (flatText_headDocWith f e)
      obtain rfl := (hmark.eq_flat (Mark.hasLine_docWith f _)).trans (Mark.flatText_docWith f _)
      obtain rfl := (hopener.eq_flat rfl).trans (Doc.flatText_ofString "(")
      obtain rfl := (hcloser.eq_flat rfl).trans (Doc.flatText_ofString ")")
      rw [List.forall₂_map_left_iff] at htexts
      obtain ⟨hlength, hzip⟩ := List.forall₂_iff_zip.1 htexts
      refine .broken (oneLine_headWith hf he.1) (Mark.oneLine_textWith hf e.mark) hlength.symm
        fun part hpart => ?_
      exact ih part.1 (List.of_mem_zip hpart).1 (he.2 part.1 (List.of_mem_zip hpart).1)
        (hzip hpart)

/-- Every text of the document of a declaration has the shape of one. -/
theorem Decl.laid_of_lays {d : Decl} (hd : ∀ x ∈ d.names, Text.OneLine x) {s : String}
    (h : d.doc.Lays 0 s) : d.Laid s := by
  have hf := d.naming.oneLine_label
  obtain ⟨hname, hbound⟩ := List.forall_mem_cons.1 hd
  rw [doc_eq] at h
  rcases h.group with hs | h
  · obtain rfl : s = d.line := hs.trans (d.flatText_docWith d.naming.label)
    exact .oneLine (oneLine_lineWith hf hd)
  · obtain ⟨s, closer, rfl, h, hcloser⟩ := h.append
    obtain ⟨s, bound, rfl, h, hnest⟩ := h.append
    obtain ⟨opener, binder, rfl, hopener, htext⟩ := h.append
    obtain ⟨l, bound, rfl, hl, hlays⟩ := hnest.nest.append
    obtain rfl := hl.line
    obtain rfl := (htext.eq_flat rfl).trans (Doc.flatText_ofString _)
    obtain rfl := (hopener.eq_flat rfl).trans (Doc.flatText_ofString "(let ")
    obtain rfl := (hcloser.eq_flat rfl).trans (Doc.flatText_ofString ")")
    rw [← String.append_assoc]
    exact .broken (Binder.oneLine_textWith hf hname) (Expr.laid_of_lays hf hbound hlays)

/-- The text of a program has the shape of one for every width. -/
theorem Program.laid_text {p : Program} (hp : ∀ x ∈ p.names, Text.OneLine x) (width : Nat) :
    p.Laid (p.text width) := by
  have hlays : p.doc.Lays 0 (p.text width) := ⟨width, 0, 0, rfl⟩
  obtain ⟨texts, htexts, heq⟩ := hlays.intersperse
  rw [List.forall₂_map_left_iff] at htexts
  obtain ⟨hlength, hzip⟩ := List.forall₂_iff_zip.1 htexts
  refine ⟨texts, List.forall₂_iff_zip.2 ⟨hlength, fun hpart => ?_⟩, heq⟩
  have hd := List.forall_mem_flatMap.1 hp _ (List.of_mem_zip hpart).1
  exact Decl.laid_of_lays hd (hzip hpart)

/-! ## Taking line breaks out -/

namespace Text

/-- Puts a blank in the place of each line break and the blanks behind it.  The flag says whether
there was nothing but blanks since the last line break. -/
def unbrokenFrom : Bool → List Char → List Char
  | _, [] => []
  | indented, c :: cs =>
    if c = '\n' then ' ' :: unbrokenFrom true cs
    else if indented ∧ c = ' ' then unbrokenFrom true cs
    else c :: unbrokenFrom false cs

/-- The text with a blank in the place of each line break and the blanks behind it. -/
def unbroken (s : String) : String := String.ofList (unbrokenFrom false s.toList)

/-- A line break and its indentation become one blank. -/
theorem unbrokenFrom_lineBreak (indented : Bool) (n : Nat) (cs : List Char) :
    unbrokenFrom indented ((Doc.lineBreak n).toList ++ cs) = ' ' :: unbrokenFrom true cs := by
  have hblanks : unbrokenFrom true (List.replicate n ' ' ++ cs) = unbrokenFrom true cs := by
    induction n with
    | zero => rfl
    | succ n ih => simp [List.replicate_succ, unbrokenFrom, ih]
  simp [Doc.lineBreak, unbrokenFrom, hblanks]

/-- A text without line breaks stays as it is. -/
theorem unbrokenFrom_append {cs : List Char} (h : '\n' ∉ cs) (ds : List Char) :
    unbrokenFrom false (cs ++ ds) = cs ++ unbrokenFrom false ds := by
  induction cs with
  | nil => rfl
  | cons c cs ih =>
    rw [List.mem_cons, not_or] at h
    simp [unbrokenFrom, Ne.symm h.1, ih h.2]

/-- An opening parenthesis ends the indentation. -/
theorem unbrokenFrom_open (indented : Bool) (cs : List Char) :
    unbrokenFrom indented ("(".toList ++ cs) = "(".toList ++ unbrokenFrom false cs := by
  simp [unbrokenFrom]

end Text

namespace Expr.Laid

variable {f : TyVar → String}

/-- The parts of an expression, each on a new line, become one line. -/
theorem unbrokenFrom_parts {es : List Expr} {texts : List String} {n : Nat}
    (hlength : texts.length = es.length)
    (h : ∀ part ∈ es.zip texts, ∀ indented cs, Text.unbrokenFrom indented (part.2.toList ++ cs) =
      (part.1.lineWith f).toList ++ Text.unbrokenFrom false cs) (cs : List Char) :
    Text.unbrokenFrom false ((String.join (texts.map (Doc.lineBreak n ++ ·))).toList ++ cs) =
      (String.join (es.map fun e => " " ++ e.lineWith f)).toList ++ Text.unbrokenFrom false cs := by
  induction es generalizing texts with
  | nil =>
    obtain rfl := List.eq_nil_of_length_eq_zero hlength
    rfl
  | cons e es ih =>
    cases texts with
    | nil => cases hlength
    | cons t texts =>
      rw [List.zip_cons_cons, List.forall_mem_cons] at h
      have hlength : texts.length = es.length := Nat.succ.inj hlength
      simp only [List.map_cons, String.join_cons, String.toList_append, List.append_assoc]
      rw [Text.unbrokenFrom_lineBreak, h.1, ih hlength h.2]
      rfl

/-- Taking the line breaks out of a text of an expression gives its line. -/
theorem unbrokenFrom {depth : Nat} {e : Expr} {s : String} (h : e.Laid f depth s) (indented : Bool)
    (cs : List Char) :
    Text.unbrokenFrom indented (s.toList ++ cs) =
      (e.lineWith f).toList ++ Text.unbrokenFrom false cs := by
  induction h generalizing indented cs with
  | @oneLine depth e hline =>
    rw [lineWith_eq] at hline ⊢
    simp only [String.append_assoc] at hline ⊢
    rw [String.toList_append, List.append_assoc, Text.unbrokenFrom_open,
      Text.unbrokenFrom_append (Text.oneLine_append.1 hline).2]
    simp
  | @broken depth e texts hhead hmark hlength hparts ih =>
    -- the parts are the only place with line breaks
    have hcloser : Text.OneLine ")" := by decide
    rw [lineWith_eq]
    simp only [String.toList_append, List.append_assoc]
    rw [Text.unbrokenFrom_open, Text.unbrokenFrom_append hhead, unbrokenFrom_parts hlength ih,
      Text.unbrokenFrom_append hmark, Text.unbrokenFrom_append hcloser]

end Expr.Laid

/-- Without its line breaks a text of a declaration is its line. -/
theorem Decl.Laid.unbrokenFrom {d : Decl} {s : String} (h : d.Laid s) (indented : Bool)
    (cs : List Char) :
    Text.unbrokenFrom indented (s.toList ++ cs) = d.line.toList ++ Text.unbrokenFrom false cs := by
  have hopener : "(let " = "(" ++ "let " := by decide
  have hcloser : Text.OneLine ")" := by decide
  have hlet : Text.OneLine "let " := by decide
  cases h with
  | oneLine hline =>
    rw [line, lineWith, hopener] at hline ⊢
    simp only [String.append_assoc] at hline ⊢
    rw [String.toList_append, List.append_assoc, Text.unbrokenFrom_open,
      Text.unbrokenFrom_append (Text.oneLine_append.1 hline).2]
    simp
  | broken hbinder hbound =>
    rw [line, lineWith, hopener]
    simp only [String.toList_append, List.append_assoc]
    rw [Text.unbrokenFrom_open, Text.unbrokenFrom_append hlet, Text.unbrokenFrom_append hbinder,
      Text.unbrokenFrom_lineBreak, hbound.unbrokenFrom, Text.unbrokenFrom_append hcloser]
    rfl

/-- Taking the line breaks out of a text of a program gives its line. -/
theorem Program.Laid.unbroken {p : Program} {s : String} (h : p.Laid s) :
    Text.unbroken s = p.line := by
  obtain ⟨texts, htexts, rfl⟩ := h
  suffices hchars : ∀ indented,
      Text.unbrokenFrom indented ("\n".intercalate texts).toList = p.line.toList by
    rw [Text.unbroken, hchars, String.ofList_toList]
  induction htexts with
  | nil => exact fun _ => rfl
  | @cons d t p texts ht htexts ih =>
    intro indented
    cases htexts with
    | nil =>
      have hlast := ht.unbrokenFrom indented []
      simpa [Program.line, Text.unbrokenFrom] using hlast
    | @cons d' t' p texts ht' htexts =>
      have hbreak := Text.unbrokenFrom_lineBreak false 0 ("\n".intercalate (t' :: texts)).toList
      rw [ih, Doc.lineBreak_zero] at hbreak
      simp only [Program.line, List.map_cons, String.intercalate_cons_cons, String.toList_append,
        List.append_assoc]
      rw [ht.unbrokenFrom, hbreak]
      rfl

/-- Whatever is in the slots of the tree of a source, its texts have the shapes. -/
theorem Program.laid_of_parse {file : FileId} {source : String} {p q : Program}
    {ds : List Diagnostic} (hparse : parse file (lex file source).1 = .ok (p, ds))
    (hclear : q.clear = p.clear) (width : Nat) : q.Laid (q.text width) := by
  have hnames : q.names = p.names := by rw [← q.names_clear, hclear, p.names_clear]
  exact laid_text (hnames ▸ oneLine_names_of_parse hparse) width

/-- The width changes only line breaks.  Whatever is in the slots of the tree of a source, its text
has one of the shapes for every width, and without its line breaks it is the same for all widths. -/
theorem width_changes_line_breaks (file : FileId) (source : String) :
    ∃ p ds, parse file (lex file source).1 = .ok (p, ds) ∧
      ∀ q : Program, q.clear = p.clear → ∀ width,
        q.Laid (q.text width) ∧ Text.unbroken (q.text width) = q.line := by
  obtain ⟨p, ds, hparse⟩ := parse_total file file (lex file source).1 (lex_file file source)
  refine ⟨p, ds, hparse, fun q hclear width => ?_⟩
  have hlaid := Program.laid_of_parse hparse hclear width
  exact ⟨hlaid, hlaid.unbroken⟩

/-- The identity function, printed on three lines. -/
theorem width_changes_line_breaks_identity :
    ∃ p ds, parse 0 (lex 0 "let id = fn (x) -> x").1 = .ok (p, ds) ∧
      (p.inferTypes .bottomUp).program.clear = p.clear ∧
      (p.inferTypes .bottomUp).program.Laid
        "(let [id : forall 'a. 'a -> 'a]\n  (fn [x : 'a]\n    (name x : 'a) : 'a -> 'a))" ∧
      (p.inferTypes .bottomUp).program.line =
        "(let [id : forall 'a. 'a -> 'a] (fn [x : 'a] (name x : 'a) : 'a -> 'a))" := by
  have htext : ((parse 0 (lex 0 "let id = fn (x) -> x").1).map fun r =>
      (r.1.inferTypes .bottomUp).program.text 40) =
      .ok "(let [id : forall 'a. 'a -> 'a]\n  (fn [x : 'a]\n    (name x : 'a) : 'a -> 'a))" := by
    decide +kernel
  obtain ⟨p, ds, hparse, h⟩ := width_changes_line_breaks 0 "let id = fn (x) -> x"
  have hclear := p.clear_inferTypes .bottomUp
  obtain ⟨hlaid, hline⟩ := h _ hclear 40
  rw [hparse, Except.map, Except.ok.injEq] at htext
  rw [htext] at hlaid hline
  exact ⟨p, ds, hparse, hclear, hlaid, hline.symm.trans (by decide +kernel)⟩

end LetPoly
