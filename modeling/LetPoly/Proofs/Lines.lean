import LetPoly.Proofs.ParsedSpans

/-!
# Lexing line by line

Only a run of blanks goes over the end of a line.  Every other piece ends there at the latest,
and it ends where it would end if the source ended (`Piece.endsWithLine_first`): a comment, a
literal that no quote closes, a literal with a backslash as the last thing on the line, a number
with a point but no digits behind it, the first half of a symbol.

Blanks give no lexemes, so a blank may as well be passed over by itself.  So the lexemes of two
texts with a line break between them are those of the first text and those of the second
text moved behind it (`lex_lines`).
-/

namespace LetPoly

/-! ## Pieces at the end of a line -/

namespace Piece

/-- A way to cut off a piece for which the end of a line is like the end of the source. -/
def EndsWithLine (f : List Char → Piece × List Char) : Prop :=
  ∀ cs rest, f (cs ++ '\n' :: rest) = ((f cs).1, (f cs).2 ++ '\n' :: rest)

/-- A run of characters other than line breaks ends at a line break. -/
theorem takeWhile_break {p : Char → Bool} (hp : p '\n' = false) (cs rest : List Char) :
    (cs ++ '\n' :: rest).takeWhile p = cs.takeWhile p := by
  induction cs with
  | nil => simp [hp]
  | cons c cs ih => simp only [List.cons_append, List.takeWhile_cons, ih]

/-- What follows such a run has the line break behind it. -/
theorem dropWhile_break {p : Char → Bool} (hp : p '\n' = false) (cs rest : List Char) :
    (cs ++ '\n' :: rest).dropWhile p = cs.dropWhile p ++ '\n' :: rest := by
  induction cs with
  | nil => simp [hp]
  | cons c cs ih =>
    simp only [List.cons_append, List.dropWhile_cons, ih]
    split <;> rfl

/-- A run that a line break does not continue ends with the line. -/
theorem endsWithLine_run (kind : PieceKind) {p : Char → Bool} (hp : p '\n' = false) (c : Char) :
    EndsWithLine (run kind p c) := by
  intro cs rest
  simp only [run, takeWhile_break hp, dropWhile_break hp]

theorem continuesDigits_break : continuesDigits '\n' = false := by decide

/-- A number ends with the line, with or without a point. -/
theorem endsWithLine_number (c : Char) : EndsWithLine (number c) := by
  intro cs rest
  have hrun := endsWithLine_run .int continuesDigits_break c cs rest
  have hdrop := dropWhile_break continuesDigits_break cs rest
  by_cases hshape : ∃ d ds, cs.dropWhile continuesDigits = '.' :: d :: ds ∧ isDigit d = true
  · obtain ⟨d, ds, hshape, hd⟩ := hshape
    rw [hshape, List.cons_append, List.cons_append] at hdrop
    rw [number_eq_float hdrop hd, number_eq_float hshape hd]
    simp only [takeWhile_break continuesDigits_break, dropWhile_break continuesDigits_break]
  · have hint (d : Char) (ds : List Char) (h : cs.dropWhile continuesDigits = '.' :: d :: ds) :
        isDigit d = false :=
      Bool.eq_false_iff.2 fun hd => hshape ⟨d, ds, h, hd⟩
    rw [number_eq_int hint, number_eq_int ?_, hrun]
    intro d ds h
    rw [hdrop] at h
    -- The digit would have to be the line break, or it stands behind the point without it.
    match hcs : cs.dropWhile continuesDigits with
    | [] =>
      rw [hcs] at h
      cases h
    | [e] =>
      rw [hcs] at h
      cases h
      decide
    | e :: e' :: es =>
      rw [hcs] at h
      cases h
      exact hint _ _ hcs

/-- A character that is no backslash stands for itself in a literal, or ends it. -/
theorem insideFrom_cons {c : Char} (hc : c ≠ '\\') (acc cs : List Char) :
    insideFrom acc (c :: cs) =
      if c = '"' ∨ c = '\n' then (acc.reverse, c :: cs) else insideFrom (c :: acc) cs := by
  rw [insideFrom]
  · simp [hc]
  · exact fun _ _ h _ => hc h

/-- What stands inside a literal ends with the line, even behind a backslash. -/
theorem insideFrom_break (acc cs rest : List Char) :
    insideFrom acc (cs ++ '\n' :: rest) =
      ((insideFrom acc cs).1, (insideFrom acc cs).2 ++ '\n' :: rest) := by
  fun_induction insideFrom acc cs with
  | case1 acc => simp [insideFrom]
  | case2 acc cs => simp [insideFrom]
  | case3 acc c cs hc ih => simpa [insideFrom, hc] using ih
  | case4 acc c cs hescape hc =>
    by_cases hbackslash : c = '\\'
    · -- The backslash is the last thing on the line.
      cases cs with
      | nil => simp [hbackslash, insideFrom]
      | cons d ds => cases hescape d ds hbackslash rfl
    · have hc : c = '"' ∨ c = '\n' := by simpa [hbackslash] using hc
      simp [insideFrom_cons hbackslash, hc]
  | case5 acc c cs hescape hc ih =>
    obtain ⟨hquote, hbackslash, hbreak⟩ : c ≠ '"' ∧ c ≠ '\\' ∧ c ≠ '\n' := by simpa using hc
    simpa [insideFrom_cons hbackslash, hquote, hbreak] using ih

/-- A string literal ends with the line. -/
theorem endsWithLine_literal : EndsWithLine literal := by
  intro cs rest
  have hinside := insideFrom_break [] cs rest
  unfold literal
  rw [hinside]
  cases h : insideFrom [] cs with
  | mk inside behind =>
    cases behind with
    | nil => simp
    | cons d ds =>
      by_cases hd : d = '"'
      · simp [hd]
      · simp [hd]

theorem endsWithLine_single (c : Char) : EndsWithLine (single c) := by
  intro cs rest
  unfold single
  cases singleSymbol? c <;> rfl

/-- No symbol has a line break as its second character. -/
theorem doubleSymbol?_break (c : Char) : doubleSymbol? c '\n' = none := by
  unfold doubleSymbol?
  split <;> simp_all

/-- A comment or a symbol ends with the line. -/
theorem endsWithLine_mark (c : Char) : EndsWithLine (mark c) := by
  intro cs rest
  cases cs with
  | nil => simpa [mark, doubleSymbol?_break] using endsWithLine_single c [] rest
  | cons d ds =>
    have hrun := endsWithLine_run .comment (p := continuesComment) (by decide) c (d :: ds) rest
    have hsingle := endsWithLine_single c (d :: ds) rest
    rw [List.cons_append] at hrun hsingle ⊢
    simp only [mark]
    split
    · exact hrun
    · cases doubleSymbol? c d with
      | some t => rfl
      | none => exact hsingle

/-- A piece that is not a run of blanks ends with its line. -/
theorem endsWithLine_first {c : Char} (hc : isBlank c = false) : EndsWithLine (first c) := by
  intro cs rest
  unfold first
  simp only [hc, Bool.false_eq_true, if_false]
  split
  · exact endsWithLine_run .word (by decide) c cs rest
  · split
    · exact endsWithLine_number c cs rest
    · split
      · exact endsWithLine_literal cs rest
      · exact endsWithLine_mark c cs rest

end Piece

/-! ## Lexing behind a text -/

/-- A span so many bytes further right. -/
def Span.shift (n : Nat) (s : Span) : Span := ⟨s.start + n, s.stop + n, s.file⟩

namespace Lexing

/-- What lexing has found, so many bytes further right. -/
def advance (n : Nat) (l : Lexing) : Lexing := { l with offset := l.offset + n }

theorem advance_advance (m n : Nat) (l : Lexing) : (l.advance m).advance n = l.advance (m + n) := by
  simp [advance, Nat.add_assoc]

/-- What lexing finds in a text that stands behind others. -/
def behind (before l : Lexing) : Lexing where
  offset := l.offset + before.offset
  lexemes := l.lexemes.map (Lexeme.mapSpans (.shift before.offset)) ++ before.lexemes
  diagnostics := l.diagnostics.map (Diagnostic.mapSpans (.shift before.offset)) ++
    before.diagnostics

/-- A piece adds the same behind other texts, further right. -/
theorem add_behind (file : FileId) (before l : Lexing) (p : Piece) :
    (before.behind l).add file p = before.behind (l.add file p) := by
  cases hp : p.read with
  | none => simp [add_skipped hp, behind, Nat.add_right_comm]
  | some r =>
    cases r with
    | ok t =>
      simp [add_token hp, behind, Lexeme.mapSpans, Span.shift, Nat.add_right_comm]
    | error e =>
      simp [add_problem hp, behind, Lexeme.mapSpans, Diagnostic.mapSpans, Span.shift,
        Nat.add_right_comm, Piece.mapSpans_of_read hp]

/-- Pieces behind others add what they add alone, further right. -/
theorem foldl_add_behind (file : FileId) (before : Lexing) (ps : List Piece) :
    ps.foldl (add file) before = before.behind (ps.foldl (add file) ⟨0, [], []⟩) := by
  have hstart : before.behind ⟨0, [], []⟩ = before := by simp [behind]
  have hfold : ps.foldl (add file) (before.behind ⟨0, [], []⟩) =
      before.behind (ps.foldl (add file) ⟨0, [], []⟩) :=
    List.foldl_hom before.behind (add_behind file before)
  rwa [hstart] at hfold

/-- A piece moves the offset by its size. -/
theorem offset_add (file : FileId) (l : Lexing) (p : Piece) :
    (l.add file p).offset = l.offset + String.utf8Len p.text := by
  rw [← p.byteSize_eq]
  unfold add
  split <;> rfl

/-- Lexing a text ends behind its last byte. -/
theorem offset_cut (file : FileId) (cs : List Char) (l : Lexing) :
    ((Piece.cut cs).foldl (add file) l).offset = l.offset + String.utf8Len cs := by
  match cs with
  | [] => simp
  | c :: cs =>
    have hshorter := Piece.length_first c cs
    rw [Piece.cut_cons, List.foldl_cons, offset_cut file (Piece.first c cs).2, offset_add,
      ← Piece.append_first c cs, String.utf8Len_append, Nat.add_assoc]
termination_by cs.length
decreasing_by exact hshorter

/-! ## Lexing over the end of a line -/

/-- A blank may be passed over by itself. -/
theorem foldl_cut_blank (file : FileId) {c : Char} (hc : Piece.isBlank c = true) (cs : List Char)
    (l : Lexing) :
    (Piece.cut (c :: cs)).foldl (add file) l =
      (Piece.cut cs).foldl (add file) (l.advance c.utf8Size) := by
  have hfirst {c : Char} (hc : Piece.isBlank c = true) (cs : List Char) :
      Piece.first c cs = Piece.run .blank Piece.isBlank c cs := by simp [Piece.first, hc]
  have hadd (l : Lexing) (w : List Char) :
      l.add file ⟨.blank, w⟩ = l.advance (String.utf8Len w) := by
    rw [add_skipped rfl, Piece.byteSize_eq]
    rfl
  rw [Piece.cut_cons, hfirst hc, List.foldl_cons]
  simp only [Piece.run, hadd]
  cases cs with
  | nil => simp
  | cons d ds =>
    by_cases hd : Piece.isBlank d = true
    · rw [Piece.cut_cons, hfirst hd, List.foldl_cons]
      simp [Piece.run, hadd, hd, advance_advance, Nat.add_comm]
    · simp [hd]

/-- The end of a line is passed over like a blank between two texts. -/
theorem foldl_cut_break (file : FileId) (cs rest : List Char) (l : Lexing) :
    (Piece.cut (cs ++ '\n' :: rest)).foldl (add file) l =
      (Piece.cut rest).foldl (add file) (((Piece.cut cs).foldl (add file) l).advance 1) := by
  match cs with
  | [] =>
    rw [List.nil_append, foldl_cut_blank file (by decide)]
    simp [Char.utf8Size]
  | c :: cs =>
    have hshorter := Piece.length_first c cs
    cases hc : Piece.isBlank c with
    | true =>
      rw [List.cons_append, foldl_cut_blank file hc, foldl_cut_blank file hc]
      exact foldl_cut_break file cs rest _
    | false =>
      rw [List.cons_append, Piece.cut_cons, Piece.cut_cons, Piece.endsWithLine_first hc,
        List.foldl_cons, List.foldl_cons]
      exact foldl_cut_break file (Piece.first c cs).2 rest _
termination_by cs.length
decreasing_by
  · exact hshorter
  · simp

end Lexing

/-- Lexing is local to lines.  The lexemes and diagnostics of two texts with a line break between
them are those of the first text, and behind them those of the second, so many bytes further right as
the first text and the line break have. -/
theorem lex_lines (file : FileId) (a b : String) :
    lex file (a ++ "\n" ++ b) =
      ((lex file a).1 ++
          (lex file b).1.map (Lexeme.mapSpans (.shift (a.utf8ByteSize + 1))),
        (lex file a).2 ++
          (lex file b).2.map (Diagnostic.mapSpans (.shift (a.utf8ByteSize + 1)))) := by
  have hsource : (a ++ "\n" ++ b).toList = a.toList ++ '\n' :: b.toList := by simp
  have hoffset := Lexing.offset_cut file a.toList ⟨0, [], []⟩
  rw [String.utf8Len_toList, Nat.zero_add] at hoffset
  simp only [lex, hsource, Lexing.foldl_cut_break]
  rw [Lexing.foldl_add_behind]
  simp [Lexing.behind, Lexing.advance, hoffset]

end LetPoly
