import LetPoly.Proofs.Rules
import LetPoly.Proofs.Tiling

/-!
# How a text is spelled

A text *spells* tokens if its pieces, blanks and comments apart, are these tokens one after the
other.  The lexer finds nothing to report in such a text, and returns the tokens.

A text is spelled from the left, a piece at a time.  A symbol does not mind what stands behind it,
as long as it is not the first half of a longer one.  A word has to end before the next piece.
-/

namespace LetPoly

/-- The pieces of a text are these tokens, blanks and comments apart. -/
def Spells (cs : List Char) (ts : List Token) : Prop :=
  (Piece.cut cs).filterMap Piece.read = ts.map .ok

/-- No word goes on with the first character. -/
def EndsWord (cs : List Char) : Prop := ∀ c ∈ cs.head?, Piece.continuesWord c = false

theorem EndsWord.cons {c : Char} {cs : List Char} (h : Piece.continuesWord c = false) :
    EndsWord (c :: cs) := by
  intro d hd
  cases hd
  exact h

/-! ## Lexing -/

/-- Pieces that are tokens add these and no diagnostics. -/
theorem Lexing.foldl_add_tokens (file : FileId) {ps : List Piece} {ts : List Token}
    (h : ps.filterMap Piece.read = ts.map .ok) (l : Lexing) :
    (ps.foldl (add file) l).lexemes.map (·.token) = ts.reverse ++ l.lexemes.map (·.token) ∧
      (ps.foldl (add file) l).diagnostics = l.diagnostics := by
  induction ps generalizing ts l with
  | nil =>
    obtain rfl : ts = [] := by simpa using h
    simp
  | cons p ps ih =>
    rw [List.foldl_cons]
    cases hp : p.read with
    | none =>
      rw [List.filterMap_cons_none hp] at h
      rw [add_skipped hp]
      exact ih h _
    | some r =>
      rw [List.filterMap_cons_some hp] at h
      obtain ⟨t, ts, rfl, rfl, hts⟩ := List.map_eq_cons_iff.1 h.symm
      obtain ⟨htokens, hnone⟩ := ih hts.symm (l.add file p)
      rw [add_token hp] at htokens hnone ⊢
      exact ⟨by simp [htokens], hnone⟩

theorem Spells.lex {source : String} {ts : List Token} (h : Spells source.toList ts)
    (file : FileId) :
    (LetPoly.lex file source).1.map (·.token) = ts ∧ (LetPoly.lex file source).2 = [] := by
  obtain ⟨htokens, hnone⟩ := Lexing.foldl_add_tokens file h ⟨0, [], []⟩
  constructor
  · simp [LetPoly.lex, htokens]
  · simp [LetPoly.lex, hnone]

/-! ## Pieces -/

namespace Spells

variable {c : Char} {cs rest : List Char} {p : Piece} {t : Token} {ts : List Token}

protected theorem nil : Spells [] [] := by simp [Spells]

/-- A piece that is no token is passed over. -/
theorem skip (hfirst : Piece.first c cs = (p, rest)) (hread : p.read = none)
    (h : Spells rest ts) : Spells (c :: cs) ts := by
  rw [Spells, Piece.cut_cons, hfirst, List.filterMap_cons_none hread]
  exact h

/-- A piece that is a token is the first token. -/
theorem token (hfirst : Piece.first c cs = (p, rest)) (hread : p.read = some (.ok t))
    (h : Spells rest ts) : Spells (c :: cs) (t :: ts) := by
  rw [Spells, Piece.cut_cons, hfirst, List.filterMap_cons_some hread, List.map_cons]
  exact congrArg _ h

/-- A symbol is the first token. -/
theorem symbol {w : List Char} (hfirst : Piece.first c cs = (⟨.symbol t, w⟩, rest))
    (h : Spells rest ts) : Spells (c :: cs) (t :: ts) :=
  token hfirst rfl h

/-- What is passed over may begin with more blanks. -/
theorem dropBlanks (h : Spells cs ts) : Spells (cs.dropWhile Piece.isBlank) ts := by
  cases cs with
  | nil => exact h
  | cons c cs =>
    by_cases hc : Piece.isBlank c = true
    · have hfirst : Piece.first c cs = Piece.run .blank Piece.isBlank c cs := by
        simp [Piece.first, hc]
      rw [Spells, Piece.cut_cons, hfirst, List.filterMap_cons_none rfl] at h
      rwa [List.dropWhile_cons_of_pos hc]
    · rwa [List.dropWhile_cons_of_neg hc]

/-- A blank is passed over. -/
theorem blank (h : Spells cs ts) : Spells (' ' :: cs) ts :=
  skip (p := ⟨.blank, ' ' :: cs.takeWhile Piece.isBlank⟩) rfl rfl h.dropBlanks

/-- A word that ends is the first token. -/
theorem word (hc : Piece.isLetter c = true) (hcs : ∀ d ∈ cs, Piece.continuesWord d = true)
    (hrest : EndsWord rest) (h : Spells rest ts) :
    Spells (c :: (cs ++ rest)) (Piece.readWord (String.ofList (c :: cs)) :: ts) := by
  have htake : (cs ++ rest).takeWhile Piece.continuesWord = cs := by
    rw [List.takeWhile_append_of_pos hcs]
    cases rest with
    | nil => simp
    | cons d ds => simp [hrest d rfl]
  have hdrop : (cs ++ rest).dropWhile Piece.continuesWord = rest := by
    rw [List.dropWhile_append_of_pos hcs]
    cases rest with
    | nil => rfl
    | cons d ds => simp [hrest d rfl]
  have hblank : Piece.isBlank c = false := Rule.isBlank_eq_false_of_isLetter hc
  have hfirst : Piece.first c (cs ++ rest) = (⟨.word, c :: cs⟩, rest) := by
    simp [Piece.first, hblank, hc, Piece.run, htake, hdrop]
  exact token hfirst rfl h

theorem groupOpen (h : Spells cs ts) : Spells ('(' :: cs) (.punctuation .groupOpen :: ts) := by
  cases cs <;> exact symbol rfl h

theorem groupClose (h : Spells cs ts) : Spells (')' :: cs) (.punctuation .groupClose :: ts) := by
  cases cs <;> exact symbol rfl h

theorem comma (h : Spells cs ts) : Spells (',' :: cs) (.punctuation .comma :: ts) := by
  cases cs <;> exact symbol rfl h

end Spells

end LetPoly
