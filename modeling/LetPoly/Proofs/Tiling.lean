import Mathlib.Data.String.Basic
import LetPoly.Proofs.Munching

/-!
# Lexing is lossless

The lexemes of a source, and the blanks and comments between them, tile the source.  `Tiled` follows
the lexer piece by piece.  It holds of what the lexer returns (`lex_tiled`), and all that is
said of lexemes here is read off it: where they stand, what stands between them, which tokens they
are and which of them have a diagnostic.
-/

namespace LetPoly

/-- A text that is passed over, where `rest` follows it.  It is made of blanks and comments, each as
long as it can be. -/
inductive Skips : List Char → List Char → Prop where
  | nil (rest : List Char) : Skips [] rest
  | cons {r : Rule} {w ws rest : List Char} (hskipped : r.isSkipped = true)
      (hwins : r.Wins (w ++ (ws ++ rest)) w) (h : Skips ws rest) : Skips (w ++ ws) rest

/-- The stretch of a source between two offsets, with what stands before it and behind it.  Offsets
count bytes, and these two stand between characters. -/
structure Stretch (source : String) (start stop : Nat) (before text after : List Char) : Prop where
  source : source.toList = before ++ (text ++ after)
  start : start = String.utf8Len before
  stop : stop = String.utf8Len before + String.utf8Len text

/-- The offsets between which no lexeme stands: before the first lexeme, between a lexeme and the
next, and behind the last. -/
def gaps (start : Nat) : List Lexeme → Nat → List (Nat × Nat)
  | [], stop => [(start, stop)]
  | l :: ls, stop => (start, l.span.start) :: gaps l.span.stop ls stop

/-- Lexemes and diagnostics that keep all there is in a source. -/
structure Lossless (file : FileId) (source : String) (ls : List Lexeme) (ds : List Diagnostic) :
    Prop where
  /-- The span of a lexeme is not empty and lies inside the source. -/
  placed : ∀ l ∈ ls, l.span.file = file ∧ l.span.start < l.span.stop ∧
    l.span.stop ≤ source.utf8ByteSize
  /-- A lexeme ends before the later ones begin. -/
  apart : ls.Pairwise fun l l' => l.span.stop ≤ l'.span.start
  /-- There is nothing but blanks and comments between lexemes. -/
  skipped : ∀ g ∈ gaps 0 ls source.utf8ByteSize, ∃ before text after,
    Stretch source g.1 g.2 before text after ∧ Skips text after
  /-- A lexeme is the longest match where it begins, and nothing else is. -/
  tokens : ∀ l ∈ ls, ∃ before text after,
    Stretch source l.span.start l.span.stop before text after ∧ l.token.Munched text after ∧
      ∀ t' text' after', text' ++ after' = text ++ after → Token.Munched t' text' after' →
        t' = l.token ∧ text' = text
  /-- Each invalid token has a diagnostic, in order. -/
  diagnosed : ds.map (·.span) = (ls.filter (·.token = .invalid)).map (·.span)

/-! ## Pieces of a source -/

namespace Piece

/-- Pieces that were cut before stand in front. -/
theorem cutFrom_append (acc acc' : List Piece) (cs : List Char) :
    cutFrom (acc ++ acc') cs = acc'.reverse ++ cutFrom acc cs := by
  fun_induction cutFrom acc cs with
  | case1 acc => simp [cutFrom]
  | case2 acc c cs ih =>
    rw [cutFrom]
    exact ih

@[simp] theorem cut_nil : cut [] = [] := by simp [cut, cutFrom]

@[simp] theorem cut_cons (c : Char) (cs : List Char) :
    cut (c :: cs) = (first c cs).1 :: cut (first c cs).2 := by
  rw [cut, cutFrom]
  exact cutFrom_append [] [(first c cs).1] (first c cs).2

theorem foldl_utf8Size (n : Nat) (cs : List Char) :
    cs.foldl (fun n c => n + c.utf8Size) n = n + String.utf8Len cs := by
  induction cs generalizing n with
  | nil => rfl
  | cons c cs ih =>
    rw [List.foldl_cons, ih, String.utf8Len_cons]
    omega

theorem byteSize_eq (p : Piece) : p.byteSize = String.utf8Len p.text := by
  rw [byteSize, foldl_utf8Size, Nat.zero_add]

end Piece

/-! ## Tilings -/

/-- The lexemes and diagnostics of what is left of a source, which begins at an offset. -/
inductive Tiled (file : FileId) : Nat → List Char → List Lexeme → List Diagnostic → Prop where
  | nil (offset : Nat) : Tiled file offset [] [] []
  | skip {r : Rule} {offset : Nat} {w rest : List Char} {ls : List Lexeme} {ds : List Diagnostic}
      (hskipped : r.isSkipped = true) (hwins : r.Wins (w ++ rest) w)
      (h : Tiled file (offset + String.utf8Len w) rest ls ds) : Tiled file offset (w ++ rest) ls ds
  | token {t : Token} {offset : Nat} {w rest : List Char} {ls : List Lexeme} {ds : List Diagnostic}
      (hvalid : t ≠ .invalid) (ht : t.Munched w rest)
      (h : Tiled file (offset + String.utf8Len w) rest ls ds) :
      Tiled file offset (w ++ rest) (⟨t, ⟨offset, offset + String.utf8Len w, file⟩⟩ :: ls) ds
  | problem {e : Problem} {offset : Nat} {w rest : List Char} {ls : List Lexeme}
      {ds : List Diagnostic} (ht : Token.invalid.Munched w rest)
      (h : Tiled file (offset + String.utf8Len w) rest ls ds) :
      Tiled file offset (w ++ rest) (⟨.invalid, ⟨offset, offset + String.utf8Len w, file⟩⟩ :: ls)
        (⟨⟨offset, offset + String.utf8Len w, file⟩, e⟩ :: ds)

namespace Lexing

variable {file : FileId} {l : Lexing} {p : Piece}

/-- A piece that is skipped only moves the offset. -/
theorem add_skipped (h : p.read = none) :
    l.add file p = ⟨l.offset + p.byteSize, l.lexemes, l.diagnostics⟩ := by
  simp [add, h]

/-- A piece with a token is a lexeme. -/
theorem add_token {t : Token} (h : p.read = some (.ok t)) :
    l.add file p = ⟨l.offset + p.byteSize,
      ⟨t, ⟨l.offset, l.offset + p.byteSize, file⟩⟩ :: l.lexemes, l.diagnostics⟩ := by
  simp [add, h]

/-- A piece with a problem is an invalid lexeme and a diagnostic at its place. -/
theorem add_problem {e : Problem} (h : p.read = some (.error e)) :
    l.add file p = ⟨l.offset + p.byteSize,
      ⟨.invalid, ⟨l.offset, l.offset + p.byteSize, file⟩⟩ :: l.lexemes,
      ⟨⟨l.offset, l.offset + p.byteSize, file⟩, e⟩ :: l.diagnostics⟩ := by
  simp [add, h]

/-- What a piece adds stands first in the tiling. -/
theorem add_munched {rest : List Char} {ls : List Lexeme} {ds : List Diagnostic}
    (hp : p.Munched rest) (h : Tiled file (l.add file p).offset rest ls ds) :
    ∃ ls' ds', Tiled file l.offset (p.text ++ rest) ls' ds' ∧
      ls.reverse ++ (l.add file p).lexemes = ls'.reverse ++ l.lexemes ∧
      ds.reverse ++ (l.add file p).diagnostics = ds'.reverse ++ l.diagnostics := by
  cases hp with
  | skipped hread hskipped hwins =>
    rw [add_skipped hread, p.byteSize_eq] at h ⊢
    exact ⟨ls, ds, .skip hskipped hwins h, rfl, rfl⟩
  | token hread hvalid ht =>
    rw [add_token hread, p.byteSize_eq] at h ⊢
    exact ⟨_, _, .token hvalid ht h, by simp, rfl⟩
  | @problem e hread ht =>
    rw [add_problem hread, p.byteSize_eq] at h ⊢
    exact ⟨_, _, .problem (e := e) ht h, by simp, by simp⟩

/-- The pieces of a source add the lexemes of a tiling. -/
theorem add_cut (file : FileId) (cs : List Char) (l : Lexing) :
    ∃ ls ds, Tiled file l.offset cs ls ds ∧
      ((Piece.cut cs).foldl (add file) l).lexemes = ls.reverse ++ l.lexemes ∧
      ((Piece.cut cs).foldl (add file) l).diagnostics = ds.reverse ++ l.diagnostics := by
  match cs with
  | [] => exact ⟨[], [], .nil _, by simp, by simp⟩
  | c :: cs =>
    have hshorter := Piece.length_first c cs
    rw [Piece.cut_cons, List.foldl_cons]
    obtain ⟨ls, ds, h, hls, hds⟩ :=
      add_cut file (Piece.first c cs).2 (l.add file (Piece.first c cs).1)
    rw [hls, hds, ← Piece.append_first c cs]
    exact add_munched (Piece.first_munched c cs) h
termination_by cs.length
decreasing_by exact hshorter

end Lexing

/-- What the lexer returns is a tiling of the source. -/
theorem lex_tiled (file : FileId) (source : String) :
    Tiled file 0 source.toList (lex file source).1 (lex file source).2 := by
  obtain ⟨ls, ds, h, hls, hds⟩ := Lexing.add_cut file source.toList ⟨0, [], []⟩
  simpa [lex, hls, hds] using h

/-! ## What a tiling says -/

/-- A blank or a comment can be added at the end of what is skipped. -/
theorem Skips.snoc {r : Rule} {v w rest : List Char} (hskipped : r.isSkipped = true)
    (hwins : r.Wins (w ++ rest) w) (h : Skips v (w ++ rest)) : Skips (v ++ w) rest := by
  generalize hsource : w ++ rest = source at h
  induction h with
  | nil =>
    have hnil : Skips (w ++ []) rest := .cons hskipped (by simpa using hwins) (.nil rest)
    simpa using hnil
  | cons hskipped' hwins' _ ih =>
    subst hsource
    rw [List.append_assoc]
    exact .cons hskipped' (by simpa using hwins') (ih rfl)

namespace Stretch

variable {source : String} {start stop : Nat} {before text after : List Char}

/-- A stretch of a text that is not empty ends behind its beginning. -/
theorem lt (h : Stretch source start stop before text after) (htext : text ≠ []) :
    start < stop := by
  have hpos : String.utf8Len text ≠ 0 := fun h0 => htext (String.utf8Len_eq_zero.1 h0)
  have hstart := h.start
  have hstop := h.stop
  omega

/-- A stretch ends inside the source. -/
theorem le (h : Stretch source start stop before text after) : stop ≤ source.utf8ByteSize := by
  rw [← String.utf8Len_toList, h.source, h.stop]
  simp only [String.utf8Len_append]
  omega

end Stretch

namespace Tiled

variable {file : FileId} {offset : Nat} {cs : List Char} {ls : List Lexeme} {ds : List Diagnostic}

/-- No lexeme begins before the offset. -/
theorem le_start (h : Tiled file offset cs ls ds) : ∀ l ∈ ls, offset ≤ l.span.start := by
  induction h with
  | nil => simp
  | skip _ _ _ ih => exact fun l hl => Nat.le_trans (Nat.le_add_right _ _) (ih l hl)
  | token _ _ _ ih | problem _ _ ih =>
    refine List.forall_mem_cons.2 ⟨Nat.le_refl _, fun l hl => ?_⟩
    exact Nat.le_trans (Nat.le_add_right _ _) (ih l hl)

/-- Lexemes stand one behind the other. -/
theorem apart (h : Tiled file offset cs ls ds) :
    ls.Pairwise fun l l' => l.span.stop ≤ l'.span.start := by
  induction h with
  | nil => exact .nil
  | skip _ _ _ ih => exact ih
  | token _ _ h ih | problem _ h ih => exact .cons h.le_start ih

/-- The diagnostics are at the invalid lexemes, in order. -/
theorem diagnosed (h : Tiled file offset cs ls ds) :
    ds.map (·.span) = (ls.filter (·.token = .invalid)).map (·.span) := by
  induction h with
  | nil => rfl
  | skip _ _ _ ih => exact ih
  | token hvalid _ _ ih => simp [hvalid, ih]
  | problem _ _ ih => simp [ih]

/-- The span of a lexeme is in the file, and its text is what the token is read from. -/
theorem lexemes (h : Tiled file offset cs ls ds) {source : String} (before : List Char)
    (hsource : source.toList = before ++ cs) (hoffset : offset = String.utf8Len before) :
    ∀ l ∈ ls, l.span.file = file ∧ ∃ before text after,
      Stretch source l.span.start l.span.stop before text after ∧ l.token.Munched text after := by
  induction h generalizing before with
  | nil => simp
  | @skip _ _ w _ _ _ _ _ _ ih =>
    exact ih (before ++ w) (by simp [hsource]) (by simp [hoffset])
  | @token _ _ w _ _ _ _ ht _ ih | @problem _ _ w _ _ _ ht _ ih =>
    refine List.forall_mem_cons.2 ⟨⟨rfl, before, w, _, ⟨hsource, hoffset, ?_⟩, ht⟩, ?_⟩
    · rw [hoffset]
    · exact ih (before ++ w) (by simp [hsource]) (by simp [hoffset])

/-- There is nothing but blanks and comments between lexemes.  The text `w` was passed over before
the offset. -/
theorem skipped (h : Tiled file offset cs ls ds) {source : String} (before w : List Char)
    {start : Nat} (hsource : source.toList = before ++ (w ++ cs))
    (hstart : start = String.utf8Len before)
    (hoffset : offset = String.utf8Len before + String.utf8Len w) (hw : Skips w cs) :
    ∀ g ∈ gaps start ls source.utf8ByteSize, ∃ before text after,
      Stretch source g.1 g.2 before text after ∧ Skips text after := by
  induction h generalizing before w start with
  | nil =>
    have hstop : source.utf8ByteSize = String.utf8Len before + String.utf8Len w := by
      rw [← String.utf8Len_toList, hsource]
      simp
    simpa [gaps] using ⟨before, w, [], ⟨hsource, hstart, hstop⟩, hw⟩
  | @skip _ _ v _ _ _ hskipped hwins _ ih =>
    refine ih before (w ++ v) (by simpa using hsource) hstart ?_ (hw.snoc hskipped hwins)
    rw [hoffset, String.utf8Len_append, Nat.add_assoc]
  | @token _ _ v _ _ _ _ _ _ ih | @problem _ _ v _ _ _ _ _ ih =>
    refine List.forall_mem_cons.2 ⟨⟨before, w, _, ⟨hsource, hstart, hoffset⟩, hw⟩, ?_⟩
    -- The next gap begins behind this lexeme, where nothing has been passed over yet.
    refine ih (before ++ (w ++ v)) [] (by simpa using hsource) ?_ ?_ (.nil _)
    · simp [hoffset, Nat.add_assoc]
    · simp [hoffset, Nat.add_assoc]

end Tiled

/-- Lexing is lossless.  The lexemes stand one behind the other in the source with nothing but
blanks and comments around them, each of them is the longest match where it begins, and the
diagnostics are those of the invalid ones. -/
theorem lex_lossless (file : FileId) (source : String) :
    Lossless file source (lex file source).1 (lex file source).2 := by
  have h := lex_tiled file source
  have hlexemes := h.lexemes [] rfl rfl
  refine ⟨fun l hl => ?_, h.apart, ?_, fun l hl => ?_, h.diagnosed⟩
  · obtain ⟨hfile, before, text, after, hstretch, ht⟩ := hlexemes l hl
    exact ⟨hfile, hstretch.lt ht.text_ne_nil, hstretch.le⟩
  · exact h.skipped [] [] rfl rfl rfl (.nil _)
  · obtain ⟨-, before, text, after, hstretch, ht⟩ := hlexemes l hl
    exact ⟨before, text, after, hstretch, ht, fun t' text' after' heq ht' => ht'.unique ht heq⟩

end LetPoly
