import Mathlib.Data.Nat.Digits.Defs
import LetPoly.Proofs.Lines

/-!
# Literals

A string is written between quotes, one character after the other, each of them as itself or as
an escape (`Text.Encodes`).  So a string has many literals, and the lexer reads each of them as
that string and reads nothing else as it (`lex_string_iff`).

The lexer looks for the closing quote before it looks at escapes.  It passes over a backslash
together with whatever stands behind it, so the quote of an escape does not close the literal,
and reads the inside only when it knows where it ends.  The two agree: what can stand inside a
literal and be read as a text is made of the ways to write the characters of the text
(`Text.escapes_iff`).

An integer is written with digits and with separators between them, which do not count.  The lexer
stops reading as soon as the number read so far is too large.  What is left to read cannot make it
smaller, so it gives up on just those literals whose number in the decimal system is too large
(`int_literal_exact`).
-/

namespace LetPoly

namespace Text

/-- The ways to write a character in a string literal. -/
inductive Writes : Char → List Char → Prop where
  | itself {c : Char} (hquote : c ≠ '"') (hbackslash : c ≠ '\\') (hbreak : c ≠ '\n') :
      Writes c [c]
  | escape {c k : Char} (h : (k, c) ∈ escapes) : Writes c ['\\', k]

/-- A source that is a string literal of a string: a quote, its characters, each written in one of
its ways, and a quote. -/
def Encodes (source s : String) : Prop :=
  ∃ parts, List.Forall₂ Writes s.toList parts ∧ source.toList = '"' :: parts.flatten ++ ['"']

/-- No escape goes over the end of a line. -/
theorem ne_break_of_mem_escapes {k c : Char} (h : (k, c) ∈ escapes) : k ≠ '\n' := by
  rintro rfl
  simp [escapes] at h

/-- The lexer passes over what a character is written as. -/
theorem Writes.passed {c : Char} {part : List Char} (h : Writes c part) :
    part ∈ Rule.oneOf Rule.isPlain + {['\\']} * Rule.oneOf (· != '\n') := by
  cases h with
  | itself hquote hbackslash hbreak =>
    exact .inl ⟨c, rfl, by simp [Rule.isPlain, hquote, hbackslash, hbreak]⟩
  | @escape k hk =>
    have hbreak : (k != '\n') = true := by simpa using ne_break_of_mem_escapes hk
    exact .inr ⟨_, rfl, _, ⟨k, rfl, hbreak⟩, rfl⟩

theorem escapes_of_writes {ds : List Char} {parts : List (List Char)}
    (h : List.Forall₂ Writes ds parts) :
    (∀ part ∈ parts, part ∈ Rule.oneOf Rule.isPlain + {['\\']} * Rule.oneOf (· != '\n')) ∧
      Escapes parts.flatten ds := by
  induction h with
  | nil => exact ⟨List.forall_mem_nil _, .nil⟩
  | cons hwrites _ ih =>
    obtain ⟨hparts, hescapes⟩ := ih
    refine ⟨List.forall_mem_cons.2 ⟨hwrites.passed, hparts⟩, ?_⟩
    cases hwrites with
    | itself _ hbackslash _ => exact .plain hbackslash hescapes
    | escape hk => exact .escape hk hescapes

theorem exists_writes {body ds : List Char} (hbody : body ∈ Rule.inside) (h : Escapes body ds) :
    ∃ parts, List.Forall₂ Writes ds parts ∧ body = parts.flatten := by
  obtain ⟨parts, rfl, hparts⟩ := Language.mem_kstar.1 hbody
  refine ⟨parts, ?_, rfl⟩
  clear hbody
  induction parts generalizing ds with
  | nil =>
    cases h
    exact .nil
  | cons part parts ih =>
    obtain ⟨hpart, hrest⟩ := List.forall_mem_cons.1 hparts
    rcases hpart with ⟨c, rfl, hc⟩ | ⟨_, rfl, _, ⟨k, rfl, -⟩, rfl⟩
    · simp only [Rule.isPlain, Bool.and_eq_true, bne_iff_ne] at hc
      obtain ⟨⟨hquote, hbackslash⟩, hbreak⟩ := hc
      change Escapes (c :: parts.flatten) ds at h
      generalize parts.flatten = rest at h ih
      cases h with
      | plain _ h => exact .cons (.itself hquote hbackslash hbreak) (ih hrest h)
      | escape _ _ => exact absurd rfl hbackslash
    · change Escapes ('\\' :: k :: parts.flatten) ds at h
      cases h with
      | plain hbackslash _ => exact absurd rfl hbackslash
      | escape hk h => exact .cons (.escape hk) (ih hrest h)

/-- What can stand inside a literal and is read as a text consists of its characters, each written in
one of its ways. -/
theorem escapes_iff {body ds : List Char} :
    body ∈ Rule.inside ∧ Escapes body ds ↔
      ∃ parts, List.Forall₂ Writes ds parts ∧ body = parts.flatten := by
  constructor
  · rintro ⟨hbody, h⟩
    exact exists_writes hbody h
  · rintro ⟨parts, h, rfl⟩
    obtain ⟨hparts, hescapes⟩ := escapes_of_writes h
    exact ⟨Language.mem_kstar.2 ⟨parts, rfl, hparts⟩, hescapes⟩

theorem encodes_iff {source s : String} :
    Encodes source s ↔
      ∃ body ∈ Rule.inside, Escapes body s.toList ∧ source.toList = '"' :: body ++ ['"'] := by
  constructor
  · rintro ⟨parts, hparts, hsource⟩
    obtain ⟨hbody, h⟩ := escapes_iff.2 ⟨parts, hparts, rfl⟩
    exact ⟨_, hbody, h, hsource⟩
  · rintro ⟨body, hbody, h, hsource⟩
    obtain ⟨parts, hparts, rfl⟩ := escapes_iff.1 ⟨hbody, h⟩
    exact ⟨parts, hparts, hsource⟩

end Text

/-! ## The token of a literal -/

/-- A string token is read from a literal of the string. -/
theorem Token.Munched.string_body {s : String} {text rest : List Char}
    (h : (Token.string s).Munched text rest) :
    ∃ body ∈ Rule.inside, Text.Escapes body s.toList ∧ text = '"' :: body ++ ['"'] := by
  cases h with
  | matched hwins hdenotes =>
    cases hdenotes with
    | @string body value hescapes =>
      obtain ⟨body', hbody, heq⟩ := Rule.mem_string.1 hwins.own.2
      obtain rfl : body = body' := by simpa using heq
      exact ⟨body, hbody, by simpa using hescapes, rfl⟩

/-- A lexeme that spans the whole source is the only piece of it. -/
theorem Tiled.munched_whole {file : FileId} {source : String} {t : Token}
    (h : Tiled file 0 source.toList [⟨t, ⟨0, source.utf8ByteSize, file⟩⟩] []) :
    t.Munched source.toList [] := by
  have hsize := source.utf8Len_toList
  generalize source.toList = cs at h hsize
  generalize source.utf8ByteSize = n at h hsize
  cases h with
  | @skip _ _ w _ _ _ _ hwins h =>
    have hstart := h.le_start _ (List.mem_singleton.2 rfl)
    have hw : w = [] := String.utf8Len_eq_zero.1 (by simpa using hstart)
    obtain ⟨c, cs, hcons, -⟩ := Rule.exists_cons_of_mem hwins.own.2
    cases hw.symm.trans hcons
  | @token _ _ w rest _ _ _ hmunched _ =>
    obtain rfl : rest = [] := by
      refine String.utf8Len_eq_zero.1 ?_
      rw [String.utf8Len_append] at hsize
      omega
    simpa using hmunched

theorem Piece.cut_literal {body : List Char} (hbody : body ∈ Rule.inside) :
    cut ('"' :: body ++ ['"']) = [⟨.string, '"' :: body ++ ['"']⟩] := by
  have hfirst : first '"' (body ++ ['"']) = (⟨.string, '"' :: body ++ ['"']⟩, []) := by
    have hinside := Rule.insideFrom_quote (t := []) hbody
    have hliteral : first '"' (body ++ ['"']) = literal (body ++ ['"']) := rfl
    rw [hliteral, literal, hinside]
    rfl
  rw [List.cons_append, cut_cons, hfirst, cut_nil]
  rfl

/-- String literals round-trip.  A source is one string token, and no diagnostic, exactly if it is
a literal of that string. -/
theorem lex_string_iff (file : FileId) (source s : String) :
    lex file source = ([⟨.string s, ⟨0, source.utf8ByteSize, file⟩⟩], []) ↔
      Text.Encodes source s := by
  rw [Text.encodes_iff]
  constructor
  · intro h
    have htiled := lex_tiled file source
    rw [h] at htiled
    exact htiled.munched_whole.string_body
  · rintro ⟨body, hbody, hescapes, hsource⟩
    have hread : Piece.read ⟨.string, source.toList⟩ = some (.ok (.string s)) := by
      have hvalue := Text.readEscaped_eq_ok.2 hescapes
      simp [Piece.read, hsource, hvalue]
    have hcut : Piece.cut source.toList = [⟨.string, source.toList⟩] := by
      rw [hsource, Piece.cut_literal hbody]
    simp [lex, hcut, Lexing.add_token hread, Piece.byteSize_eq]

/-! ## What is found at a span -/

namespace Tiled

variable {file : FileId} {offset : Nat} {cs : List Char} {ls : List Lexeme} {ds : List Diagnostic}

theorem start_lt (h : Tiled file offset cs ls ds) : ∀ l ∈ ls, l.span.start < l.span.stop := by
  induction h with
  | nil => simp
  | skip _ _ _ ih => exact ih
  | @token _ _ w _ _ _ _ ht _ ih | @problem _ _ w _ _ _ ht _ ih =>
    have hpos : String.utf8Len w ≠ 0 := fun h0 => ht.text_ne_nil (String.utf8Len_eq_zero.1 h0)
    refine List.forall_mem_cons.2 ⟨?_, ih⟩
    dsimp only
    omega

/-- No two lexemes have the same span. -/
theorem nodup_spans (h : Tiled file offset cs ls ds) : (ls.map (·.span)).Nodup := by
  refine List.pairwise_map.2 (h.apart.imp_of_mem fun {l l'} _ hl' hapart hspan => ?_)
  have hlt := h.start_lt l' hl'
  rw [hspan] at hapart
  omega

/-- No two diagnostics have the same span. -/
theorem nodup_diagnosed (h : Tiled file offset cs ls ds) : (ds.map (·.span)).Nodup := by
  rw [h.diagnosed]
  exact h.nodup_spans.sublist (List.filter_sublist.map _)

end Tiled

/-- A key that no two entries share picks out one entry. -/
theorem filter_of_nodup_keys {α β : Type} [DecidableEq β] {key : α → β} {xs : List α}
    (h : (xs.map key).Nodup) {x : α} (hx : x ∈ xs) : xs.filter (key · = key x) = [x] := by
  obtain ⟨as, bs, rfl⟩ := List.append_of_mem hx
  rw [List.map_append, List.map_cons, List.nodup_middle, List.nodup_cons, List.mem_append] at h
  have hnone (cs : List α) (hcs : key x ∉ cs.map key) : cs.filter (key · = key x) = [] := by
    refine List.filter_eq_nil_iff.2 fun c hc heq => hcs ?_
    exact List.mem_map.2 ⟨c, hc, by simpa using heq⟩
  simp [hnone as fun hmem => h.1 (.inl hmem), hnone bs fun hmem => h.1 (.inr hmem)]

namespace Lexing

variable {file : FileId} {l : Lexing}

/-- What was found stays found. -/
theorem mem_foldl_add (ps : List Piece) :
    (∀ x ∈ l.lexemes, x ∈ (ps.foldl (add file) l).lexemes) ∧
      ∀ d ∈ l.diagnostics, d ∈ (ps.foldl (add file) l).diagnostics := by
  rw [foldl_add_behind]
  exact ⟨fun x hx => List.mem_append_right _ hx, fun d hd => List.mem_append_right _ hd⟩

theorem offset_foldl_add (ps : List Piece) :
    (ps.foldl (add file) l).offset = l.offset + String.utf8Len (ps.flatMap (·.text)) := by
  induction ps generalizing l with
  | nil => simp
  | cons p ps ih =>
    rw [List.foldl_cons, ih, offset_add, List.flatMap_cons, String.utf8Len_append, Nat.add_assoc]

end Lexing

/-- The span of a piece that stands behind the given ones. -/
def Piece.spanBehind (file : FileId) (before : List Piece) (p : Piece) : Span :=
  let start := String.utf8Len (before.flatMap (·.text))
  ⟨start, start + String.utf8Len p.text, file⟩

/-- The lexer finds one lexeme at a span, which is the given token, and has the given problems
there. -/
structure FoundAt (file : FileId) (source : String) (span : Span) (t : Token) (es : List Problem) :
    Prop where
  /-- The lexemes there. -/
  lexeme : (lex file source).1.filter (·.span = span) = [⟨t, span⟩]
  /-- The problems there. -/
  problems : (lex file source).2.filter (·.span = span) = es.map (⟨span, ·⟩)

section

variable {source : String} {before after : List Piece} {p : Piece} (file : FileId)

theorem foundAt_of_token (hcut : Piece.cut source.toList = before ++ p :: after) {t : Token}
    (hread : p.read = some (.ok t)) (hvalid : t ≠ .invalid) :
    FoundAt file source (p.spanBehind file before) t [] := by
  have htiled := lex_tiled file source
  have hmem : ⟨t, p.spanBehind file before⟩ ∈ (lex file source).1 := by
    have hoffset := @Lexing.offset_foldl_add file ⟨0, [], []⟩ before
    rw [lex, hcut, List.foldl_append, List.foldl_cons, Lexing.add_token hread]
    refine List.mem_reverse.2 ((Lexing.mem_foldl_add after).1 _ ?_)
    simp [hoffset, Piece.spanBehind, Piece.byteSize_eq]
  refine ⟨filter_of_nodup_keys htiled.nodup_spans hmem, List.filter_eq_nil_iff.2 fun d hd heq => ?_⟩
  -- A diagnostic at the span belongs to an invalid lexeme there, and the only lexeme is valid.
  have hspan := List.mem_map_of_mem (f := (·.span)) hd
  rw [htiled.diagnosed] at hspan
  obtain ⟨l, hl, hlspan⟩ := List.mem_map.1 hspan
  obtain ⟨hlmem, hinvalid⟩ := List.mem_filter.1 hl
  have hsame := List.inj_on_of_nodup_map htiled.nodup_spans hlmem hmem
    (hlspan.trans (of_decide_eq_true heq))
  rw [hsame] at hinvalid
  exact hvalid (of_decide_eq_true hinvalid)

theorem foundAt_of_problem (hcut : Piece.cut source.toList = before ++ p :: after) {e : Problem}
    (hread : p.read = some (.error e)) :
    FoundAt file source (p.spanBehind file before) .invalid [e] := by
  have htiled := lex_tiled file source
  have hoffset := @Lexing.offset_foldl_add file ⟨0, [], []⟩ before
  have hmem : ⟨.invalid, p.spanBehind file before⟩ ∈ (lex file source).1 ∧
      ⟨p.spanBehind file before, e⟩ ∈ (lex file source).2 := by
    rw [lex, hcut, List.foldl_append, List.foldl_cons, Lexing.add_problem hread]
    refine ⟨List.mem_reverse.2 ((Lexing.mem_foldl_add after).1 _ ?_),
      List.mem_reverse.2 ((Lexing.mem_foldl_add after).2 _ ?_)⟩
    · simp [hoffset, Piece.spanBehind, Piece.byteSize_eq]
    · simp [hoffset, Piece.spanBehind, Piece.byteSize_eq]
  exact ⟨filter_of_nodup_keys htiled.nodup_spans hmem.1,
    filter_of_nodup_keys htiled.nodup_diagnosed hmem.2⟩

end

/-! ## Integers -/

/-- The number that digits with separators between them stand for in the decimal system. -/
def Rule.decimal (text : List Char) : Nat :=
  Nat.ofDigits 10 ((digits text).map fun c => c.toNat - '0'.toNat).reverse

theorem Rule.ofDigits_digits (text : List Char) : Double.ofDigits (digits text) = decimal text := by
  rw [Double.ofDigits_eq_foldl, decimal, Nat.ofDigits_eq_foldr, List.foldr_reverse, List.foldl_map]
  congr 1
  funext n c
  exact Nat.add_comm ..

theorem Piece.readInt?_eq_some {text : List Char} {n : Nat} :
    readInt? text = some n ↔ n = Rule.decimal text ∧ n ≤ maxInt := by
  rw [readInt?_eq, Rule.ofDigits_digits]
  split
  · simp only [Option.some.injEq]
    constructor
    · rintro rfl
      exact ⟨rfl, ‹_›⟩
    · rintro ⟨rfl, -⟩
      rfl
  · simp only [reduceCtorEq, false_iff, not_and]
    rintro rfl
    assumption

theorem Piece.cut_int {text : List Char} (htext : text ∈ Rule.int.language) :
    cut text = [⟨.int, text⟩] := by
  obtain ⟨c, cs, rfl, hc, hcs⟩ := Rule.mem_runOf.1 htext
  have htake : cs.takeWhile continuesDigits = cs := List.takeWhile_eq_self_iff.2 hcs
  have hdrop : cs.dropWhile continuesDigits = [] := List.dropWhile_eq_nil_iff.2 hcs
  have hfirst : first c cs = (⟨.int, c :: cs⟩, []) := by
    simp [first, Rule.isBlank_eq_false_of_isDigit hc, Rule.isLetter_eq_false_of_isDigit hc, hc,
      number, run, htake, hdrop]
  rw [cut_cons, hfirst, cut_nil]

/-- Integer literals are exact.  A text of digits and separators is read as a number exactly if
it stands for that number in the decimal system and the number is at most `2 ^ 63 - 1`.  Otherwise
nothing is read, and wherever the lexer comes to the text in a source, it finds one invalid lexeme
there and one problem, with the code of a number that is too large. -/
theorem int_literal_exact {text : List Char} (htext : text ∈ Rule.int.language) :
    (∀ n, Piece.readInt? text = some n ↔ n = Rule.decimal text ∧ n ≤ 2 ^ 63 - 1) ∧
      (Piece.readInt? text = none ↔ 2 ^ 63 - 1 < Rule.decimal text) ∧
      Piece.cut text = [⟨.int, text⟩] ∧
      ∀ file source before after, Piece.cut source.toList = before ++ ⟨.int, text⟩ :: after →
        let span := Piece.spanBehind file before ⟨.int, text⟩
        (Rule.decimal text ≤ 2 ^ 63 - 1 →
          FoundAt file source span (.int (Rule.decimal text)) []) ∧
        (2 ^ 63 - 1 < Rule.decimal text →
          ∃ e : Problem, e.code = "EL02" ∧ FoundAt file source span .invalid [e]) := by
  have hmax : maxInt = 2 ^ 63 - 1 := rfl
  have hsome (n : Nat) := @Piece.readInt?_eq_some text n
  have hnone : Piece.readInt? text = none ↔ maxInt < Rule.decimal text := by
    rw [Option.eq_none_iff_forall_ne_some]
    simp [hsome]
  rw [← hmax]
  refine ⟨hsome, hnone, Piece.cut_int htext, fun file source before after hcut => ⟨?_, ?_⟩⟩
  · intro hsmall
    have hread : Piece.read ⟨.int, text⟩ = some (.ok (.int (Rule.decimal text))) := by
      simp only [Piece.read, (hsome _).2 ⟨rfl, hsmall⟩]
    exact foundAt_of_token file hcut hread (by simp)
  · intro hlarge
    have hread : Piece.read ⟨.int, text⟩ = some (.error .numberTooLarge) := by
      simp only [Piece.read, hnone.2 hlarge]
    exact ⟨.numberTooLarge, rfl, foundAt_of_problem file hcut hread⟩

/-- The first number that is too large, written with separators and with zeros in front, and the
source that consists of it. -/
theorem int_literal_exact_boundary :
    let text := "00_9_223_372_036_854_775_808".toList
    text ∈ Rule.int.language ∧ Rule.decimal text = 2 ^ 63 ∧ Piece.readInt? text = none ∧
      ∃ e : Problem, e.code = "EL02" ∧ FoundAt 0 (String.ofList text) ⟨0, 28, 0⟩ .invalid [e] := by
  intro text
  have htext : text ∈ Rule.int.language :=
    Rule.mem_runOf.2 ⟨'0', _, rfl, rfl, List.all_eq_true.1 rfl⟩
  have hvalue : Rule.decimal text = 2 ^ 63 := by decide +kernel
  obtain ⟨-, hnone, hcut, hfound⟩ := int_literal_exact htext
  have hlarge : 2 ^ 63 - 1 < Rule.decimal text := by rw [hvalue]; decide
  have hplace := (hfound 0 (String.ofList text) [] [] (by rw [String.toList_ofList, hcut]; rfl)).2
  exact ⟨htext, hvalue, hnone.2 hlarge, hplace hlarge⟩

end LetPoly
