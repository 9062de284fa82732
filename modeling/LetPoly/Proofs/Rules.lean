import Mathlib.Computability.Language
import Mathlib.Data.List.TakeWhile
import LetPoly.Token.Lexer

/-!
# The rules of tokens

Each kind of token has a rule, which is a language of texts.  Blanks and comments have rules as
well.  A source is cut by *longest match*: where a piece begins, of all rules and all beginnings of
what is left of the source, the longest text that a rule matches is taken.  Two rules match
the same text only if one is that of names and the other that of a keyword or a truth value, which
then goes first.  Where no rule matches, one character is cut off.

The lemmas `wins_…` say, family by family, which rule has the longest match at the beginning of a
source.  The first character tells the family.
-/

namespace LetPoly

open Piece
open scoped Computability

/-! ## Rules -/

/-- The rules by which a source is cut into pieces. -/
inductive Rule where
  | blank
  | comment
  | keyword (k : Keyword)
  | truth (b : Bool)
  | punctuation (p : Punctuation)
  | operator (o : Operator)
  | name
  | int
  | float
  | string
  /-- A string literal without its closing quote. -/
  | openString
  deriving DecidableEq

namespace Rule

/-- How a truth value is written. -/
def truthText : Bool → String
  | true => "true"
  | false => "false"

/-- One character of a class. -/
def oneOf (p : Char → Bool) : Language Char := {w | ∃ c, w = [c] ∧ p c = true}

/-- A character of the first class with characters of the second class behind it. -/
def runOf (p q : Char → Bool) : Language Char := oneOf p * (oneOf q)∗

/-- The characters that stand for themselves in a string literal. -/
def isPlain (c : Char) : Bool := c != '"' && c != '\\' && c != '\n'

/-- What stands between the quotes of a string literal: plain characters, and backslashes with a
character of the same line behind them. -/
def inside : Language Char := (oneOf isPlain + {['\\']} * oneOf (· != '\n'))∗

/-- The texts that a rule matches. -/
def language : Rule → Language Char
  | blank => runOf isBlank isBlank
  | comment => {['-', '-']} * (oneOf continuesComment)∗
  | keyword k => {k.text.toList}
  | truth b => {(truthText b).toList}
  | punctuation p => {p.text.toList}
  | operator o => {o.text.toList}
  | name => runOf isLetter continuesWord
  | int => runOf isDigit continuesDigits
  | float => runOf isDigit continuesDigits * ({['.']} * runOf isDigit continuesDigits)
  | string => {['"']} * (inside * {['"']})
  | openString => {['"']} * inside

/-- Whether what a rule matches is passed over. -/
def isSkipped : Rule → Bool
  | blank => true
  | comment => true
  | _ => false

/-- The rule matches a beginning of a source. -/
def Matches (r : Rule) (source text : List Char) : Prop := text <+: source ∧ text ∈ r.language

/-- The rule has the longest match at the beginning of a source, and goes before other rules that
match the same text. -/
structure Wins (r : Rule) (source text : List Char) : Prop where
  /-- The rule matches. -/
  own : r.Matches source text
  /-- No rule matches more. -/
  longest : ∀ r' text', Rule.Matches r' source text' → text'.length ≤ text.length
  /-- Another rule that matches as much is the rule of names. -/
  rivals : ∀ r' : Rule, text ∈ r'.language → r' = r ∨ r' = .name

/-- The longest match is determined by the source. -/
theorem Wins.unique {r r' : Rule} {source text text' : List Char} (h : r.Wins source text)
    (h' : r'.Wins source text') : r = r' ∧ text = text' := by
  have hlength : text.length = text'.length :=
    Nat.le_antisymm (h'.longest r text h.own) (h.longest r' text' h'.own)
  have htext : text = text' :=
    (List.prefix_of_prefix_length_le h.own.1 h'.own.1 hlength.le).eq_of_length hlength
  subst htext
  refine ⟨?_, rfl⟩
  rcases h.rivals r' h'.own.2 with heq | heq
  · exact heq.symm
  · rcases h'.rivals r h.own.2 with heq' | heq'
    · exact heq'
    · exact heq'.trans heq.symm

end Rule

/-! ## What a match stands for -/

/-- The characters that a backslash combines with, and what they become. -/
def Text.escapes : List (Char × Char) :=
  [('n', '\n'), ('t', '\t'), ('r', '\r'), ('0', '\x00'), ('\\', '\\'), ('"', '"')]

/-- The inside of a string literal stands for a text. -/
inductive Text.Escapes : List Char → List Char → Prop where
  | nil : Escapes [] []
  | plain {c : Char} {cs ds : List Char} (hc : c ≠ '\\') (h : Escapes cs ds) :
      Escapes (c :: cs) (c :: ds)
  | escape {c d : Char} {cs ds : List Char} (hc : (c, d) ∈ escapes) (h : Escapes cs ds) :
      Escapes ('\\' :: c :: cs) (d :: ds)

/-- The digits of a number, without what separates them. -/
def Rule.digits (text : List Char) : List Char := text.filter (· != '_')

/-- The double of a text with digits before and behind the point. -/
def Rule.double (before behind : List Char) : Double :=
  .ofPositional (digits before) (digits behind) 0

/-- What a text stands for that a rule matches.  A number may be too large, and a string literal may
have an escape that there is not.  Then the token is invalid. -/
inductive Rule.Denotes : Rule → List Char → Token → Prop where
  | keyword (k : Keyword) (text : List Char) : Denotes (.keyword k) text (.keyword k)
  | truth (b : Bool) (text : List Char) : Denotes (.truth b) text (.bool b)
  | punctuation (p : Punctuation) (text : List Char) : Denotes (.punctuation p) text (.punctuation p)
  | operator (o : Operator) (text : List Char) : Denotes (.operator o) text (.operator o)
  | name (text : List Char) : Denotes .name text (.name (String.ofList text))
  | int {text : List Char} (h : Double.ofDigits (digits text) ≤ maxInt) :
      Denotes .int text (.int (Double.ofDigits (digits text)))
  | largeInt {text : List Char} (h : maxInt < Double.ofDigits (digits text)) :
      Denotes .int text .invalid
  | float {before behind : List Char} (hpoint : '.' ∉ before)
      (h : (double before behind).isFinite = true) :
      Denotes .float (before ++ '.' :: behind) (.float (double before behind))
  | largeFloat {before behind : List Char} (hpoint : '.' ∉ before)
      (h : (double before behind).isFinite = false) :
      Denotes .float (before ++ '.' :: behind) .invalid
  | string {body value : List Char} (h : Text.Escapes body value) :
      Denotes .string ('"' :: body ++ ['"']) (.string (String.ofList value))
  | badEscape {body : List Char} (h : ∀ value, ¬ Text.Escapes body value) :
      Denotes .string ('"' :: body ++ ['"']) .invalid
  | openString (text : List Char) : Denotes .openString text .invalid

/-- The token of a text is the one of the longest match, where `rest` follows the text.  A character
where no rule matches is invalid. -/
inductive Token.Munched : Token → List Char → List Char → Prop where
  | matched {r : Rule} {t : Token} {text rest : List Char} (hwins : r.Wins (text ++ rest) text)
      (hdenotes : r.Denotes text t) : Munched t text rest
  | stray {c : Char} {rest : List Char} (h : ∀ r text, ¬ Rule.Matches r (c :: rest) text) :
      Munched .invalid [c] rest

/-! ## Texts of a language -/

namespace Rule

/-- A repetition of one character of a kind is a text of such characters. -/
theorem mem_star_oneOf {p : Char → Bool} {w : List Char} :
    w ∈ (oneOf p)∗ ↔ ∀ c ∈ w, p c = true := by
  rw [Language.mem_kstar]
  constructor
  · rintro ⟨L, rfl, hL⟩ c hc
    obtain ⟨y, hy, hcy⟩ := List.mem_flatten.1 hc
    obtain ⟨d, rfl, hd⟩ := hL y hy
    rw [List.mem_singleton.1 hcy]
    exact hd
  · intro h
    refine ⟨w.map fun c => [c], by rw [← List.flatMap_def, List.flatMap_singleton'], fun y hy => ?_⟩
    obtain ⟨c, hc, rfl⟩ := List.mem_map.1 hy
    exact ⟨c, rfl, h c hc⟩

/-- A run is a character that begins it and characters that continue it. -/
theorem mem_runOf {p q : Char → Bool} {w : List Char} :
    w ∈ runOf p q ↔ ∃ c cs, w = c :: cs ∧ p c = true ∧ ∀ d ∈ cs, q d = true := by
  rw [runOf, Language.mem_mul]
  constructor
  · rintro ⟨_, ⟨c, rfl, hc⟩, cs, hcs, rfl⟩
    exact ⟨c, cs, rfl, hc, mem_star_oneOf.1 hcs⟩
  · rintro ⟨c, cs, rfl, hc, hcs⟩
    exact ⟨[c], ⟨c, rfl, hc⟩, cs, mem_star_oneOf.2 hcs, rfl⟩

/-- A comment is two dashes and what continues it. -/
theorem mem_comment {w : List Char} :
    w ∈ comment.language ↔ ∃ cs, w = '-' :: '-' :: cs ∧ ∀ c ∈ cs, continuesComment c = true := by
  change w ∈ {['-', '-']} * (oneOf continuesComment)∗ ↔ _
  rw [Language.mem_mul]
  constructor
  · rintro ⟨_, rfl, cs, hcs, rfl⟩
    exact ⟨cs, rfl, mem_star_oneOf.1 hcs⟩
  · rintro ⟨cs, rfl, hcs⟩
    exact ⟨_, rfl, cs, mem_star_oneOf.2 hcs, rfl⟩

/-- A number with a point has digits on both sides of it. -/
theorem mem_float {w : List Char} :
    w ∈ float.language ↔ ∃ c cs d ds, w = c :: cs ++ '.' :: d :: ds ∧ isDigit c = true ∧
      (∀ e ∈ cs, continuesDigits e = true) ∧ isDigit d = true ∧
      ∀ e ∈ ds, continuesDigits e = true := by
  change w ∈ runOf isDigit continuesDigits * ({['.']} * runOf isDigit continuesDigits) ↔ _
  rw [Language.mem_mul]
  constructor
  · rintro ⟨_, hbefore, _, ⟨_, rfl, _, hbehind, rfl⟩, rfl⟩
    obtain ⟨c, cs, rfl, hc, hcs⟩ := mem_runOf.1 hbefore
    obtain ⟨d, ds, rfl, hd, hds⟩ := mem_runOf.1 hbehind
    exact ⟨c, cs, d, ds, rfl, hc, hcs, hd, hds⟩
  · rintro ⟨c, cs, d, ds, rfl, hc, hcs, hd, hds⟩
    exact ⟨c :: cs, mem_runOf.2 ⟨c, cs, rfl, hc, hcs⟩, _,
      ⟨_, rfl, d :: ds, mem_runOf.2 ⟨d, ds, rfl, hd, hds⟩, rfl⟩, rfl⟩

/-- A string literal is what stands inside it, in quotes. -/
theorem mem_string {w : List Char} :
    w ∈ string.language ↔ ∃ body ∈ inside, w = '"' :: body ++ ['"'] := by
  change w ∈ {['"']} * (inside * {['"']}) ↔ _
  rw [Language.mem_mul]
  constructor
  · rintro ⟨_, rfl, _, ⟨body, hbody, _, rfl, rfl⟩, rfl⟩
    exact ⟨body, hbody, rfl⟩
  · rintro ⟨body, hbody, rfl⟩
    exact ⟨_, rfl, _, ⟨body, hbody, _, rfl, rfl⟩, rfl⟩

/-- A string literal without an end has only the first quote. -/
theorem mem_openString {w : List Char} :
    w ∈ openString.language ↔ ∃ body ∈ inside, w = '"' :: body := by
  change w ∈ {['"']} * inside ↔ _
  rw [Language.mem_mul]
  constructor
  · rintro ⟨_, rfl, body, hbody, rfl⟩
    exact ⟨body, hbody, rfl⟩
  · rintro ⟨body, hbody, rfl⟩
    exact ⟨_, rfl, body, hbody, rfl⟩

/-! ## What the first character tells -/

/-- The families of rules.  The first character of a text tells the family. -/
inductive Family where
  | blank
  | word
  | number
  | quoted
  | mark
  deriving DecidableEq

/-- The family of the rules that match texts with a first character. -/
def Family.of (c : Char) : Family :=
  if isBlank c then blank
  else if isLetter c then word
  else if isDigit c then number
  else if c = '"' then quoted
  else mark

/-- The family of a rule. -/
def family : Rule → Family
  | blank => .blank
  | keyword _ => .word
  | truth _ => .word
  | name => .word
  | int => .number
  | float => .number
  | string => .quoted
  | openString => .quoted
  | comment => .mark
  | punctuation _ => .mark
  | operator _ => .mark

theorem isBlank_eq_false_of_isLetter {c : Char} (h : isLetter c = true) : isBlank c = false := by
  rw [Bool.eq_false_iff]
  intro hblank
  simp only [isBlank, Bool.or_eq_true, beq_iff_eq] at hblank
  rcases hblank with (((rfl | rfl) | rfl) | rfl) | rfl <;> revert h <;> decide

theorem isBlank_eq_false_of_isDigit {c : Char} (h : isDigit c = true) : isBlank c = false := by
  rw [Bool.eq_false_iff]
  intro hblank
  simp only [isBlank, Bool.or_eq_true, beq_iff_eq] at hblank
  rcases hblank with (((rfl | rfl) | rfl) | rfl) | rfl <;> revert h <;> decide

theorem isLetter_eq_false_of_isDigit {c : Char} (h : isDigit c = true) : isLetter c = false := by
  simp only [isDigit, isLetter, Bool.and_eq_true, decide_eq_true_eq, Char.le_def,
    UInt32.le_iff_toNat_le, Bool.or_eq_false_iff, Bool.and_eq_false_iff, decide_eq_false_iff_not] at h ⊢
  have hA : 'A'.val.toNat = 65 := rfl
  have ha : 'a'.val.toNat = 97 := rfl
  have h9 : '9'.val.toNat = 57 := rfl
  omega

theorem Family.of_blank {c : Char} (h : isBlank c = true) : Family.of c = .blank := by
  simp [Family.of, h]

theorem Family.of_word {c : Char} (h : isLetter c = true) : Family.of c = .word := by
  simp [Family.of, h, isBlank_eq_false_of_isLetter h]

theorem Family.of_number {c : Char} (h : isDigit c = true) : Family.of c = .number := by
  simp [Family.of, h, isBlank_eq_false_of_isDigit h, isLetter_eq_false_of_isDigit h]

/-- A text that a rule matches has a first character, which tells the family. -/
theorem exists_cons_of_mem {r : Rule} {w : List Char} (h : w ∈ r.language) :
    ∃ c cs, w = c :: cs ∧ Family.of c = r.family := by
  cases r with
  | blank =>
    obtain ⟨c, cs, rfl, hc, -⟩ := mem_runOf.1 h
    exact ⟨c, cs, rfl, Family.of_blank hc⟩
  | comment =>
    obtain ⟨cs, rfl, -⟩ := mem_comment.1 h
    exact ⟨_, _, rfl, by decide⟩
  | keyword k =>
    cases (h : w = _)
    cases k <;> exact ⟨_, _, rfl, by decide⟩
  | truth b =>
    cases (h : w = _)
    cases b <;> exact ⟨_, _, rfl, by decide⟩
  | punctuation p =>
    cases (h : w = _)
    cases p <;> exact ⟨_, _, rfl, by decide⟩
  | operator o =>
    cases (h : w = _)
    cases o <;> exact ⟨_, _, rfl, by decide⟩
  | name =>
    obtain ⟨c, cs, rfl, hc, -⟩ := mem_runOf.1 h
    exact ⟨c, cs, rfl, Family.of_word hc⟩
  | int =>
    obtain ⟨c, cs, rfl, hc, -⟩ := mem_runOf.1 h
    exact ⟨c, cs, rfl, Family.of_number hc⟩
  | float =>
    obtain ⟨c, cs, d, ds, rfl, hc, -⟩ := mem_float.1 h
    exact ⟨c, _, rfl, Family.of_number hc⟩
  | string =>
    obtain ⟨body, -, rfl⟩ := mem_string.1 h
    exact ⟨_, _, rfl, by decide⟩
  | openString =>
    obtain ⟨body, -, rfl⟩ := mem_openString.1 h
    exact ⟨_, _, rfl, by decide⟩

/-- A match at a character is by a rule of its family. -/
theorem Matches.family_eq {r : Rule} {c : Char} {cs text : List Char}
    (h : r.Matches (c :: cs) text) : r.family = Family.of c := by
  obtain ⟨d, ds, rfl, hd⟩ := exists_cons_of_mem h.2
  rw [← (List.cons_prefix_cons.1 h.1).1]
  exact hd.symm

/-- A text belongs to the family of its first character. -/
theorem family_eq_of_mem {r : Rule} {c : Char} {cs : List Char} (h : c :: cs ∈ r.language) :
    r.family = Family.of c :=
  Matches.family_eq ⟨List.prefix_rfl, h⟩

theorem eq_of_family_blank {r : Rule} (h : r.family = .blank) : r = .blank := by
  cases r <;> first | rfl | cases h

/-- The text and the token of a rule of a fixed word. -/
def word? : Rule → Option (String × Token)
  | keyword k => some (k.text, .keyword k)
  | truth b => some (truthText b, .bool b)
  | _ => none

/-- A word is a name, a keyword or a truth value. -/
theorem eq_of_family_word {r : Rule} (h : r.family = .word) :
    r = .name ∨ ∃ s t, r.word? = some (s, t) := by
  cases r with
  | name => exact .inl rfl
  | keyword k => exact .inr ⟨_, _, rfl⟩
  | truth b => exact .inr ⟨_, _, rfl⟩
  | _ => cases h

/-- A number is an integer or has a point. -/
theorem eq_of_family_number {r : Rule} (h : r.family = .number) : r = .int ∨ r = .float := by
  cases r with
  | int => exact .inl rfl
  | float => exact .inr rfl
  | _ => cases h

/-- What begins with a quote is a string literal, with or without an end. -/
theorem eq_of_family_quoted {r : Rule} (h : r.family = .quoted) :
    r = .string ∨ r = .openString := by
  cases r with
  | string => exact .inl rfl
  | openString => exact .inr rfl
  | _ => cases h

/-! ## Blanks and words -/

/-- A beginning all of which satisfies a condition is not longer than what does at the beginning. -/
theorem length_le_takeWhile {p : Char → Bool} {w cs : List Char} (hw : w <+: cs)
    (hp : ∀ c ∈ w, p c = true) : w.length ≤ (cs.takeWhile p).length := by
  obtain ⟨rest, rfl⟩ := hw
  rw [List.takeWhile_append_of_pos hp, List.length_append]
  exact Nat.le_add_right ..

theorem run_prefix_source (p : Char → Bool) (c : Char) (cs : List Char) :
    c :: cs.takeWhile p <+: c :: cs :=
  List.cons_prefix_cons.2 ⟨rfl, List.takeWhile_prefix p⟩

theorem run_mem {p q : Char → Bool} {c : Char} (hc : p c = true) (cs : List Char) :
    c :: cs.takeWhile q ∈ runOf p q :=
  mem_runOf.2 ⟨c, _, rfl, hc, fun _ hd => List.mem_takeWhile_imp hd⟩

/-- No run is longer than one that takes all it can. -/
theorem run_longest {p q : Char → Bool} {c : Char} {cs w : List Char} (hw : w <+: c :: cs)
    (hmem : w ∈ runOf p q) : w.length ≤ (c :: cs.takeWhile q).length := by
  obtain ⟨d, ds, rfl, -, hds⟩ := mem_runOf.1 hmem
  exact Nat.succ_le_succ (length_le_takeWhile (List.cons_prefix_cons.1 hw).2 hds)

/-- Of a text that begins with a blank all blanks at the beginning are taken. -/
theorem wins_blank {c : Char} (hc : isBlank c = true) (cs : List Char) :
    blank.Wins (c :: cs) (c :: cs.takeWhile isBlank) where
  own := ⟨run_prefix_source .., run_mem hc cs⟩
  longest r w h := by
    obtain rfl := eq_of_family_blank (h.family_eq.trans (Family.of_blank hc))
    exact run_longest h.1 h.2
  rivals r h := .inl (eq_of_family_blank ((family_eq_of_mem h).trans (Family.of_blank hc)))

/-- The rule of a fixed word takes that word only. -/
theorem mem_of_word? {r : Rule} {s : String} {t : Token} (h : r.word? = some (s, t))
    {w : List Char} : w ∈ r.language ↔ w = s.toList := by
  cases r <;> cases h <;> rfl

/-- What a rule of words matches could be a name. -/
theorem mem_name_of_word {r : Rule} (hr : r.family = .word) {w : List Char} (h : w ∈ r.language) :
    w ∈ name.language := by
  cases r with
  | name => exact h
  | keyword k =>
    cases (h : w = _)
    cases k <;> exact mem_runOf.2 ⟨_, _, rfl, by decide, List.all_eq_true.1 rfl⟩
  | truth b =>
    cases (h : w = _)
    cases b <;> exact mem_runOf.2 ⟨_, _, rfl, by decide, List.all_eq_true.1 rfl⟩
  | _ => cases hr

/-- No two rules stand for the same fixed word. -/
theorem word?_inj {r r' : Rule} {s s' : String} {t : Token} (h : r.word? = some (s, t))
    (h' : r'.word? = some (s', t)) : r' = r := by
  cases r <;> cases h <;> cases r' <;> cases h' <;> rfl

/-- The rule of a fixed word has its token. -/
theorem denotes_of_word? {r : Rule} {s : String} {t : Token} (h : r.word? = some (s, t))
    (w : List Char) : r.Denotes w t ∧ t ≠ .invalid := by
  cases r with
  | keyword k =>
    cases h
    exact ⟨.keyword k w, nofun⟩
  | truth b =>
    cases h
    exact ⟨.truth b w, nofun⟩
  | _ => cases h

/-- At a letter the whole word is taken, by its own rule rather than by that of names. -/
theorem wins_word {r : Rule} {c : Char} (hc : isLetter c = true)
    {cs : List Char} (hmem : c :: cs.takeWhile continuesWord ∈ r.language)
    (hrivals : ∀ r' : Rule, r'.family = .word → c :: cs.takeWhile continuesWord ∈ r'.language →
      r' = r ∨ r' = .name) :
    r.Wins (c :: cs) (c :: cs.takeWhile continuesWord) where
  own := ⟨run_prefix_source .., hmem⟩
  longest r' w h := by
    have hfamily := h.family_eq
    rw [Family.of_word hc] at hfamily
    exact run_longest h.1 (mem_name_of_word hfamily h.2)
  rivals r' h := by
    have hfamily := family_eq_of_mem h
    rw [Family.of_word hc] at hfamily
    exact hrivals r' hfamily h

/-! ## Numbers -/

theorem continuesDigits_point : continuesDigits '.' = false := by decide

theorem takeWhile_point {a t : List Char} (ha : ∀ e ∈ a, continuesDigits e = true) :
    (a ++ '.' :: t).takeWhile continuesDigits = a := by
  simp [List.takeWhile_append_of_pos ha, continuesDigits_point]

theorem dropWhile_point {a t : List Char} (ha : ∀ e ∈ a, continuesDigits e = true) :
    (a ++ '.' :: t).dropWhile continuesDigits = '.' :: t := by
  simp [List.dropWhile_append_of_pos ha, continuesDigits_point]

/-- A number with a point is matched only where a point and a digit stand behind all digits. -/
theorem Matches.float_shape {c : Char} {cs w : List Char} (h : float.Matches (c :: cs) w) :
    ∃ d ds, cs.dropWhile continuesDigits = '.' :: d :: ds ∧ isDigit d = true ∧
      w.length ≤
        (c :: cs.takeWhile continuesDigits ++ '.' :: d :: ds.takeWhile continuesDigits).length := by
  obtain ⟨e, a, d, b, rfl, -, ha, hd, hb⟩ := mem_float.1 h.2
  obtain ⟨rest, hrest⟩ := h.1
  obtain ⟨rfl, hcs⟩ : e = c ∧ a ++ '.' :: (d :: (b ++ rest)) = cs := by simpa using hrest
  refine ⟨d, b ++ rest, ?_, hd, ?_⟩
  · rw [← hcs, dropWhile_point ha]
  · have hlength := length_le_takeWhile (List.prefix_append b rest) hb
    rw [← hcs, takeWhile_point ha]
    simp only [List.length_append, List.length_cons]
    omega

/-- An integer has no point. -/
theorem point_not_mem_int {w : List Char} (h : w ∈ int.language) : '.' ∉ w := by
  obtain ⟨c, cs, rfl, hc, hcs⟩ := mem_runOf.1 h
  intro hmem
  rcases List.mem_cons.1 hmem with rfl | hmem
  · cases hc
  · cases hcs _ hmem

theorem point_mem_float {w : List Char} (h : w ∈ float.language) : '.' ∈ w := by
  obtain ⟨c, cs, d, ds, rfl, -⟩ := mem_float.1 h
  simp

/-- Where digits, a point and a digit follow, the longest match is a number with a point. -/
theorem wins_float {c d : Char} {cs ds : List Char} (hc : isDigit c = true)
    (hshape : cs.dropWhile continuesDigits = '.' :: d :: ds) (hd : isDigit d = true) :
    float.Wins (c :: cs)
      (c :: cs.takeWhile continuesDigits ++ '.' :: d :: ds.takeWhile continuesDigits) := by
  have hmem : c :: cs.takeWhile continuesDigits ++ '.' :: d :: ds.takeWhile continuesDigits ∈
      float.language :=
    mem_float.2 ⟨c, _, d, _, rfl, hc, fun _ he => List.mem_takeWhile_imp he, hd,
      fun _ he => List.mem_takeWhile_imp he⟩
  refine ⟨⟨?_, hmem⟩, fun r w h => ?_, fun r h => ?_⟩
  · have hcs := List.takeWhile_append_dropWhile (p := continuesDigits) (l := cs)
    rw [hshape] at hcs
    refine ⟨ds.dropWhile continuesDigits, ?_⟩
    simp only [List.cons_append, List.append_assoc, List.takeWhile_append_dropWhile, hcs]
  · obtain rfl | rfl := eq_of_family_number (h.family_eq.trans (Family.of_number hc))
    · have hlength := run_longest h.1 h.2
      simp only [List.length_cons, List.length_append] at hlength ⊢
      omega
    · obtain ⟨d', ds', hshape', -, hlength⟩ := h.float_shape
      rw [hshape] at hshape'
      cases hshape'
      exact hlength
  · obtain rfl | rfl := eq_of_family_number ((family_eq_of_mem h).trans (Family.of_number hc))
    · exact absurd (point_mem_float hmem) (point_not_mem_int h)
    · exact .inl rfl

/-- Where no digit follows the point, the longest match is an integer. -/
theorem wins_int {c : Char} {cs : List Char} (hc : isDigit c = true)
    (hshape : ∀ d ds, cs.dropWhile continuesDigits = '.' :: d :: ds → isDigit d = false) :
    int.Wins (c :: cs) (c :: cs.takeWhile continuesDigits) := by
  have hmem := run_mem (q := continuesDigits) hc cs
  refine ⟨⟨run_prefix_source .., hmem⟩, fun r w h => ?_, fun r h => ?_⟩
  · obtain rfl | rfl := eq_of_family_number (h.family_eq.trans (Family.of_number hc))
    · exact run_longest h.1 h.2
    · obtain ⟨d, ds, hpoint, hd, -⟩ := h.float_shape
      cases (hshape d ds hpoint).symm.trans hd
  · obtain rfl | rfl := eq_of_family_number ((family_eq_of_mem h).trans (Family.of_number hc))
    · exact .inl rfl
    · exact absurd (point_mem_float h) (point_not_mem_int hmem)

/-! ## String literals -/

/-- What stands inside a string literal is passed over. -/
theorem insideFrom_append {w : List Char} (hw : w ∈ inside) (acc cs : List Char) :
    insideFrom acc (w ++ cs) = insideFrom (w.reverse ++ acc) cs := by
  obtain ⟨L, rfl, hL⟩ := Language.mem_kstar.1 hw
  clear hw
  induction L generalizing acc with
  | nil => rfl
  | cons y L ih =>
    obtain ⟨hy, hL⟩ := List.forall_mem_cons.1 hL
    rw [List.flatten_cons, List.append_assoc, List.reverse_append, List.append_assoc, ← ih _ hL]
    rcases hy with ⟨c, rfl, hc⟩ | ⟨_, rfl, _, ⟨c, rfl, hc⟩, rfl⟩
    · simp only [isPlain, Bool.and_eq_true, bne_iff_ne] at hc
      simp [insideFrom, hc.1.1, hc.1.2, hc.2]
    · have hc : c ≠ '\n' := by simpa using hc
      simp [insideFrom, hc]

/-- The inside of a string literal is all that it can be. -/
theorem insideFrom_eq (acc cs : List Char) :
    ∃ w ∈ inside, ∃ rest, cs = w ++ rest ∧ insideFrom acc cs = (acc.reverse ++ w, rest) := by
  have hnil : [] ∈ inside := Language.nil_mem_kstar _
  have hcons {x w : List Char} (hx : x ∈ oneOf isPlain + {['\\']} * oneOf (· != '\n'))
      (hw : w ∈ inside) : x ++ w ∈ inside := by
    obtain ⟨L, rfl, hL⟩ := Language.mem_kstar.1 hw
    exact Language.mem_kstar.2 ⟨x :: L, rfl, List.forall_mem_cons.2 ⟨hx, hL⟩⟩
  fun_induction insideFrom acc cs with
  | case1 acc => exact ⟨[], hnil, [], rfl, by simp⟩
  | case2 acc cs => exact ⟨[], hnil, _, rfl, by simp⟩
  | case3 acc c cs hc ih =>
    obtain ⟨w, hw, rest, rfl, heq⟩ := ih
    have hc : (c != '\n') = true := by simpa using hc
    refine ⟨['\\', c] ++ w, hcons (.inr ⟨_, rfl, _, ⟨c, rfl, hc⟩, rfl⟩) hw, rest, rfl, ?_⟩
    simp [heq]
  | case4 acc c cs _ hc => exact ⟨[], hnil, _, rfl, by simp⟩
  | case5 acc c cs _ hc ih =>
    obtain ⟨w, hw, rest, rfl, heq⟩ := ih
    have hc : isPlain c = true := by simpa [isPlain, not_or, and_assoc] using hc
    exact ⟨[c] ++ w, hcons (.inl ⟨c, rfl, hc⟩) hw, rest, rfl, by simp [heq]⟩

/-- Whatever could stand inside a string literal is a beginning of what does. -/
theorem inside_prefix_source {w v cs rest : List Char} (hv : v ∈ inside) (hvcs : v <+: cs)
    (heq : insideFrom [] cs = (w, rest)) : v <+: w := by
  obtain ⟨t, rfl⟩ := hvcs
  obtain ⟨u, -, t', -, hinside⟩ := insideFrom_eq v.reverse t
  rw [insideFrom_append hv, List.append_nil, hinside, List.reverse_reverse] at heq
  exact ⟨u, congrArg Prod.fst heq⟩

/-- A closing quote ends the inside of a string literal. -/
theorem insideFrom_quote {v t : List Char} (hv : v ∈ inside) :
    insideFrom [] (v ++ '"' :: t) = (v, '"' :: t) := by
  rw [insideFrom_append hv]
  simp [insideFrom]

/-- A string literal ends at the first quote that is not escaped. -/
theorem Matches.string_shape {c : Char} {cs w : List Char} (h : string.Matches (c :: cs) w) :
    ∃ v t, w = '"' :: v ++ ['"'] ∧ insideFrom [] cs = (v, '"' :: t) := by
  obtain ⟨v, hv, rfl⟩ := mem_string.1 h.2
  obtain ⟨t, ht⟩ := h.1
  obtain ⟨-, rfl⟩ : '"' = c ∧ v ++ '"' :: t = cs := by simpa using ht
  exact ⟨v, t, rfl, insideFrom_quote hv⟩

/-- A string literal without an end reaches at most as far as the first such quote. -/
theorem Matches.openString_shape {c : Char} {cs w v rest : List Char}
    (h : openString.Matches (c :: cs) w) (heq : insideFrom [] cs = (v, rest)) :
    w.length ≤ v.length + 1 := by
  obtain ⟨u, hu, rfl⟩ := mem_openString.1 h.2
  exact Nat.succ_le_succ (inside_prefix_source hu (List.cons_prefix_cons.1 h.1).2 heq).length_le

/-- What is read inside a string literal may stand there, and the rest comes behind. -/
theorem inside_of_insideFrom {cs w rest : List Char} (heq : insideFrom [] cs = (w, rest)) :
    w ∈ inside ∧ cs = w ++ rest := by
  obtain ⟨v, hv, t, rfl, heq'⟩ := insideFrom_eq [] cs
  rw [heq'] at heq
  cases heq
  exact ⟨hv, rfl⟩

/-- If there is a quote behind what stands inside, the literal with its end is the longest match. -/
theorem wins_string {cs w rest : List Char} (heq : insideFrom [] cs = (w, '"' :: rest)) :
    string.Wins ('"' :: cs) ('"' :: w ++ ['"']) := by
  obtain ⟨hw, rfl⟩ := inside_of_insideFrom heq
  have hpre : '"' :: w ++ ['"'] <+: '"' :: (w ++ '"' :: rest) := ⟨rest, by simp⟩
  refine ⟨⟨hpre, mem_string.2 ⟨w, hw, rfl⟩⟩, fun r v h => ?_, fun r h => ?_⟩
  · obtain rfl | rfl := eq_of_family_quoted h.family_eq
    · obtain ⟨u, t, rfl, heq'⟩ := h.string_shape
      rw [heq'] at heq
      cases heq
      exact Nat.le_refl _
    · have hlength := h.openString_shape heq
      simp only [List.cons_append, List.length_cons, List.length_append]
      omega
  · obtain rfl | rfl := eq_of_family_quoted (family_eq_of_mem h)
    · exact .inl rfl
    · have hlength := Matches.openString_shape ⟨hpre, h⟩ heq
      simp only [List.cons_append, List.length_cons, List.length_append, List.length_nil] at hlength
      omega

/-- If there is no quote behind what stands inside, the literal without an end is the longest match.
-/
theorem wins_openString {cs w rest : List Char} (heq : insideFrom [] cs = (w, rest))
    (hrest : ∀ t, rest ≠ '"' :: t) : openString.Wins ('"' :: cs) ('"' :: w) := by
  obtain ⟨hw, rfl⟩ := inside_of_insideFrom heq
  have hpre : '"' :: w <+: '"' :: (w ++ rest) := ⟨rest, rfl⟩
  have hstring (v : List Char) : ¬ string.Matches ('"' :: (w ++ rest)) v := by
    intro h
    obtain ⟨u, t, -, heq'⟩ := h.string_shape
    rw [heq] at heq'
    exact hrest t (congrArg Prod.snd heq')
  refine ⟨⟨hpre, mem_openString.2 ⟨w, hw, rfl⟩⟩, fun r v h => ?_, fun r h => ?_⟩
  · obtain rfl | rfl := eq_of_family_quoted h.family_eq
    · exact absurd h (hstring v)
    · exact h.openString_shape heq
  · obtain rfl | rfl := eq_of_family_quoted (family_eq_of_mem h)
    · exact absurd ⟨hpre, h⟩ (hstring _)
    · exact .inl rfl

/-! ## Comments and symbols -/

/-- The token of a rule of symbols. -/
def symbol? : Rule → Option Token
  | punctuation p => some (.punctuation p)
  | operator o => some (.operator o)
  | _ => none

/-- A mark is a comment or a symbol. -/
theorem eq_of_family_mark {r : Rule} (h : r.family = .mark) :
    r = .comment ∨ ∃ t, r.symbol? = some t := by
  cases r with
  | comment => exact .inl rfl
  | punctuation p => exact .inr ⟨_, rfl⟩
  | operator o => exact .inr ⟨_, rfl⟩
  | _ => cases h

/-- No two rules stand for the same symbol. -/
theorem symbol?_inj {r r' : Rule} {t : Token} (h : r.symbol? = some t) (h' : r'.symbol? = some t) :
    r' = r := by
  cases r <;> cases h <;> cases r' <;> cases h' <;> rfl

theorem denotes_of_symbol? {r : Rule} {t : Token} (h : r.symbol? = some t) (w : List Char) :
    r.Denotes w t ∧ t ≠ .invalid := by
  cases r with
  | punctuation p =>
    cases h
    exact ⟨.punctuation p w, nofun⟩
  | operator o =>
    cases h
    exact ⟨.operator o w, nofun⟩
  | _ => cases h

/-- A symbol has one or two characters. -/
theorem symbol_cases {r : Rule} {t : Token} (h : r.symbol? = some t) {w : List Char}
    (hw : w ∈ r.language) :
    (∃ c, w = [c] ∧ singleSymbol? c = some t) ∨
      ∃ c d, w = [c, d] ∧ doubleSymbol? c d = some t := by
  cases r with
  | punctuation p =>
    cases h
    cases (hw : w = _)
    cases p <;> first | exact .inl ⟨_, rfl, rfl⟩ | exact .inr ⟨_, _, rfl, rfl⟩
  | operator o =>
    cases h
    cases (hw : w = _)
    cases o <;> first | exact .inl ⟨_, rfl, rfl⟩ | exact .inr ⟨_, _, rfl, rfl⟩
  | _ => cases h

/-- Each symbol of one character has a rule. -/
theorem exists_of_singleSymbol? {c : Char} {t : Token} (h : singleSymbol? c = some t) :
    ∃ r : Rule, r.symbol? = some t ∧ [c] ∈ r.language := by
  unfold singleSymbol? at h
  split at h <;> cases h <;>
    first | exact ⟨.punctuation _, rfl, rfl⟩ | exact ⟨.operator _, rfl, rfl⟩

/-- Each symbol of two characters has a rule. -/
theorem exists_of_doubleSymbol? {c d : Char} {t : Token} (h : doubleSymbol? c d = some t) :
    ∃ r : Rule, r.symbol? = some t ∧ [c, d] ∈ r.language := by
  unfold doubleSymbol? at h
  split at h <;> cases h <;>
    first | exact ⟨.punctuation _, rfl, rfl⟩ | exact ⟨.operator _, rfl, rfl⟩

/-- What can be matched at a character that begins neither a blank, a word, a number nor a
literal. -/
theorem Matches.mark {r : Rule} {c : Char} {cs w : List Char} (hc : Family.of c = .mark)
    (h : r.Matches (c :: cs) w) :
    (r = .comment ∧ c = '-' ∧ ∃ ds, cs = '-' :: ds) ∨ ∃ t, r.symbol? = some t ∧
      ((w = [c] ∧ singleSymbol? c = some t) ∨
        ∃ d ds, cs = d :: ds ∧ w = [c, d] ∧ doubleSymbol? c d = some t) := by
  obtain rfl | ⟨t, ht⟩ := eq_of_family_mark (h.family_eq.trans hc)
  · obtain ⟨ds, rfl, -⟩ := mem_comment.1 h.2
    obtain ⟨rfl, rest, rfl⟩ := List.cons_prefix_cons.1 h.1
    exact .inl ⟨rfl, rfl, _, rfl⟩
  · refine .inr ⟨t, ht, ?_⟩
    obtain ⟨d, rfl, hd⟩ | ⟨d, e, rfl, hde⟩ := symbol_cases ht h.2
    · obtain ⟨rfl, -⟩ := List.cons_prefix_cons.1 h.1
      exact .inl ⟨rfl, hd⟩
    · obtain ⟨rfl, rest, rfl⟩ := List.cons_prefix_cons.1 h.1
      exact .inr ⟨e, _, rfl, rfl, hde⟩

/-- Two dashes begin a comment, which is longer than the symbol of one dash. -/
theorem wins_comment (ds : List Char) :
    comment.Wins ('-' :: '-' :: ds) ('-' :: ('-' :: ds).takeWhile continuesComment) := by
  have htext : ('-' :: ds).takeWhile continuesComment = '-' :: ds.takeWhile continuesComment := rfl
  have hmem : '-' :: ('-' :: ds).takeWhile continuesComment ∈ comment.language :=
    mem_comment.2 ⟨_, congrArg _ htext, fun _ h => List.mem_takeWhile_imp h⟩
  refine ⟨⟨run_prefix_source .., hmem⟩, fun r w h => ?_, fun r h => ?_⟩
  · obtain ⟨rfl, -⟩ | ⟨t, -, ⟨rfl, -⟩ | ⟨d, ds', -, rfl, -⟩⟩ := h.mark rfl
    · obtain ⟨v, rfl, hv⟩ := mem_comment.1 h.2
      have hpre := (List.cons_prefix_cons.1 (List.cons_prefix_cons.1 h.1).2).2
      exact Nat.succ_le_succ (Nat.succ_le_succ (length_le_takeWhile hpre hv))
    · simp
    · simp [htext]
  · obtain ⟨rfl, -⟩ | ⟨t, -, ⟨heq, -⟩ | ⟨d, ds', hcs, -, hd⟩⟩ :=
      Matches.mark rfl ⟨run_prefix_source continuesComment '-' ('-' :: ds), h⟩
    · exact .inl rfl
    · rw [htext] at heq
      cases heq
    · cases hcs
      cases hd

/-- A symbol of two characters is longer than one of the first character. -/
theorem wins_double {c d : Char} {ds : List Char} {r : Rule} {t : Token}
    (hc : Family.of c = .mark) (hcomment : ¬ (c = '-' ∧ d = '-')) (hr : r.symbol? = some t)
    (hmem : [c, d] ∈ r.language) (ht : doubleSymbol? c d = some t) :
    r.Wins (c :: d :: ds) [c, d] := by
  refine ⟨⟨⟨ds, rfl⟩, hmem⟩, fun r' w h => ?_, fun r' h => ?_⟩
  · obtain ⟨-, rfl, ds', heq⟩ | ⟨t', -, ⟨rfl, -⟩ | ⟨d', ds', -, rfl, -⟩⟩ := h.mark hc
    · cases heq
      exact absurd ⟨rfl, rfl⟩ hcomment
    · simp
    · simp
  · obtain ⟨-, rfl, ds', heq⟩ | ⟨t', hr', ⟨heq, -⟩ | ⟨d', ds', heq, -, ht'⟩⟩ :=
      Matches.mark hc ⟨List.prefix_rfl, h⟩
    · cases heq
      exact absurd ⟨rfl, rfl⟩ hcomment
    · cases heq
    · cases heq
      cases ht.symm.trans ht'
      exact .inl (symbol?_inj hr hr')

/-- Neither a comment nor a symbol of two characters begins with a character. -/
def Lone (c : Char) (cs : List Char) : Prop :=
  ∀ d ds, cs = d :: ds → ¬ (c = '-' ∧ d = '-') ∧ doubleSymbol? c d = none

/-- A character that begins neither a comment nor a longer symbol matches alone. -/
theorem Matches.lone {r : Rule} {c : Char} {cs w : List Char} (hc : Family.of c = .mark)
    (hlone : Lone c cs) (h : r.Matches (c :: cs) w) :
    w = [c] ∧ ∃ t, r.symbol? = some t ∧ singleSymbol? c = some t := by
  obtain ⟨-, rfl, ds, rfl⟩ | ⟨t, hr, ⟨rfl, ht⟩ | ⟨d, ds, rfl, -, ht⟩⟩ := h.mark hc
  · exact absurd ⟨rfl, rfl⟩ (hlone _ _ rfl).1
  · exact ⟨rfl, t, hr, ht⟩
  · cases (hlone d ds rfl).2.symm.trans ht

/-- A symbol of one character is the longest match if the character begins nothing longer. -/
theorem wins_single {c : Char} {cs : List Char} {r : Rule} {t : Token} (hc : Family.of c = .mark)
    (hlone : Lone c cs) (hr : r.symbol? = some t) (hmem : [c] ∈ r.language)
    (ht : singleSymbol? c = some t) : r.Wins (c :: cs) [c] := by
  have hpre : [c] <+: c :: cs := ⟨cs, rfl⟩
  refine ⟨⟨hpre, hmem⟩, fun r' w h => ?_, fun r' h => ?_⟩
  · rw [(h.lone hc hlone).1]
  · obtain ⟨-, t', hr', ht'⟩ := Matches.lone hc hlone ⟨hpre, h⟩
    cases ht.symm.trans ht'
    exact .inl (symbol?_inj hr hr')

end Rule

end LetPoly
