import LetPoly.Proofs.Rules

/-!
# Maximal munch

The first piece of a source is the longest match of the rules, and it is read as the token that the
rule gives for its text (`Piece.first_munched`).  A source has only one such token
(`Token.Munched.unique`).
-/

namespace LetPoly

/-! ## Reading a match -/

namespace Piece

/-- A fixed word is read as its token. -/
theorem readWord_of_word? {r : Rule} {s : String} {t : Token} (h : r.word? = some (s, t)) :
    readWord s = t := by
  cases r with
  | keyword k =>
    cases h
    cases k <;> rfl
  | truth b =>
    cases h
    cases b <;> rfl
  | _ => cases h

/-- A word that is not fixed is a name. -/
theorem readWord_cases (s : String) :
    (∃ (r : Rule) (t : Token), r.word? = some (s, t)) ∨
      (∀ (r : Rule) (t : Token), r.word? ≠ some (s, t)) ∧ readWord s = .name s := by
  by_cases h : ∃ (r : Rule) (t : Token), r.word? = some (s, t)
  · exact .inl h
  refine .inr ⟨fun r t hr => h ⟨r, t, hr⟩, ?_⟩
  unfold readWord
  split
  · exact absurd ⟨.keyword .letWord, _, rfl⟩ h
  · exact absurd ⟨.keyword .inWord, _, rfl⟩ h
  · exact absurd ⟨.keyword .ifWord, _, rfl⟩ h
  · exact absurd ⟨.keyword .thenWord, _, rfl⟩ h
  · exact absurd ⟨.keyword .elseWord, _, rfl⟩ h
  · exact absurd ⟨.keyword .fnWord, _, rfl⟩ h
  · exact absurd ⟨.truth true, _, rfl⟩ h
  · exact absurd ⟨.truth false, _, rfl⟩ h
  · rfl

/-- Further digits make no number smaller. -/
theorem le_foldl_appendDigit (n : Nat) (cs : List Char) : n ≤ cs.foldl Double.appendDigit n := by
  induction cs generalizing n with
  | nil => exact Nat.le_refl n
  | cons c cs ih =>
    refine Nat.le_trans ?_ (ih (Double.appendDigit n c))
    simp only [Double.appendDigit]
    omega

/-- The number that digits make of a number, unless it is too large. -/
def fitting? (n : Nat) (cs : List Char) : Option Nat :=
  let m := cs.foldl Double.appendDigit n
  if m ≤ maxInt then some m else none

theorem fitting?_of_lt {n : Nat} (hn : maxInt < n) (cs : List Char) : fitting? n cs = none := by
  have hle := le_foldl_appendDigit n cs
  exact if_neg (by omega)

/-- An integer is read as long as what is read so far is not too large, which comes to the same as
looking at the whole. -/
theorem foldlM_eq_fitting? {n : Nat} (hn : n ≤ maxInt) (cs : List Char) :
    cs.foldlM
      (fun n c =>
        if c = '_' then some n
        else
          let m := 10 * n + (c.toNat - '0'.toNat)
          if m ≤ maxInt then some m else none)
      n = fitting? n (Rule.digits cs) := by
  induction cs generalizing n with
  | nil => exact (if_pos hn).symm
  | cons c cs ih =>
    rw [List.foldlM_cons]
    by_cases hc : c = '_'
    · have hdigits : Rule.digits (c :: cs) = Rule.digits cs := by simp [Rule.digits, hc]
      rw [hdigits, if_pos hc]
      exact ih hn
    · have hdigits : Rule.digits (c :: cs) = c :: Rule.digits cs := by simp [Rule.digits, hc]
      have hcons : fitting? n (c :: Rule.digits cs) =
          fitting? (Double.appendDigit n c) (Rule.digits cs) := rfl
      rw [hdigits, hcons, if_neg hc]
      by_cases hle : 10 * n + (c.toNat - '0'.toNat) ≤ maxInt
      · dsimp only
        rw [if_pos hle]
        exact ih hle
      · dsimp only
        rw [if_neg hle, Double.appendDigit, fitting?_of_lt (Nat.lt_of_not_le hle)]
        rfl

/-- An integer is read if it is not too large, and its underscores do not count. -/
theorem readInt?_eq (cs : List Char) :
    readInt? cs = if Double.ofDigits (Rule.digits cs) ≤ maxInt
      then some (Double.ofDigits (Rule.digits cs)) else none := by
  rw [Double.ofDigits_eq_foldl]
  exact foldlM_eq_fitting? (Nat.zero_le _) cs

/-- A number with a point is read if it is finite. -/
theorem readFloat?_eq {before : List Char} (hbefore : ∀ e ∈ before, continuesDigits e = true)
    (behind : List Char) :
    readFloat? (before ++ '.' :: behind) =
      if (Rule.double before behind).isFinite then some (Rule.double before behind) else none := by
  have hdigits : ∀ e ∈ Rule.digits before, isDigit e = true := by
    intro e he
    obtain ⟨hmem, hne⟩ := List.mem_filter.1 he
    have hcontinues := hbefore e hmem
    simp only [continuesDigits, Bool.or_eq_true, beq_iff_eq] at hcontinues
    exact hcontinues.resolve_right (by simpa using hne)
  have hpoint : isDigit '.' = false := by decide
  have hfilter : (before ++ '.' :: behind).filter (· != '_') =
      Rule.digits before ++ '.' :: Rule.digits behind := by
    simp [Rule.digits]
  have htake : (Rule.digits before ++ '.' :: Rule.digits behind).takeWhile isDigit =
      Rule.digits before := by
    simp [List.takeWhile_append_of_pos hdigits, hpoint]
  have hdrop : ((Rule.digits before ++ '.' :: Rule.digits behind).dropWhile isDigit).drop 1 =
      Rule.digits behind := by
    simp [List.dropWhile_append_of_pos hdigits, hpoint]
  unfold readFloat? Rule.double
  dsimp only
  rw [hfilter, htake, hdrop]

end Piece

theorem Text.unescape?_eq_some {c d : Char} : unescape? c = some d ↔ (c, d) ∈ escapes := by
  unfold unescape?
  split <;> simp_all [escapes, eq_comm]

/-- Reading escapes goes on behind what was read before, and ends well if all of them are in the
table. -/
theorem Text.readEscapedFrom_eq_ok {acc cs value : List Char} :
    readEscapedFrom acc cs = .ok value ↔ ∃ ds, Escapes cs ds ∧ value = acc.reverse ++ ds := by
  fun_induction readEscapedFrom acc cs with
  | case1 acc =>
    constructor
    · rintro ⟨⟩
      exact ⟨[], .nil, by simp⟩
    · rintro ⟨_, ⟨⟩, rfl⟩
      simp
  | case2 acc =>
    refine ⟨nofun, ?_⟩
    rintro ⟨_, hds, -⟩
    cases hds with
    | plain hc _ => exact absurd rfl hc
  | case3 acc c cs d hd ih =>
    rw [ih]
    constructor
    · rintro ⟨ds, hds, rfl⟩
      exact ⟨d :: ds, .escape (unescape?_eq_some.1 hd) hds, by simp⟩
    · rintro ⟨_, hds, rfl⟩
      cases hds with
      | plain hc _ => exact absurd rfl hc
      | escape hc hds =>
        cases hd.symm.trans (unescape?_eq_some.2 hc)
        exact ⟨_, hds, by simp⟩
  | case4 acc c cs hd =>
    refine ⟨nofun, ?_⟩
    rintro ⟨_, hds, -⟩
    cases hds with
    | plain hc _ => exact absurd rfl hc
    | escape hc _ => cases hd.symm.trans (unescape?_eq_some.2 hc)
  | case5 acc c cs hend hescape ih =>
    have hc : c ≠ '\\' := by
      rintro rfl
      cases cs with
      | nil => exact hend rfl rfl
      | cons d ds => exact hescape d ds rfl rfl
    rw [ih]
    constructor
    · rintro ⟨ds, hds, rfl⟩
      exact ⟨c :: ds, .plain hc hds, by simp⟩
    · rintro ⟨_, hds, rfl⟩
      cases hds with
      | plain _ hds => exact ⟨_, hds, by simp⟩
      | escape _ _ => exact absurd rfl hc

/-- A text is read if and only if all of its escapes are in the table. -/
theorem Text.readEscaped_eq_ok {cs value : List Char} :
    readEscaped cs = .ok value ↔ Escapes cs value := by
  simp [readEscaped, readEscapedFrom_eq_ok]

/-! ## The first piece -/

namespace Piece

/-- A piece is the longest match, where `rest` follows it, and it is read as the match says. -/
inductive Munched (p : Piece) (rest : List Char) : Prop where
  | skipped {r : Rule} (hread : p.read = none) (hskipped : r.isSkipped = true)
      (hwins : r.Wins (p.text ++ rest) p.text) : Munched p rest
  | token {t : Token} (hread : p.read = some (.ok t)) (hvalid : t ≠ .invalid)
      (h : t.Munched p.text rest) : Munched p rest
  | problem {e : Problem} (hread : p.read = some (.error e))
      (h : Token.invalid.Munched p.text rest) : Munched p rest

/-- A fixed word goes before a name. -/
theorem word_munched {c : Char} (hc : isLetter c = true) (cs : List Char) :
    (run .word continuesWord c cs).1.Munched (run .word continuesWord c cs).2 := by
  have hsource := append_run .word continuesWord c cs
  have hread : (run .word continuesWord c cs).1.read =
      some (.ok (readWord (String.ofList (c :: cs.takeWhile continuesWord)))) := rfl
  obtain ⟨r, t, hr⟩ | ⟨hnone, hname⟩ :=
    readWord_cases (String.ofList (c :: cs.takeWhile continuesWord))
  · rw [readWord_of_word? hr] at hread
    have hmem := Rule.mem_of_word? hr |>.2 String.toList_ofList.symm
    refine .token hread (Rule.denotes_of_word? hr []).2 (.matched ?_ (Rule.denotes_of_word? hr _).1)
    rw [hsource]
    refine Rule.wins_word hc hmem fun r' hfamily h' => ?_
    obtain rfl | ⟨s', t', hr'⟩ := Rule.eq_of_family_word hfamily
    · exact .inr rfl
    · -- Both rules have the text, so they read it as the same token.
      rw [Rule.mem_of_word? hr'] at h'
      rw [h', String.ofList_toList] at hr
      cases (readWord_of_word? hr).symm.trans (readWord_of_word? hr')
      exact .inl (Rule.word?_inj hr hr')
  · rw [hname] at hread
    refine .token hread nofun (.matched ?_ (.name _))
    rw [hsource]
    refine Rule.wins_word hc (Rule.run_mem hc cs) fun r' hfamily h' => ?_
    obtain rfl | ⟨s', t', hr'⟩ := Rule.eq_of_family_word hfamily
    · exact .inr rfl
    · rw [Rule.mem_of_word? hr'] at h'
      rw [h', String.ofList_toList] at hnone
      exact absurd hr' (hnone r' t')

/-- Where digits, a point and a digit follow, the piece has the point. -/
theorem number_eq_float {c d : Char} {cs ds : List Char}
    (hshape : cs.dropWhile continuesDigits = '.' :: d :: ds) (hd : isDigit d = true) :
    number c cs =
      (⟨.float, c :: cs.takeWhile continuesDigits ++ '.' :: d :: ds.takeWhile continuesDigits⟩,
        ds.dropWhile continuesDigits) := by
  simp [number, hshape, hd]

/-- Where no digit follows a point, the piece is an integer. -/
theorem number_eq_int {c : Char} {cs : List Char}
    (hshape : ∀ d ds, cs.dropWhile continuesDigits = '.' :: d :: ds → isDigit d = false) :
    number c cs = run .int continuesDigits c cs := by
  unfold number
  split
  · rename_i d ds h
    simp [hshape d ds h]
  · rfl

/-- An integer is munched. -/
theorem int_munched {c : Char} (hc : isDigit c = true) {cs : List Char}
    (hshape : ∀ d ds, cs.dropWhile continuesDigits = '.' :: d :: ds → isDigit d = false) :
    (run .int continuesDigits c cs).1.Munched (run .int continuesDigits c cs).2 := by
  have hwins := Rule.wins_int hc hshape
  rw [← append_run .int continuesDigits c cs] at hwins
  by_cases hle : Double.ofDigits (Rule.digits (c :: cs.takeWhile continuesDigits)) ≤ maxInt
  · refine .token (t := .int _) ?_ nofun (.matched hwins (.int hle))
    simp only [run, read, readInt?_eq, if_pos hle]
  · refine .problem (e := .numberTooLarge) ?_ (.matched hwins (.largeInt (Nat.lt_of_not_le hle)))
    simp only [run, read, readInt?_eq, if_neg hle]

/-- A number with a point is munched. -/
theorem float_munched {c d : Char} (hc : isDigit c = true) {cs ds : List Char}
    (hshape : cs.dropWhile continuesDigits = '.' :: d :: ds) (hd : isDigit d = true) :
    (number c cs).1.Munched (number c cs).2 := by
  have hwins := Rule.wins_float hc hshape hd
  rw [← append_number c cs, number_eq_float hshape hd] at hwins
  rw [number_eq_float hshape hd]
  have hbefore : ∀ e ∈ c :: cs.takeWhile continuesDigits, continuesDigits e = true := by
    refine List.forall_mem_cons.2 ⟨?_, fun _ he => List.mem_takeWhile_imp he⟩
    simp [continuesDigits, hc]
  have hpoint : '.' ∉ c :: cs.takeWhile continuesDigits := fun h => by cases hbefore _ h
  have hread := readFloat?_eq hbefore (d :: ds.takeWhile continuesDigits)
  cases hfinite : (Rule.double (c :: cs.takeWhile continuesDigits)
      (d :: ds.takeWhile continuesDigits)).isFinite with
  | true =>
    refine .token (t := .float _) ?_ nofun (.matched hwins (.float hpoint hfinite))
    simp only [read, hread, hfinite, if_true]
  | false =>
    refine .problem (e := .numberTooLarge) ?_ (.matched hwins (.largeFloat hpoint hfinite))
    simp only [read, hread, hfinite, Bool.false_eq_true, if_false]

/-- At a digit the longest match is a number, with or without a point. -/
theorem number_munched {c : Char} (hc : isDigit c = true) (cs : List Char) :
    (number c cs).1.Munched (number c cs).2 := by
  by_cases hshape : ∃ d ds, cs.dropWhile continuesDigits = '.' :: d :: ds ∧ isDigit d = true
  · obtain ⟨d, ds, hshape, hd⟩ := hshape
    exact float_munched hc hshape hd
  · have hint (d : Char) (ds : List Char) (h : cs.dropWhile continuesDigits = '.' :: d :: ds) :
        isDigit d = false :=
      Bool.eq_false_iff.2 fun hd => hshape ⟨d, ds, h, hd⟩
    rw [number_eq_int hint]
    exact int_munched hc hint

/-- A string literal with its end is munched, and its escapes are read. -/
theorem string_munched {cs w rest : List Char} (heq : insideFrom [] cs = (w, '"' :: rest)) :
    Munched ⟨.string, '"' :: w ++ ['"']⟩ rest := by
  have hwins := Rule.wins_string heq
  obtain ⟨-, rfl⟩ := Rule.inside_of_insideFrom heq
  have hsource : '"' :: (w ++ '"' :: rest) = ('"' :: w ++ ['"']) ++ rest := by simp
  rw [hsource] at hwins
  have hbody : (('"' :: w ++ ['"']).drop 1).dropLast = w := by simp
  cases hvalue : Text.readEscaped w with
  | ok value =>
    refine .token (t := .string _) ?_ nofun
      (.matched hwins (.string (Text.readEscaped_eq_ok.1 hvalue)))
    simp only [read, hbody, hvalue]
  | error c =>
    refine .problem (e := .invalidEscape c) ?_ (.matched hwins (.badEscape fun value h => ?_))
    · simp only [read, hbody, hvalue]
    · cases hvalue.symm.trans (Text.readEscaped_eq_ok.2 h)

/-- At a quote the longest match is a string literal, with or without an end. -/
theorem literal_munched (cs : List Char) : (literal cs).1.Munched (literal cs).2 := by
  unfold literal
  split
  · rename_i w rest heq
    exact string_munched heq
  · rename_i w rest hquote heq
    have hwins := Rule.wins_openString heq hquote
    obtain ⟨-, rfl⟩ := Rule.inside_of_insideFrom heq
    exact .problem rfl (.matched hwins (.openString _))

/-- A character that begins nothing longer is munched alone. -/
theorem single_munched {c : Char} {cs : List Char} (hc : Rule.Family.of c = .mark)
    (hlone : Rule.Lone c cs) : (single c cs).1.Munched (single c cs).2 := by
  unfold single
  split
  · rename_i t ht
    obtain ⟨r, hr, hmem⟩ := Rule.exists_of_singleSymbol? ht
    obtain ⟨hdenotes, hvalid⟩ := Rule.denotes_of_symbol? hr [c]
    exact .token rfl hvalid (.matched (Rule.wins_single hc hlone hr hmem ht) hdenotes)
  · rename_i hnone
    refine .problem rfl (.stray fun r text h => ?_)
    obtain ⟨-, t, -, ht⟩ := h.lone hc hlone
    cases hnone.symm.trans ht

/-- At a mark the longest match is a comment or a symbol. -/
theorem mark_munched {c : Char} (hc : Rule.Family.of c = .mark) (cs : List Char) :
    (mark c cs).1.Munched (mark c cs).2 := by
  cases cs with
  | nil => exact single_munched hc nofun
  | cons d ds =>
    simp only [mark]
    split
    · rename_i hcomment
      obtain ⟨rfl, rfl⟩ := hcomment
      refine .skipped (r := .comment) rfl rfl ?_
      rw [append_run]
      exact Rule.wins_comment ds
    · rename_i hcomment
      split
      · rename_i t ht
        obtain ⟨r, hr, hmem⟩ := Rule.exists_of_doubleSymbol? ht
        obtain ⟨hdenotes, hvalid⟩ := Rule.denotes_of_symbol? hr [c, d]
        exact .token rfl hvalid (.matched (Rule.wins_double hc hcomment hr hmem ht) hdenotes)
      · rename_i hnone
        refine single_munched hc fun e es heq => ?_
        cases heq
        exact ⟨hcomment, hnone⟩

/-- The first piece of a source is the longest match. -/
theorem first_munched (c : Char) (cs : List Char) : (first c cs).1.Munched (first c cs).2 := by
  unfold first
  split
  · rename_i hblank
    refine .skipped (r := .blank) rfl rfl ?_
    rw [append_run]
    exact Rule.wins_blank hblank cs
  · rename_i hblank
    split
    · rename_i hletter
      exact word_munched hletter cs
    · rename_i hletter
      split
      · rename_i hdigit
        exact number_munched hdigit cs
      · rename_i hdigit
        split
        · exact literal_munched cs
        · rename_i hquote
          refine mark_munched ?_ cs
          simp [Rule.Family.of, hblank, hletter, hdigit, hquote]

end Piece

/-! ## One token only -/

/-- A text has only one value. -/
theorem Text.Escapes.unique {cs value value' : List Char} (h : Escapes cs value)
    (h' : Escapes cs value') : value = value' := by
  cases (Text.readEscaped_eq_ok.2 h).symm.trans (Text.readEscaped_eq_ok.2 h')
  rfl

/-- A text has one first point. -/
theorem Rule.point_unique {before behind before' behind' : List Char} (hpoint : '.' ∉ before)
    (hpoint' : '.' ∉ before') (h : before ++ '.' :: behind = before' ++ '.' :: behind') :
    before = before' ∧ behind = behind' := by
  have htake (cs ds : List Char) (hcs : '.' ∉ cs) :
      (cs ++ '.' :: ds).takeWhile (· != '.') = cs := by
    have hall : ∀ e ∈ cs, (e != '.') = true := fun e he =>
      bne_iff_ne.2 fun (heq : e = '.') => hcs (heq ▸ he)
    simp [List.takeWhile_append_of_pos hall]
  have hbefore := congrArg (List.takeWhile (· != '.')) h
  rw [htake _ _ hpoint, htake _ _ hpoint'] at hbefore
  subst hbefore
  simpa using h

/-- A text stands for one token. -/
theorem Rule.Denotes.unique {r : Rule} {text : List Char} {t t' : Token} (h : r.Denotes text t)
    (h' : r.Denotes text t') : t = t' := by
  cases h with
  | float hpoint hfinite =>
    generalize heq : _ ++ '.' :: _ = w at h'
    cases h' with
    | float hpoint' _ =>
      obtain ⟨rfl, rfl⟩ := point_unique hpoint hpoint' heq
      rfl
    | largeFloat hpoint' hinfinite =>
      obtain ⟨rfl, rfl⟩ := point_unique hpoint hpoint' heq
      cases hfinite.symm.trans hinfinite
  | largeFloat hpoint hinfinite =>
    generalize heq : _ ++ '.' :: _ = w at h'
    cases h' with
    | float hpoint' hfinite =>
      obtain ⟨rfl, rfl⟩ := point_unique hpoint hpoint' heq
      cases hfinite.symm.trans hinfinite
    | largeFloat _ _ => rfl
  | string hescapes =>
    generalize heq : _ ++ ['"'] = w at h'
    cases h' with
    | string hescapes' =>
      obtain rfl : _ = _ := by simpa using heq
      rw [hescapes.unique hescapes']
    | badEscape hbad =>
      obtain rfl : _ = _ := by simpa using heq
      exact absurd hescapes (hbad _)
  | badEscape hbad =>
    generalize heq : _ ++ ['"'] = w at h'
    cases h' with
    | string hescapes =>
      obtain rfl : _ = _ := by simpa using heq
      exact absurd hescapes (hbad _)
    | badEscape _ => rfl
  | int hsmall =>
    cases h' with
    | int _ => rfl
    | largeInt hlarge => omega
  | largeInt hlarge =>
    cases h' with
    | int hsmall => omega
    | largeInt _ => rfl
  | keyword | truth | punctuation | operator | name | openString =>
    cases h'
    rfl

/-- A source begins with one token only. -/
theorem Token.Munched.unique {t t' : Token} {text text' rest rest' : List Char}
    (h : t.Munched text rest) (h' : t'.Munched text' rest')
    (heq : text ++ rest = text' ++ rest') : t = t' ∧ text = text' := by
  cases h with
  | matched hwins hdenotes =>
    cases h' with
    | matched hwins' hdenotes' =>
      obtain ⟨rfl, rfl⟩ := hwins.unique (heq ▸ hwins')
      exact ⟨hdenotes.unique hdenotes', rfl⟩
    | stray hstray => exact absurd (heq ▸ hwins.own) (hstray _ _)
  | stray hstray =>
    cases h' with
    | matched hwins' _ => exact absurd (heq ▸ hwins'.own) (hstray _ _)
    | stray _ =>
      cases heq
      exact ⟨rfl, rfl⟩

/-- A token has a character. -/
theorem Token.Munched.text_ne_nil {t : Token} {text rest : List Char} (h : t.Munched text rest) :
    text ≠ [] := by
  cases h with
  | matched hwins _ =>
    obtain ⟨c, cs, rfl, -⟩ := Rule.exists_cons_of_mem hwins.own.2
    exact List.cons_ne_nil c cs
  | stray _ => exact List.cons_ne_nil _ []

end LetPoly
