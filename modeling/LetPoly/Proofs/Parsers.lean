import Mathlib.Computability.Language
import Mathlib.Data.List.TakeWhile
import LetPoly.Parsing.Program
import LetPoly.Proofs.Grammar

/-!
# Reasoning about parsers

A parser *meets* a condition in a state if it ends in it, so it does not stop with a defect.

Whatever a parser does, it goes onward: it reads lexemes from the left and keeps what was
reported before, and after it has given up nothing more is reported.  What it has read matters
only if nothing was reported.  Then the tokens up to where it stopped belong to a
language, which depends on the value that it has found.  Languages are put together like parsers.
-/

namespace LetPoly

/-! ## Runs -/

namespace Parser

variable {α β : Type} {q : Parser α} {r : α → Parser β} {s s' s'' : ParserState} {a : α} {b : β}

theorem bind_of_ok (h : q s = .ok (a, s')) : (q >>= r) s = r a s' := by
  simp only [Bind.bind, StateT.bind, Except.bind, h]

/-- A sequence ends well if and only if both parsers do, one after the other. -/
theorem bind_eq_ok :
    (q >>= r) s = .ok (b, s'') ↔ ∃ a s', q s = .ok (a, s') ∧ r a s' = .ok (b, s'') := by
  constructor
  · intro h
    cases hq : q s with
    | error d =>
      simp only [Bind.bind, StateT.bind, Except.bind, hq] at h
      cases h
    | ok x => exact ⟨x.1, x.2, rfl, (bind_of_ok hq).symm.trans h⟩
  · rintro ⟨a, s', hq, hr⟩
    rw [bind_of_ok hq, hr]

end Parser

/-! ## Conditions -/

/-- The parser ends in `Q`. -/
def Parser.Meets {α : Type} (q : Parser α) (s : ParserState) (Q : α → ParserState → Prop) : Prop :=
  ∃ a s', q s = .ok (a, s') ∧ Q a s'

namespace Parser.Meets

variable {α β : Type} {q : Parser α} {s : ParserState} {Q Q' : α → ParserState → Prop}
  {R : β → ParserState → Prop}

theorem mono (h : q.Meets s Q) (hQ : ∀ a s', Q a s' → Q' a s') : q.Meets s Q' := by
  obtain ⟨a, s', hrun, ha⟩ := h
  exact ⟨a, s', hrun, hQ a s' ha⟩

/-- A run that is equal to another meets the same conditions. -/
theorem of_eq {q' : Parser α} {s' : ParserState} (h : q'.Meets s' Q) (heq : q s = q' s') :
    q.Meets s Q := by
  obtain ⟨a, s'', hrun, ha⟩ := h
  exact ⟨a, s'', heq.trans hrun, ha⟩

protected theorem pure {a : α} (h : Q a s) : Parser.Meets (pure a : Parser α) s Q :=
  ⟨a, s, rfl, h⟩

/-- A sequence meets a condition if its first parser ends where the second meets it. -/
protected theorem bind {k : α → Parser β} (h : q.Meets s fun a s' => (k a).Meets s' R) :
    Parser.Meets (q >>= k) s R := by
  obtain ⟨a, s', hrun, b, s'', hrun', hb⟩ := h
  refine ⟨b, s'', ?_, hb⟩
  simp only [Bind.bind, StateT.bind, Except.bind, hrun, hrun']

protected theorem get {Q : ParserState → ParserState → Prop} (h : Q s s) :
    Parser.Meets (get : Parser ParserState) s Q :=
  ⟨s, s, rfl, h⟩

protected theorem modify {g : ParserState → ParserState} {Q : Unit → ParserState → Prop}
    (h : Q () (g s)) : Parser.Meets (modify g : Parser Unit) s Q :=
  ⟨(), g s, rfl, h⟩

/-- Spans of one file can be joined. -/
theorem join {f : FileId} {x y : Span} {Q : Span → ParserState → Prop} (hx : x.file = f)
    (hy : y.file = f) (h : ∀ z : Span, z.file = f → Q z s) : (Parser.join x y).Meets s Q := by
  refine ⟨⟨min x.start y.start, max x.stop y.stop, x.file⟩, s, ?_, h _ hx⟩
  rw [Parser.join, Span.join, if_pos (hx.trans hy.symm)]
  rfl

end Parser.Meets

/-! ## States -/

namespace ParserState

/-- The tokens that are left. -/
def tokens (s : ParserState) : List Token := s.rest.map (·.token)

/-- Whether the next lexeme has a token that fits. -/
def begins (s : ParserState) (p : Token → Bool) : Bool :=
  match s.rest with
  | l :: _ => l.token.fits p
  | [] => false

/-- All that is left is in one file.  A parser that gave up has reported it and skipped the rest. -/
structure Placed (f : FileId) (s : ParserState) : Prop where
  /-- The lexemes that are left. -/
  rest : ∀ l ∈ s.rest, l.span.file = f
  /-- The parser has given up. -/
  gaveUp : s.gaveUp = true → s.rest = [] ∧ s.reported ≠ []

/-- The last lexeme is in the file too, so there is one. -/
structure Ready (f : FileId) (s : ParserState) : Prop extends Placed f s where
  /-- The last lexeme. -/
  last : ∃ l, s.last = some l ∧ l.span.file = f

/-- A parser that started in one state may end in the other. -/
structure Onward (f : FileId) (s s' : ParserState) : Prop where
  /-- All places are in one file. -/
  ready : s'.Ready f
  /-- Lexemes are read from the left. -/
  rest : s'.rest <:+ s.rest
  /-- Nothing that was reported is lost. -/
  reported : s.reported <:+ s'.reported
  /-- After giving up nothing is reported. -/
  gaveUp : s.gaveUp = true → s'.gaveUp = true ∧ s'.reported = s.reported

/-- The tokens between two states belong to a language, if there is nothing to report and no token
is invalid. -/
structure Reads (f : FileId) (L : Language Token) (s s' : ParserState) : Prop
    extends Onward f s s' where
  /-- The tokens that were read. -/
  text : (∀ l ∈ s.rest, l.token ≠ .invalid) → s'.reported = [] →
    ∃ ts ∈ L, s.tokens = ts ++ s'.tokens

variable {f : FileId} {s s' s'' : ParserState} {L L' : Language Token}

theorem begins_nil {p : Token → Bool} (h : s.rest = []) : s.begins p = false := by rw [begins, h]

theorem begins_cons {p : Token → Bool} {l : Lexeme} {ls : List Lexeme} (h : s.rest = l :: ls) :
    s.begins p = l.token.fits p := by
  rw [begins, h]

/-- The place of a parser is in the file of its lexemes, also at the end. -/
theorem Ready.here (h : s.Ready f) : s.here.file = f := by
  obtain ⟨l, hl, hfile⟩ := h.last
  cases hrest : s.rest with
  | nil =>
    rw [ParserState.here, hrest, hl]
    exact hfile
  | cons l' ls =>
    rw [ParserState.here, hrest]
    exact h.rest l' (hrest ▸ List.mem_cons_self ..)

theorem Ready.previous (h : s.Ready f) : s.previous.file = f := by
  obtain ⟨l, hl, hfile⟩ := h.last
  rw [ParserState.previous, hl]
  exact hfile

theorem Onward.refl (h : s.Ready f) : s.Onward f s :=
  ⟨h, List.suffix_rfl, List.suffix_rfl, fun h => ⟨h, rfl⟩⟩

/-- To go on twice is to go on. -/
theorem Onward.trans (h : s.Onward f s') (h' : s'.Onward f s'') : s.Onward f s'' where
  ready := h'.ready
  rest := h'.rest.trans h.rest
  reported := h.reported.trans h'.reported
  gaveUp hs := by
    obtain ⟨hs', heq⟩ := h.gaveUp hs
    obtain ⟨hs'', heq'⟩ := h'.gaveUp hs'
    exact ⟨hs'', heq'.trans heq⟩

theorem Reads.nil (h : s.Ready f) (hL : [] ∈ L) : s.Reads f L s :=
  ⟨.refl h, fun _ _ => ⟨[], hL, rfl⟩⟩

/-- Where something was reported it does not matter what was read. -/
theorem Onward.reads (h : s.Onward f s') (hreported : s'.reported ≠ []) : s.Reads f L s' :=
  ⟨h, fun _ hnil => absurd hnil hreported⟩

/-- What reads one of some tokens reads one of more. -/
theorem Reads.mono (h : s.Reads f L s') (hL : ∀ ts ∈ L, ts ∈ L') : s.Reads f L' s' where
  toOnward := h.toOnward
  text hvalid hclean := by
    obtain ⟨ts, hts, heq⟩ := h.text hvalid hclean
    exact ⟨ts, hL ts hts, heq⟩

/-- To read one list of tokens after the other is to read a concatenation of them, and after a
report it does not matter what was read. -/
theorem Reads.trans (h : s.Reads f L s') (h' : s'.Reads f L' s'') : s.Reads f (L * L') s'' where
  toOnward := h.toOnward.trans h'.toOnward
  text hvalid hclean := by
    have hclean' : s'.reported = [] := List.suffix_nil.1 (hclean ▸ h'.reported)
    obtain ⟨ts, hts, heq⟩ := h.text hvalid hclean'
    obtain ⟨us, hus, heq'⟩ := h'.text (fun l hl => hvalid l (h.rest.subset hl)) hclean
    exact ⟨ts ++ us, Language.append_mem_mul hts hus, by rw [heq, heq', List.append_assoc]⟩

/-! ## Reporting and giving up -/

/-- Reporting adds a diagnostic, or nothing after giving up. -/
theorem reported_suffix_report (s : ParserState) (span : Span) (p : Problem) :
    s.reported <:+ (s.report span p).reported := by
  unfold report
  split
  · exact List.suffix_rfl
  · exact List.suffix_cons ..

/-- After a report there is at least one diagnostic, and all of them are in the file. -/
theorem Placed.report (h : s.Placed f) (span : Span) (p : Problem) :
    (s.report span p).Placed f ∧ (s.report span p).reported ≠ [] := by
  unfold ParserState.report
  split
  · rename_i hs
    exact ⟨h, (h.gaveUp hs).2⟩
  · rename_i hs
    exact ⟨⟨h.rest, fun hs' => absurd hs' hs⟩, List.cons_ne_nil _ _⟩

/-- A report keeps the lexemes, so a parser that is ready goes on. -/
theorem Ready.report (h : s.Ready f) (span : Span) (p : Problem) :
    s.Onward f (s.report span p) := by
  refine ⟨⟨(h.toPlaced.report span p).1, ?_⟩, ?_, reported_suffix_report s span p, fun hs => ?_⟩
  · unfold ParserState.report
    split <;> exact h.last
  · unfold ParserState.report
    split <;> exact List.suffix_rfl
  · rw [ParserState.report, if_pos hs]
    exact ⟨hs, rfl⟩

theorem Placed.skipWhile (h : s.Placed f) (p : Lexeme → Bool) : (s.skipWhile p).Placed f where
  rest l hl := h.rest l ((List.dropWhile_suffix p).subset hl)
  gaveUp hs := by
    obtain ⟨hrest, hreported⟩ := h.gaveUp hs
    exact ⟨by simp [ParserState.skipWhile, hrest], hreported⟩

/-- Skipping lexemes leaves a suffix of them, in the same file. -/
theorem Ready.skipWhile (h : s.Ready f) (p : Lexeme → Bool) : (s.skipWhile p).Ready f where
  toPlaced := h.toPlaced.skipWhile p
  last := by
    obtain ⟨l, hl, hfile⟩ := h.last
    cases hlast : (s.rest.takeWhile p).getLast? with
    | none => exact ⟨l, by simp [ParserState.skipWhile, hlast, hl], hfile⟩
    | some l' =>
      refine ⟨l', by simp [ParserState.skipWhile, hlast], h.rest l' ?_⟩
      exact (List.takeWhile_prefix p).subset (List.mem_of_getLast? hlast)

/-- Giving up goes on to the end of the lexemes and leaves a diagnostic. -/
theorem Ready.giveUp (h : s.Ready f) : s.Onward f s.giveUp ∧ s.giveUp.reported ≠ [] := by
  have honward := h.report s.here (.nestedTooDeeply maxDepth)
  have hreported := (h.toPlaced.report s.here (.nestedTooDeeply maxDepth)).2
  have hskip := honward.ready.skipWhile fun _ => true
  have hrest : s.giveUp.rest = [] := List.dropWhile_eq_nil_iff.2 fun _ _ => rfl
  refine ⟨⟨⟨⟨?_, fun _ => ⟨hrest, hreported⟩⟩, hskip.last⟩, ?_, honward.reported, fun hs => ?_⟩,
    hreported⟩
  · rw [hrest]
    nofun
  · rw [hrest]
    exact List.nil_suffix
  · exact ⟨rfl, (honward.gaveUp hs).2⟩

end ParserState

/-! ## First steps -/

/-- The parser goes onward from every state, with a value that has a property.  What it reads
belongs to the language of the value. -/
def Parser.Reads {α : Type} (f : FileId) (P : α → Prop) (L : α → Language Token) (q : Parser α) :
    Prop :=
  ∀ s : ParserState, s.Ready f → q.Meets s fun a s' => P a ∧ s.Reads f (L a) s'

namespace Parser

variable {f : FileId} {s : ParserState}

theorem meets_here {Q : Span → ParserState → Prop} (h : Q s.here s) : here.Meets s Q :=
  ⟨_, _, rfl, h⟩

theorem meets_previous {Q : Span → ParserState → Prop} (h : Q s.previous s) : previous.Meets s Q :=
  ⟨_, _, rfl, h⟩

/-- Spans are joined without a change of the state. -/
theorem join_eq_ok {x y z : Span} {s' : ParserState} :
    join x y s = .ok (z, s') ↔ x.join y = .ok z ∧ s' = s := by
  constructor
  · intro h
    simp only [join, StateT.lift] at h
    cases hjoin : x.join y with
    | error d =>
      rw [hjoin] at h
      cases h
    | ok z =>
      rw [hjoin] at h
      cases h
      exact ⟨rfl, rfl⟩
  · rintro ⟨hz, rfl⟩
    rw [join, StateT.lift, hz]
    rfl

/-- After a report all that is known is that a diagnostic is there. -/
theorem meets_report {span : Span} {p : Problem} {Q : Unit → ParserState → Prop} (hs : s.Ready f)
    (h : ∀ s', s.Onward f s' → s'.reported ≠ [] → Q () s') : (report span p).Meets s Q := by
  exact .modify (h _ (hs.report span p) (hs.toPlaced.report span p).2)

theorem meets_giveUp {Q : Unit → ParserState → Prop} (hs : s.Ready f)
    (h : ∀ s', s.Onward f s' → s'.reported ≠ [] → Q () s') : giveUp.Meets s Q := by
  exact .modify (h _ hs.giveUp.1 hs.giveUp.2)

theorem meets_peek {p : Token → Bool} {Q : Bool → ParserState → Prop} (h : Q (s.begins p) s) :
    (peek p).Meets s Q := by
  refine .bind (.get ?_)
  cases hrest : s.rest with
  | nil =>
    rw [ParserState.begins_nil hrest] at h
    exact .pure h
  | cons l ls =>
    rw [ParserState.begins_cons hrest] at h
    exact .pure h

theorem accept?_nil {p : Token → Bool} (h : s.rest = []) : accept? p s = .ok (none, s) := by
  rw [accept?, h]

theorem accept?_cons {p : Token → Bool} {l : Lexeme} {ls : List Lexeme} (h : s.rest = l :: ls) :
    accept? p s =
      if l.token.fits p then .ok (some l, { s with rest := ls, last := some l })
      else .ok (none, s) := by
  rw [accept?, h]

/-- A lexeme that fits is taken. -/
theorem accept?_of_fits {p : Token → Bool} {l : Lexeme} {ls : List Lexeme} (h : s.rest = l :: ls)
    (hfits : l.token.fits p = true) :
    accept? p s = .ok (some l, { s with rest := ls, last := some l }) := by
  rw [accept?_cons h, hfits, if_pos rfl]

/-- A lexeme that does not fit stays where it is. -/
theorem accept?_of_begins {p : Token → Bool} (h : s.begins p = false) :
    accept? p s = .ok (none, s) := by
  cases hrest : s.rest with
  | nil => exact accept?_nil hrest
  | cons l ls =>
    rw [ParserState.begins_cons hrest] at h
    rw [accept?_cons hrest, h]
    rfl

/-- Either the next lexeme fits and is read, or there is none that fits and nothing is read. -/
theorem accept?_cases (p : Token → Bool) (s : ParserState) :
    (∃ l ls, s.rest = l :: ls ∧ l.token.fits p = true ∧
        accept? p s = .ok (some l, { s with rest := ls, last := some l })) ∨
      s.begins p = false ∧ accept? p s = .ok (none, s) := by
  cases hbegins : s.begins p with
  | false => exact .inr ⟨rfl, accept?_of_begins hbegins⟩
  | true =>
    cases hrest : s.rest with
    | nil => cases (ParserState.begins_nil hrest).symm.trans hbegins
    | cons l ls =>
      rw [ParserState.begins_cons hrest] at hbegins
      exact .inl ⟨l, ls, rfl, hbegins, accept?_of_fits hrest hbegins⟩

theorem fits_of_valid {t : Token} {p : Token → Bool} (h : t ≠ .invalid) : t.fits p = p t := by
  cases t <;> first | rfl | exact absurd rfl h

/-- Taking a lexeme goes on in the same file. -/
theorem onward_advance {l : Lexeme} {ls : List Lexeme} (hs : s.Placed f) (h : s.rest = l :: ls) :
    s.Onward f { s with rest := ls, last := some l } where
  ready := by
    refine ⟨⟨fun l' hl' => hs.rest l' (h ▸ List.mem_cons_of_mem l hl'), fun hs' => ?_⟩, l, rfl, ?_⟩
    · cases h.symm.trans (hs.gaveUp hs').1
    · exact hs.rest l (h ▸ List.mem_cons_self ..)
  rest := h ▸ List.suffix_cons ..
  reported := List.suffix_rfl
  gaveUp hs' := ⟨hs', rfl⟩

/-- A lexeme is read if its token fits.  If it is not invalid then the token is one of those that
are asked for. -/
theorem meets_accept? {p : Token → Bool} {Q : Option Lexeme → ParserState → Prop}
    (hs : s.Placed f) (hsome : ∀ l s', l.span.file = f →
      s.Reads f {ts | ts = [l.token] ∧ p l.token = true ∧ l.token ≠ .invalid} s' → Q (some l) s')
    (hnone : s.begins p = false → Q none s) : (accept? p).Meets s Q := by
  obtain ⟨l, ls, hrest, hfits, hrun⟩ | ⟨hbegins, hrun⟩ := accept?_cases p s
  · have hl : l ∈ s.rest := hrest ▸ List.mem_cons_self ..
    refine ⟨some l, _, hrun, hsome l _ (hs.rest l hl) ⟨onward_advance hs hrest, fun hvalid _ => ?_⟩⟩
    rw [fits_of_valid (hvalid l hl)] at hfits
    exact ⟨[l.token], ⟨rfl, hfits, hvalid l hl⟩, by simp [ParserState.tokens, hrest]⟩
  · exact ⟨none, s, hrun, hnone hbegins⟩

/-- Either the token is read, or the lexemes do not begin with it. -/
theorem meets_token? {t : Token} {Q : Option Lexeme → ParserState → Prop} (hs : s.Placed f)
    (hsome : ∀ l s', l.span.file = f → s.Reads f {[t]} s' → Q (some l) s')
    (hnone : s.begins (· == t) = false → Q none s) : (token? t).Meets s Q := by
  refine meets_accept? hs (fun l s' hl hreads => hsome l s' hl (hreads.mono ?_)) hnone
  rintro _ ⟨rfl, htoken, -⟩
  rw [beq_iff_eq.1 htoken]
  rfl

/-- The token is read in any case, up to a report. -/
theorem meets_expect (t : Token) {Q : Unit → ParserState → Prop} (hs : s.Ready f)
    (h : ∀ s', s.Reads f {[t]} s' → Q () s') : (expect t).Meets s Q := by
  refine .bind (meets_token? hs.toPlaced (fun l s' _ hreads => .pure (h s' hreads)) fun _ => ?_)
  exact .bind (meets_here (meets_report hs fun s' honward hreported =>
    h s' (honward.reads hreported)))

/-- The closing parenthesis is read in any case, up to a report. -/
theorem meets_closeGroup {opener : Span} {Q : Unit → ParserState → Prop} (hs : s.Ready f)
    (h : ∀ s', s.Reads f {[.punctuation .groupClose]} s' → Q () s') :
    (closeGroup opener).Meets s Q := by
  refine .bind (meets_token? hs.toPlaced (fun l s' _ hreads => .pure (h s' hreads)) fun _ => ?_)
  exact meets_report hs fun s' honward hreported => h s' (honward.reads hreported)

/-! ## Declarations -/

section

variable {l : Lexeme} {ls : List Lexeme}

/-- There are no declarations where there is no lexeme. -/
theorem declsFrom_nil (hrest : s.rest = []) (n : Nat) (acc : List Decl) :
    declsFrom n acc s = .ok (acc.reverse, s) := by
  cases n with
  | zero => rfl
  | succ n =>
    obtain ⟨rest, last, origin, reported, gaveUp⟩ := s
    cases hrest
    rfl

/-- Where a declaration begins, it is read and put in front of the ones before. -/
theorem declsFrom_decl (hrest : s.rest = l :: ls) (hl : beginsDecl l = true) (n : Nat)
    (acc : List Decl) :
    declsFrom (n + 1) acc s =
      (decl l.span >>= fun d => declsFrom n (d :: acc)) { s with rest := ls, last := some l } := by
  rw [declsFrom]
  exact bind_of_ok (accept?_of_fits hrest hl)

/-- What does not begin a declaration is skipped and reported once. -/
theorem declsFrom_other (hrest : s.rest = l :: ls) (hl : beginsDecl l = false) (n : Nat)
    (acc : List Decl) :
    declsFrom (n + 1) acc s = declsFrom n acc
      ((s.skipWhile fun l => !beginsDecl l).report l.span .expectedDeclaration) := by
  rw [declsFrom]
  have hbegins : s.begins (· == .keyword .letWord) = false := by
    rw [ParserState.begins_cons hrest]
    exact hl
  refine (bind_of_ok (accept?_of_begins hbegins)).trans ?_
  obtain ⟨rest, last, origin, reported, gaveUp⟩ := s
  cases hrest
  rfl

end

end Parser

theorem Levels.length_ofDepth (n : Nat) : (ofDepth n).length = n := by
  induction n with
  | zero => rfl
  | succ n ih => exact congrArg (· + 1) ih

end LetPoly
