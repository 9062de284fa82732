import LetPoly.Check
import LetPoly.Proofs.Growth
import LetPoly.Proofs.Programs
import LetPoly.Proofs.Reading
import LetPoly.Proofs.Tiling

/-!
# The phases of a check

A check goes on to the next phase only if the phases before have found nothing.  So a tree that
types are inferred for is *whole*: it has no invalid part, and all its names are there.  This is so
since a parser that reports nothing has read a program of the grammar from valid tokens
(`Parser.reads_declsFrom`), and a lexer that reports nothing has found no invalid token
(`Tiled.diagnosed`).
-/

namespace LetPoly

/-! ## Whole trees -/

/-- No part of a written type is missing. -/
inductive TypeExpr.Whole : TypeExpr → Prop where
  | prim (s : Span) (c : Con) : Whole (.prim s c)
  | fn (s : Span) {t u : TypeExpr} (ht : Whole t) (hu : Whole u) : Whole (.fn s t u)
  | tuple (s : Span) {ts : List TypeExpr} (hts : ∀ t ∈ ts, Whole t) : Whole (.tuple s ts)
  | wildcard (s : Span) : Whole (.wildcard s)

/-- A binder has a name, and no part of its annotation is missing. -/
structure Binder.Whole (b : Binder) : Prop where
  /-- The name. -/
  name : b.name ≠ ""
  /-- The annotation. -/
  anno : ∀ t ∈ b.anno, t.Whole

/-- No part of an expression is missing, and no name in it. -/
inductive Expr.Whole : Expr → Prop where
  | lit (m : Mark) (l : Literal) : Whole (.lit m l)
  | name (m : Mark) {x : String} (hx : x ≠ "") : Whole (.name m x)
  | lam (m : Mark) {p : Binder} {b : Expr} (hp : p.Whole) (hb : Whole b) : Whole (.lam m p b)
  | app (m : Mark) {f a : Expr} (hf : Whole f) (ha : Whole a) : Whole (.app m f a)
  | letIn (m : Mark) {b : Binder} {d e : Expr} (hb : b.Whole) (hd : Whole d) (he : Whole e) :
      Whole (.letIn m b d e)
  | cond (m : Mark) {c t e : Expr} (hc : Whole c) (ht : Whole t) (he : Whole e) :
      Whole (.cond m c t e)
  | anno (m : Mark) {e : Expr} {t : TypeExpr} (he : Whole e) (ht : t.Whole) : Whole (.anno m e t)
  | tuple (m : Mark) {es : List Expr} (hes : ∀ e ∈ es, Whole e) : Whole (.tuple m es)

/-- No part of a declaration is missing. -/
structure Decl.Whole (d : Decl) : Prop where
  /-- The name and its annotation. -/
  binder : d.binder.Whole
  /-- The definition. -/
  bound : d.bound.Whole

/-- No part of a program is missing. -/
def Program.Whole (p : Program) : Prop := ∀ d ∈ p, d.Whole

/-! ### Places do not matter -/

/-- A type is whole if it is so without its places. -/
theorem TypeExpr.whole_of_unplaced {t : TypeExpr} (h : t.unplaced.Whole) : t.Whole := by
  induction t using TypeExpr.inductionOn with
  | prim s c => exact .prim s c
  | fn s t u iht ihu =>
    rw [unplaced] at h
    cases h with
    | fn _ ht hu => exact .fn s (iht ht) (ihu hu)
  | tuple s ts ih =>
    rw [unplaced, unplacedAll_eq_map] at h
    cases h with
    | tuple _ hts => exact .tuple s fun t ht => ih t ht (hts _ (List.mem_map_of_mem ht))
  | wildcard s => exact .wildcard s
  | invalid s =>
    rw [unplaced] at h
    cases h

theorem Binder.whole_of_unplaced {b : Binder} (h : b.unplaced.Whole) : b.Whole where
  name := h.name
  anno _ ht := TypeExpr.whole_of_unplaced (h.anno _ (Option.mem_map_of_mem _ ht))

/-- An expression is whole if it is so without its places. -/
theorem Expr.whole_of_unplaced {e : Expr} (h : e.unplaced.Whole) : e.Whole := by
  induction e using Expr.inductionOn with
  | lit m l => exact .lit m l
  | name m x =>
    rw [unplaced] at h
    cases h with
    | name _ hx => exact .name m hx
  | lam m p b ih =>
    rw [unplaced] at h
    cases h with
    | lam _ hp hb => exact .lam m (Binder.whole_of_unplaced hp) (ih hb)
  | app m f a ihf iha =>
    rw [unplaced] at h
    cases h with
    | app _ hf ha => exact .app m (ihf hf) (iha ha)
  | letIn m b d e ihd ihe =>
    rw [unplaced] at h
    cases h with
    | letIn _ hb hd he => exact .letIn m (Binder.whole_of_unplaced hb) (ihd hd) (ihe he)
  | cond m c t e ihc iht ihe =>
    rw [unplaced] at h
    cases h with
    | cond _ hc ht he => exact .cond m (ihc hc) (iht ht) (ihe he)
  | anno m e t ih =>
    rw [unplaced] at h
    cases h with
    | anno _ he ht => exact .anno m (ih he) (TypeExpr.whole_of_unplaced ht)
  | tuple m es ih =>
    rw [unplaced, unplacedAll_eq_map] at h
    cases h with
    | tuple _ hes => exact .tuple m fun e he => ih e he (hes _ (List.mem_map_of_mem he))
  | invalid m =>
    rw [unplaced] at h
    cases h

/-- A program is whole if it is so without its places. -/
theorem Program.whole_of_unplaced {p : Program} (h : p.unplaced.Whole) : p.Whole := by
  intro d hd
  have hwhole := h _ (List.mem_map_of_mem hd)
  exact ⟨Binder.whole_of_unplaced hwhole.binder, Expr.whole_of_unplaced hwhole.bound⟩

/-! ### Programs of the grammar -/

namespace Token

/-- No name among the tokens is empty. -/
def Named (ts : List Token) : Prop := ∀ x, .name x ∈ ts → x ≠ ""

@[simp] theorem named_nil : Named [] := nofun

@[simp] theorem named_cons {t : Token} {ts : List Token} :
    Named (t :: ts) ↔ (∀ x, t = .name x → x ≠ "") ∧ Named ts := by
  simp [Named, or_imp, forall_and, eq_comm]

@[simp] theorem named_append {ts us : List Token} : Named (ts ++ us) ↔ Named ts ∧ Named us := by
  simp [Named, or_imp, forall_and]

theorem named_flatMap {α : Type} {f : α → List Token} {xs : List α} :
    Named (xs.flatMap f) ↔ ∀ x ∈ xs, Named (f x) := by
  induction xs with
  | nil => simp
  | cons x xs ih => simp [ih]

@[simp] theorem named_commas {α : Type} {xs : List (Phrase α)} :
    Named (Phrase.commas xs) ↔ ∀ x ∈ xs, Named x.tokens := by
  simp [Phrase.commas, named_flatMap]

@[simp] theorem named_chainTokens {xs : List (Operator × Phrase Expr)} :
    Named (Expr.chainTokens xs) ↔ ∀ x ∈ xs, Named x.2.tokens := by
  simp [Expr.chainTokens, named_flatMap]

@[simp] theorem named_argumentTokens {xs : List (Phrase Expr)} :
    Named (Expr.argumentTokens xs) ↔ ∀ x ∈ xs, Named x.tokens := by
  cases xs <;> simp [Expr.argumentTokens]

end Token

/-- The types of the grammar are whole. -/
theorem TypeExpr.Derives.whole {sort : TypeSort} {ts : List Token} {t : TypeExpr}
    (h : Derives sort ts t) : t.Whole := by
  induction h with
  | base _ ih => exact ih
  | fn _ _ iht ihu => exact .fn _ iht ihu
  | prim _ => exact .prim _ _
  | wildcard => exact .wildcard _
  | unit => exact .prim _ _
  | group _ ih => exact ih
  | tuple _ _ _ ihx ihxs =>
    exact .tuple _ (List.forall_mem_cons.2 ⟨ihx, List.forall_mem_map.2 ihxs⟩)

/-- The binders of the grammar are whole if no name is empty. -/
theorem Binder.Derives.whole {ts : List Token} {b : Binder} (h : Derives ts b)
    (hnamed : Token.Named ts) : b.Whole := by
  cases h with
  | plain x => exact ⟨hnamed x (List.mem_cons_self ..), nofun⟩
  | annotated x ht =>
    refine ⟨hnamed x (List.mem_cons_self ..), fun t hmem => ?_⟩
    cases hmem
    exact ht.whole

namespace Expr

/-- An operation is whole if its operands are, since operators have names. -/
theorem whole_operation (o : Operator) {l r : Expr} (hl : l.Whole) (hr : r.Whole) :
    (operation o l r).Whole := by
  have ho : o.text ≠ "" := by cases o <;> decide
  exact .app _ (.app _ (.name _ ho) hl) hr

/-- A call is whole if callee and arguments are. -/
theorem whole_call {f : Expr} {as : List Expr} (hf : f.Whole) (has : ∀ a ∈ as, a.Whole) :
    (f.call as).Whole := by
  cases as with
  | nil => exact .app _ hf (.lit _ _)
  | cons a as =>
    exact List.foldlRecOn (a :: as) (.app .nowhere) hf fun f hf a ha => .app _ hf (has a ha)

/-- A function is whole if its parameters and its body are. -/
theorem whole_function {ps : List Binder} {body : Expr} (hps : ∀ p ∈ ps, p.Whole)
    (hbody : body.Whole) : (function ps body).Whole := by
  unfold function
  exact List.foldrRecOn ps (.lam .nowhere) hbody fun b hb p hp => .lam _ (hps p hp) hb

/-- The value of a chain is whole if its operands are. -/
theorem whole_chain {e : Expr} {xs : List (Operator × Phrase Expr)} (he : e.Whole)
    (hxs : ∀ x ∈ xs, x.2.value.Whole) :
    (xs.foldl (fun l x => operation x.1 l x.2.value) e).Whole :=
  List.foldlRecOn xs _ he fun _ hl x hx => whole_operation x.1 hl (hxs x hx)

/-- An expression of the grammar is whole. -/
theorem Derives.whole {sort : ExprSort} {ts : List Token} {e : Expr} (h : Derives sort ts e)
    (hnamed : Token.Named ts) : e.Whole := by
  induction h with
  | letIn hb _ _ ihd ihe =>
    obtain ⟨hbs, hds, hes⟩ := by simpa using hnamed
    exact .letIn _ (hb.whole hbs) (ihd hds) (ihe hes)
  | cond _ _ _ ihc iht ihe =>
    obtain ⟨hcs, hts, hes⟩ := by simpa using hnamed
    exact .cond _ (ihc hcs) (iht hts) (ihe hes)
  | fn hp hps _ ih =>
    obtain ⟨hfirst, hothers, hes⟩ := by simpa using hnamed
    have hmore := List.forall_mem_map.2 fun q hq => (hps q hq).whole (hothers q hq)
    exact whole_function (List.forall_mem_cons.2 ⟨hp.whole hfirst, hmore⟩) (ih hes)
  | or _ ih => exact ih hnamed
  | chain r _ _ _ ih ihs =>
    obtain ⟨hts, hxs⟩ := by simpa using hnamed
    exact whole_chain (ih hts) fun x hx => ihs x hx (hxs x.1 x.2 hx)
  | uncompared _ ih => exact ih hnamed
  | compared _ _ _ ihl ihr =>
    obtain ⟨hls, hrs⟩ := by simpa using hnamed
    exact whole_operation _ (ihl hls) (ihr hrs)
  | call _ _ ih ihs =>
    obtain ⟨hts, hcalls⟩ := by simpa [Token.named_flatMap] using hnamed
    refine List.foldlRecOn _ _ (ih hts) fun f hf xs hxs => whole_call hf ?_
    exact List.forall_mem_map.2 fun x hx => ihs xs hxs x hx (hcalls xs hxs x hx)
  | int n => exact .lit _ _
  | float d => exact .lit _ _
  | string s => exact .lit _ _
  | bool b => exact .lit _ _
  | name x => exact .name _ (hnamed x (List.mem_cons_self ..))
  | unit => exact .lit _ _
  | group _ ih => exact ih (by simpa using hnamed)
  | anno _ ht ih =>
    obtain ⟨hes, -⟩ := by simpa using hnamed
    exact .anno _ (ih hes) ht.whole
  | tuple _ _ _ ihx ihxs =>
    obtain ⟨hfirst, hothers⟩ := by simpa using hnamed
    have hmore := List.forall_mem_map.2 fun y hy => ihxs y hy (hothers y hy)
    exact .tuple _ (List.forall_mem_cons.2 ⟨ihx hfirst, hmore⟩)

end Expr

/-- A program of the grammar is whole. -/
theorem Program.Derives.whole {ts : List Token} {p : Program} (h : Derives ts p)
    (hnamed : Token.Named ts) : p.Whole := by
  induction h with
  | nil => exact nofun
  | cons hb he semicolon _ ih =>
    obtain ⟨hbs, hes, -, hts⟩ := by simpa using hnamed
    exact List.forall_mem_cons.2 ⟨⟨hb.whole hbs, he.whole hes⟩, ih hts⟩

/-! ## Lexing and parsing -/

/-- No token of a name is empty. -/
theorem Token.Munched.name_ne_empty {x : String} {text rest : List Char}
    (h : (Token.name x).Munched text rest) : x ≠ "" := by
  have hne := h.text_ne_nil
  cases h with
  | matched _ hdenotes =>
    cases hdenotes with
    | name => simpa using hne

/-- The lexer finds no empty names. -/
theorem lex_named (file : FileId) (source : String) :
    Token.Named ((lex file source).1.map (·.token)) := by
  intro x hx
  obtain ⟨l, hl, heq⟩ := List.mem_map.1 hx
  obtain ⟨-, _, _, _, -, hmunched⟩ := (lex_tiled file source).lexemes [] rfl rfl l hl
  rw [heq] at hmunched
  exact hmunched.name_ne_empty

/-- All lexemes of a source are in its file. -/
theorem lex_file (file : FileId) (source : String) :
    ∀ l ∈ (lex file source).1, l.span.file = file := fun l hl =>
  ((lex_tiled file source).lexemes [] rfl rfl l hl).1

/-- Where nothing is reported there is no invalid token. -/
theorem lex_valid {file : FileId} {source : String} (h : (lex file source).2 = []) :
    ∀ l ∈ (lex file source).1, l.token ≠ .invalid := by
  intro l hl htoken
  have hnone := (lex_tiled file source).diagnosed
  rw [h, List.map_nil, eq_comm, List.map_eq_nil_iff, List.filter_eq_nil_iff] at hnone
  exact hnone l hl (by simp [htoken])

/-- Parsing always ends with a tree, which is whole if nothing was reported. -/
theorem parse_whole (file : FileId) (source : String) :
    ∃ p ds, parse file (lex file source).1 = .ok (p, ds) ∧
      ((lex file source).2 = [] → ds = [] → p.Whole) := by
  let s : ParserState := ⟨(lex file source).1, none, .origin file, [], false⟩
  have hplaced : s.Placed file := ⟨lex_file file source, nofun⟩
  obtain ⟨p, s', hrun, ds, hp, -, hderives⟩ :=
    Parser.reads_declsFrom (lex file source).1.length [] hplaced
  obtain rfl : p = ds := hp
  refine ⟨p, s'.reported.reverse, ?_, fun hlexical hstructural => ?_⟩
  · simp only [parse]
    rw [hrun]
    rfl
  · have hprogram := hderives le_rfl (lex_valid hlexical) (List.reverse_eq_nil_iff.1 hstructural)
    exact Program.whole_of_unplaced (hprogram.whole (lex_named file source))

/-! ## Reports -/

/-- What is reported in the course of a check, one report after the other. -/
def Checked.reports (c : Checked) : List (List Diagnostic) := c.events.filterMap Event.diagnostics?

/-- A run tells when it begins, and reports nothing by itself. -/
theorem Program.events_inferTypes (mode : Mode) (p : Program) :
    ∃ es, (p.inferTypes mode).events = .inferring :: es ∧ ∀ e ∈ es, e.diagnostics? = none := by
  obtain ⟨es, hlog, hes⟩ := (Program.extends_infer mode p.clear Prelude.env Session.start).quiet
  rcases hwalk : Program.infer mode p.clear Prelude.env Session.start with ⟨⟨q, f | u⟩, s⟩
  all_goals
    rw [hwalk] at hlog
    change s.log = es ++ [.inferring] at hlog
    -- At the end there are a few more events, which are no reports either.
    have hend (last : List Event) (hlast : ∀ e ∈ last, e.diagnostics? = none) :
        ∃ es', (last ++ s.log).reverse = .inferring :: es' ∧ ∀ e ∈ es', e.diagnostics? = none := by
      refine ⟨(last ++ es).reverse, by simp [hlog], fun e he => ?_⟩
      exact (List.mem_append.1 (List.mem_reverse.1 he)).elim (hlast e) (hes e)
    rw [Program.inferTypes, hwalk]
  · cases f with
    | error e => exact hend [.failed e] (List.forall_mem_singleton.2 rfl)
    | defect d => exact hend [] (List.forall_mem_nil _)
  · have hlast : ∀ e ∈ [Event.typed, .assembling s.subst.size s.drawn], e.diagnostics? = none :=
      List.forall_mem_cons.2 ⟨rfl, List.forall_mem_singleton.2 rfl⟩
    dsimp only
    split <;> exact hend _ hlast

/-! ## Checks -/

/-- What happens in a check up to the end of parsing. -/
def parsedEvents (file : FileId) (lexical structural : List Diagnostic) : List Event :=
  [.lexing file, .reported lexical, .lexed file, .parsing file, .reported structural, .parsed file]

/-- The ways in which a check can end, where `lexical` and `structural` are what lexing and parsing
have reported and `p` is the tree of the source. -/
inductive Checked.Gated (mode : Option Mode) (p : Program) (lexical structural : List Diagnostic)
    (c : Checked) : Prop where
  /-- Something was reported before inference, which then did not take place. -/
  | stopped (hfound : lexical ≠ [] ∨ structural ≠ []) (hskipped : .inferring ∉ c.events)
      (hreports : c.reports = [lexical, structural]) (hprogram : c.program? = none)
  /-- Inference was not asked for. -/
  | parsed (hlexical : lexical = []) (hstructural : structural = []) (hwhole : p.Whole)
      (hmode : mode = none) (hskipped : .inferring ∉ c.events) (hreports : c.reports = [[], []])
      (hprogram : c.program? = some p)
  /-- Inference has found types. -/
  | typed {m : Mode} (hlexical : lexical = []) (hstructural : structural = []) (hwhole : p.Whole)
      (hmode : mode = some m) (htyped : (p.inferTypes m).verdict = .typed)
      (hinferred : .inferring ∈ c.events) (hreports : c.reports = [[], []])
      (hprogram : c.program? = some (p.inferTypes m).program)
  /-- Inference has found errors, each of which is reported. -/
  | illTyped {m : Mode} {errors : List TypeError} (hlexical : lexical = [])
      (hstructural : structural = []) (hwhole : p.Whole) (hmode : mode = some m)
      (hilltyped : (p.inferTypes m).verdict = .illTyped errors) (hne : errors ≠ [])
      (hinferred : .inferring ∈ c.events)
      (hreports : c.reports = [[], [], errors.map TypeError.diagnostic])
      (hprogram : c.program? = none)

variable {file : FileId} {source : String} {p : Program} {structural : List Diagnostic}

/-- The events of a check that stops after parsing. -/
theorem checkSource_of_found (mode : Option Mode)
    (hparse : parse file (lex file source).1 = .ok (p, structural))
    (hfound : (lex file source).2 ≠ [] ∨ structural ≠ []) :
    checkSource mode file source =
      .ok ⟨none, parsedEvents file (lex file source).2 structural⟩ := by
  have hguard : (!((lex file source).2.isEmpty && structural.isEmpty)) = true := by
    simpa [imp_iff_not_or] using hfound
  simp only [checkSource, hparse, bind, Except.bind, hguard]
  rfl

/-- Without a mode a check ends with the tree. -/
theorem checkSource_none (hparse : parse file (lex file source).1 = .ok (p, []))
    (hlexical : (lex file source).2 = []) :
    checkSource none file source = .ok ⟨some p, parsedEvents file [] []⟩ := by
  simp only [checkSource, hparse, bind, Except.bind, hlexical]
  rfl

/-- If inference succeeds then a check ends with the typed tree. -/
theorem checkSource_typed {m : Mode} (hparse : parse file (lex file source).1 = .ok (p, []))
    (hlexical : (lex file source).2 = []) (hverdict : (p.inferTypes m).verdict = .typed) :
    checkSource (some m) file source =
      .ok ⟨some (p.inferTypes m).program, parsedEvents file [] [] ++ (p.inferTypes m).events⟩ := by
  simp only [checkSource, hparse, bind, Except.bind, hlexical, hverdict]
  rfl

/-- If inference fails then a check reports its errors. -/
theorem checkSource_illTyped {m : Mode} {errors : List TypeError}
    (hparse : parse file (lex file source).1 = .ok (p, [])) (hlexical : (lex file source).2 = [])
    (hverdict : (p.inferTypes m).verdict = .illTyped errors) :
    checkSource (some m) file source =
      .ok ⟨none, parsedEvents file [] [] ++ (p.inferTypes m).events ++
        [.reported (errors.map TypeError.diagnostic)]⟩ := by
  simp only [checkSource, hparse, bind, Except.bind, hlexical, hverdict]
  rfl

/-- A run of inference ends with types or with errors, of which there is one at least. -/
theorem Program.typed_or_illTyped (m : Mode) (p : Program) :
    (p.inferTypes m).verdict = .typed ∨
      ∃ errors, (p.inferTypes m).verdict = .illTyped errors ∧ errors ≠ [] := by
  obtain ⟨q, e, s, h⟩ | ⟨q, s, h⟩ := p.failed_or_walked m
  · exact .inr ⟨[e], h.verdict, List.cons_ne_nil e []⟩
  · by_cases hnone : (q.resolve s.subst).ambiguities = []
    · exact .inl (h.typed.2 hnone)
    · exact .inr ⟨_, (h.illTyped _).2 ⟨rfl, hnone⟩, hnone⟩

/-- A tree is kept back if and only if something was reported. -/
theorem Checked.Gated.program?_eq_none {mode : Option Mode} {lexical : List Diagnostic}
    {c : Checked} (h : c.Gated mode p lexical structural) :
    c.program? = none ↔ ∃ ds ∈ c.reports, ds ≠ [] := by
  cases h with
  | stopped hfound _ hreports hprogram => simpa [hreports, hprogram] using hfound
  | parsed _ _ _ _ _ hreports hprogram => simp [hreports, hprogram]
  | typed _ _ _ _ _ _ hreports hprogram => simp [hreports, hprogram]
  | illTyped _ _ _ _ _ hne _ hreports hprogram => simpa [hreports, hprogram] using hne

/-- A check goes on only if nothing was found.  It always ends, in one of the ways of
`Checked.Gated`, and keeps the tree back if and only if something was reported. -/
theorem check_gated (mode : Option Mode) (file : FileId) (source : String) :
    ∃ p structural c, parse file (lex file source).1 = .ok (p, structural) ∧
      checkSource mode file source = .ok c ∧ c.Gated mode p (lex file source).2 structural ∧
      (c.program? = none ↔ ∃ ds ∈ c.reports, ds ≠ []) := by
  obtain ⟨p, structural, hparse, hwhole⟩ := parse_whole file source
  suffices h : ∃ c, checkSource mode file source = .ok c ∧
      c.Gated mode p (lex file source).2 structural by
    obtain ⟨c, hcheck, hgated⟩ := h
    exact ⟨p, structural, c, hparse, hcheck, hgated, hgated.program?_eq_none⟩
  by_cases hfound : (lex file source).2 ≠ [] ∨ structural ≠ []
  · exact ⟨_, checkSource_of_found mode hparse hfound,
      .stopped hfound (by simp [parsedEvents]) rfl rfl⟩
  obtain ⟨hlexical, rfl⟩ : (lex file source).2 = [] ∧ structural = [] := by
    simpa [not_or] using hfound
  have hp := hwhole hlexical rfl
  rw [hlexical]
  cases mode with
  | none =>
    exact ⟨_, checkSource_none hparse hlexical,
      .parsed rfl rfl hp rfl (by simp [parsedEvents]) rfl rfl⟩
  | some m =>
    obtain ⟨es, hevents, hquiet⟩ := p.events_inferTypes m
    have hsilent : (p.inferTypes m).events.filterMap Event.diagnostics? = [] := by
      rw [hevents, List.filterMap_cons_none rfl, List.filterMap_eq_nil_iff.2 hquiet]
    obtain hverdict | ⟨errors, hverdict, hne⟩ := p.typed_or_illTyped m
    · refine ⟨_, checkSource_typed hparse hlexical hverdict,
        .typed rfl rfl hp rfl hverdict (by simp [hevents]) ?_ rfl⟩
      rw [Checked.reports, List.filterMap_append, hsilent]
      rfl
    · refine ⟨_, checkSource_illTyped hparse hlexical hverdict,
        .illTyped rfl rfl hp rfl hverdict hne (by simp [hevents]) ?_ rfl⟩
      rw [Checked.reports, List.filterMap_append, List.filterMap_append, hsilent]
      rfl

end LetPoly
