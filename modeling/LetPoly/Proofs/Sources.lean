import LetPoly.Proofs.TypedSpans
import LetPoly.Command.Run

/-!
# Runs on several sources

A run on several sources does for each of them what a run on it alone does.  What a source adds to a
run depends on the run before it only in the number that the source gets, and all that a check finds
is the same for every number, up to the number itself.  So the run fails if and only if one of
the runs alone does, and what it shows is put together of what they show (`runChecks_joins`).
-/

namespace LetPoly

/-! ## What is shown -/

/-- A label that does not tell its file. -/
def Label.unfiled (l : Label) : Label := { l with span := l.span.renumber fun _ => 0 }

namespace Command

/-- What a diagnostic says.  Every diagnostic is an error. -/
structure Message where
  /-- The code. -/
  code : String
  /-- The headline. -/
  headline : String
  /-- The labels, without their files. -/
  labels : List Label
  /-- The notes. -/
  notes : List String
  deriving DecidableEq

/-- The message of a diagnostic. -/
def Message.ofDiagnostic (d : Diagnostic) : Message where
  code := d.code
  headline := d.problem.headline
  labels := d.labels.map Label.unfiled
  notes := d.problem.notes

/-- Something that is wrong with a source with a name. -/
inductive Complaint where
  /-- A diagnostic. -/
  | message (name : String) (m : Message)
  /-- The source cannot be read. -/
  | unreadable (name : String) (e : ReadError)
  /-- The source is no text. -/
  | notText (name : String) (e : Text.Utf8Error)
  deriving DecidableEq

/-- What a notice says is wrong. -/
def Notice.complaints : Notice → List Complaint
  | diagnostics name _ ds => ds.map fun d => .message name (.ofDiagnostic d)
  | unreadable name e => [.unreadable name e]
  | notText name e => [.notText name e]
  | logged _ _ | tree _ _ | usage _ => []

/-- The text of a line on the output channel. -/
def Line.output? : Line → Option String
  | output text => some text
  | error _ => none

/-- The lines of a run on the output channel. -/
def Outcome.output (o : Outcome) : List String := o.lines.filterMap Line.output?

/-- What a run says is wrong. -/
def Outcome.complaints (o : Outcome) : List Complaint := o.notices.flatMap Notice.complaints

/-- A message does not mention the number of a file. -/
theorem Message.ofDiagnostic_renumber (φ : FileId → FileId) (d : Diagnostic) :
    ofDiagnostic (d.mapSpans (.renumber φ)) = ofDiagnostic d := by
  obtain ⟨span, p⟩ := d
  cases p <;> rfl

/-! ## One source -/

/-- What two runs have shown is the same up to log entries and the numbers of files. -/
structure Notice.Agree (ns ns' : List Notice) : Prop where
  /-- The output. -/
  output : (ns.flatMap lines).filterMap Line.output? = (ns'.flatMap lines).filterMap Line.output?
  /-- What is said to be wrong. -/
  complaints : ns.flatMap complaints = ns'.flatMap complaints

namespace Notice.Agree

variable {ns ns' ms ms' : List Notice}

theorem refl (ns : List Notice) : Agree ns ns := ⟨rfl, rfl⟩

theorem symm (h : Agree ns ns') : Agree ns' ns := ⟨h.output.symm, h.complaints.symm⟩

theorem trans (h : Agree ns ns') (h' : Agree ns' ms) : Agree ns ms :=
  ⟨h.output.trans h'.output, h.complaints.trans h'.complaints⟩

theorem append (h : Agree ns ns') (h' : Agree ms ms') : Agree (ns ++ ms) (ns' ++ ms') where
  output := by simp [h.output, h'.output]
  complaints := by simp [h.complaints, h'.complaints]

end Notice.Agree

/-- Diagnostics go to the error channel. -/
theorem output_diagnostics (name source : String) (ds : List Diagnostic) :
    (Notice.diagnostics name source ds).lines.filterMap Line.output? = [] := by
  simp [Notice.lines, List.filterMap_flatMap, diagnosticLines, Line.output?]

/-- Log entries do not count. -/
theorem agree_nil_of_entry (debug : Bool) (name source : String) {e : Event}
    (h : e.diagnostics? = none) : Notice.Agree (eventNotices debug name source e) [] := by
  unfold eventNotices
  split
  · cases h
  · split
    · exact .refl []
    · split
      · exact ⟨rfl, rfl⟩
      · exact .refl []

theorem agree_eventNotices (φ : FileId → FileId) (debug : Bool) (name source : String)
    (e : Event) :
    Notice.Agree (eventNotices debug name source (e.renumber φ))
      (eventNotices debug name source e) := by
  cases hds : e.diagnostics? with
  | none =>
    have hds' : (e.renumber φ).diagnostics? = none := by
      cases e <;> first | rfl | cases hds
    exact (agree_nil_of_entry debug name source hds').trans
      (agree_nil_of_entry debug name source hds).symm
  | some ds =>
    obtain rfl : e = .reported ds := by
      cases e <;> cases hds
      rfl
    constructor
    · simp [eventNotices, Event.renumber, output_diagnostics]
    · simp [eventNotices, Event.renumber, Notice.complaints, Message.ofDiagnostic_renumber]

/-- The notices of a check do not depend on the number of its file. -/
theorem agree_events (φ : FileId → FileId) (debug : Bool) (name source : String)
    (es : List Event) :
    Notice.Agree ((es.map (Event.renumber φ)).flatMap (eventNotices debug name source))
      (es.flatMap (eventNotices debug name source)) := by
  induction es with
  | nil => exact .refl []
  | cons e es ih => exact (agree_eventNotices φ debug name source e).append ih

/-- A check is the same for every number of the source, up to the number. -/
theorem checkSource_eq_map (mode : Option Mode) (file : FileId) (source : String) :
    checkSource mode file source =
      (checkSource mode 0 source).map (Checked.renumber (file + ·)) :=
  checkSource_renumber (add_right_injective file) mode 0 source

namespace Progress

variable (args : Arguments) (read : String → Except ReadError (List UInt8))

/-- What a run has come to that went on from `p` as `q` did from nothing. -/
def append (p q : Progress) : Progress := ⟨q.nextFile, p.failed + q.failed, p.notices ++ q.notices⟩

@[simp] theorem append_failed (p q : Progress) : (p.append q).failed = p.failed + q.failed := rfl

/-- What a source adds depends on what was before only in its number. -/
theorem add_eq_append (p : Progress) (name : String) :
    p.add args read name = p.append (add args read ⟨p.nextFile, 0, []⟩ name) := by
  unfold add
  cases read name with
  | error e => simp [fail, append]
  | ok bytes =>
    simp only
    cases Text.decode bytes with
    | error e => simp [fail, append]
    | ok source =>
      simp only [check]
      cases checkSource args.mode p.nextFile source with
      | error d => simp [fail, append]
      | ok c =>
        simp only
        cases c.program? <;> simp [fail, append]

/-- What a run comes to on one source. -/
def alone (name : String) : Progress := add args read ⟨0, 0, []⟩ name

/-- What a source adds is the same for every number. -/
theorem add_renumber (file : FileId) (name : String) :
    (add args read ⟨file, 0, []⟩ name).failed = (alone args read name).failed ∧
      Notice.Agree (add args read ⟨file, 0, []⟩ name).notices (alone args read name).notices := by
  unfold alone add
  cases read name with
  | error e => exact ⟨rfl, .refl _⟩
  | ok bytes =>
    simp only
    cases Text.decode bytes with
    | error e => exact ⟨rfl, .refl _⟩
    | ok source =>
      have hevents (es : List Event) := agree_events (file + ·) args.debug name source
        (.checking name 0 :: es)
      simp only [check, checkSource_eq_map args.mode file source]
      cases checkSource args.mode 0 source with
      | error d => exact ⟨rfl, hevents []⟩
      | ok c =>
        simp only [Except.map, Checked.renumber]
        cases c.program? with
        | none => exact ⟨rfl, hevents c.events⟩
        | some p =>
          simp only [Option.map_some, List.nil_append, Program.text_mapSpans, true_and]
          exact (hevents c.events).append (.refl _)

/-- A run on several sources is put together of runs on one source each. -/
theorem foldl_add (names : List String) (p : Progress) :
    ((names.foldl (add args read) p).failed ≠ 0 ↔
        p.failed ≠ 0 ∨ ∃ x ∈ names, (alone args read x).failed ≠ 0) ∧
      Notice.Agree (names.foldl (add args read) p).notices
        (p.notices ++ names.flatMap fun x => (alone args read x).notices) := by
  induction names generalizing p with
  | nil => simp [Notice.Agree.refl]
  | cons x names ih =>
    obtain ⟨hfailed, hnotices⟩ := ih (p.add args read x)
    obtain ⟨hfailed', hnotices'⟩ := add_renumber args read p.nextFile x
    rw [add_eq_append] at hfailed hnotices
    rw [List.foldl_cons, add_eq_append]
    constructor
    · rw [hfailed, append_failed, hfailed']
      simp only [List.mem_cons, exists_eq_or_imp, ← or_assoc]
      apply or_congr_left
      omega
    · rw [List.flatMap_cons, ← List.append_assoc]
      exact hnotices.trans (((Notice.Agree.refl p.notices).append hnotices').append (.refl _))

end Progress

/-! ## Arguments -/

/-- The arguments with dashes among arguments. -/
def flagArguments : List String → List String
  | [] => []
  | a :: as =>
    match a.toList with
    | ['-', '-'] => []
    | '-' :: _ :: _ => a :: flagArguments as
    | _ => flagArguments as

/-- Arguments that ask of one source what `args` ask of theirs. -/
def aloneArguments (args : List String) (name : String) : List String :=
  flagArguments args ++ ["--", name]

namespace Reading

variable {r r' : Reading}

/-- What was read without the sources. -/
def withoutSources (r : Reading) : Reading := ⟨r.flags, [], false⟩

/-- No source has an empty name, or it is known that one has. -/
def Named (r : Reading) : Prop := r.blank = false → "" ∉ r.sources

/-- A source that is added has a name. -/
theorem Named.addSource (h : r.Named) (name : String) : (r.addSource name).Named := by
  intro hblank
  simp only [Reading.addSource, Bool.or_eq_false_iff] at hblank
  have hname : "" ≠ name := by
    rintro rfl
    simp at hblank
  simpa [Reading.addSource, hname] using h hblank.1

theorem Named.foldl_addSource (h : r.Named) (names : List String) :
    (names.foldl Reading.addSource r).Named := by
  induction names generalizing r with
  | nil => exact h
  | cons name names ih => exact ih (h.addSource name)

/-- A step that reads a flag, whatever the sources are. -/
def ReadsFlag (step : Reading → Except ArgumentError Reading) : Prop :=
  ∀ r r', step r = .ok r' →
    step r.withoutSources = .ok r'.withoutSources ∧ (r.Named → r'.Named)

/-- A request is read without regard to the sources. -/
theorem readsFlag_addRequest (q : Request) : ReadsFlag (addRequest · q) := by
  intro r r' h
  simp only [addRequest] at h
  split at h
  · cases h
  · cases q with
    | help => cases h
    | version => cases h
    | flag f =>
      simp only at h
      split at h
      · cases h
      · rename_i hflag
        cases h
        exact ⟨if_neg hflag, id⟩

theorem readsFlag_addLong (cs : List Char) : ReadsFlag (addLong · cs) := by
  intro r r' h
  simp only [addLong] at h ⊢
  split at h
  · cases h
  · split at h
    · cases h
    · rename_i hvalue
      rw [if_neg hvalue]
      exact readsFlag_addRequest _ r r' h

theorem readsFlag_addShort (c : Char) : ReadsFlag (addShort · c) := by
  intro r r' h
  simp only [addShort] at h ⊢
  split at h
  · cases h
  · exact readsFlag_addRequest _ r r' h

/-- A flag is read without regard to the sources, and so is what follows it. -/
theorem ReadsFlag.bind_eq_ok {step next : Reading → Except ArgumentError Reading}
    (hstep : ReadsFlag step) (h : step r >>= next = .ok r') :
    ∃ r₁, next r₁ = .ok r' ∧ step r.withoutSources = .ok r₁.withoutSources ∧
      (r.Named → r₁.Named) := by
  cases hr₁ : step r with
  | error e => simp [hr₁, bind, Except.bind] at h
  | ok r₁ =>
    simp only [hr₁, bind, Except.bind] at h
    exact ⟨r₁, h, hstep r r₁ hr₁⟩

/-- Behind two dashes everything is a source. -/
theorem addAll_dashes {x : String} (r : Reading) (hx : x ≠ "") :
    r.withoutSources.addAll ["--", x] = .ok ⟨r.flags, [x], false⟩ := by
  have hdashes : "--".toList = ['-', '-'] := rfl
  simp [addAll, hdashes, addSource, withoutSources, hx]

theorem foldl_addSource_flags (r : Reading) (names : List String) :
    (names.foldl Reading.addSource r).flags = r.flags := by
  induction names generalizing r with
  | nil => rfl
  | cons name names ih => exact ih (r.addSource name)

/-- Accepted arguments name their sources, and ask the same of a source alone. -/
theorem addAll_eq_ok {args : List String} (h : r.addAll args = .ok r') :
    (r.Named → "" ∉ r'.sources) ∧
      ∀ x ≠ "", r.withoutSources.addAll (aloneArguments args x) = .ok ⟨r'.flags, [x], false⟩ := by
  -- A blank name, two dashes, a long flag, a short one and a source.
  fun_induction addAll r args with
  | case1 r hblank => cases h
  | case2 r hblank =>
    obtain rfl := Except.ok.inj h
    exact ⟨fun hr => hr (by simpa using hblank), fun x hx => addAll_dashes r hx⟩
  | case3 => cases h
  | case4 r a as ha r₁ hblank =>
    obtain rfl := Except.ok.inj h
    constructor
    · intro hr
      exact hr.foldl_addSource as (by simpa using hblank)
    · intro x hx
      simp only [aloneArguments, flagArguments, ha, List.nil_append]
      rw [addAll_dashes r hx, foldl_addSource_flags]
  | case5 r a as cs hcs ha ih =>
    obtain ⟨c, cs, rfl⟩ := List.exists_cons_of_ne_nil hcs
    obtain ⟨r₁, h₁, hflag, hkeeps⟩ := (readsFlag_addLong (c :: cs)).bind_eq_ok h
    obtain ⟨hnamed, halone⟩ := ih r₁ h₁
    constructor
    · intro hr
      exact hnamed (hkeeps hr)
    · intro x hx
      simp only [aloneArguments, flagArguments, ha, List.cons_append, addAll, hflag]
      exact halone x hx
  | case6 r a as c cs hdashes hlong ha ih =>
    obtain ⟨r₁, h₁, hflag, hkeeps⟩ := (readsFlag_addShort c).bind_eq_ok h
    obtain ⟨hnamed, halone⟩ := ih r₁ h₁
    constructor
    · intro hr
      exact hnamed (hkeeps hr)
    · intro x hx
      simp only [aloneArguments, flagArguments, ha, List.cons_append, addAll, hflag]
      exact halone x hx
  | case7 r a as hdashes hlong hshort ih =>
    obtain ⟨hnamed, halone⟩ := ih h
    constructor
    · intro hr
      exact hnamed (hr.addSource a)
    · intro x hx
      have hflags : flagArguments (a :: as) = flagArguments as := by
        rw [flagArguments]
        simp_all
      rw [aloneArguments, hflags]
      exact halone x hx

end Reading

/-- Arguments are accepted if their flags fit together and there is a source. -/
theorem Arguments.read_eq_ok_iff {args : List String} {a : Arguments} :
    Arguments.read args = .ok a ↔ ∃ r, Reading.addAll ⟨[], [], false⟩ args = .ok r ∧
      r.conflicts = false ∧ r.sources ≠ [] ∧
      ⟨r.mode?, r.flags.contains .debug, r.flags.contains .print, r.sources.reverse⟩ = a := by
  unfold Arguments.read
  cases Reading.addAll ⟨[], [], false⟩ args with
  | error e => simp [bind, Except.bind]
  | ok r =>
    simp only [bind, Except.bind, Except.ok.injEq, exists_eq_left']
    cases r.conflicts <;> cases r.sources <;> cases r.flags <;>
      simp [throw, throwThe, MonadExceptOf.throw, pure, Except.pure]

/-- Accepted arguments ask of each source what they ask of all. -/
theorem Arguments.read_alone {args : List String} {a : Arguments}
    (h : Arguments.read args = .ok a) {x : String} (hx : x ∈ a.sources) :
    Arguments.read (aloneArguments args x) = .ok { a with sources := [x] } := by
  obtain ⟨r, hr, hconflicts, -, rfl⟩ := read_eq_ok_iff.1 h
  obtain ⟨hnamed, halone⟩ := Reading.addAll_eq_ok hr
  have hne : x ≠ "" := by
    rintro rfl
    exact hnamed (by simp [Reading.Named]) (by simpa using hx)
  exact read_eq_ok_iff.2 ⟨⟨r.flags, [x], false⟩, halone x hne, hconflicts, by simp, rfl⟩

/-! ## Runs -/

/-- A run does what other runs do, one after another. -/
structure Outcome.Joins (o : Outcome) (os : List Outcome) : Prop where
  /-- It fails if and only if one of them fails. -/
  code : o.code ≠ 0 ↔ ∃ o' ∈ os, o'.code ≠ 0
  /-- It writes what they write, in order. -/
  output : o.output = os.flatMap Outcome.output
  /-- It says what they say is wrong, in order. -/
  complaints : o.complaints = os.flatMap Outcome.complaints

section

variable (read : String → Except ReadError (List UInt8))

/-- A run does what it does for each of its sources alone.  The count of failures at its end is a
log entry. -/
theorem runChecks_agree (args : Arguments) :
    ((runChecks args read).code ≠ 0 ↔
        ∃ x ∈ args.sources, (Progress.alone args read x).failed ≠ 0) ∧
      Notice.Agree (runChecks args read).notices
        (args.sources.flatMap fun x => (Progress.alone args read x).notices) := by
  obtain ⟨hfailed, hnotices⟩ := Progress.foldl_add args read args.sources ⟨0, 0, []⟩
  simp only [ne_eq, not_true_eq_false, false_or] at hfailed
  rw [← hfailed]
  simp only [runChecks]
  split
  · rename_i hzero
    exact ⟨by simp [hzero], hnotices⟩
  · rename_i hpos
    have hcount := agree_nil_of_entry args.debug "" ""
      (e := .sourcesFailed (args.sources.foldl (Progress.add args read) ⟨0, 0, []⟩).failed
        args.sources.length) rfl
    exact ⟨by simp [hpos], by simpa using hnotices.append hcount⟩

/-- A run on several sources does what the runs on each of them do, whatever the flags are. -/
theorem runChecks_joins (a : Arguments) :
    (runChecks a read).Joins
      (a.sources.map fun x => runChecks { a with sources := [x] } read) := by
  obtain ⟨hcode, hnotices⟩ := runChecks_agree read a
  have halone (x : String) :
      ((runChecks { a with sources := [x] } read).code ≠ 0 ↔
          (Progress.alone a read x).failed ≠ 0) ∧
        Notice.Agree (runChecks { a with sources := [x] } read).notices
          (Progress.alone a read x).notices := by
    -- The other sources are not looked at.
    have hsame : Progress.alone { a with sources := [x] } read x = Progress.alone a read x := rfl
    simpa [hsame] using runChecks_agree read { a with sources := [x] }
  refine ⟨?_, ?_, ?_⟩
  · simp only [hcode, List.mem_map, exists_exists_and_eq_and]
    exact exists_congr fun x => and_congr_right fun _ => (halone x).1.symm
  · calc (runChecks a read).output
        = ((a.sources.flatMap fun x => (Progress.alone a read x).notices).flatMap
            Notice.lines).filterMap Line.output? := hnotices.output
      _ = a.sources.flatMap fun x =>
            ((Progress.alone a read x).notices.flatMap Notice.lines).filterMap Line.output? := by
          rw [List.flatMap_assoc, List.filterMap_flatMap]
      _ = a.sources.flatMap fun x => (runChecks { a with sources := [x] } read).output :=
          List.flatMap_congr fun x _ => (halone x).2.output.symm
      _ = _ := (List.flatMap_map ..).symm
  · calc (runChecks a read).complaints
        = (a.sources.flatMap fun x => (Progress.alone a read x).notices).flatMap
            Notice.complaints := hnotices.complaints
      _ = a.sources.flatMap fun x =>
            (Progress.alone a read x).notices.flatMap Notice.complaints := List.flatMap_assoc
      _ = a.sources.flatMap fun x => (runChecks { a with sources := [x] } read).complaints :=
          List.flatMap_congr fun x _ => (halone x).2.complaints.symm
      _ = _ := (List.flatMap_map ..).symm

/-- A run with accepted arguments checks the sources that they name. -/
theorem run_of_read {args : List String} {a : Arguments} (h : Arguments.read args = .ok a) :
    run args read = runChecks a read := by
  simp only [run, h]

/-- Sources are checked independently.  Whatever the flags are, a run does what the runs on its
sources alone do.  Accepted arguments can be given with each of their sources alone, so this is also
what the command does: the run on all sources fails if and only if one of the runs alone does, and
what it writes and what it says is wrong are what the runs alone write and say, in order.  A check
gives the same for every number of a source, up to the number in spans. -/
theorem sources_independent {args : List String} {a : Arguments}
    (h : Arguments.read args = .ok a) :
    (∀ b : Arguments, (runChecks b read).Joins
        (b.sources.map fun x => runChecks { b with sources := [x] } read)) ∧
      (∀ x ∈ a.sources, Arguments.read (aloneArguments args x) = .ok { a with sources := [x] }) ∧
      ((run args read).code ≠ 0 ↔ ∃ x ∈ a.sources, (run (aloneArguments args x) read).code ≠ 0) ∧
      (run args read).output =
        a.sources.flatMap (fun x => (run (aloneArguments args x) read).output) ∧
      (run args read).complaints =
        a.sources.flatMap (fun x => (run (aloneArguments args x) read).complaints) ∧
      ∀ mode file source, checkSource mode file source =
        (checkSource mode 0 source).map (Checked.renumber (file + ·)) := by
  have hrun := runChecks_joins read a
  have halone : ∀ x ∈ a.sources,
      run (aloneArguments args x) read = runChecks { a with sources := [x] } read :=
    fun x hx => run_of_read read (Arguments.read_alone h hx)
  rw [← run_of_read read h] at hrun
  refine ⟨runChecks_joins read, fun x hx => Arguments.read_alone h hx, ?_, ?_, ?_,
    checkSource_eq_map⟩
  · simp only [hrun.code, List.mem_map, exists_exists_and_eq_and]
    exact exists_congr fun x => and_congr_right fun hx => by rw [halone x hx]
  · rw [hrun.output, List.flatMap_map]
    exact List.flatMap_congr fun x hx => by rw [halone x hx]
  · rw [hrun.complaints, List.flatMap_map]
    exact List.flatMap_congr fun x hx => by rw [halone x hx]

end

/-- Reads a source without a fault, one without a bound and nothing else. -/
def sampleRead (name : String) : Except ReadError (List UInt8) :=
  -- The texts are `let x = ()` and `let x =`.
  if name = "good" then .ok [108, 101, 116, 32, 120, 32, 61, 32, 40, 41]
  else if name = "bad" then .ok [108, 101, 116, 32, 120, 32, 61]
  else .error .notFound

/-- Of three sources one is good, one cannot be read and one lacks a definition, and each is dealt
with by itself. -/
theorem sources_independent_sample :
    Arguments.read ["good", "--print", "none", "bad"] =
        .ok ⟨none, false, true, ["good", "none", "bad"]⟩ ∧
      (run ["good", "--print", "none", "bad"] sampleRead).code ≠ 0 ∧
      (run ["good", "--print", "none", "bad"] sampleRead).output =
        ["==> good", "(let x (unit))"] ∧
      (run ["good", "--print", "none", "bad"] sampleRead).complaints =
        [.unreadable "none" .notFound,
         .message "bad" (.ofDiagnostic ⟨⟨7, 7, 0⟩, .expectedExpression⟩)] := by
  have hargs : Arguments.read ["good", "--print", "none", "bad"] =
      .ok ⟨none, false, true, ["good", "none", "bad"]⟩ := by decide +kernel
  obtain ⟨-, -, hcode, houtput, hcomplaints, -⟩ := sources_independent sampleRead hargs
  refine ⟨hargs, hcode.2 ⟨"bad", by simp, by decide +kernel⟩, ?_, ?_⟩
  · rw [houtput]
    decide +kernel
  · rw [hcomplaints]
    decide +kernel

end Command

end LetPoly
