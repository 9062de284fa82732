import LetPoly.Proofs.Drawn
import LetPoly.Proofs.Generalization

/-!
# Runs over drawn variables

A run of inference that starts with drawn variables goes through moments at which the substitution,
the environment in use and the slots of the tree are made of drawn variables, and so is what it ends
with.  Each rule has a lemma of its own, which assumes this of the walks of the parts.
-/

namespace LetPoly

variable {α β τ υ : Type} {n : Supply}

/-! ## Sessions -/

/-- A session that is not before another one, and in which all is drawn that is solved. -/
structure Session.Advances (s s' : Session) : Prop where
  /-- Drawn variables stay drawn. -/
  le : s.drawn ≤ s'.drawn
  /-- Solved variables and their types are made of drawn variables. -/
  subst : Drawn s'.drawn s'.subst

/-- A session and an environment that are made of drawn variables. -/
structure Session.Ready (s : Session) (Γ : Env) : Prop where
  /-- Solved variables and their types are made of drawn variables. -/
  subst : Drawn s.drawn s.subst
  /-- The schemes in scope are made of drawn variables. -/
  env : Drawn s.drawn Γ

namespace Session

variable {s s' s'' : Session} {Γ : Env} {σ : Scheme}

theorem Advances.trans (h : s.Advances s') (h' : s'.Advances s'') : s.Advances s'' :=
  ⟨Nat.le_trans h.le h'.le, h'.subst⟩

theorem Ready.later (h : s.Ready Γ) (h' : s.Advances s') : s'.Ready Γ :=
  ⟨h'.subst, h.env.mono h'.le⟩

theorem Ready.refl (h : s.Ready Γ) : s.Advances s := ⟨Nat.le_refl _, h.subst⟩

theorem advances_log (hs : Drawn s.drawn s.subst) (e : Event) :
    s.Advances { s with log := e :: s.log } :=
  ⟨Nat.le_refl _, hs⟩

theorem Ready.log (h : s.Ready Γ) (e : Event) : Ready { s with log := e :: s.log } Γ :=
  ⟨h.subst, h.env⟩

/-- An environment can be extended by a drawn scheme. -/
theorem Ready.extend (h : s.Ready Γ) (x : String) (hσ : Drawn s.drawn σ) :
    s.Ready (Γ.extend x σ) := by
  refine ⟨h.subst, fun y τ hy => ?_⟩
  obtain ⟨-, rfl⟩ | ⟨-, hy⟩ := Env.lookup?_extend_eq_some.1 hy
  · exact hσ
  · exact h.env y τ hy

/-- The sessions in which variables are drawn are later ones. -/
theorem advances_of_mem_drawing (hs : Drawn s.drawn s.subst) (n : Supply) (h : s' ∈ s.drawing n) :
    s.Advances s' := by
  obtain ⟨k, hk, rfl⟩ := List.mem_map.1 h
  have hle : s.drawn ≤ k := (List.mem_range'_1.1 hk).1
  exact ⟨hle, hs.mono hle⟩

/-- Drawing variables is a way on which one variable is drawn at each step. -/
theorem path_drawing (s : Session) {n : Supply} (h : s.drawn ≤ n) :
    Reached.Path s.reached ((s.drawing n).map (·.reached)) (n, s.subst) := by
  obtain ⟨k, hk⟩ := Nat.exists_eq_add_of_le h
  rw [drawing, hk, Nat.add_sub_cancel_left, List.map_map]
  exact Reached.path_draw s.drawn k s.subst

end Session

/-- Unification solves one variable after the other. -/
theorem Unify.Trail.path {pairs : List (Ty × Ty)} {x x' : Extension} {xs : List Extension}
    (h : Trail pairs x xs x') (n : Supply) :
    Reached.Path (n, x.subst) (xs.map fun y => (n, y.subst)) (n, x'.subst) := by
  induction h with
  | stop => exact .nil
  | step _ _ hb _ ih => exact .cons (.solve (bind_subst hb)) ih

theorem Drawn.later [Drawable α] {a : α} {s s' : Session} (h : Drawn s.drawn a)
    (hs : s.Advances s') : Drawn s'.drawn a :=
  h.mono hs.le

/-- A type that is generalized is made of drawn variables, and quantifies over none twice. -/
theorem Env.drawn_generalize {s : Subst} (hs : Drawn n s) (Γ : Env) {t : Ty} (ht : Drawn n t) :
    Drawn n (Γ.generalize s t) :=
  ⟨(Ty.nodup_vars _).filter _,
    fun v hv => Subst.drawn_apply hs ht v (Env.mem_vars_generalize.1 hv).1,
    Subst.drawn_apply hs ht⟩

/-- An instance of a scheme is made of drawn variables, once there is one for each quantified
variable. -/
theorem Scheme.drawn_freshening {σ : Scheme} (hσ : Drawn n σ) :
    Drawn (n + σ.vars.length) (σ.ty.replace (σ.freshening n)) := by
  refine Ty.drawn_replace fun v hv => ?_
  rw [freshening]
  split
  · rename_i hmem
    exact drawn_var.2 (Nat.add_lt_add_left (List.idxOf_lt_length_of_mem hmem) _)
  · exact drawn_var.2 (Nat.lt_of_lt_of_le (hσ.2.2 v hv) (Nat.le_add_right _ _))

/-! ## Acts -/

/-- An act goes through sessions that are later than the one it begins with, and its value is made
of drawn variables. -/
structure ObservedAct.Keeps [Drawable α] (a : ObservedAct α) (s : Session) : Prop where
  /-- The sessions on the way. -/
  sessions : ∀ s' ∈ (a s).1, s.Advances s'
  /-- The session at the end. -/
  later : s.Advances (a s).2.2
  /-- No session is left out. -/
  path : Reached.Path s.reached ((a s).1.map (·.reached)) (a s).2.2.reached
  /-- The value. -/
  value : ∀ x, (a s).2.1 = .ok x → Drawn (a s).2.2.drawn x

namespace ObservedAct

variable [Drawable α] [Drawable β] {s : Session}

theorem keeps_pure (hs : Drawn s.drawn s.subst) {x : α} (hx : Drawn s.drawn x) :
    (pure x).Keeps s where
  sessions := List.forall_mem_nil _
  later := ⟨Nat.le_refl _, hs⟩
  path := .nil
  value _ hy := Except.ok.inj hy ▸ hx

/-- Acts in sequence keep to drawn variables if each of them does from where the one before ends. -/
theorem Keeps.bind {a : ObservedAct α} {f : α → ObservedAct β} (h : a.Keeps s)
    (hf : ∀ x s', s.Advances s' → Drawn s'.drawn x → (f x).Keeps s') : (a.bind f).Keeps s := by
  obtain ⟨hsessions, hlater, hpath, hvalue⟩ := h
  rcases ha : a s with ⟨ss, e | x, s'⟩
  · rw [ha] at hsessions hlater hpath
    have hrun : a.bind f s = (ss, .error e, s') := by rw [ObservedAct.bind, ha]
    exact ⟨hrun ▸ hsessions, hrun ▸ hlater, hrun ▸ hpath, fun y hy => by rw [hrun] at hy; cases hy⟩
  · rw [ha] at hsessions hlater hpath hvalue
    obtain ⟨hsessions', hlater', hpath', hvalue'⟩ := hf x s' hlater (hvalue x rfl)
    have hrun : a.bind f s = (ss ++ (f x s').1, (f x s').2) := by rw [ObservedAct.bind, ha]
    refine ⟨?_, ?_, ?_, ?_⟩ <;> rw [hrun]
    · exact List.forall_mem_append.2 ⟨hsessions, fun r hr => hlater.trans (hsessions' r hr)⟩
    · exact hlater.trans hlater'
    · rw [List.map_append]
      exact hpath.append hpath'
    · exact hvalue'

/-- To draw is to go through the sessions of the variables in between. -/
theorem keeps_draw (hs : Drawn s.drawn s.subst) {f : StateM Supply α}
    (hle : s.drawn ≤ (f s.drawn).2) (hvalue : Drawn (f s.drawn).2 (f s.drawn).1) :
    (draw f).Keeps s where
  sessions _ h := Session.advances_of_mem_drawing hs _ h
  later := ⟨hle, hs.mono hle⟩
  path := s.path_drawing hle
  value _ hx := Except.ok.inj hx ▸ hvalue

/-- The variables of a written type are drawn when it is lowered. -/
theorem keeps_lower (hs : Drawn s.drawn s.subst) (a : TypeExpr) : (draw a.lower).Keeps s := by
  have hlowers := a.lower_lowers s.drawn
  exact keeps_draw hs hlowers.le fun v hv => (hlowers.drawn v hv).2

theorem keeps_fresh (hs : Drawn s.drawn s.subst) : fresh.Keeps s :=
  keeps_draw hs (Nat.le_succ _) (drawn_var.2 (Nat.lt_succ_self _))

/-- Unification solves drawn variables by types made of them. -/
theorem keeps_unify (hs : Drawn s.drawn s.subst) (because : Because) (span : Span) {t u : Ty}
    (ht : Drawn s.drawn t) (hu : Drawn s.drawn u) : (unify because span t u).Keeps s := by
  have hpairs : Drawn s.drawn [(t, u)] := drawn_cons.2 ⟨⟨ht, hu⟩, drawn_nil⟩
  have htrail := Unify.trail_solve
    ((s.subst.apply t).occurrences.length + (s.subst.apply u).occurrences.length)
    [(t, u)] (.start s.subst)
  obtain ⟨hstages, hsolve⟩ := htrail.drawn hs hpairs
  refine ⟨fun r hr => ?_, ⟨Nat.le_refl _, hsolve⟩, ?_, fun _ _ => trivial⟩
  · obtain ⟨x, hx, rfl⟩ := List.mem_map.1 hr
    exact ⟨Nat.le_refl _, hstages x hx⟩
  · rw [unify, List.map_map]
    exact htrail.path s.drawn

end ObservedAct

/-! ## Walks -/

/-- A moment later than a session, at which all is made of drawn variables.  A scheme that is
instantiated then is in scope. -/
structure Moment.After [Drawable τ] (m : Moment τ) (s : Session) : Prop where
  /-- The session. -/
  later : s.Advances m.session
  /-- The environment in use. -/
  env : Drawn m.session.drawn m.env
  /-- The slots of the tree. -/
  tree : Drawn m.session.drawn m.tree
  /-- The scheme that is instantiated. -/
  scheme : ∀ σ, m.instantiates? = some σ → ∃ x, m.env.lookup? x = some σ

/-- A walk goes through moments that are later than the session it begins with, and leaves behind
what is made of drawn variables. -/
structure ObservedWalk.Keeps [Drawable τ] [Drawable α] (w : ObservedWalk τ α) (s : Session) :
    Prop where
  /-- The moments on the way. -/
  moments : ∀ m ∈ (w s).1, m.After s
  /-- The session at the end. -/
  later : s.Advances (w s).2.2
  /-- No session is left out. -/
  path : Reached.Path s.reached ((w s).1.map (·.session.reached)) (w s).2.2.reached
  /-- The slots of the tree at the end. -/
  tree : Drawn (w s).2.2.drawn (w s).2.1.1
  /-- The value. -/
  value : ∀ a, (w s).2.1.2 = .ok a → Drawn (w s).2.2.drawn a

section

variable [Drawable τ] [Drawable υ] [Drawable α] [Drawable β] {s s' : Session} {Γ : Env}

theorem Moment.After.trans {m : Moment τ} (h : s.Advances s') (hm : m.After s') : m.After s :=
  { hm with later := h.trans hm.later }

theorem Moment.After.within {m : Moment τ} {f : τ → υ} (hm : m.After s)
    (hf : ∀ n t, s.drawn ≤ n → Drawn n t → Drawn n (f t)) : (m.within f).After s :=
  ⟨hm.later, hm.env, hf _ _ hm.later.le hm.tree, hm.scheme⟩

theorem Moment.after_plain (hs : s.Ready Γ) {t : τ} (ht : Drawn s.drawn t) (h : s.Advances s') :
    (Moment.plain Γ t s').After s :=
  ⟨h, hs.env.mono h.le, ht.mono h.le, fun _ hσ => nomatch hσ⟩

namespace ObservedWalk.Keeps

theorem done (hs : Drawn s.drawn s.subst) {t : τ} {a : α} (ht : Drawn s.drawn t)
    (ha : Drawn s.drawn a) : (ObservedWalk.done t a).Keeps s :=
  ⟨List.forall_mem_nil _, ⟨Nat.le_refl _, hs⟩, .nil, ht, fun _ h => Except.ok.inj h ▸ ha⟩

/-- A walk may begin with the moment of its first session. -/
theorem since {w : ObservedWalk τ α} (hs : s.Ready Γ) {t : τ} (ht : Drawn s.drawn t)
    (h : w.Keeps s) : (ObservedWalk.since Γ t w).Keeps s :=
  { h with
    moments := List.forall_mem_cons.2 ⟨Moment.after_plain hs ht hs.refl, h.moments⟩
    path := .cons .idle h.path }

/-- A walk that goes on as another one after some moments. -/
theorem continued {w next : ObservedWalk τ α} {ms : List (Moment τ)}
    (hrun : w s = (ms ++ (next s').1, (next s').2)) (hms : ∀ m ∈ ms, m.After s) (hs : s.Advances s')
    (hpath : Reached.Path s.reached (ms.map (·.session.reached)) s'.reached)
    (h : next.Keeps s') : w.Keeps s := by
  refine ⟨?_, ?_, ?_, ?_, ?_⟩ <;> rw [hrun]
  · exact List.forall_mem_append.2 ⟨hms, fun m hm => (h.moments m hm).trans hs⟩
  · exact hs.trans h.later
  · rw [List.map_append]
    exact hpath.append h.path
  · exact h.tree
  · exact h.value

/-- A walk that stops after some moments. -/
theorem stopped {w : ObservedWalk τ α} {ms : List (Moment τ)} {t : τ} {e : Fault TypeError}
    (hrun : w s = (ms, (t, .error e), s')) (hms : ∀ m ∈ ms, m.After s) (hs : s.Advances s')
    (hpath : Reached.Path s.reached (ms.map (·.session.reached)) s'.reached)
    (ht : Drawn s'.drawn t) : w.Keeps s := by
  refine ⟨?_, ?_, ?_, ?_, ?_⟩ <;> rw [hrun]
  · exact hms
  · exact hs
  · exact hpath
  · exact ht
  · exact fun _ h => nomatch h

/-- A walk and the next one keep to drawn variables, also inside a larger tree. -/
theorem andThen {w : ObservedWalk τ α} {whole : τ → υ} {next : τ → α → ObservedWalk υ β}
    (h : w.Keeps s) (hwhole : ∀ n t, s.drawn ≤ n → Drawn n t → Drawn n (whole t))
    (hnext : ∀ t a s', s.Advances s' → Drawn s'.drawn t → Drawn s'.drawn a → (next t a).Keeps s') :
    (w.andThen whole next).Keeps s := by
  obtain ⟨hmoments, hlater, hpath, htree, hvalue⟩ := h
  have hms : ∀ m ∈ (w s).1.map (·.within whole), m.After s := by
    intro m hm
    obtain ⟨m', hm', rfl⟩ := List.mem_map.1 hm
    exact (hmoments m' hm').within hwhole
  -- Seen from the whole, the moments of a part have other trees, but the same sessions.
  have hpath' : Reached.Path s.reached
      (((w s).1.map (·.within whole)).map (·.session.reached)) (w s).2.2.reached := by
    rw [List.map_map]
    exact hpath
  rcases hw : w s with ⟨ms, ⟨t, e | a⟩, s'⟩
  · rw [hw] at hms hlater hpath' htree
    exact stopped (by rw [ObservedWalk.andThen, hw]) hms hlater hpath' (hwhole _ _ hlater.le htree)
  · rw [hw] at hms hlater hpath' htree hvalue
    exact continued (by rw [ObservedWalk.andThen, hw]) hms hlater hpath'
      (hnext t a s' hlater htree (hvalue a rfl))

/-- An act keeps to drawn variables while the tree stays as it is. -/
theorem act {a : ObservedAct α} {whole : υ} {next : α → ObservedWalk υ β} (hs : s.Ready Γ)
    (hwhole : Drawn s.drawn whole) (h : a.Keeps s)
    (hnext : ∀ x s', s.Advances s' → Drawn s'.drawn x → (next x).Keeps s') :
    (ObservedWalk.act Γ a whole next).Keeps s := by
  obtain ⟨hsessions, hlater, hpath, hvalue⟩ := h
  have hms : ∀ m ∈ (a s).1.map (Moment.plain Γ whole), m.After s := by
    intro m hm
    obtain ⟨s', hs', rfl⟩ := List.mem_map.1 hm
    exact Moment.after_plain hs hwhole (hsessions s' hs')
  have hpath' : Reached.Path s.reached
      (((a s).1.map (Moment.plain Γ whole)).map (·.session.reached)) (a s).2.2.reached := by
    rw [List.map_map]
    exact hpath
  rcases ha : a s with ⟨ss, e | x, s'⟩
  · rw [ha] at hms hlater hpath'
    exact stopped (by rw [ObservedWalk.act, ha]) hms hlater hpath' (hwhole.mono hlater.le)
  · rw [ha] at hms hlater hpath' hvalue
    exact continued (by rw [ObservedWalk.act, ha]) hms hlater hpath'
      (hnext x s' hlater (hvalue x rfl))

/-- A scheme in scope is instantiated by variables that are drawn then. -/
theorem instantiate {x : String} {σ : Scheme} {whole : υ} {next : Ty → ObservedWalk υ β}
    (hs : s.Ready Γ) (hx : Γ.lookup? x = some σ) (hwhole : Drawn s.drawn whole)
    (hnext : ∀ t s', s.Advances s' → Drawn s'.drawn t → (next t).Keeps s') :
    (ObservedWalk.instantiate Γ σ whole next).Keeps s := by
  obtain ⟨hnodup, hvars, -⟩ := hs.env x σ hx
  let s' : Session := { s with drawn := s.drawn + σ.vars.length }
  have hrun : Act.instantiate σ s = (.ok (σ.ty.replace (σ.freshening s.drawn)), s') := by
    rw [Act.instantiate, Scheme.instantiate_eq hnodup hvars]
    rfl
  have hle : s.drawn ≤ s'.drawn := Nat.le_add_right _ _
  have hlater : s.Advances s' := ⟨hle, hs.subst.mono hle⟩
  have hcount : (σ.instantiate s.drawn).2 = s'.drawn := by
    rw [Scheme.instantiate_eq hnodup hvars]
  refine continued (by rw [ObservedWalk.instantiate, hrun, hcount]) ?_ hlater ?_
    (hnext _ s' hlater (Scheme.drawn_freshening (hs.env x σ hx)))
  · refine List.forall_mem_cons.2 ⟨⟨hs.refl, hs.env, hwhole, fun τ hτ => ?_⟩, fun m hm => ?_⟩
    · cases hτ
      exact ⟨x, hx⟩
    · obtain ⟨r, hr, rfl⟩ := List.mem_map.1 hm
      exact Moment.after_plain hs hwhole (Session.advances_of_mem_drawing hs.subst _ hr)
  · rw [List.map_cons, List.map_map]
    exact .cons .idle (s.path_drawing hle)

/-- Logging an event draws and solves nothing. -/
theorem log {e : Event} {next : ObservedWalk τ α} (hs : Drawn s.drawn s.subst)
    (h : next.Keeps { s with log := e :: s.log }) :
    (ObservedWalk.log e next).Keeps s where
  moments m hm := (h.moments m hm).trans (Session.advances_log hs e)
  later := ⟨h.later.le, h.later.subst⟩
  path := h.path
  tree := h.tree
  value := h.value

/-- A binder is filled with a scheme of drawn variables. -/
theorem fillBinder {b : Binder} {σ : Scheme} {whole : Binder → υ}
    {next : Binder → ObservedWalk υ β} (hs : s.Ready Γ) (hb : Drawn s.drawn b)
    (hσ : Drawn s.drawn σ) (hwhole : ∀ b, Drawn s.drawn b → Drawn s.drawn (whole b))
    (hnext : ∀ b, Drawn s.drawn b → (next b).Keeps s) :
    (ObservedWalk.fillBinder Γ b σ whole next).Keeps s := by
  have hfilled : Drawn s.drawn { b with scheme := .filled σ } := drawn_filled.2 hσ
  unfold ObservedWalk.fillBinder
  dsimp only
  split
  · exact since hs (hwhole b hb) (hnext _ hfilled)
  · exact since hs (hwhole b hb)
      (stopped rfl (List.forall_mem_nil _) hs.refl .nil (hwhole _ hfilled))

/-- A node is filled with a type of drawn variables. -/
theorem annotate {expr : Mark → Expr} {m : Mark} {t : Ty} (hs : s.Ready Γ) (hm : Drawn s.drawn m)
    (ht : Drawn s.drawn t) (hexpr : ∀ m, Drawn s.drawn m → Drawn s.drawn (expr m)) :
    (ObservedWalk.annotate Γ expr m t).Keeps s := by
  have hfilled : Drawn s.drawn { m with ty := .filled (s.subst.apply t) } :=
    drawn_filled.2 (Subst.drawn_apply hs.subst ht)
  refine since hs (hexpr m hm)
    ⟨List.forall_mem_nil _, hs.refl, .nil, hexpr _ hfilled, fun u hu => ?_⟩
  have hvalue : ∀ r : Except Defect Unit,
      (r.mapError .defect).map (fun _ => t) = (.ok u : Except (Fault TypeError) Ty) → t = u := by
    intro r hr
    cases r with
    | error => cases hr
    | ok => exact Except.ok.inj hr
  exact hvalue _ hu ▸ ht

theorem reading {w : Session → ObservedWalk τ α} (h : (w s).Keeps s) :
    (ObservedWalk.reading w).Keeps s :=
  ⟨h.moments, h.later, h.path, h.tree, h.value⟩

end ObservedWalk.Keeps

end

/-! ## Rules -/

/-- The walk of an expression keeps to drawn variables whatever environment and goal it is given. -/
def ObservedExprWalk.Keeps (w : ObservedExprWalk) (e : Expr) : Prop :=
  ∀ {Γ goal s}, s.Ready Γ → Drawn s.drawn goal → Drawn s.drawn e → (w Γ goal).Keeps s

/-- The same for the elements of a tuple. -/
def Observe.ElemsWalk.Keeps (w : Observe.ElemsWalk) (es : List Expr) : Prop :=
  ∀ {Γ goals s}, s.Ready Γ → Drawn s.drawn goals → Drawn s.drawn es → (w Γ goals).Keeps s

namespace Observe

open LetPoly.Expr

variable {mode : Mode} {Γ : Env} {s : Session} {goal : Goal} {m : Mark} {p b : Binder}
  {c d e f : Expr}

/-- A goal is settled by a unification of drawn types. -/
theorem keeps_settle {span : Span} {w : ObservedWalk Expr Ty} (hs : s.Ready Γ)
    (hgoal : Drawn s.drawn goal) (h : w.Keeps s) : (settle goal Γ span w).Keeps s := by
  cases goal with
  | none => exact h
  | some d =>
    refine h.andThen (fun _ _ _ ht => ht) fun e t s₁ hs₁ he ht => ?_
    have hd : Drawn s₁.drawn d.expected := (drawn_some.1 hgoal).later hs₁
    exact .act (hs.later hs₁) he (ObservedAct.keeps_unify hs₁.subst _ _ hd ht)
      fun _ s₂ hs₂ _ => .done hs₂.subst (he.later hs₂) (ht.later hs₂)

/-- The scheme of a name is instantiated in the environment in which it was found. -/
theorem keeps_name {x : String} (hs : s.Ready Γ) (hm : Drawn s.drawn m) :
    (name m x Γ).Keeps s := by
  unfold name
  cases hx : Γ.lookup? x with
  | none => exact .stopped rfl (List.forall_mem_nil _) hs.refl .nil (drawn_name.2 hm)
  | some σ =>
    exact .instantiate hs hx (drawn_name.2 hm) fun t s₁ hs₁ ht =>
      .annotate (hs.later hs₁) (hm.later hs₁) ht fun _ h => drawn_name.2 h

/-- The type of a parameter is lowered or fresh, so it is drawn. -/
theorem keeps_paramTy (hs : Drawn s.drawn s.subst) (p : Binder) : (paramTy p).Keeps s := by
  unfold paramTy
  cases p.anno with
  | none => exact ObservedAct.keeps_fresh hs
  | some a => exact ObservedAct.keeps_lower hs a

theorem keeps_paramTyAgainst (hs : Drawn s.drawn s.subst) (p : Binder) {t : Ty}
    (ht : Drawn s.drawn t) : (paramTyAgainst p t).Keeps s := by
  unfold paramTyAgainst
  cases p.anno with
  | none => exact ObservedAct.keeps_pure hs ht
  | some a =>
    refine (ObservedAct.keeps_lower hs a).bind fun u s₁ hs₁ hu => ?_
    exact (ObservedAct.keeps_unify hs₁.subst _ _ hu (ht.later hs₁)).bind fun _ s₂ hs₂ _ =>
      ObservedAct.keeps_pure hs₂.subst (hu.later hs₂)

theorem keeps_annotated (hs : Drawn s.drawn s.subst) (a : TypeExpr) : (annotated a).Keeps s :=
  (ObservedAct.keeps_lower hs a).bind fun _ _ hs₁ ht => ObservedAct.keeps_pure hs₁.subst ht

/-- The goal for a definition is drawn, since its annotation is lowered. -/
theorem keeps_boundGoal (hs : Drawn s.drawn s.subst) (b : Binder) : (boundGoal b).Keeps s := by
  unfold boundGoal
  cases b.anno with
  | none => exact ObservedAct.keeps_pure hs drawn_none
  | some a =>
    exact (keeps_annotated hs a).bind fun _ _ hs₁ hd =>
      ObservedAct.keeps_pure hs₁.subst (drawn_some.2 hd)

/-- The type of a definition is generalized to a scheme of drawn variables. -/
theorem keeps_bind {bound : ObservedExprWalk} (h : bound.Keeps e) (hs : s.Ready Γ)
    (hb : Drawn s.drawn b) (he : Drawn s.drawn e) : (bind b e bound Γ).Keeps s := by
  refine .act hs ⟨hb, he⟩ (keeps_boundGoal hs.subst b) fun goal s₁ hs₁ hgoal => ?_
  have hb₁ := hb.later hs₁
  refine (h (hs.later hs₁) hgoal (he.later hs₁)).andThen (fun _ _ hn he => ⟨hb₁.mono hn, he⟩)
    fun e t s₂ hs₂ he ht => .reading ?_
  -- What is generalized is the annotation if there is one, and what was found otherwise.
  have hclose : ∀ u, Drawn s₂.drawn u →
      (ObservedWalk.log (.generalized b.name (Γ.generalize s₂.subst u)) <|
        .fillBinder Γ b (Γ.generalize s₂.subst u) (·, e) fun b =>
        .done (b, e) (Γ.generalize s₂.subst u)).Keeps s₂ := by
    intro u hu
    have hb₂ := hb₁.later hs₂
    have hσ := Env.drawn_generalize hs₂.subst Γ hu
    have hr₂ := (hs.later (hs₁.trans hs₂)).log (.generalized b.name (Γ.generalize s₂.subst u))
    exact .log hs₂.subst (.fillBinder hr₂ hb₂ hσ (fun _ hb => drawn_pair.2 ⟨hb, he⟩)
      fun _ hb => .done hr₂.subst (drawn_pair.2 ⟨hb, he⟩) hσ)
  cases goal with
  | none => exact hclose t ht
  | some d => exact hclose d.expected ((drawn_some.1 hgoal).later hs₂)

/-- Walking the body of a function, after the type of the parameter is known. -/
theorem keeps_underParam {body : ObservedExprWalk} (h : body.Keeps e) (hs : s.Ready Γ)
    (hm : Drawn s.drawn m) (hp : Drawn s.drawn p) (he : Drawn s.drawn e)
    (hgoal : Drawn s.drawn goal) {t : Ty} (ht : Drawn s.drawn t) {whole : Ty → Ty}
    (hwhole : ∀ n u, s.drawn ≤ n → Drawn n u → Drawn n (whole u)) :
    (ObservedWalk.fillBinder Γ p (.mono t) (.lam m · e) fun p =>
      (body (Γ.extend p.name (.mono t)) goal).andThen (.lam m p) fun e u =>
      .annotate Γ (.lam · p e) m (whole u)).Keeps s := by
  have hσ : Drawn s.drawn (Scheme.mono t) := drawn_mono.2 ht
  refine .fillBinder hs hp hσ (fun p hp => drawn_lam.2 ⟨hm, hp, he⟩) fun p hp => ?_
  refine (h (hs.extend p.name hσ) hgoal he).andThen
    (fun _ _ hn he => drawn_lam.2 ⟨hm.mono hn, hp.mono hn, he⟩) fun e u s₁ hs₁ he hu => ?_
  exact .annotate (hs.later hs₁) (hm.later hs₁) (hwhole _ u hs₁.le hu)
    fun _ hm => drawn_lam.2 ⟨hm, hp.later hs₁, he⟩

/-- A function keeps to drawn variables if its body does. -/
theorem keeps_lam {body : ObservedExprWalk} (h : body.Keeps e) (hs : s.Ready Γ)
    (he : Drawn s.drawn (Expr.lam m p e)) : (lam m p e body Γ).Keeps s := by
  obtain ⟨hm, hp, hbody⟩ := drawn_lam.1 he
  exact .act hs he (keeps_paramTy hs.subst p) fun t s₁ hs₁ ht =>
    keeps_underParam h (hs.later hs₁) (hm.later hs₁) (hp.later hs₁) (hbody.later hs₁) drawn_none ht
      fun _ u hn hu => drawn_fn.2 ⟨ht.mono hn, hu⟩

theorem keeps_lamAgainst {body : ObservedExprWalk} {d : Demand} {t u : Ty} (h : body.Keeps e)
    (hs : s.Ready Γ) (he : Drawn s.drawn (Expr.lam m p e)) (hd : Drawn s.drawn d)
    (hfn : d.expected = .fn t u) : (lamAgainst m p e body Γ d t u).Keeps s := by
  obtain ⟨hm, hp, hbody⟩ := drawn_lam.1 he
  obtain ⟨ht, hu⟩ : Drawn s.drawn t ∧ Drawn s.drawn u := drawn_fn.1 (hfn ▸ hd)
  exact .act hs he (keeps_paramTyAgainst hs.subst p ht) fun t s₁ hs₁ ht =>
    keeps_underParam h (hs.later hs₁) (hm.later hs₁) (hp.later hs₁) (hbody.later hs₁)
      (drawn_some.2 (hu.later hs₁)) ht fun _ _ hn _ => Drawn.mono (hd.later hs₁) hn

/-- A call keeps to drawn variables if callee and argument do: the demand for the argument is a part
of the type of the callee. -/
theorem keeps_app {callee arg : ObservedExprWalk} (hcallee : callee.Keeps f) (harg : arg.Keeps e)
    (hs : s.Ready Γ) (he : Drawn s.drawn (Expr.app m f e)) :
    (app mode m e callee arg Γ).Keeps s := by
  obtain ⟨hm, hf, he⟩ := drawn_app.1 he
  refine (hcallee hs drawn_none hf).andThen
    (fun _ _ hn hf => drawn_app.2 ⟨hm.mono hn, hf, he.mono hn⟩) fun f t s₁ hs₁ hf ht => .reading ?_
  have hr₁ := hs.later hs₁
  have hm₁ := hm.later hs₁
  have he₁ := he.later hs₁
  cases ht' : Infer.calleeTy? mode t s₁ with
  | some r =>
    have hfn := Infer.calleeTy?_eq_some ht'
    obtain ⟨hparam, hresult⟩ : Drawn s₁.drawn r.1 ∧ Drawn s₁.drawn r.2 :=
      drawn_fn.1 (hfn ▸ Subst.drawn_apply hs₁.subst ht)
    refine (harg hr₁ (drawn_some.2 hparam) he₁).andThen
      (fun _ _ hn he => drawn_app.2 ⟨hm₁.mono hn, hf.mono hn, he⟩) fun e _ s₂ hs₂ he _ => ?_
    exact .annotate (hr₁.later hs₂) (hm₁.later hs₂) (hresult.later hs₂)
      fun _ hm => drawn_app.2 ⟨hm, hf.later hs₂, he⟩
  | none =>
    refine (harg hr₁ drawn_none he₁).andThen
      (fun _ _ hn he => drawn_app.2 ⟨hm₁.mono hn, hf.mono hn, he⟩) fun e u s₂ hs₂ he hu => ?_
    have hr₂ := hr₁.later hs₂
    have hwhole : Drawn s₂.drawn (Expr.app m f e) := drawn_app.2 ⟨hm₁.later hs₂, hf.later hs₂, he⟩
    refine .act hr₂ hwhole (ObservedAct.keeps_fresh hs₂.subst) fun r s₃ hs₃ hr => ?_
    have hfn : Drawn s₃.drawn (Ty.fn u r) := drawn_fn.2 ⟨hu.later hs₃, hr⟩
    refine .act (hr₂.later hs₃) (hwhole.later hs₃) (ObservedAct.keeps_unify hs₃.subst _ _
      (ht.later (hs₂.trans hs₃)) hfn) fun _ s₄ hs₄ _ => ?_
    obtain ⟨hm₄, hf₄, he₄⟩ := drawn_app.1 (hwhole.later (hs₃.trans hs₄))
    exact .annotate (hr₂.later (hs₃.trans hs₄)) hm₄ (hr.later hs₄)
      fun _ hm => drawn_app.2 ⟨hm, hf₄, he₄⟩

/-- Walking a local definition, when its body has a goal. -/
theorem keeps_underBinder {bound body : ObservedExprWalk} (whole : Ty → Ty)
    (hbound : bound.Keeps d) (hbody : body.Keeps e) (hs : s.Ready Γ)
    (he : Drawn s.drawn (Expr.letIn m b d e)) (hgoal : Drawn s.drawn goal)
    (hwhole : ∀ n u, s.drawn ≤ n → Drawn n u → Drawn n (whole u)) :
    ((bind b d bound Γ).andThen (fun q => .letIn m q.1 q.2 e) fun q σ =>
      (body (Γ.extend q.1.name σ) goal).andThen (.letIn m q.1 q.2) fun e t =>
      .annotate Γ (.letIn · q.1 q.2 e) m (whole t)).Keeps s := by
  obtain ⟨hm, hb, hd, he⟩ := drawn_letIn.1 he
  refine (keeps_bind hbound hs hb hd).andThen
    (fun _ _ hn hq => drawn_letIn.2 ⟨hm.mono hn, hq.1, hq.2, he.mono hn⟩) fun q σ s₁ hs₁ hq hσ => ?_
  have hr₁ := hs.later hs₁
  refine (hbody (hr₁.extend _ hσ) (hgoal.later hs₁) (he.later hs₁)).andThen
    (fun _ _ hn he => drawn_letIn.2 ⟨(hm.later hs₁).mono hn, hq.1.mono hn, hq.2.mono hn, he⟩)
    fun e t s₂ hs₂ he ht => ?_
  exact .annotate (hr₁.later hs₂) (hm.later (hs₁.trans hs₂)) (hwhole _ t (hs₁.trans hs₂).le ht)
    fun _ hm => drawn_letIn.2 ⟨hm, hq.1.later hs₂, hq.2.later hs₂, he⟩

/-- A local definition keeps to drawn variables if definition and body do. -/
theorem keeps_letIn {bound body : ObservedExprWalk} (hbound : bound.Keeps d)
    (hbody : body.Keeps e) (hs : s.Ready Γ) (he : Drawn s.drawn (Expr.letIn m b d e)) :
    (letIn m b d e bound body Γ).Keeps s :=
  keeps_underBinder id hbound hbody hs he drawn_none fun _ _ _ ht => ht

theorem keeps_letInAgainst {bound body : ObservedExprWalk} {demand : Demand}
    (hbound : bound.Keeps d) (hbody : body.Keeps e) (hs : s.Ready Γ)
    (he : Drawn s.drawn (Expr.letIn m b d e)) (hd : Drawn s.drawn demand) :
    (letInAgainst m b d e bound body Γ demand).Keeps s :=
  keeps_underBinder (fun _ => demand.expected) hbound hbody hs he (drawn_some.2 hd)
    fun _ _ hn _ => Drawn.mono hd hn

theorem drawn_truthValue {n : Supply} : Drawn n Infer.truthValue := by
  intro v hv
  cases hv

/-- Walking the test and the first branch of a conditional, when the branch has a goal. -/
theorem keeps_branch {y n : Expr} {test yes : ObservedExprWalk} (htest : test.Keeps c)
    (hyes : yes.Keeps y) (hs : s.Ready Γ) (he : Drawn s.drawn (Expr.cond m c y n))
    (hgoal : Drawn s.drawn goal) {next : Expr → Expr → Ty → ObservedWalk Expr Ty}
    (hnext : ∀ c y t s', s.Advances s' → Drawn s'.drawn (Expr.cond m c y n) → Drawn s'.drawn t →
      (next c y t).Keeps s') :
    ((test Γ (some Infer.truthValue)).andThen (.cond m · y n) fun c _ =>
      (yes Γ goal).andThen (.cond m c · n) fun y t => next c y t).Keeps s := by
  obtain ⟨hm, hc, hy, hn⟩ := drawn_cond.1 he
  refine (htest hs (drawn_some.2 drawn_truthValue) hc).andThen
    (fun _ _ hle hc => drawn_cond.2 ⟨hm.mono hle, hc, hy.mono hle, hn.mono hle⟩)
    fun c _ s₁ hs₁ hc _ => ?_
  have hwhole : ∀ k y, s₁.drawn ≤ k → Drawn k y → Drawn k (Expr.cond m c y n) := fun _ _ hle hy =>
    drawn_cond.2 ⟨(hm.later hs₁).mono hle, hc.mono hle, hy, (hn.later hs₁).mono hle⟩
  exact (hyes (hs.later hs₁) (hgoal.later hs₁) (hy.later hs₁)).andThen hwhole
    fun y t s₂ hs₂ hy ht => hnext c y t s₂ (hs₁.trans hs₂) (hwhole _ y hs₂.le hy) ht

/-- Walking the second branch of a conditional, when the branch has a goal. -/
theorem keeps_otherBranch {y n : Expr} {no : ObservedExprWalk} {t : Ty} (hno : no.Keeps n)
    (hs : s.Ready Γ) (he : Drawn s.drawn (Expr.cond m c y n)) (hgoal : Drawn s.drawn goal)
    (ht : Drawn s.drawn t) :
    ((no Γ goal).andThen (.cond m c y) fun n _ =>
      .annotate Γ (.cond · c y n) m t).Keeps s := by
  obtain ⟨hm, hc, hy, hn⟩ := drawn_cond.1 he
  refine (hno hs hgoal hn).andThen
    (fun _ _ hle hn => drawn_cond.2 ⟨hm.mono hle, hc.mono hle, hy.mono hle, hn⟩)
    fun n _ s₁ hs₁ hn _ => ?_
  exact .annotate (hs.later hs₁) (hm.later hs₁) (ht.later hs₁)
    fun _ hm => drawn_cond.2 ⟨hm, hc.later hs₁, hy.later hs₁, hn⟩

/-- A conditional keeps to drawn variables if its parts do, in both modes. -/
theorem keeps_cond {y n : Expr} {test yes no : ObservedExprWalk} (htest : test.Keeps c)
    (hyes : yes.Keeps y) (hno : no.Keeps n) (hs : s.Ready Γ)
    (he : Drawn s.drawn (Expr.cond m c y n)) : (cond mode m y n test yes no Γ).Keeps s := by
  refine keeps_branch htest hyes hs he drawn_none fun c y t s₁ hs₁ he ht => ?_
  have hr₁ := hs.later hs₁
  cases mode with
  | topDown _ => exact keeps_otherBranch hno hr₁ he (drawn_some.2 ht) ht
  | bottomUp =>
    obtain ⟨hm, hc, hy, hn⟩ := drawn_cond.1 he
    have hwhole : ∀ k n, s₁.drawn ≤ k → Drawn k n → Drawn k (Expr.cond m c y n) :=
      fun _ _ hle hn => drawn_cond.2 ⟨hm.mono hle, hc.mono hle, hy.mono hle, hn⟩
    refine (hno hr₁ drawn_none hn).andThen hwhole fun n u s₂ hs₂ hn hu => ?_
    have he₂ := hwhole _ n hs₂.le hn
    refine .act (hr₁.later hs₂) he₂ (ObservedAct.keeps_unify hs₂.subst _ _ (ht.later hs₂) hu)
      fun _ s₃ hs₃ _ => ?_
    have hs₂₃ := hs₂.trans hs₃
    exact .annotate (hr₁.later hs₂₃) (hm.later hs₂₃) (ht.later hs₂₃) fun _ hm =>
      drawn_cond.2 ⟨hm, hc.later hs₂₃, hy.later hs₂₃, hn.later hs₃⟩

theorem keeps_condAgainst {y n : Expr} {test yes no : ObservedExprWalk} {demand : Demand}
    (htest : test.Keeps c) (hyes : yes.Keeps y) (hno : no.Keeps n) (hs : s.Ready Γ)
    (he : Drawn s.drawn (Expr.cond m c y n)) (hd : Drawn s.drawn demand) :
    (condAgainst m y n test yes no Γ demand).Keeps s :=
  keeps_branch htest hyes hs he (drawn_some.2 hd) fun _ _ _ _ hs₁ he _ =>
    keeps_otherBranch hno (hs.later hs₁) he (drawn_some.2 (Drawn.later hd hs₁)) (Drawn.later hd hs₁)

/-- An annotated expression keeps to drawn variables, since the annotation is lowered first. -/
theorem keeps_anno {a : TypeExpr} {inner : ObservedExprWalk} (h : inner.Keeps e) (hs : s.Ready Γ)
    (he : Drawn s.drawn (Expr.anno m e a)) : (anno m e a inner Γ).Keeps s := by
  refine .act hs he (keeps_annotated hs.subst a) fun d s₁ hs₁ hd => ?_
  obtain ⟨hm, he⟩ := drawn_anno.1 (he.later hs₁)
  refine (h (hs.later hs₁) (drawn_some.2 hd) he).andThen
    (fun _ _ hle he => drawn_anno.2 ⟨hm.mono hle, he⟩) fun e _ s₂ hs₂ he _ => ?_
  exact .annotate (hs.later (hs₁.trans hs₂)) (hm.later hs₂) (Drawn.later hd hs₂)
    fun _ hm => drawn_anno.2 ⟨hm, he⟩

/-- Walking the elements of a tuple, when they have goals. -/
theorem keeps_elems {es : List Expr} {elems : ElemsWalk} {goals : List Goal}
    (whole : List Ty → Ty) (h : elems.Keeps es) (hs : s.Ready Γ)
    (he : Drawn s.drawn (Expr.tuple m es)) (hgoals : Drawn s.drawn goals)
    (hwhole : ∀ n ts, s.drawn ≤ n → Drawn n ts → Drawn n (whole ts)) :
    ((elems Γ goals).andThen (.tuple m) fun es ts =>
      .annotate Γ (.tuple · es) m (whole ts)).Keeps s := by
  obtain ⟨hm, hes⟩ := drawn_elems.1 he
  refine (h hs hgoals hes).andThen (fun _ _ hle hes => drawn_elems.2 ⟨hm.mono hle, hes⟩)
    fun es ts s₁ hs₁ hes hts => ?_
  exact .annotate (hs.later hs₁) (hm.later hs₁) (hwhole _ ts hs₁.le hts)
    fun _ hm => drawn_elems.2 ⟨hm, hes⟩

theorem keeps_tuple {es : List Expr} {elems : ElemsWalk} (h : elems.Keeps es) (hs : s.Ready Γ)
    (he : Drawn s.drawn (Expr.tuple m es)) : (tuple m es elems Γ).Keeps s := by
  refine keeps_elems .tuple h hs he (fun g hg => ?_) fun _ _ _ hts => drawn_tuple.2 hts
  obtain ⟨_, -, rfl⟩ := List.mem_map.1 hg
  exact drawn_none

/-- The parts of a drawn demand are drawn, so elements can be walked against them. -/
theorem keeps_tupleAgainst {es : List Expr} {elems : ElemsWalk} {d : Demand} {ts : List Ty}
    (h : elems.Keeps es) (hs : s.Ready Γ) (he : Drawn s.drawn (Expr.tuple m es))
    (hd : Drawn s.drawn d) (htuple : d.expected = .tuple ts) :
    (tupleAgainst m elems Γ d ts).Keeps s := by
  have hts : Drawn s.drawn ts := drawn_tuple.1 (htuple ▸ hd)
  refine keeps_elems (fun _ => d.expected) h hs he (fun g hg => ?_)
    fun _ _ hle _ => Drawn.mono hd hle
  obtain ⟨t, ht, rfl⟩ := List.mem_map.1 hg
  exact drawn_some.2 (hts t ht)

theorem keeps_invalid (hs : s.Ready Γ) (hm : Drawn s.drawn m) : (invalid m Γ).Keeps s :=
  .act hs (drawn_invalid.2 hm) (ObservedAct.keeps_fresh hs.subst) fun _ _ hs₁ ht =>
    .annotate (hs.later hs₁) (hm.later hs₁) ht fun _ hm => drawn_invalid.2 hm

end Observe

/-- A demand that is passed on is made of drawn variables. -/
theorem Mode.drawn_pushed? {mode : Mode} {goal : Goal} {s : Session} {d : Demand}
    (hs : Drawn s.drawn s.subst) (hgoal : Drawn s.drawn goal) (h : mode.pushed? goal s = some d) :
    Drawn s.drawn d := by
  obtain ⟨c, rfl, rfl⟩ := Mode.pushed?_eq_some h
  have hc : Drawn s.drawn c := drawn_some.1 hgoal
  exact Subst.drawn_apply hs hc

namespace Expr

/-- Elements keep to drawn variables one after the other. -/
theorem keeps_observeAll {mode : Mode} {es : List Expr} (h : ∀ e ∈ es, (observe mode e).Keeps e) :
    Observe.ElemsWalk.Keeps (observeAll mode es) es := by
  intro Γ goals s hs hgoals hes
  induction es generalizing goals s with
  | nil =>
    rw [observeAll]
    exact .done hs.subst drawn_nil drawn_nil
  | cons e es ih =>
    obtain ⟨he, hes⟩ := drawn_cons.1 hes
    obtain ⟨hobserve, hrest⟩ := List.forall_mem_cons.1 h
    have hhead : Drawn s.drawn (goals.headD none) := by
      cases goals with
      | nil => exact drawn_none
      | cons g gs => exact (drawn_cons.1 hgoals).1
    have htail : Drawn s.drawn goals.tail := fun g hg => hgoals g (List.mem_of_mem_tail hg)
    rw [observeAll]
    refine (hobserve hs hhead he).andThen (fun _ _ hle he => drawn_cons.2 ⟨he, hes.mono hle⟩)
      fun e t s₁ hs₁ he ht => ?_
    refine (ih hrest (hs.later hs₁) (htail.later hs₁) (hes.later hs₁)).andThen
      (fun _ _ hle hes => drawn_cons.2 ⟨he.mono hle, hes⟩) fun es ts s₂ hs₂ hes hts => ?_
    exact .done hs₂.subst (drawn_cons.2 ⟨he.later hs₂, hes⟩) (drawn_cons.2 ⟨ht.later hs₂, hts⟩)

/-- Inference of an expression goes through moments at which all is made of drawn variables. -/
theorem keeps_observe (mode : Mode) (e : Expr) : (observe mode e).Keeps e := by
  induction e using Expr.inductionOn with
  | lit m l =>
    intro Γ goal s hs hgoal he
    rw [observe]
    exact .since hs he (Observe.keeps_settle hs hgoal
      (.annotate hs (drawn_lit.1 he) (drawn_literal l) fun _ hm => drawn_lit.2 hm))
  | name m x =>
    intro Γ goal s hs hgoal he
    rw [observe]
    exact .since hs he (Observe.keeps_settle hs hgoal (Observe.keeps_name hs (drawn_name.1 he)))
  | lam m p b ih =>
    intro Γ goal s hs hgoal he
    rw [observe]
    refine .since hs he (.reading ?_)
    cases hr : (mode.pushed? goal s).bind fun d => d.expected.fn?.map (d, ·) with
    | none => exact Observe.keeps_settle hs hgoal (Observe.keeps_lam ih hs he)
    | some r =>
      obtain ⟨d, hd, hr⟩ := Option.bind_eq_some_iff.1 hr
      obtain ⟨q, hq, rfl⟩ := Option.map_eq_some_iff.1 hr
      exact Observe.keeps_lamAgainst ih hs he (Mode.drawn_pushed? hs.subst hgoal hd)
        (Ty.fn?_eq_some.1 hq)
  | app m f a ihf iha =>
    intro Γ goal s hs hgoal he
    rw [observe]
    exact .since hs he (Observe.keeps_settle hs hgoal (Observe.keeps_app ihf iha hs he))
  | letIn m b d e ihd ihe =>
    intro Γ goal s hs hgoal he
    rw [observe]
    refine .since hs he (.reading ?_)
    cases hr : mode.pushed? goal s with
    | none => exact Observe.keeps_settle hs hgoal (Observe.keeps_letIn ihd ihe hs he)
    | some demand =>
      exact Observe.keeps_letInAgainst ihd ihe hs he (Mode.drawn_pushed? hs.subst hgoal hr)
  | cond m c y n ihc ihy ihn =>
    intro Γ goal s hs hgoal he
    rw [observe]
    refine .since hs he (.reading ?_)
    cases hr : (mode.pushed? goal s).filter fun _ => mode.propagates (.branch m.span) with
    | none => exact Observe.keeps_settle hs hgoal (Observe.keeps_cond ihc ihy ihn hs he)
    | some demand =>
      have hd := Mode.drawn_pushed? hs.subst hgoal (Option.filter_eq_some_iff.1 hr).1
      exact Observe.keeps_condAgainst ihc ihy ihn hs he hd
  | anno m e a ih =>
    intro Γ goal s hs hgoal he
    rw [observe]
    exact .since hs he (Observe.keeps_settle hs hgoal (Observe.keeps_anno ih hs he))
  | tuple m es ih =>
    intro Γ goal s hs hgoal he
    rw [observe]
    refine .since hs he (.reading ?_)
    cases hr : (mode.pushed? goal s).bind fun d =>
        (d.expected.tuple?.filter fun ts => ts.length = es.length).map (d, ·) with
    | none =>
      exact Observe.keeps_settle hs hgoal (Observe.keeps_tuple (keeps_observeAll ih) hs he)
    | some r =>
      obtain ⟨d, hd, hr⟩ := Option.bind_eq_some_iff.1 hr
      obtain ⟨ts, hts, rfl⟩ := Option.map_eq_some_iff.1 hr
      exact Observe.keeps_tupleAgainst (keeps_observeAll ih) hs he
        (Mode.drawn_pushed? hs.subst hgoal hd)
        (Ty.tuple?_eq_some.1 (Option.filter_eq_some_iff.1 hts).1)
  | invalid m =>
    intro Γ goal s hs hgoal he
    rw [observe]
    exact .since hs he
      (Observe.keeps_settle hs hgoal (Observe.keeps_invalid hs (drawn_invalid.1 he)))

end Expr

/-- The run over a program goes through moments at which all is made of drawn variables. -/
theorem Program.keeps_observe (mode : Mode) (p : Program) {Γ : Env} {s : Session} (hs : s.Ready Γ)
    (hp : Drawn s.drawn p) : (Program.observe mode p Γ).Keeps s := by
  induction p generalizing Γ s with
  | nil => exact .since hs drawn_nil (.done hs.subst drawn_nil trivial)
  | cons d ds ih =>
    obtain ⟨hd, hds⟩ := drawn_cons.1 hp
    rw [Program.observe]
    refine .since hs hp ?_
    refine (Observe.keeps_bind (d.bound.keeps_observe mode) hs hd.1 hd.2).andThen
      (fun _ _ hle hq => drawn_cons.2 ⟨hq, hds.mono hle⟩) fun q σ s₁ hs₁ hq hσ => .log hs₁.subst ?_
    obtain ⟨b, e⟩ := q
    have hr₁ := ((hs.later hs₁).extend d.binder.name hσ).log (.inferred d.binder.name σ)
    have hds₁ := hds.later hs₁
    refine (ih hr₁ hds₁).andThen (fun _ _ hle hds => drawn_cons.2 ⟨hq.mono hle, hds⟩)
      fun ds _ s₂ hs₂ hds _ => ?_
    exact .done hs₂.subst (drawn_cons.2 ⟨hq.mono hs₂.le, hds⟩) trivial

end LetPoly
