import LetPoly.Proofs.DrawnRuns
import LetPoly.Proofs.Programs
import LetPoly.Proofs.Renaming

/-!
# Freshness

At every moment of a run all variables that occur in the substitution, in the environment or in a
slot have been drawn, and no scheme in scope quantifies over a variable twice.  So the next
variables of the supply occur nowhere, and an instance of a scheme in scope is the type of the
scheme with its quantified variables renamed to them (`instances_fresh_throughout`).

A run begins with the prelude, whose schemes are made of the first variables, and ends with
resolving all slots.
-/

namespace LetPoly

variable {n : Supply}

/-! ## Changing slots -/

section

variable {f : Slot Ty → Slot Ty} {g : Slot Scheme → Slot Scheme}

theorem drawn_map {α β : Type} [Drawable α] [Drawable β] {f : α → β} {as : List α}
    (hf : ∀ a, Drawn n a → Drawn n (f a)) (has : Drawn n as) : Drawn n (as.map f) :=
  List.forall_mem_map.2 fun a ha => hf a (has a ha)

/-- A tree is drawn if what its slots become is drawn. -/
theorem Expr.drawn_update {e : Expr} (hmark : ∀ d ∈ e.walk, Drawn n (f d.mark.ty))
    (hbinder : ∀ d ∈ e.walk, ∀ b, d.binder? = some b → Drawn n (g b.scheme)) :
    Drawn n (e.update f g) := by
  intro c hc
  rw [walk_update] at hc
  obtain ⟨d, hd, rfl⟩ := List.mem_map.1 hc
  rw [mark_update, binder?_update]
  refine ⟨hmark d hd, fun b hb => ?_⟩
  obtain ⟨b, hb', rfl⟩ := Option.map_eq_some_iff.1 hb
  exact hbinder d hd b hb'

/-- A cleared program has no variables. -/
theorem Program.drawn_clear (p : Program) : Drawn n p.clear := by
  intro d hd
  obtain ⟨c, -, rfl⟩ := List.mem_map.1 hd
  exact ⟨drawn_none, Expr.drawn_update (fun _ _ => drawn_none) fun _ _ _ _ => drawn_none⟩

variable (hf : ∀ x, Drawn n x → Drawn n (f x)) (hg : ∀ x, Drawn n x → Drawn n (g x))

include hf hg

theorem Drawn.update {e : Expr} (he : Drawn n e) : Drawn n (e.update f g) :=
  Expr.drawn_update (fun d hd => hf _ (he d hd).1) fun d hd b hb => hg _ ((he d hd).2 b hb)

namespace Expr

/-- While the slots of a list are changed one by one, it stays drawn. -/
theorem drawn_updatingAll {es : List Expr} (h : ∀ e ∈ es, Drawn n e → Drawn n (e.updating f g))
    (hes : Drawn n es) : Drawn n (updatingAll f g es) := by
  induction es with
  | nil => exact drawn_nil
  | cons e es ih =>
    obtain ⟨he, hes⟩ := drawn_cons.1 hes
    obtain ⟨hhead, htail⟩ := List.forall_mem_cons.1 h
    rw [updatingAll]
    exact drawn_append.2 ⟨drawn_map (fun _ hd => drawn_cons.2 ⟨hd, hes⟩) (hhead he),
      drawn_map (fun _ hds => drawn_cons.2 ⟨he.update hf hg, hds⟩) (ih htail hes)⟩

/-- Changing slots one after another, each to a drawn one, goes through drawn trees. -/
theorem drawn_updating {e : Expr} (he : Drawn n e) : Drawn n (e.updating f g) := by
  induction e using Expr.inductionOn with
  | lit m l => exact drawn_cons.2 ⟨he, drawn_nil⟩
  | name m x => exact drawn_cons.2 ⟨he, drawn_nil⟩
  | lam m p b ih =>
    obtain ⟨hm, hp, hb⟩ := drawn_lam.1 he
    have hm' : Drawn n (m.update f) := hf _ hm
    have hp' : Drawn n (p.update g) := hg _ hp
    have hbefore : Drawn n [lam m p b, lam (m.update f) p b] :=
      drawn_cons.2 ⟨he, drawn_cons.2 ⟨drawn_lam.2 ⟨hm', hp, hb⟩, drawn_nil⟩⟩
    exact drawn_append.2 ⟨hbefore, drawn_map (fun _ hb => drawn_lam.2 ⟨hm', hp', hb⟩) (ih hb)⟩
  | app m e a ihe iha =>
    obtain ⟨hm, hfun, ha⟩ := drawn_app.1 he
    have hm' : Drawn n (m.update f) := hf _ hm
    have hfun' := hfun.update hf hg
    exact drawn_append.2 ⟨drawn_append.2 ⟨drawn_cons.2 ⟨he, drawn_nil⟩,
      drawn_map (fun _ h => drawn_app.2 ⟨hm', h, ha⟩) (ihe hfun)⟩,
      drawn_map (fun _ h => drawn_app.2 ⟨hm', hfun', h⟩) (iha ha)⟩
  | letIn m b d e ihd ihe =>
    obtain ⟨hm, hb, hd, hbody⟩ := drawn_letIn.1 he
    have hm' : Drawn n (m.update f) := hf _ hm
    have hb' : Drawn n (b.update g) := hg _ hb
    have hd' := hd.update hf hg
    have hbefore : Drawn n [letIn m b d e, letIn (m.update f) b d e] :=
      drawn_cons.2 ⟨he, drawn_cons.2 ⟨drawn_letIn.2 ⟨hm', hb, hd, hbody⟩, drawn_nil⟩⟩
    exact drawn_append.2 ⟨drawn_append.2 ⟨hbefore,
      drawn_map (fun _ h => drawn_letIn.2 ⟨hm', hb', h, hbody⟩) (ihd hd)⟩,
      drawn_map (fun _ h => drawn_letIn.2 ⟨hm', hb', hd', h⟩) (ihe hbody)⟩
  | cond m c y z ihc ihy ihz =>
    obtain ⟨hm, hc, hy, hz⟩ := drawn_cond.1 he
    have hm' : Drawn n (m.update f) := hf _ hm
    have hc' := hc.update hf hg
    have hy' := hy.update hf hg
    exact drawn_append.2 ⟨drawn_append.2 ⟨drawn_append.2 ⟨drawn_cons.2 ⟨he, drawn_nil⟩,
      drawn_map (fun _ h => drawn_cond.2 ⟨hm', h, hy, hz⟩) (ihc hc)⟩,
      drawn_map (fun _ h => drawn_cond.2 ⟨hm', hc', h, hz⟩) (ihy hy)⟩,
      drawn_map (fun _ h => drawn_cond.2 ⟨hm', hc', hy', h⟩) (ihz hz)⟩
  | anno m e a ih =>
    obtain ⟨hm, hinner⟩ := drawn_anno.1 he
    have hm' : Drawn n (m.update f) := hf _ hm
    exact drawn_append.2 ⟨drawn_cons.2 ⟨he, drawn_nil⟩,
      drawn_map (fun _ h => drawn_anno.2 ⟨hm', h⟩) (ih hinner)⟩
  | tuple m es ih =>
    obtain ⟨hm, hes⟩ := drawn_elems.1 he
    have hm' : Drawn n (m.update f) := hf _ hm
    exact drawn_append.2 ⟨drawn_cons.2 ⟨he, drawn_nil⟩,
      drawn_map (fun _ h => drawn_elems.2 ⟨hm', h⟩) (drawn_updatingAll hf hg ih hes)⟩
  | invalid m => exact drawn_cons.2 ⟨he, drawn_nil⟩

end Expr

theorem Decl.drawn_update {d : Decl} (hd : Drawn n d) : Drawn n (d.update f g) :=
  ⟨hg _ hd.1, Drawn.update hf hg hd.2⟩

theorem Decl.drawn_updating {d : Decl} (hd : Drawn n d) : Drawn n (d.updating f g) := by
  have hb : Drawn n (d.binder.update g) := hg _ hd.1
  exact drawn_cons.2 ⟨hd, drawn_map (fun _ he => ⟨hb, he⟩) (Expr.drawn_updating hf hg hd.2)⟩

/-- While the slots of a program are changed one by one, it stays drawn. -/
theorem Program.drawn_updating {p : Program} (hp : Drawn n p) : Drawn n (p.updating f g) := by
  induction p with
  | nil => exact drawn_nil
  | cons d ds ih =>
    obtain ⟨hd, hds⟩ := drawn_cons.1 hp
    rw [Program.updating]
    exact drawn_append.2
      ⟨drawn_map (fun _ hd => drawn_cons.2 ⟨hd, hds⟩) (d.drawn_updating hf hg hd),
        drawn_map (fun _ hds => drawn_cons.2 ⟨d.drawn_update hf hg hd, hds⟩) (ih hds)⟩

end

/-- Resolving the slots one after another goes through drawn programs, and ends with one. -/
theorem Program.drawn_resolving {s : Subst} (hs : Drawn n s) {p : Program} (hp : Drawn n p) :
    Drawn n (p.updating (·.resolve s.apply) (·.resolve s.applyScheme)) ∧
      Drawn n (p.resolve s) := by
  have hf : ∀ x : Slot Ty, Drawn n x → Drawn n (x.resolve s.apply) := fun x hx t ht => by
    obtain ⟨u, hu, rfl⟩ := Option.map_eq_some_iff.1 ht
    exact Subst.drawn_apply hs (hx u hu)
  have hg : ∀ x : Slot Scheme, Drawn n x → Drawn n (x.resolve s.applyScheme) := fun x hx σ hσ => by
    obtain ⟨τ, hτ, rfl⟩ := Option.map_eq_some_iff.1 hσ
    exact Subst.drawn_applyScheme hs (hx τ hτ)
  exact ⟨drawn_updating hf hg hp, drawn_map (fun d hd => d.drawn_update hf hg hd) hp⟩

/-! ## The prelude -/

instance (σ : Scheme) : Decidable (Drawn n σ) :=
  inferInstanceAs (Decidable (σ.vars.Nodup ∧ (∀ v ∈ σ.vars, v < n) ∧ ∀ v ∈ σ.ty.occurrences, v < n))

namespace Prelude

/-- Each scheme is made of variables that have been drawn for it or for a scheme before it. -/
def InTurn : List (String × Scheme) → Supply → Prop
  | [], _ => True
  | e :: es, n => Drawn (n + fresh e.2 n) e.2 ∧ InTurn es (n + fresh e.2 n)

instance InTurn.decide : ∀ es n, Decidable (InTurn es n)
  | [], _ => .isTrue trivial
  | _ :: es, _ => @instDecidableAnd _ _ inferInstance (InTurn.decide es _)

/-- While the prelude is set up, its schemes are made of variables that are drawn then. -/
theorem drawn_stages {es : List (String × Scheme)} (hes : InTurn es n) {Γ : Env} (hΓ : Drawn n Γ) :
    ∀ q ∈ stages es Γ n, Drawn q.2 q.1 := by
  induction es generalizing n Γ with
  | nil => exact List.forall_mem_nil _
  | cons e es ih =>
    obtain ⟨he, hes⟩ := hes
    refine List.forall_mem_append.2 ⟨List.forall_mem_map.2 fun k hk => ?_, ih hes ?_⟩
    · exact hΓ.mono (List.mem_range'_1.1 hk).1
    · intro x σ hx
      obtain ⟨-, rfl⟩ | ⟨-, hx⟩ := Env.lookup?_extend_eq_some.1 hx
      · exact he
      · exact (hΓ x σ hx).mono (Nat.le_add_right ..)

/-- The count of the supply after names have got schemes. -/
def count : List (String × Scheme) → Supply → Supply
  | [], n => n
  | e :: es, n => count es (n + fresh e.2 n)

/-- Setting up the prelude is a way on which variables are drawn. -/
theorem path_stages (es : List (String × Scheme)) (Γ : Env) (n : Supply) (s : Subst) :
    Reached.Path (n, s) ((stages es Γ n).map fun q => (q.2, s)) (count es n, s) := by
  induction es generalizing Γ n with
  | nil => exact .nil
  | cons e es ih =>
    -- At the last count of the range nothing is drawn, but the name is added.
    rw [stages, List.map_append, List.map_map, List.range'_concat, List.map_append, Nat.one_mul]
    exact ((Reached.path_draw n (fresh e.2 n) s).append (.cons .idle .nil)).append (ih ..)

theorem count_entries : count entries 0 = drawn := by decide

/-- A run starts with drawn variables. -/
theorem start_ready : Session.start.Ready env := by
  refine ⟨Subst.drawn_empty, fun x σ hx => ?_⟩
  obtain ⟨hnodup, hbelow, hclosed⟩ := entries_closed _ (mem_entries_of_lookup? hx)
  exact ⟨hnodup, hbelow, fun v hv => hbelow v (hclosed v hv)⟩

end Prelude

/-! ## Whole runs -/

/-- The session before anything is drawn. -/
def Session.blank : Session := { Session.start with drawn := 0 }

theorem Session.blank_advances {s : Session} (hs : Drawn s.drawn s.subst) : blank.Advances s :=
  ⟨Nat.zero_le _, hs⟩

theorem Moment.after_blank {Γ : Env} {p : Program} {s : Session} (hs : s.Ready Γ)
    (hp : Drawn s.drawn p) : (Moment.plain Γ p s).After .blank :=
  (Moment.after_plain hs hp hs.refl).trans (Session.blank_advances hs.subst)

theorem Env.drawn_empty : Drawn n Env.empty := by
  intro x σ hx
  simp [lookup?, empty] at hx

namespace Program

/-- At the moments of the prelude all is made of drawn variables. -/
theorem after_of_mem_prelude (p : Program) : ∀ m ∈ Prelude.moments p.clear, m.After .blank := by
  have hstages : ∀ q ∈ Prelude.stages Prelude.entries .empty 0, Drawn q.2 q.1 :=
    Prelude.drawn_stages (by decide) Env.drawn_empty
  refine List.forall_mem_map.2 fun q hq => ?_
  exact Moment.after_blank ⟨Subst.drawn_empty, hstages q hq⟩ p.drawn_clear

/-- The program at the end of a run is made of drawn variables. -/
theorem drawn_inferTypes {mode : Mode} {p q : Program} {r : Except (Fault TypeError) Unit}
    {s : Session} (hrun : Program.infer mode p.clear Prelude.env Session.start = ((q, r), s))
    (hs : Drawn s.drawn s.subst) (hq : Drawn s.drawn q) :
    Drawn s.drawn (p.inferTypes mode).program := by
  unfold inferTypes
  rw [hrun]
  rcases r with (e | d) | _
  · exact hq
  · exact hq
  · have hresolve := (drawn_resolving hs hq).2
    dsimp only
    split <;> exact hresolve

/-- At every moment of a run all is made of drawn variables. -/
theorem after_of_mem_moments (mode : Mode) (p : Program) :
    ∀ m ∈ p.moments mode, m.After .blank := by
  obtain ⟨hmoments, hlater, -, htree, -⟩ :=
    p.clear.keeps_observe mode Prelude.start_ready p.drawn_clear
  have hwalk := congrFun (Program.walk_observe mode p.clear Prelude.env) Session.start
  have hstart := Session.blank_advances Prelude.start_ready.subst
  unfold moments
  rcases hrun : Program.observe mode p.clear Prelude.env Session.start with ⟨ms, ⟨q, r⟩, s⟩
  rw [ObservedWalk.walk, hrun] at hwalk
  rw [hrun] at hmoments hlater htree
  have hend : ∀ q', Drawn s.drawn q' → (Moment.plain .empty q' s).After .blank := fun _ hq =>
    Moment.after_blank ⟨hlater.subst, Env.drawn_empty⟩ hq
  -- The moments of the prelude, of the walk and of resolving, and the last one.
  refine List.forall_mem_append.2 ⟨List.forall_mem_append.2 ⟨List.forall_mem_append.2
    ⟨p.after_of_mem_prelude, fun m hm => (hmoments m hm).trans hstart⟩, ?_⟩, ?_⟩
  · refine List.forall_mem_map.2 fun q' hq' => hend q' ?_
    cases r with
    | error _ => cases hq'
    | ok _ => exact (drawn_resolving hlater.subst htree).1 q' hq'
  · exact List.forall_mem_singleton.2 (hend _ (drawn_inferTypes hwalk.symm hlater.subst htree))

/-- The moments of a run leave out no state of the supply and the substitution. -/
theorem path_moments (mode : Mode) (p : Program) :
    Reached.Path (0, .empty) ((p.moments mode).map (·.session.reached))
      (Program.infer mode p.clear Prelude.env Session.start).2.reached := by
  have hprelude := Prelude.path_stages Prelude.entries .empty 0 .empty
  have hpath := (p.clear.keeps_observe mode Prelude.start_ready p.drawn_clear).path
  rw [Prelude.count_entries] at hprelude
  rw [← Program.walk_observe]
  unfold ObservedWalk.walk moments
  rcases hrun : Program.observe mode p.clear Prelude.env Session.start with ⟨ms, ⟨q, r⟩, s⟩
  rw [hrun] at hpath
  simp only [List.map_append, Prelude.moments, List.map_map]
  refine ((hprelude.append hpath).append (Reached.path_idle ?_)).append (.cons .idle .nil)
  exact List.forall_mem_map.2 fun _ _ => rfl

end Program

/-! ## Instances -/

/-- The variable is quantified by a scheme, or occurs in its type. -/
def Scheme.Mentions (σ : Scheme) (v : TyVar) : Prop := v ∈ σ.vars ∨ v ∈ σ.ty.occurrences

/-- The places of a state in which a variable can occur. -/
inductive Moment.Mentions (m : Moment Program) (v : TyVar) : Prop where
  /-- The variable is solved. -/
  | solved {t : Ty} : m.session.subst.get? v = some t → Mentions m v
  /-- A variable is solved by a type with the variable. -/
  | solution {w : TyVar} {t : Ty} :
    m.session.subst.get? w = some t → v ∈ t.occurrences → Mentions m v
  /-- A scheme in scope has the variable. -/
  | scope {x : String} {σ : Scheme} : m.env.lookup? x = some σ → σ.Mentions v → Mentions m v
  /-- The scheme of a declaration has the variable. -/
  | decl {d : Decl} {σ : Scheme} :
    d ∈ m.tree → d.binder.scheme = .filled σ → σ.Mentions v → Mentions m v
  /-- The type of an expression has the variable. -/
  | expr {e : Expr} {t : Ty} :
    e ∈ m.tree.walk → e.mark.ty = .filled t → v ∈ t.occurrences → Mentions m v
  /-- The scheme of a local name has the variable. -/
  | binder {e : Expr} {b : Binder} {σ : Scheme} : e ∈ m.tree.walk → e.binder? = some b →
    b.scheme = .filled σ → σ.Mentions v → Mentions m v

/-- Instantiating a scheme at a moment renames its variables by `ρ`, which takes the quantified ones
to new ones. -/
structure Moment.Renews (m : Moment Program) (σ : Scheme) (ρ : TyVar → TyVar) : Prop where
  /-- The quantified variables become the next ones of the supply, in order. -/
  quantified : ∀ (i : Nat) (h : i < σ.vars.length), ρ σ.vars[i] = m.session.drawn + i
  /-- Other variables stay as they are. -/
  other : ∀ v, v ∉ σ.vars → ρ v = v
  /-- The new variables occur nowhere. -/
  new : ∀ i < σ.vars.length, ¬ m.Mentions (m.session.drawn + i)
  /-- The substitution that is made for the quantified variables has no cycles, so applying it
  ends. -/
  ends : ∃ r, Scheme.refresh σ.vars .empty m.session.drawn =
    (.ok r, m.session.drawn + σ.vars.length) ∧ r.Acyclic
  /-- All variables are renamed at once, and of the session only the count changes. -/
  result : Act.instantiate σ m.session =
    (.ok (σ.ty.rename ρ), { m.session with drawn := m.session.drawn + σ.vars.length })

theorem Scheme.lt_of_mentions {σ : Scheme} {v : TyVar} (hσ : Drawn n σ) (h : σ.Mentions v) :
    v < n :=
  h.elim (hσ.2.1 v) (hσ.2.2 v)

/-- The variables that quantified ones are renamed to, from a count of the supply on. -/
def Scheme.renewal (σ : Scheme) (n : Supply) (v : TyVar) : TyVar :=
  if v ∈ σ.vars then n + σ.vars.idxOf v else v

/-- Replacing quantified variables by fresh ones is a renaming. -/
theorem Scheme.replace_freshening (σ : Scheme) (n : Supply) :
    σ.ty.replace (σ.freshening n) = σ.ty.rename (σ.renewal n) := by
  refine Ty.replace_congr fun v _ => ?_
  rw [freshening, renewal]
  split <;> rfl

namespace Moment.After

variable {m : Moment Program} {s : Session}

/-- All variables that occur at a moment are drawn. -/
theorem lt_of_mentions (hm : m.After s) {v : TyVar} (h : m.Mentions v) : v < m.session.drawn := by
  cases h with
  | solved hget => exact (hm.later.subst v _ hget).1
  | solution hget hv => exact (hm.later.subst _ _ hget).2 v hv
  | scope hx hv => exact Scheme.lt_of_mentions (hm.env _ _ hx) hv
  | @decl d σ hd hσ hv =>
    have hslot : Drawn m.session.drawn d.binder.scheme := (hm.tree d hd).1
    rw [hσ] at hslot
    exact Scheme.lt_of_mentions (drawn_filled.1 hslot) hv
  | @expr e t he ht hv =>
    obtain ⟨d, hd, he⟩ := List.mem_flatMap.1 he
    have hslot : Drawn m.session.drawn e.mark.ty := ((hm.tree d hd).2 e he).1
    rw [ht] at hslot
    exact drawn_filled.1 hslot v hv
  | @binder e b σ he hb hσ hv =>
    obtain ⟨d, hd, he⟩ := List.mem_flatMap.1 he
    have hslot : Drawn m.session.drawn b.scheme := ((hm.tree d hd).2 e he).2 b hb
    rw [hσ] at hslot
    exact Scheme.lt_of_mentions (drawn_filled.1 hslot) hv

/-- An instance of a scheme in scope renames its variables to ones that occur nowhere. -/
theorem renews (hm : m.After s) {x : String} {σ : Scheme} (hx : m.env.lookup? x = some σ) :
    m.Renews σ (σ.renewal m.session.drawn) := by
  obtain ⟨hnodup, hbelow, -⟩ := hm.env x σ hx
  refine ⟨fun i hi => ?_, fun v hv => if_neg hv, fun i _ h => ?_, ?_, ?_⟩
  · rw [Scheme.renewal, if_pos (List.getElem_mem hi), hnodup.idxOf_getElem i hi]
  · exact absurd (hm.lt_of_mentions h) (Nat.not_lt.2 (Nat.le_add_right ..))
  · obtain ⟨r, hr, hget⟩ := Scheme.refresh_eq σ.vars .empty m.session.drawn hnodup
      fun v _ => Subst.get?_empty v
    exact ⟨r, hr, Scheme.acyclic_refresh hbelow hget⟩
  · rw [Act.instantiate, Scheme.instantiate_eq hnodup hbelow, Scheme.replace_freshening]
    rfl

end Moment.After

/-- Instances are fresh renamings throughout a run.  The moments are those of the run, from the
first variable on, and they leave out nothing that is drawn or solved.  At every moment all
variables of the state are below the count of the supply, and no scheme in scope quantifies over a
variable twice.  What is instantiated at a moment is in scope, and instantiating what is in scope
renames the quantified variables, in order, to the next ones, which occur nowhere. -/
theorem instances_fresh_throughout (mode : Mode) (p : Program) :
    (Program.observe mode p.clear Prelude.env Session.start).2 =
        Program.infer mode p.clear Prelude.env Session.start ∧
      Reached.Path (0, .empty) ((p.moments mode).map (·.session.reached))
        (Program.infer mode p.clear Prelude.env Session.start).2.reached ∧
      ∀ m ∈ p.moments mode,
        (∀ v, m.Mentions v → v < m.session.drawn) ∧
        (∀ x σ, m.env.lookup? x = some σ → σ.vars.Nodup) ∧
        (∀ σ, m.instantiates? = some σ → ∃ x, m.env.lookup? x = some σ) ∧
        ∀ x σ, m.env.lookup? x = some σ → ∃ ρ, m.Renews σ ρ := by
  refine ⟨congrFun (Program.walk_observe mode p.clear Prelude.env) Session.start,
    p.path_moments mode, fun m hm => ?_⟩
  have hafter := p.after_of_mem_moments mode m hm
  exact ⟨fun v => hafter.lt_of_mentions, fun x σ hx => (hafter.env x σ hx).1, hafter.scheme,
    fun x σ hx => ⟨_, hafter.renews hx⟩⟩

/-- The second use of the local definition of the sample, after the first one has been solved. -/
theorem instances_fresh_throughout_sample :
    ∃ m ∈ Program.sample.moments .bottomUp,
      m.instantiates? = some ⟨[6], .fn (.var 6) (.var 6)⟩ ∧ m.session.drawn = 9 ∧
      m.session.subst.size = 2 ∧ (∀ v, m.Mentions v → v < 9) ∧
      ∃ ρ, m.Renews ⟨[6], .fn (.var 6) (.var 6)⟩ ρ ∧ ρ 6 = 9 := by
  have h : (Program.sample.moments .bottomUp)[52]?.map
      (fun m => (m.instantiates?, m.session.drawn, m.session.subst.size)) =
        some (some ⟨[6], .fn (.var 6) (.var 6)⟩, 9, 2) := by decide +kernel
  obtain ⟨m, hm, heq⟩ := Option.map_eq_some_iff.1 h
  obtain ⟨hscheme, hdrawn, hsize⟩ := by simpa only [Prod.mk.injEq] using heq
  have hmem := List.mem_of_getElem? hm
  obtain ⟨-, -, hmoments⟩ := instances_fresh_throughout .bottomUp Program.sample
  obtain ⟨hbelow, -, hscope, hrenews⟩ := hmoments m hmem
  obtain ⟨x, hx⟩ := hscope _ hscheme
  obtain ⟨ρ, hρ⟩ := hrenews x _ hx
  exact ⟨m, hmem, hscheme, hdrawn, hsize, hdrawn ▸ hbelow, ρ, hρ,
    (hρ.quantified 0 Nat.one_pos).trans hdrawn⟩

end LetPoly
