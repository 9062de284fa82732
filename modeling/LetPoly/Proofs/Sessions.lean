import LetPoly.Proofs.Unification
import LetPoly.Typing.Session
import Mathlib.Data.Set.Basic

/-!
# What a session does to variables

A run of inference draws variables, solves some of them and never undoes either.  What
matters about a stretch of a run is which variables it can still touch.  So facts about
stretches are stated for a *territory*, a set of variables that has all variables not yet
drawn.  A stretch in a territory solves only variables of the territory, and only by types
in the territory.

A stretch also *retires* variables: a definition that is generalized takes the quantified variables
out of the territory.  A retired variable was drawn on the stretch, is not solved at
its end, and nothing that was there before the stretch stands for a type with it
(`Session.Retires`).

A session *knows* a variable in a territory if the variable is drawn and everything it stands
for is in the territory.  What is known stays known in what is left of the territory
(`Session.Steps.knows`).  So environments and types that are known in a territory never come to
mention a retired variable.
-/

namespace LetPoly

/-! ## Sessions and stretches of a run -/

/-- A session whose solved variables are drawn and form no cycle, and a territory that has all that
is not drawn yet. -/
structure Session.Sound (T : Set TyVar) (s : Session) : Prop where
  /-- No variable stands for a type that contains it. -/
  acyclic : s.subst.Acyclic
  /-- Solved variables and their types are made of drawn variables. -/
  below : ∀ v t, s.subst.get? v = some t → v < s.drawn ∧ ∀ w ∈ t.occurrences, w < s.drawn
  /-- Variables that are not drawn yet are in the territory. -/
  fresh : ∀ v, s.drawn ≤ v → v ∈ T

/-- A variable that a stretch draws and leaves without a trace in what was there before. -/
structure Session.Retires (s s' : Session) (v : TyVar) : Prop where
  /-- The variable is drawn on the stretch. -/
  drawn_le : s.drawn ≤ v
  /-- The variable is drawn at the end. -/
  lt : v < s'.drawn
  /-- The variable is not solved. -/
  unsolved : s'.subst.get? v = none
  /-- No variable drawn before stands for a type with it. -/
  hidden : ∀ w, w < s.drawn → v ∉ (s'.subst.apply (.var w)).occurrences

/-- A stretch of a run in the territory `T` that retires the variables of `N`. -/
structure Session.Steps (T N : Set TyVar) (s s' : Session) : Prop where
  /-- Drawn variables stay drawn. -/
  drawn_le : s.drawn ≤ s'.drawn
  /-- Solved variables stay solved. -/
  le : s.subst ≤ s'.subst
  /-- A variable is solved in the territory, by variables that were open. -/
  added : ∀ v t, s'.subst.get? v = some t → s.subst.get? v = none →
    v ∈ T ∧ ∀ w ∈ t.occurrences, w ∈ T ∧ s.subst.get? w = none
  /-- The variables of `N` are retired. -/
  retires : ∀ v ∈ N, s.Retires s' v
  /-- The session at the end is sound in what is left of the territory. -/
  sound : s'.Sound (T \ N)

/-- A drawn variable that stands for something in a territory. -/
def Session.Knows (T : Set TyVar) (s : Session) (v : TyVar) : Prop :=
  v < s.drawn ∧ ∀ w ∈ (s.subst.apply (.var v)).occurrences, w ∈ T

namespace Session

variable {T T' N N' : Set TyVar} {s s' s'' : Session}

/-- A sound session is sound for a larger territory. -/
theorem Sound.mono (hs : s.Sound T) (h : T ⊆ T') : s.Sound T' where
  acyclic := hs.acyclic
  below := hs.below
  fresh v hv := h (hs.fresh v hv)

/-- Variables that are not drawn are not solved. -/
theorem Sound.get?_of_le (hs : s.Sound T) {v : TyVar} (hv : s.drawn ≤ v) :
    s.subst.get? v = none := by
  cases h : s.subst.get? v with
  | none => rfl
  | some t => exact absurd (hs.below v t h).1 (Nat.not_lt.2 hv)

/-- What a drawn variable stands for is made of drawn variables. -/
theorem Sound.lt_of_mem_apply (hs : s.Sound T) {v : TyVar} (hv : v < s.drawn) :
    ∀ w ∈ (s.subst.apply (.var v)).occurrences, w < s.drawn := by
  induction v using hs.acyclic.induction with
  | step v ih =>
    intro w hw
    cases h : s.subst.get? v with
    | none =>
      rw [Subst.apply_of_get?_eq_none h, Ty.occurrences_var, List.mem_singleton] at hw
      rw [hw]
      exact hv
    | some t =>
      rw [hs.acyclic.apply_of_get?_eq_some h] at hw
      obtain ⟨u, hu, hw⟩ := Subst.mem_apply.1 hw
      exact ih t h u hu ((hs.below v t h).2 u hu) w hw

theorem Knows.mono {v : TyVar} (h : T ⊆ T') (hv : s.Knows T v) : s.Knows T' v :=
  ⟨hv.1, fun w hw => h (hv.2 w hw)⟩

/-- An open drawn variable is known if it is in the territory. -/
theorem knows_of_get?_eq_none {v : TyVar} (hlt : v < s.drawn) (hopen : s.subst.get? v = none)
    (hv : v ∈ T) : s.Knows T v := by
  refine ⟨hlt, fun w hw => ?_⟩
  rw [Subst.apply_of_get?_eq_none hopen, Ty.occurrences_var, List.mem_singleton] at hw
  rw [hw]
  exact hv

theorem Steps.refl (hs : s.Sound T) : s.Steps T ∅ s where
  drawn_le := Nat.le_refl _
  le := Subst.le_refl _
  added v t ht hn := by rw [hn] at ht; cases ht
  retires _ hv := hv.elim
  sound := hs.mono (by simp)

/-- A stretch in a territory is one in a larger territory, and retires less. -/
theorem Steps.mono (h : s.Steps T N s') (hT : T ⊆ T') (hN : N' ⊆ N) : s.Steps T' N' s' where
  drawn_le := h.drawn_le
  le := h.le
  added v t ht hn := by
    obtain ⟨hv, hw⟩ := h.added v t ht hn
    exact ⟨hT hv, fun w hw' => ⟨hT (hw w hw').1, (hw w hw').2⟩⟩
  retires v hv := h.retires v (hN hv)
  sound := h.sound.mono (Set.sdiff_subset_sdiff hT hN)

/-- An open variable of the territory stands for something in the territory later on. -/
theorem Steps.apply_mem (h : s.Steps T N s') {v : TyVar} (hopen : s.subst.get? v = none)
    (hv : v ∈ T) : ∀ w ∈ (s'.subst.apply (.var v)).occurrences, w ∈ T := by
  induction v using h.sound.acyclic.induction with
  | step v ih =>
    intro w hw
    cases hs' : s'.subst.get? v with
    | none =>
      rw [Subst.apply_of_get?_eq_none hs', Ty.occurrences_var, List.mem_singleton] at hw
      rw [hw]
      exact hv
    | some t =>
      rw [h.sound.acyclic.apply_of_get?_eq_some hs'] at hw
      obtain ⟨u, hu, hw⟩ := Subst.mem_apply.1 hw
      obtain ⟨huT, huopen⟩ := (h.added v t hs' hopen).2 u hu
      exact ih t hs' u hu huopen huT w hw

/-- What is known stays known in what is left of the territory. -/
theorem Steps.knows (hs : s.Sound T) (h : s.Steps T N s') {v : TyVar} (hv : s.Knows T v) :
    s'.Knows (T \ N) v := by
  refine ⟨Nat.lt_of_lt_of_le hv.1 h.drawn_le, fun w hw => ⟨?_, fun hN => ?_⟩⟩
  · obtain ⟨u, hu, hw⟩ := (h.sound.acyclic.mem_apply_of_le h.le).1 hw
    exact h.apply_mem (hs.acyclic.get?_of_mem_apply hu) (hv.2 u hu) w hw
  · exact (h.retires w hN).hidden v hv.1 hw

/-- An open variable outside the territory stays open. -/
theorem Steps.get?_of_not_mem (h : s.Steps T N s') {v : TyVar} (hv : v ∉ T)
    (hopen : s.subst.get? v = none) : s'.subst.get? v = none := by
  cases hs' : s'.subst.get? v with
  | none => rfl
  | some t => exact absurd (h.added v t hs' hopen).1 hv

/-- A retired variable stays retired on any stretch that leaves it out. -/
theorem Retires.steps (h : s.Retires s' v) (hs' : s'.Sound T) (h' : s'.Steps T N s'') (hv : v ∉ T) :
    s.Retires s'' v where
  drawn_le := h.drawn_le
  lt := Nat.lt_of_lt_of_le h.lt h'.drawn_le
  unsolved := h'.get?_of_not_mem hv h.unsolved
  hidden w hw hmem := by
    -- In the territory of all other variables, everything drawn before is known.
    have hsub : T ⊆ {u | u ≠ v} := fun u hu e => hv (e ▸ hu)
    have hlt : w < s'.drawn := Nat.lt_of_lt_of_le hw (Nat.le_trans h.drawn_le (Nat.le_of_lt h.lt))
    have hknows : s'.Knows {u | u ≠ v} w := ⟨hlt, fun u hu e => h.hidden w hw (e ▸ hu)⟩
    exact (((h'.mono hsub (Set.Subset.refl N)).knows (hs'.mono hsub) hknows).2 v hmem).1 rfl

/-- A stretch and the next one are one stretch, which retires what both do. -/
theorem Steps.trans (h : s.Steps T N s') (h' : s'.Steps (T \ N) N' s'') :
    s.Steps T (N ∪ N') s'' where
  drawn_le := Nat.le_trans h.drawn_le h'.drawn_le
  le := Subst.le_trans h.le h'.le
  added v t ht hn := by
    cases hv : s'.subst.get? v with
    | some u =>
      have := h'.le v u hv
      rw [ht, Option.some.injEq] at this
      subst this
      exact h.added v t hv hn
    | none =>
      obtain ⟨hvT, hw⟩ := h'.added v t ht hv
      exact ⟨hvT.1, fun w hw' => ⟨(hw w hw').1.1, Subst.get?_eq_none_of_le h.le (hw w hw').2⟩⟩
  retires v hv := by
    rcases hv with hv | hv
    · exact (h.retires v hv).steps h.sound h' fun hmem => hmem.2 hv
    · have := h'.retires v hv
      exact ⟨Nat.le_trans h.drawn_le this.drawn_le, this.lt, this.unsolved,
        fun w hw => this.hidden w (Nat.lt_of_lt_of_le hw h.drawn_le)⟩
  sound := h'.sound.mono (by rw [Set.sdiff_sdiff])

/-- Variables that a stretch retires can be taken out of the territory at its end. -/
theorem Steps.retire (h : s.Steps T N s') (hN : ∀ v ∈ N', s.Retires s' v) :
    s.Steps T (N ∪ N') s' where
  drawn_le := h.drawn_le
  le := h.le
  added := h.added
  retires v hv := hv.elim (h.retires v) (hN v)
  sound :=
    { h.sound with
      fresh := fun v hv => ⟨(h.sound.fresh v hv).1, fun hmem => hmem.elim (h.sound.fresh v hv).2
        fun hmem => Nat.not_lt.2 hv (hN v hmem).lt⟩ }

/-- A stretch that retires nothing keeps its territory. -/
theorem Steps.sound_act (h : s.Steps T ∅ s') : s'.Sound T := h.sound.mono Set.sdiff_subset

/-- An act before a stretch belongs to it. -/
theorem Steps.act_trans (h : s.Steps T ∅ s') (h' : s'.Steps T N s'') : s.Steps T N s'' := by
  have hrest : s'.Steps (T \ ∅) N s'' := by rwa [Set.sdiff_empty]
  have := h.trans hrest
  rwa [Set.empty_union] at this

theorem Steps.trans_act (h : s.Steps T N s') (h' : s'.Steps (T \ N) ∅ s'') : s.Steps T N s'' := by
  have := h.trans h'
  rwa [Set.union_empty] at this

end Session

/-! ## Known types, schemes and environments -/

/-- All variables of a type are known. -/
def Ty.Known (T : Set TyVar) (s : Session) (t : Ty) : Prop := ∀ v ∈ t.occurrences, s.Knows T v

/-- A scheme that quantifies over unsolved variables and whose free variables are known. -/
structure Scheme.Known (T : Set TyVar) (s : Session) (σ : Scheme) : Prop where
  /-- No variable is quantified twice. -/
  nodup : σ.vars.Nodup
  /-- Quantified variables are drawn. -/
  below : ∀ v ∈ σ.vars, v < s.drawn
  /-- Quantified variables are not solved. -/
  unsolved : ∀ v ∈ σ.vars, s.subst.get? v = none
  /-- Free variables are known. -/
  free : ∀ v ∈ σ.freeVars, s.Knows T v

/-- All schemes of an environment are known, and what they quantify over is outside the
territory. -/
structure Env.Known (T : Set TyVar) (s : Session) (Γ : Env) : Prop where
  /-- The schemes are known. -/
  scheme : ∀ x σ, Γ.lookup? x = some σ → σ.Known T s
  /-- Quantified variables are outside the territory. -/
  apart : ∀ x σ, Γ.lookup? x = some σ → ∀ v ∈ σ.vars, v ∉ T

section

variable {T T' N : Set TyVar} {s s' : Session}

theorem Ty.Known.mono {t : Ty} (h : T ⊆ T') (ht : t.Known T s) : t.Known T' s :=
  fun v hv => (ht v hv).mono h

theorem Ty.Known.steps (hs : s.Sound T) (h : s.Steps T N s') {t : Ty} (ht : t.Known T s) :
    t.Known (T \ N) s' :=
  fun v hv => h.knows hs (ht v hv)

/-- Acts retire nothing, so known types stay known. -/
theorem Ty.Known.act (hs : s.Sound T) (h : s.Steps T ∅ s') {t : Ty} (ht : t.Known T s) :
    t.Known T s' :=
  (ht.steps hs h).mono Set.sdiff_subset

theorem Scheme.Known.mono {σ : Scheme} (h : T ⊆ T') (hσ : σ.Known T s) : σ.Known T' s :=
  { hσ with free := fun v hv => (hσ.free v hv).mono h }

/-- Known schemes stay known, as what they quantify over is not touched. -/
theorem Scheme.Known.steps (hs : s.Sound T) (h : s.Steps T N s') {σ : Scheme} (hσ : σ.Known T s)
    (hapart : ∀ v ∈ σ.vars, v ∉ T) : σ.Known (T \ N) s' where
  nodup := hσ.nodup
  below v hv := Nat.lt_of_lt_of_le (hσ.below v hv) h.drawn_le
  unsolved v hv := h.get?_of_not_mem (hapart v hv) (hσ.unsolved v hv)
  free v hv := h.knows hs (hσ.free v hv)

/-- Known environments stay known in what a stretch leaves of the territory. -/
theorem Env.Known.steps (hs : s.Sound T) (h : s.Steps T N s') {Γ : Env} (hΓ : Γ.Known T s) :
    Γ.Known (T \ N) s' where
  scheme x σ hx := (hΓ.scheme x σ hx).steps hs h (hΓ.apart x σ hx)
  apart x σ hx v hv hmem := hΓ.apart x σ hx v hv hmem.1

theorem Env.Known.act (hs : s.Sound T) (h : s.Steps T ∅ s') {Γ : Env} (hΓ : Γ.Known T s) :
    Γ.Known T s' := by
  have := hΓ.steps hs h
  rwa [Set.sdiff_empty] at this

/-- An environment can be extended by a known scheme that quantifies over nothing of the
territory. -/
theorem Env.Known.extend {Γ : Env} (hΓ : Γ.Known T s) (x : String) {σ : Scheme}
    (hσ : σ.Known T s) (hapart : ∀ v ∈ σ.vars, v ∉ T) : (Γ.extend x σ).Known T s := by
  constructor <;> intro y τ hy <;> obtain ⟨-, rfl⟩ | ⟨-, hy⟩ := lookup?_extend_eq_some.1 hy
  · exact hσ
  · exact hΓ.scheme y τ hy
  · exact hapart
  · exact hΓ.apart y τ hy

theorem Scheme.mem_freeVars_mono {t : Ty} {v : TyVar} :
    v ∈ (Scheme.mono t).freeVars ↔ v ∈ t.occurrences := by
  simp [Scheme.mem_freeVars, Scheme.mono]

/-- A known type is a known scheme. -/
theorem Scheme.known_mono {t : Ty} (ht : t.Known T s) : (Scheme.mono t).Known T s where
  nodup := List.nodup_nil
  below _ hv := nomatch hv
  unsolved _ hv := nomatch hv
  free v hv := ht v (mem_freeVars_mono.1 hv)

theorem Env.Known.extend_mono {Γ : Env} (hΓ : Γ.Known T s) (x : String) {t : Ty}
    (ht : t.Known T s) : (Γ.extend x (.mono t)).Known T s :=
  hΓ.extend x (Scheme.known_mono ht) nofun

/-- What a known type stands for is in the territory. -/
theorem Ty.Known.mem_of_apply {t : Ty} (ht : t.Known T s) {v : TyVar}
    (hv : v ∈ (s.subst.apply t).occurrences) : v ∈ T := by
  obtain ⟨u, hu, hv⟩ := Subst.mem_apply.1 hv
  exact (ht u hu).2 v hv

/-- What a known type stands for is made of drawn variables. -/
theorem Ty.Known.lt_of_apply (hs : s.Sound T) {t : Ty} (ht : t.Known T s) {v : TyVar}
    (hv : v ∈ (s.subst.apply t).occurrences) : v < s.drawn := by
  obtain ⟨u, hu, hv⟩ := Subst.mem_apply.1 hv
  exact hs.lt_of_mem_apply (ht u hu).1 v hv

/-- Resolving a known type gives a known type. -/
theorem Ty.Known.apply (hs : s.Sound T) {t : Ty} (ht : t.Known T s) :
    (s.subst.apply t).Known T s :=
  fun _ hv => Session.knows_of_get?_eq_none (ht.lt_of_apply hs hv)
    (hs.acyclic.get?_of_mem_apply hv) (ht.mem_of_apply hv)

theorem Ty.known_of_isEmpty {t : Ty} (h : t.occurrences = []) : t.Known T s :=
  fun v hv => by rw [h] at hv; cases hv

/-- A function type is known if parameter and result are. -/
theorem Ty.known_fn {t u : Ty} : (Ty.fn t u).Known T s ↔ t.Known T s ∧ u.Known T s := by
  simp only [Known, occurrences_fn, List.mem_append]
  exact ⟨fun h => ⟨fun v hv => h v (.inl hv), fun v hv => h v (.inr hv)⟩,
    fun ⟨ht, hu⟩ v hv => hv.elim (ht v) (hu v)⟩

theorem Ty.known_tuple {ts : List Ty} : (Ty.tuple ts).Known T s ↔ ∀ t ∈ ts, t.Known T s := by
  simp only [Known, occurrences_tuple, List.mem_flatMap]
  exact ⟨fun h t ht v hv => h v ⟨t, ht, hv⟩, fun h v ⟨t, ht, hv⟩ => h t ht v hv⟩

end

end LetPoly
