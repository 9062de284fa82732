import LetPoly.Proofs.Inference
import LetPoly.Typing.Run

/-!
# Runs over programs

A run types the declarations of a program one after another, each as a definition in the scope of
those before it.  So what holds of a program after a run is what holds of definitions,
strung together: each declaration retires its generic variables, and the rest
of the program is typed in what is left of the territory.

A run starts in the prelude, whose schemes are closed and whose variables are drawn before
anything else.  The territory of a whole run is all that is drawn after them.
-/

namespace LetPoly

/-! ## Declarations and their generic variables -/

/-- The variables that a declaration and the binders in it quantify over. -/
def Decl.generic (d : Decl) : Set TyVar := d.bound.generic ∪ {v | v ∈ d.binder.quantified}

/-- The declaration with a scheme for its name and with the tree of its definition. -/
def Decl.define (d : Decl) (σ : Scheme) (e : Expr) : Decl :=
  { d with binder := { d.binder with scheme := .filled σ }, bound := e }

namespace Program

/-- The variables that the declarations of a program and the binders in them quantify over. -/
def generic (p : Program) : Set TyVar := {v | ∃ d ∈ p, v ∈ d.generic}

/-- The same for all declarations but one. -/
def genericBut (p : Program) (i : Nat) : Set TyVar :=
  {v | ∃ (j : Nat) (d : Decl), j ≠ i ∧ p[j]? = some d ∧ v ∈ d.generic}

/-- Every slot is known in the territory less the generic variables of the rest of the program, and
no variable is quantified by two binders. -/
structure Tidy (T : Set TyVar) (s : Session) (p : Program) : Prop where
  /-- The variables of declarations are generic in nothing else. -/
  own : ∀ (i : Nat) d, p[i]? = some d → ∀ v ∈ d.binder.quantified,
    v ∉ d.bound.generic ∧ v ∉ p.genericBut i
  /-- The schemes of the declarations. -/
  binder : ∀ d ∈ p, ∀ σ, d.binder.scheme = .filled σ → σ.Known (T \ p.generic) s
  /-- The definitions. -/
  bound : ∀ (i : Nat) d, p[i]? = some d → d.bound.Tidy s (T \ p.genericBut i)

/-- What holds of the program `p'` that a run over `p` leaves behind, and of the session at its end.
A run may stop in the middle of a definition. -/
inductive Left : Set TyVar → Program → Program → Session → Session → Prop where
  | nil {T : Set TyVar} {s : Session} (hs : s.Sound T) : Left T [] [] s s
  | stopped {T : Set TyVar} {d : Decl} {ds : Program} {e : Expr} {s s' : Session}
      (hd : d.binder.scheme = .empty) (he : Expr.Left T d.bound e s s')
      (hds : ∀ d ∈ ds, d.clear = d) : Left T (d :: ds) ({ d with bound := e } :: ds) s s'
  | cons {T : Set TyVar} {d : Decl} {ds ds' : Program} {e : Expr} {σ : Scheme}
      {s s₁ s₂ : Session} (hd : Expr.Defined T d.bound e σ s s₁)
      (hds : Left ((T \ e.generic) \ {v | v ∈ σ.vars}) ds ds' s₁ s₂) :
      Left T (d :: ds) (d.define σ e :: ds') s s₂

end Program

/-- A declaration that inference has not reached quantifies over nothing. -/
theorem Decl.generic_of_blank {d : Decl} (h : d.clear = d) : d.generic = ∅ := by
  rw [← h]
  refine Set.eq_empty_of_forall_notMem fun v hv => ?_
  rcases hv with hv | hv
  · rw [show d.clear.bound.generic = ∅ from Expr.generic_clear _] at hv
    exact hv
  · cases hv

theorem Decl.generic_define (d : Decl) (σ : Scheme) (e : Expr) :
    (d.define σ e).generic = e.generic ∪ {v | v ∈ σ.vars} := rfl

namespace Program

variable {T U N : Set TyVar} {s s' s₁ s₂ : Session} {p p' : Program}

theorem generic_cons (d : Decl) (ds : Program) : generic (d :: ds) = d.generic ∪ generic ds := by
  ext v
  simp [generic]

theorem generic_of_blank (h : ∀ d ∈ p, d.clear = d) : p.generic = ∅ :=
  Set.eq_empty_of_forall_notMem fun v ⟨d, hd, hv⟩ => by
    rw [Decl.generic_of_blank (h d hd)] at hv
    exact hv

/-- A run changes nothing in a program but the slots. -/
theorem Left.shape (h : Left T p p' s s') : p'.clear = p.clear := by
  induction h with
  | nil => rfl
  | stopped hd he hds =>
    simp only [clear, List.map_cons, Decl.update]
    exact congrArg₂ _ (congrArg _ he.shape) rfl
  | cons hd hds ih =>
    simp only [clear, List.map_cons, Decl.update] at ih ⊢
    exact congrArg₂ _ (congrArg _ hd.left.shape) ih

/-- A run retires the generic variables of a program, one declaration after the other. -/
theorem Left.steps (h : Left T p p' s s') : s.Steps T p'.generic s' := by
  induction h with
  | nil hs =>
    rw [generic_of_blank (by simp)]
    exact .refl hs
  | @stopped T d ds e s s' hd he hds =>
    have hown : ({ d with bound := e } : Decl).generic = e.generic := by
      simp [Decl.generic, Binder.quantified, hd, Slot.empty]
    rw [generic_cons, generic_of_blank hds, Set.union_empty, hown]
    exact he.steps
  | @cons T d ds ds' e σ s s₁ s₂ hd hds ih =>
    rw [generic_cons, Decl.generic_define]
    exact hd.steps.trans (Set.sdiff_sdiff ▸ ih)

theorem Left.sound (h : Left T p p' s s') : s'.Sound (T \ p'.generic) := h.steps.sound

theorem quantified_of_blank (h : ∀ d ∈ p, d.clear = d) : ∀ d ∈ p, d.binder.quantified = [] := by
  intro d hd
  rw [← h d hd]
  rfl

/-- A program that inference has not reached is tidy. -/
theorem tidy_of_blank (h : ∀ d ∈ p, d.clear = d) : Tidy T s p where
  own i d hd v hv := by
    rw [quantified_of_blank h d (List.mem_of_getElem? hd)] at hv
    cases hv
  binder d hd σ hσ := by
    rw [← h d hd] at hσ
    cases hσ
  bound i d hd := by
    rw [← h d (List.mem_of_getElem? hd)]
    exact Expr.tidy_clear _

/-- A program that is followed by others is tidy apart from their generic variables. -/
theorem Left.tidy (h : Left T p p' s s') : Tidy T s' p' := by
  induction h with
  | nil => exact tidy_of_blank (by simp)
  | @stopped T d ds e s s' hd he hds =>
    refine ⟨?_, ?_, ?_⟩
    · rintro (_ | i) c hc v hv
      · cases hc
        simp [Binder.quantified, hd, Slot.empty] at hv
      · rw [quantified_of_blank hds c (List.mem_of_getElem? hc)] at hv
        cases hv
    · intro c hc σ hσ
      rcases List.mem_cons.1 hc with rfl | hc
      · rw [hd] at hσ
        cases hσ
      · rw [← hds c hc] at hσ
        cases hσ
    · rintro (_ | i) c hc
      · cases hc
        refine he.tidy.mono fun v hv => ⟨hv, ?_⟩
        rintro ⟨_ | j, c, hne, hc, hmem⟩
        · exact hne rfl
        · rw [Decl.generic_of_blank (hds c (List.mem_of_getElem? hc))] at hmem
          exact hmem
      · rw [← hds c (List.mem_of_getElem? hc)]
        exact Expr.tidy_clear _
  | @cons T d ds ds' e σ s s₁ s₂ hd hds ih =>
    have hterritory : T \ generic (d.define σ e :: ds') =
        ((T \ e.generic) \ {v | v ∈ σ.vars}) \ generic ds' := by
      rw [generic_cons, Decl.generic_define, ← Set.sdiff_sdiff, ← Set.sdiff_sdiff]
    refine ⟨?_, ?_, ?_⟩
    · rintro (_ | i) c hc v hv
      · cases hc
        refine ⟨(hd.vars v hv).2, ?_⟩
        rintro ⟨_ | j, c, hne, hc, hmem⟩
        · exact hne rfl
        · have hretired := hds.steps.retires v ⟨c, List.mem_of_getElem? hc, hmem⟩
          exact Nat.not_lt.2 hretired.drawn_le (hd.known.below v hv)
      · refine ⟨(ih.own i c hc v hv).1, ?_⟩
        rintro ⟨_ | j, c', hne, hc', hmem⟩
        · cases hc'
          have hretired := hds.steps.retires v ⟨c, List.mem_of_getElem? hc, .inr hv⟩
          exact Nat.not_lt.2 hretired.drawn_le (hd.steps.retires v hmem).lt
        · exact (ih.own i c hc v hv).2 ⟨j, c', fun h => hne (congrArg Nat.succ h), hc', hmem⟩
    · rw [hterritory]
      intro c hc τ hτ
      rcases List.mem_cons.1 hc with rfl | hc
      · cases hτ
        exact hd.known.steps hd.sound hds.steps fun v hv hmem => hmem.2 hv
      · exact ih.binder c hc τ hτ
    · rintro (_ | i) c hc
      · cases hc
        refine (hd.left.tidy.steps hd.sound hds.steps Set.sdiff_subset).mono fun v hv => ⟨hv.1, ?_⟩
        rintro ⟨_ | j, c, hne, hc, hmem⟩
        · exact hne rfl
        · exact hv.2 ⟨c, List.mem_of_getElem? hc, hmem⟩
      · refine (ih.bound i c hc).mono fun v hv => ⟨hv.1.1.1, ?_⟩
        rintro ⟨_ | j, c, hne, hc, hmem⟩
        · cases hc
          rcases hmem with hmem | hmem
          · exact hv.1.1.2 hmem
          · exact hv.1.2 hmem
        · exact hv.2 ⟨j, c, fun h => hne (congrArg Nat.succ h), hc, hmem⟩

/-! ## Runs -/

/-- What holds when a run over a program has ended. -/
structure Found (T : Set TyVar) (Γ : Env) (p : Program) (s : Session) (p' : Program)
    (s' : Session) : Prop where
  /-- The program and the session. -/
  left : Left T p p' s s'
  /-- The program is a derivation later on. -/
  typed : ∀ S, s'.Later (T \ p'.generic) S →
    (p'.resolve S.subst).Typed Env.Generalizes (Γ.resolve S.subst)

/-- A run leaves a tidy program behind.  It ends with a derivation or stops with an error of the
program, and never breaks a contract. -/
theorem meets_infer (mode : Mode) :
    ∀ {p : Program}, (∀ d ∈ p, d.clear = d) → ∀ {T : Set TyVar} {Γ : Env} {s : Session},
      s.Sound T → Γ.Known T s →
      (Program.infer mode p Γ).Meets s (fun p' _ s' => Found T Γ p s p' s')
        (fun p' f s' => Left T p p' s s' ∧ f.Ordinary)
  | [], _, T, Γ, s, hs, _ => .done ⟨.nil hs, fun _ _ => .nil⟩
  | d :: ds, hblank, T, Γ, s, hs, hΓ => by
    have hd : d.clear = d := hblank d (List.mem_cons_self ..)
    have hds : ∀ d ∈ ds, d.clear = d := fun c hc => hblank c (List.mem_cons_of_mem d hc)
    have hb : d.binder.scheme = .empty := by rw [← hd]; rfl
    have he : d.bound.clear = d.bound := congrArg Decl.bound hd
    rw [Program.infer]
    refine .andThen (Expr.meets_bind hb (Expr.infer_keeps mode d.bound he) hs hΓ) ?_ ?_
    · rintro ⟨b', e'⟩ σ s₁ hbound
      obtain rfl := hbound.binder
      have hlog (l : List Event) := Session.Steps.log hbound.defined.sound l
      refine .andThen (s := { s₁ with log := _ :: s₁.log })
        (meets_infer mode hds (hlog _).sound_act
          ((hbound.env_known hs hΓ).act hbound.defined.sound (hlog _))) ?_ ?_
      · intro ds' _ s₂ hfound
        have hleft : Left T (d :: ds) (d.define σ e' :: ds') s s₂ :=
          .cons (hbound.defined.act (hlog _)) hfound.left
        refine .done ⟨hleft, fun S hS => ?_⟩
        change s₂.Later (T \ generic (d.define σ e' :: ds')) S at hS
        rw [generic_cons, Decl.generic_define, ← Set.sdiff_sdiff, ← Set.sdiff_sdiff] at hS
        obtain ⟨t, htyped, hadmits, hgeneralizes⟩ :=
          hbound.typed S ((hS.after hfound.left.steps).after_act (hlog _))
        have hrest := hfound.typed S hS
        rw [Env.resolve_extend] at hrest
        exact .cons htyped hadmits rfl hgeneralizes hrest
      · rintro ds' f s₂ ⟨hleft, hf⟩
        exact ⟨.cons (hbound.defined.act (hlog _)) hleft, hf⟩
    · rintro ⟨b', e'⟩ f s₁ ⟨rfl, hleft, hf⟩
      exact ⟨.stopped hb hleft hds, hf⟩

end Program

/-! ## The prelude -/

namespace Prelude

/-- A name of the prelude has its entry, or it was there before. -/
theorem lookup?_foldl (entries : List (String × Scheme)) (Γ : Env) {x : String} {σ : Scheme}
    (h : (entries.foldl (fun env e => env.extend e.1 e.2) Γ).lookup? x = some σ) :
    (x, σ) ∈ entries ∨ Γ.lookup? x = some σ := by
  induction entries generalizing Γ with
  | nil => exact .inr h
  | cons e entries ih =>
    rcases ih (Γ.extend e.1 e.2) h with h | h
    · exact .inl (List.mem_cons_of_mem e h)
    · obtain ⟨rfl, rfl⟩ | ⟨-, h⟩ := Env.lookup?_extend_eq_some.1 h
      · exact .inl (List.mem_cons_self ..)
      · exact .inr h

/-- The schemes of the prelude are those of its entries. -/
theorem mem_entries_of_lookup? {x : String} {σ : Scheme} (h : env.lookup? x = some σ) :
    (x, σ) ∈ entries := by
  rcases lookup?_foldl entries .empty h with h | h
  · exact h
  · simp [Env.lookup?, Env.empty] at h

/-- The schemes of the prelude are closed, and quantify over the variables that it draws. -/
theorem entries_closed : ∀ e ∈ entries, e.2.vars.Nodup ∧ (∀ v ∈ e.2.vars, v < drawn) ∧
    ∀ v ∈ e.2.ty.occurrences, v ∈ e.2.vars := by
  decide

/-- The variables that are drawn after the prelude. -/
def territory : Set TyVar := {v | drawn ≤ v}

theorem isClosed_of_lookup? {x : String} {σ : Scheme} (h : env.lookup? x = some σ) : σ.isClosed :=
  Scheme.isClosed_iff.2 (entries_closed _ (mem_entries_of_lookup? h)).2.2

/-- So no substitution changes the prelude. -/
theorem resolve_env (r : Subst) : env.resolve r = env := by
  refine Env.ext fun x => ?_
  rw [Env.lookup?_resolve]
  cases hx : env.lookup? x with
  | none => rfl
  | some σ => exact congrArg some (r.applyScheme_of_isClosed (isClosed_of_lookup? hx))

/-- A run starts soundly in what is drawn after the prelude. -/
theorem start_sound : Session.start.Sound territory where
  acyclic := Subst.acyclic_empty
  below v t h := by
    rw [show Session.start.subst = .empty from rfl, Subst.get?_empty] at h
    cases h
  fresh _ hv := hv

/-- The prelude is known there. -/
theorem env_known : env.Known territory Session.start where
  scheme x σ hx := by
    obtain ⟨hnodup, hbelow, hclosed⟩ := entries_closed _ (mem_entries_of_lookup? hx)
    refine ⟨hnodup, hbelow, fun v _ => Subst.get?_empty v, fun v hv => ?_⟩
    obtain ⟨hocc, hvars⟩ := Scheme.mem_freeVars.1 hv
    exact absurd (hclosed v hocc) hvars
  apart x σ hx v hv hmem :=
    absurd ((entries_closed _ (mem_entries_of_lookup? hx)).2.1 v hv) (Nat.not_lt.2 hmem)

end Prelude

theorem Program.clear_blank (p : Program) : ∀ d ∈ p.clear, d.clear = d := by
  intro d hd
  obtain ⟨c, -, rfl⟩ := List.mem_map.1 hd
  exact congrArg (Decl.mk _ _) (Expr.clear_clear c.bound)

/-- What holds of the walk of a whole program. -/
theorem Program.meets_walk (mode : Mode) (p : Program) :
    (Program.infer mode p.clear Prelude.env).Meets Session.start
      (fun p' _ s' => Found Prelude.territory Prelude.env p.clear Session.start p' s')
      (fun p' f s' => Left Prelude.territory p.clear p' Session.start s' ∧ f.Ordinary) :=
  meets_infer mode p.clear_blank Prelude.start_sound Prelude.env_known

/-! ## Whole runs -/

/-- The walk of a program stopped with an error. -/
structure Program.Failed (mode : Mode) (p q : Program) (e : TypeError) (s : Session) : Prop where
  /-- The walk. -/
  walk : Program.infer mode p.clear Prelude.env Session.start = ((q, .error (.error e)), s)
  /-- What is left. -/
  left : Left Prelude.territory p.clear q Session.start s
  /-- The error is not an ambiguity. -/
  ordinary : ¬ e.IsAmbiguous
  /-- The program of the run. -/
  program : (p.inferTypes mode).program = q
  /-- The verdict of the run. -/
  verdict : (p.inferTypes mode).verdict = .illTyped [e]

/-- The walk of a program ended, and its slots were resolved. -/
structure Program.Walked (mode : Mode) (p q : Program) (s : Session) : Prop where
  /-- The walk. -/
  walk : Program.infer mode p.clear Prelude.env Session.start = ((q, .ok ()), s)
  /-- What is left. -/
  found : Found Prelude.territory Prelude.env p.clear Session.start q s
  /-- The program of the run. -/
  program : (p.inferTypes mode).program = q.resolve s.subst
  /-- The program has types if no type is ambiguous. -/
  typed : (p.inferTypes mode).verdict = .typed ↔ (q.resolve s.subst).ambiguities = []
  /-- Otherwise the errors are the ambiguities. -/
  illTyped : ∀ es, (p.inferTypes mode).verdict = .illTyped es ↔
    (q.resolve s.subst).ambiguities = es ∧ es ≠ []

/-- A run fails on the walk, or comes to assemble the types.  It never breaks a contract. -/
theorem Program.failed_or_walked (mode : Mode) (p : Program) :
    (∃ q e s, p.Failed mode q e s) ∨ ∃ q s, p.Walked mode q s := by
  have hmeets := p.meets_walk mode
  rcases hwalk : Program.infer mode p.clear Prelude.env Session.start with ⟨⟨q, f | u⟩, s⟩
  · obtain ⟨hleft, e, rfl, he⟩ := hmeets.of_error hwalk
    refine .inl ⟨q, e, s, hwalk, hleft, he, ?_, ?_⟩ <;> rw [Program.inferTypes, hwalk]
  · refine .inr ⟨q, s, hwalk, hmeets.of_ok hwalk, ?_, ?_, fun es => ?_⟩ <;>
      rw [Program.inferTypes, hwalk] <;> dsimp only <;> split <;> grind

/-- The tree of a run whose walk ended is a derivation. -/
theorem Program.Walked.derivation {mode : Mode} {p q : Program} {s : Session}
    (h : p.Walked mode q s) : (q.resolve s.subst).Typed Env.Generalizes Prelude.env := by
  have hsound := h.found.left.sound
  have htyped := h.found.typed s ⟨∅, .refl hsound⟩
  rwa [Prelude.resolve_env] at htyped

/-- To resolve a program is to apply the substitution to its types and schemes. -/
theorem Program.resolve_eq (p : Program) (r : Subst) :
    p.resolve r = p.retype r.apply r.applyScheme :=
  rfl

theorem Program.clear_resolve (p : Program) (r : Subst) : (p.resolve r).clear = p.clear :=
  clear_retype ..

/-- A run changes nothing but slots. -/
theorem Program.clear_inferTypes (mode : Mode) (p : Program) :
    (p.inferTypes mode).program.clear = p.clear := by
  obtain ⟨q, e, s, h⟩ | ⟨q, s, h⟩ := p.failed_or_walked mode
  · rw [h.program, h.left.shape, clear_clear]
  · rw [h.program, clear_resolve, h.found.left.shape, clear_clear]

/-! ## A sample -/

/-- A function that uses a local definition at two types, `fn x => let f = fn y => y in (f x, f 1)`,
with the types that it has if `x` is a truth value. -/
def Program.sample : Program :=
  let mark (t : Ty) : Mark := ⟨⟨0, 0, 0⟩, .filled t⟩
  let binder (x : String) (σ : Scheme) : Binder := ⟨x, ⟨0, 0, 0⟩, none, .filled σ⟩
  let pair := Ty.tuple [.bool, .int]
  [⟨⟨0, 0, 0⟩, binder "pair" (.mono (.fn .bool pair)),
    .lam (mark (.fn .bool pair)) (binder "x" (.mono .bool))
      (.letIn (mark pair) (binder "f" ⟨[7], .fn (.var 7) (.var 7)⟩)
        (.lam (mark (.fn (.var 7) (.var 7))) (binder "y" (.mono (.var 7)))
          (.name (mark (.var 7)) "y"))
        (.tuple (mark pair)
          [.app (mark .bool) (.name (mark (.fn .bool .bool)) "f") (.name (mark .bool) "x"),
            .app (mark .int) (.name (mark (.fn .int .int)) "f") (.lit (mark .int) (.int 1))]))⟩]

end LetPoly
