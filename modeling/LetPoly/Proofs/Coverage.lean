import LetPoly.Proofs.Visits

/-!
# What a run visits

The tree that a run leaves behind is filled by its visits only: a part of the tree that is not blank
has been visited (`Program.visited`).  So the environments of the visits are all the
environments that a run has used where it has found something.

Each rule either comes to a part or leaves it as it was.  `Expr.Covered` says this of all parts of a
node, and is shown by going through the rules.
-/

namespace LetPoly

/-- Comparing with a demand leaves the tree as it is. -/
theorem Walk.Yields.settle {goal : Goal} {span : Span} {w : Walk Expr Ty} {s : Session}
    {P : Expr → Prop} (h : w.Yields s fun e _ => P e) :
    (goal.settle span w).Yields s fun e _ => P e := by
  cases goal with
  | none => exact h
  | some d =>
    refine .andThen (fun e f s' hw => h.of_run hw) fun e t s' hw => ?_
    exact .act (fun _ _ _ => h.of_run hw) fun _ _ _ => h.of_run hw

/-! ## Parts of a node -/

namespace Expr

/-- A part of the tree that is left is blank, or it is left by a walk whose visits are visits of the
whole. -/
inductive Comes (mode : Mode) (e : Expr) (Γ : Env) (goal : Goal) (s : Session) (i : Nat) :
    Expr → Prop where
  | blank {c : Expr} (hc : c.clear = c) : Comes mode e Γ goal s i c
  | visited {c : Expr} {Γ₁ : Env} {g : Goal} {s₁ : Session} (hc : c ∈ e.children)
      (h : ∀ {π Γ' s'}, c.Visits mode Γ₁ g s₁ π Γ' s' → e.Visits mode Γ goal s (i :: π) Γ' s') :
      Comes mode e Γ goal s i (infer mode c Γ₁ g s₁).1.1

/-- The parts of a tree that is left, from a number on, are blank or visited. -/
def ComesAll (mode : Mode) (e : Expr) (Γ : Env) (goal : Goal) (s : Session) (i : Nat)
    (cs : List Expr) : Prop :=
  ∀ j c, cs[j]? = some c → Comes mode e Γ goal s (i + j) c

/-- Every part of the tree that is left is blank or visited. -/
def Covered (mode : Mode) (e : Expr) (Γ : Env) (goal : Goal) (s : Session) (e' : Expr) : Prop :=
  ComesAll mode e Γ goal s 0 e'.children

section

variable {mode : Mode} {e c c' : Expr} {cs : List Expr} {Γ Γ₁ : Env} {goal g : Goal}
  {s s₁ s₂ : Session} {i j : Nat} {r : Except (Fault TypeError) Ty}

/-- A part that the run walks is one that it comes to. -/
theorem Comes.of_run (hrun : infer mode c Γ₁ g s₁ = ((c', r), s₂)) (hc : c ∈ e.children)
    (h : ∀ {π Γ' s'}, c.Visits mode Γ₁ g s₁ π Γ' s' → e.Visits mode Γ goal s (i :: π) Γ' s') :
    Comes mode e Γ goal s i c' := by
  have hvisited : Comes mode e Γ goal s i (infer mode c Γ₁ g s₁).1.1 := .visited hc h
  rw [hrun] at hvisited
  exact hvisited

theorem ComesAll.nil : ComesAll mode e Γ goal s i [] := by
  intro j c hc
  cases hc

/-- Parts are come to one after the other. -/
theorem ComesAll.cons (hc : Comes mode e Γ goal s i c) (hcs : ComesAll mode e Γ goal s (i + 1) cs) :
    ComesAll mode e Γ goal s i (c :: cs) := by
  intro j c' hc'
  cases j with
  | zero =>
    cases hc'
    exact hc
  | succ j =>
    rw [← Nat.add_assoc, Nat.add_right_comm]
    exact hcs j c' hc'

end

/-! ## The rules -/

section

variable {mode : Mode} {m : Mark} {a b c d e f n y : Expr} {p : Binder} {t : TypeExpr}
  {es : List Expr}
  {Γ : Env} {goal : Goal} {s : Session}

/-- A call is covered: callee and argument are walked, or the tree is as it was. -/
theorem covered_app (ha : a.clear = a) :
    (infer mode (app m f a) Γ goal).Yields s fun e' _ => Covered mode (app m f a) Γ goal s e' := by
  have hmem : f ∈ (app m f a).children ∧ a ∈ (app m f a).children := by simp [children]
  rw [infer]
  refine .settle (.andThen (fun f' x s₁ hf' => ?_) fun f' u s₁ hf' => ?_)
  · exact .cons (.of_run hf' hmem.1 .callee) (.cons (.blank ha) .nil)
  · have hcov (m' : Mark) {a' : Expr} {r : Except (Fault TypeError) Ty} {s₂ : Session}
        (ha' : infer mode a Γ ((Infer.calleeTy? mode u s₁).map fun r => ⟨.argument, r.1⟩) s₁ =
          ((a', r), s₂)) : Covered mode (app m f a) Γ goal s (app m' f' a') :=
      .cons (.of_run hf' hmem.1 .callee) (.cons (.of_run ha' hmem.2 (.argument hf')) .nil)
    cases hcallee : Infer.calleeTy? mode u s₁ with
    | some r =>
      rw [hcallee] at hcov
      refine .congr (by simp only [hcallee]; rfl) ?_
      exact .andThen (fun a' x s₂ ha' => hcov m ha') fun a' t s₂ ha' =>
        .annotate fun m' => hcov m' ha'
    | none =>
      rw [hcallee] at hcov
      refine .congr (by simp only [hcallee]; rfl) ?_
      exact .andThen (fun a' x s₂ ha' => hcov m ha') fun a' t s₂ ha' =>
        .act (fun _ _ _ => hcov m ha') fun _ _ _ =>
        .act (fun _ _ _ => hcov m ha') fun _ _ _ => .annotate fun m' => hcov m' ha'

theorem covered_lam (hp : p.scheme = .empty) (hb : b.clear = b) :
    (infer mode (lam m p b) Γ goal).Yields s fun e' _ => Covered mode (lam m p b) Γ goal s e' := by
  have hmem : b ∈ (lam m p b).children := by simp [children]
  have hblank : Covered mode (lam m p b) Γ goal s (lam m p b) := .cons (.blank hb) .nil
  obtain ⟨c, t, u, hpush, hfn, hrun⟩ | ⟨hpush, hrun⟩ := infer_lam mode m Γ goal s p b
  · refine .congr hrun (.act (fun _ _ _ => hblank) fun r s₁ hr => .fillEmpty hp ?_)
    have hcov {m' : Mark} {p' : Binder} {b' : Expr} {x : Except (Fault TypeError) Ty} {s₂ : Session}
        (hb' : infer mode b (Γ.extend p.name (.mono r)) (some ⟨c.because, u⟩) s₁ = ((b', x), s₂)) :
        Covered mode (lam m p b) Γ goal s (lam m' p' b') :=
      .cons (.of_run hb' hmem (.lamAgainst hpush hfn hr hp)) .nil
    exact .andThen (fun b' x s₂ hb' => hcov hb') fun b' _ s₂ hb' => .annotate fun _ => hcov hb'
  · refine .congr hrun (.settle (.act (fun _ _ _ => hblank) fun t s₁ ht => .fillEmpty hp ?_))
    have hcov {m' : Mark} {p' : Binder} {b' : Expr} {x : Except (Fault TypeError) Ty} {s₂ : Session}
        (hb' : infer mode b (Γ.extend p.name (.mono t)) none s₁ = ((b', x), s₂)) :
        Covered mode (lam m p b) Γ goal s (lam m' p' b') :=
      .cons (.of_run hb' hmem (.lam hpush ht hp)) .nil
    exact .andThen (fun b' x s₂ hb' => hcov hb') fun b' _ s₂ hb' => .annotate fun _ => hcov hb'

theorem covered_anno (he : e.clear = e) :
    (infer mode (anno m e t) Γ goal).Yields s fun e' _ =>
      Covered mode (anno m e t) Γ goal s e' := by
  have hmem : e ∈ (anno m e t).children := by simp [children]
  rw [infer]
  refine .settle (.act (fun _ _ _ => .cons (.blank he) .nil) fun c s₁ hc => ?_)
  exact .andThen (fun e' x s₂ he' => .cons (.of_run he' hmem (.inner hc)) .nil)
    fun e' _ s₂ he' => .annotate fun _ => .cons (.of_run he' hmem (.inner hc)) .nil

/-- The definition of a binder is walked if there is a goal for it. -/
theorem walked_of_bind {b b' : Binder} {d' : Expr} {x : Except (Fault TypeError) Scheme}
    {s₁ : Session} (h : Infer.bind b d (infer mode d) Γ s = (((b', d'), x), s₁)) :
    d' = d ∨ ∃ g s₂, Infer.boundGoal b s = (.ok g, s₂) ∧ d' = (infer mode d Γ g s₂).1.1 := by
  cases hg : Infer.boundGoal b s with
  | mk r s₂ =>
    cases r with
    | error f =>
      have hrun : Infer.bind b d (infer mode d) Γ s = (((b, d), .error f), s₂) := by
        rw [Infer.bind, Walk.act, hg]
      cases h.symm.trans hrun
      exact .inl rfl
    | ok g =>
      have htree := (@leaves_bind b d Γ g s s₂ (infer mode d) hg).1
      rw [h] at htree
      exact .inr ⟨g, s₂, rfl, htree⟩

/-- The definition of a local definition is come to. -/
theorem comes_bound {b b' : Binder} {d' : Expr} {x : Except (Fault TypeError) Scheme} {s₁ : Session}
    (hd : d.clear = d) (h : Infer.bind b d (infer mode d) Γ s = (((b', d'), x), s₁)) :
    Comes mode (letIn m b d e) Γ goal s 0 d' := by
  rcases walked_of_bind h with rfl | ⟨g, s₂, hg, rfl⟩
  · exact .blank hd
  · exact .visited (by simp [children]) (.bound hg)

theorem covered_letIn {b : Binder} (hd : d.clear = d) (he : e.clear = e) :
    (infer mode (letIn m b d e) Γ goal).Yields s fun e' _ =>
      Covered mode (letIn m b d e) Γ goal s e' := by
  have hmem : e ∈ (letIn m b d e).children := by simp [children]
  have hcov {m' : Mark} {b' : Binder} {d' e' : Expr} {σ : Scheme} {s₁ s₂ : Session}
      {x : Except (Fault TypeError) Ty}
      (hd' : Infer.bind b d (infer mode d) Γ s = (((b', d'), .ok σ), s₁))
      (he' : infer mode e (Γ.extend b'.name σ) (mode.pushed? goal s) s₁ = ((e', x), s₂)) :
      Covered mode (letIn m b d e) Γ goal s (letIn m' b' d' e') :=
    .cons (comes_bound hd hd') (.cons (.of_run he' hmem (.body hd')) .nil)
  obtain ⟨c, hpush, hrun⟩ | ⟨hpush, hrun⟩ := infer_letIn mode m Γ goal s b d e
  · rw [hpush] at hcov
    refine .congr hrun (.andThen (fun q x s₁ hd' => ?_) fun q σ s₁ hd' => ?_)
    · exact .cons (comes_bound hd hd') (.cons (.blank he) .nil)
    · exact .andThen (fun e' x s₂ he' => hcov hd' he') fun e' _ s₂ he' =>
        .annotate fun _ => hcov hd' he'
  · rw [hpush] at hcov
    refine .congr hrun (.settle (.andThen (fun q x s₁ hd' => ?_) fun q σ s₁ hd' => ?_))
    · exact .cons (comes_bound hd hd') (.cons (.blank he) .nil)
    · exact .andThen (fun e' x s₂ he' => hcov hd' he') fun e' _ s₂ he' =>
        .annotate fun _ => hcov hd' he'

/-- A conditional is covered, in both modes and against a demand. -/
theorem covered_cond (hy : y.clear = y) (hn : n.clear = n) :
    (infer mode (cond m c y n) Γ goal).Yields s fun e' _ =>
      Covered mode (cond m c y n) Γ goal s e' := by
  have hmem : c ∈ (cond m c y n).children ∧ y ∈ (cond m c y n).children ∧
      n ∈ (cond m c y n).children := by
    simp [children]
  have htest {m' : Mark} {c' : Expr} {x : Except (Fault TypeError) Ty} {s₁ : Session}
      (hc' : infer mode c Γ (some Infer.truthValue) s = ((c', x), s₁)) :
      Covered mode (cond m c y n) Γ goal s (cond m' c' y n) :=
    .cons (.of_run hc' hmem.1 .test) (.cons (.blank hy) (.cons (.blank hn) .nil))
  have hyes {m' : Mark} {c' y' : Expr} {t : Ty} {x : Except (Fault TypeError) Ty} {s₁ s₂ : Session}
      (hc' : infer mode c Γ (some Infer.truthValue) s = ((c', .ok t), s₁))
      (hy' : infer mode y Γ (mode.yesGoal goal m s) s₁ = ((y', x), s₂)) :
      Covered mode (cond m c y n) Γ goal s (cond m' c' y' n) :=
    .cons (.of_run hc' hmem.1 .test) (.cons (.of_run hy' hmem.2.1 (.yes hc'))
      (.cons (.blank hn) .nil))
  have hno {m' : Mark} {c' y' n' : Expr} {t u : Ty} {x : Except (Fault TypeError) Ty}
      {s₁ s₂ s₃ : Session} (hc' : infer mode c Γ (some Infer.truthValue) s = ((c', .ok t), s₁))
      (hy' : infer mode y Γ (mode.yesGoal goal m s) s₁ = ((y', .ok u), s₂))
      (hn' : infer mode n Γ (mode.noGoal goal m s u) s₂ = ((n', x), s₃)) :
      Covered mode (cond m c y n) Γ goal s (cond m' c' y' n') :=
    .cons (.of_run hc' hmem.1 .test) (.cons (.of_run hy' hmem.2.1 (.yes hc'))
      (.cons (.of_run hn' hmem.2.2 (.no hc' hy')) .nil))
  unfold Mode.noGoal at hno
  obtain ⟨d, hgoal, hrun⟩ | ⟨hgoal, hrun⟩ := infer_cond mode m Γ goal s c y n
  · rw [hgoal] at hyes hno
    refine .congr hrun (.andThen (fun c' x s₁ hc' => htest hc') fun c' _ s₁ hc' => ?_)
    refine .andThen (fun y' x s₂ hy' => hyes hc' hy') fun y' _ s₂ hy' => ?_
    exact .andThen (fun n' x s₃ hn' => hno hc' hy' hn') fun n' _ s₃ hn' =>
      .annotate fun _ => hno hc' hy' hn'
  · rw [hgoal] at hyes hno
    refine .congr hrun (.settle (.andThen (fun c' x s₁ hc' => htest hc') fun c' _ s₁ hc' => ?_))
    refine .andThen (fun y' x s₂ hy' => hyes hc' hy') fun y' u s₂ hy' => ?_
    cases mode with
    | bottomUp =>
      exact .andThen (fun n' x s₃ hn' => hno hc' hy' hn') fun n' _ s₃ hn' =>
        .act (fun _ _ _ => hno hc' hy' hn') fun _ _ _ => .annotate fun _ => hno hc' hy' hn'
    | topDown =>
      exact .andThen (fun n' x s₃ hn' => hno hc' hy' hn') fun n' _ s₃ hn' =>
        .annotate fun _ => hno hc' hy' hn'

/-- The elements of a list are left blank or visited. -/
theorem comes_inferAll {goals : List Goal} (hes : ∀ e ∈ es, e.clear = e) :
    (inferAll mode es Γ goals).Yields s (fun es' _ => ∀ i c', es'[i]? = some c' →
      c'.clear = c' ∨ ∃ c ∈ es, ∃ g s₁, VisitsElem mode Γ es goals s i c g s₁ ∧
        c' = (infer mode c Γ g s₁).1.1) := by
  induction es generalizing goals s with
  | nil =>
    intro i c' hc'
    cases hc'
  | cons e es ih =>
    have hblank : ∀ e ∈ es, e.clear = e := fun e he => hes e (List.mem_cons_of_mem _ he)
    rw [inferAll]
    have hhead {e' : Expr} {x : Except (Fault TypeError) Ty} {s₁ : Session}
        (he' : infer mode e Γ (goals.headD none) s = ((e', x), s₁)) :
        ∃ c ∈ e :: es, ∃ g s₁, VisitsElem mode Γ (e :: es) goals s 0 c g s₁ ∧
          e' = (infer mode c Γ g s₁).1.1 :=
      ⟨e, List.mem_cons_self .., goals.headD none, s, .head, by rw [he']⟩
    refine .andThen (fun e' x s₁ he' i c' hc' => ?_) fun e' t s₁ he' => ?_
    · cases i with
      | zero =>
        cases hc'
        exact .inr (hhead he')
      | succ i => exact .inl (hblank c' (List.mem_of_getElem? hc'))
    · have hcons {es' : List Expr} {x : Except (Fault TypeError) (List Ty)} {s₂ : Session}
          (hes' : inferAll mode es Γ goals.tail s₁ = ((es', x), s₂)) (i : Nat) (c' : Expr)
          (hc' : (e' :: es')[i]? = some c') : c'.clear = c' ∨ ∃ c ∈ e :: es, ∃ g s₁,
            VisitsElem mode Γ (e :: es) goals s i c g s₁ ∧ c' = (infer mode c Γ g s₁).1.1 := by
        cases i with
        | zero =>
          cases hc'
          exact .inr (hhead he')
        | succ i =>
          have htail := (@ih s₁ goals.tail hblank).of_run hes'
          refine (htail i c' hc').imp_right ?_
          rintro ⟨c, hc, g, s₃, hvisit, hc'⟩
          exact ⟨c, List.mem_cons_of_mem e hc, g, s₃, .tail he' hvisit, hc'⟩
      exact .andThen (fun es' x s₂ hes' => hcons hes') fun es' ts s₂ hes' => hcons hes'

theorem covered_tuple (hes : ∀ e ∈ es, e.clear = e) :
    (infer mode (tuple m es) Γ goal).Yields s fun e' _ =>
      Covered mode (tuple m es) Γ goal s e' := by
  have hcov {m' : Mark} {es' : List Expr} {x : Except (Fault TypeError) (List Ty)} {s₁ : Session}
      (hes' : inferAll mode es Γ (mode.elemGoals goal es s) s = ((es', x), s₁)) :
      Covered mode (tuple m es) Γ goal s (tuple m' es') := by
    have helems := (@comes_inferAll mode es Γ s (mode.elemGoals goal es s) hes).of_run hes'
    intro i c' hc'
    rw [Nat.zero_add]
    rcases helems i c' hc' with hblank | ⟨c, hc, g, s₂, hvisit, rfl⟩
    · exact .blank hblank
    · exact .visited hc (.elem hvisit)
  obtain ⟨d, ts, -, -, -, hgoals, hrun⟩ | ⟨hgoals, hrun⟩ := infer_tuple mode m Γ goal s es
  · rw [hgoals] at hcov
    refine .congr hrun ?_
    exact .andThen (fun es' x s₁ hes' => hcov hes') fun es' _ s₁ hes' =>
      .annotate fun _ => hcov hes'
  · rw [hgoals] at hcov
    refine .congr hrun (.settle ?_)
    exact .andThen (fun es' x s₁ hes' => hcov hes') fun es' _ s₁ hes' =>
      .annotate fun _ => hcov hes'

end

/-- Every part of the tree that is left by inference is blank or visited. -/
theorem covered_infer (mode : Mode) {e : Expr} (he : e.clear = e) (Γ : Env) (goal : Goal)
    (s : Session) : (infer mode e Γ goal).Yields s fun e' _ => Covered mode e Γ goal s e' := by
  cases e with
  | lit m l =>
    rw [infer]
    exact .settle (.annotate fun _ => .nil)
  | name m x =>
    rw [infer]
    refine .settle ?_
    unfold Infer.name
    cases Γ.lookup? x with
    | some σ => exact .act (fun _ _ _ => .nil) fun _ _ _ => .annotate fun _ => .nil
    | none => exact ComesAll.nil
  | lam m p b =>
    rw [clear_lam] at he
    injection he with _ hp hb
    exact covered_lam (Binder.scheme_of_blank hp) hb
  | app m f a =>
    rw [clear_app] at he
    injection he with _ _ ha
    exact covered_app ha
  | letIn m b d e =>
    rw [clear_letIn] at he
    injection he with _ _ hd he
    exact covered_letIn hd he
  | cond m c y n =>
    rw [clear_cond] at he
    injection he with _ _ hy hn
    exact covered_cond hy hn
  | anno m e t =>
    rw [clear_anno] at he
    injection he with _ he
    exact covered_anno he
  | tuple m es =>
    rw [clear_tuple] at he
    injection he with _ hes
    exact covered_tuple (List.map_inj_left.1 (hes.trans (List.map_id' es).symm))
  | invalid m =>
    rw [infer]
    exact .settle (.act (fun _ _ _ => .nil) fun _ _ _ => .annotate fun _ => .nil)

/-! ## Whole trees -/

variable {mode : Mode} {e c : Expr} {Γ : Env} {goal : Goal} {s : Session} {π : List Nat}

theorem blank_of_mem_children (he : e.clear = e) (hc : c ∈ e.children) : c.clear = c := by
  have hchildren : e.children.map clear = e.children := by rw [← children_clear, he]
  exact List.map_inj_left.1 (hchildren.trans (List.map_id' _).symm) c hc

theorem blank_of_at? (he : e.clear = e) (hc : e.at? π = some c) : c.clear = c := by
  induction π generalizing e with
  | nil =>
    cases hc
    exact he
  | cons i π ih =>
    obtain ⟨d, hd, hc⟩ := at?_cons hc
    exact ih (blank_of_mem_children he (List.mem_of_getElem? hd)) hc

/-- A part of the tree that inference leaves has been visited, unless it is blank. -/
theorem visited (he : e.clear = e) (hc : (infer mode e Γ goal s).1.1.at? π = some c)
    (hfilled : c.clear ≠ c) : ∃ Γ' s', e.Visits mode Γ goal s π Γ' s' := by
  induction π generalizing e Γ goal s with
  | nil => exact ⟨Γ, s, .here⟩
  | cons i π ih =>
    obtain ⟨c₀, hc₀, hc⟩ := at?_cons hc
    have hcomes := covered_infer mode he Γ goal s i c₀ hc₀
    rw [Nat.zero_add] at hcomes
    cases hcomes with
    | blank hblank => exact absurd (blank_of_at? hblank hc) hfilled
    | visited hmem hstep =>
      obtain ⟨Γ', s', hvisit⟩ := ih (blank_of_mem_children he hmem) hc
      exact ⟨Γ', s', hstep hvisit⟩

end Expr

namespace Program

theorem blank_of_at? {p : Program} {κ : Place} {c : Expr} (hp : ∀ d ∈ p, d.clear = d)
    (hc : p.at? κ = some c) : c.clear = c := by
  cases κ with
  | nil => cases hc
  | cons i π =>
    obtain ⟨d, hd, hc⟩ := at?_cons hc
    exact Expr.blank_of_at? (congrArg Decl.bound (hp d (List.mem_of_getElem? hd))) hc

/-- An expression of the program that a run leaves has been visited, unless it is blank. -/
theorem visited (mode : Mode) {p : Program} (hp : ∀ d ∈ p, d.clear = d) (Γ : Env) (s : Session) :
    (Program.infer mode p Γ).Yields s (fun q _ => ∀ κ c, q.at? κ = some c → c.clear ≠ c →
      ∃ Γ' s', p.Visits mode Γ s κ Γ' s') := by
  induction p generalizing Γ s with
  | nil =>
    intro κ c hc
    cases κ with
    | nil => cases hc
    | cons => cases hc
  | cons d ds ih =>
    have hd : d.bound.clear = d.bound := congrArg Decl.bound (hp d (List.mem_cons_self ..))
    have hds : ∀ d ∈ ds, d.clear = d := fun c hc => hp c (List.mem_cons_of_mem d hc)
    have hhead {b : Binder} {e c : Expr} {π : List Nat} {x : Except (Fault TypeError) Scheme}
        {s₁ : Session}
        (hbind : Infer.bind d.binder d.bound (d.bound.infer mode) Γ s = (((b, e), x), s₁))
        (hc : e.at? π = some c) (hfilled : c.clear ≠ c) :
        ∃ Γ' s', Visits mode (d :: ds) Γ s (0 :: π) Γ' s' := by
      rcases Expr.walked_of_bind hbind with rfl | ⟨g, s₂, hg, rfl⟩
      · exact absurd (Expr.blank_of_at? hd hc) hfilled
      · obtain ⟨Γ', s', hvisit⟩ := Expr.visited hd hc hfilled
        exact ⟨Γ', s', .head hg hvisit⟩
    rw [Program.infer]
    refine .andThen (fun q x s₁ hbind κ c hc hfilled => ?_) fun q σ s₁ hbind => ?_
    · cases κ with
      | nil => cases hc
      | cons i π =>
        cases i with
        | zero => exact hhead hbind hc hfilled
        | succ i =>
          have hc' : at? ds (i :: π) = some c := hc
          exact absurd (blank_of_at? hds hc') hfilled
    · obtain ⟨b, e⟩ := q
      have hcons {ds' : Program} {x : Except (Fault TypeError) Unit} {s₂ : Session}
          (hds' : Program.infer mode ds (Γ.extend d.binder.name σ)
            { s₁ with log := .inferred d.binder.name σ :: s₁.log } = ((ds', x), s₂))
          (κ : Place) (c : Expr) (hc : at? ({ d with binder := b, bound := e } :: ds') κ = some c)
          (hfilled : c.clear ≠ c) : ∃ Γ' s', Visits mode (d :: ds) Γ s κ Γ' s' := by
        cases κ with
        | nil => cases hc
        | cons i π =>
          cases i with
          | zero => exact hhead hbind hc hfilled
          | succ i =>
            have hvisited := (ih hds (Γ.extend d.binder.name σ)
              { s₁ with log := .inferred d.binder.name σ :: s₁.log }).of_run hds'
            obtain ⟨Γ', s', hvisit⟩ := hvisited (i :: π) c hc hfilled
            exact ⟨Γ', s', .tail hbind hvisit⟩
      exact .log (.andThen (fun ds' x s₂ hds' => hcons hds') fun ds' _ s₂ hds' => hcons hds')

end Program

end LetPoly
