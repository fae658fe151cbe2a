import Mathlib.Data.Nat.Init
import Zodiac.Lib.Machine

/-!
# Fair runs

Infinite runs of a `Machine`, which may also stand still, and what they reach if certain
steps are not put off for ever.

* `Run`, `Run.MeetsFrom`: a run, and a condition on its steps from some time on.
* `Run.Fair`: infinitely often a step of some kind is taken, or none of them is enabled.
* `Ranked`: while a condition holds, some fair kind of step is enabled and stays so until a
  rank gets smaller.
* `Run.eventually_of_ranked`: a goal is reached if the way to it is `Ranked`.
* `Run.eventually_of_fair`: the same for one kind of step.
* `Run.eventually_of_unless`: a goal is reached if nothing else can end what does end.
* `Run.always_of_step`: what every step keeps holds from then on.
* `exists_run`, `Run.fair_of_stops`: a finite run that goes on by standing still, and when it
  is fair.
-/

universe u v w

namespace Machine

variable {σ : Type u} {α : Type v}

/-- An infinite run. Where no label is given, nothing happens. -/
structure Run (M : Machine σ α) where
  state : Nat → σ
  label : Nat → Option α
  start : state 0 = M.init
  stands : ∀ {t : Nat}, label t = none → state (t + 1) = state t
  steps : ∀ {t : Nat} {a : α}, label t = some a → M.step (state t) a = some (state (t + 1))

namespace Run

variable {M : Machine σ α}

/-- From time `t` on, all steps meet the condition. -/
def MeetsFrom (r : M.Run) (t : Nat) (G : σ → α → Prop) : Prop :=
  ∀ u, t ≤ u → ∀ a, r.label u = some a → G (r.state u) a

/-- Weak fairness: steps of this kind are taken infinitely often, or infinitely often none of
them is enabled. -/
def Fair (r : M.Run) (A : α → Prop) : Prop :=
  ∀ t, ∃ u, t ≤ u ∧ ((∃ a, r.label u = some a ∧ A a) ∨ ∀ a, A a → M.step (r.state u) a = none)

variable {r : M.Run} {G : σ → α → Prop}

theorem MeetsFrom.imp {G' : σ → α → Prop} {t : Nat} (h : r.MeetsFrom t G)
    (himp : ∀ {s a}, G s a → G' s a) : r.MeetsFrom t G' :=
  fun u htu a ha => himp (h u htu a ha)

theorem MeetsFrom.later {t u : Nat} (h : r.MeetsFrom t G) (htu : t ≤ u) : r.MeetsFrom u G :=
  fun v huv => h v (Nat.le_trans htu huv)

theorem reachableBy (h : r.MeetsFrom 0 G) (t : Nat) : M.ReachableBy G (r.state t) := by
  induction t with
  | zero =>
    rw [r.start]
    exact .init
  | succ t ih =>
    cases ha : r.label t with
    | none =>
      rw [r.stands ha]
      exact ih
    | some a => exact ih.step (h t (Nat.zero_le t) a ha) (r.steps ha)

/-- What every step keeps holds from then on. -/
theorem always_of_step {P : σ → Prop} {t : Nat} (hmeets : r.MeetsFrom t G) (h : P (r.state t))
    (hstep : ∀ {u a s'}, t ≤ u → P (r.state u) → G (r.state u) a →
      M.step (r.state u) a = some s' → P s') {u : Nat} (htu : t ≤ u) : P (r.state u) := by
  induction u, htu using Nat.le_induction with
  | base => exact h
  | succ u htu ih =>
    cases ha : r.label u with
    | none =>
      rw [r.stands ha]
      exact ih
    | some a => exact hstep htu ih (hmeets u htu a ha) (r.steps ha)

end Run

/-! ## The rank rule -/

/-- From `P` to `Q`. In a state with `P` a step of kind `next s` is enabled. A step reaches `Q`,
or it keeps `P` and makes the rank smaller, or it is not of that kind and leaves rank and kind
as they are. -/
structure Ranked {ι : Type w} (M : Machine σ α) (G : σ → α → Prop) (A : ι → α → Prop)
    (rank : σ → Nat) (next : σ → ι) (P Q : σ → Prop) : Prop where
  enabled : ∀ {s}, P s → ∃ a, A (next s) a ∧ M.step s a ≠ none
  step : ∀ {s a s'}, P s → G s a → M.step s a = some s' →
    Q s' ∨ P s' ∧ (rank s' < rank s ∨ rank s' = rank s ∧ next s' = next s ∧ ¬ A (next s) a)

namespace Run

variable {ι : Type w} {M : Machine σ α} {r : M.Run} {G : σ → α → Prop} {A : ι → α → Prop}
  {rank : σ → Nat} {next : σ → ι} {P Q : σ → Prop}

/-- Up to time `u` there was progress, or the same kind of step still makes it. -/
theorem progress_or_same (h : M.Ranked G A rank next P Q) {t u : Nat} (hmeets : r.MeetsFrom t G)
    (hP : P (r.state t)) (htu : t ≤ u) :
    (∃ v, t ≤ v ∧ (Q (r.state v) ∨ P (r.state v) ∧ rank (r.state v) < rank (r.state t))) ∨
    P (r.state u) ∧ rank (r.state u) = rank (r.state t) ∧
      next (r.state u) = next (r.state t) := by
  induction u, htu using Nat.le_induction with
  | base => exact .inr ⟨hP, rfl, rfl⟩
  | succ u htu ih =>
    rcases ih with hdone | ⟨hPu, hrank, hnext⟩
    · exact .inl hdone
    · cases ha : r.label u with
      | none =>
        rw [r.stands ha]
        exact .inr ⟨hPu, hrank, hnext⟩
      | some a =>
        rcases h.step hPu (hmeets u htu a ha) (r.steps ha) with hQ | ⟨hP', hlt | ⟨heq, hsame, -⟩⟩
        · exact .inl ⟨u + 1, Nat.le_succ_of_le htu, .inl hQ⟩
        · exact .inl ⟨u + 1, Nat.le_succ_of_le htu, .inr ⟨hP', hrank ▸ hlt⟩⟩
        · exact .inr ⟨hP', heq.trans hrank, hsame.trans hnext⟩

/-- A run that is fair to all kinds of steps reaches the goal. By induction on the rank. -/
theorem eventually_of_ranked (h : M.Ranked G A rank next P Q) (hfair : ∀ j, r.Fair (A j))
    {t : Nat} (hmeets : r.MeetsFrom t G) (hP : P (r.state t)) : ∃ u, t ≤ u ∧ Q (r.state u) := by
  induction hn : rank (r.state t) using Nat.strong_induction_on generalizing t with
  | _ n ih =>
    have hless : ∀ v, t ≤ v → (Q (r.state v) ∨ P (r.state v) ∧ rank (r.state v) < n) →
        ∃ u, t ≤ u ∧ Q (r.state u) := by
      rintro v htv (hQ | ⟨hPv, hlt⟩)
      · exact ⟨v, htv, hQ⟩
      · obtain ⟨u, hvu, hQ⟩ := ih _ hlt (hmeets.later htv) hPv rfl
        exact ⟨u, Nat.le_trans htv hvu, hQ⟩
    obtain ⟨u, htu, hu⟩ := hfair (next (r.state t)) t
    rcases progress_or_same h hmeets hP htu with ⟨v, htv, hv⟩ | ⟨hPu, hrank, hnext⟩
    · exact hless v htv (hn ▸ hv)
    · rcases hu with ⟨a, ha, hA⟩ | hnone
      · refine hless (u + 1) (Nat.le_succ_of_le htu) ?_
        rcases h.step hPu (hmeets u htu a ha) (r.steps ha) with hQ | ⟨hP', hlt | ⟨-, -, hother⟩⟩
        · exact .inl hQ
        · exact .inr ⟨hP', hn ▸ hrank ▸ hlt⟩
        · exact absurd hA (hnext ▸ hother)
      · -- the kind of step that makes progress is enabled
        obtain ⟨a, hA, hsome⟩ := h.enabled hPu
        exact absurd (hnone a (hnext ▸ hA)) hsome

/-- The rule for one kind of step, which reaches the goal at once. -/
theorem eventually_of_fair {B : α → Prop} (hfair : r.Fair B)
    (henabled : ∀ {s}, P s → ∃ a, B a ∧ M.step s a ≠ none)
    (hstep : ∀ {s a s'}, P s → G s a → M.step s a = some s' → Q s' ∨ P s' ∧ ¬ B a)
    {t : Nat} (hmeets : r.MeetsFrom t G) (hP : P (r.state t)) : ∃ u, t ≤ u ∧ Q (r.state u) := by
  have hranked : M.Ranked G (fun _ : Unit => B) (fun _ => 0) (fun _ => ()) P Q :=
    { enabled := henabled
      step := fun hP hG hs => (hstep hP hG hs).imp_right fun ⟨hP', hB⟩ =>
        ⟨hP', .inr ⟨rfl, rfl, hB⟩⟩ }
  exact eventually_of_ranked hranked (fun _ => hfair) hmeets hP

/-- A condition that only the goal ends, and that ends. -/
theorem eventually_of_unless {t : Nat} (hmeets : r.MeetsFrom t G) (hP : P (r.state t))
    (hkeeps : ∀ {s a s'}, P s → G s a → M.step s a = some s' → Q s' ∨ P s')
    (hends : ∃ u, t ≤ u ∧ ¬ P (r.state u)) : ∃ u, t ≤ u ∧ Q (r.state u) := by
  have hall : ∀ u, t ≤ u → (∃ v, t ≤ v ∧ Q (r.state v)) ∨ P (r.state u) := by
    intro u htu
    induction u, htu using Nat.le_induction with
    | base => exact .inr hP
    | succ u htu ih =>
      rcases ih with hdone | hPu
      · exact .inl hdone
      · cases ha : r.label u with
        | none =>
          rw [r.stands ha]
          exact .inr hPu
        | some a =>
          refine (hkeeps hPu (hmeets u htu a ha) (r.steps ha)).imp_left fun hQ => ?_
          exact ⟨u + 1, Nat.le_succ_of_le htu, hQ⟩
  obtain ⟨u, htu, hu⟩ := hends
  exact (hall u htu).resolve_right hu

end Run

/-! ## Finite runs -/

section Finite

variable {M : Machine σ α}

theorem exec_append (M : Machine σ α) (as bs : List α) : ∀ s,
    M.exec s (as ++ bs) = (M.exec s as).bind fun s' => M.exec s' bs := by
  induction as with
  | nil => exact fun s => rfl
  | cons a as ih =>
    intro s
    rw [List.cons_append, exec_cons, exec_cons]
    cases M.step s a with
    | none => rfl
    | some s' => exact ih s'

/-- Every first part of a finite run is one. -/
theorem exists_exec_take {as : List α} {s : σ} (h : M.exec M.init as = some s) (t : Nat) :
    ∃ s', M.exec M.init (as.take t) = some s' := by
  rw [← List.take_append_drop t as, exec_append] at h
  obtain ⟨s', hs', -⟩ := Option.bind_eq_some_iff.mp h
  exact ⟨s', hs'⟩

theorem exec_take_succ {as : List α} {t : Nat} {a : α} {s : σ} (ha : as[t]? = some a)
    (hs : M.exec M.init (as.take t) = some s) :
    M.exec M.init (as.take (t + 1)) = M.step s a := by
  rw [List.take_add_one, ha, Option.toList_some, exec_append, hs, Option.bind_some, exec_cons]
  cases M.step s a <;> rfl

/-- A finite run, continued by standing still. -/
def Run.ofList {as : List α} {s : σ} (h : M.exec M.init as = some s) : M.Run where
  state t := (M.exec M.init (as.take t)).getD s
  label t := as[t]?
  start := rfl
  stands {t} ht := by
    rw [List.take_add_one, ht, Option.toList_none, List.append_nil]
  steps {t a} ha := by
    obtain ⟨s₁, hs₁⟩ := exists_exec_take h t
    obtain ⟨s₂, hs₂⟩ := exists_exec_take h (t + 1)
    rw [hs₁, hs₂, Option.getD_some, Option.getD_some, ← exec_take_succ ha hs₁, hs₂]

theorem Run.exec_ofList {as : List α} {s : σ} (h : M.exec M.init as = some s) (t : Nat) :
    M.exec M.init (as.take t) = some ((Run.ofList h).state t) := by
  obtain ⟨s', hs'⟩ := exists_exec_take h t
  rw [hs']
  simp only [Run.ofList, hs', Option.getD_some]

theorem guard_of_execWhen {G : σ → α → Prop} [∀ s a, Decidable (G s a)] {as : List α} :
    ∀ {s s' : σ}, M.execWhen G s as = some s' → ∀ {t : Nat} {a : α} {s₁ : σ}, as[t]? = some a →
      M.exec s (as.take t) = some s₁ → G s₁ a := by
  induction as with
  | nil =>
    intro s s' _ t a s₁ ha
    cases ha
  | cons b as ih =>
    intro s s' h t a s₁ ha hs₁
    rw [execWhen] at h
    split at h
    · next hb =>
      obtain ⟨s₂, hs₂, h'⟩ := Option.bind_eq_some_iff.mp h
      cases t with
      | zero =>
        cases ha
        cases hs₁
        exact hb
      | succ t =>
        rw [List.take_succ_cons, exec_cons, hs₂, Option.bind_some] at hs₁
        exact ih h' ha hs₁
    · cases h

/-- A guarded finite run meets its guard. -/
theorem Run.meetsFrom_ofList {G : σ → α → Prop} [∀ s a, Decidable (G s a)] {as : List α} {s : σ}
    (hG : M.execWhen G M.init as = some s) : (Run.ofList (exec_of_execWhen hG)).MeetsFrom 0 G :=
  fun t _ _ ha => guard_of_execWhen hG ha (exec_ofList _ t)

/-- A guarded list of steps as a run, with its labels and states. -/
theorem exists_run {G : σ → α → Prop} [∀ s a, Decidable (G s a)] (as : List α)
    (h : (M.execWhen G M.init as).isSome = true) :
    ∃ r : M.Run, r.MeetsFrom 0 G ∧ (∀ t, r.label t = as[t]?) ∧
      ∀ t, M.exec M.init (as.take t) = some (r.state t) := by
  obtain ⟨s, hs⟩ := Option.isSome_iff_exists.mp h
  exact ⟨.ofList (exec_of_execWhen hs), Run.meetsFrom_ofList hs, fun _ => rfl, Run.exec_ofList _⟩

/-- What `f` shows of a state of a finite run. -/
theorem Run.shows {γ : Type*} {as : List α} {r : M.Run}
    (hexec : ∀ t, M.exec M.init (as.take t) = some (r.state t)) (t : Nat) (f : σ → γ) {x : γ}
    (hx : (M.exec M.init (as.take t)).map f = some x) : f (r.state t) = x := by
  rw [hexec t] at hx
  exact Option.some.inj hx

/-- A run that stops where steps of this kind are not enabled is fair to them. -/
theorem Run.fair_of_stops {r : M.Run} {t : Nat} (hstops : ∀ u, t ≤ u → r.label u = none)
    {A : α → Prop} (hdone : ∀ a, A a → M.step (r.state t) a = none) : r.Fair A := by
  have hsame : ∀ u, t ≤ u → r.state u = r.state t := by
    intro u htu
    induction u, htu using Nat.le_induction with
    | base => rfl
    | succ u htu ih => rw [r.stands (hstops u htu), ih]
  intro u
  refine ⟨max t u, Nat.le_max_right _ _, .inr fun a hA => ?_⟩
  rw [hsame _ (Nat.le_max_left _ _)]
  exact hdone a hA

end Finite

end Machine
