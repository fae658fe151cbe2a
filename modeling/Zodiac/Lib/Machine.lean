import Mathlib.Data.List.Basic

/-!
# Guarded runs of a labelled machine

A `Machine` has an initial state and a partial step function. Its runs are the
sequences of enabled labels; a guard restricts which steps a run may take.

* `ReachableBy G s`: some run whose steps all meet `G` ends in `s`.
* `ReachableBy.invariant`: a property of the initial state that every guarded
  step keeps holds in every state such a run reaches.
* `exec_invariant`: what every step keeps holds after every continuation.
* `exists_reachableBy`, `reachable_of_exec`: executing a list of labels gives a
  reachable state, which is how a concrete run is presented.
* `History.getElem?_concat`: the elements of a record that a step adds to.
* `History.kept`: positions in a record of which only a part counts.
* `History.getElem?_set_of_some`, `History.mem_set_of_nodup`: the elements of a list that a
  step changes in one place.
-/

universe u v

/-- A labelled transition system. `step s a = none` when the label `a` is not
enabled in `s`. -/
structure Machine (σ : Type u) (α : Type v) where
  init : σ
  step : σ → α → Option σ

namespace Machine

variable {σ : Type u} {α : Type v}

/-- The states reached by runs whose steps all meet the guard `G`, a condition
on the state before the step and the label. -/
inductive ReachableBy (M : Machine σ α) (G : σ → α → Prop) : σ → Prop
  | init : ReachableBy M G M.init
  | step {s s' : σ} {a : α} :
      ReachableBy M G s → G s a → M.step s a = some s' → ReachableBy M G s'

/-- The states reached by any run. -/
def Reachable (M : Machine σ α) : σ → Prop := M.ReachableBy fun _ _ => True

/-- The invariant rule. The step case may also use that the state before the
step is reachable. -/
theorem ReachableBy.invariant {M : Machine σ α} {G : σ → α → Prop} {I : σ → Prop}
    (h0 : I M.init)
    (hstep : ∀ s a s', M.ReachableBy G s → I s → G s a → M.step s a = some s' → I s')
    {s : σ} (h : M.ReachableBy G s) : I s := by
  induction h with
  | init => exact h0
  | step hr hg hs ih => exact hstep _ _ _ hr ih hg hs

/-- Execute a list of labels, each of which must meet the guard. -/
def execWhen (M : Machine σ α) (G : σ → α → Prop) [∀ s a, Decidable (G s a)] :
    σ → List α → Option σ
  | s, [] => some s
  | s, a :: as => if G s a then (M.step s a).bind fun s' => execWhen M G s' as else none

/-- Execute a list of labels. -/
def exec (M : Machine σ α) : σ → List α → Option σ := M.execWhen fun _ _ => True

theorem exec_cons (M : Machine σ α) (s : σ) (a : α) (as : List α) :
    M.exec s (a :: as) = (M.step s a).bind fun s' => M.exec s' as := by
  simp only [exec, execWhen, if_true]

theorem execWhen_cons (M : Machine σ α) (G : σ → α → Prop) [∀ s a, Decidable (G s a)] {s s1 : σ}
    {a : α} (as : List α) (hs : M.step s a = some s1) :
    M.execWhen G s (a :: as) = if G s a then M.execWhen G s1 as else none := by
  rw [execWhen, hs, Option.bind_some]

/-- A run that meets a guard is a run. -/
theorem exec_of_execWhen {M : Machine σ α} {G : σ → α → Prop} [∀ s a, Decidable (G s a)]
    {as : List α} : ∀ {s s' : σ}, M.execWhen G s as = some s' → M.exec s as = some s' := by
  induction as with
  | nil => exact fun h => h
  | cons a as ih =>
    intro s s' h
    rw [execWhen] at h
    split at h
    · obtain ⟨s1, hs, h'⟩ := Option.bind_eq_some_iff.mp h
      rw [exec_cons, hs, Option.bind_some]
      exact ih h'
    · cases h

/-- A property that every step keeps holds after every continuation. -/
theorem exec_invariant {M : Machine σ α} {P : σ → Prop}
    (hstep : ∀ s a s', P s → M.step s a = some s' → P s') {as : List α} :
    ∀ {s s' : σ}, P s → M.exec s as = some s' → P s' := by
  induction as with
  | nil =>
    intro s s' h he
    cases he
    exact h
  | cons a as ih =>
    intro s s' h he
    rw [exec_cons] at he
    obtain ⟨s1, hs, he'⟩ := Option.bind_eq_some_iff.mp he
    exact ih (hstep s a s1 h hs) he'

theorem reachableBy_of_execWhen_from {M : Machine σ α} {G : σ → α → Prop}
    [∀ s a, Decidable (G s a)] {as : List α} :
    ∀ {s s' : σ}, M.ReachableBy G s → M.execWhen G s as = some s' → M.ReachableBy G s' := by
  induction as with
  | nil =>
    intro s s' hr he
    cases he
    exact hr
  | cons a as ih =>
    intro s s' hr he
    rw [execWhen] at he
    split at he
    · next hg =>
      obtain ⟨s1, hs, he'⟩ := Option.bind_eq_some_iff.mp he
      exact ih (hr.step hg hs) he'
    · cases he

theorem reachable_of_exec {M : Machine σ α} {as : List α} {s : σ}
    (h : M.exec M.init as = some s) : M.Reachable s :=
  reachableBy_of_execWhen_from .init h

/-- A concrete guarded run, presented by what `f` shows of its last state. -/
theorem exists_reachableBy {γ : Type*} {M : Machine σ α} {G : σ → α → Prop}
    [∀ s a, Decidable (G s a)] (as : List α) (f : σ → γ) {x : γ}
    (h : (M.execWhen G M.init as).map f = some x) : ∃ s, M.ReachableBy G s ∧ f s = x := by
  obtain ⟨s, hs, hx⟩ := Option.map_eq_some_iff.mp h
  exact ⟨s, reachableBy_of_execWhen_from .init hs, hx⟩

end Machine

namespace History

/-! ## A history that grows by one

States record what has happened in a list, and each step adds to its end. -/

theorem getElem?_concat {α : Type u} {l : List α} {a b : α} {j : Nat}
    (hj : (l ++ [a])[j]? = some b) : l[j]? = some b ∨ (j = l.length ∧ b = a) := by
  rcases Nat.lt_or_ge j l.length with hlt | hge
  · exact .inl (by rwa [List.getElem?_append_left hlt] at hj)
  · rw [List.getElem?_append_right hge] at hj
    obtain ⟨hlt, rfl⟩ := List.getElem?_eq_some_iff.mp hj
    rw [List.length_singleton] at hlt
    exact .inr ⟨by omega, by simp⟩

theorem getElem?_append_of_some {α : Type u} {l r : List α} {b : α} {j : Nat}
    (hj : l[j]? = some b) : (l ++ r)[j]? = some b := by
  rw [List.getElem?_append_left (List.getElem?_eq_some_iff.mp hj).1]
  exact hj

/-! ## A record of which a part counts -/

section Kept

variable {α : Type u} {β : Type v} (f : α → Option β)

/-- How many of the first `i` elements of the list `f` keeps. -/
def kept (l : List α) (i : Nat) : Nat := ((l.take i).filterMap f).length

variable {f} {l : List α} {i : Nat} {a : α} {b : β}

theorem filterMap_split (f : α → Option β) (l : List α) (i : Nat) :
    l.filterMap f = (l.take i).filterMap f ++ (l.drop i).filterMap f := by
  rw [← List.filterMap_append, List.take_append_drop]

theorem take_kept (f : α → Option β) (l : List α) (i : Nat) :
    (l.filterMap f).take (kept f l i) = (l.take i).filterMap f := by
  rw [filterMap_split f l i, kept, List.take_left]

theorem kept_append (hi : i ≤ l.length) (r : List α) : kept f (l ++ r) i = kept f l i := by
  rw [kept, kept, List.take_append_of_le_length hi]

theorem kept_succ_some (h : l[i]? = some a) (hf : f a = some b) :
    kept f l (i + 1) = kept f l i + 1 := by
  simp [kept, List.take_add_one, h, hf]

theorem kept_succ_none (h : l[i]? = some a) (hf : f a = none) : kept f l (i + 1) = kept f l i := by
  simp [kept, List.take_add_one, h, hf]

/-- Where an element goes. -/
theorem getElem?_kept (h : l[i]? = some a) (hf : f a = some b) :
    (l.filterMap f)[kept f l i]? = some b := by
  obtain ⟨hi, rfl⟩ := List.getElem?_eq_some_iff.mp h
  rw [filterMap_split f l i, kept, List.getElem?_append_right (Nat.le_refl _), Nat.sub_self,
    List.drop_eq_getElem_cons hi, List.filterMap_cons_some hf, List.getElem?_cons_zero]

/-- Where an element comes from. -/
theorem exists_kept {p : Nat} (h : (l.filterMap f)[p]? = some b) :
    ∃ i a, l[i]? = some a ∧ f a = some b ∧ kept f l i = p := by
  induction l generalizing p with
  | nil => simp at h
  | cons x l ih =>
    cases hx : f x with
    | none =>
      rw [List.filterMap_cons_none hx] at h
      obtain ⟨i, a, hi, ha, hp⟩ := ih h
      refine ⟨i + 1, a, hi, ha, ?_⟩
      rw [← hp, kept, kept, List.take_succ_cons, List.filterMap_cons_none hx]
    | some y =>
      rw [List.filterMap_cons_some hx] at h
      cases p with
      | zero =>
        cases h
        exact ⟨0, x, rfl, hx, rfl⟩
      | succ p =>
        obtain ⟨i, a, hi, ha, hp⟩ := ih h
        refine ⟨i + 1, a, hi, ha, ?_⟩
        rw [← hp, kept, kept, List.take_succ_cons, List.filterMap_cons_some hx, List.length_cons]

end Kept

/-! ## A list that changes in one place -/

section Set

variable {α : Type u} {l : List α} {k : Nat} {a : α}

theorem getElem?_set_of_some (hk : l[k]? = some a) (b : α) (j : Nat) :
    (l.set k b)[j]? = if j = k then some b else l[j]? := by
  split
  · next heq =>
    subst heq
    exact List.getElem?_set_self (List.getElem?_eq_some_iff.mp hk).1
  · next hne => exact List.getElem?_set_ne (Ne.symm hne)

theorem set_of_getElem? (hk : l[k]? = some a) : l.set k a = l := by
  obtain ⟨hlt, rfl⟩ := List.getElem?_eq_some_iff.mp hk
  exact List.set_getElem_self hlt

/-- Every other element stays when one is replaced. -/
theorem mem_set_of_ne (hk : l[k]? = some a) {b c : α} (hb : b ∈ l) (hne : b ≠ a) :
    b ∈ l.set k c := by
  obtain ⟨j, hj⟩ := List.getElem?_of_mem hb
  refine List.mem_of_getElem? (i := j) ?_
  rw [getElem?_set_of_some hk, if_neg, hj]
  rintro rfl
  exact hne (Option.some.inj (hj.symm.trans hk))

/-- In a list without duplicates an element is in one place. -/
theorem eq_of_getElem?_nodup (hl : l.Nodup) (hk : l[k]? = some a) {j : Nat} (hj : l[j]? = some a) :
    j = k :=
  (List.getElem?_inj (List.getElem?_eq_some_iff.mp hj).1 hl).mp (hj.trans hk.symm)

theorem mem_set_of_nodup (hl : l.Nodup) (hk : l[k]? = some a) (b x : α) :
    x ∈ l.set k b ↔ x ∈ l ∧ x ≠ a ∨ b = x := by
  constructor
  · intro hx
    obtain ⟨j, hj⟩ := List.getElem?_of_mem hx
    rw [getElem?_set_of_some hk] at hj
    split at hj
    · exact .inr (Option.some.inj hj)
    · next hne =>
      refine .inl ⟨List.mem_of_getElem? hj, ?_⟩
      rintro rfl
      exact hne (eq_of_getElem?_nodup hl hk hj)
  · rintro (⟨hx, hne⟩ | rfl)
    · exact mem_set_of_ne hk hx hne
    · exact List.mem_set (List.getElem?_eq_some_iff.mp hk).1 _

theorem mem_eraseIdx_of_nodup (hl : l.Nodup) (hk : l[k]? = some a) (x : α) :
    x ∈ l.eraseIdx k ↔ x ∈ l ∧ x ≠ a := by
  rw [List.mem_eraseIdx_iff_getElem?]
  constructor
  · rintro ⟨j, hne, hj⟩
    refine ⟨List.mem_of_getElem? hj, ?_⟩
    rintro rfl
    exact hne (eq_of_getElem?_nodup hl hk hj)
  · rintro ⟨hx, hne⟩
    obtain ⟨j, hj⟩ := List.mem_iff_getElem?.mp hx
    refine ⟨j, ?_, hj⟩
    rintro rfl
    exact hne (Option.some.inj (hj.symm.trans hk))

end Set

end History
