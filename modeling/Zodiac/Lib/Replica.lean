import Mathlib.Data.List.Basic

/-!
# Replicated state machines with snapshots

A machine that applies the entries of a log one by one, whose steps may also
depend on an environment that differs from replica to replica (a clock, an
iteration order), and that can save its state and restore it elsewhere.

`Deterministic M Agree` states what convergence needs: `Agree` is an
equivalence, entries keep it and give equal outputs under any two environments,
and restoring a saved state agrees with the state it was saved from. Then all
replicas at the same log position agree, however each one got there
(`ReplicaAt.agree`), and give equal outputs for the next entry
(`ReplicaAt.output_eq`). `ReplicaAt.invariant` and `ReplicaAt.later` carry a property
to all replicas of a log, and `ReplicaAt.extend` a replica to a log that has grown.
`AgreesAt` is for machines that give the entries other numbers than the log does.
-/

universe u

/-- `apply e n s i` applies the entry `i` at log position `n`, and `restore s n d`
replaces the state by the saved data `d` of the first `n` entries. -/
structure ReplicatedMachine (σ ι ω ε δ : Type u) where
  init : σ
  apply : ε → Nat → σ → ι → σ × ω
  save : ε → σ → Option δ
  restore : σ → Nat → δ → σ

namespace ReplicatedMachine

variable {σ ι ω ε δ : Type u} {M : ReplicatedMachine σ ι ω ε δ} {Agree : σ → σ → Prop}

/-- The state after the first `n` entries of the log, each applied once. -/
def prefixState (M : ReplicatedMachine σ ι ω ε δ) (e : ε) (log : List ι) : Nat → σ
  | 0 => M.init
  | n + 1 =>
    match log[n]? with
    | some i => (M.apply e n (prefixState M e log n) i).1
    | none => prefixState M e log n

theorem prefixState_succ {e : ε} {log : List ι} {n : Nat} {i : ι} (h : log[n]? = some i) :
    M.prefixState e log (n + 1) = (M.apply e n (M.prefixState e log n) i).1 := by
  rw [prefixState, h]

/-- The replicas of a log: `ReplicaAt log n s` holds when some replica can be
in state `s` at position `n`, having applied entries and restored snapshots
that replicas of the same log saved. -/
inductive ReplicaAt (M : ReplicatedMachine σ ι ω ε δ) (log : List ι) : Nat → σ → Prop
  | init : ReplicaAt M log 0 M.init
  | apply {n : Nat} {s : σ} {i : ι} (e : ε) :
      ReplicaAt M log n s → log[n]? = some i → ReplicaAt M log (n + 1) (M.apply e n s i).1
  | restore {n k : Nat} {s t : σ} {d : δ} (e : ε) :
      ReplicaAt M log n s → ReplicaAt M log k t → M.save e t = some d →
      ReplicaAt M log k (M.restore s k d)

/-- A replica of a log is one of every longer log. -/
theorem ReplicaAt.extend {log : List ι} {n : Nat} {s : σ} (h : M.ReplicaAt log n s)
    (more : List ι) : M.ReplicaAt (log ++ more) n s := by
  induction h with
  | init => exact .init
  | @apply n s i e _ hi ih =>
    refine .apply e ih ?_
    rw [List.getElem?_append_left (List.getElem?_eq_some_iff.mp hi).1]
    exact hi
  | restore e _ _ hsave ih ih' => exact .restore e ih ih' hsave

/-- Up to `Agree`, the machine is a function of the log. -/
structure Deterministic (M : ReplicatedMachine σ ι ω ε δ) (Agree : σ → σ → Prop) : Prop where
  equiv : Equivalence Agree
  state : ∀ (e e' : ε) (n m : Nat) {s t : σ} (i : ι), Agree s t →
    Agree (M.apply e n s i).1 (M.apply e' m t i).1
  output : ∀ (e e' : ε) (n m : Nat) {s t : σ} (i : ι), Agree s t →
    (M.apply e n s i).2 = (M.apply e' m t i).2
  restored : ∀ (e : ε) (n : Nat) (s : σ) {t : σ} {d : δ}, M.save e t = some d →
    Agree (M.restore s n d) t

theorem ReplicaAt.agree_prefixState (hdet : Deterministic M Agree) (e₀ : ε) {log : List ι}
    {n : Nat} {s : σ} (h : M.ReplicaAt log n s) : Agree s (M.prefixState e₀ log n) := by
  induction h with
  | init => exact hdet.equiv.refl _
  | @apply n s i e _ hi ih =>
    rw [prefixState_succ hi]
    exact hdet.state e e₀ n n i ih
  | @restore n k s t d e _ _ hsave _ ih =>
    exact hdet.equiv.trans (hdet.restored e k s hsave) ih

/-- Replicas at the same position agree. -/
theorem ReplicaAt.agree [Nonempty ε] (hdet : Deterministic M Agree) {log : List ι} {n : Nat}
    {s t : σ} (hs : M.ReplicaAt log n s) (ht : M.ReplicaAt log n t) : Agree s t := by
  obtain ⟨e₀⟩ := ‹Nonempty ε›
  exact hdet.equiv.trans (hs.agree_prefixState hdet e₀)
    (hdet.equiv.symm (ht.agree_prefixState hdet e₀))

/-- An invariant of the applied prefix and the state. Applying an entry extends the
prefix; a restored state satisfies what the saved one did. -/
theorem ReplicaAt.invariant (hdet : Deterministic M Agree) {I : List ι → σ → Prop}
    (hinit : I [] M.init)
    (hstep : ∀ {before : List ι} {s : σ} (e : ε) (n : Nat) (i : ι), I before s →
      I (before ++ [i]) (M.apply e n s i).1)
    (hagree : ∀ {before : List ι} {s t : σ}, Agree s t → I before t → I before s)
    {log : List ι} {n : Nat} {s : σ} (h : M.ReplicaAt log n s) : I (log.take n) s := by
  induction h with
  | init => exact hinit
  | @apply n s i e _ hi ih =>
    rw [List.take_add_one, hi, Option.toList_some]
    exact hstep e n i ih
  | @restore n k s t d e _ _ hsave _ ih => exact hagree (hdet.restored e k s hsave) ih

/-- What every entry keeps holds, once it holds for one replica, for every replica at
the same position or further on. -/
theorem ReplicaAt.later [Nonempty ε] (hdet : Deterministic M Agree) {P : σ → Prop}
    (hstep : ∀ {s : σ} (e : ε) (n : Nat) (i : ι), P s → P (M.apply e n s i).1)
    (hagree : ∀ {s t : σ}, Agree s t → P t → P s) {log : List ι} {n m : Nat} {s t : σ}
    (hs : M.ReplicaAt log n s) (hP : P s) (hnm : n ≤ m) (ht : M.ReplicaAt log m t) : P t := by
  obtain ⟨e₀⟩ := ‹Nonempty ε›
  obtain ⟨d, rfl⟩ := Nat.exists_eq_add_of_le hnm
  refine hagree (ht.agree_prefixState hdet e₀) ?_
  clear ht hnm
  -- along the states that apply each entry once
  induction d with
  | zero => exact hagree (hdet.equiv.symm (hs.agree_prefixState hdet e₀)) hP
  | succ d ih =>
    rw [← Nat.add_assoc, prefixState]
    split
    · exact hstep e₀ (n + d) _ ih
    · exact ih

/-- Replicas at the same position give the same output for the next entry. -/
theorem ReplicaAt.output_eq (hdet : Deterministic M Agree) {log : List ι} {n : Nat} {s t : σ}
    (hs : M.ReplicaAt log n s) (ht : M.ReplicaAt log n t) (e e' : ε) (i : ι) :
    (M.apply e n s i).2 = (M.apply e' n t i).2 :=
  have : Nonempty ε := ⟨e⟩
  hdet.output e e' n n i (hs.agree hdet ht)

/-! ## Other numbers -/

/-- The state agrees with that of some replica. -/
def AgreesAt (M : ReplicatedMachine σ ι ω ε δ) (Agree : σ → σ → Prop) (log : List ι) (n : Nat)
    (s : σ) : Prop := ∃ t, M.ReplicaAt log n t ∧ Agree s t

namespace AgreesAt

variable {log : List ι} {n : Nat} {s t : σ}

theorem extend (h : M.AgreesAt Agree log n s) (more : List ι) :
    M.AgreesAt Agree (log ++ more) n s := by
  obtain ⟨t, ht, hagree⟩ := h
  exact ⟨t, ht.extend more, hagree⟩

/-- The next entry, under any number. -/
theorem apply (hdet : Deterministic M Agree) (h : M.AgreesAt Agree log n s) (e : ε) (m : Nat) {i : ι}
    (hi : log[n]? = some i) : M.AgreesAt Agree log (n + 1) (M.apply e m s i).1 := by
  obtain ⟨t, ht, hagree⟩ := h
  exact ⟨_, ht.apply e hi, hdet.state e e m n i hagree⟩

/-- What was saved elsewhere, restored under any number. -/
theorem restore (hdet : Deterministic M Agree) (h : M.AgreesAt Agree log n t) {e : ε} {d : δ}
    (hsave : M.save e t = some d) (s : σ) (m : Nat) :
    M.AgreesAt Agree log n (M.restore s m d) := by
  obtain ⟨t', ht', hagree⟩ := h
  exact ⟨t', ht', hdet.equiv.trans (hdet.restored e m s hsave) hagree⟩

end AgreesAt

end ReplicatedMachine
