import Zodiac.Lib.Machine

/-!
# Linearizability

Clients call an object and get answers, in any interleaving. The calls are linearizable
if they can be put into one order in which the object, executing one operation at a time,
gives the same answers, and in which a call that began after another was answered comes
after it.

* `SeqObject`: the object, one operation at a time.
* `Event`, `WellFormed`, `Precedes`: what clients see, and the order in real time.
* `Interface`: which operation a call asks for, and how its result may be answered. An
  answer may leave open whether the operation took effect.
* `Linearization`: one order for the calls of a history. The object may also perform
  operations of its own.
* `Linearization.invoke`, `Linearization.respond`, `Linearization.perform`,
  `Linearization.internal`: how an order grows with the run that it belongs to.
* `Machine.observed`: a machine that keeps the history of its run.
-/

universe u v

/-! ## Histories of a run -/

namespace Machine

variable {σ : Type u} {α : Type v} {ε : Type*} {M : Machine σ α} {obs : σ → α → List ε}
  {G : σ → α → Prop}

/-- The machine together with what was seen of its steps. -/
def observed (M : Machine σ α) (obs : σ → α → List ε) : Machine (σ × List ε) α where
  init := (M.init, [])
  step s a := (M.step s.1 a).map fun s' => (s', s.2 ++ obs s.1 a)

theorem observed_step {s s' : σ × List ε} {a : α} (h : (M.observed obs).step s a = some s') :
    M.step s.1 a = some s'.1 ∧ s'.2 = s.2 ++ obs s.1 a := by
  obtain ⟨t, ht, rfl⟩ := Option.map_eq_some_iff.mp h
  exact ⟨ht, rfl⟩

/-- Watching a machine does not change its runs. -/
theorem ReachableBy.of_observed {s : σ × List ε}
    (h : (M.observed obs).ReachableBy (fun s => G s.1) s) : M.ReachableBy G s.1 := by
  induction h with
  | init => exact .init
  | step _ hguard hstep ih => exact ih.step hguard (observed_step hstep).1

end Machine

namespace Linearizability

open History

variable {σ ι ω κ Q ρ : Type*}

/-! ## Definitions -/

/-- An object that performs one operation at a time. -/
structure SeqObject (σ ι ω : Type*) where
  init : σ
  step : σ → ι → σ × ω

/-- The state after some operations. -/
def SeqObject.after (O : SeqObject σ ι ω) (ops : List ι) : σ :=
  ops.foldl (fun s op => (O.step s op).1) O.init

/-- A call begins, or is answered. -/
inductive Event (κ Q ρ : Type*)
  | invoke (k : κ) (q : Q)
  | respond (k : κ) (r : ρ)

/-- No call begins twice, and a call is answered at most once, after it has begun. -/
inductive WellFormed : List (Event κ Q ρ) → Prop
  | nil : WellFormed []
  | invoke {H : List (Event κ Q ρ)} {k : κ} (q : Q) (h : WellFormed H)
      (hnew : ∀ q, .invoke k q ∉ H) : WellFormed (H ++ [.invoke k q])
  | respond {H : List (Event κ Q ρ)} {k : κ} {q : Q} (r : ρ) (h : WellFormed H)
      (hbegun : .invoke k q ∈ H) (hopen : ∀ r, .respond k r ∉ H) :
    WellFormed (H ++ [.respond k r])

/-- Call `k` was answered before call `k'` began. -/
def Precedes (H : List (Event κ Q ρ)) (k k' : κ) : Prop :=
  ∃ (i j : Nat) (r : ρ) (q : Q), i < j ∧ H[i]? = some (.respond k r) ∧ H[j]? = some (.invoke k' q)

/-- What a call asks for, and which answers it may get: the operation took effect with a
result, or it did not take effect. -/
structure Interface (κ Q ι ω ρ : Type*) where
  operation : κ → Q → ι
  explains : κ → Q → Option ω → ρ → Prop

/-- In the order `L`, call `k` takes effect at position `i` with result `w`. -/
def EffectAt (O : SeqObject σ ι ω) (L : List (Option κ × ι)) (i : Nat) (k : κ) (w : ω) : Prop :=
  ∃ op, L[i]? = some (some k, op) ∧ w = (O.step (O.after ((L.take i).map Prod.snd)) op).2

/-- The order `L` accounts for the history `H`. Every operation belongs to a call or is one
of the object's own; every answer is explained; the order is that of real time. -/
structure Linearization (O : SeqObject σ ι ω) (I : Interface κ Q ι ω ρ) (Own : ι → Prop)
    (H : List (Event κ Q ρ)) (L : List (Option κ × ι)) : Prop where
  once : ∀ {i j : Nat} {k : κ} {op op' : ι}, L[i]? = some (some k, op) →
    L[j]? = some (some k, op') → i = j
  asked : ∀ {i : Nat} {k : κ} {op : ι}, L[i]? = some (some k, op) →
    ∃ q, .invoke k q ∈ H ∧ op = I.operation k q
  own : ∀ {i : Nat} {op : ι}, L[i]? = some (none, op) → Own op
  explained : ∀ {k : κ} {r : ρ}, .respond k r ∈ H → ∃ q, .invoke k q ∈ H ∧
    ((∃ i w, EffectAt O L i k w ∧ I.explains k q (some w) r) ∨
      (∀ (i : Nat) (op : ι), L[i]? ≠ some (some k, op)) ∧ I.explains k q none r)
  realTime : ∀ {k k' : κ} {i j : Nat} {op op' : ι}, Precedes H k k' →
    L[i]? = some (some k, op) → L[j]? = some (some k', op') → i < j

/-! ## Growing histories -/

variable {O : SeqObject σ ι ω} {I : Interface κ Q ι ω ρ} {Own : ι → Prop}
  {H : List (Event κ Q ρ)} {L : List (Option κ × ι)}

/-- A call begins once, with one request. -/
theorem WellFormed.invoke_unique (h : WellFormed H) {k : κ} {q q' : Q} (hq : .invoke k q ∈ H)
    (hq' : .invoke k q' ∈ H) : q = q' := by
  induction h with
  | nil => cases hq
  | invoke q₀ _ hnew ih =>
    rcases List.mem_append.mp hq with hold | hlast <;>
      rcases List.mem_append.mp hq' with hold' | hlast'
    · exact ih hold hold'
    · cases List.mem_singleton.mp hlast'
      exact absurd hold (hnew q)
    · cases List.mem_singleton.mp hlast
      exact absurd hold' (hnew q')
    · cases List.mem_singleton.mp hlast
      cases List.mem_singleton.mp hlast'
      rfl
  | respond r _ _ _ ih => exact ih (by simpa using hq) (by simpa using hq')

theorem Precedes.of_respond {k k' k₀ : κ} {r : ρ} (h : Precedes (H ++ [.respond k₀ r]) k k') :
    Precedes H k k' := by
  obtain ⟨i, j, r', q, hlt, hi, hj⟩ := h
  rcases getElem?_concat hj with hj | ⟨_, heq⟩
  · rcases getElem?_concat hi with hi | ⟨rfl, _⟩
    · exact ⟨i, j, r', q, hlt, hi, hj⟩
    · have := (List.getElem?_eq_some_iff.mp hj).1
      omega
  · cases heq

theorem Precedes.of_invoke {k k' k₀ : κ} {q : Q} (h : Precedes (H ++ [.invoke k₀ q]) k k') :
    Precedes H k k' ∨ k' = k₀ := by
  obtain ⟨i, j, r, q', hlt, hi, hj⟩ := h
  rcases getElem?_concat hj with hj | ⟨_, heq⟩
  · rcases getElem?_concat hi with hi | ⟨_, heq⟩
    · exact .inl ⟨i, j, r, q', hlt, hi, hj⟩
    · cases heq
  · cases heq
    exact .inr rfl

theorem Precedes.responded {k k' : κ} (h : Precedes H k k') : ∃ r, .respond k r ∈ H := by
  obtain ⟨i, j, r, q, -, hi, -⟩ := h
  exact ⟨r, List.mem_of_getElem? hi⟩

theorem EffectAt.concat {i : Nat} {k : κ} {w : ω} (h : EffectAt O L i k w) (e : Option κ × ι) :
    EffectAt O (L ++ [e]) i k w := by
  obtain ⟨op, hi, hw⟩ := h
  have hle : i ≤ L.length := Nat.le_of_lt (List.getElem?_eq_some_iff.mp hi).1
  refine ⟨op, getElem?_append_of_some hi, ?_⟩
  rw [List.take_append_of_le_length hle]
  exact hw

namespace Linearization

theorem nil : Linearization O I Own ([] : List (Event κ Q ρ)) [] where
  once h := by simp at h
  asked h := by simp at h
  own h := by simp at h
  explained h := by simp at h
  realTime _ h := by simp at h

/-- A call begins. -/
theorem invoke (h : Linearization O I Own H L) {k : κ} (q : Q) (hnew : ∀ q, .invoke k q ∉ H) :
    Linearization O I Own (H ++ [.invoke k q]) L where
  once := h.once
  asked hi := by
    obtain ⟨q', hq', hop⟩ := h.asked hi
    exact ⟨q', List.mem_append_left _ hq', hop⟩
  own := h.own
  explained hr := by
    rcases List.mem_append.mp hr with hr | hr
    · obtain ⟨q', hq', hexplained⟩ := h.explained hr
      exact ⟨q', List.mem_append_left _ hq', hexplained⟩
    · simp at hr
  realTime hp hi hj := by
    rcases hp.of_invoke with hp | rfl
    · exact h.realTime hp hi hj
    · -- the new call is not in the order yet
      obtain ⟨q', hq', -⟩ := h.asked hj
      exact absurd hq' (hnew q')

/-- A call is answered. -/
theorem respond (h : Linearization O I Own H L) {k : κ} {q : Q} {r : ρ} (hbegun : .invoke k q ∈ H)
    (hexplained : (∃ i w, EffectAt O L i k w ∧ I.explains k q (some w) r) ∨
      (∀ (i : Nat) (op : ι), L[i]? ≠ some (some k, op)) ∧ I.explains k q none r) :
    Linearization O I Own (H ++ [.respond k r]) L where
  once := h.once
  asked hi := by
    obtain ⟨q', hq', hop⟩ := h.asked hi
    exact ⟨q', List.mem_append_left _ hq', hop⟩
  own := h.own
  explained {k' r'} hr := by
    rcases List.mem_append.mp hr with hr | hr
    · obtain ⟨q', hq', hold⟩ := h.explained hr
      exact ⟨q', List.mem_append_left _ hq', hold⟩
    · obtain ⟨rfl, rfl⟩ := Event.respond.inj (List.mem_singleton.mp hr)
      exact ⟨q, List.mem_append_left _ hbegun, hexplained⟩
  realTime hp := h.realTime hp.of_respond

/-- One more operation in the order, which no answered call asked for. -/
theorem grow (h : Linearization O I Own H L) {e : Option κ × ι}
    (hasked : ∀ k, e.1 = some k → ∃ q, .invoke k q ∈ H ∧ e.2 = I.operation k q)
    (hown : e.1 = none → Own e.2) (hopen : ∀ k r, e.1 = some k → .respond k r ∉ H)
    (hnew : ∀ k, e.1 = some k → ∀ (i : Nat) (op : ι), L[i]? ≠ some (some k, op)) :
    Linearization O I Own H (L ++ [e]) where
  once {i j k op op'} hi hj := by
    rcases getElem?_concat hi with hi' | ⟨rfl, rfl⟩
    · rcases getElem?_concat hj with hj' | ⟨rfl, rfl⟩
      · exact h.once hi' hj'
      · exact absurd hi' (hnew k rfl i op)
    · rcases getElem?_concat hj with hj' | ⟨rfl, -⟩
      · exact absurd hj' (hnew k rfl j op')
      · rfl
  asked hi := by
    rcases getElem?_concat hi with hi | ⟨-, rfl⟩
    · exact h.asked hi
    · exact hasked _ rfl
  own hi := by
    rcases getElem?_concat hi with hi | ⟨-, rfl⟩
    · exact h.own hi
    · exact hown rfl
  explained {k r} hr := by
    obtain ⟨q, hq, ⟨i, w, heffect, hexplains⟩ | ⟨hout, hexplains⟩⟩ := h.explained hr
    · exact ⟨q, hq, .inl ⟨i, w, heffect.concat e, hexplains⟩⟩
    · refine ⟨q, hq, .inr ⟨fun i op hi => ?_, hexplains⟩⟩
      rcases getElem?_concat hi with hi | ⟨-, heq⟩
      · exact hout i op hi
      · exact hopen k r (heq ▸ rfl) hr
  realTime {k k' i j op op'} hp hi hj := by
    rcases getElem?_concat hi with hi | ⟨-, heq⟩
    · rcases getElem?_concat hj with hj | ⟨rfl, -⟩
      · exact h.realTime hp hi hj
      · exact (List.getElem?_eq_some_iff.mp hi).1
    · -- the last operation belongs to no answered call
      obtain ⟨r, hr⟩ := hp.responded
      exact absurd hr (hopen k r (heq ▸ rfl))

/-- An open call takes effect. -/
theorem perform (h : Linearization O I Own H L) {k : κ} {q : Q} (hbegun : .invoke k q ∈ H)
    (hopen : ∀ r, .respond k r ∉ H) (hnew : ∀ (i : Nat) (op : ι), L[i]? ≠ some (some k, op)) :
    Linearization O I Own H (L ++ [(some k, I.operation k q)]) := by
  refine h.grow ?_ ?_ ?_ ?_
  · rintro k' ⟨⟩
    exact ⟨q, hbegun, rfl⟩
  · rintro ⟨⟩
  · rintro k' r ⟨⟩
    exact hopen r
  · rintro k' ⟨⟩
    exact hnew

/-- The object performs an operation of its own. -/
theorem internal (h : Linearization O I Own H L) {op : ι} (hown : Own op) :
    Linearization O I Own H (L ++ [(none, op)]) := by
  refine h.grow ?_ (fun _ => hown) ?_ ?_
  · rintro k ⟨⟩
  · rintro k r ⟨⟩
  · rintro k ⟨⟩

end Linearization

end Linearizability
