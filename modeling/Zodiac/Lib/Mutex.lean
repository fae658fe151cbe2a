import Zodiac.Lib.Machine

/-!
# Programs that share a mutex

Operations of a program whose threads share a state and one mutex that is not
reentrant. An operation is a tree of atomic actions (`LockProg`); `lockMachine` runs
any number of operations in any interleaving.

* `Disciplined`: an operation locks only when it does not hold the mutex, unlocks
  only when it does, waits for nothing else while it holds it, and ends in a given
  lock state. The rules `disciplined_bind` and `disciplined_critical` follow the way
  operations are put together.
* `lockSafe_of_reachable`: if all operations are disciplined, then in every
  interleaving no thread locks the mutex twice, a thread that has ended does not hold
  it, and the mutex can always be released.
* `relock_never_ends`: an operation that starts by locking twice never ends.
* `reaches_of_runAlone`: an operation that runs undisturbed does what `runAlone` says.
-/

/-- An operation on the shared state `σ` that can start the operations `ω`.

`act` reads the state and changes it, `await` blocks until the state meets a
condition, and `go` starts another operation. -/
inductive LockProg (σ ω α : Type)
  | ret (a : α)
  | panic
  | lock (k : LockProg σ ω α)
  | unlock (k : LockProg σ ω α)
  | act (upd : σ → σ) (k : σ → LockProg σ ω α)
  | await (ready : σ → Bool) (k : LockProg σ ω α)
  | go (op : ω) (k : LockProg σ ω α)

namespace LockProg

variable {σ ω α γ : Type}

/-! ## Putting operations together -/

/-- Sequencing. A panic ends the whole operation. -/
def bind : LockProg σ ω α → (α → LockProg σ ω γ) → LockProg σ ω γ
  | .ret a, f => f a
  | .panic, _ => .panic
  | .lock k, f => .lock (k.bind f)
  | .unlock k, f => .unlock (k.bind f)
  | .act upd k, f => .act upd fun s => (k s).bind f
  | .await ready k, f => .await ready (k.bind f)
  | .go op k, f => .go op (k.bind f)

instance : Monad (LockProg σ ω) where
  pure := .ret
  bind := .bind

/-- Take the mutex. -/
def acquire : LockProg σ ω Unit := .lock (.ret ())

/-- Give the mutex back. -/
def release : LockProg σ ω Unit := .unlock (.ret ())

/-- Read the state and replace it. -/
def modifyGet (f : σ → α × σ) : LockProg σ ω α := .act (fun s => (f s).2) fun s => .ret (f s).1

/-- Read the state. -/
def read : LockProg σ ω σ := modifyGet fun s => (s, s)

/-- Change the state. -/
def modify (f : σ → σ) : LockProg σ ω Unit := modifyGet fun s => ((), f s)

/-- Wait until the state meets the condition. -/
def waitFor (ready : σ → Bool) : LockProg σ ω Unit := .await ready (.ret ())

/-- Start another operation. -/
def start (op : ω) : LockProg σ ω Unit := .go op (.ret ())

/-- The rest of an operation under a deferred unlock, which runs when it returns and
when it panics. -/
def deferRelease : LockProg σ ω α → LockProg σ ω α
  | .ret a => .unlock (.ret a)
  | .panic => .unlock .panic
  | .lock k => .lock k.deferRelease
  | .unlock k => .unlock k.deferRelease
  | .act upd k => .act upd fun s => (k s).deferRelease
  | .await ready k => .await ready k.deferRelease
  | .go op k => .go op k.deferRelease

/-- A lock with a deferred unlock, and then the given rest. -/
def critical (p : LockProg σ ω α) : LockProg σ ω α := .lock p.deferRelease

/-- Lock, read and replace the state, unlock. -/
def locked (f : σ → α × σ) : LockProg σ ω α := do
  acquire
  let a ← modifyGet f
  release
  return a

/-- The operation has returned or panicked. -/
def ended : LockProg σ ω α → Bool
  | .ret _ | .panic => true
  | _ => false

/-! ## An operation that runs alone -/

/-- What an operation does when nothing else runs: what it returns, or none for a
panic, and the state it leaves. None when it waits for something. -/
def runAlone : LockProg σ ω α → σ → Option (Option α × σ)
  | .ret a, s => some (some a, s)
  | .panic, s => some (none, s)
  | .lock k, s => k.runAlone s
  | .unlock k, s => k.runAlone s
  | .act upd k, s => (k s).runAlone (upd s)
  | .await ready k, s => if ready s then k.runAlone s else none
  | .go _ k, s => k.runAlone s

/-- The end of an operation that returns the value, or panics. -/
def finish : Option α → LockProg σ ω α
  | some a => .ret a
  | none => .panic

@[simp]
theorem runAlone_pure (a : α) (s : σ) :
    (pure a : LockProg σ ω α).runAlone s = some (some a, s) := rfl

@[simp]
theorem runAlone_acquire (s : σ) : (acquire : LockProg σ ω Unit).runAlone s = some (some (), s) :=
  rfl

@[simp]
theorem runAlone_release (s : σ) : (release : LockProg σ ω Unit).runAlone s = some (some (), s) :=
  rfl

@[simp]
theorem runAlone_modifyGet (f : σ → α × σ) (s : σ) :
    (modifyGet f : LockProg σ ω α).runAlone s = some (some (f s).1, (f s).2) := rfl

@[simp]
theorem runAlone_read (s : σ) : (read : LockProg σ ω σ).runAlone s = some (some s, s) := rfl

@[simp]
theorem runAlone_modify (f : σ → σ) (s : σ) :
    (modify f : LockProg σ ω Unit).runAlone s = some (some (), f s) := rfl

@[simp]
theorem runAlone_bind (p : LockProg σ ω α) (f : α → LockProg σ ω γ) : ∀ s : σ,
    (p >>= f).runAlone s = (p.runAlone s).bind fun r =>
      match r.1 with
      | some a => (f a).runAlone r.2
      | none => some (none, r.2) := by
  show ∀ s : σ, (p.bind f).runAlone s = _
  induction p with
  | ret a | panic => exact fun s => rfl
  | lock k ih | unlock k ih | go op k ih => exact ih
  | act upd k ih => exact fun s => ih s (upd s)
  | await ready k ih =>
    intro s
    simp only [bind, runAlone]
    split
    · exact ih s
    · rfl

@[simp]
theorem runAlone_critical (p : LockProg σ ω α) (s : σ) : p.critical.runAlone s = p.runAlone s := by
  show p.deferRelease.runAlone s = p.runAlone s
  induction p generalizing s with
  | ret a | panic => rfl
  | lock k ih | unlock k ih | go op k ih => exact ih s
  | act upd k ih => exact ih s (upd s)
  | await ready k ih =>
    simp only [deferRelease, runAlone, ih]

/-! ## Lock discipline -/

section Discipline

variable (ok : ω → Prop)

/-- From the point where the operation holds the mutex or not (`held`) it uses the
mutex properly, starts operations that are `ok` only, and holds the mutex or not when
it returns (`after`) and when it panics (`crash`). -/
def Disciplined : LockProg σ ω α → (held after crash : Bool) → Prop
  | .ret _, held, after, _ => held = after
  | .panic, held, _, crash => held = crash
  | .lock k, held, after, crash => held = false ∧ k.Disciplined true after crash
  | .unlock k, held, after, crash => held = true ∧ k.Disciplined false after crash
  | .act _ k, held, after, crash => ∀ s, (k s).Disciplined held after crash
  | .await _ k, held, after, crash => held = false ∧ k.Disciplined held after crash
  | .go op k, held, after, crash => ok op ∧ k.Disciplined held after crash

variable {ok}

theorem disciplined_bind {p : LockProg σ ω α} {f : α → LockProg σ ω γ}
    {held mid after crash : Bool} (hp : p.Disciplined ok held mid crash)
    (hf : ∀ a, (f a).Disciplined ok mid after crash) : (p >>= f).Disciplined ok held after crash := by
  show (p.bind f).Disciplined ok held after crash
  induction p generalizing held with
  | ret a => exact hp ▸ hf a
  | panic => exact hp
  | lock k ih | unlock k ih | await ready k ih | go op k ih => exact ⟨hp.1, ih hp.2⟩
  | act upd k ih => exact fun s => ih s (hp s)

theorem disciplined_deferRelease {p : LockProg σ ω α} {held : Bool}
    (hp : p.Disciplined ok held true true) : p.deferRelease.Disciplined ok held false false := by
  induction p generalizing held with
  | ret a | panic => exact ⟨hp, rfl⟩
  | lock k ih | unlock k ih | await ready k ih | go op k ih => exact ⟨hp.1, ih hp.2⟩
  | act upd k ih => exact fun s => ih s (hp s)

theorem disciplined_critical {p : LockProg σ ω α} (h : p.Disciplined ok true true true) :
    p.critical.Disciplined ok false false false :=
  ⟨rfl, disciplined_deferRelease h⟩

variable {held crash : Bool}

theorem disciplined_acquire : (acquire : LockProg σ ω Unit).Disciplined ok false true crash :=
  ⟨rfl, rfl⟩

theorem disciplined_release : (release : LockProg σ ω Unit).Disciplined ok true false crash :=
  ⟨rfl, rfl⟩

theorem disciplined_modifyGet (f : σ → α × σ) :
    (modifyGet f : LockProg σ ω α).Disciplined ok held held crash :=
  fun _ => rfl

theorem disciplined_locked (f : σ → α × σ) :
    (locked f : LockProg σ ω α).Disciplined ok false false crash := by
  refine disciplined_bind disciplined_acquire fun _ => ?_
  refine disciplined_bind (disciplined_modifyGet f) fun _ => ?_
  exact disciplined_bind disciplined_release fun _ => rfl

theorem disciplined_waitFor (ready : σ → Bool) :
    (waitFor ready : LockProg σ ω Unit).Disciplined ok false false crash :=
  ⟨rfl, rfl⟩

theorem disciplined_start {op : ω} (h : ok op) :
    (start op : LockProg σ ω Unit).Disciplined ok held held crash :=
  ⟨h, rfl⟩

end Discipline

end LockProg

/-! ## Threads -/

/-- The shared state, the thread that holds the mutex, and what each thread still has
to do. -/
structure LockState (σ ω α : Type) where
  shared : σ
  holder : Option Nat
  threads : List (LockProg σ ω α)

/-- Steps: an operation starts in a new thread, or a thread does its next action. -/
inductive LockStep (ω : Type)
  | start (op : ω)
  | run (i : Nat)

section Threads

variable {σ ω α : Type} (body : ω → LockProg σ ω α)

namespace LockState

/-- Thread `i` goes on with `k`. -/
def resume (s : LockState σ ω α) (i : Nat) (k : LockProg σ ω α) : LockState σ ω α :=
  { s with threads := s.threads.set i k }

/-- A new thread. -/
def spawn (s : LockState σ ω α) (op : ω) : LockState σ ω α :=
  { s with threads := s.threads ++ [body op] }

/-- The next action of thread `i`. A thread that has ended does nothing; one that wants
a mutex which is held, waits for a condition which does not hold, or unlocks a mutex
which it does not hold is stuck. -/
def next (s : LockState σ ω α) (i : Nat) : LockProg σ ω α → Option (LockState σ ω α)
  | .ret _ => none
  | .panic => none
  | .lock k => if s.holder = none then some { s.resume i k with holder := some i } else none
  | .unlock k => if s.holder = some i then some { s.resume i k with holder := none } else none
  | .act upd k => some { s.resume i (k s.shared) with shared := upd s.shared }
  | .await ready k => if ready s.shared then some (s.resume i k) else none
  | .go op k => some ((s.resume i k).spawn body op)

end LockState

/-- Any number of operations on the shared state, in any interleaving. -/
def lockMachine (shared : σ) : Machine (LockState σ ω α) (LockStep ω) where
  init := { shared := shared, holder := none, threads := [] }
  step s
    | .start op => some (s.spawn body op)
    | .run i =>
      match s.threads[i]? with
      | none => none
      | some p => s.next body i p

/-- Only operations that are `ok` are started from outside. -/
def StartsOnly (ok : ω → Prop) (_ : LockState σ ω α) : LockStep ω → Prop
  | .start op => ok op
  | .run _ => True

instance (ok : ω → Prop) [DecidablePred ok] (s : LockState σ ω α) (a : LockStep ω) :
    Decidable (StartsOnly ok s a) := by
  unfold StartsOnly
  split <;> infer_instance

/-- What is asked of the use of the mutex in one state. -/
structure LockSafe (s : LockState σ ω α) : Prop where
  /-- No thread is about to lock the mutex that it holds. -/
  no_relock : ∀ i k, s.threads[i]? = some (.lock k) → s.holder ≠ some i
  /-- No thread is about to unlock a mutex that it does not hold. -/
  unlock_own : ∀ i k, s.threads[i]? = some (.unlock k) → s.holder = some i
  /-- A thread that has returned or panicked does not hold the mutex. -/
  released : ∀ (i : Nat) (p : LockProg σ ω α), s.threads[i]? = some p → p.ended = true → s.holder ≠ some i
  /-- Steps of the thread that holds the mutex, and of no other, free it. -/
  can_free : ∀ shared i, s.holder = some i → ∃ n s',
    (lockMachine body shared).exec s (List.replicate n (.run i)) = some s' ∧ s'.holder = none

namespace LockState

/-! ## The invariant -/

/-- Every thread is disciplined, given whether it holds the mutex. -/
structure Inv (ok : ω → Prop) (s : LockState σ ω α) : Prop where
  threads : ∀ (i : Nat) (p : LockProg σ ω α), s.threads[i]? = some p →
    p.Disciplined ok (decide (s.holder = some i)) false false
  holder : ∀ i, s.holder = some i → ∃ p, s.threads[i]? = some p

variable {ok : ω → Prop} {body} {s : LockState σ ω α}

/-- Thread `i` goes on, and the mutex changes hands between it and nobody at most. -/
theorem Inv.resume (h : s.Inv ok) {i : Nat} {p k : LockProg σ ω α} (hi : s.threads[i]? = some p)
    (holder : Option Nat) (hk : k.Disciplined ok (decide (holder = some i)) false false)
    (hother : ∀ j, j ≠ i → (holder = some j ↔ s.holder = some j)) (shared : σ) :
    Inv ok { s.resume i k with holder := holder, shared := shared } := by
  have hlt := (List.getElem?_eq_some_iff.mp hi).1
  refine ⟨?_, ?_⟩
  · intro j q hq
    simp only [LockState.resume] at hq
    by_cases hj : j = i
    · subst hj
      rw [List.getElem?_set_self hlt] at hq
      cases hq
      exact hk
    · rw [List.getElem?_set_ne (Ne.symm hj)] at hq
      simp only [hother j hj]
      exact h.threads j q hq
  · intro j hj
    simp only [LockState.resume]
    by_cases hji : j = i
    · subst hji
      exact ⟨k, List.getElem?_set_self hlt⟩
    · rw [List.getElem?_set_ne (Ne.symm hji)]
      exact h.holder j ((hother j hji).mp hj)

theorem Inv.spawn (h : s.Inv ok) {op : ω} (hop : (body op).Disciplined ok false false false) :
    Inv ok (s.spawn body op) := by
  refine ⟨?_, ?_⟩
  · intro j q hq
    rcases History.getElem?_concat hq with hq | ⟨rfl, rfl⟩
    · exact h.threads j q hq
    · -- the thread that holds the mutex is an old one
      have hfree : s.holder ≠ some s.threads.length := by
        intro heq
        obtain ⟨p, hp⟩ := h.holder _ heq
        simp at hp
      have hfalse : decide ((s.spawn body op).holder = some s.threads.length) = false :=
        decide_eq_false hfree
      rw [hfalse]
      exact hop
  · intro j hj
    obtain ⟨p, hp⟩ := h.holder j hj
    exact ⟨p, History.getElem?_append_of_some hp⟩

theorem Inv.next (hok : ∀ op, ok op → (body op).Disciplined ok false false false) (h : s.Inv ok)
    {i : Nat} {p : LockProg σ ω α} (hi : s.threads[i]? = some p) {s' : LockState σ ω α}
    (hs : s.next body i p = some s') : s'.Inv ok := by
  have hp := h.threads i p hi
  cases p with
  | ret a | panic => cases hs
  | lock k =>
    simp only [LockState.next] at hs
    split at hs
    · next hfree =>
      cases hs
      refine h.resume hi (some i) ?_ (fun j hj => ?_) s.shared
      · rw [decide_eq_true rfl]
        exact hp.2
      · simp [hfree, Ne.symm hj]
    · cases hs
  | unlock k =>
    simp only [LockState.next] at hs
    split at hs
    · next hheld =>
      cases hs
      refine h.resume hi none hp.2 (fun j hj => ?_) s.shared
      simp [hheld, Ne.symm hj]
    · cases hs
  | act upd k =>
    cases hs
    exact h.resume hi s.holder (hp s.shared) (fun _ _ => Iff.rfl) (upd s.shared)
  | await ready k =>
    simp only [LockState.next] at hs
    split at hs
    · cases hs
      exact h.resume hi s.holder hp.2 (fun _ _ => Iff.rfl) s.shared
    · cases hs
  | go op k =>
    cases hs
    exact (h.resume hi s.holder hp.2 (fun _ _ => Iff.rfl) s.shared).spawn (hok op hp.1)

theorem inv_of_reachable (hok : ∀ op, ok op → (body op).Disciplined ok false false false)
    {shared : σ} (h : (lockMachine body shared).ReachableBy (StartsOnly ok) s) : s.Inv ok := by
  refine h.invariant ?_ fun s a s' _ hinv hg hstep => ?_
  · exact ⟨fun i p hp => by simp [lockMachine] at hp, nofun⟩
  · cases a with
    | start op =>
      cases hstep
      exact hinv.spawn (hok op hg)
    | run i =>
      simp only [lockMachine] at hstep
      split at hstep
      · cases hstep
      · next p hi => exact hinv.next hok hi hstep

/-! ## Steps of one thread -/

theorem step_run {shared : σ} {i : Nat} {p : LockProg σ ω α} (hi : s.threads[i]? = some p) :
    (lockMachine body shared).step s (.run i) = s.next body i p := by
  simp only [lockMachine, hi]

/-- One step of the thread, and then the rest. -/
theorem exec_replicate_succ {shared : σ} {i : Nat} {p : LockProg σ ω α} {s₁ : LockState σ ω α}
    (hi : s.threads[i]? = some p) (hs : s.next body i p = some s₁) (n : Nat) :
    (lockMachine body shared).exec s (List.replicate (n + 1) (.run i)) =
      (lockMachine body shared).exec s₁ (List.replicate n (.run i)) := by
  rw [List.replicate_succ, Machine.exec_cons, step_run hi, hs]
  rfl

theorem getElem?_resume_self {i : Nat} {p : LockProg σ ω α} (hi : s.threads[i]? = some p)
    (k : LockProg σ ω α) : (s.resume i k).threads[i]? = some k :=
  List.getElem?_set_self (List.getElem?_eq_some_iff.mp hi).1

/-- A thread that holds the mutex and is disciplined gives it back when it is run. -/
theorem exists_free {shared : σ} {i : Nat} {p : LockProg σ ω α} : ∀ {s : LockState σ ω α},
    s.threads[i]? = some p → s.holder = some i → p.Disciplined ok true false false → ∃ n s',
      (lockMachine body shared).exec s (List.replicate n (.run i)) = some s' ∧
      s'.holder = none := by
  induction p with
  | ret a | panic => exact fun _ _ hp => nomatch hp
  | lock k ih => exact fun _ _ hp => nomatch hp.1
  | await ready k ih => exact fun _ _ hp => nomatch hp.1
  | unlock k ih =>
    intro s hi hheld _
    refine ⟨1, { s.resume i k with holder := none }, ?_, rfl⟩
    exact exec_replicate_succ hi (if_pos hheld) 0
  | act upd k ih =>
    intro s hi hheld hp
    obtain ⟨n, s', hs', hfree⟩ := ih s.shared
      (s := { s.resume i (k s.shared) with shared := upd s.shared })
      (getElem?_resume_self hi _) hheld (hp s.shared)
    exact ⟨n + 1, s', (exec_replicate_succ hi rfl n).trans hs', hfree⟩
  | go op k ih =>
    intro s hi hheld hp
    obtain ⟨n, s', hs', hfree⟩ := ih (s := (s.resume i k).spawn body op)
      (History.getElem?_append_of_some (getElem?_resume_self hi _)) hheld hp.2
    exact ⟨n + 1, s', (exec_replicate_succ hi rfl n).trans hs', hfree⟩

/-- A step of another thread, or the start of one, leaves the thread where it is, and
it keeps the mutex if it has it. -/
theorem step_other {shared : σ} {i : Nat} {p : LockProg σ ω α} (hi : s.threads[i]? = some p)
    {a : LockStep ω} (ha : a ≠ .run i) {s' : LockState σ ω α}
    (hstep : (lockMachine body shared).step s a = some s') :
    s'.threads[i]? = some p ∧ (s.holder = some i → s'.holder = some i) := by
  cases a with
  | start op =>
    cases hstep
    exact ⟨History.getElem?_append_of_some hi, fun h => h⟩
  | run j =>
    have hji : j ≠ i := fun h => ha (h ▸ rfl)
    have hset : ∀ k, (s.resume j k).threads[i]? = some p := fun k => by
      rw [LockState.resume, List.getElem?_set_ne hji]
      exact hi
    simp only [lockMachine] at hstep
    split at hstep
    · cases hstep
    · next q hj =>
      cases q with
      | ret a | panic => cases hstep
      | lock k =>
        simp only [LockState.next] at hstep
        split at hstep
        · next hfree =>
          cases hstep
          exact ⟨hset k, fun h => by simp [hfree] at h⟩
        · cases hstep
      | unlock k =>
        simp only [LockState.next] at hstep
        split at hstep
        · next hheld =>
          cases hstep
          exact ⟨hset k, fun h => absurd (Option.some.inj (hheld.symm.trans h)) hji⟩
        · cases hstep
      | act upd k =>
        cases hstep
        exact ⟨hset _, fun h => h⟩
      | await ready k =>
        simp only [LockState.next] at hstep
        split at hstep
        · cases hstep
          exact ⟨hset k, fun h => h⟩
        · cases hstep
      | go op k =>
        cases hstep
        exact ⟨History.getElem?_append_of_some (hset k), fun h => h⟩

/-- The thread is about to lock the mutex that it holds. -/
def SelfDeadlocked (s : LockState σ ω α) (i : Nat) (k : LockProg σ ω α) : Prop :=
  s.threads[i]? = some (.lock k) ∧ s.holder = some i

theorem SelfDeadlocked.step {shared : σ} {i : Nat} {k : LockProg σ ω α} (h : s.SelfDeadlocked i k)
    {a : LockStep ω} {s' : LockState σ ω α}
    (hstep : (lockMachine body shared).step s a = some s') : s'.SelfDeadlocked i k := by
  obtain ⟨hi, hheld⟩ := h
  by_cases ha : a = .run i
  · subst ha
    rw [step_run hi] at hstep
    simp [LockState.next, hheld] at hstep
  · obtain ⟨hi', hheld'⟩ := step_other hi ha hstep
    exact ⟨hi', hheld' hheld⟩

end LockState

/-! ## Results -/

/-- If all operations that may be started are disciplined, the use of the mutex is safe
in every interleaving. -/
theorem lockSafe_of_reachable {ok : ω → Prop}
    (hok : ∀ op, ok op → (body op).Disciplined ok false false false) {shared : σ}
    {s : LockState σ ω α} (h : (lockMachine body shared).ReachableBy (StartsOnly ok) s) :
    LockSafe body s := by
  have hinv := LockState.inv_of_reachable hok h
  refine ⟨?_, ?_, ?_, ?_⟩
  · intro i k hi hheld
    have hp := (hinv.threads i _ hi).1
    simp [hheld] at hp
  · intro i k hi
    exact of_decide_eq_true (hinv.threads i _ hi).1
  · intro i p hi hend hheld
    have hp := hinv.threads i _ hi
    rw [decide_eq_true hheld] at hp
    cases p with
    | ret a | panic => cases hp
    | _ => cases hend
  · intro shared i hheld
    obtain ⟨p, hi⟩ := hinv.holder i hheld
    have hp := hinv.threads i p hi
    rw [decide_eq_true hheld] at hp
    exact LockState.exists_free hi hheld hp

/-- A thread that locks the mutex it holds is stuck with it, whatever happens later. -/
theorem selfDeadlocked_forever {shared : σ} {i : Nat} {k : LockProg σ ω α}
    {as : List (LockStep ω)} {s s' : LockState σ ω α} (h : s.SelfDeadlocked i k)
    (hexec : (lockMachine body shared).exec s as = some s') : s'.SelfDeadlocked i k :=
  Machine.exec_invariant (P := fun s => s.SelfDeadlocked i k) (fun _ _ _ h hs => h.step hs) h hexec

/-- An operation that starts by locking twice never gets past its second lock. -/
theorem relock_never_ends {shared : σ} {i : Nat} {k : LockProg σ ω α}
    {as : List (LockStep ω)} {s s' : LockState σ ω α} (h : s.threads[i]? = some (.lock (.lock k)))
    (hexec : (lockMachine body shared).exec s as = some s') :
    s'.threads[i]? = some (.lock (.lock k)) ∨ s'.SelfDeadlocked i k := by
  refine Machine.exec_invariant
    (P := fun s => s.threads[i]? = some (.lock (.lock k)) ∨ s.SelfDeadlocked i k)
    (fun s a s' h hs => ?_) (.inl h) hexec
  rcases h with hi | hself
  · by_cases ha : a = .run i
    · subst ha
      rw [LockState.step_run hi] at hs
      simp only [LockState.next] at hs
      split at hs
      · cases hs
        exact .inr ⟨LockState.getElem?_resume_self hi _, rfl⟩
      · cases hs
    · exact .inl (LockState.step_other hi ha hs).1
  · exact .inr (hself.step hs)

/-- A disciplined operation that is not disturbed does what `runAlone` says, and ends
with the mutex free. -/
theorem reaches_of_runAlone {ok : ω → Prop} {shared : σ} {i : Nat} {p : LockProg σ ω α}
    {r : Option α} {shared' : σ} : ∀ (held : Bool) {s : LockState σ ω α},
    s.threads[i]? = some p → p.Disciplined ok held false false →
    s.holder = (if held then some i else none) → p.runAlone s.shared = some (r, shared') →
    ∃ n s', (lockMachine body shared).exec s (List.replicate n (.run i)) = some s' ∧
      s'.shared = shared' ∧ s'.holder = none ∧ s'.threads[i]? = some (.finish r) := by
  -- one step of the thread, and then the rest
  have hcons : ∀ {p : LockProg σ ω α} {s s₁ : LockState σ ω α}, s.threads[i]? = some p →
      s.next body i p = some s₁ →
      (∃ n s', (lockMachine body shared).exec s₁ (List.replicate n (.run i)) = some s' ∧
        s'.shared = shared' ∧ s'.holder = none ∧ s'.threads[i]? = some (.finish r)) →
      ∃ n s', (lockMachine body shared).exec s (List.replicate n (.run i)) = some s' ∧
        s'.shared = shared' ∧ s'.holder = none ∧ s'.threads[i]? = some (.finish r) := by
    rintro p s s₁ hi hs ⟨n, s', hs', hrest⟩
    exact ⟨n + 1, s', (LockState.exec_replicate_succ hi hs n).trans hs', hrest⟩
  induction p with
  | ret a | panic =>
    intro held s hi hp hheld hrun
    cases hrun
    cases hp
    exact ⟨0, s, rfl, rfl, hheld, hi⟩
  | lock k ih =>
    intro held s hi hp hheld hrun
    obtain ⟨rfl, hk⟩ := hp
    refine hcons hi (if_pos hheld) (ih true ?_ hk rfl hrun)
    exact LockState.getElem?_resume_self hi k
  | unlock k ih =>
    intro held s hi hp hheld hrun
    obtain ⟨rfl, hk⟩ := hp
    refine hcons hi (if_pos hheld) (ih false ?_ hk rfl hrun)
    exact LockState.getElem?_resume_self hi k
  | act upd k ih =>
    intro held s hi hp hheld hrun
    refine hcons hi rfl (ih s.shared held ?_ (hp s.shared) hheld hrun)
    exact LockState.getElem?_resume_self hi (k s.shared)
  | await ready k ih =>
    intro held s hi hp hheld hrun
    obtain ⟨rfl, hk⟩ := hp
    simp only [LockProg.runAlone] at hrun
    split at hrun
    · next hready =>
      refine hcons hi (if_pos hready) (ih false ?_ hk hheld hrun)
      exact LockState.getElem?_resume_self hi k
    · cases hrun
  | go op k ih =>
    intro held s hi hp hheld hrun
    refine hcons hi rfl (ih held ?_ hp.2 hheld hrun)
    exact History.getElem?_append_of_some (LockState.getElem?_resume_self hi k)

end Threads
