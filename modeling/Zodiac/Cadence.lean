import Zodiac.Lib.Machine
import Zodiac.Log

/-!
# When snapshots are taken

`handleCommand` calls `maybeSnapshot` only when `lastSnapshotIndex` is not
negative. The field starts at -1, and besides `maybeSnapshot` itself only a
restored snapshot writes it.

* `cadence`: runs of a service that applies entries and restores snapshots.
* `distance_lt_threshold_iff`: the distance to the last snapshot is below the
  threshold exactly for the first 99 indices and after a restore.
* `installed_eq_none`: a service that restores no snapshot never takes one.
* `no_snapshot_at_threshold`: entry 99 of such a service.
-/

namespace Zodiac

variable {β : Type}

/-! ## Runs -/

/-- A service with the index of the next entry. `restored` records whether a
snapshot has been restored. -/
structure Cadence where
  service : KVService
  next : Nat
  restored : Bool

/-- Steps of a run. A restored snapshot may let the log jump behind its index
or leave the position alone. -/
inductive CadenceStep (β : Type)
  | entry (env : Env) (cmd : Command)
  | restore (index : Nat) (data : β) (jump : Bool)

/-- A freshly created service that applies entries at consecutive indices and
restores snapshots in between. A snapshot that does not decode is dropped by
`handleSnapshot`. -/
def cadence (codec : SnapshotCodec β) : Machine Cadence (CadenceStep β) where
  init := { service := .new, next := 0, restored := false }
  step s
    | .entry env cmd =>
      some { s with
        service := (s.service.handleCommand codec env cmd s.next).1
        next := s.next + 1 }
    | .restore index data jump =>
      some {
        service := s.service.handleSnapshot codec index data
        next := if jump then index + 1 else s.next
        restored := s.restored || (codec.decode data).isSome }

/-! ## The index of the last snapshot -/

namespace CadenceLemmas

variable (codec : SnapshotCodec β)

/-- While the index is negative the guard keeps `handleCommand` from taking a
snapshot. -/
theorem handleCommand_negative (env : Env) {s : KVService} (cmd : Command) (index : Int)
    (h : s.lastSnapshotIndex < 0) :
    (s.handleCommand codec env cmd index).1.lastSnapshotIndex = s.lastSnapshotIndex ∧
    (s.handleCommand codec env cmd index).2.installed = none := by
  have hguard : ¬ (s.applyCommand env cmd).1.lastSnapshotIndex ≥ 0 := by
    rw [KVService.applyCommand_lastSnapshotIndex]
    omega
  simp only [KVService.handleCommand, if_neg hguard, and_true]
  exact KVService.applyCommand_lastSnapshotIndex env s cmd

/-- Past the guard, an encoder that succeeds keeps the distance below the
threshold. -/
theorem handleCommand_nonnegative (henc : ∀ snap, (codec.encode snap).isSome) (env : Env)
    {s : KVService} (cmd : Command) (index : Nat) (h : 0 ≤ s.lastSnapshotIndex) :
    0 ≤ (s.handleCommand codec env cmd index).1.lastSnapshotIndex ∧
    index - (s.handleCommand codec env cmd index).1.lastSnapshotIndex < snapshotThreshold := by
  have hlast := KVService.applyCommand_lastSnapshotIndex env s cmd
  have hguard : (s.applyCommand env cmd).1.lastSnapshotIndex ≥ 0 := by
    rw [hlast]
    exact h
  obtain ⟨data, hdata⟩ := Option.isSome_iff_exists.mp
    (henc ((s.applyCommand env cmd).1.snapshot env.snapshotKeys))
  simp only [KVService.handleCommand, if_pos hguard, KVService.maybeSnapshot,
    KVService.encodeSnapshot, hdata]
  split
  · next hlt => exact ⟨hguard, hlt⟩
  · exact ⟨Int.natCast_nonneg index, by simp [snapshotThreshold]⟩

/-- The index is that of a restore or of a later snapshot, or still -1. -/
theorem lastSnapshotIndex_reachable (henc : ∀ snap, (codec.encode snap).isSome) {s : Cadence}
    (h : (cadence codec).Reachable s) :
    if s.restored then 0 ≤ s.service.lastSnapshotIndex else s.service.lastSnapshotIndex = -1 := by
  refine h.invariant (I := fun s => if s.restored then 0 ≤ s.service.lastSnapshotIndex
    else s.service.lastSnapshotIndex = -1) rfl fun s a s' _ hinv _ hstep => ?_
  cases a with
  | entry env cmd =>
    cases hstep
    dsimp only
    split at hinv
    · next hr =>
      rw [if_pos hr]
      exact (handleCommand_nonnegative codec henc env cmd s.next hinv).1
    · next hr =>
      rw [if_neg hr, (handleCommand_negative codec env cmd s.next (by omega)).1]
      exact hinv
  | restore index data jump =>
    cases hstep
    simp only [KVService.handleSnapshot]
    cases codec.decode data with
    | none => simpa using hinv
    | some snap => simp

end CadenceLemmas

open CadenceLemmas

/-- In every run, after `handleCommand` at index `i` the distance to the last
snapshot is below the threshold exactly when `i` is below 99 or a snapshot was
restored earlier in the run. -/
theorem distance_lt_threshold_iff (codec : SnapshotCodec β)
    (henc : ∀ snap, (codec.encode snap).isSome) {s : Cadence} (h : (cadence codec).Reachable s)
    (env : Env) (cmd : Command) :
    s.next - (s.service.handleCommand codec env cmd s.next).1.lastSnapshotIndex <
      snapshotThreshold ↔ s.next < 99 ∨ s.restored = true := by
  have hlast := lastSnapshotIndex_reachable codec henc h
  cases hr : s.restored with
  | true =>
    rw [if_pos hr] at hlast
    exact iff_of_true (handleCommand_nonnegative codec henc env cmd s.next hlast).2 (.inr rfl)
  | false =>
    rw [if_neg (by rw [hr]; exact Bool.false_ne_true)] at hlast
    rw [(handleCommand_negative codec env cmd s.next (by omega)).1, hlast]
    simp only [snapshotThreshold, Bool.false_eq_true, or_false]
    omega

/-- A follower restores a leader's snapshot at index 200; after entry 201 the
distance is small. -/
theorem distance_lt_threshold_restored :
    ∃ s, (cadence .plain).Reachable s ∧ s.next = 201 ∧
      s.next - (s.service.handleCommand .plain (Env.at 0) { kind := .get } s.next).1.lastSnapshotIndex <
        snapshotThreshold := by
  have hrun : (cadence .plain).exec (cadence .plain).init
      [.restore 200 (KVService.new.snapshot fun _ => .ascending) true] = some _ := rfl
  have hreach := Machine.reachable_of_exec hrun
  exact ⟨_, hreach, rfl,
    (distance_lt_threshold_iff .plain (fun _ => rfl) hreach (Env.at 0) { kind := .get }).mpr
      (.inr rfl)⟩

/-- A service that restores no snapshot never takes one, whatever the log. -/
theorem installed_eq_none (codec : SnapshotCodec β) (log : List LogEntry) :
    (stateAfter codec log).lastSnapshotIndex = -1 ∧
    ∀ a ∈ appliedBy codec log, a.installed = none := by
  induction log using List.reverseRecOn with
  | nil => exact ⟨rfl, fun a ha => absurd ha List.not_mem_nil⟩
  | append_singleton log e ih =>
    obtain ⟨env, cmd⟩ := e
    obtain ⟨hlast, hnone⟩ := ih
    have hstep := handleCommand_negative codec env cmd log.length (by rw [hlast]; decide)
    rw [stateAfter_concat, appliedBy_concat]
    refine ⟨hstep.1.trans hlast, fun a ha => ?_⟩
    rcases List.mem_append.mp ha with ha | ha
    · exact hnone a ha
    · rw [List.mem_singleton.mp ha]
      exact hstep.2

/-- A run that applies the same put `n` times. -/
def putRun (n : Nat) : List (CadenceStep KvSnapshot) :=
  List.replicate n (.entry (Env.at 0) { kind := .put, key := "a", value := "x" })

theorem exec_putRun (n : Nat) : ∀ s : Cadence, ∃ s', (cadence .plain).exec s (putRun n) = some s' ∧
    s'.next = s.next + n ∧ s'.restored = s.restored := by
  induction n with
  | zero => exact fun s => ⟨s, rfl, rfl, rfl⟩
  | succ n ih =>
    intro s
    obtain ⟨s', hexec, hnext, hr⟩ := ih { s with
      service := (s.service.handleCommand .plain (Env.at 0) { kind := .put, key := "a", value := "x" }
        s.next).1
      next := s.next + 1 }
    exact ⟨s', hexec, by rw [hnext, Nat.add_assoc, Nat.add_comm 1], hr⟩

/-- A fresh service that has applied entries 0 to 98 takes no snapshot at entry
99: the distance reaches the threshold. -/
theorem no_snapshot_at_threshold :
    ∃ s, (cadence .plain).Reachable s ∧ s.next = 99 ∧
      ¬ s.next - (s.service.handleCommand .plain (Env.at 0) { kind := .get } s.next).1.lastSnapshotIndex <
        snapshotThreshold := by
  obtain ⟨s, hexec, hnext, hr⟩ := exec_putRun 99 (cadence .plain).init
  have hreach := Machine.reachable_of_exec hexec
  have hlast := lastSnapshotIndex_reachable .plain (fun _ => rfl) hreach
  have hfresh : (cadence .plain).init.restored = false := rfl
  have hnext : s.next = 99 := hnext
  rw [hr, hfresh, if_neg Bool.false_ne_true] at hlast
  refine ⟨s, hreach, hnext, ?_⟩
  rw [(handleCommand_negative .plain (Env.at 0) _ s.next (by omega)).1, hlast, hnext]
  decide

end Zodiac
