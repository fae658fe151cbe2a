import Zodiac.Convergence

/-!
# Applying a log

`applyLog` feeds a list of committed commands to `handleCommand`, each with the
environment of its application, and collects what every call gives to the
outside. Results about all logs are proved about `applyLog` by induction on the
list.
-/

namespace Zodiac

/-- A committed command together with the environment in which one replica
applies it. -/
abbrev LogEntry := Env × Command

variable {β : Type}

/-- Apply the entries at consecutive indices starting at `index`. -/
def applyLog (codec : SnapshotCodec β) :
    KVService → Int → List LogEntry → KVService × List (Applied β)
  | s, _, [] => (s, [])
  | s, index, (env, cmd) :: log =>
    let r := s.handleCommand codec env cmd index
    let rest := applyLog codec r.1 (index + 1) log
    (rest.1, r.2 :: rest.2)

/-- The state after a log applied by a new service. -/
def stateAfter (codec : SnapshotCodec β) (log : List LogEntry) : KVService :=
  (applyLog codec .new 0 log).1

/-- What the calls of `handleCommand` gave for a log applied by a new service. -/
def appliedBy (codec : SnapshotCodec β) (log : List LogEntry) : List (Applied β) :=
  (applyLog codec .new 0 log).2

/-- The watch events pushed for a log, in push order. -/
def eventsOf (codec : SnapshotCodec β) (log : List LogEntry) : List WatchEvent :=
  (appliedBy codec log).flatMap fun a => a.events

/-! ## Splitting a log -/

section Splitting

variable (codec : SnapshotCodec β)

theorem applyLog_append (log log' : List LogEntry) : ∀ (s : KVService) (index : Int),
    applyLog codec s index (log ++ log') =
      let r := applyLog codec s index log
      let r' := applyLog codec r.1 (index + log.length) log'
      (r'.1, r.2 ++ r'.2) := by
  induction log with
  | nil => intro s index; simp [applyLog]
  | cons e log ih =>
    intro s index
    obtain ⟨env, cmd⟩ := e
    have hidx : index + 1 + (log.length : Int) = index + ((log.length : Int) + 1) := by omega
    simp [applyLog, ih, hidx]

@[simp] theorem applyLog_length (log : List LogEntry) : ∀ (s : KVService) (index : Int),
    (applyLog codec s index log).2.length = log.length := by
  induction log with
  | nil => exact fun _ _ => rfl
  | cons e log ih =>
    intro s index
    obtain ⟨env, cmd⟩ := e
    simp [applyLog, ih]

/-- One more entry. -/
theorem stateAfter_concat (log : List LogEntry) (env : Env) (cmd : Command) :
    stateAfter codec (log ++ [(env, cmd)]) =
      ((stateAfter codec log).handleCommand codec env cmd log.length).1 := by
  simp [stateAfter, applyLog_append, applyLog]

theorem appliedBy_concat (log : List LogEntry) (env : Env) (cmd : Command) :
    appliedBy codec (log ++ [(env, cmd)]) = appliedBy codec log ++
      [((stateAfter codec log).handleCommand codec env cmd log.length).2] := by
  simp [stateAfter, appliedBy, applyLog_append, applyLog]

theorem eventsOf_concat (log : List LogEntry) (env : Env) (cmd : Command) :
    eventsOf codec (log ++ [(env, cmd)]) = eventsOf codec log ++
      ((stateAfter codec log).handleCommand codec env cmd log.length).2.events := by
  simp [eventsOf, appliedBy_concat]

@[simp] theorem appliedBy_length (log : List LogEntry) :
    (appliedBy codec log).length = log.length := applyLog_length codec log _ _

/-- The `i`-th call runs on the state after the first `i` entries. -/
theorem appliedBy_getElem {log : List LogEntry} {i : Nat} {env : Env} {cmd : Command}
    (h : log[i]? = some (env, cmd)) :
    (appliedBy codec log)[i]? =
      some ((stateAfter codec (log.take i)).handleCommand codec env cmd i).2 := by
  obtain ⟨hi, he⟩ := List.getElem?_eq_some_iff.mp h
  have hsplit : log = log.take i ++ (env, cmd) :: log.drop (i + 1) := by
    rw [← he, List.cons_getElem_drop_succ, List.take_append_drop]
  have hlen : (log.take i).length = i := List.length_take_of_le (Nat.le_of_lt hi)
  have happ : appliedBy codec log = appliedBy codec (log.take i) ++
      (applyLog codec (stateAfter codec (log.take i)) i ((env, cmd) :: log.drop (i + 1))).2 := by
    conv_lhs => rw [hsplit]
    simp only [appliedBy, stateAfter, applyLog_append, hlen, zero_add]
  rw [happ, List.getElem?_append_right (by simp [hlen])]
  simp [hlen, applyLog]

theorem stateAfter_take_succ {log : List LogEntry} {n : Nat} {env : Env} {cmd : Command}
    (h : log[n]? = some (env, cmd)) :
    stateAfter codec (log.take (n + 1)) =
      ((stateAfter codec (log.take n)).handleCommand codec env cmd n).1 := by
  obtain ⟨hn, _⟩ := List.getElem?_eq_some_iff.mp h
  rw [List.take_add_one, h, Option.toList_some, stateAfter_concat,
    List.length_take_of_le (Nat.le_of_lt hn)]

end Splitting

/-! ## Replicas of a log -/

section Replicas

variable (codec : SnapshotCodec β)

/-- A replica at position `n`, however it got there, agrees with the state after the
first `n` entries. -/
theorem replicaAt_agree {log : List LogEntry} {n : Nat} {s : KVService}
    (h : (replicated codec).ReplicaAt (log.map Prod.snd) n s) :
    Agree s (stateAfter codec (log.take n)) := by
  have hdet := deterministic_replicated codec
  induction h with
  | init => exact agree_equivalence.refl _
  | @apply n s cmd env _ hcmd ih =>
    rw [List.getElem?_map] at hcmd
    obtain ⟨⟨env', cmd'⟩, he, rfl⟩ := Option.map_eq_some_iff.mp hcmd
    rw [stateAfter_take_succ codec he]
    exact hdet.state env env' n n cmd' ih
  | @restore n k s t d env _ _ hsave _ ih =>
    exact agree_equivalence.trans (hdet.restored env k s hsave) ih

/-- Applying the entries one by one gives a replica at each position. -/
theorem replicaAt_stateAfter {log : List LogEntry} {n : Nat} (hn : n ≤ log.length) :
    (replicated codec).ReplicaAt (log.map Prod.snd) n (stateAfter codec (log.take n)) := by
  induction n with
  | zero => exact .init
  | succ n ih =>
    have he : log[n]? = some log[n] := List.getElem?_eq_getElem hn
    rw [stateAfter_take_succ codec he]
    exact (ih (Nat.le_of_succ_le hn)).apply log[n].1 (by rw [List.getElem?_map, he]; rfl)

end Replicas

end Zodiac
