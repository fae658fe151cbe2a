import Zodiac.Lib.Machine
import Zodiac.Log
import Zodiac.Watch

/-!
# Resuming a watch

A watcher whose connection drops reconnects with the revision of the last event
it received, and the service replays the buffered events with a larger
revision. One command may push several events, all with its revision.

* `applyLog_revision`: the events of a part of the log lie strictly above the
  revision before it.
* `resume_iff_cutBetween`: every missed event is replayed exactly when the
  connection dropped between the events of two log entries.
* `resume_inside_transaction`: a drop inside the events of a transaction.
-/

namespace Zodiac

variable {β : Type}

/-! ## Definitions -/

/-- The event buffer of a new service after a log. -/
def bufferAfter (codec : SnapshotCodec β) (log : List LogEntry) : EventBuffer :=
  newEventBuffer.pushAll (eventsOf codec log)

/-- The revision of the last received event, or 0 for a watcher that has
received none. -/
def lastRevision (received : List WatchEvent) : Int :=
  match received.getLast? with
  | some e => e.revision
  | none => 0

/-- The cut falls between the events of two log entries, or at either end. -/
def CutBetween (codec : SnapshotCodec β) (log : List LogEntry) (m : Nat) : Prop :=
  ∃ k ≤ log.length, m = (eventsOf codec (log.take k)).length

/-! ## Revisions -/

namespace ResumeLemmas

theorem txnOpEvent_revision {ds : DataStore} {rev : Int} {op : TxnOp} {r : TxnOpResult}
    {e : WatchEvent} (h : e ∈ KVService.txnOpEvent ds rev op r) : e.revision = rev := by
  unfold KVService.txnOpEvent at h
  split at h
  case h_2 =>
    split at h
    · rw [List.mem_singleton.mp h]
    · cases h
  all_goals rw [List.mem_singleton.mp h]

/-- Every event of a command has the command's revision. -/
theorem watchEvents_revision {env : Env} {ds : DataStore} {cmd : CommitCmd} {e : WatchEvent}
    (h : e ∈ KVService.watchEvents env ds cmd) :
    e.revision = cmd.revision ∧ cmd.isDuplicate = false ∧ KVService.isMutation cmd.kind = true := by
  have hdelete : e ∈ KVService.deleteEvents env.pairs cmd.resultPairs cmd.revision →
      e.revision = cmd.revision := by
    intro he
    obtain ⟨k, _, rfl⟩ := List.mem_map.mp he
    rfl
  unfold KVService.watchEvents at h
  split at h
  · cases h
  · next hdup =>
    have hdup : cmd.isDuplicate = false := by simpa using hdup
    cases hk : cmd.kind with
    | put => rw [hk] at h; rw [List.mem_singleton.mp h]; exact ⟨rfl, hdup, rfl⟩
    | append => rw [hk] at h; rw [List.mem_singleton.mp h]; exact ⟨rfl, hdup, rfl⟩
    | cas =>
      rw [hk] at h
      dsimp only at h
      split at h
      · rw [List.mem_singleton.mp h]; exact ⟨rfl, hdup, rfl⟩
      · cases h
    | leaseRevoke => rw [hk] at h; exact ⟨hdelete h, hdup, rfl⟩
    | leaseExpiry => rw [hk] at h; exact ⟨hdelete h, hdup, rfl⟩
    | txn =>
      rw [hk] at h
      dsimp only at h
      split at h
      · cases h
      · obtain ⟨p, _, hp⟩ := List.mem_flatMap.mp h
        exact ⟨txnOpEvent_revision hp, hdup, rfl⟩
    | get => rw [hk] at h; cases h
    | list => rw [hk] at h; cases h
    | leaseGrant => rw [hk] at h; cases h
    | leaseKeepAlive => rw [hk] at h; cases h

theorem applyCommand_revision_le (env : Env) (s : KVService) (cmd : Command) :
    s.currentRevision ≤ (s.applyCommand env cmd).1.currentRevision := by
  cases hd : s.isDuplicate cmd with
  | true => rw [KVService.applyCommand_duplicate hd]
  | false =>
    rw [KVService.applyCommand_fresh hd]
    simp only [KVService.nextRevision]
    split <;> omega

/-- A command that pushes events has taken the next revision. -/
theorem applyCommand_event {env : Env} {s : KVService} {cmd : Command} {e : WatchEvent}
    (h : e ∈ KVService.watchEvents env (s.applyCommand env cmd).1.ds (s.applyCommand env cmd).2) :
    e.revision = s.currentRevision + 1 ∧
    (s.applyCommand env cmd).1.currentRevision = s.currentRevision + 1 := by
  obtain ⟨hrev, hfresh, hmut⟩ := watchEvents_revision h
  rw [KVService.applyCommand_isDuplicate] at hfresh
  rw [KVService.applyCommand_toCommand] at hmut
  rw [hrev, KVService.applyCommand_fresh hfresh]
  simp only [KVService.nextRevision, hmut, if_true, and_self]

/-- The events of a part of the log have revisions above the one before it and
up to the one after it. -/
theorem applyLog_revision (codec : SnapshotCodec β) (log : List LogEntry) :
    ∀ (s : KVService) (index : Int),
      s.currentRevision ≤ (applyLog codec s index log).1.currentRevision ∧
      ∀ e ∈ (applyLog codec s index log).2.flatMap (fun a => a.events),
        s.currentRevision < e.revision ∧
        e.revision ≤ (applyLog codec s index log).1.currentRevision := by
  induction log with
  | nil => exact fun s _ => ⟨le_rfl, fun e he => absurd he List.not_mem_nil⟩
  | cons x log ih =>
    obtain ⟨env, cmd⟩ := x
    intro s index
    obtain ⟨hle, hev⟩ := ih (s.handleCommand codec env cmd index).1 (index + 1)
    have hstep := applyCommand_revision_le env s cmd
    rw [KVService.handleCommand_currentRevision] at hle hev
    refine ⟨le_trans hstep hle, fun e he => ?_⟩
    simp only [applyLog, List.flatMap_cons, List.mem_append] at he
    rcases he with he | he
    · obtain ⟨hrev, hcur⟩ := applyCommand_event he
      rw [hcur] at hle
      exact ⟨by omega, by rw [hrev]; exact hle⟩
    · obtain ⟨hlt, hle'⟩ := hev e he
      exact ⟨lt_of_le_of_lt hstep hlt, hle'⟩

/-- The events of a log, split at an entry. -/
theorem eventsOf_split (codec : SnapshotCodec β) (log : List LogEntry) (k : Nat) :
    ∃ rest, eventsOf codec log = eventsOf codec (log.take k) ++ rest ∧
      (∀ e ∈ eventsOf codec (log.take k), e.revision ≤ (stateAfter codec (log.take k)).currentRevision) ∧
      0 ≤ (stateAfter codec (log.take k)).currentRevision ∧
      ∀ e ∈ rest, (stateAfter codec (log.take k)).currentRevision < e.revision := by
  obtain ⟨hpos, hbefore⟩ := applyLog_revision codec (log.take k) .new 0
  refine ⟨(applyLog codec (stateAfter codec (log.take k)) (0 + (log.take k).length)
    (log.drop k)).2.flatMap fun a => a.events, ?_, fun e he => (hbefore e he).2, hpos, fun e he => ?_⟩
  · conv_lhs => rw [← List.take_append_drop k log]
    simp only [eventsOf, appliedBy, stateAfter, applyLog_append, List.flatMap_append]
  · exact ((applyLog_revision codec (log.drop k) _ _).2 e he).1

/-! ## Cuts -/

theorem lastRevision_le {received : List WatchEvent} {rev : Int} (hpos : 0 ≤ rev)
    (h : ∀ e ∈ received, e.revision ≤ rev) : lastRevision received ≤ rev := by
  unfold lastRevision
  split
  · next e he => exact h e (List.mem_of_getLast? he)
  · exact hpos

theorem cutBetween_concat {codec : SnapshotCodec β} {log : List LogEntry} {m : Nat}
    (h : CutBetween codec log m) (x : LogEntry) : CutBetween codec (log ++ [x]) m := by
  obtain ⟨k, hk, rfl⟩ := h
  exact ⟨k, by rw [List.length_append]; omega, by rw [List.take_append_of_le_length hk]⟩

/-- A cut that is not between two entries separates two events of one entry,
which have the same revision. -/
theorem cutBetween_or_inside (codec : SnapshotCodec β) (log : List LogEntry) :
    ∀ m ≤ (eventsOf codec log).length, CutBetween codec log m ∨
      ∃ n e e', m = n + 1 ∧ (eventsOf codec log)[n]? = some e ∧
        (eventsOf codec log)[n + 1]? = some e' ∧ e.revision = e'.revision := by
  induction log using List.reverseRecOn with
  | nil =>
    intro m hm
    exact .inl ⟨0, Nat.zero_le _, Nat.le_zero.mp hm⟩
  | append_singleton log x ih =>
    obtain ⟨env, cmd⟩ := x
    intro m hm
    rcases Nat.lt_or_ge (eventsOf codec log).length m with hlt | hle
    · by_cases hend : m = (eventsOf codec (log ++ [(env, cmd)])).length
      · exact .inl ⟨(log ++ [(env, cmd)]).length, le_rfl, by rw [List.take_length]; exact hend⟩
      · -- both sides of the cut are events of the last entry
        obtain ⟨n, rfl⟩ : ∃ n, m = n + 1 := ⟨m - 1, by omega⟩
        have hn : n + 1 < (eventsOf codec (log ++ [(env, cmd)])).length := by omega
        refine .inr ⟨n, _, _, rfl, List.getElem?_eq_getElem (by omega),
          List.getElem?_eq_getElem hn, ?_⟩
        have hlast : ∀ j e, (eventsOf codec log).length ≤ j →
            (eventsOf codec (log ++ [(env, cmd)]))[j]? = some e →
            e.revision = (stateAfter codec log).currentRevision + 1 := by
          intro j e hj he
          rw [eventsOf_concat, List.getElem?_append_right hj] at he
          exact (applyCommand_event (List.mem_of_getElem? he)).1
        rw [hlast n _ (by omega) (List.getElem?_eq_getElem _),
          hlast (n + 1) _ (by omega) (List.getElem?_eq_getElem _)]
    · rcases ih m hle with hcut | ⟨n, e, e', rfl, he, he', hrev⟩
      · exact .inl (cutBetween_concat hcut _)
      · rw [eventsOf_concat]
        exact .inr ⟨n, e, e', rfl, History.getElem?_append_of_some he,
          History.getElem?_append_of_some he', hrev⟩

/-- After a cut between two entries the replay contains the missed events, in
order. -/
theorem drop_sublist_replay {codec : SnapshotCodec β} {log : List LogEntry} {m : Nat}
    (hkept : (eventsOf codec log).length - m ≤ eventBufferSize) (h : CutBetween codec log m) :
    ((eventsOf codec log).drop m).Sublist
      (replay (bufferAfter codec log) (lastRevision ((eventsOf codec log).take m))) := by
  obtain ⟨k, _, rfl⟩ := h
  obtain ⟨rest, hsplit, hbefore, hpos, hafter⟩ := eventsOf_split codec log k
  have hsince := lastRevision_le hpos hbefore
  rw [bufferAfter, replay_pushAll, hsplit, List.take_left, List.drop_left]
  rw [hsplit, List.length_append] at hkept
  rw [List.drop_append_of_le_length (by rw [List.length_append]; omega), List.filter_append]
  have hrest : rest.filter (fun e =>
      decide (e.revision > lastRevision (eventsOf codec (log.take k)))) = rest :=
    List.filter_eq_self.mpr fun e he => decide_eq_true (lt_of_le_of_lt hsince (hafter e he))
  rw [hrest]
  exact List.sublist_append_right _ _

end ResumeLemmas

open ResumeLemmas

/-- Let `E` be the events of a log, and let a watcher have received the first `m`
of them, with none of the others evicted from the buffer. Reconnecting with the
revision of its last event replays every event it missed if and only if the cut
falls between the events of two log entries. -/
theorem resume_iff_cutBetween (codec : SnapshotCodec β) (log : List LogEntry) (m : Nat)
    (hm : m ≤ (eventsOf codec log).length)
    (hkept : (eventsOf codec log).length - m ≤ eventBufferSize) :
    (∀ e ∈ (eventsOf codec log).drop m,
      e ∈ replay (bufferAfter codec log) (lastRevision ((eventsOf codec log).take m))) ↔
    CutBetween codec log m := by
  refine ⟨fun h => ?_, fun h e he => (drop_sublist_replay hkept h).mem he⟩
  rcases cutBetween_or_inside codec log m hm with hcut | ⟨n, e, e', rfl, he, he', hrev⟩
  · exact hcut
  · -- the first missed event has the revision the watcher resumes from
    have hlast : ((eventsOf codec log).take (n + 1)).getLast? = some e := by
      rw [List.getLast?_take, if_neg (Nat.succ_ne_zero n), Nat.add_sub_cancel, he]
      rfl
    have hmem : e' ∈ (eventsOf codec log).drop (n + 1) := by
      apply List.mem_of_getElem? (i := 0)
      rw [List.getElem?_drop]
      exact he'
    have hreplayed := (List.mem_filter.mp (h e' hmem)).2
    simp only [lastRevision, hlast, hrev, gt_iff_lt, lt_self_iff_false, decide_false,
      Bool.false_eq_true] at hreplayed

/-- A transaction that puts two keys, then a put. -/
def twoPutsLog : List LogEntry :=
  [(Env.at 0, { kind := .txn, txn := { success := [
      { op := .put, key := "a", value := "x" }, { op := .put, key := "b", value := "y" }] } }),
    (Env.at 0, { kind := .put, key := "c", value := "z" })]

/-- A watcher that has received both events of the transaction resumes with the
put. -/
theorem resume_after_transaction :
    ((eventsOf .plain twoPutsLog).drop 2).map (fun e => e.key) = ["c"] ∧
    ∀ e ∈ (eventsOf .plain twoPutsLog).drop 2,
      e ∈ replay (bufferAfter .plain twoPutsLog)
        (lastRevision ((eventsOf .plain twoPutsLog).take 2)) := by
  have hcut : CutBetween .plain twoPutsLog 2 := ⟨1, by decide, by decide⟩
  exact ⟨by decide,
    (resume_iff_cutBetween .plain twoPutsLog 2 (by decide) (by decide)).mpr hcut⟩

/-- A watcher whose connection drops after the first event of the transaction
never gets the second: its key is missing from the replay. -/
theorem resume_inside_transaction :
    (eventsOf .plain twoPutsLog).length ≤ eventBufferSize ∧
    ((eventsOf .plain twoPutsLog).drop 1).map (fun e => e.key) = ["b", "c"] ∧
    (replay (bufferAfter .plain twoPutsLog)
      (lastRevision ((eventsOf .plain twoPutsLog).take 1))).map (fun e => e.key) = ["c"] := by
  decide

end Zodiac
