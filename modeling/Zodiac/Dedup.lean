import Mathlib.Order.Bounds.Basic
import Zodiac.Log

/-!
# At-most-once application

Client retries put the same request into the log again. The dedup table keeps
the largest request id of every client, and an entry that does not exceed it is
answered without being applied.

* `tracks_stateAfter`: the table holds the largest request id of each client.
* `isDuplicate_iff`: an entry is a duplicate exactly when an earlier entry of
  its client has a request id at least as large.
* `at_most_once`: a log has the effect, on the state and on the pushed events,
  of the log without its superseded entries, and reads are always answered from
  the store at their own position.
-/

namespace Zodiac

/-! ## Definitions -/

/-- The entry does not exceed the largest request id of an earlier entry of the
same client. -/
def Superseded (before : List Command) (cmd : Command) : Prop :=
  cmd.clientID ≠ 0 ∧ ∃ e ∈ before, e.clientID = cmd.clientID ∧ cmd.requestID ≤ e.requestID

instance (before : List Command) (cmd : Command) : Decidable (Superseded before cmd) :=
  inferInstanceAs (Decidable (_ ∧ _))

/-- The log without its superseded entries. `before` is the part of the full
log that has been passed. -/
def withoutRepeats (before : List Command) : List Command → List Command
  | [] => []
  | cmd :: log =>
    if Superseded before cmd then withoutRepeats (before ++ [cmd]) log
    else cmd :: withoutRepeats (before ++ [cmd]) log

/-- The request ids of the client's entries. -/
def requestIDs (c : Int) (log : List Command) : Set Int :=
  {r | ∃ e ∈ log, e.clientID = c ∧ e.requestID = r}

/-- The dedup table of the state is the one of the log. -/
def Tracks (s : KVService) (log : List Command) : Prop :=
  ∀ c, c ≠ 0 →
    (∀ r, s.lastRequestIDPerClient.lookup c = some r → IsGreatest (requestIDs c log) r) ∧
    (s.lastRequestIDPerClient.lookup c = none → ∀ e ∈ log, e.clientID ≠ c)

/-- Entry by entry, two logs have the same results and push the same events, up to
duplicates that only the first one has and that push nothing, and up to the order of the
delete events of one lease removal, which come out of a loop over a map. -/
inductive SameUpToOrder {β : Type} : List (Applied β) → List (Applied β) → Prop
  | nil : SameUpToOrder [] []
  | duplicate {a : Applied β} {as as' : List (Applied β)} :
      a.cmd.isDuplicate = true → a.events = [] → SameUpToOrder as as' →
      SameUpToOrder (a :: as) as'
  | same {a a' : Applied β} {as as' : List (Applied β)} :
      a.cmd = a'.cmd → a.events = a'.events → SameUpToOrder as as' →
      SameUpToOrder (a :: as) (a' :: as')
  | removal {a a' : Applied β} {as as' : List (Applied β)} :
      a.cmd = a'.cmd → a.cmd.kind = .leaseRevoke ∨ a.cmd.kind = .leaseExpiry →
      a.events.Perm a'.events → SameUpToOrder as as' → SameUpToOrder (a :: as) (a' :: as')

/-! ## The dedup table -/

namespace DedupLemmas

theorem requestIDs_concat (c : Int) (log : List Command) (cmd : Command) (r : Int) :
    r ∈ requestIDs c (log ++ [cmd]) ↔
      r ∈ requestIDs c log ∨ (cmd.clientID = c ∧ cmd.requestID = r) := by
  simp only [requestIDs, Set.mem_ofPred_eq, List.mem_append, List.mem_singleton]
  constructor
  · rintro ⟨e, he | rfl, hc, hr⟩
    · exact .inl ⟨e, he, hc, hr⟩
    · exact .inr ⟨hc, hr⟩
  · rintro (⟨e, he, hc, hr⟩ | ⟨hc, hr⟩)
    · exact ⟨e, .inl he, hc, hr⟩
    · exact ⟨cmd, .inr rfl, hc, hr⟩

/-- Entries of other clients and superseded entries leave the largest request
id of a client as it is. -/
theorem isGreatest_concat {c : Int} {log : List Command} {cmd : Command} {r : Int}
    (h : IsGreatest (requestIDs c log) r) (hcmd : cmd.clientID = c → cmd.requestID ≤ r) :
    IsGreatest (requestIDs c (log ++ [cmd])) r := by
  refine ⟨(requestIDs_concat c log cmd r).mpr (.inl h.1), fun r' hr' => ?_⟩
  rcases (requestIDs_concat c log cmd r').mp hr' with hr' | ⟨hc, rfl⟩
  · exact h.2 hr'
  · exact hcmd hc

theorem Tracks.new : Tracks .new [] := fun c _ =>
  ⟨fun r h => by simp [KVService.new] at h, fun _ e he => absurd he List.not_mem_nil⟩

end DedupLemmas

open DedupLemmas

/-- An entry is marked duplicate exactly when it is superseded. -/
theorem isDuplicate_iff {s : KVService} {log : List Command} (h : Tracks s log) (cmd : Command) :
    s.isDuplicate cmd = true ↔ Superseded log cmd := by
  unfold KVService.isDuplicate Superseded
  by_cases hc : cmd.clientID = 0
  · cases s.lastRequestIDPerClient.lookup cmd.clientID <;> simp [hc]
  · obtain ⟨hsome, hnone⟩ := h cmd.clientID hc
    cases hl : s.lastRequestIDPerClient.lookup cmd.clientID with
    | none =>
      simp only [Bool.false_eq_true, false_iff]
      rintro ⟨_, e, he, hec, _⟩
      exact hnone hl e he hec
    | some r =>
      have hgreat := hsome r hl
      simp only [ne_eq, hc, not_false_eq_true, decide_true, Bool.true_and, decide_eq_true_eq,
        true_and]
      constructor
      · intro hle
        obtain ⟨e, he, hec, her⟩ := hgreat.1
        exact ⟨e, he, hec, her ▸ hle⟩
      · rintro ⟨e, he, hec, hle⟩
        exact le_trans hle (hgreat.2 ⟨e, he, hec, rfl⟩)

/-- Applying a command keeps the table in step with the log. -/
theorem Tracks.applyCommand {s : KVService} {log : List Command} (h : Tracks s log) (env : Env)
    (cmd : Command) : Tracks (s.applyCommand env cmd).1 (log ++ [cmd]) := by
  intro c hc
  obtain ⟨hsome, hnone⟩ := h c hc
  cases hd : s.isDuplicate cmd with
  | true =>
    rw [KVService.applyCommand_duplicate hd]
    obtain ⟨_, e, he, hec, hle⟩ := (isDuplicate_iff h cmd).mp hd
    refine ⟨fun r hr => isGreatest_concat (hsome r hr) fun hcc => ?_, fun hl e' he' => ?_⟩
    · exact le_trans hle ((hsome r hr).2 ⟨e, he, hec.trans hcc, rfl⟩)
    · rcases List.mem_append.mp he' with he' | he'
      · exact hnone hl e' he'
      · rw [List.mem_singleton.mp he', ← hec]
        exact hnone hl e he
  | false =>
    rw [KVService.applyCommand_fresh hd]
    simp only [KVService.recordRequest]
    by_cases hcc : cmd.clientID = c
    · -- the entry of this client exceeds everything before it
      subst hcc
      rw [if_pos hc, Finmap.lookup_insert]
      refine ⟨fun r hr => ?_, fun hl => nomatch hl⟩
      cases hr
      refine ⟨(requestIDs_concat _ log cmd _).mpr (.inr ⟨rfl, rfl⟩), fun r' hr' => ?_⟩
      rcases (requestIDs_concat _ log cmd r').mp hr' with ⟨e, he, hec, rfl⟩ | ⟨_, rfl⟩
      · by_contra hlt
        have hsup : Superseded log cmd := ⟨hc, e, he, hec, by omega⟩
        rw [(isDuplicate_iff h cmd).mpr hsup] at hd
        exact Bool.noConfusion hd
      · exact le_refl _
    · have hlookup : (if cmd.clientID ≠ 0 then
          s.lastRequestIDPerClient.insert cmd.clientID cmd.requestID
          else s.lastRequestIDPerClient).lookup c = s.lastRequestIDPerClient.lookup c := by
        split
        · exact Finmap.lookup_insert_of_ne _ fun he => hcc he.symm
        · rfl
      rw [hlookup]
      refine ⟨fun r hr => isGreatest_concat (hsome r hr) fun he => absurd he hcc, fun hl e' he' => ?_⟩
      rcases List.mem_append.mp he' with he' | he'
      · exact hnone hl e' he'
      · rw [List.mem_singleton.mp he']
        exact hcc

theorem Tracks.handleCommand {β : Type} {s : KVService} {log : List Command} (h : Tracks s log)
    (codec : SnapshotCodec β) (env : Env) (cmd : Command) (index : Int) :
    Tracks (s.handleCommand codec env cmd index).1 (log ++ [cmd]) := by
  unfold Tracks
  rw [KVService.handleCommand_lastRequestIDPerClient]
  exact h.applyCommand env cmd

/-- After every log the table maps each client to its largest request id. -/
theorem tracks_stateAfter {β : Type} (codec : SnapshotCodec β) (log : List LogEntry) :
    Tracks (stateAfter codec log) (log.map Prod.snd) := by
  induction log using List.reverseRecOn with
  | nil => exact Tracks.new
  | append_singleton log e ih =>
    obtain ⟨env, cmd⟩ := e
    rw [stateAfter_concat, List.map_append]
    exact ih.handleCommand codec env cmd _

theorem Tracks.lookup_iff {s : KVService} {log : List Command} (h : Tracks s log) {c : Int}
    (hc : c ≠ 0) (r : Int) :
    s.lastRequestIDPerClient.lookup c = some r ↔ IsGreatest (requestIDs c log) r := by
  obtain ⟨hsome, hnone⟩ := h c hc
  refine ⟨hsome r, fun hr => ?_⟩
  cases hl : s.lastRequestIDPerClient.lookup c with
  | none =>
    obtain ⟨e, he, hec, _⟩ := hr.1
    exact absurd hec (hnone hl e he)
  | some r' => rw [(hsome r' hl).unique hr]

/-! ## Events of agreeing replicas -/

namespace DedupLemmas

theorem txnOpEvent_data {ds ds' : DataStore} (h : ds.data = ds'.data) :
    KVService.txnOpEvent ds = KVService.txnOpEvent ds' := by
  funext rev op r
  simp only [KVService.txnOpEvent, DataStore.get, h]

/-- The events of a command depend on the data after it and, for a lease removal, on the
iteration order. -/
theorem watchEvents_order (env env' : Env) {ds ds' : DataStore} (h : ds.data = ds'.data)
    (cmd : CommitCmd) :
    KVService.watchEvents env ds cmd = KVService.watchEvents env' ds' cmd ∨
    (cmd.kind = .leaseRevoke ∨ cmd.kind = .leaseExpiry) ∧
      (KVService.watchEvents env ds cmd).Perm (KVService.watchEvents env' ds' cmd) := by
  have hremoval : (KVService.deleteEvents env.pairs cmd.resultPairs cmd.revision).Perm
      (KVService.deleteEvents env'.pairs cmd.resultPairs cmd.revision) :=
    (env.pairs.perm env'.pairs _).map _
  unfold KVService.watchEvents
  simp only [DataStore.get, h, txnOpEvent_data h]
  split
  · exact .inl rfl
  · split
    case h_4 hkind => exact .inr ⟨.inl hkind, hremoval⟩
    case h_5 hkind => exact .inr ⟨.inr hkind, hremoval⟩
    all_goals exact .inl rfl

/-! ## The simulation -/

variable {β : Type} (codec : SnapshotCodec β)

/-- The full log on the left and the one without superseded entries on the
right, from agreeing states. -/
theorem simulate (full : List LogEntry) :
    ∀ (kept : List LogEntry) (before : List Command) (s t : KVService) (i j : Int),
      Tracks s before → Agree s t →
      kept.map Prod.snd = withoutRepeats before (full.map Prod.snd) →
      Agree (applyLog codec s i full).1 (applyLog codec t j kept).1 ∧
      SameUpToOrder (applyLog codec s i full).2 (applyLog codec t j kept).2 := by
  induction full with
  | nil =>
    intro kept before s t i j _ hagree hkept
    rw [List.map_eq_nil_iff.mp hkept]
    exact ⟨hagree, .nil⟩
  | cons e full ih =>
    obtain ⟨env, cmd⟩ := e
    intro kept before s t i j htracks hagree hkept
    have hs := handleCommand_agree codec env s cmd i
    have hnext := htracks.handleCommand codec env cmd i
    by_cases hsup : Superseded before cmd
    · -- the left side skips the entry, the right side does not have it
      have hdup : s.applyCommand env cmd = _ :=
        KVService.applyCommand_duplicate ((isDuplicate_iff htracks cmd).mpr hsup)
      rw [hdup] at hs
      rw [List.map_cons, withoutRepeats, if_pos hsup] at hkept
      obtain ⟨hstate, hevents⟩ := ih kept _ _ t (i + 1) j hnext (agree_equivalence.trans hs hagree) hkept
      refine ⟨hstate, .duplicate ?_ ?_ hevents⟩
      · rw [KVService.handleCommand_cmd, hdup]
      · rw [KVService.handleCommand_events, hdup, KVService.watchEvents]
        exact if_pos rfl
    · rw [List.map_cons, withoutRepeats, if_neg hsup] at hkept
      obtain ⟨⟨env', cmd'⟩, kept, rfl, rfl, hkept⟩ := List.map_eq_cons_iff.mp hkept
      obtain ⟨happly, hcmd⟩ := applyCommand_agree env env' hagree cmd'
      have ht := handleCommand_agree codec env' t cmd' j
      have hboth := agree_equivalence.trans hs
        (agree_equivalence.trans happly (agree_equivalence.symm ht))
      obtain ⟨hstate, hevents⟩ := ih kept _ _ _ (i + 1) (j + 1) hnext hboth hkept
      refine ⟨hstate, ?_⟩
      have hsame : (s.handleCommand codec env cmd' i).2.cmd =
          (t.handleCommand codec env' cmd' j).2.cmd := by
        rw [KVService.handleCommand_cmd, KVService.handleCommand_cmd, hcmd]
      rcases watchEvents_order env env' happly.data (s.applyCommand env cmd').2 with
        heq | ⟨hkind, hperm⟩
      · refine .same hsame ?_ hevents
        rw [KVService.handleCommand_events, KVService.handleCommand_events, ← hcmd]
        exact heq
      · refine .removal hsame ?_ ?_ hevents
        · rw [KVService.handleCommand_cmd]
          exact hkind
        · rw [KVService.handleCommand_events, KVService.handleCommand_events, ← hcmd]
          exact hperm

/-- A read entry changes no data and is answered from it, duplicate or not. -/
theorem applyCommand_get (env : Env) (s : KVService) {cmd : Command} (h : cmd.kind = .get) :
    ((s.applyCommand env cmd).2.resultValue, (s.applyCommand env cmd).2.resultFound) =
      s.ds.get cmd.key ∧ (s.applyCommand env cmd).2.revision = s.currentRevision := by
  cases hd : s.isDuplicate cmd with
  | true =>
    rw [KVService.applyCommand_duplicate hd]
    simp [KVService.duplicateResult, h, KVService.readGet]
  | false =>
    rw [KVService.applyCommand_fresh hd]
    simp [KVService.execute, h, KVService.readGet, KVService.nextRevision, KVService.isMutation]

theorem applyCommand_list (env : Env) (s : KVService) {cmd : Command} (h : cmd.kind = .list) :
    ((s.applyCommand env cmd).2.resultPairs, (s.applyCommand env cmd).2.resultValue) =
      (if cmd.limit > 0 then s.ds.listPaged cmd.key cmd.limit cmd.keyAfter
        else (s.ds.list cmd.key, "")) ∧
    (s.applyCommand env cmd).2.revision = s.currentRevision := by
  cases hd : s.isDuplicate cmd with
  | true =>
    rw [KVService.applyCommand_duplicate hd]
    refine ⟨?_, rfl⟩
    simp only [KVService.duplicateResult, h, KVService.readList]
    split <;> rfl
  | false =>
    rw [KVService.applyCommand_fresh hd]
    refine ⟨?_, by simp [KVService.nextRevision, h, KVService.isMutation]⟩
    simp only [KVService.execute, h, KVService.readList]
    split <;> rfl

end DedupLemmas

/-- At-most-once application. Let `kept` be the full log without the entries
that an earlier entry of the same client supersedes, applied under any clocks
and iteration orders. Then the full log leaves the same data, leases, counters
and dedup table, and has the same results and pushes the same events, up to the order inside
one lease removal; the dedup table always maps a client to its largest request id so far;
and every read is answered from the store at its own position. -/
theorem at_most_once {β : Type} (codec : SnapshotCodec β) (full kept : List LogEntry)
    (h : kept.map Prod.snd = withoutRepeats [] (full.map Prod.snd)) :
    Agree (stateAfter codec full) (stateAfter codec kept) ∧
    SameUpToOrder (appliedBy codec full) (appliedBy codec kept) ∧
    (∀ n c, c ≠ 0 → ∀ r, (stateAfter codec (full.take n)).lastRequestIDPerClient.lookup c = some r ↔
      IsGreatest (requestIDs c ((full.take n).map Prod.snd)) r) ∧
    ∀ i env cmd, full[i]? = some (env, cmd) →
      ∃ a, (appliedBy codec full)[i]? = some a ∧
        (cmd.kind = .get →
          (a.cmd.resultValue, a.cmd.resultFound) = (stateAfter codec (full.take i)).ds.get cmd.key ∧
          a.cmd.revision = (stateAfter codec (full.take i)).currentRevision) ∧
        (cmd.kind = .list →
          (a.cmd.resultPairs, a.cmd.resultValue) =
            (if cmd.limit > 0 then
              (stateAfter codec (full.take i)).ds.listPaged cmd.key cmd.limit cmd.keyAfter
              else ((stateAfter codec (full.take i)).ds.list cmd.key, "")) ∧
          a.cmd.revision = (stateAfter codec (full.take i)).currentRevision) := by
  obtain ⟨hstate, hevents⟩ := simulate codec full kept [] .new .new 0 0 Tracks.new
    (agree_equivalence.refl _) h
  refine ⟨hstate, hevents, ?_, ?_⟩
  · intro n c hc r
    exact (tracks_stateAfter codec (full.take n)).lookup_iff hc r
  · intro i env cmd hi
    exact ⟨_, appliedBy_getElem codec hi, applyCommand_get env _, applyCommand_list env _⟩

/-- A log in which a retried put lands again after a second put, and a get is
retried after it. -/
def retriedLog : List LogEntry :=
  [(Env.at 0, { kind := .put, key := "a", value := "x", clientID := 1, requestID := 1 }),
    (Env.at 0, { kind := .put, key := "a", value := "y", clientID := 1, requestID := 2 }),
    (Env.at 0, { kind := .put, key := "a", value := "x", clientID := 1, requestID := 1 }),
    (Env.at 0, { kind := .get, key := "a", clientID := 1, requestID := 2 })]

/-- The retries of `retriedLog` are dropped, and the retried get still reads the
second put. -/
theorem at_most_once_retried :
    Agree (stateAfter .plain retriedLog) (stateAfter .plain (retriedLog.take 2)) ∧
    ∃ a, (appliedBy .plain retriedLog)[3]? = some a ∧
      (a.cmd.resultValue, a.cmd.resultFound) = ("y", true) := by
  have h := at_most_once .plain retriedLog (retriedLog.take 2) (by decide)
  obtain ⟨a, ha, hget, _⟩ := h.2.2.2 3 _ _ rfl
  exact ⟨h.1, a, ha, (hget rfl).1.trans (by decide)⟩

end Zodiac
