import Zodiac.Dedup
import Zodiac.Handlers

/-!
# The revision as a version number

Every reply to a read or a write of the store carries `currentRevision`, which
`handleCommand` increments for the kinds in its revision switch. The switch that
changes the data is another one, and the two have to match.

* `data_execute`: a kind outside the revision switch keeps the data.
* `revision_replica`: the revision counts the mutations that are not repetitions.
* `revision_faithful`: replies are ordered by it, and equal revisions mean equal data.
-/

namespace Zodiac

variable {β : Type}

/-! ## Definitions -/

/-- A Put, Append, CAS, Txn, LeaseRevoke or LeaseExpiry entry. -/
def Command.Mutates (cmd : Command) : Prop :=
  cmd.kind ∈ [CommandKind.put, .append, .cas, .txn, .leaseRevoke, .leaseExpiry]

instance (cmd : Command) : Decidable cmd.Mutates := inferInstanceAs (Decidable (_ ∈ _))

/-- The number of mutations in a log that do not repeat an earlier request. -/
def versions (log : List Command) : Nat :=
  (withoutRepeats [] log).countP fun c => c.Mutates

/-- A request to one of the handlers. Its strings are valid UTF-8: from a Go string that is not,
`json.Marshal` writes another request. -/
inductive KVRequest
  | put (pr : PutRequest)
  | append (ar : AppendRequest)
  | get (gr : GetRequest)
  | cas (cr : CASRequest)
  | list (lr : ListRequest)
  | txn (tr : TxnRequest)
  | leaseGrant (lr : LeaseGrantRequest)
  | leaseKeepAlive (lkr : LeaseRequest)
  | leaseRevoke (lrr : LeaseRequest)

/-- The handler of a request. -/
def KVRequest.handler : KVRequest → Handler
  | put pr => handlePut pr
  | append ar => handleAppend ar
  | get gr => handleGet gr
  | cas cr => handleCAS cr
  | list lr => handleList lr
  | txn tr => handleTxn tr
  | leaseGrant lr => handleLeaseGrant lr
  | leaseKeepAlive lkr => handleLeaseKeepAlive lkr
  | leaseRevoke lrr => handleLeaseRevoke lrr

/-- The `Revision` field of a response; the lease responses have none. -/
def Body.revision : Body → Option Int
  | prev _ _ rev | value _ _ rev | page _ _ rev | txn _ _ rev => some rev
  | granted .. | kept _ | revoked => none

namespace RevisionLemmas

/-! ## One entry -/

theorem isMutation_iff (cmd : Command) : KVService.isMutation cmd.kind = true ↔ cmd.Mutates := by
  unfold Command.Mutates
  cases cmd.kind <;> simp [KVService.isMutation]

/-- The kinds that the revision switch leaves out do not touch the data. -/
theorem data_execute (env : Env) (ds : DataStore) {cmd : Command} (h : ¬ cmd.Mutates) :
    (KVService.execute env ds cmd).1.data = ds.data := by
  unfold Command.Mutates at h
  unfold KVService.execute
  cases hkind : cmd.kind with
  | get => rfl
  | list => rfl
  | leaseGrant => rfl
  | leaseKeepAlive =>
    unfold DataStore.keepAliveLease
    cases ds.leases.lookup cmd.leaseID <;> rfl
  | put | append | cas | txn | leaseRevoke | leaseExpiry => simp [hkind] at h

variable (codec : SnapshotCodec β) (env : Env) (s : KVService) (cmd : Command) (index : Int)

/-- The reply carries the revision after the entry. -/
theorem revision_cmd : (s.handleCommand codec env cmd index).2.cmd.revision =
    (s.handleCommand codec env cmd index).1.currentRevision := by
  rw [KVService.handleCommand_cmd, KVService.handleCommand_currentRevision]
  cases hd : s.isDuplicate cmd with
  | true => rw [KVService.applyCommand_duplicate hd]
  | false => rw [KVService.applyCommand_fresh hd]

theorem revision_fresh (hmut : cmd.Mutates) (hfresh : s.isDuplicate cmd = false) :
    (s.handleCommand codec env cmd index).1.currentRevision = s.currentRevision + 1 := by
  rw [KVService.handleCommand_currentRevision, KVService.applyCommand_fresh hfresh,
    KVService.nextRevision, if_pos ((isMutation_iff cmd).mpr hmut)]

/-- Any other entry keeps the revision, and with it the data. -/
theorem revision_kept (h : ¬ (cmd.Mutates ∧ s.isDuplicate cmd = false)) :
    (s.handleCommand codec env cmd index).1.currentRevision = s.currentRevision ∧
      (s.handleCommand codec env cmd index).1.ds.data = s.ds.data := by
  rw [KVService.handleCommand_currentRevision, KVService.handleCommand_ds]
  cases hd : s.isDuplicate cmd with
  | true =>
    rw [KVService.applyCommand_duplicate hd]
    exact ⟨rfl, rfl⟩
  | false =>
    have hmut : ¬ cmd.Mutates := fun hmut => h ⟨hmut, hd⟩
    rw [KVService.applyCommand_fresh hd, KVService.nextRevision,
      if_neg (mt (isMutation_iff cmd).mp hmut)]
    exact ⟨rfl, data_execute env s.ds hmut⟩

/-! ## Whole logs -/

theorem withoutRepeats_concat (log : List Command) (cmd : Command) : ∀ before : List Command,
    withoutRepeats before (log ++ [cmd]) =
      withoutRepeats before log ++ if Superseded (before ++ log) cmd then [] else [cmd] := by
  induction log with
  | nil =>
    intro before
    simp only [List.nil_append, withoutRepeats, List.append_nil]
  | cons e log ih =>
    intro before
    rw [List.cons_append, withoutRepeats, withoutRepeats, ih, List.append_assoc,
      List.singleton_append]
    split
    · rfl
    · rw [List.cons_append]

theorem versions_concat (log : List Command) (cmd : Command) :
    versions (log ++ [cmd]) =
      versions log + if cmd.Mutates ∧ ¬ Superseded log cmd then 1 else 0 := by
  rw [versions, withoutRepeats_concat, List.countP_append, ← versions, List.nil_append]
  by_cases hsup : Superseded log cmd
  · simp [hsup]
  · simp [hsup, List.countP_singleton]

theorem versions_le_length (log : List Command) : versions log ≤ log.length := by
  induction log using List.reverseRecOn with
  | nil => exact le_rfl
  | append_singleton log cmd ih =>
    rw [versions_concat, List.length_append, List.length_singleton]
    split
    · exact Nat.add_le_add_right ih 1
    · exact Nat.le_succ_of_le ih

variable {codec} {log : List Command} {n : Nat} {s}

/-- On every replica the dedup table and the revision are those of the applied prefix. -/
theorem revision_replica (h : (replicated codec).ReplicaAt log n s) :
    Tracks s (log.take n) ∧ s.currentRevision = versions (log.take n) := by
  refine h.invariant (deterministic_replicated codec)
    (I := fun before s => Tracks s before ∧ s.currentRevision = versions before)
    ⟨DedupLemmas.Tracks.new, rfl⟩ ?_ ?_
  · rintro before s env n cmd ⟨htracks, hrev⟩
    refine ⟨htracks.handleCommand codec env cmd n, ?_⟩
    rw [versions_concat]
    have hdup := isDuplicate_iff htracks cmd
    by_cases hfresh : cmd.Mutates ∧ ¬ Superseded before cmd
    · rw [if_pos hfresh]
      have hnew : s.isDuplicate cmd = false := by
        rw [← Bool.not_eq_true, hdup]
        exact hfresh.2
      exact (revision_fresh codec env s cmd n hfresh.1 hnew).trans (congrArg (· + 1) hrev)
    · rw [if_neg hfresh]
      rw [← hdup, Bool.not_eq_true] at hfresh
      exact (revision_kept codec env s cmd n hfresh).1.trans hrev
  · rintro before s t hagree ⟨htracks, hrev⟩
    refine ⟨?_, hagree.revision.trans hrev⟩
    unfold Tracks
    rw [hagree.requests]
    exact htracks

/-- The state is at revision `rev` or later, and at `rev` it has the data `data`. -/
def FromVersion (rev : Int) (data : GoMap String String) (s : KVService) : Prop :=
  rev ≤ s.currentRevision ∧ (s.currentRevision = rev → s.ds.data = data)

theorem FromVersion.handleCommand {rev : Int} {data : GoMap String String}
    (h : FromVersion rev data s) (env : Env) (cmd : Command) (index : Int) :
    FromVersion rev data (s.handleCommand codec env cmd index).1 := by
  by_cases hfresh : cmd.Mutates ∧ s.isDuplicate cmd = false
  · have hnext := revision_fresh codec env s cmd index hfresh.1 hfresh.2
    have hle := h.1
    exact ⟨by omega, fun heq => by omega⟩
  · obtain ⟨hrev, hdata⟩ := revision_kept codec env s cmd index hfresh
    exact ⟨hrev ▸ h.1, fun heq => hdata.trans (h.2 (hrev ▸ heq))⟩

theorem FromVersion.agree {rev : Int} {data : GoMap String String} {t : KVService}
    (hagree : Agree s t) (h : FromVersion rev data t) : FromVersion rev data s :=
  ⟨hagree.revision ▸ h.1, fun heq => hagree.data.trans (h.2 (hagree.revision ▸ heq))⟩

/-- A replica at the same position or further on. -/
theorem fromVersion_later {m : Nat} {t : KVService} (hs : (replicated codec).ReplicaAt log n s)
    (hnm : n ≤ m) (ht : (replicated codec).ReplicaAt log m t) :
    FromVersion s.currentRevision s.ds.data t :=
  hs.later (deterministic_replicated codec) (P := FromVersion s.currentRevision s.ds.data)
    (fun env n cmd h => h.handleCommand env cmd n) FromVersion.agree
    ⟨le_rfl, fun _ => rfl⟩ hnm ht

/-! ## Replies -/

/-- The `Revision` of an OK response is the one of the command it answers. -/
theorem revision_reply {req : KVRequest} {id : Nat} {c : CommitCmd} {body : Body} {rev : Int}
    (h : req.handler.respond id (some c) = some (.ok body)) (hrev : body.revision = some rev) :
    rev = c.revision := by
  obtain ⟨_, hc, -, hbody⟩ := Handler.respond_eq_ok h
  cases hc
  cases req with
  | put pr => cases hbody; cases hrev; rfl
  | append ar => cases hbody; cases hrev; rfl
  | get gr => cases hbody; cases hrev; rfl
  | cas cr => cases hbody; cases hrev; rfl
  | list lr => cases hbody; cases hrev; rfl
  | txn tr =>
    obtain ⟨r, -, rfl⟩ := Option.map_eq_some_iff.mp hbody
    cases hrev
    rfl
  | leaseGrant lr => cases hbody; cases hrev
  | leaseKeepAlive lkr =>
    simp only [KVRequest.handler, handleLeaseKeepAlive, ite_self] at hbody
    cases hbody
    cases hrev
  | leaseRevoke lrr => cases hbody; cases hrev

end RevisionLemmas

open RevisionLemmas

/-! ## Main result -/

/-- On all replicas of a log of fewer than `2 ^ 63` entries, restored or not: the
revision is the number of mutations so far that did not repeat a request, and fits in
an `int64`. Along the log the revisions of the results never fall; a mutation that is
no repetition has a larger one than all entries before it; and two entries with the
same revision leave the same data. An OK response shows the revision of its result. -/
theorem revision_faithful (codec : SnapshotCodec β) {log : List Command}
    (hlen : log.length < 2 ^ 63) :
    (∀ n s, (replicated codec).ReplicaAt log n s →
      s.currentRevision = versions (log.take n) ∧ s.currentRevision < 2 ^ 63) ∧
    (∀ i j s t env env' cmd cmd', i ≤ j → (replicated codec).ReplicaAt log i s →
      (replicated codec).ReplicaAt log j t → log[i]? = some cmd → log[j]? = some cmd' →
      let r := s.handleCommand codec env cmd i
      let r' := t.handleCommand codec env' cmd' j
      r.2.cmd.revision ≤ r'.2.cmd.revision ∧
      (i < j → cmd'.Mutates → ¬ Superseded (log.take j) cmd' →
        r.2.cmd.revision < r'.2.cmd.revision) ∧
      (r.2.cmd.revision = r'.2.cmd.revision → r.1.ds.data = r'.1.ds.data)) ∧
    (∀ (req : KVRequest) id c body rev, req.handler.respond id (some c) = some (.ok body) →
      body.revision = some rev → rev = c.revision) := by
  refine ⟨fun n s hs => ?_, fun i j s t env env' cmd cmd' hij hs ht hcmd hcmd' => ?_,
    fun _ _ _ _ _ => revision_reply⟩
  · have hrev := (revision_replica hs).2
    have hle := versions_le_length (log.take n)
    rw [List.length_take] at hle
    exact ⟨hrev, by omega⟩
  · intro r r'
    have hr : (replicated codec).ReplicaAt log (i + 1) r.1 := hs.apply env hcmd
    have hr' : (replicated codec).ReplicaAt log (j + 1) r'.1 := ht.apply env' hcmd'
    have hafter := fromVersion_later hr (Nat.succ_le_succ hij) hr'
    rw [revision_cmd, revision_cmd]
    refine ⟨hafter.1, fun hlt hmut hfresh => ?_, fun heq => (hafter.2 heq.symm).symm⟩
    have hbefore := (fromVersion_later hr hlt ht).1
    have hnew : t.isDuplicate cmd' = false := by
      rw [← Bool.not_eq_true, isDuplicate_iff (revision_replica ht).1]
      exact hfresh
    rw [revision_fresh codec env' t cmd' j hmut hnew]
    exact Int.lt_add_one_of_le hbefore

/-- A put, its repetition, a grant, and an append. -/
def versionedLog : List LogEntry :=
  [(.at 0, { kind := .put, key := "a", value := "x", clientID := 1, requestID := 1 }),
    (.at 0, { kind := .put, key := "a", value := "x", clientID := 1, requestID := 1 }),
    (.at 0, { kind := .leaseGrant, leaseTTL := 5, clientID := 1, requestID := 2 }),
    (.at 0, { kind := .append, key := "a", value := "y", clientID := 1, requestID := 3 })]

/-- Two of the four entries count. -/
theorem revision_faithful_versioned :
    (stateAfter .plain (versionedLog.take 4)).currentRevision = 2 := by
  have hlen : 4 ≤ versionedLog.length := by decide
  have hrev := (revision_faithful .plain (by decide)).1 4 _ (replicaAt_stateAfter .plain hlen)
  rw [hrev.1]
  decide

end Zodiac
