import Zodiac.Log
import Zodiac.Revocation

/-!
# Leased keys and their leases

A log of commands is a run of store operations: an entry that is not a duplicate
performs the ones of its kind, a duplicate performs none. What a `Put` promised
about a key is then read off the history of that run.

* `run_opsOf`: the run reaches the store that the log leaves.
* `restore_handleSnapshot`: its snapshots and restores are those of the service.
* `leased_key_live`: a key whose last `Put` found its lease live is attached to that
  lease, which is live as long as the key is there.
* `orphaned_key`: a `Put` ordered after the removal of its lease stores the key under
  no lease, and nothing removes it.
-/

namespace Zodiac

variable {β : Type}

/-! ## The store operations of a log -/

/-- The store operations of an entry. -/
def KVService.storeOps (s : KVService) (env : Env) (cmd : Command) : List StoreOp :=
  if s.isDuplicate cmd then []
  else match cmd.kind with
    | .put => [.put cmd.key cmd.value cmd.leaseID]
    | .append => [.append cmd.key cmd.value]
    | .cas => [.cas cmd.key cmd.compareValue cmd.value]
    | .txn => [.txn cmd.txn.conditions cmd.txn.success cmd.txn.failure]
    | .leaseGrant => [.grantLease env.now cmd.leaseTTL]
    | .leaseKeepAlive => [.keepAliveLease env.now cmd.leaseID]
    | .leaseRevoke => [.revokeLease (env.leaseKeys cmd.leaseID) cmd.leaseID]
    | .leaseExpiry => cmd.leaseIDs.map fun id => .revokeLease (env.leaseKeys id) id
    | .get | .list => []

/-- The store operations of a log applied from index `index` on. -/
def opsFrom (codec : SnapshotCodec β) : KVService → Int → List LogEntry → List StoreOp
  | _, _, [] => []
  | s, index, (env, cmd) :: log =>
    s.storeOps env cmd ++ opsFrom codec (s.handleCommand codec env cmd index).1 (index + 1) log

/-- The store operations of a log applied by a new service. -/
def opsOf (codec : SnapshotCodec β) (log : List LogEntry) : List StoreOp :=
  opsFrom codec .new 0 log

/-- The history of a log: the operations that settled the attachment of a key. -/
def logHistory (codec : SnapshotCodec β) (log : List LogEntry) : List Touch :=
  history (opsOf codec log)

namespace LeasedKeysLemmas

theorem opsFrom_concat (codec : SnapshotCodec β) (log : List LogEntry) (env : Env)
    (cmd : Command) : ∀ (s : KVService) (index : Int),
    opsFrom codec s index (log ++ [(env, cmd)]) =
      opsFrom codec s index log ++ (applyLog codec s index log).1.storeOps env cmd := by
  induction log with
  | nil =>
    intro s index
    simp [opsFrom, applyLog]
  | cons e log ih =>
    intro s index
    rw [List.cons_append, opsFrom, ih, opsFrom, applyLog, List.append_assoc]

theorem opsOf_concat (codec : SnapshotCodec β) (log : List LogEntry) (env : Env)
    (cmd : Command) :
    opsOf codec (log ++ [(env, cmd)]) =
      opsOf codec log ++ (stateAfter codec log).storeOps env cmd :=
  opsFrom_concat codec log env cmd .new 0

/-- The loop of an expiry entry is one revocation after another. -/
theorem foldl_revocations (leaseKeys : Int → RangeOrder String) (saved : List StoreCopy)
    (ids : List Int) : ∀ (ds : DataStore) (pairs : GoMap String String),
    (ids.map fun id => StoreOp.revokeLease (leaseKeys id) id).foldl StoreRun.step ⟨ds, saved⟩ =
      ⟨(KVService.expireLeases leaseKeys ds ids pairs).1, saved⟩ := by
  induction ids with
  | nil => exact fun _ _ => rfl
  | cons id ids ih => exact fun ds pairs => ih (ds.revokeLease (leaseKeys id) id).1 _

theorem foldl_storeOps (env : Env) (s : KVService) (cmd : Command) (saved : List StoreCopy) :
    (s.storeOps env cmd).foldl StoreRun.step ⟨s.ds, saved⟩ =
      ⟨(s.applyCommand env cmd).1.ds, saved⟩ := by
  cases hd : s.isDuplicate cmd with
  | true =>
    rw [KVService.applyCommand_duplicate hd, KVService.storeOps, if_pos hd]
    rfl
  | false =>
    rw [KVService.applyCommand_fresh hd, KVService.storeOps, hd, if_neg Bool.false_ne_true,
      KVService.execute]
    cases cmd.kind with
    | leaseExpiry => exact foldl_revocations env.leaseKeys saved cmd.leaseIDs s.ds ∅
    | _ => rfl

/-- The operations of a log lead to the store that the log leaves. -/
theorem run_opsOf (codec : SnapshotCodec β) (log : List LogEntry) :
    StoreRun.run (opsOf codec log) = ⟨(stateAfter codec log).ds, []⟩ := by
  induction log using List.reverseRecOn with
  | nil => rfl
  | append_singleton log e ih =>
    obtain ⟨env, cmd⟩ := e
    rw [opsOf_concat, StoreRun.run, List.foldl_append, ← StoreRun.run, ih, foldl_storeOps,
      stateAfter_concat, KVService.handleCommand_ds]

/-- `encodeSnapshot` encodes the copies that a `snapshot` saves, and the store after
`handleSnapshot` is the one after a `restore` of what it has decoded. -/
theorem restore_handleSnapshot {codec : SnapshotCodec β} {order : Int → RangeOrder String}
    {s : KVService} {data : β} (hsave : s.encodeSnapshot codec order = some data) (t : KVService)
    (index : Int) :
    (t.handleSnapshot codec index data).ds =
      (StoreRun.step ⟨t.ds, (StoreRun.step ⟨s.ds, []⟩ (.snapshot order)).saved⟩ (.restore 0)).ds := by
  rw [KVService.handleSnapshot, codec.decode_encode hsave]
  rfl

theorem leaseInv_stateAfter (codec : SnapshotCodec β) (log : List LogEntry) :
    LeaseInv (stateAfter codec log).ds := by
  have hinv := (StoreRun.consistent_run (opsOf codec log)).store
  rw [run_opsOf] at hinv
  exact hinv

/-- A key is attached to a lease when the last operation on it is a put that found the
lease live. -/
theorem attached_iff (codec : SnapshotCodec β) (log : List LogEntry) (k : String) (id : Int) :
    (stateAfter codec log).ds.keyLease.lookup k = some id ↔
      lastTouch k (logHistory codec log) = some (.put k id true) := by
  have htraced := RevocationLemmas.traced_run (opsOf codec log)
  rw [run_opsOf] at htraced
  exact RevocationLemmas.attached_iff_lastTouch htraced k id

end LeasedKeysLemmas

open LeasedKeysLemmas

/-! ## Main results -/

/-- On every replica of every log: a key that was last touched by a `Put` naming a lease
that was live at that moment is attached to the lease, and the lease is still live. -/
theorem leased_key_live (codec : SnapshotCodec β) {log : List LogEntry} {n : Nat} {s : KVService}
    (hs : (replicated codec).ReplicaAt (log.map Prod.snd) n s) {k : String} {id : Int}
    (hput : lastTouch k (logHistory codec (log.take n)) = some (.put k id true)) :
    id ∈ s.ds.leases ∧ s.ds.keyLease.lookup k = some id ∧ k ∈ s.ds.data := by
  have hagree := replicaAt_agree codec hs
  have hinv := leaseInv_stateAfter codec (log.take n)
  have hattached := (attached_iff codec (log.take n) k id).mpr hput
  obtain ⟨l, hl, -⟩ := (hinv.attached k id).mp hattached
  obtain ⟨v, hv⟩ := hinv.present k id hattached
  rw [hagree.mem_leases, hagree.keyLease, hagree.data]
  exact ⟨Finmap.mem_of_lookup_eq_some hl, hattached, Finmap.mem_of_lookup_eq_some hv⟩

/-- A grant and a put under the lease, which the replica has applied. -/
def leasedPutLog : List LogEntry :=
  [(.at 0, { kind := .leaseGrant, leaseTTL := 10 }),
    (.at 0, { kind := .put, key := "a", value := "x", leaseID := 1 })]

theorem leased_key_live_put :
    let s := stateAfter .plain (leasedPutLog.take 2)
    (1 : Int) ∈ s.ds.leases ∧ s.ds.keyLease.lookup "a" = some 1 ∧ "a" ∈ s.ds.data := by
  have hlen : 2 ≤ leasedPutLog.length := by decide
  exact leased_key_live .plain (replicaAt_stateAfter .plain hlen) (by decide)

/-- The lease is revoked between the grant and the put that names it. -/
def latePutLog : List LogEntry :=
  [(.at 0, { kind := .leaseGrant, leaseTTL := 10 }),
    (.at 0, { kind := .leaseRevoke, leaseID := 1 }),
    (.at 0, { kind := .put, key := "a", value := "x", leaseID := 1 })]

/-- The put that comes after the revocation of its lease is applied like one without a
lease: the key is present, its last `Put` named lease 1, no lease is live, and there is
nothing left that would delete the key. -/
theorem orphaned_key : ∃ s : KVService,
    (replicated .plain).ReplicaAt (latePutLog.map Prod.snd) 3 s ∧
    s.ds.data.lookup "a" = some "x" ∧
    lastTouch "a" (logHistory .plain (latePutLog.take 3)) = some (.put "a" 1 false) ∧
    s.ds.leases = ∅ ∧ s.ds.keyLease = ∅ := by
  refine ⟨stateAfter .plain (latePutLog.take 3), replicaAt_stateAfter .plain (by decide), ?_⟩
  decide

end Zodiac
