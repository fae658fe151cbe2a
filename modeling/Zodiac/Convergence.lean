import Zodiac.Lib.Replica
import Zodiac.Service

/-!
# Replicas converge

Two replicas that are at the same log position agree on everything but lease
expiry times, although their clocks and their map iteration orders differ and
although either may have restored snapshots on the way.

The proof erases the one field the clock reaches. `DataStore.timeless` sets
every expiry time to zero; an operation on the erased store does the same as on
the store itself, up to erasure, with the same result. `Agree` is equality
after erasure.

* `timeless_execute`: the command switch commutes with erasure.
* `applyCommand_agree`: a command keeps agreement and gives equal results.
* `deterministic_replicated`: the service is a deterministic replicated
  machine.
* `replicas_converge`: the main result.
-/

namespace Zodiac

/-! ## Erasing the expiry times -/

/-- The lease without its expiry time. -/
def Lease.timeless (l : Lease) : Lease := { l with expiresAt := 0 }

/-- The store without expiry times. -/
def DataStore.timeless (ds : DataStore) : DataStore :=
  { ds with leases := ds.leases.mapVal fun _ l => l.timeless }

/-- The replicated fields agree; expiry times and the index of the last local
snapshot are not replicated. -/
structure Agree (s t : KVService) : Prop where
  store : s.ds.timeless = t.ds.timeless
  requests : s.lastRequestIDPerClient = t.lastRequestIDPerClient
  revision : s.currentRevision = t.currentRevision

theorem agree_equivalence : Equivalence Agree where
  refl _ := ⟨rfl, rfl, rfl⟩
  symm h := ⟨h.store.symm, h.requests.symm, h.revision.symm⟩
  trans h h' := ⟨h.store.trans h'.store, h.requests.trans h'.requests,
    h.revision.trans h'.revision⟩

namespace ConvergenceLemmas

variable (ds : DataStore)

@[simp] theorem timeless_data : ds.timeless.data = ds.data := rfl

@[simp] theorem timeless_keyLease : ds.timeless.keyLease = ds.keyLease := rfl

@[simp] theorem timeless_leaseIDSeq : ds.timeless.leaseIDSeq = ds.leaseIDSeq := rfl

theorem timeless_lookup (id : Int) :
    ds.timeless.leases.lookup id = (ds.leases.lookup id).map Lease.timeless :=
  Finmap.lookup_mapVal _ _ _

/-- Erasure after an operation that returns a result. -/
def erased {α : Type} (r : DataStore × α) : DataStore × α := (r.1.timeless, r.2)

theorem timeless_detach (key : String) :
    (ds.detachKeyFromLease key).timeless = ds.timeless.detachKeyFromLease key := by
  unfold DataStore.detachKeyFromLease
  rw [timeless_keyLease]
  cases hkl : ds.keyLease.lookup key with
  | none => rfl
  | some old =>
    simp only [timeless_lookup]
    cases hl : ds.leases.lookup old with
    | none => rfl
    | some l => simp [DataStore.timeless, Finmap.mapVal_insert, Lease.timeless]

theorem timeless_attach (key : String) (id : Int) :
    (ds.attachKeyToLease key id).timeless = ds.timeless.attachKeyToLease key id := by
  unfold DataStore.attachKeyToLease
  dsimp only
  rw [← timeless_detach, timeless_lookup]
  cases (ds.detachKeyFromLease key).leases.lookup id with
  | none => rfl
  | some l => simp [DataStore.timeless, Finmap.mapVal_insert, Lease.timeless]

theorem timeless_putLocked (key value : String) (id : Int) :
    ds.timeless.putLocked key value id = erased (ds.putLocked key value id) := by
  unfold DataStore.putLocked erased
  dsimp only
  rw [← timeless_detach]
  split
  · rw [timeless_attach]; rfl
  · rfl

theorem timeless_appendLocked (key value : String) :
    ds.timeless.appendLocked key value = erased (ds.appendLocked key value) := rfl

theorem timeless_casLocked (key compare value : String) :
    ds.timeless.casLocked key compare value = erased (ds.casLocked key compare value) := by
  unfold DataStore.casLocked erased
  rw [timeless_data]
  dsimp only
  split <;> rfl

theorem timeless_deleteLocked (key : String) :
    ds.timeless.deleteLocked key = erased (ds.deleteLocked key) := by
  unfold DataStore.deleteLocked erased
  rw [← timeless_detach]
  rfl

theorem timeless_txnOp (op : TxnOp) : ds.timeless.txnOp op = erased (ds.txnOp op) := by
  unfold DataStore.txnOp
  cases op.op with
  | put => dsimp only; rw [timeless_putLocked]; rfl
  | delete => dsimp only; rw [timeless_deleteLocked]; rfl
  | cas => dsimp only; rw [timeless_casLocked]; rfl
  | append => dsimp only; rw [timeless_appendLocked]; rfl
  | unknown _ => rfl

theorem timeless_txnOps (ops : List TxnOp) :
    ∀ ds : DataStore, ds.timeless.txnOps ops = erased (ds.txnOps ops) := by
  induction ops with
  | nil => exact fun _ => rfl
  | cons op ops ih =>
    intro ds
    simp only [DataStore.txnOps, timeless_txnOp, erased, ih]

theorem timeless_evalCondition (c : TxnCondition) :
    ds.timeless.evalCondition c = ds.evalCondition c := rfl

theorem timeless_txn (conds : List TxnCondition) (success failure : List TxnOp) :
    ds.timeless.txn conds success failure = erased (ds.txn conds success failure) := by
  have hcond : ds.timeless.evalCondition = ds.evalCondition := funext (timeless_evalCondition ds)
  simp only [DataStore.txn, hcond, timeless_txnOps, erased]

@[simp] theorem timeless_timeless : ds.timeless.timeless = ds.timeless := by
  have h : ds.timeless.leases.mapVal (fun _ l => l.timeless) = ds.timeless.leases :=
    Finmap.ext_lookup fun id => by
      rw [Finmap.lookup_mapVal, timeless_lookup, Option.map_map]
      rfl
  rw [DataStore.timeless, h]

/-! ## The clock and the iteration orders -/

/-- Erasure of a lease update depends on the erased store and the erased lease. -/
theorem timeless_setLease (ds : DataStore) (seq id : Int) (l : Lease) :
    ({ ds with leaseIDSeq := seq, leases := ds.leases.insert id l } : DataStore).timeless =
      { ds.timeless with leaseIDSeq := seq, leases := ds.timeless.leases.insert id l.timeless } := by
  simp only [DataStore.timeless, Finmap.mapVal_insert]

theorem timeless_grantLease (now now' : Time) (ttl : Int) :
    erased (ds.timeless.grantLease now ttl) = erased (ds.grantLease now' ttl) := by
  simp only [erased, DataStore.grantLease, timeless_setLease, timeless_timeless,
    timeless_leaseIDSeq, Lease.timeless]

theorem timeless_keepAliveLease (now now' : Time) (id : Int) :
    erased (ds.timeless.keepAliveLease now id) = erased (ds.keepAliveLease now' id) := by
  unfold DataStore.keepAliveLease
  rw [timeless_lookup]
  cases ds.leases.lookup id with
  | none => simp [erased]
  | some l =>
    have hset := fun d : DataStore => timeless_setLease d d.leaseIDSeq
    simp only [erased, Option.map_some, hset, timeless_timeless, Lease.timeless]
    rfl

/-- Revoking in another order removes the same lease and the same keys, and
lists them in another order. -/
theorem timeless_revokeLease (order order' : RangeOrder String) (id : Int) :
    (ds.timeless.revokeLease order id).1.timeless = (ds.revokeLease order' id).1.timeless ∧
    ∀ k, k ∈ (ds.timeless.revokeLease order id).2 ↔ k ∈ (ds.revokeLease order' id).2 := by
  unfold DataStore.revokeLease
  rw [timeless_lookup]
  cases ds.leases.lookup id with
  | none => simp
  | some l =>
    have hkeys : ∀ k, k ∈ order.keys l.keys ↔ k ∈ order'.keys l.keys := by
      intro k
      rw [order.mem_keys, order'.mem_keys]
    have h := congrArg DataStore.leases (timeless_timeless ds)
    simp only [DataStore.timeless] at h
    refine ⟨?_, hkeys⟩
    simp only [DataStore.timeless, Finmap.mapVal_erase, Option.map_some, Lease.timeless] at h ⊢
    rw [h, Finmap.eraseAll_congr _ hkeys, Finmap.eraseAll_congr _ hkeys]

theorem timeless_expireLeases (order order' : Int → RangeOrder String) (ids : List Int) :
    ∀ (ds ds' : DataStore) (pairs : GoMap String String), ds.timeless = ds'.timeless →
      erased (KVService.expireLeases order ds ids pairs) =
        erased (KVService.expireLeases order' ds' ids pairs) := by
  induction ids with
  | nil =>
    intro ds ds' pairs h
    simp only [KVService.expireLeases, erased, h]
  | cons id ids ih =>
    intro ds ds' pairs h
    -- both revocations agree with the one on the common erased store
    obtain ⟨hs, hk⟩ := timeless_revokeLease ds (order id) (order id) id
    obtain ⟨hs', hk'⟩ := timeless_revokeLease ds' (order id) (order' id) id
    rw [h] at hs hk
    simp only [KVService.expireLeases]
    rw [Finmap.insertAll_congr pairs "" fun k => (hk k).symm.trans (hk' k)]
    exact ih _ _ _ (hs.symm.trans hs')

/-! ## Commands -/

theorem timeless_readGet (cmd : Command) :
    KVService.readGet ds.timeless cmd = KVService.readGet ds cmd := rfl

theorem timeless_listPage (limit : Int) (ks : List String) :
    ∀ (i : Int) (result : GoMap String String),
      ds.timeless.listPage limit ks i result = ds.listPage limit ks i result := by
  induction ks with
  | nil => exact fun _ _ => rfl
  | cons k ks ih =>
    intro i result
    simp only [DataStore.listPage, ih, timeless_data]

theorem timeless_readList (cmd : Command) :
    KVService.readList ds.timeless cmd = KVService.readList ds cmd := by
  unfold KVService.readList DataStore.listPaged DataStore.list
  simp only [timeless_listPage, timeless_data]

theorem timeless_execute (env env' : Env) (cmd : Command) :
    erased (KVService.execute env ds.timeless cmd) = erased (KVService.execute env' ds cmd) := by
  unfold KVService.execute
  cases cmd.kind with
  | get => simp [erased, timeless_readGet]
  | put => simp [erased, timeless_putLocked]
  | append => simp [erased, timeless_appendLocked]
  | cas => simp [erased, timeless_casLocked]
  | list => simp [erased, timeless_readList]
  | txn => simp [erased, timeless_txn]
  | leaseGrant =>
    have h := timeless_grantLease ds env.now env'.now cmd.leaseTTL
    simp only [erased, Prod.mk.injEq] at h ⊢
    exact ⟨h.1, by rw [h.2]⟩
  | leaseKeepAlive =>
    have h := timeless_keepAliveLease ds env.now env'.now cmd.leaseID
    simp only [erased, Prod.mk.injEq] at h ⊢
    exact ⟨h.1, by rw [h.2]⟩
  | leaseRevoke =>
    obtain ⟨hs, hk⟩ := timeless_revokeLease ds (env.leaseKeys cmd.leaseID)
      (env'.leaseKeys cmd.leaseID) cmd.leaseID
    simp only [erased, Prod.mk.injEq]
    exact ⟨hs, by rw [Finmap.insertAll_congr ∅ "" hk]⟩
  | leaseExpiry =>
    have h := timeless_expireLeases env.leaseKeys env'.leaseKeys cmd.leaseIDs ds.timeless ds ∅
      (timeless_timeless ds)
    simp only [erased, Prod.mk.injEq] at h ⊢
    exact ⟨h.1, by rw [h.2]⟩

theorem execute_agree (env env' : Env) {ds ds' : DataStore} (h : ds.timeless = ds'.timeless)
    (cmd : Command) : erased (KVService.execute env ds cmd) = erased (KVService.execute env' ds' cmd) := by
  calc
    erased (KVService.execute env ds cmd) = erased (KVService.execute env ds.timeless cmd) :=
      (timeless_execute ds env env cmd).symm
    _ = erased (KVService.execute env ds'.timeless cmd) := by rw [h]
    _ = erased (KVService.execute env' ds' cmd) := timeless_execute ds' env env' cmd

theorem duplicateResult_agree {ds ds' : DataStore} (h : ds.timeless = ds'.timeless)
    (cmd : Command) : KVService.duplicateResult ds cmd = KVService.duplicateResult ds' cmd := by
  unfold KVService.duplicateResult
  cases cmd.kind with
  | get =>
    dsimp only
    rw [← timeless_readGet ds, ← timeless_readGet ds', h]
  | list =>
    dsimp only
    rw [← timeless_readList ds, ← timeless_readList ds', h]
  | _ => rfl

theorem isDuplicate_agree {s t : KVService} (h : Agree s t) (cmd : Command) :
    s.isDuplicate cmd = t.isDuplicate cmd := by
  unfold KVService.isDuplicate
  rw [h.requests]

end ConvergenceLemmas

open ConvergenceLemmas

namespace Agree

variable {s t : KVService}

theorem data (h : Agree s t) : s.ds.data = t.ds.data := by
  rw [← timeless_data, h.store, timeless_data]

theorem keyLease (h : Agree s t) : s.ds.keyLease = t.ds.keyLease := by
  rw [← timeless_keyLease, h.store, timeless_keyLease]

theorem leaseIDSeq (h : Agree s t) : s.ds.leaseIDSeq = t.ds.leaseIDSeq := by
  rw [← timeless_leaseIDSeq, h.store, timeless_leaseIDSeq]

/-- The id, the TTL and the key set of a lease can be read off the erased lease. -/
theorem leases (h : Agree s t) (id : Int) :
    (s.ds.leases.lookup id).map (fun l => (l.id, l.ttl, l.keys)) =
      (t.ds.leases.lookup id).map (fun l => (l.id, l.ttl, l.keys)) := by
  have hread : ∀ ds : DataStore, (ds.leases.lookup id).map (fun l => (l.id, l.ttl, l.keys)) =
      (ds.timeless.leases.lookup id).map (fun l => (l.id, l.ttl, l.keys)) := by
    intro ds
    rw [timeless_lookup, Option.map_map]
    rfl
  rw [hread, h.store, ← hread]

/-- The same leases are live. -/
theorem mem_leases (h : Agree s t) (id : Int) : id ∈ s.ds.leases ↔ id ∈ t.ds.leases := by
  have hlive := congrArg Option.isSome (h.leases id)
  rw [Option.isSome_map, Option.isSome_map] at hlive
  rw [← Finmap.lookup_isSome, ← Finmap.lookup_isSome, hlive]

end Agree

/-- Applying a command keeps agreement and gives equal results, whatever the
clocks and iteration orders. -/
theorem applyCommand_agree (env env' : Env) {s t : KVService} (h : Agree s t) (cmd : Command) :
    Agree (s.applyCommand env cmd).1 (t.applyCommand env' cmd).1 ∧
    (s.applyCommand env cmd).2 = (t.applyCommand env' cmd).2 := by
  have hdup := isDuplicate_agree h cmd
  cases hd : s.isDuplicate cmd with
  | true =>
    rw [KVService.applyCommand_duplicate hd, KVService.applyCommand_duplicate (hdup ▸ hd)]
    exact ⟨h, by rw [duplicateResult_agree h.store, h.revision]⟩
  | false =>
    rw [KVService.applyCommand_fresh hd, KVService.applyCommand_fresh (hdup ▸ hd)]
    have hexec := execute_agree env env' h.store cmd
    simp only [erased, Prod.mk.injEq] at hexec
    have hreq : s.recordRequest cmd = t.recordRequest cmd := by
      unfold KVService.recordRequest
      rw [h.requests]
    have hrev : s.nextRevision cmd = t.nextRevision cmd := by
      unfold KVService.nextRevision
      rw [h.revision]
    exact ⟨⟨hexec.1, hreq, hrev⟩, by rw [hexec.2, hrev]⟩

/-! ## The replicated machine -/

/-- The service as a replicated machine. The snapshot of the first `n` entries
has Raft index `n - 1`. -/
def replicated {β : Type} (codec : SnapshotCodec β) :
    ReplicatedMachine KVService Command CommitCmd Env β where
  init := .new
  apply env n s cmd := ((s.handleCommand codec env cmd n).1, (s.handleCommand codec env cmd n).2.cmd)
  save env s := s.encodeSnapshot codec env.snapshotKeys
  restore s n data := s.handleSnapshot codec (n - 1) data

section

variable {β : Type} (codec : SnapshotCodec β)

/-- The snapshot that `handleCommand` may take changes no replicated field. -/
theorem handleCommand_agree (env : Env) (s : KVService) (cmd : Command) (index : Int) :
    Agree (s.handleCommand codec env cmd index).1 (s.applyCommand env cmd).1 where
  store := by rw [KVService.handleCommand_ds]
  requests := KVService.handleCommand_lastRequestIDPerClient codec env s cmd index
  revision := KVService.handleCommand_currentRevision codec env s cmd index

/-- A restored snapshot agrees with the state it was encoded from. -/
theorem handleSnapshot_agree {order : Int → RangeOrder String} (s : KVService) {t : KVService}
    {data : β} (index : Int) (h : t.encodeSnapshot codec order = some data) :
    Agree (s.handleSnapshot codec index data) t := by
  unfold KVService.handleSnapshot
  rw [codec.decode_encode h]
  refine ⟨?_, rfl, rfl⟩
  exact congrArg DataStore.timeless (DataStore.restore_copies s.ds t.ds order)

instance : Nonempty Env := ⟨.at 0⟩

theorem deterministic_replicated : (replicated codec).Deterministic Agree where
  equiv := agree_equivalence
  state env env' n m {s t} cmd h := by
    have happly := (applyCommand_agree env env' h cmd).1
    exact agree_equivalence.trans (handleCommand_agree codec env s cmd n)
      (agree_equivalence.trans happly (agree_equivalence.symm (handleCommand_agree codec env' t cmd m)))
  output env env' _ _ {_ _} cmd h := (applyCommand_agree env env' h cmd).2
  restored _ n s {_ _} h := handleSnapshot_agree codec s (n - 1) h

/-- Replica convergence. Take any two replicas of a log at position `n`, each of
which got there by applying entries and by restoring snapshots that replicas of
the same log encoded, under its own clock and map iteration orders. They agree
on the data, on the key-to-lease map, on the live leases with their ids, TTLs
and key sets, on the lease counter, on the dedup table and on the revision, and
they compute the same command, results included, for the next entry. -/
theorem replicas_converge {log : List Command} {n : Nat} {s t : KVService}
    (hs : (replicated codec).ReplicaAt log n s) (ht : (replicated codec).ReplicaAt log n t) :
    s.ds.data = t.ds.data ∧ s.ds.keyLease = t.ds.keyLease ∧
    (∀ id, (s.ds.leases.lookup id).map (fun l => (l.id, l.ttl, l.keys)) =
      (t.ds.leases.lookup id).map (fun l => (l.id, l.ttl, l.keys))) ∧
    s.ds.leaseIDSeq = t.ds.leaseIDSeq ∧
    s.lastRequestIDPerClient = t.lastRequestIDPerClient ∧ s.currentRevision = t.currentRevision ∧
    ∀ env env' cmd, log[n]? = some cmd →
      (s.handleCommand codec env cmd n).2.cmd = (t.handleCommand codec env' cmd n).2.cmd := by
  have h := hs.agree (deterministic_replicated codec) ht
  exact ⟨h.data, h.keyLease, h.leases, h.leaseIDSeq, h.requests, h.revision,
    fun env env' cmd _ => hs.output_eq (deterministic_replicated codec) ht env env' cmd⟩

/-- A log that grants a lease and puts a key under it. -/
def leasedLog : List Command :=
  [{ kind := .leaseGrant, leaseTTL := 5, clientID := 1, requestID := 1 },
    { kind := .put, key := "a", value := "x", leaseID := 1, clientID := 1, requestID := 2 }]

/-- The replica that applies both entries of `leasedLog`. -/
def applyingReplica : KVService :=
  let s := (KVService.new.handleCommand .plain (Env.at 0) leasedLog[0] 0).1
  (s.handleCommand .plain (Env.at 3) leasedLog[1] 1).1

/-- The replica that restores a snapshot of the first entry, encoded by a
replica with another clock, and applies the second. -/
def restoringReplica : KVService :=
  let s := (KVService.new.handleCommand .plain (Env.at 40) leasedLog[0] 0).1
  let s := KVService.new.handleSnapshot .plain 0 (s.snapshot fun _ => .ascending)
  (s.handleCommand .plain (Env.at 70) leasedLog[1] 1).1

theorem replicaAt_granted (now : Time) : (replicated .plain).ReplicaAt leasedLog 1
    (KVService.new.handleCommand .plain (Env.at now) leasedLog[0] 0).1 :=
  ReplicatedMachine.ReplicaAt.init.apply (Env.at now) rfl

theorem replicaAt_applyingReplica : (replicated .plain).ReplicaAt leasedLog 2 applyingReplica :=
  (replicaAt_granted 0).apply (Env.at 3) rfl

theorem replicaAt_restoringReplica : (replicated .plain).ReplicaAt leasedLog 2 restoringReplica :=
  (ReplicatedMachine.ReplicaAt.init.restore (Env.at 0) (replicaAt_granted 40) rfl).apply
    (Env.at 70) rfl

/-- The two replicas of `leasedLog`, whose leases expire at different times. -/
theorem replicas_converge_leased :
    (replicated .plain).ReplicaAt leasedLog 2 applyingReplica ∧
    (replicated .plain).ReplicaAt leasedLog 2 restoringReplica ∧
    applyingReplica.ds.data = restoringReplica.ds.data ∧
    applyingReplica.ds.keyLease = restoringReplica.ds.keyLease ∧
    applyingReplica.ds.leases ≠ restoringReplica.ds.leases := by
  have h := replicas_converge .plain replicaAt_applyingReplica replicaAt_restoringReplica
  exact ⟨replicaAt_applyingReplica, replicaAt_restoringReplica, h.1, h.2.1, by decide⟩

end

end Zodiac
