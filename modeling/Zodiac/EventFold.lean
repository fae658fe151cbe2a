import Zodiac.Log

/-!
# Watch events reconstruct the store

A client that folds the pushed events over an empty map has the data map of the
service after every entry. `handleCommand` derives the events a second time,
from the command and its results, and for a CAS or an append inside a
transaction it reads the store that the whole transaction left.

* `foldEvents_txnOps`: the fold may run ahead of a transaction on some keys, but
  only with the value the key has at the end.
* `foldEvents_applyCommand`: one entry.
* `foldEvents_eventsOf`: the main result, for every log whose transactions use
  the four operations of the API.
-/

namespace Zodiac

/-! ## Definitions -/

/-- A put event sets its key, a delete event erases it. -/
def applyEvent (m : GoMap String String) (e : WatchEvent) : GoMap String String :=
  match e.type with
  | .put => m.insert e.key e.value
  | .delete => m.erase e.key

/-- The map a client builds from the events. -/
def foldEvents (m : GoMap String String) (es : List WatchEvent) : GoMap String String :=
  es.foldl applyEvent m

/-- The operation is one of the four that the API defines. -/
def TxnOp.Known (op : TxnOp) : Prop :=
  op.op = .put ∨ op.op = .delete ∨ op.op = .cas ∨ op.op = .append

instance (op : TxnOp) : Decidable op.Known := inferInstanceAs (Decidable (_ ∨ _))

/-- Both branches of the command's transaction use known operations. -/
def Command.KnownOps (cmd : Command) : Prop :=
  ∀ op ∈ cmd.txn.success ++ cmd.txn.failure, op.Known

instance (cmd : Command) : Decidable cmd.KnownOps :=
  inferInstanceAs (Decidable (∀ op ∈ _, TxnOp.Known op))

namespace EventFoldLemmas

theorem foldEvents_append (m : GoMap String String) (es es' : List WatchEvent) :
    foldEvents m (es ++ es') = foldEvents (foldEvents m es) es' := List.foldl_append

/-! ## Transactions -/

/-- The fold agrees with the data, except that it may already have the final
value of a key that is present. -/
def RunsAhead (final : DataStore) (m data : GoMap String String) : Prop :=
  ∀ k, m.lookup k = data.lookup k ∨
    ∃ v, data.lookup k = some v ∧ m.lookup k = some (final.get k).1

variable {final : DataStore} {m data : GoMap String String}

theorem RunsAhead.refl (final : DataStore) (data : GoMap String String) :
    RunsAhead final data data := fun _ => .inl rfl

theorem RunsAhead.insert (h : RunsAhead final m data) (key value : String) :
    RunsAhead final (m.insert key value) (data.insert key value) := by
  intro k
  rw [Finmap.lookup_insert_ite, Finmap.lookup_insert_ite]
  split
  · exact .inl rfl
  · exact h k

theorem RunsAhead.erase (h : RunsAhead final m data) (key : String) :
    RunsAhead final (m.erase key) (data.erase key) := by
  intro k
  rw [Finmap.lookup_erase_ite, Finmap.lookup_erase_ite]
  split
  · exact .inl rfl
  · exact h k

/-- The step where the fold runs ahead: it takes the final value of the key. -/
theorem RunsAhead.insert_final (h : RunsAhead final m data) (key value : String) :
    RunsAhead final (m.insert key (final.get key).1) (data.insert key value) := by
  intro k
  rw [Finmap.lookup_insert_ite, Finmap.lookup_insert_ite]
  split
  · next hk => exact .inr ⟨value, rfl, by rw [hk]⟩
  · exact h k

/-- At the end of the transaction nothing is left to run ahead of. -/
theorem RunsAhead.eq (h : RunsAhead final m final.data) : m = final.data := by
  refine Finmap.ext_lookup fun k => ?_
  rcases h k with h | ⟨v, hv, hm⟩
  · exact h
  · rw [hm, hv, DataStore.get, Finmap.read_of_some hv]

/-- One operation of a transaction and its event. -/
theorem foldEvents_txnOp (ds : DataStore) {op : TxnOp} (hop : op.Known) (rev : Int)
    (h : RunsAhead final m ds.data) :
    RunsAhead final (foldEvents m (KVService.txnOpEvent final rev op (ds.txnOp op).2))
      (ds.txnOp op).1.data := by
  cases hk : op.op with
  | put =>
    simp only [KVService.txnOpEvent, DataStore.txnOp, hk, DataStore.putLocked_data]
    exact h.insert op.key op.value
  | delete =>
    simp only [KVService.txnOpEvent, DataStore.txnOp, hk, DataStore.deleteLocked_data]
    exact h.erase op.key
  | cas =>
    -- the event is pushed under the test that made the store change
    simp only [KVService.txnOpEvent, DataStore.txnOp, hk, DataStore.casLocked]
    split
    · exact h.insert_final op.key op.value
    · exact h
  | append =>
    simp only [KVService.txnOpEvent, DataStore.txnOp, hk, DataStore.appendLocked]
    exact h.insert_final op.key _
  | unknown code => simp [TxnOp.Known, hk] at hop

theorem foldEvents_txnOps (rev : Int) (ops : List TxnOp) :
    ∀ (ds : DataStore) (m : GoMap String String), (∀ op ∈ ops, op.Known) →
      RunsAhead final m ds.data →
      RunsAhead final (foldEvents m ((ops.zip (ds.txnOps ops).2).flatMap fun p =>
        KVService.txnOpEvent final rev p.1 p.2)) (ds.txnOps ops).1.data := by
  induction ops with
  | nil => exact fun _ _ _ h => h
  | cons op ops ih =>
    intro ds m hops h
    simp only [DataStore.txnOps, List.zip_cons_cons, List.flatMap_cons, foldEvents_append]
    exact ih _ _ (fun op' hop' => hops op' (List.mem_cons_of_mem _ hop'))
      (foldEvents_txnOp ds (hops op List.mem_cons_self) rev h)

/-! ## Lease removals -/

/-- The data is the old data without the keys in the result map. -/
def Removed (old pairs data : GoMap String String) : Prop :=
  ∀ k, data.lookup k = if k ∈ pairs then none else old.lookup k

theorem foldEvents_deleteEvents (order : RangeOrder String) (old pairs : GoMap String String)
    (rev : Int) : Removed old pairs (foldEvents old (KVService.deleteEvents order pairs rev)) := by
  intro k
  have hfold : foldEvents old (KVService.deleteEvents order pairs rev) =
      old.eraseAll (order.keys pairs.keys) := by
    simp only [foldEvents, KVService.deleteEvents, List.foldl_map, applyEvent, Finmap.eraseAll]
  rw [hfold, Finmap.lookup_eraseAll]
  simp only [order.mem_keys, Finmap.mem_keys]

theorem revokeLease_data (ds : DataStore) (order : RangeOrder String) (id : Int) :
    (ds.revokeLease order id).1.data = ds.data.eraseAll (ds.revokeLease order id).2 := by
  unfold DataStore.revokeLease
  cases ds.leases.lookup id <;> rfl

/-- One more lease is removed and its keys join the result map. -/
theorem Removed.revokeLease {old pairs : GoMap String String} {ds : DataStore}
    (h : Removed old pairs ds.data) (order : RangeOrder String) (id : Int) :
    Removed old (pairs.insertAll (ds.revokeLease order id).2 "") (ds.revokeLease order id).1.data := by
  intro k
  rw [revokeLease_data, Finmap.lookup_eraseAll, h k]
  by_cases hk : k ∈ (ds.revokeLease order id).2
  · rw [if_pos hk, if_pos (Finmap.mem_insertAll.mpr (.inl hk))]
  · rw [if_neg hk]
    refine if_congr ?_ rfl rfl
    rw [Finmap.mem_insertAll]
    exact ⟨.inr, fun h => h.resolve_left hk⟩

theorem Removed.expireLeases {old : GoMap String String} (order : Int → RangeOrder String)
    (ids : List Int) : ∀ (ds : DataStore) (pairs : GoMap String String), Removed old pairs ds.data →
      Removed old (KVService.expireLeases order ds ids pairs).2
        (KVService.expireLeases order ds ids pairs).1.data := by
  induction ids with
  | nil => exact fun _ _ h => h
  | cons id ids ih => exact fun ds pairs h => ih _ _ (h.revokeLease (order id) id)

theorem Removed.refl (data : GoMap String String) : Removed data ∅ data :=
  fun _ => (if_neg (Finmap.notMem_empty)).symm

/-- The delete events of a removal take the old data to the new. -/
theorem Removed.foldEvents_eq {old pairs data : GoMap String String} (h : Removed old pairs data)
    (order : RangeOrder String) (rev : Int) :
    foldEvents old (KVService.deleteEvents order pairs rev) = data :=
  Finmap.ext_lookup fun k => (foldEvents_deleteEvents order old pairs rev k).trans (h k).symm

/-! ## Entries -/

/-- The events of a command that is not a duplicate take the data before it to
the data after it. -/
theorem foldEvents_execute (env : Env) (ds : DataStore) {cmd : Command} (hops : cmd.KnownOps)
    (rev : Int) :
    foldEvents ds.data (KVService.watchEvents env (KVService.execute env ds cmd).1
      { (KVService.execute env ds cmd).2 with revision := rev }) =
      (KVService.execute env ds cmd).1.data := by
  cases hk : cmd.kind with
  | get => simp [KVService.execute, KVService.watchEvents, hk, KVService.readGet, foldEvents]
  | list =>
    have hlist := KVService.readList_request ds cmd
    simp [KVService.execute, KVService.watchEvents, hk, hlist.1, foldEvents]
  | put =>
    simp only [KVService.execute, KVService.watchEvents, hk, DataStore.putLocked_data]
    rfl
  | append =>
    simp only [KVService.execute, KVService.watchEvents, hk]
    exact ((RunsAhead.refl _ ds.data).insert_final cmd.key _).eq
  | cas =>
    simp only [KVService.execute, KVService.watchEvents, hk, DataStore.casLocked,
      Bool.false_eq_true, if_false]
    split
    · exact ((RunsAhead.refl _ ds.data).insert_final cmd.key cmd.value).eq
    · rfl
  | txn =>
    simp only [KVService.execute, KVService.watchEvents, hk, DataStore.txn]
    refine (foldEvents_txnOps rev _ ds ds.data (fun op hop => hops op ?_) (.refl _ _)).eq
    split at hop
    · exact List.mem_append_left _ hop
    · exact List.mem_append_right _ hop
  | leaseGrant => simp [KVService.execute, KVService.watchEvents, hk, foldEvents, DataStore.grantLease]
  | leaseKeepAlive =>
    simp only [KVService.execute, KVService.watchEvents, hk, DataStore.keepAliveLease]
    cases ds.leases.lookup cmd.leaseID <;> rfl
  | leaseRevoke =>
    simp only [KVService.execute, KVService.watchEvents, hk]
    exact ((Removed.refl ds.data).revokeLease _ _).foldEvents_eq env.pairs rev
  | leaseExpiry =>
    simp only [KVService.execute, KVService.watchEvents, hk]
    exact (Removed.expireLeases _ _ ds ∅ (Removed.refl ds.data)).foldEvents_eq env.pairs rev

end EventFoldLemmas

open EventFoldLemmas

/-- The events of one entry take the data before it to the data after it. -/
theorem foldEvents_applyCommand (env : Env) (s : KVService) {cmd : Command} (hops : cmd.KnownOps) :
    foldEvents s.ds.data (KVService.watchEvents env (s.applyCommand env cmd).1.ds
      (s.applyCommand env cmd).2) = (s.applyCommand env cmd).1.ds.data := by
  cases hd : s.isDuplicate cmd with
  | true =>
    rw [KVService.applyCommand_duplicate hd]
    rfl
  | false =>
    rw [KVService.applyCommand_fresh hd]
    exact foldEvents_execute env s.ds hops _

/-- Folding the events of a log over the empty map gives, after every entry, the
data map of the service. -/
theorem foldEvents_eventsOf {β : Type} (codec : SnapshotCodec β) (log : List LogEntry)
    (hops : ∀ e ∈ log, e.2.KnownOps) (n : Nat) :
    foldEvents ∅ (eventsOf codec (log.take n)) = (stateAfter codec (log.take n)).ds.data := by
  replace hops : ∀ e ∈ log.take n, e.2.KnownOps := fun e he => hops e (List.mem_of_mem_take he)
  generalize log.take n = log at hops ⊢
  induction log using List.reverseRecOn with
  | nil => rfl
  | append_singleton log e ih =>
    obtain ⟨env, cmd⟩ := e
    have hlog := ih fun e he => hops e (List.mem_append_left _ he)
    have hcmd : cmd.KnownOps := hops (env, cmd) (List.mem_append_right _ (List.mem_singleton.mpr rfl))
    rw [eventsOf_concat, foldEvents_append, hlog, stateAfter_concat, KVService.handleCommand_ds,
      KVService.handleCommand_events]
    exact foldEvents_applyCommand env _ hcmd

/-- A transaction that touches one key four times, then a leased key that
expires. -/
def busyLog : List LogEntry :=
  [(Env.at 0, { kind := .txn, txn := { success := [
      { op := .append, key := "a", value := "x" }, { op := .cas, key := "a", compareValue := "x", value := "y" },
      { op := .delete, key := "a" }, { op := .append, key := "a", value := "z" }] } }),
    (Env.at 0, { kind := .leaseGrant, leaseTTL := 1 }),
    (Env.at 0, { kind := .put, key := "b", value := "w", leaseID := 1 }),
    (Env.at 5, { kind := .leaseExpiry, leaseIDs := [1] })]

theorem foldEvents_busyLog :
    foldEvents ∅ (eventsOf .plain busyLog) = (stateAfter .plain busyLog).ds.data ∧
    (stateAfter .plain busyLog).ds.data = Finmap.singleton "a" "z" :=
  ⟨foldEvents_eventsOf .plain busyLog (by decide) 4, by decide⟩

end Zodiac
