import Zodiac.LeaseRemoval
import Zodiac.Log
import Zodiac.Pagination
import Zodiac.Spec

/-!
# The service refines its specification

The store keeps three maps and a clock where `ItemStore` has one map of items.
`DataStore.itemStore` forgets the rest, and every operation commutes with it as long as
the maps agree (`LeaseInv`). For the whole service, on every replica of a log, under any
clock and any iteration order, with snapshots restored on the way, the state and the
results are those of `KVSpec`.

* `itemStore_execute`: the command switch.
* `spec_applyCommand`: one command, repeated or not.
* `replica_refines_spec`: every replica of every log.
-/

namespace Zodiac

/-! ## Abstraction -/

/-- The items of a store. -/
def DataStore.itemStore (ds : DataStore) : ItemStore where
  items := ds.data.mapVal fun k v => { value := v, lease := ds.keyLease.lookup k }
  live := ds.leases.keys
  issued := ds.leaseIDSeq

/-- The service without its index of the last snapshot. -/
def KVService.spec (s : KVService) : KVSpec :=
  { store := s.ds.itemStore, requests := s.lastRequestIDPerClient, revision := s.currentRevision }

namespace SpecRefinementLemmas

open LeaseRemovalLemmas

variable {ds ds' : DataStore}

/-! ## Reading through the abstraction -/

theorem lookup_items (ds : DataStore) (k : String) :
    ds.itemStore.items.lookup k =
      (ds.data.lookup k).map fun v => { value := v, lease := ds.keyLease.lookup k } :=
  Finmap.lookup_mapVal _ _ _

theorem mem_live (ds : DataStore) (id : Int) : id ∈ ds.itemStore.live ↔ id ∈ ds.leases :=
  Finmap.mem_keys

theorem get_itemStore (ds : DataStore) (key : String) : ds.itemStore.get key = ds.get key := by
  unfold ItemStore.get DataStore.get Finmap.read
  rw [lookup_items]
  cases ds.data.lookup key <;> rfl

theorem values_itemStore (ds : DataStore) : ds.itemStore.values = ds.data := by
  refine Finmap.ext_lookup fun k => ?_
  rw [ItemStore.values, Finmap.lookup_mapVal, lookup_items]
  cases ds.data.lookup k <;> rfl

/-- An attached key is present, so its item shows its lease. -/
theorem leaseOf_itemStore (h : LeaseInv ds) (key : String) :
    ds.itemStore.leaseOf key = ds.keyLease.lookup key := by
  rw [ItemStore.leaseOf, lookup_items]
  cases hl : ds.keyLease.lookup key with
  | none => cases ds.data.lookup key <;> rfl
  | some id =>
    obtain ⟨v, hv⟩ := h.present key id hl
    rw [hv]
    rfl

/-- Stores with the same data, the same attachments and the same leases. -/
theorem itemStore_eq {st : ItemStore} (hitems : ∀ k, (ds.data.lookup k).map
      (fun v => ({ value := v, lease := ds.keyLease.lookup k } : Item)) = st.items.lookup k)
    (hlive : ∀ id, id ∈ ds.leases ↔ id ∈ st.live) (hissued : ds.leaseIDSeq = st.issued) :
    ds.itemStore = st :=
  ItemStore.ext (Finmap.ext_lookup fun k => (lookup_items ds k).trans (hitems k))
    (Finset.ext fun id => (mem_live ds id).trans (hlive id)) hissued

/-- The moves of a write leave the leases and the counter. -/
theorem leases_of_moves (hmoves : ds.Moves ds') :
    (∀ id, id ∈ ds'.leases ↔ id ∈ ds.leases) ∧ ds'.leaseIDSeq = ds.leaseIDSeq := by
  induction hmoves with
  | refl => exact ⟨fun _ => Iff.rfl, rfl⟩
  | tail _ hmove ih =>
    refine ⟨fun id => Iff.trans ?_ (ih.1 id), Eq.trans ?_ ih.2⟩
    · cases hmove with
      | detach key => exact DataStore.mem_detachKeyFromLease_leases ..
      | setData _ _ | eraseData _ => exact Iff.rfl
      | link _ _ hl =>
        rw [Finmap.mem_insert]
        exact or_iff_right_of_imp fun heq => heq ▸ Finmap.mem_of_lookup_eq_some hl
    · cases hmove with
      | detach key => exact DataStore.detachKeyFromLease_leaseIDSeq ..
      | setData _ _ | eraseData _ | link _ _ _ => rfl

/-- A write, by what it does to the items. -/
theorem itemStore_write (hmoves : ds.Moves ds') {items : GoMap String Item}
    (hitems : ∀ k, (ds'.data.lookup k).map
      (fun v => ({ value := v, lease := ds'.keyLease.lookup k } : Item)) = items.lookup k) :
    ds'.itemStore = { ds.itemStore with items := items } := by
  obtain ⟨hleases, hseq⟩ := leases_of_moves hmoves
  exact itemStore_eq hitems (fun id => (hleases id).trans (mem_live ds id).symm) hseq

/-! ## Writes -/

theorem putLocked_prev (ds : DataStore) (key value : String) (id : Int) :
    (ds.putLocked key value id).2 = ds.get key := by
  simp only [DataStore.putLocked, DataStore.detachKeyFromLease_data, DataStore.get]

theorem itemStore_put (h : LeaseInv ds) (key value : String) (id : Int) :
    (ds.putLocked key value id).1.itemStore = ds.itemStore.put key value id := by
  refine itemStore_write (.put ds key value id) fun k => ?_
  have hzero : id ≠ 0 ∧ id ∈ ds.leases ↔ id ∈ ds.leases := by
    refine and_iff_right_of_imp fun hmem hid => ?_
    obtain ⟨l, hl⟩ := Finmap.mem_iff.mp hmem
    have := (h.stored id l hl).2.1
    omega
  rw [DataStore.putLocked_data, DataStore.putLocked_keyLease, Finmap.lookup_insert_ite,
    Finmap.lookup_insert_ite, lookup_items]
  simp only [hzero, mem_live]
  split <;> rfl

theorem itemStore_append (h : LeaseInv ds) (key value : String) :
    (ds.appendLocked key value).1.itemStore = ds.itemStore.append key value := by
  refine itemStore_write (.append ds key value) fun k => ?_
  rw [get_itemStore, leaseOf_itemStore h, Finmap.lookup_insert_ite, lookup_items]
  simp only [DataStore.appendLocked, Finmap.lookup_insert_ite]
  split
  · next heq => rw [heq]; rfl
  · rfl

theorem itemStore_cas (h : LeaseInv ds) (key compare value : String) :
    (ds.casLocked key compare value).1.itemStore = ds.itemStore.cas key compare value := by
  unfold ItemStore.cas DataStore.casLocked
  rw [get_itemStore, leaseOf_itemStore h]
  have hcond : (ds.data.read "" key).2 = true ∧ (ds.data.read "" key).1 = compare ↔
      ds.get key = (compare, true) := by
    rw [DataStore.get, Prod.ext_iff, and_comm]
  dsimp only
  split
  · next hmet =>
    rw [if_pos (hcond.mp hmet)]
    refine itemStore_write (.single (.setData ds key value)) fun k => ?_
    rw [Finmap.lookup_insert_ite, Finmap.lookup_insert_ite, lookup_items]
    split
    · next heq => rw [heq]; rfl
    · rfl
  · next hmet => rw [if_neg (mt hcond.mpr hmet)]

theorem itemStore_delete (ds : DataStore) (key : String) :
    (ds.deleteLocked key).1.itemStore = ds.itemStore.delete key := by
  refine itemStore_write (.delete ds key) fun k => ?_
  rw [Finmap.lookup_erase_ite, lookup_items]
  simp only [DataStore.deleteLocked, Finmap.lookup_erase_ite, DataStore.detachKeyFromLease_data,
    DataStore.detachKeyFromLease_keyLease]
  split <;> rfl

/-! ## Transactions -/

theorem holds_itemStore (ds : DataStore) (c : TxnCondition) :
    ds.itemStore.holds c = ds.evalCondition c := by
  unfold ItemStore.holds DataStore.evalCondition Finmap.read
  rw [values_itemStore]
  cases c.compare <;> cases ds.data.lookup c.key <;> simp [bne]

theorem itemStore_txnOp (h : LeaseInv ds) (op : TxnOp) :
    (ds.txnOp op).1.itemStore = ds.itemStore.txnOp op ∧
    (ds.txnOp op).2 = ds.itemStore.txnReport op := by
  unfold DataStore.txnOp ItemStore.txnOp ItemStore.txnReport
  rw [get_itemStore]
  cases op.op with
  | put =>
    refine ⟨itemStore_put h _ _ _, ?_⟩
    simp only [putLocked_prev]
  | delete =>
    refine ⟨itemStore_delete ds _, ?_⟩
    simp only [DataStore.deleteLocked, DataStore.detachKeyFromLease_data, DataStore.get]
  | cas => exact ⟨itemStore_cas h _ _ _, rfl⟩
  | append => exact ⟨itemStore_append h _ _, rfl⟩
  | unknown code => exact ⟨rfl, rfl⟩

theorem itemStore_txnOps {ops : List TxnOp} : ∀ {ds : DataStore}, LeaseInv ds →
    ((ds.txnOps ops).1.itemStore, (ds.txnOps ops).2) = ds.itemStore.txnOps ops := by
  induction ops with
  | nil => exact fun _ => rfl
  | cons op ops ih =>
    intro ds h
    obtain ⟨hstore, hreport⟩ := itemStore_txnOp h op
    have hrest := ih (h.moves (.txnOp ds op))
    rw [hstore] at hrest
    rw [DataStore.txnOps, ItemStore.txnOps, ← hrest, hreport]

/-! ## Listing -/

theorem keysWith_itemStore (ds : DataStore) (pre : String) :
    ds.itemStore.keysWith pre = PaginationLemmas.keysWith ds pre := by
  rw [ItemStore.keysWith, values_itemStore]
  rfl

theorem page_itemStore (ds : DataStore) (pre : String) (limit : Int) (keyAfter : String) :
    ds.itemStore.page pre limit keyAfter =
      if limit > 0 then ds.listPaged pre limit keyAfter else (ds.list pre, "") := by
  unfold ItemStore.page
  rw [values_itemStore, keysWith_itemStore]
  split
  · next hlimit =>
    obtain ⟨hnext, hpairs⟩ := PaginationLemmas.listPaged_spec ds pre hlimit keyAfter
    refine Prod.ext (Finmap.ext_lookup fun k => Option.ext fun v => ?_) hnext.symm
    rw [hpairs, Finmap.lookup_filterKeys]
    split
    · next hk => exact (and_iff_right (of_decide_eq_true hk)).symm
    · next hk =>
      exact iff_of_false (Option.some_ne_none v).symm fun hc => hk (decide_eq_true hc.1)
  · rfl

theorem readList_eq (ds : DataStore) (cmd : Command) (hkind : cmd.kind = .list) :
    KVService.readList ds cmd = (ds.itemStore.execute cmd).2 := by
  simp only [ItemStore.execute, hkind, page_itemStore, KVService.readList]
  split <;> rfl

/-! ## Leases -/

theorem heldBy_itemStore (h : LeaseInv ds) (ids : List Int) (k : String) :
    ds.itemStore.heldBy ids k = true ↔ ∃ id ∈ ids, ds.keyLease.lookup k = some id := by
  unfold ItemStore.heldBy
  rw [leaseOf_itemStore h]
  cases ds.keyLease.lookup k with
  | none => simp
  | some id => simp [eq_comm]

/-- A revocation erases the keys that its lease holds. -/
theorem revokeLease_lookups (h : LeaseInv ds) (order : RangeOrder String) (id : Int) :
    (∀ k, k ∈ (ds.revokeLease order id).2 ↔ ds.keyLease.lookup k = some id) ∧
    (∀ k, (ds.revokeLease order id).1.data.lookup k =
      if ds.keyLease.lookup k = some id then none else ds.data.lookup k) ∧
    (∀ k, (ds.revokeLease order id).1.keyLease.lookup k =
      if ds.keyLease.lookup k = some id then none else ds.keyLease.lookup k) ∧
    (∀ i, i ∈ (ds.revokeLease order id).1.leases ↔ i ∈ ds.leases ∧ i ≠ id) := by
  unfold DataStore.revokeLease
  cases hl : ds.leases.lookup id with
  | none =>
    -- a key that names the lease would make it live
    have hfree : ∀ k, ds.keyLease.lookup k ≠ some id := by
      intro k hk
      obtain ⟨l, hl', -⟩ := (h.attached k id).mp hk
      rw [hl] at hl'
      cases hl'
    refine ⟨fun k => by simp [hfree k], fun k => (if_neg (hfree k)).symm,
      fun k => (if_neg (hfree k)).symm, fun i => (and_iff_left_of_imp ?_).symm⟩
    rintro hi rfl
    exact Finmap.lookup_eq_none.mp hl hi
  | some l =>
    have hkeys : ∀ k, k ∈ order.keys l.keys ↔ ds.keyLease.lookup k = some id := by
      intro k
      rw [order.mem_keys, h.attached k id, hl]
      simp
    refine ⟨hkeys, fun k => ?_, fun k => ?_, fun i => ?_⟩
    · simp only [Finmap.lookup_eraseAll, hkeys]
    · simp only [Finmap.lookup_eraseAll, hkeys]
    · rw [Finmap.mem_erase]
      exact and_comm

theorem itemStore_expireLeases (leaseKeys : Int → RangeOrder String) (ids : List Int) :
    ∀ {ds : DataStore} (pairs : GoMap String String), LeaseInv ds →
      (KVService.expireLeases leaseKeys ds ids pairs).1.itemStore = ds.itemStore.release ids ∧
      ∀ k, (KVService.expireLeases leaseKeys ds ids pairs).2.lookup k =
        if ds.itemStore.heldBy ids k then some "" else pairs.lookup k := by
  induction ids with
  | nil =>
    intro ds pairs h
    have hfree : ∀ k, ds.itemStore.heldBy [] k = false := fun k => by
      rw [Bool.eq_false_iff, ne_eq, heldBy_itemStore h]
      simp
    refine ⟨itemStore_eq (fun k => ?_) (fun id => ?_) rfl, fun k => ?_⟩
    · simp only [KVService.expireLeases, ItemStore.release, Finmap.lookup_filterKeys, hfree,
        Bool.not_false, if_true, lookup_items]
    · simp [KVService.expireLeases, ItemStore.release, mem_live]
    · rw [hfree k]
      rfl
  | cons id ids ih =>
    intro ds pairs h
    obtain ⟨hkeys, hdata, hlease, hlive⟩ := revokeLease_lookups h (leaseKeys id) id
    have hinv := h.revokeLease (leaseKeys id) id
    obtain ⟨hstore, hpairs⟩ := ih (pairs.insertAll (ds.revokeLease (leaseKeys id) id).2 "") hinv
    -- the keys held by the list are those of its head and those held by the rest afterwards
    have hheld : ∀ k, ds.itemStore.heldBy (id :: ids) k = true ↔ ds.keyLease.lookup k = some id ∨
        (ds.revokeLease (leaseKeys id) id).1.itemStore.heldBy ids k = true := by
      intro k
      rw [heldBy_itemStore h, heldBy_itemStore hinv, List.exists_mem_cons_iff, hlease]
      by_cases hk : ds.keyLease.lookup k = some id
      · simp [hk]
      · simp [hk]
    rw [KVService.expireLeases]
    refine ⟨?_, fun k => ?_⟩
    · rw [hstore]
      refine ItemStore.ext (Finmap.ext_lookup fun k => ?_) (Finset.ext fun i => ?_)
        (LeaseExpiryLemmas.TermsKept.revoke ds (leaseKeys id) id).seq
      · simp only [ItemStore.release, Finmap.lookup_filterKeys, lookup_items, hdata, hlease,
          Bool.not_eq_true', ← Bool.not_eq_true, hheld]
        by_cases hk : ds.keyLease.lookup k = some id
        · simp [hk]
        · simp [hk]
      · simp only [ItemStore.release, Finset.mem_sdiff, List.mem_toFinset, mem_live, hlive,
          List.mem_cons, not_or]
        exact and_assoc
    · rw [hpairs, Finmap.lookup_insertAll]
      simp only [hkeys, hheld]
      by_cases hk : ds.keyLease.lookup k = some id
      · simp [hk]
      · simp [hk]

theorem lookup_released (st : ItemStore) (ids : List Int) (k : String) :
    (st.released ids).lookup k = if st.heldBy ids k then some "" else none := by
  rw [ItemStore.released, Finmap.lookup_mapVal, Finmap.lookup_filterKeys]
  split
  · next hheld =>
    -- a key with a lease is an item
    rw [ItemStore.values, Finmap.lookup_mapVal]
    cases hitem : st.items.lookup k with
    | none =>
      rw [ItemStore.heldBy, ItemStore.leaseOf, hitem] at hheld
      cases hheld
    | some item => rfl
  · rfl

theorem itemStore_release (h : LeaseInv ds) (leaseKeys : Int → RangeOrder String)
    (ids : List Int) :
    (KVService.expireLeases leaseKeys ds ids ∅).1.itemStore = ds.itemStore.release ids ∧
    (KVService.expireLeases leaseKeys ds ids ∅).2 = ds.itemStore.released ids := by
  obtain ⟨hstore, hpairs⟩ := itemStore_expireLeases leaseKeys ids ∅ h
  refine ⟨hstore, Finmap.ext_lookup fun k => ?_⟩
  rw [hpairs, lookup_released, Finmap.lookup_empty]

theorem itemStore_grant (ds : DataStore) (now : Time) (ttl : Int) :
    (ds.grantLease now ttl).1.itemStore = ds.itemStore.grant := by
  refine itemStore_eq (fun k => (lookup_items ds k).symm) (fun id => ?_) rfl
  rw [DataStore.grantLease, ItemStore.grant, Finmap.mem_insert, Finset.mem_insert, mem_live]
  rfl

theorem itemStore_keepAlive (ds : DataStore) (now : Time) (id : Int) :
    (ds.keepAliveLease now id).1.itemStore = ds.itemStore ∧
    (ds.keepAliveLease now id).2 = decide (id ∈ ds.itemStore.live) := by
  unfold DataStore.keepAliveLease
  cases hl : ds.leases.lookup id with
  | none =>
    have hdead : id ∉ ds.itemStore.live := fun hc =>
      Finmap.lookup_eq_none.mp hl ((mem_live ds id).mp hc)
    exact ⟨rfl, (decide_eq_false hdead).symm⟩
  | some l =>
    have hlive : id ∈ ds.leases := Finmap.mem_of_lookup_eq_some hl
    refine ⟨itemStore_eq (fun k => (lookup_items ds k).symm) (fun i => ?_) rfl,
      (decide_eq_true ((mem_live ds id).mpr hlive)).symm⟩
    rw [Finmap.mem_insert, mem_live]
    exact or_iff_right_of_imp fun heq => heq ▸ hlive

/-! ## Commands -/

/-- The command switch computes the specification. -/
theorem itemStore_execute (h : LeaseInv ds) (env : Env) (cmd : Command) :
    ((KVService.execute env ds cmd).1.itemStore, (KVService.execute env ds cmd).2) =
      ds.itemStore.execute cmd := by
  unfold KVService.execute ItemStore.execute
  simp only [get_itemStore]
  cases hkind : cmd.kind with
  | get => rfl
  | put => simp only [itemStore_put h, putLocked_prev]
  | append => simp only [itemStore_append h]; rfl
  | cas => simp only [itemStore_cas h]; rfl
  | list =>
    refine Prod.ext rfl ?_
    rw [readList_eq ds cmd hkind, ItemStore.execute, hkind]
  | txn =>
    have hcond : ds.itemStore.holds = ds.evalCondition := funext (holds_itemStore ds)
    simp only [DataStore.txn, hcond]
    rw [← itemStore_txnOps h]
  | leaseGrant => exact Prod.ext (itemStore_grant ds _ _) rfl
  | leaseKeepAlive =>
    obtain ⟨hstore, hfound⟩ := itemStore_keepAlive ds env.now cmd.leaseID
    simp only [hstore, hfound]
  | leaseRevoke =>
    obtain ⟨hstore, hpairs⟩ := itemStore_release h env.leaseKeys [cmd.leaseID]
    rw [← hstore, ← hpairs]
    rfl
  | leaseExpiry =>
    obtain ⟨hstore, hpairs⟩ := itemStore_release h env.leaseKeys cmd.leaseIDs
    rw [← hstore, ← hpairs]

variable {s t : KVService}

theorem repeats_spec (s : KVService) (cmd : Command) : s.spec.repeats cmd = s.isDuplicate cmd := by
  unfold KVSpec.repeats KVService.isDuplicate KVService.spec
  cases s.lastRequestIDPerClient.lookup cmd.clientID <;> simp

theorem again_spec (h : LeaseInv s.ds) (env : Env) (cmd : Command) :
    s.spec.again cmd = KVService.duplicateResult s.ds cmd := by
  have hexec := congrArg Prod.snd (itemStore_execute h env cmd)
  unfold KVSpec.again KVService.duplicateResult
  cases hkind : cmd.kind with
  | get => exact hexec.symm.trans (by rw [KVService.execute, hkind])
  | list => exact hexec.symm.trans (by rw [KVService.execute, hkind])
  | _ => rfl

/-- One command, repeated or not. -/
theorem spec_applyCommand (h : LeaseInv s.ds) (env : Env) (cmd : Command) :
    ((s.applyCommand env cmd).1.spec, (s.applyCommand env cmd).2) = s.spec.apply cmd := by
  unfold KVSpec.apply
  rw [repeats_spec, again_spec h env]
  cases hd : s.isDuplicate cmd with
  | true => rw [KVService.applyCommand_duplicate hd]; rfl
  | false =>
    have hexec := itemStore_execute h env cmd
    rw [KVService.applyCommand_fresh hd, if_neg Bool.false_ne_true]
    refine Prod.ext (KVSpec.ext (congrArg Prod.fst hexec) (ite_not _ _ _) rfl) ?_
    exact congrArg (fun r : CommitCmd => { r with revision := s.nextRevision cmd })
      (congrArg Prod.snd hexec)

/-- The specification sees nothing of what replicas may differ in. -/
theorem spec_of_agree (h : Agree s t) : s.spec = t.spec := by
  have hstore : s.ds.itemStore = t.ds.itemStore := by
    refine itemStore_eq (fun k => ?_) (fun id => ?_) h.leaseIDSeq
    · rw [lookup_items, h.data, h.keyLease]
    · rw [mem_live, h.mem_leases]
  rw [KVService.spec, KVService.spec, hstore, h.requests, h.revision]

/-! ## Logs -/

variable {codec : SnapshotCodec β} {log : List Command} {n : Nat}

theorem spec_handleCommand (h : LeaseInv s.ds) (env : Env) (cmd : Command) (index : Int) :
    (s.handleCommand codec env cmd index).1.spec = (s.spec.apply cmd).1 := by
  rw [spec_of_agree (handleCommand_agree codec env s cmd index), ← spec_applyCommand h env cmd]

theorem spec_replica (hs : (replicated codec).ReplicaAt log n s) :
    s.spec = .after (log.take n) := by
  induction hs with
  | init => exact KVSpec.ext rfl rfl rfl
  | @apply n s cmd env hs hcmd ih =>
    rw [List.take_add_one, hcmd, Option.toList_some, KVSpec.after_concat, ← ih]
    exact spec_handleCommand (leaseInv_replica hs) env cmd n
  | @restore n k s t data env _ _ hsave _ ih =>
    exact (spec_of_agree ((deterministic_replicated codec).restored env k s hsave)).trans ih

theorem result_replica (hs : (replicated codec).ReplicaAt log n s) (env : Env) (cmd : Command) :
    (s.handleCommand codec env cmd n).2.cmd = ((KVSpec.after (log.take n)).apply cmd).2 := by
  rw [KVService.handleCommand_cmd, ← spec_replica hs,
    ← spec_applyCommand (leaseInv_replica hs) env cmd]

end SpecRefinementLemmas

open SpecRefinementLemmas

/-! ## Main result -/

/-- Every replica of a log, whatever its clocks and iteration orders and however many
snapshots it has restored, is in the state of the specification after the entries it has
come past, and gives the specification's result for the next one. -/
theorem replica_refines_spec {β : Type} (codec : SnapshotCodec β) {log : List Command} {n : Nat}
    {s : KVService} (hs : (replicated codec).ReplicaAt log n s) :
    s.spec = .after (log.take n) ∧
    ∀ env cmd,
      (s.handleCommand codec env cmd n).2.cmd = ((KVSpec.after (log.take n)).apply cmd).2 :=
  ⟨spec_replica hs, result_replica hs⟩

/-- The two replicas of `leasedLog` store different expiry times; for the specification
they are one. -/
theorem replica_refines_spec_leased :
    applyingReplica.ds.leases ≠ restoringReplica.ds.leases ∧
    applyingReplica.spec = .after leasedLog ∧ restoringReplica.spec = .after leasedLog := by
  exact ⟨by decide, (replica_refines_spec .plain replicaAt_applyingReplica).1,
    (replica_refines_spec .plain replicaAt_restoringReplica).1⟩

end Zodiac
