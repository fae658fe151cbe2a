import Zodiac.DataStore

/-!
# The lease and data representation invariant

Three maps of the store describe one relation. `keyLease` sends a key to its
lease, each lease has its key set, and both only make sense for keys that are
in `data`. `LeaseInv` says that they agree.

* `LeaseInv.move`, `LeaseInv.moves`: the four moves that every write of the store
  is made of keep the invariant, and so do the writes.
* `LeaseInv.grantLease`, `LeaseInv.keepAliveLease`, `LeaseInv.revokeLease`: so do
  the operations on leases.
* `leaseInv_run`: the invariant holds after any sequence of operations from
  the empty store, with snapshots taken and restored along the way.
-/

namespace Zodiac

/-- The three maps are consistent.

* `attached`: the forward and the backward map describe the same relation.
* `present`: only keys in the data are attached.
* `stored`: a lease is stored under its own id, which the counter has issued. -/
structure LeaseInv (ds : DataStore) : Prop where
  attached : ∀ k id, ds.keyLease.lookup k = some id ↔
    ∃ l, ds.leases.lookup id = some l ∧ k ∈ l.keys
  present : ∀ k id, ds.keyLease.lookup k = some id → ∃ v, ds.data.lookup k = some v
  stored : ∀ id l, ds.leases.lookup id = some l → l.id = id ∧ 1 ≤ id ∧ id ≤ ds.leaseIDSeq
  seq : 0 ≤ ds.leaseIDSeq

/-! ## Runs of store operations -/

/-- The operations of the store. `snapshot` saves the copies that `encodeSnapshot` takes, and
`restore n` restores the `n`-th saved copies. `RestoreFromLeaseSnapshot` keeps the map of keys
that it is given. Its caller gives it one that it has just decoded (`restore_handleSnapshot`),
so the saved copies are not written to. -/
inductive StoreOp
  | put (key value : String) (leaseID : Int)
  | append (key value : String)
  | cas (key compare value : String)
  | delete (key : String)
  | txn (conds : List TxnCondition) (success failure : List TxnOp)
  | grantLease (now : Time) (ttl : Int)
  | keepAliveLease (now : Time) (id : Int)
  | revokeLease (order : RangeOrder String) (id : Int)
  | snapshot (order : Int → RangeOrder String)
  | restore (n : Nat)

/-- The copies that `CopyAll` and `GetLeaseSnapshot` return. -/
structure StoreCopy where
  data : GoMap String String
  leases : GoMap Int LeaseSnapshot
  keyLease : GoMap String Int
  nextID : Int

/-- A store and the copies saved so far. -/
structure StoreRun where
  ds : DataStore
  saved : List StoreCopy

namespace StoreRun

/-- A new store with nothing saved. -/
def new : StoreRun := { ds := .new, saved := [] }

/-- One operation. -/
def step (r : StoreRun) : StoreOp → StoreRun
  | .put key value leaseID => { r with ds := (r.ds.putLocked key value leaseID).1 }
  | .append key value => { r with ds := (r.ds.appendLocked key value).1 }
  | .cas key compare value => { r with ds := (r.ds.casLocked key compare value).1 }
  | .delete key => { r with ds := (r.ds.deleteLocked key).1 }
  | .txn conds success failure => { r with ds := (r.ds.txn conds success failure).1 }
  | .grantLease now ttl => { r with ds := (r.ds.grantLease now ttl).1 }
  | .keepAliveLease now id => { r with ds := (r.ds.keepAliveLease now id).1 }
  | .revokeLease order id => { r with ds := (r.ds.revokeLease order id).1 }
  | .snapshot order =>
    let ls := r.ds.getLeaseSnapshot order
    { r with saved := r.saved ++
        [{ data := r.ds.copyAll, leases := ls.1, keyLease := ls.2.1, nextID := ls.2.2 }] }
  | .restore n =>
    match r.saved[n]? with
    | none => r
    | some c =>
      { r with ds := (r.ds.restoreAll c.data).restoreFromLeaseSnapshot c.leases c.keyLease c.nextID }

/-- A sequence of operations. -/
def run (ops : List StoreOp) : StoreRun := ops.foldl step new

end StoreRun

/-! ## The four moves -/

namespace LeaseInv

variable {ds : DataStore}

theorem new : LeaseInv .new where
  attached k id := by simp [DataStore.new]
  present k id h := by simp [DataStore.new] at h
  stored id l h := by simp [DataStore.new] at h
  seq := by simp [DataStore.new]

/-- A key sits in the key set of at most one lease. -/
theorem lease_unique (h : LeaseInv ds) {k : String} {id id' : Int} {l l' : Lease}
    (hl : ds.leases.lookup id = some l) (hk : k ∈ l.keys)
    (hl' : ds.leases.lookup id' = some l') (hk' : k ∈ l'.keys) : id = id' := by
  have h1 := (h.attached k id).mpr ⟨l, hl, hk⟩
  have h2 := (h.attached k id').mpr ⟨l', hl', hk'⟩
  rw [h1] at h2
  exact Option.some.inj h2

theorem detach (h : LeaseInv ds) (key : String) : LeaseInv (ds.detachKeyFromLease key) where
  attached k id := by
    rw [DataStore.detachKeyFromLease_keyLease, DataStore.detachKeyFromLease_leases]
    by_cases hk : k = key
    · -- the detached key is in no key set: its one lease has dropped it
      subst hk
      simp only [if_true]
      refine ⟨fun hc => absurd hc (Option.some_ne_none id).symm, ?_⟩
      rintro ⟨l, hl, hmem⟩
      split at hl
      · obtain ⟨l', _, rfl⟩ := Option.map_eq_some_iff.mp hl
        simp at hmem
      · next hne => exact absurd ((h.attached k id).mpr ⟨l, hl, hmem⟩) hne
    · simp only [hk, if_false]
      rw [h.attached k id]
      split
      · constructor
        · rintro ⟨l, hl, hmem⟩
          exact ⟨_, by rw [hl]; rfl, Finset.mem_erase.mpr ⟨hk, hmem⟩⟩
        · rintro ⟨l, hl, hmem⟩
          obtain ⟨l', hl', rfl⟩ := Option.map_eq_some_iff.mp hl
          exact ⟨l', hl', (Finset.mem_erase.mp hmem).2⟩
      · rfl
  present k id hk := by
    rw [DataStore.detachKeyFromLease_keyLease] at hk
    split at hk
    · exact nomatch hk
    · rw [DataStore.detachKeyFromLease_data]
      exact h.present k id hk
  stored id l hl := by
    rw [DataStore.detachKeyFromLease_leases] at hl
    rw [DataStore.detachKeyFromLease_leaseIDSeq]
    split at hl
    · obtain ⟨l', hl', rfl⟩ := Option.map_eq_some_iff.mp hl
      exact h.stored id l' hl'
    · exact h.stored id l hl
  seq := by
    rw [DataStore.detachKeyFromLease_leaseIDSeq]
    exact h.seq

theorem setData (h : LeaseInv ds) (key value : String) :
    LeaseInv { ds with data := ds.data.insert key value } where
  attached := h.attached
  present k id hk := by
    rw [Finmap.lookup_insert_ite]
    split
    · exact ⟨value, rfl⟩
    · exact h.present k id hk
  stored := h.stored
  seq := h.seq

theorem eraseData (h : LeaseInv ds) {key : String} (hfree : ds.keyLease.lookup key = none) :
    LeaseInv { ds with data := ds.data.erase key } where
  attached := h.attached
  present k id hk := by
    rw [Finmap.lookup_erase_ite]
    split
    · next he => rw [he, hfree] at hk; exact nomatch hk
    · exact h.present k id hk
  stored := h.stored
  seq := h.seq

/-- Linking a free key to a live lease, on both sides. -/
theorem link (h : LeaseInv ds) {key v : String} {id : Int} {l : Lease}
    (hfree : ds.keyLease.lookup key = none) (hdata : ds.data.lookup key = some v)
    (hl : ds.leases.lookup id = some l) :
    LeaseInv { ds with
      leases := ds.leases.insert id { l with keys := insert key l.keys }
      keyLease := ds.keyLease.insert key id } where
  attached k id' := by
    simp only [Finmap.lookup_insert_ite]
    by_cases hk : k = key
    · subst hk
      -- no lease other than `id` can hold a key that was free
      have hnone : ∀ l', ds.leases.lookup id' = some l' → k ∉ l'.keys := by
        intro l' hl' hm
        have hc := (h.attached k id').mpr ⟨l', hl', hm⟩
        rw [hfree] at hc
        exact nomatch hc
      by_cases hid : id' = id
      · subst hid; simp
      · have hne : ¬ id = id' := fun hc => hid hc.symm
        simp only [if_true, hid, if_false, Option.some.injEq, hne, false_iff]
        rintro ⟨l', hl', hm⟩
        exact hnone l' hl' hm
    · simp only [hk, if_false]
      rw [h.attached k id']
      by_cases hid : id' = id
      · subst hid
        simp [hl, hk]
      · simp [hid]
  present k id' hk := by
    rw [Finmap.lookup_insert_ite] at hk
    split at hk
    · next he => exact ⟨v, by rw [he]; exact hdata⟩
    · exact h.present k id' hk
  stored id' l' hl' := by
    rw [Finmap.lookup_insert_ite] at hl'
    split at hl'
    · next he =>
      cases hl'
      subst he
      exact h.stored id' l hl
    · exact h.stored id' l' hl'
  seq := h.seq

theorem move {ds' : DataStore} (h : LeaseInv ds) (hmove : ds.Move ds') : LeaseInv ds' := by
  cases hmove with
  | detach key => exact h.detach key
  | setData key value => exact h.setData key value
  | eraseData hfree => exact h.eraseData hfree
  | link hfree hdata hl => exact h.link hfree hdata hl

theorem moves {ds' : DataStore} (h : LeaseInv ds) (hmoves : ds.Moves ds') : LeaseInv ds' := by
  induction hmoves with
  | refl => exact h
  | tail _ hmove ih => exact ih.move hmove

/-! ## The operations on leases -/

theorem grantLease (h : LeaseInv ds) (now : Time) (ttl : Int) :
    LeaseInv (ds.grantLease now ttl).1 := by
  -- the new id is above the counter, so no live lease has it
  have hfresh : ds.leases.lookup (ds.leaseIDSeq + 1) = none := by
    cases hl : ds.leases.lookup (ds.leaseIDSeq + 1) with
    | none => rfl
    | some l =>
      have := (h.stored _ l hl).2.2
      omega
  refine ⟨?_, h.present, ?_, ?_⟩
  · intro k id
    simp only [DataStore.grantLease, Finmap.lookup_insert_ite]
    rw [h.attached k id]
    split
    · next he => subst he; simp [hfresh]
    · rfl
  · intro id l hl
    simp only [DataStore.grantLease, Finmap.lookup_insert_ite] at hl ⊢
    have hseq := h.seq
    split at hl
    · next he => cases hl; exact ⟨he.symm, by omega, by omega⟩
    · obtain ⟨h1, h2, h3⟩ := h.stored id l hl
      exact ⟨h1, h2, by omega⟩
  · have hseq := h.seq
    simp only [DataStore.grantLease]
    omega

theorem keepAliveLease (h : LeaseInv ds) (now : Time) (id : Int) :
    LeaseInv (ds.keepAliveLease now id).1 := by
  unfold DataStore.keepAliveLease
  split
  · exact h
  · next l hl =>
    refine ⟨?_, h.present, ?_, h.seq⟩
    · intro k id'
      simp only [Finmap.lookup_insert_ite]
      rw [h.attached k id']
      split
      · next he => subst he; simp [hl]
      · rfl
    · intro id' l' hl'
      simp only [Finmap.lookup_insert_ite] at hl'
      split at hl'
      · next he => cases hl'; subst he; exact h.stored id' l hl
      · exact h.stored id' l' hl'

theorem revokeLease (h : LeaseInv ds) (order : RangeOrder String) (id : Int) :
    LeaseInv (ds.revokeLease order id).1 := by
  unfold DataStore.revokeLease
  split
  · exact h
  · next l hl =>
    -- the keys of the lease are exactly the keys that `keyLease` sends to it
    have hkey : ∀ k, k ∈ order.keys l.keys ↔ ds.keyLease.lookup k = some id := by
      intro k
      rw [order.mem_keys, h.attached k id]
      simp [hl]
    refine ⟨?_, ?_, ?_, h.seq⟩
    · intro k id'
      simp only [Finmap.lookup_eraseAll, Finmap.lookup_erase_ite]
      by_cases hid : id' = id
      · subst hid
        by_cases hm : k ∈ order.keys l.keys
        · simp [hm]
        · simp [hm, mt (hkey k).mpr hm]
      · simp only [hid, if_false]
        rw [← h.attached k id']
        split
        · next hm =>
          have hne : ¬ id = id' := fun hc => hid hc.symm
          simp [(hkey k).mp hm, hne]
        · rfl
    · intro k id' hk
      simp only [Finmap.lookup_eraseAll] at hk ⊢
      split at hk
      · exact nomatch hk
      · next hm =>
        rw [if_neg hm]
        exact h.present k id' hk
    · intro id' l' hl'
      simp only [Finmap.lookup_erase_ite] at hl'
      split at hl'
      · exact nomatch hl'
      · exact h.stored id' l' hl'

end LeaseInv

/-! ## Whole runs -/

/-- The invariant of a run: the store is consistent, and each saved copy was
taken from a consistent store. -/
structure StoreRun.Consistent (r : StoreRun) : Prop where
  store : LeaseInv r.ds
  saved : ∀ c ∈ r.saved, ∃ ds order, LeaseInv ds ∧ c.data = ds.copyAll ∧
    (c.leases, c.keyLease, c.nextID) = ds.getLeaseSnapshot order

theorem StoreRun.Consistent.step {r : StoreRun} (h : r.Consistent) (op : StoreOp) :
    (r.step op).Consistent := by
  cases op with
  | put => exact ⟨h.store.moves (.put _ _ _ _), h.saved⟩
  | append => exact ⟨h.store.moves (.append _ _ _), h.saved⟩
  | cas => exact ⟨h.store.moves (.cas _ _ _ _), h.saved⟩
  | delete => exact ⟨h.store.moves (.delete _ _), h.saved⟩
  | txn => exact ⟨h.store.moves (.txnOps _), h.saved⟩
  | grantLease => exact ⟨h.store.grantLease _ _, h.saved⟩
  | keepAliveLease => exact ⟨h.store.keepAliveLease _ _, h.saved⟩
  | revokeLease => exact ⟨h.store.revokeLease _ _, h.saved⟩
  | snapshot order =>
    refine ⟨h.store, fun c hc => ?_⟩
    rcases List.mem_append.mp hc with hc | hc
    · exact h.saved c hc
    · rw [List.mem_singleton] at hc
      subst hc
      exact ⟨r.ds, order, h.store, rfl, rfl⟩
  | restore n =>
    simp only [StoreRun.step]
    split
    · exact h
    · next c hc =>
      refine ⟨?_, h.saved⟩
      obtain ⟨ds, order, hds, hdata, hls⟩ := h.saved c (List.mem_of_getElem? hc)
      have hrest := DataStore.restore_copies r.ds ds order
      rw [← hls, ← hdata] at hrest
      rw [hrest]
      exact hds

theorem StoreRun.consistent_run (ops : List StoreOp) : (StoreRun.run ops).Consistent := by
  suffices h : ∀ r : StoreRun, r.Consistent → (ops.foldl StoreRun.step r).Consistent from
    h .new ⟨.new, fun c hc => absurd hc List.not_mem_nil⟩
  induction ops with
  | nil => exact fun _ h => h
  | cons op ops ih => exact fun r h => ih (r.step op) (h.step op)

/-- In every state that a sequence of operations reaches from the empty store,
the forward and backward maps describe the same relation, so that a key is in
the key set of at most one lease; every attached key is in the data; and every
live lease is stored under its own id, which lies between `1` and the counter. -/
theorem leaseInv_run (ops : List StoreOp) :
    LeaseInv (StoreRun.run ops).ds ∧
    ∀ k id id' l l', (StoreRun.run ops).ds.leases.lookup id = some l → k ∈ l.keys →
      (StoreRun.run ops).ds.leases.lookup id' = some l' → k ∈ l'.keys → id = id' := by
  have h := (StoreRun.consistent_run ops).store
  exact ⟨h, fun _ _ _ _ _ hl hk hl' hk' => h.lease_unique hl hk hl' hk'⟩

end Zodiac
