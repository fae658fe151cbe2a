import Zodiac.Lib.GoMap
import Zodiac.Api

/-!
# The data store

`kvservice/datastore.go`: the key-value map, the leases, and the two-way link
between keys and leases. Every exported method runs under the store's mutex, so
each is one pure function from the store before to the store after, with its
results. A clock reading and a map iteration order are arguments of the methods
that use them.
-/

namespace Zodiac

/-- A point in time, in nanoseconds. -/
abbrev Time := Int

/-- `time.Duration(ttl) * time.Second`: a 64-bit multiplication that wraps. -/
def durationOfSeconds (ttl : Int) : Int := (ttl * 1000000000).bmod (2 ^ 64)

/-- `Lease`. The key set `map[string]struct{}` is a finite set. -/
structure Lease where
  id : Int
  ttl : Int
  expiresAt : Time
  keys : Finset String
deriving DecidableEq

/-- `DataStore`, with the leases that the Go map points to stored in the map. -/
structure DataStore where
  data : GoMap String String
  leases : GoMap Int Lease
  keyLease : GoMap String Int
  leaseIDSeq : Int
deriving DecidableEq

/-- `leaseSnapshot`: a lease whose key set has been listed. -/
structure LeaseSnapshot where
  id : Int
  ttl : Int
  expiresAt : Time
  keys : List String
deriving DecidableEq

namespace DataStore

/-- `NewDataStore`. -/
def new : DataStore := { data := ∅, leases := ∅, keyLease := ∅, leaseIDSeq := 0 }

/-- `Get`. -/
def get (ds : DataStore) (key : String) : String × Bool := ds.data.read "" key

/-! ## Keys and leases -/

/-- `detachKeyFromLease`. -/
def detachKeyFromLease (ds : DataStore) (key : String) : DataStore :=
  match ds.keyLease.lookup key with
  | none => ds
  | some oldLeaseID =>
    { ds with
      keyLease := ds.keyLease.erase key
      leases := match ds.leases.lookup oldLeaseID with
        | some l => ds.leases.insert oldLeaseID { l with keys := l.keys.erase key }
        | none => ds.leases }

/-- `attachKeyToLease`. A lease that is not live attaches nothing. -/
def attachKeyToLease (ds : DataStore) (key : String) (leaseID : Int) : DataStore :=
  let ds := ds.detachKeyFromLease key
  match ds.leases.lookup leaseID with
  | none => ds
  | some l =>
    { ds with
      leases := ds.leases.insert leaseID { l with keys := insert key l.keys }
      keyLease := ds.keyLease.insert key leaseID }

/-! ## Writes -/

/-- `putLocked`, the body of `Put`. -/
def putLocked (ds : DataStore) (key value : String) (leaseID : Int) :
    DataStore × String × Bool :=
  let ds := ds.detachKeyFromLease key
  let prev := ds.data.read "" key
  let ds := { ds with data := ds.data.insert key value }
  (if leaseID ≠ 0 then ds.attachKeyToLease key leaseID else ds, prev)

/-- `Put`. -/
def put (ds : DataStore) (key value : String) (leaseID : Int) : DataStore × String × Bool :=
  ds.putLocked key value leaseID

/-- `appendLocked`, the body of `Append`. A missing key reads as `""`. -/
def appendLocked (ds : DataStore) (key value : String) : DataStore × String × Bool :=
  let prev := ds.data.read "" key
  ({ ds with data := ds.data.insert key (prev.1 ++ value) }, prev)

/-- `Append`. -/
def append (ds : DataStore) (key value : String) : DataStore × String × Bool :=
  ds.appendLocked key value

/-- `casLocked`, the body of `CAS`. -/
def casLocked (ds : DataStore) (key compare value : String) : DataStore × String × Bool :=
  let prev := ds.data.read "" key
  (if prev.2 = true ∧ prev.1 = compare then { ds with data := ds.data.insert key value } else ds,
    prev)

/-- `CAS`. -/
def cas (ds : DataStore) (key compare value : String) : DataStore × String × Bool :=
  ds.casLocked key compare value

/-- `deleteLocked`, the body of `Delete`. -/
def deleteLocked (ds : DataStore) (key : String) : DataStore × String × Bool :=
  let ds := ds.detachKeyFromLease key
  let prev := ds.data.read "" key
  ({ ds with data := ds.data.erase key }, prev)

/-- `Delete`. -/
def delete (ds : DataStore) (key : String) : DataStore × String × Bool := ds.deleteLocked key

/-! ## Listing -/

/-- `List`. -/
def list (ds : DataStore) (pre : String) : GoMap String String :=
  ds.data.filterKeys fun k => hasPrefix k pre

/-- The copy loop of `ListPaged` over the sorted keys: the `i`-th key is the
next page's cursor once `limit` keys have been copied. -/
def listPage (ds : DataStore) (limit : Int) :
    List String → Int → GoMap String String → GoMap String String × String
  | [], _, result => (result, "")
  | k :: ks, i, result =>
    if limit > 0 ∧ i ≥ limit then (result, k)
    else listPage ds limit ks (i + 1) (result.insert k (ds.data.read "" k).1)

/-- `ListPaged`. -/
def listPaged (ds : DataStore) (pre : String) (limit : Int) (keyAfter : String) :
    GoMap String String × String :=
  let keys := (ds.data.filterKeys fun k => hasPrefix k pre && decide (keyAfter ≤ k)).keys
  ds.listPage limit (RangeOrder.ascending.keys keys) 0 ∅

/-! ## Transactions -/

/-- The threshold test of `CompareGTE` and `CompareLTE`: numeric when both
sides parse as 64-bit integers, lexicographic otherwise. -/
def compareThreshold (v c : String) (num : Int → Int → Bool) (str : String → String → Bool) :
    Bool :=
  match parseInt v, parseInt c with
  | (vi, none), (ci, none) => num vi ci
  | _, _ => str v c

/-- `evalCondition`. -/
def evalCondition (ds : DataStore) (c : TxnCondition) : Bool :=
  let r := ds.data.read "" c.key
  match c.compare with
  | .eq => r.2 && r.1 == c.value
  | .neq => !r.2 || r.1 != c.value
  | .gte =>
    r.2 && compareThreshold r.1 c.value (fun a b => decide (b ≤ a)) (fun a b => decide (b ≤ a))
  | .lte =>
    r.2 && compareThreshold r.1 c.value (fun a b => decide (a ≤ b)) (fun a b => decide (a ≤ b))
  | .exists => r.2
  | .notExists => !r.2
  | .unknown _ => false

/-- One operation of a transaction branch. A code the store has no case for
changes nothing and reports only its key. -/
def txnOp (ds : DataStore) (op : TxnOp) : DataStore × TxnOpResult :=
  let report (r : DataStore × String × Bool) : DataStore × TxnOpResult :=
    (r.1, { key := op.key, prevValue := r.2.1, keyFound := r.2.2 })
  match op.op with
  | .put => report (ds.putLocked op.key op.value op.leaseID)
  | .delete => report (ds.deleteLocked op.key)
  | .cas => report (ds.casLocked op.key op.compareValue op.value)
  | .append => report (ds.appendLocked op.key op.value)
  | .unknown _ => (ds, { key := op.key })

/-- The loop of `Txn` over the selected branch. -/
def txnOps : DataStore → List TxnOp → DataStore × List TxnOpResult
  | ds, [] => (ds, [])
  | ds, op :: ops =>
    let r := ds.txnOp op
    let rest := txnOps r.1 ops
    (rest.1, r.2 :: rest.2)

/-- `Txn`: the new store, whether all conditions held, and the results. -/
def txn (ds : DataStore) (conds : List TxnCondition) (success failure : List TxnOp) :
    DataStore × Bool × List TxnOpResult :=
  let allMet := conds.all ds.evalCondition
  let r := ds.txnOps (if allMet then success else failure)
  (r.1, allMet, r.2)

/-! ## Leases -/

/-- `GrantLease`. -/
def grantLease (ds : DataStore) (now : Time) (ttl : Int) : DataStore × Int :=
  let id := ds.leaseIDSeq + 1
  ({ ds with
      leaseIDSeq := id
      leases := ds.leases.insert id
        { id := id, ttl := ttl, expiresAt := now + durationOfSeconds ttl, keys := ∅ } }, id)

/-- `KeepAliveLease`. -/
def keepAliveLease (ds : DataStore) (now : Time) (id : Int) : DataStore × Bool :=
  match ds.leases.lookup id with
  | none => (ds, false)
  | some l =>
    ({ ds with
        leases := ds.leases.insert id { l with expiresAt := now + durationOfSeconds l.ttl } }, true)

/-- `RevokeLease`: the lease goes, with every key attached to it. -/
def revokeLease (ds : DataStore) (order : RangeOrder String) (id : Int) :
    DataStore × List String :=
  match ds.leases.lookup id with
  | none => (ds, [])
  | some l =>
    let keys := order.keys l.keys
    ({ ds with
        leases := ds.leases.erase id
        data := ds.data.eraseAll keys
        keyLease := ds.keyLease.eraseAll keys }, keys)

/-- `CheckExpiredLeases`: the ids in the order of the loop over the leases. -/
def checkExpiredLeases (ds : DataStore) (now : Time) (order : RangeOrder Int) : List Int :=
  (order.keys ds.leases.keys).filter fun id =>
    match ds.leases.lookup id with
    | some l => decide (l.expiresAt < now)
    | none => false

/-! ## Snapshots -/

/-- `CopyAll`. -/
def copyAll (ds : DataStore) : GoMap String String := ds.data

/-- `RestoreAll`. -/
def restoreAll (ds : DataStore) (data : GoMap String String) : DataStore := { ds with data := data }

/-- `GetLeaseSnapshot`: the leases with their keys listed, the key-to-lease map
and the id counter. The key loops run once per lease. -/
def getLeaseSnapshot (ds : DataStore) (order : Int → RangeOrder String) :
    GoMap Int LeaseSnapshot × GoMap String Int × Int :=
  (ds.leases.mapVal fun id l =>
      { id := l.id, ttl := l.ttl, expiresAt := l.expiresAt, keys := (order id).keys l.keys },
    ds.keyLease, ds.leaseIDSeq)

/-- `RestoreFromLeaseSnapshot`. -/
def restoreFromLeaseSnapshot (ds : DataStore) (ls : GoMap Int LeaseSnapshot)
    (kl : GoMap String Int) (nextID : Int) : DataStore :=
  { ds with
    leases := ls.mapVal fun _ s =>
      { id := s.id, ttl := s.ttl, expiresAt := s.expiresAt, keys := s.keys.toFinset }
    keyLease := kl
    leaseIDSeq := nextID }

/-! ## Lookups after attaching and detaching -/

section Lookups

variable (ds : DataStore) (key : String)

@[simp] theorem detachKeyFromLease_data : (ds.detachKeyFromLease key).data = ds.data := by
  unfold detachKeyFromLease
  split <;> rfl

@[simp] theorem detachKeyFromLease_leaseIDSeq :
    (ds.detachKeyFromLease key).leaseIDSeq = ds.leaseIDSeq := by
  unfold detachKeyFromLease
  split <;> rfl

theorem detachKeyFromLease_keyLease (k : String) :
    (ds.detachKeyFromLease key).keyLease.lookup k =
      if k = key then none else ds.keyLease.lookup k := by
  unfold detachKeyFromLease
  split
  · next h =>
    split
    · next hk => rw [hk, h]
    · rfl
  · exact Finmap.lookup_erase_ite _ _ _

/-- Detaching touches one lease, the one the key was attached to. -/
theorem detachKeyFromLease_leases (id : Int) :
    (ds.detachKeyFromLease key).leases.lookup id =
      if ds.keyLease.lookup key = some id then
        (ds.leases.lookup id).map fun l => { l with keys := l.keys.erase key }
      else ds.leases.lookup id := by
  unfold detachKeyFromLease
  cases hkl : ds.keyLease.lookup key with
  | none => simp
  | some old =>
    by_cases hid : old = id
    · subst hid
      cases hl : ds.leases.lookup old <;> simp [hl]
    · have hne : ¬ id = old := fun h => hid h.symm
      cases hl : ds.leases.lookup old <;> simp [hl, hid, hne]

@[simp] theorem attachKeyToLease_data (id : Int) :
    (ds.attachKeyToLease key id).data = ds.data := by
  unfold attachKeyToLease
  dsimp only
  split <;> simp

theorem putLocked_data (value : String) (id : Int) :
    (ds.putLocked key value id).1.data = ds.data.insert key value := by
  unfold putLocked
  dsimp only
  split <;> simp

theorem deleteLocked_data : (ds.deleteLocked key).1.data = ds.data.erase key := by
  simp [deleteLocked]

theorem mem_detachKeyFromLease_leases (id : Int) :
    id ∈ (ds.detachKeyFromLease key).leases ↔ id ∈ ds.leases := by
  rw [← Finmap.lookup_isSome, ← Finmap.lookup_isSome, detachKeyFromLease_leases]
  split
  · rw [Option.isSome_map]
  · rfl

theorem attachKeyToLease_keyLease (id : Int) (k : String) :
    (ds.attachKeyToLease key id).keyLease.lookup k =
      if k = key then (if id ∈ ds.leases then some id else none) else ds.keyLease.lookup k := by
  have hlive := mem_detachKeyFromLease_leases ds key id
  rw [← Finmap.lookup_isSome] at hlive
  unfold attachKeyToLease
  dsimp only
  split
  · next h =>
    have hdead : id ∉ ds.leases := fun hc => by simpa [h] using hlive.mpr hc
    rw [detachKeyFromLease_keyLease, if_neg hdead]
  · next l h =>
    have hmem : id ∈ ds.leases := hlive.mp (by rw [h]; rfl)
    rw [Finmap.lookup_insert_ite, detachKeyFromLease_keyLease, if_pos hmem]
    split
    · rfl
    · rfl

/-- A put attaches its key to the lease it names, if that is live, and frees it
otherwise. -/
theorem putLocked_keyLease (value : String) (id : Int) (k : String) :
    (ds.putLocked key value id).1.keyLease.lookup k =
      if k = key then (if id ≠ 0 ∧ id ∈ ds.leases then some id else none)
      else ds.keyLease.lookup k := by
  unfold putLocked
  dsimp only
  split
  · next hid =>
    rw [attachKeyToLease_keyLease, detachKeyFromLease_keyLease]
    simp only [mem_detachKeyFromLease_leases, hid, ne_eq, not_false_eq_true, true_and]
    split
    · rfl
    · rfl
  · next hid =>
    rw [detachKeyFromLease_keyLease]
    simp [hid]

end Lookups

/-! ## Restoring a snapshot -/

/-- Listing a key set and collecting the list gives the set back, in any order. -/
theorem toFinset_keys (order : RangeOrder String) (s : Finset String) :
    (order.keys s).toFinset = s := by
  ext k
  rw [List.mem_toFinset, order.mem_keys]

/-- A store restored from the copies that another store made is that store,
whatever it held before and in whatever order the key sets were listed. -/
theorem restore_copies (base ds : DataStore) (order : Int → RangeOrder String) :
    (base.restoreAll ds.copyAll).restoreFromLeaseSnapshot (ds.getLeaseSnapshot order).1
      (ds.getLeaseSnapshot order).2.1 (ds.getLeaseSnapshot order).2.2 = ds := by
  have hleases : ((ds.getLeaseSnapshot order).1.mapVal fun _ s =>
      ({ id := s.id, ttl := s.ttl, expiresAt := s.expiresAt, keys := s.keys.toFinset } : Lease)) =
      ds.leases := by
    apply Finmap.ext_lookup
    intro id
    simp only [getLeaseSnapshot, Finmap.lookup_mapVal, Option.map_map]
    cases ds.leases.lookup id with
    | none => rfl
    | some l => simp [toFinset_keys]
  unfold restoreFromLeaseSnapshot
  rw [hleases]
  rfl

/-! ## The moves of the writes -/

/-- One move of a write: a key leaves its lease, a value is set, a key without a
lease leaves the data, or a key without a lease is linked to a live one, on both
sides. -/
inductive Move : DataStore → DataStore → Prop
  | detach (ds : DataStore) (key : String) : Move ds (ds.detachKeyFromLease key)
  | setData (ds : DataStore) (key value : String) :
      Move ds { ds with data := ds.data.insert key value }
  | eraseData {ds : DataStore} {key : String} :
      ds.keyLease.lookup key = none → Move ds { ds with data := ds.data.erase key }
  | link {ds : DataStore} {key v : String} {id : Int} {l : Lease} :
      ds.keyLease.lookup key = none → ds.data.lookup key = some v →
      ds.leases.lookup id = some l →
      Move ds { ds with
        leases := ds.leases.insert id { l with keys := insert key l.keys }
        keyLease := ds.keyLease.insert key id }

/-- Any number of moves. Each write of the store is `Moves` from the store before
it, so a relation that each move keeps holds across the writes. -/
abbrev Moves : DataStore → DataStore → Prop := Relation.ReflTransGen Move

namespace Moves

theorem attach {ds : DataStore} {key v : String} (hdata : ds.data.lookup key = some v) (id : Int) :
    Moves ds (ds.attachKeyToLease key id) := by
  have hdetach : Moves ds (ds.detachKeyFromLease key) := .single (.detach ds key)
  unfold attachKeyToLease
  dsimp only
  split
  · exact hdetach
  · next l hl =>
    refine hdetach.tail (.link (v := v) ?_ ?_ hl)
    · rw [detachKeyFromLease_keyLease, if_pos rfl]
    · rw [detachKeyFromLease_data]
      exact hdata

theorem put (ds : DataStore) (key value : String) (id : Int) :
    Moves ds (ds.putLocked key value id).1 := by
  have hdetach : Moves ds (ds.detachKeyFromLease key) := .single (.detach ds key)
  have hset := hdetach.tail (.setData _ key value)
  unfold putLocked
  dsimp only
  split
  · exact hset.trans (attach (Finmap.lookup_insert _) id)
  · exact hset

theorem append (ds : DataStore) (key value : String) : Moves ds (ds.appendLocked key value).1 :=
  .single (.setData ds key _)

theorem cas (ds : DataStore) (key compare value : String) :
    Moves ds (ds.casLocked key compare value).1 := by
  unfold casLocked
  dsimp only
  split
  · exact .single (.setData ds key value)
  · exact .refl

theorem delete (ds : DataStore) (key : String) : Moves ds (ds.deleteLocked key).1 := by
  have hfree : (ds.detachKeyFromLease key).keyLease.lookup key = none := by
    rw [detachKeyFromLease_keyLease, if_pos rfl]
  exact .tail (.single (.detach ds key)) (.eraseData hfree)

theorem txnOp (ds : DataStore) (op : TxnOp) : Moves ds (ds.txnOp op).1 := by
  unfold DataStore.txnOp
  cases op.op with
  | put => exact put ds _ _ _
  | delete => exact delete ds _
  | cas => exact cas ds _ _ _
  | append => exact append ds _ _
  | unknown _ => exact .refl

theorem txnOps {ops : List TxnOp} : ∀ ds : DataStore, Moves ds (ds.txnOps ops).1 := by
  induction ops with
  | nil => exact fun _ => .refl
  | cons op ops ih => exact fun ds => (txnOp ds op).trans (ih _)

end Moves

end DataStore

end Zodiac
