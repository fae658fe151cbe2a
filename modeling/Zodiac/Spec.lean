import Zodiac.Lib.Paging
import Zodiac.Service

/-!
# What the service is for

The service seen from outside: one map of items, each with a value and at most one
lease, the set of live leases, and a version number. There is no clock, no second map
from leases to keys and no order of iteration. `SpecRefinement` shows that this is what
`handleCommand` computes.

* `ItemStore`: the store, with `put`, `append`, `cas`, `delete`, `page`, `holds` and
  `release`.
* `KVSpec.apply`: one command, for a client that may repeat its requests.
* `KVSpec.after`: a log of commands.
-/

namespace Zodiac

/-! ## The store -/

/-- A value, and the lease with which it goes. -/
structure Item where
  value : String
  lease : Option Int
deriving DecidableEq

/-- The items, the live leases, and the number of leases issued so far. -/
@[ext]
structure ItemStore where
  items : GoMap String Item
  live : Finset Int
  issued : Int
deriving DecidableEq

namespace ItemStore

/-- The empty store. -/
def new : ItemStore := { items := ∅, live := ∅, issued := 0 }

/-- The value of a key and whether there is one. -/
def get (st : ItemStore) (key : String) : String × Bool :=
  match st.items.lookup key with
  | some item => (item.value, true)
  | none => ("", false)

/-- The lease of a key. -/
def leaseOf (st : ItemStore) (key : String) : Option Int := (st.items.lookup key).bind Item.lease

/-- Give a key a value and a lease. -/
def set (st : ItemStore) (key value : String) (lease : Option Int) : ItemStore :=
  { st with items := st.items.insert key { value := value, lease := lease } }

/-- A put names a lease; a lease that is not live is none. -/
def put (st : ItemStore) (key value : String) (id : Int) : ItemStore :=
  st.set key value (if id ∈ st.live then some id else none)

/-- An append keeps the lease. -/
def append (st : ItemStore) (key value : String) : ItemStore :=
  st.set key ((st.get key).1 ++ value) (st.leaseOf key)

/-- A compare-and-swap keeps the lease. -/
def cas (st : ItemStore) (key compare value : String) : ItemStore :=
  if st.get key = (compare, true) then st.set key value (st.leaseOf key) else st

/-- Remove a key. -/
def delete (st : ItemStore) (key : String) : ItemStore :=
  { st with items := st.items.erase key }

/-! ## Reading -/

/-- The values of all keys. -/
def values (st : ItemStore) : GoMap String String := st.items.mapVal fun _ item => item.value

/-- The keys with a prefix. -/
def keysWith (st : ItemStore) (pre : String) : Finset String :=
  (st.values.filterKeys fun k => hasPrefix k pre).keys

/-- The values of the keys with a prefix: all of them, or a page with the next cursor. -/
def page (st : ItemStore) (pre : String) (limit : Int) (keyAfter : String) :
    GoMap String String × String :=
  if limit > 0 then
    let p := Paging.page limit.toNat "" (st.keysWith pre) keyAfter
    (st.values.filterKeys fun k => decide (k ∈ p.1), p.2)
  else (st.values.filterKeys fun k => hasPrefix k pre, "")

/-- The condition of a transaction holds. -/
def holds (st : ItemStore) (c : TxnCondition) : Bool :=
  match c.compare, st.values.lookup c.key with
  | .eq, v => v == some c.value
  | .neq, v => v != some c.value
  | .exists, v => v.isSome
  | .notExists, v => v.isNone
  | .gte, some v => DataStore.compareThreshold v c.value (· ≥ ·) (· ≥ ·)
  | .lte, some v => DataStore.compareThreshold v c.value (· ≤ ·) (· ≤ ·)
  | .gte, none | .lte, none | .unknown _, _ => false

/-! ## Transactions -/

/-- One operation of a transaction. -/
def txnOp (st : ItemStore) (op : TxnOp) : ItemStore :=
  match op.op with
  | .put => st.put op.key op.value op.leaseID
  | .delete => st.delete op.key
  | .cas => st.cas op.key op.compareValue op.value
  | .append => st.append op.key op.value
  | .unknown _ => st

/-- What an operation reports: its key with the value before. -/
def txnReport (st : ItemStore) (op : TxnOp) : TxnOpResult :=
  match op.op with
  | .unknown _ => { key := op.key }
  | _ => { key := op.key, prevValue := (st.get op.key).1, keyFound := (st.get op.key).2 }

/-- The operations of a branch, one after the other. -/
def txnOps : ItemStore → List TxnOp → ItemStore × List TxnOpResult
  | st, [] => (st, [])
  | st, op :: ops =>
    ((txnOps (st.txnOp op) ops).1, st.txnReport op :: (txnOps (st.txnOp op) ops).2)

/-! ## Leases -/

/-- The next lease. -/
def grant (st : ItemStore) : ItemStore :=
  { st with live := insert (st.issued + 1) st.live, issued := st.issued + 1 }

/-- The key has one of the leases. -/
def heldBy (st : ItemStore) (ids : List Int) (key : String) : Bool :=
  match st.leaseOf key with
  | some id => decide (id ∈ ids)
  | none => false

/-- The leases go, with all keys that have one of them. -/
def release (st : ItemStore) (ids : List Int) : ItemStore :=
  { st with
    items := st.items.filterKeys fun k => !st.heldBy ids k
    live := st.live \ ids.toFinset }

/-- The keys that go with the leases, as a result map. -/
def released (st : ItemStore) (ids : List Int) : GoMap String String :=
  (st.values.filterKeys (st.heldBy ids)).mapVal fun _ _ => ""

/-! ## Commands -/

/-- A command and its result. -/
def execute (st : ItemStore) (cmd : Command) : ItemStore × CommitCmd :=
  let found : CommitCmd :=
    { cmd with resultValue := (st.get cmd.key).1, resultFound := (st.get cmd.key).2 }
  match cmd.kind with
  | .get => (st, found)
  | .put => (st.put cmd.key cmd.value cmd.leaseID, found)
  | .append => (st.append cmd.key cmd.value, found)
  | .cas => (st.cas cmd.key cmd.compareValue cmd.value, found)
  | .list =>
    let p := st.page cmd.key cmd.limit cmd.keyAfter
    (st, { cmd with resultPairs := p.1, resultValue := p.2 })
  | .txn =>
    let succeeded := cmd.txn.conditions.all st.holds
    let r := st.txnOps (if succeeded then cmd.txn.success else cmd.txn.failure)
    (r.1, { cmd with txnResult := some { succeeded := succeeded, results := r.2 } })
  | .leaseGrant => (st.grant, { cmd with resultValue := formatInt (st.issued + 1) })
  | .leaseKeepAlive => (st, { cmd with resultFound := decide (cmd.leaseID ∈ st.live) })
  | .leaseRevoke =>
    (st.release [cmd.leaseID], { cmd with resultPairs := st.released [cmd.leaseID] })
  | .leaseExpiry =>
    (st.release cmd.leaseIDs, { cmd with resultPairs := st.released cmd.leaseIDs })

end ItemStore

/-! ## The service -/

/-- The store, the last request of each client, and the version. -/
@[ext]
structure KVSpec where
  store : ItemStore
  requests : GoMap Int Int
  revision : Int
deriving DecidableEq

namespace KVSpec

/-- A new service. -/
def new : KVSpec := { store := .new, requests := ∅, revision := 0 }

/-- A client with an id has made this request, or a later one. -/
def repeats (sp : KVSpec) (cmd : Command) : Bool :=
  decide (cmd.clientID ≠ 0) && (sp.requests.lookup cmd.clientID).any (cmd.requestID ≤ ·)

/-- A request that is repeated changes nothing and is told so; if it reads, it gets what
it would read now. -/
def again (sp : KVSpec) (cmd : Command) : CommitCmd :=
  match cmd.kind with
  | .get | .list => (sp.store.execute cmd).2
  | _ => { cmd with }

/-- The version after a command that is no repetition. -/
def next (sp : KVSpec) (cmd : Command) : Int :=
  if KVService.isMutation cmd.kind then sp.revision + 1 else sp.revision

/-- One command. -/
def apply (sp : KVSpec) (cmd : Command) : KVSpec × CommitCmd :=
  if sp.repeats cmd then
    (sp, { sp.again cmd with isDuplicate := true, revision := sp.revision })
  else
    ({ store := (sp.store.execute cmd).1
       requests := if cmd.clientID = 0 then sp.requests
         else sp.requests.insert cmd.clientID cmd.requestID
       revision := sp.next cmd },
      { (sp.store.execute cmd).2 with revision := sp.next cmd })

/-- The commands of a log. -/
def after (log : List Command) : KVSpec := log.foldl (fun sp cmd => (sp.apply cmd).1) new

theorem after_concat (log : List Command) (cmd : Command) :
    after (log ++ [cmd]) = ((after log).apply cmd).1 := List.foldl_concat ..

end KVSpec

end Zodiac
