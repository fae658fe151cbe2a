import Zodiac.DataStore

/-!
# The replicated service state

`kvservice/command.go` and the apply side of `kvservice/kvservice.go`: the
commands in the Raft log, `handleCommand`, the watch events it derives, and
snapshots. The state here is what a log entry or a snapshot can change; commit
subscriptions and watchers have their own modules.

`handleCommand` runs on the single goroutine of `runUpdater` and is the only
writer of this state, so it is one function. Its inputs besides the entry are
the clock and the iteration orders of the maps it ranges over, collected in
`Env`.
-/

namespace Zodiac

/-! ## Commands -/

/-- `CommandKind`, without `CommandInvalid`: no handler builds it, and
`handleCommand` panics on it. -/
inductive CommandKind
  | get
  | put
  | append
  | cas
  | list
  | txn
  | leaseGrant
  | leaseKeepAlive
  | leaseRevoke
  | leaseExpiry
deriving DecidableEq, Repr

/-- `TxnData`. -/
structure TxnData where
  conditions : List TxnCondition := []
  success : List TxnOp := []
  failure : List TxnOp := []
deriving DecidableEq, Repr

/-- `TxnApplyResult`. -/
structure TxnApplyResult where
  succeeded : Bool
  results : List TxnOpResult
deriving DecidableEq, Repr

/-- The part of `Command` that a handler fills in before it submits it. The
pointer `Txn` is set exactly for transactions, the one kind that reads it. -/
structure Command where
  kind : CommandKind
  key : String := ""
  value : String := ""
  compareValue : String := ""
  txn : TxnData := {}
  leaseID : Int := 0
  leaseTTL : Int := 0
  leaseIDs : List Int := []
  limit : Int := 0
  keyAfter : String := ""
  serviceID : Nat := 0
  clientID : Int := 0
  requestID : Int := 0
deriving DecidableEq, Repr

/-- `Command` with the fields that `handleCommand` fills in: this is what a
commit subscription delivers. -/
structure CommitCmd extends Command where
  resultValue : String := ""
  resultFound : Bool := false
  resultPairs : GoMap String String := ∅
  revision : Int := 0
  txnResult : Option TxnApplyResult := none
  isDuplicate : Bool := false
deriving DecidableEq

/-- What `handleCommand` reads besides the entry and the state: the clock, and
the iteration orders of the maps it ranges over, which are the key set of each
lease it revokes, the result map it turns into delete events, and the key set
of each lease that goes into a snapshot. -/
structure Env where
  now : Time
  leaseKeys : Int → RangeOrder String
  pairs : RangeOrder String
  snapshotKeys : Int → RangeOrder String

/-- A clock reading with every map ranged over in ascending order. -/
def Env.at (now : Time) : Env :=
  { now := now, leaseKeys := fun _ => .ascending, pairs := .ascending,
    snapshotKeys := fun _ => .ascending }

/-! ## Applying a command -/

/-- The fields of `KVService` that entries and snapshots change. -/
structure KVService where
  ds : DataStore
  lastRequestIDPerClient : GoMap Int Int
  currentRevision : Int
  lastSnapshotIndex : Int
deriving DecidableEq

namespace KVService

/-- The state built by `New`. -/
def new : KVService :=
  { ds := .new, lastRequestIDPerClient := ∅, currentRevision := 0, lastSnapshotIndex := -1 }

/-- The duplicate check at the head of `handleCommand`. -/
def isDuplicate (s : KVService) (cmd : Command) : Bool :=
  match s.lastRequestIDPerClient.lookup cmd.clientID with
  | some lastReqID => decide (cmd.clientID ≠ 0) && decide (cmd.requestID ≤ lastReqID)
  | none => false

/-- The dedup table after a command that is not a duplicate. -/
def recordRequest (s : KVService) (cmd : Command) : GoMap Int Int :=
  if cmd.clientID ≠ 0 then s.lastRequestIDPerClient.insert cmd.clientID cmd.requestID
  else s.lastRequestIDPerClient

/-- The `CommandGet` case, which the duplicate branch repeats. -/
def readGet (ds : DataStore) (cmd : Command) : CommitCmd :=
  let r := ds.get cmd.key
  { cmd with resultValue := r.1, resultFound := r.2 }

/-- The `CommandList` case, which the duplicate branch repeats. -/
def readList (ds : DataStore) (cmd : Command) : CommitCmd :=
  if cmd.limit > 0 then
    let r := ds.listPaged cmd.key cmd.limit cmd.keyAfter
    { cmd with resultPairs := r.1, resultValue := r.2 }
  else { cmd with resultPairs := ds.list cmd.key }

/-- The loop of the `CommandLeaseExpiry` case. -/
def expireLeases (leaseKeys : Int → RangeOrder String) :
    DataStore → List Int → GoMap String String → DataStore × GoMap String String
  | ds, [], pairs => (ds, pairs)
  | ds, id :: ids, pairs =>
    let r := ds.revokeLease (leaseKeys id) id
    expireLeases leaseKeys r.1 ids (pairs.insertAll r.2 "")

/-- The command switch of `handleCommand`, for commands that are not
duplicates. -/
def execute (env : Env) (ds : DataStore) (cmd : Command) : DataStore × CommitCmd :=
  match cmd.kind with
  | .get => (ds, readGet ds cmd)
  | .put =>
    let r := ds.putLocked cmd.key cmd.value cmd.leaseID
    (r.1, { cmd with resultValue := r.2.1, resultFound := r.2.2 })
  | .append =>
    let r := ds.appendLocked cmd.key cmd.value
    (r.1, { cmd with resultValue := r.2.1, resultFound := r.2.2 })
  | .cas =>
    let r := ds.casLocked cmd.key cmd.compareValue cmd.value
    (r.1, { cmd with resultValue := r.2.1, resultFound := r.2.2 })
  | .txn =>
    let r := ds.txn cmd.txn.conditions cmd.txn.success cmd.txn.failure
    (r.1, { cmd with txnResult := some { succeeded := r.2.1, results := r.2.2 } })
  | .list => (ds, readList ds cmd)
  | .leaseGrant =>
    let r := ds.grantLease env.now cmd.leaseTTL
    (r.1, { cmd with resultValue := formatInt r.2 })
  | .leaseKeepAlive =>
    let r := ds.keepAliveLease env.now cmd.leaseID
    (r.1, { cmd with resultFound := r.2 })
  | .leaseRevoke =>
    let r := ds.revokeLease (env.leaseKeys cmd.leaseID) cmd.leaseID
    (r.1, { cmd with resultPairs := Finmap.insertAll ∅ r.2 "" })
  | .leaseExpiry =>
    let r := expireLeases env.leaseKeys ds cmd.leaseIDs ∅
    (r.1, { cmd with resultPairs := r.2 })

/-- The kinds in the revision switch: the ones that may change the data. -/
def isMutation : CommandKind → Bool
  | .put | .append | .cas | .txn | .leaseRevoke | .leaseExpiry => true
  | .get | .list | .leaseGrant | .leaseKeepAlive => false

/-- The revision after a command that is not a duplicate. -/
def nextRevision (s : KVService) (cmd : Command) : Int :=
  if isMutation cmd.kind then s.currentRevision + 1 else s.currentRevision

/-- The duplicate branch: nothing changes, reads are answered again. -/
def duplicateResult (ds : DataStore) (cmd : Command) : CommitCmd :=
  match cmd.kind with
  | .get => readGet ds cmd
  | .list => readList ds cmd
  | _ => { cmd with }

/-- `handleCommand` up to the point where it releases the lock: the new state
and the command with its results. -/
def applyCommand (env : Env) (s : KVService) (cmd : Command) : KVService × CommitCmd :=
  if s.isDuplicate cmd then
    (s, { duplicateResult s.ds cmd with isDuplicate := true, revision := s.currentRevision })
  else
    ({ s with
        ds := (execute env s.ds cmd).1
        lastRequestIDPerClient := s.recordRequest cmd
        currentRevision := s.nextRevision cmd },
      { (execute env s.ds cmd).2 with revision := s.nextRevision cmd })

theorem applyCommand_duplicate {env : Env} {s : KVService} {cmd : Command}
    (h : s.isDuplicate cmd = true) :
    s.applyCommand env cmd =
      (s, { duplicateResult s.ds cmd with isDuplicate := true, revision := s.currentRevision }) :=
  if_pos h

theorem applyCommand_fresh {env : Env} {s : KVService} {cmd : Command}
    (h : s.isDuplicate cmd = false) :
    s.applyCommand env cmd =
      ({ s with
          ds := (execute env s.ds cmd).1
          lastRequestIDPerClient := s.recordRequest cmd
          currentRevision := s.nextRevision cmd },
        { (execute env s.ds cmd).2 with revision := s.nextRevision cmd }) :=
  if_neg (by rw [h]; exact Bool.false_ne_true)

/-- What holds of the store before a command and after its execution holds after the
command, duplicate or not. -/
theorem applyCommand_ds_of {P : DataStore → Prop} {env : Env} {s : KVService} {cmd : Command}
    (hkept : P s.ds) (hexec : P (execute env s.ds cmd).1) : P (s.applyCommand env cmd).1.ds := by
  unfold applyCommand
  split
  · exact hkept
  · exact hexec

/-- What holds of the store after any writes of keys and after each lease operation holds
after the execution of a command. -/
theorem execute_ds_of {P : DataStore → Prop} {env : Env} {ds : DataStore} {cmd : Command}
    (hwrites : cmd.kind ≠ .leaseGrant → ∀ ds', ds.Moves ds' → P ds')
    (hgrant : cmd.kind = .leaseGrant → P (ds.grantLease env.now cmd.leaseTTL).1)
    (hkeepAlive : cmd.kind = .leaseKeepAlive → P (ds.keepAliveLease env.now cmd.leaseID).1)
    (hrevoke : cmd.kind = .leaseRevoke →
      P (ds.revokeLease (env.leaseKeys cmd.leaseID) cmd.leaseID).1)
    (hexpiry : cmd.kind = .leaseExpiry → P (expireLeases env.leaseKeys ds cmd.leaseIDs ∅).1) :
    P (execute env ds cmd).1 := by
  unfold execute
  cases hkind : cmd.kind with
  | get | list => exact hwrites (by rw [hkind]; decide) ds .refl
  | put => exact hwrites (by rw [hkind]; decide) _ (.put ds _ _ _)
  | append => exact hwrites (by rw [hkind]; decide) _ (.append ds _ _)
  | cas => exact hwrites (by rw [hkind]; decide) _ (.cas ds _ _ _)
  | txn => exact hwrites (by rw [hkind]; decide) _ (.txnOps ds)
  | leaseGrant => exact hgrant hkind
  | leaseKeepAlive => exact hkeepAlive hkind
  | leaseRevoke => exact hrevoke hkind
  | leaseExpiry => exact hexpiry hkind

theorem readList_request (ds : DataStore) (cmd : Command) :
    (readList ds cmd).toCommand = cmd ∧ (readList ds cmd).isDuplicate = false := by
  unfold readList
  split <;> exact ⟨rfl, rfl⟩

theorem execute_request (env : Env) (ds : DataStore) (cmd : Command) :
    (execute env ds cmd).2.toCommand = cmd ∧ (execute env ds cmd).2.isDuplicate = false := by
  unfold execute
  cases cmd.kind with
  | list => exact readList_request ds cmd
  | _ => exact ⟨rfl, rfl⟩

/-- The result carries the request fields of the entry. -/
theorem applyCommand_toCommand (env : Env) (s : KVService) (cmd : Command) :
    (s.applyCommand env cmd).2.toCommand = cmd := by
  cases hd : s.isDuplicate cmd with
  | true =>
    rw [applyCommand_duplicate hd]
    simp only [duplicateResult]
    cases cmd.kind with
    | list => exact (readList_request s.ds cmd).1
    | _ => rfl
  | false =>
    rw [applyCommand_fresh hd]
    exact (execute_request env s.ds cmd).1

theorem applyCommand_isDuplicate (env : Env) (s : KVService) (cmd : Command) :
    (s.applyCommand env cmd).2.isDuplicate = s.isDuplicate cmd := by
  cases hd : s.isDuplicate cmd with
  | true => rw [applyCommand_duplicate hd]
  | false =>
    rw [applyCommand_fresh hd]
    exact (execute_request env s.ds cmd).2

theorem applyCommand_lastSnapshotIndex (env : Env) (s : KVService) (cmd : Command) :
    (s.applyCommand env cmd).1.lastSnapshotIndex = s.lastSnapshotIndex := by
  unfold applyCommand
  split <;> rfl

/-! ## Watch events -/

/-- The event pushed for one transaction result, which for a CAS or an append
re-reads the store `ds` left by the whole transaction. -/
def txnOpEvent (ds : DataStore) (rev : Int) (op : TxnOp) (r : TxnOpResult) : List WatchEvent :=
  match op.op with
  | .delete => [{ key := r.key, value := r.prevValue, revision := rev, type := .delete }]
  | .cas =>
    if r.keyFound = true ∧ r.prevValue = op.compareValue then
      [{ key := op.key, value := (ds.get op.key).1, revision := rev, type := .put }]
    else []
  | .append => [{ key := op.key, value := (ds.get op.key).1, revision := rev, type := .put }]
  | .put | .unknown _ => [{ key := op.key, value := op.value, revision := rev, type := .put }]

/-- The delete events for the keys of a result map. -/
def deleteEvents (order : RangeOrder String) (pairs : GoMap String String) (rev : Int) :
    List WatchEvent :=
  (order.keys pairs.keys).map fun key =>
    { key := key, value := "", revision := rev, type := .delete }

/-- The events that `handleCommand` pushes, in push order, given the store
after the command. -/
def watchEvents (env : Env) (ds : DataStore) (cmd : CommitCmd) : List WatchEvent :=
  if cmd.isDuplicate then []
  else match cmd.kind with
    | .put => [{ key := cmd.key, value := cmd.value, revision := cmd.revision, type := .put }]
    | .append =>
      [{ key := cmd.key, value := (ds.get cmd.key).1, revision := cmd.revision, type := .put }]
    | .cas =>
      if cmd.resultFound = true ∧ cmd.resultValue = cmd.compareValue then
        [{ key := cmd.key, value := (ds.get cmd.key).1, revision := cmd.revision, type := .put }]
      else []
    | .leaseRevoke | .leaseExpiry => deleteEvents env.pairs cmd.resultPairs cmd.revision
    | .txn =>
      match cmd.txnResult with
      | none => []
      | some res =>
        let branch := if res.succeeded then cmd.txn.success else cmd.txn.failure
        (branch.zip res.results).flatMap fun p => txnOpEvent ds cmd.revision p.1 p.2
    | .get | .list | .leaseGrant | .leaseKeepAlive => []

end KVService

/-! ## Snapshots -/

/-- `kvSnapshot`. -/
structure KvSnapshot where
  store : GoMap String String
  lastRequestIDPerClient : GoMap Int Int
  currentRevision : Int
  leases : GoMap Int LeaseSnapshot
  keyLease : GoMap String Int
  nextLeaseID : Int
deriving DecidableEq

/-- What the service uses of `encoding/gob`: encoding may fail, and decoding
undoes it. Lists do not tell a nil slice from an empty one, so the round trip
is exact. -/
structure SnapshotCodec (β : Type) where
  encode : KvSnapshot → Option β
  decode : β → Option KvSnapshot
  decode_encode : ∀ {snap data}, encode snap = some data → decode data = some snap

/-- The codec that stores the value itself. -/
def SnapshotCodec.plain : SnapshotCodec KvSnapshot where
  encode := some
  decode := some
  decode_encode h := by cases h; rfl

/-- `snapshotThreshold`. -/
def snapshotThreshold : Int := 100

/-- What one call of `handleCommand` gives to the outside: the command for the
commit subscription, the pushed watch events, and the data handed to Raft's
`InstallSnapshot`, if any. -/
structure Applied (β : Type) where
  cmd : CommitCmd
  events : List WatchEvent
  installed : Option β

namespace KVService

variable {β : Type}

/-- `encodeSnapshot` before the encoder. -/
def snapshot (s : KVService) (order : Int → RangeOrder String) : KvSnapshot :=
  let ls := s.ds.getLeaseSnapshot order
  { store := s.ds.copyAll
    lastRequestIDPerClient := s.lastRequestIDPerClient
    currentRevision := s.currentRevision
    leases := ls.1
    keyLease := ls.2.1
    nextLeaseID := ls.2.2 }

/-- `encodeSnapshot`. -/
def encodeSnapshot (codec : SnapshotCodec β) (order : Int → RangeOrder String) (s : KVService) :
    Option β :=
  codec.encode (s.snapshot order)

/-- `maybeSnapshot`, with the data it installs. -/
def maybeSnapshot (codec : SnapshotCodec β) (order : Int → RangeOrder String) (s : KVService)
    (index : Int) : KVService × Option β :=
  if index - s.lastSnapshotIndex < snapshotThreshold then (s, none)
  else match s.encodeSnapshot codec order with
    | none => (s, none)
    | some data => ({ s with lastSnapshotIndex := index }, some data)

/-- `handleCommand`: apply the entry, derive its events, and take a snapshot
when one is due. -/
def handleCommand (codec : SnapshotCodec β) (env : Env) (s : KVService) (cmd : Command)
    (index : Int) : KVService × Applied β :=
  let r := s.applyCommand env cmd
  let events := watchEvents env r.1.ds r.2
  let snap := if r.1.lastSnapshotIndex ≥ 0 then r.1.maybeSnapshot codec env.snapshotKeys index
    else (r.1, none)
  (snap.1, { cmd := r.2, events := events, installed := snap.2 })

/-- `handleSnapshot`, the restore branch of `runUpdater`: a snapshot that does
not decode is dropped. -/
def handleSnapshot (codec : SnapshotCodec β) (s : KVService) (index : Int) (data : β) :
    KVService :=
  match codec.decode data with
  | none => s
  | some snap =>
    { ds := (s.ds.restoreAll snap.store).restoreFromLeaseSnapshot snap.leases snap.keyLease
        snap.nextLeaseID
      lastRequestIDPerClient := snap.lastRequestIDPerClient
      currentRevision := snap.currentRevision
      lastSnapshotIndex := index }

/-! ## `handleCommand` and `applyCommand`

Up to the index of the last local snapshot, the state after `handleCommand` is
that of `applyCommand`. -/

section HandleCommand

variable (codec : SnapshotCodec β) (env : Env) (s : KVService) (cmd : Command) (index : Int)

theorem maybeSnapshot_fields (order : Int → RangeOrder String) :
    (s.maybeSnapshot codec order index).1.ds = s.ds ∧
    (s.maybeSnapshot codec order index).1.lastRequestIDPerClient = s.lastRequestIDPerClient ∧
    (s.maybeSnapshot codec order index).1.currentRevision = s.currentRevision := by
  unfold maybeSnapshot
  split
  · exact ⟨rfl, rfl, rfl⟩
  · split <;> exact ⟨rfl, rfl, rfl⟩

theorem handleCommand_fields :
    (s.handleCommand codec env cmd index).1.ds = (s.applyCommand env cmd).1.ds ∧
    (s.handleCommand codec env cmd index).1.lastRequestIDPerClient =
      (s.applyCommand env cmd).1.lastRequestIDPerClient ∧
    (s.handleCommand codec env cmd index).1.currentRevision =
      (s.applyCommand env cmd).1.currentRevision := by
  simp only [handleCommand]
  split
  · exact maybeSnapshot_fields codec _ index env.snapshotKeys
  · exact ⟨rfl, rfl, rfl⟩

@[simp] theorem handleCommand_ds :
    (s.handleCommand codec env cmd index).1.ds = (s.applyCommand env cmd).1.ds :=
  (handleCommand_fields codec env s cmd index).1

@[simp] theorem handleCommand_lastRequestIDPerClient :
    (s.handleCommand codec env cmd index).1.lastRequestIDPerClient =
      (s.applyCommand env cmd).1.lastRequestIDPerClient :=
  (handleCommand_fields codec env s cmd index).2.1

@[simp] theorem handleCommand_currentRevision :
    (s.handleCommand codec env cmd index).1.currentRevision =
      (s.applyCommand env cmd).1.currentRevision :=
  (handleCommand_fields codec env s cmd index).2.2

@[simp] theorem handleCommand_cmd :
    (s.handleCommand codec env cmd index).2.cmd = (s.applyCommand env cmd).2 := rfl

@[simp] theorem handleCommand_events :
    (s.handleCommand codec env cmd index).2.events =
      watchEvents env (s.applyCommand env cmd).1.ds (s.applyCommand env cmd).2 := rfl

end HandleCommand

end KVService

end Zodiac
