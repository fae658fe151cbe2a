import Zodiac.Handlers
import Zodiac.Lib.Mutex
import Zodiac.PeerBook

/-!
# The service lock

The operations of `kvservice.go` that use the mutex of `KVService`, each with its
locks and unlocks, its early returns and its panics, on the state that the mutex
guards. What they get from outside (a decoded request, the answers of Raft, the
iteration orders of maps) is part of the operation.

`handleWatch` and the lease-expiry loop are not here: they use `watchMu` and the mutex
of the store only. A panic in the apply loop ends the process; here it ends the
operation.

* `disciplined_of_notMembers`: every operation but `handleMembers` uses the mutex
  properly.
* `lock_safe`: no run without `handleMembers` locks the mutex twice, and the mutex can
  always be acquired again.
* `members_never_answers`, `members_deadlocks`: `handleMembers` calls `httpAddr` with
  the mutex held, and blocks the whole service.
* `handleCommand_refines`: undisturbed, `handleCommand` has the effect of
  `KVService.handleCommand`, the function that the other modules use.
-/

namespace Zodiac

/-! ## The service -/

/-- `api.JoinRequest`. -/
structure JoinRequest where
  id : Int
  raftAddr : String
  httpAddr : String

/-- The command of a log entry. The kind of an `invalid` one is none of the ten, and
that of `cmd` is not used. -/
inductive LogCommand
  | known (cmd : Command)
  | invalid (cmd : Command)

/-- The fields of `KVService` that operations use, and what they leave outside.
`commitSubs` maps log indices to channels; `closed` holds the closed channels with the
command that was sent on each, if any. `events` and `installed` are the arguments of the
calls of `pushWatchEvent` and `InstallSnapshot`, and `stored` is what storage has under
`peerStoreKey`. -/
structure KVServer (β γ : Type) where
  service : KVService
  membership : Membership
  commitSubs : GoMap Int Nat
  closed : GoMap Nat (Option CommitCmd)
  events : List WatchEvent
  installed : List (Int × Int × β)
  stored : Option γ

/-- What an operation gives back. -/
inductive Reply
  | done
  | httpError (code : Nat) (text : String)
  | clientGone
  | response (resp : Response)
  /-- `api.JoinResponse` and `api.LeaveResponse`. -/
  | changed (status : ResponseStatus)
  | status (id : Int) (isLeader : Bool) (peerCount : Nat)
  | members (members : List (Int × String))
  | peers (peers : GoMap Int PeerInfo)
  | ids (ids : List Int)

/-- The operations. -/
inductive ServerOp (β : Type)
  /-- One of the nine handlers that submit a command. `index` is what `Submit` returns,
  `ch` the channel that is made, and `gone` says whether the client leaves before the
  answer. -/
  | request (req : Except String Handler) (index : Int) (ch : Nat) (gone : Bool)
  | join (req : Except String JoinRequest) (isLeader resolved : Bool)
      (connected : Except String Unit) (added : Bool)
  | leave (req : Except String Int) (isLeader removed : Bool)
  | status (isLeader : Bool)
  | members (order : RangeOrder Int)
  | command (env : Env) (cmd : LogCommand) (index term : Int)
  | configChange (cc : ConfigChangeEntry) (order : RangeOrder Int)
  | snapshot (index : Int) (data : β) (order : RangeOrder Int)
  | savePeers (order : RangeOrder Int)
  | loadPeers
  | setLocalHTTPAddr (addr : String) (order : RangeOrder Int)
  | knownPeers
  | peerIDs

namespace KVServer

variable {β γ : Type}

/-- The service as `New` builds it, before `loadPeers`. -/
def new (id : Nat) (peerIds : List Int) (stored : Option γ) : KVServer β γ :=
  { service := .new, membership := .new id peerIds, commitSubs := ∅, closed := ∅, events := [],
    installed := [], stored := stored }

/-- Change the membership fields. -/
def onMembership (f : Membership → Membership) (s : KVServer β γ) : KVServer β γ :=
  { s with membership := f s.membership }

/-- The send and the close at the end of `handleCommand`, if someone has subscribed. -/
def notify (s : KVServer β γ) (sub : Option Nat) (cmd : CommitCmd) : KVServer β γ :=
  { s with closed := match sub with
      | some ch => s.closed.insert ch (some cmd)
      | none => s.closed }

/-- The loop of `handleSnapshot` over the subscriptions. -/
def cancelCovered (s : KVServer β γ) (index : Int) (order : RangeOrder Int) : KVServer β γ :=
  (order.keys s.commitSubs.keys).foldl (fun s idx =>
    if idx ≤ index then
      match s.commitSubs.lookup idx with
      | some ch =>
        { s with closed := s.closed.insert ch none, commitSubs := s.commitSubs.erase idx }
      | none => s
    else s) s

/-! ## The operations -/

open LockProg

/-- An operation of the service that returns an `α`. -/
abbrev Prog (β γ α : Type) := LockProg (KVServer β γ) (ServerOp β) α

/-- `createCommitSubscription`. -/
def createCommitSubscription (index : Int) (ch : Nat) : Prog β γ Nat :=
  critical do
    let s ← read
    if index ∈ s.commitSubs then panic
    else do
      modify fun s => { s with commitSubs := s.commitSubs.insert index ch }
      return ch

/-- `popCommitSubscriptionLocked`. -/
def popCommitSubscriptionLocked (index : Int) : Prog β γ (Option Nat) :=
  modifyGet fun s => (s.commitSubs.lookup index, { s with commitSubs := s.commitSubs.erase index })

/-- The nine handlers that go through the log. -/
def handleRequest (id : Nat) (req : Except String Handler) (index : Int) (ch : Nat) (gone : Bool) :
    Prog β γ Reply :=
  match req with
  | .error text => return .httpError 400 text
  | .ok h =>
    if index < 0 then return .response .notLeader
    else do
      let sub ← createCommitSubscription index ch
      -- the select: the client leaves, or the subscription delivers
      if gone then return .clientGone
      else do
        waitFor fun s => decide (sub ∈ s.closed)
        let s ← read
        match h.respond id (s.closed.lookup sub).join with
        | some resp => return .response resp
        | none => panic

/-- `handleJoin`. -/
def handleJoin (req : Except String JoinRequest) (isLeader resolved : Bool)
    (connected : Except String Unit) (added : Bool) : Prog β γ Reply :=
  match req with
  | .error text => return .httpError 400 text
  | .ok jr =>
    if isLeader = false then return .changed .notLeader
    else if resolved = false then return .httpError 400 "invalid raft address"
    else match connected with
      | .error text => return .httpError 500 text
      | .ok () => do
        let pi : PeerInfo := { raftAddr := jr.raftAddr, httpAddr := jr.httpAddr }
        locked fun s => ((), s.onMembership fun m => m.storePending jr.id pi)
        if added = false then do
          locked fun s => ((), s.onMembership fun m => m.deletePending jr.id)
          return .changed .failedCommit
        else return .changed .ok

/-- `handleLeave`. -/
def handleLeave (req : Except String Int) (isLeader removed : Bool) : Prog β γ Reply :=
  match req with
  | .error text => return .httpError 400 text
  | .ok _ =>
    if isLeader = false then return .changed .notLeader
    else if removed = false then return .changed .failedCommit
    else return .changed .ok

/-- `handleStatus`. -/
def handleStatus (isLeader : Bool) : Prog β γ Reply := do
  let m ← locked fun s => (s.membership, s)
  return .status m.id isLeader m.peers.keys.card

/-- `httpAddr`. -/
def httpAddr : Prog β γ String :=
  critical do
    let s ← read
    match s.membership.peers.lookup s.membership.id with
    | some pi => return pi.httpAddr
    | none => return ""

/-- `handleMembers`. -/
def handleMembers (order : RangeOrder Int) : Prog β γ Reply := do
  acquire
  let addr ← httpAddr
  let s ← read
  release
  let others := (order.keys s.membership.peers.keys).map fun id =>
    (id, (s.membership.peers.read {} id).1.httpAddr)
  return .members ((s.membership.id, addr) :: others)

section Storage

variable (peerCodec : PeerCodec γ)

/-- `loadPeers`. -/
def loadPeers : Prog β γ Reply := do
  let s ← read
  match s.stored with
  | none => return .done
  | some data =>
    match peerCodec.decode data with
    | none => return .done
    | some stored => do
      critical (modify fun s => s.onMembership fun m => m.loadPeers stored)
      return .done

/-- `savePeers`. -/
def savePeers (order : RangeOrder Int) : Prog β γ Reply := do
  let stored ← locked fun s => (s.membership.persisted order, s)
  match peerCodec.encode stored with
  | none => return .done
  | some data => do
    modify fun s => { s with stored := some data }
    return .done

/-- `SetLocalHTTPAddr`. -/
def setLocalHTTPAddr (addr : String) (order : RangeOrder Int) : Prog β γ Reply := do
  locked fun s => ((), s.onMembership fun m => m.setLocalHTTPAddr addr)
  savePeers peerCodec order

end Storage

/-- `KnownPeers`. -/
def knownPeers : Prog β γ Reply :=
  critical do
    let s ← read
    return .peers s.membership.peers

/-- `PeerIDs`. -/
def peerIDs : Prog β γ Reply :=
  critical do
    let s ← read
    return .ids s.membership.peerIDs

/-- `handleCommittedConfigChange`. -/
def handleCommittedConfigChange (cc : ConfigChangeEntry) (order : RangeOrder Int) :
    Prog β γ Reply :=
  critical do
    modify fun s => s.onMembership fun m => m.handleCommittedConfigChange cc
    start (.savePeers order)
    return .done

section Apply

variable (codec : SnapshotCodec β)

/-- `encodeSnapshot`, which is called with the mutex held. -/
def encodeSnapshot (order : Int → RangeOrder String) : Prog β γ (Option β) := do
  let s ← read
  return s.service.encodeSnapshot codec order

/-- `maybeSnapshot`. -/
def maybeSnapshot (order : Int → RangeOrder String) (index term : Int) : Prog β γ Unit :=
  critical do
    let s ← read
    if index - s.service.lastSnapshotIndex < snapshotThreshold then return ()
    else do
      match ← encodeSnapshot codec order with
      | none => return ()
      | some data => do
        modify fun s => { s with service := { s.service with lastSnapshotIndex := index } }
        modify fun s => { s with installed := s.installed ++ [(index, term, data)] }

/-- The part of `handleCommand` that applies the command. The mutex is held; the panic
for an unknown kind gives it back first, after the request has been recorded. -/
def applyLocked (env : Env) : LogCommand → Prog β γ CommitCmd
  | .known cmd => modifyGet fun s =>
      let r := s.service.applyCommand env cmd
      (r.2, { s with service := r.1 })
  | .invalid cmd => do
    let s ← read
    if s.service.isDuplicate cmd then
      return { cmd with isDuplicate := true, revision := s.service.currentRevision }
    else do
      modify fun s => { s with service :=
        { s.service with lastRequestIDPerClient := s.service.recordRequest cmd } }
      release
      panic

/-- `handleCommand`. -/
def handleCommand (env : Env) (cmd : LogCommand) (index term : Int) : Prog β γ Reply := do
  acquire
  let commitCmd ← applyLocked env cmd
  let sub ← popCommitSubscriptionLocked index
  release
  modify fun s => s.notify sub commitCmd
  modify fun s => { s with events := s.events ++ KVService.watchEvents env s.service.ds commitCmd }
  let s ← read
  if s.service.lastSnapshotIndex ≥ 0 then do
    maybeSnapshot codec env.snapshotKeys index term
    return .done
  else return .done

/-- `handleSnapshot`, the restore branch of `runUpdater`. -/
def handleSnapshot (index : Int) (data : β) (order : RangeOrder Int) : Prog β γ Reply :=
  match codec.decode data with
  | none => return .done
  | some _ => do
    locked fun s => ((),
      { s with service := s.service.handleSnapshot codec index data }.cancelCovered index order)
    return .done

end Apply

/-- What each operation does. -/
def body (id : Nat) (codec : SnapshotCodec β) (peerCodec : PeerCodec γ) :
    ServerOp β → Prog β γ Reply
  | .request req index ch gone => handleRequest id req index ch gone
  | .join req isLeader resolved connected added => handleJoin req isLeader resolved connected added
  | .leave req isLeader removed => handleLeave req isLeader removed
  | .status isLeader => handleStatus isLeader
  | .members order => handleMembers order
  | .command env cmd index term => handleCommand codec env cmd index term
  | .configChange cc order => handleCommittedConfigChange cc order
  | .snapshot index data order => handleSnapshot codec index data order
  | .savePeers order => savePeers peerCodec order
  | .loadPeers => loadPeers peerCodec
  | .setLocalHTTPAddr addr order => setLocalHTTPAddr peerCodec addr order
  | .knownPeers => knownPeers
  | .peerIDs => peerIDs

/-- Every operation but `handleMembers`. -/
def NotMembers : ServerOp β → Prop
  | .members _ => False
  | _ => True

instance (op : ServerOp β) : Decidable (NotMembers op) := by
  unfold NotMembers
  split <;> infer_instance

end KVServer

namespace LockingLemmas

open LockProg KVServer

variable {β γ : Type} {ok : ServerOp β → Prop}

/-! ## Each operation uses the mutex properly -/

theorem disciplined_createCommitSubscription (index : Int) (ch : Nat) :
    (createCommitSubscription index ch : Prog β γ Nat).Disciplined ok false false false := by
  refine disciplined_critical (disciplined_bind (disciplined_modifyGet _) fun s => ?_)
  split
  · rfl
  · exact disciplined_bind (disciplined_modifyGet _) fun _ => rfl

theorem disciplined_handleRequest (id : Nat) (req : Except String Handler) (index : Int) (ch : Nat)
    (gone : Bool) :
    (handleRequest id req index ch gone : Prog β γ Reply).Disciplined ok false false false := by
  unfold handleRequest
  cases req with
  | error text => rfl
  | ok h =>
    dsimp only
    split
    · rfl
    · refine disciplined_bind (disciplined_createCommitSubscription index ch) fun sub => ?_
      split
      · rfl
      · refine disciplined_bind (disciplined_waitFor _) fun _ => ?_
        refine disciplined_bind (disciplined_modifyGet _) fun s => ?_
        split <;> rfl

theorem disciplined_handleJoin (req : Except String JoinRequest) (isLeader resolved : Bool)
    (connected : Except String Unit) (added : Bool) :
    (handleJoin req isLeader resolved connected added : Prog β γ Reply).Disciplined ok
      false false false := by
  unfold handleJoin
  cases req with
  | error text => rfl
  | ok jr =>
    dsimp only
    split
    · rfl
    · split
      · rfl
      · cases connected with
        | error text => rfl
        | ok _ =>
          refine disciplined_bind (disciplined_locked _) fun _ => ?_
          split
          · exact disciplined_bind (disciplined_locked _) fun _ => rfl
          · rfl

theorem disciplined_handleLeave (req : Except String Int) (isLeader removed : Bool) :
    (handleLeave req isLeader removed : Prog β γ Reply).Disciplined ok false false false := by
  unfold handleLeave
  cases req with
  | error text => rfl
  | ok id =>
    dsimp only
    split
    · rfl
    · split <;> rfl

theorem disciplined_savePeers (peerCodec : PeerCodec γ) (order : RangeOrder Int) :
    (savePeers peerCodec order : Prog β γ Reply).Disciplined ok false false false := by
  refine disciplined_bind (disciplined_locked _) fun stored => ?_
  split
  · rfl
  · exact disciplined_bind (disciplined_modifyGet _) fun _ => rfl

theorem disciplined_loadPeers (peerCodec : PeerCodec γ) :
    (loadPeers peerCodec : Prog β γ Reply).Disciplined ok false false false := by
  refine disciplined_bind (disciplined_modifyGet _) fun s => ?_
  split
  · rfl
  · split
    · rfl
    · refine disciplined_bind (disciplined_critical (disciplined_modifyGet _)) fun _ => rfl

theorem disciplined_maybeSnapshot (codec : SnapshotCodec β) (order : Int → RangeOrder String)
    (index term : Int) :
    (maybeSnapshot codec order index term : Prog β γ Unit).Disciplined ok false false false := by
  refine disciplined_critical (disciplined_bind (disciplined_modifyGet _) fun s => ?_)
  split
  · rfl
  · have hencode : (encodeSnapshot codec order : Prog β γ (Option β)).Disciplined ok
        true true true := disciplined_bind (disciplined_modifyGet _) fun _ => rfl
    refine disciplined_bind hencode fun data => ?_
    split
    · rfl
    · exact disciplined_bind (disciplined_modifyGet _) fun _ => disciplined_modifyGet _

theorem disciplined_applyLocked (env : Env) (cmd : LogCommand) :
    (applyLocked env cmd : Prog β γ CommitCmd).Disciplined ok true true false := by
  cases cmd with
  | known cmd => exact disciplined_modifyGet _
  | invalid cmd =>
    refine disciplined_bind (disciplined_modifyGet _) fun s => ?_
    split
    · rfl
    · refine disciplined_bind (disciplined_modifyGet _) fun _ => ?_
      exact disciplined_bind disciplined_release fun _ => rfl

theorem disciplined_handleCommand (codec : SnapshotCodec β) (env : Env) (cmd : LogCommand)
    (index term : Int) :
    (handleCommand codec env cmd index term : Prog β γ Reply).Disciplined ok
      false false false := by
  refine disciplined_bind disciplined_acquire fun _ => ?_
  refine disciplined_bind (disciplined_applyLocked env cmd) fun commitCmd => ?_
  refine disciplined_bind (disciplined_modifyGet _) fun sub => ?_
  refine disciplined_bind disciplined_release fun _ => ?_
  refine disciplined_bind (disciplined_modifyGet _) fun _ => ?_
  refine disciplined_bind (disciplined_modifyGet _) fun _ => ?_
  refine disciplined_bind (disciplined_modifyGet _) fun s => ?_
  split
  · exact disciplined_bind (disciplined_maybeSnapshot codec _ index term) fun _ => rfl
  · rfl

theorem disciplined_handleSnapshot (codec : SnapshotCodec β) (index : Int) (data : β)
    (order : RangeOrder Int) :
    (handleSnapshot codec index data order : Prog β γ Reply).Disciplined ok
      false false false := by
  unfold handleSnapshot
  split
  · rfl
  · exact disciplined_bind (disciplined_locked _) fun _ => rfl

theorem disciplined_handleCommittedConfigChange (cc : ConfigChangeEntry) (order : RangeOrder Int)
    (hsave : ok (.savePeers order)) :
    (handleCommittedConfigChange cc order : Prog β γ Reply).Disciplined ok false false false := by
  refine disciplined_critical (disciplined_bind (disciplined_modifyGet _) fun _ => ?_)
  exact disciplined_bind (disciplined_start hsave) fun _ => rfl

end LockingLemmas

open LockingLemmas KVServer

variable {β γ : Type}

/-- Every operation but `handleMembers` locks the mutex only when it does not hold it,
and has given it back when it returns or panics. -/
theorem disciplined_of_notMembers (id : Nat) (codec : SnapshotCodec β) (peerCodec : PeerCodec γ)
    (op : ServerOp β) (h : NotMembers op) :
    (body id codec peerCodec op).Disciplined NotMembers false false false := by
  cases op with
  | request req index ch gone => exact disciplined_handleRequest id req index ch gone
  | join req isLeader resolved connected added =>
    exact disciplined_handleJoin req isLeader resolved connected added
  | leave req isLeader removed => exact disciplined_handleLeave req isLeader removed
  | status isLeader => exact LockProg.disciplined_bind (LockProg.disciplined_locked _) fun _ => rfl
  | members order => exact h.elim
  | command env cmd index term => exact disciplined_handleCommand codec env cmd index term
  | configChange cc order => exact disciplined_handleCommittedConfigChange cc order trivial
  | snapshot index data order => exact disciplined_handleSnapshot codec index data order
  | savePeers order => exact disciplined_savePeers peerCodec order
  | loadPeers => exact disciplined_loadPeers peerCodec
  | setLocalHTTPAddr addr order =>
    exact LockProg.disciplined_bind (LockProg.disciplined_locked _) fun _ =>
      disciplined_savePeers peerCodec order
  | knownPeers | peerIDs =>
    exact LockProg.disciplined_critical
      (LockProg.disciplined_bind (LockProg.disciplined_modifyGet _) fun _ => rfl)

/-- From any state of the service, in every interleaving of operations without
`handleMembers`, no operation locks the mutex that it holds, every operation that has
ended has released it, and it can always be freed. -/
theorem lock_safe (id : Nat) (codec : SnapshotCodec β) (peerCodec : PeerCodec γ)
    (server : KVServer β γ) {s : LockState (KVServer β γ) (ServerOp β) Reply}
    (h : (lockMachine (body id codec peerCodec) server).ReachableBy (StartsOnly NotMembers) s) :
    LockSafe (body id codec peerCodec) s :=
  lockSafe_of_reachable _ (disciplined_of_notMembers id codec peerCodec) h

/-- A put waits for its entry while the apply loop, which holds the mutex, applies it. -/
theorem lock_safe_applying : ∃ s : LockState (KVServer KvSnapshot (List PersistedPeer))
      (ServerOp KvSnapshot) Reply,
    (lockMachine (body 0 .plain .plain) (.new 0 [] none)).ReachableBy (StartsOnly NotMembers) s ∧
    (s.holder = some 1 ∧ s.shared.commitSubs.lookup 0 = some 7) ∧
    LockSafe (body 0 .plain .plain) s := by
  obtain ⟨s, hs, hshow⟩ := Machine.exists_reachableBy
    (M := lockMachine (body 0 .plain .plain) (.new 0 [] none)) (G := StartsOnly NotMembers)
    [.start (.request (.ok (handlePut { key := "a", value := "x" })) 0 7 false),
      .run 0, .run 0, .run 0, .run 0,
      .start (.command (Env.at 0) (.known { kind := .put, key := "a", value := "x" }) 0 1),
      .run 1, .run 1]
    (fun s => decide (s.holder = some 1 ∧ s.shared.commitSubs.lookup 0 = some 7)) (x := true)
    (by decide)
  exact ⟨s, hs, of_decide_eq_true hshow, lock_safe 0 .plain .plain _ hs⟩

/-- `GET /members/` is never answered. -/
theorem members_never_answers (id : Nat) (codec : SnapshotCodec β) (peerCodec : PeerCodec γ)
    (server : KVServer β γ) {s s' : LockState (KVServer β γ) (ServerOp β) Reply} {i : Nat}
    {order : RangeOrder Int} (hi : s.threads[i]? = some (body id codec peerCodec (.members order)))
    {as : List (LockStep (ServerOp β))}
    (hexec : (lockMachine (body id codec peerCodec) server).exec s as = some s') :
    ∃ p, s'.threads[i]? = some p ∧ p.ended = false := by
  rcases relock_never_ends _ hi hexec with hstart | ⟨hstuck, _⟩
  · exact ⟨_, hstart, rfl⟩
  · exact ⟨_, hstuck, rfl⟩

/-- One `GET /members/` on a new service takes the mutex and never gives it back. -/
theorem members_deadlocks : ∃ s : LockState (KVServer KvSnapshot (List PersistedPeer))
      (ServerOp KvSnapshot) Reply,
    (lockMachine (body 0 .plain .plain) (.new 0 [] none)).Reachable s ∧
    ¬ LockSafe (body 0 .plain .plain) s ∧
    ∀ as s', (lockMachine (body 0 .plain .plain) (.new 0 [] none)).exec s as = some s' →
      s'.holder = some 0 := by
  have hrun : (lockMachine (body 0 .plain .plain) (.new 0 [] none)).exec
    (lockMachine (body 0 .plain .plain) (.new 0 [] none)).init
    [.start (.members .ascending), .run 0] = some _ := rfl
  refine ⟨_, Machine.reachable_of_exec hrun, ?_, ?_⟩
  · intro h
    exact h.no_relock 0 _ rfl rfl
  · intro as s' hexec
    exact (selfDeadlocked_forever _ ⟨rfl, rfl⟩ hexec).2

/-! ## `handleCommand` as one step

The other modules take `handleCommand` as one function. This is what it does when no
other operation runs in between. -/

/-- The service after a command that was applied in one step. -/
def afterCommand (codec : SnapshotCodec β) (env : Env) (cmd : Command) (index term : Int)
    (server : KVServer β γ) : KVServer β γ :=
  let r := server.service.handleCommand codec env cmd index
  { server.notify (server.commitSubs.lookup index) r.2.cmd with
    service := r.1
    commitSubs := server.commitSubs.erase index
    events := server.events ++ r.2.events
    installed := server.installed ++ (r.2.installed.map fun data => (index, term, data)).toList }

namespace LockingLemmas

open LockProg

theorem runAlone_maybeSnapshot (codec : SnapshotCodec β) (order : Int → RangeOrder String)
    (index term : Int) (server : KVServer β γ) :
    (maybeSnapshot codec order index term).runAlone server = some (some (),
      { server with
        service := (server.service.maybeSnapshot codec order index).1
        installed := server.installed ++
          ((server.service.maybeSnapshot codec order index).2.map fun data =>
            (index, term, data)).toList }) := by
  unfold KVServer.maybeSnapshot KVService.maybeSnapshot KVServer.encodeSnapshot
  simp only [runAlone_critical, runAlone_bind, runAlone_read, Option.bind_some]
  split
  · simp
  · cases hdata : server.service.encodeSnapshot codec order <;> simp [hdata]

theorem runAlone_handleCommand (codec : SnapshotCodec β) (env : Env) (cmd : Command)
    (index term : Int) (server : KVServer β γ) :
    (KVServer.handleCommand codec env (.known cmd) index term).runAlone server =
      some (some .done, afterCommand codec env cmd index term server) := by
  simp only [afterCommand, KVServer.handleCommand, KVService.handleCommand, applyLocked,
    popCommitSubscriptionLocked, runAlone_bind, runAlone_acquire, runAlone_release,
    runAlone_modifyGet, runAlone_modify, runAlone_read, Option.bind_some, KVServer.notify]
  split
  · simp [runAlone_maybeSnapshot]
  · simp

end LockingLemmas

/-- Undisturbed, `handleCommand` has the effect of `KVService.handleCommand`: it delivers
the command to the subscription of its index, pushes the events, installs the snapshot,
and leaves the mutex free. -/
theorem handleCommand_refines (id : Nat) (codec : SnapshotCodec β) (peerCodec : PeerCodec γ)
    (server : KVServer β γ) {env : Env} {cmd : Command} {index term : Int}
    {s : LockState (KVServer β γ) (ServerOp β) Reply} {i : Nat}
    (hi : s.threads[i]? = some (body id codec peerCodec (.command env (.known cmd) index term)))
    (hfree : s.holder = none) :
    ∃ n s', (lockMachine (body id codec peerCodec) server).exec s
        (List.replicate n (.run i)) = some s' ∧
      s'.shared = afterCommand codec env cmd index term s.shared ∧ s'.holder = none ∧
      s'.threads[i]? = some (.ret .done) :=
  reaches_of_runAlone _ false hi
    (disciplined_of_notMembers id codec peerCodec (.command env (.known cmd) index term) trivial)
    hfree (runAlone_handleCommand codec env cmd index term s.shared)

end Zodiac
