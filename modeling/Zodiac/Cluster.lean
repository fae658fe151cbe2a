import Mathlib.Logic.Function.Basic
import Zodiac.Handlers
import Zodiac.Lib.Machine
import Zodiac.Membership

/-!
# The cluster

Any number of nodes, each with its Raft log, its apply loop, its commit
subscriptions and its running handlers, in atomic steps.

Of Raft only this is assumed: `Submit` on a leader appends the command and
returns its index; `AddPeer` and `RemovePeer` on a leader append a configuration
change, which takes an index as a command does; any node may gain or lose
leadership at any time; the end of a node's log that it has not applied may be cut
and continued with the entries of another node's log, which keep their indices; the
next entry is committed out of a log that has all the committed ones; committed
entries are applied once, in index order. A panic in a handler ends that handler
only.

Commands carry a ghost `origin`: the handler that submitted them, if one did. It
only tells them apart. What a configuration change does to the address book is in
`Membership`.
-/

namespace Zodiac

/-! ## States -/

/-- A command with the node and the number of the handler that submitted it. -/
structure Entry where
  cmd : Command
  origin : Option (Nat × Nat)
deriving DecidableEq

/-- What the log has at an index, as `runUpdater` tells it apart. -/
inductive LogItem
  | command (e : Entry)
  | configChange (cc : ConfigChangeEntry)
deriving DecidableEq

/-- The command, if it is one. -/
def LogItem.entry : LogItem → Option Entry
  | .command e => some e
  | .configChange _ => none

/-- The commands of a log with their origins. -/
def entriesOf (log : List LogItem) : List Entry := log.filterMap LogItem.entry

/-- The commands of a log. -/
def commandsOf (log : List LogItem) : List Command := (entriesOf log).map Entry.cmd

/-- How many of the first `i` entries of a log are commands. -/
def commandsBefore (log : List LogItem) (i : Nat) : Nat := History.kept LogItem.entry log i

/-- Where a handler is. `waiting` holds the contents of its subscription channel:
nothing yet, a command, or closed without one. -/
inductive Progress
  | submitted
  | waiting (inbox : Option (Option CommitCmd))
  | answered (resp : Response)
  | gone
deriving DecidableEq

/-- The handler has not ended. -/
def Progress.live : Progress → Bool
  | .submitted | .waiting _ => true
  | .answered _ | .gone => false

/-- The handler is blocked on its subscription. -/
def Progress.isWaiting : Progress → Bool
  | .waiting _ => true
  | _ => false

/-- A running or ended handler with the index that `Submit` returned, or none when
the node was not the leader. -/
structure HandlerRun where
  handler : Handler
  index : Option Nat
  progress : Progress

/-- A node. `applied` counts the entries applied or covered by a restored
snapshot; `commitSubs` maps log indices to handler numbers; `sending` is the
subscription that the apply loop has popped and not served yet; `results` records
what was applied at each index. -/
structure Node where
  log : List LogItem
  isLeader : Bool
  service : KVService
  applied : Nat
  commitSubs : GoMap Nat Nat
  sending : Option (Nat × CommitCmd)
  handlers : List HandlerRun
  results : GoMap Nat (Entry × CommitCmd)

/-- All nodes, and the committed log. -/
structure Cluster where
  nodes : Nat → Node
  committed : List LogItem

/-- The committed commands. -/
def Cluster.commands (s : Cluster) : List Command := commandsOf s.committed

/-- A new node. -/
def Node.new : Node :=
  { log := [], isLeader := false, service := .new, applied := 0, commitSubs := ∅, sending := none,
    handlers := [], results := ∅ }

/-! ## Commands and indices -/

section Indices

open History

variable {log : List LogItem} {i : Nat} {e : Entry}

theorem entriesOf_append (log log' : List LogItem) :
    entriesOf (log ++ log') = entriesOf log ++ entriesOf log' := List.filterMap_append

theorem commandsOf_append (log log' : List LogItem) :
    commandsOf (log ++ log') = commandsOf log ++ commandsOf log' := by
  rw [commandsOf, entriesOf_append, List.map_append, commandsOf, commandsOf]

theorem commandsBefore_append (hi : i ≤ log.length) (more : List LogItem) :
    commandsBefore (log ++ more) i = commandsBefore log i := kept_append hi more

theorem commandsBefore_command (h : log[i]? = some (.command e)) :
    commandsBefore log (i + 1) = commandsBefore log i + 1 := kept_succ_some h rfl

theorem commandsBefore_configChange {cc : ConfigChangeEntry} (h : log[i]? = some (.configChange cc)) :
    commandsBefore log (i + 1) = commandsBefore log i := kept_succ_none h rfl

theorem getElem?_entriesOf (h : log[i]? = some (.command e)) :
    (entriesOf log)[commandsBefore log i]? = some e := getElem?_kept h rfl

/-- The index of a command. -/
theorem exists_index {p : Nat} (h : (entriesOf log)[p]? = some e) :
    ∃ i, log[i]? = some (.command e) ∧ commandsBefore log i = p := by
  obtain ⟨i, item, hi, hitem, hp⟩ := exists_kept h
  cases item with
  | command e' =>
    cases hitem
    exact ⟨i, hi, hp⟩
  | configChange cc => cases hitem

theorem getElem?_commandsOf (h : log[i]? = some (.command e)) :
    (commandsOf log)[commandsBefore log i]? = some e.cmd := by
  rw [commandsOf, List.getElem?_map, getElem?_entriesOf h, Option.map_some]

theorem take_commandsOf (log : List LogItem) (i : Nat) :
    (commandsOf log).take (commandsBefore log i) = commandsOf (log.take i) := by
  rw [commandsOf, ← List.map_take, entriesOf, commandsBefore, take_kept, commandsOf, entriesOf]

end Indices

/-! ## Steps of one node -/

namespace Node

variable {β : Type}

/-- `Submit`: the index, or none when the node is not the leader. -/
def submit (node : Node) (e : Entry) : Node × Option Nat :=
  if node.isLeader then ({ node with log := node.log ++ [.command e] }, some node.log.length)
  else (node, none)

/-- The head of a handler, up to and including `Submit`. -/
def startHandler (id : Nat) (h : Handler) (node : Node) : Node :=
  let e : Entry := { cmd := h.command id, origin := some (id, node.handlers.length) }
  let r := node.submit e
  let run : HandlerRun :=
    { handler := h, index := r.2,
      progress := if r.2.isSome then .submitted else .answered .notLeader }
  { r.1 with handlers := node.handlers ++ [run] }

theorem startHandler_leader {node : Node} (hl : node.isLeader = true) (id : Nat) (h : Handler) :
    node.startHandler id h = { node with
      log := node.log ++
        [.command { cmd := h.command id, origin := some (id, node.handlers.length) }]
      handlers := node.handlers ++
        [{ handler := h, index := some node.log.length, progress := .submitted }] } := by
  simp only [startHandler, submit, hl, if_true, Option.isSome_some]

theorem startHandler_follower {node : Node} (hl : node.isLeader = false) (id : Nat) (h : Handler) :
    node.startHandler id h = { node with
      handlers := node.handlers ++
        [{ handler := h, index := none, progress := .answered .notLeader }] } := by
  simp only [startHandler, submit, hl, Bool.false_eq_true, if_false, Option.isSome_none]

/-- Replace the state of handler `k`. -/
def setProgress (node : Node) (k : Nat) (p : Progress) : Node :=
  { node with handlers := node.handlers.modify k fun run => { run with progress := p } }

/-- `createCommitSubscription`. An index that is still present panics, which ends
the handler and leaves the old subscription. -/
def subscribe (node : Node) (k : Nat) : Option Node :=
  match node.handlers[k]? with
  | some { index := some i, progress := .submitted, .. } =>
    if i ∈ node.commitSubs then some (node.setProgress k .gone)
    else some { node.setProgress k (.waiting none) with
      commitSubs := node.commitSubs.insert i k }
  | _ => none

/-- The receive in the handler's `select`, and its answer. -/
def receive (id : Nat) (node : Node) (k : Nat) : Option Node :=
  match node.handlers[k]? with
  | some { handler := h, progress := .waiting (some r), .. } =>
    some (node.setProgress k (match h.respond id r with
      | some resp => .answered resp
      | none => .gone))
  | _ => none

/-- The other case of the `select`: the client is gone. The subscription stays. -/
def disconnect (node : Node) (k : Nat) : Option Node :=
  match node.handlers[k]? with
  | some { progress := .waiting _, .. } => some (node.setProgress k .gone)
  | _ => none

/-- The lease-expiry loop: nothing is submitted when no lease has expired. -/
def expire (node : Node) (now : Time) (order : RangeOrder Int) : Option Node :=
  match node.service.ds.checkExpiredLeases now order with
  | [] => none
  | ids => some (node.submit { cmd := { kind := .leaseExpiry, leaseIDs := ids }, origin := none }).1

/-- `AddPeer` and `RemovePeer`, which only the leader does. -/
def changeConfig (node : Node) (cc : ConfigChangeEntry) : Option Node :=
  if node.isLeader then some { node with log := node.log ++ [.configChange cc] } else none

/-- `handleCommand` up to the point where it has popped the subscription. -/
def apply (codec : SnapshotCodec β) (node : Node) (env : Env) (e : Entry) : Node :=
  let r := node.service.handleCommand codec env e.cmd node.applied
  { node with
    service := r.1
    applied := node.applied + 1
    commitSubs := node.commitSubs.erase node.applied
    sending := (node.commitSubs.lookup node.applied).map fun k => (k, r.2.cmd)
    results := node.results.insert node.applied (e, r.2.cmd) }

/-- `handleCommittedConfigChange`: no subscription is popped. -/
def passConfigChange (node : Node) : Node := { node with applied := node.applied + 1 }

/-- The type switch of `runUpdater`. -/
def applyItem (codec : SnapshotCodec β) (node : Node) (env : Env) : LogItem → Node
  | .command e => node.apply codec env e
  | .configChange _ => node.passConfigChange

/-- Put a value into the channel of handler `k`, if it still waits. -/
def deposit (node : Node) (k : Nat) (r : Option CommitCmd) : Node :=
  match node.handlers[k]? with
  | some { progress := .waiting none, .. } => node.setProgress k (.waiting (some r))
  | _ => node

/-- The send and the close that follow the pop. -/
def send (node : Node) : Option Node :=
  match node.sending with
  | none => none
  | some (k, c) => some { node.deposit k (some c) with sending := none }

/-- `handleSnapshot`: restore the state, and close and delete the subscriptions
up to the snapshot's index. Raft continues the log behind the snapshot. -/
def restore (codec : SnapshotCodec β) (node : Node) (index : Nat) (data : β)
    (committed : List LogItem) : Node :=
  let closed := node.commitSubs.filterKeys fun i => decide (i ≤ index)
  { node with
    log := committed.take (index + 1) ++ node.log.drop (index + 1)
    service := node.service.handleSnapshot codec index data
    applied := index + 1
    commitSubs := node.commitSubs.filterKeys fun i => !decide (i ≤ index)
    handlers := node.handlers.mapIdx fun k run =>
      match run.index, run.progress with
      | some i, .waiting none =>
        if closed.lookup i = some k then { run with progress := .waiting (some none) } else run
      | _, _ => run }

end Node

/-! ## Steps of the cluster -/

/-- Atomic steps. -/
inductive ClusterStep
  /-- Node `n` becomes the leader, or stops being it. -/
  | lead (n : Nat) (isLeader : Bool)
  /-- A request arrives at node `n` and is submitted. -/
  | submit (n : Nat) (h : Handler)
  | subscribe (n k : Nat)
  | receive (n k : Nat)
  | disconnect (n k : Nat)
  /-- A tick of the lease-expiry loop of node `n`. -/
  | expire (n : Nat) (now : Time) (order : RangeOrder Int)
  /-- Node `n` adds or removes a member of the cluster. -/
  | changeConfig (n : Nat) (cc : ConfigChangeEntry)
  /-- Node `n` keeps `keep` entries and takes up to `len` of the following ones from
  node `m`. -/
  | replace (n m keep len : Nat)
  /-- The next entry is committed as it stands in the log of node `n`. -/
  | commit (n : Nat)
  /-- Node `n` applies its next committed entry. -/
  | apply (n : Nat) (env : Env)
  | send (n : Nat)
  /-- Node `n` restores a snapshot of the state of node `m`. -/
  | restore (n m : Nat) (env : Env)

/-- The step of one node in the cluster. -/
def Cluster.setNode (s : Cluster) (n : Nat) (node : Node) : Cluster :=
  { s with nodes := Function.update s.nodes n node }

@[simp]
theorem Cluster.setNode_nodes_self (s : Cluster) (n : Nat) (node : Node) :
    (s.setNode n node).nodes n = node := by
  simp only [Cluster.setNode, Function.update_self]

theorem Cluster.setNode_nodes_of_ne (s : Cluster) {n m : Nat} (node : Node) (h : m ≠ n) :
    (s.setNode n node).nodes m = s.nodes m := by
  simp only [Cluster.setNode, Function.update_of_ne h]

/-- A property of every node after the step of one. -/
theorem Cluster.setNode_forall (s : Cluster) {P : Nat → Node → Prop} (h : ∀ m, P m (s.nodes m))
    {n : Nat} {node : Node} (hn : P n node) (m : Nat) : P m ((s.setNode n node).nodes m) :=
  (Function.forall_update_iff s.nodes P).mpr ⟨hn, fun m _ => h m⟩ m

/-- The cluster as a machine. -/
def cluster {β : Type} (codec : SnapshotCodec β) : Machine Cluster ClusterStep where
  init := { nodes := fun _ => .new, committed := [] }
  step s
    | .lead n isLeader => some (s.setNode n { s.nodes n with isLeader := isLeader })
    | .submit n h => some (s.setNode n ((s.nodes n).startHandler n h))
    | .subscribe n k => ((s.nodes n).subscribe k).map (s.setNode n)
    | .receive n k => ((s.nodes n).receive n k).map (s.setNode n)
    | .disconnect n k => ((s.nodes n).disconnect k).map (s.setNode n)
    | .expire n now order => ((s.nodes n).expire now order).map (s.setNode n)
    | .changeConfig n cc => ((s.nodes n).changeConfig cc).map (s.setNode n)
    | .replace n m keep len =>
      if (s.nodes n).applied ≤ keep ∧ keep ≤ (s.nodes n).log.length then
        some (s.setNode n { s.nodes n with
          log := (s.nodes n).log.take keep ++ ((s.nodes m).log.drop keep).take len })
      else none
    | .commit n =>
      match (s.nodes n).log[s.committed.length]? with
      | none => none
      | some e =>
        if (s.nodes n).log.take s.committed.length = s.committed then
          some { s with committed := s.committed ++ [e] }
        else none
    | .apply n env =>
      match (s.nodes n).sending, (s.nodes n).log[(s.nodes n).applied]? with
      | none, some item =>
        if s.committed[(s.nodes n).applied]? = some item then
          some (s.setNode n ((s.nodes n).applyItem codec env item))
        else none
      | _, _ => none
    | .send n => ((s.nodes n).send).map (s.setNode n)
    | .restore n m env =>
      if (s.nodes n).sending = none ∧ (s.nodes n).applied < (s.nodes m).applied then
        ((s.nodes m).service.encodeSnapshot codec env.snapshotKeys).map fun data =>
          s.setNode n ((s.nodes n).restore codec ((s.nodes m).applied - 1) data s.committed)
      else none

end Zodiac
