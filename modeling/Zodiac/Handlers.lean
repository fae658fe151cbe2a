import Zodiac.Service

/-!
# The request handlers

The nine handlers of `kvservice.go` that go through the log have one shape:
build a command, submit it, wait for the commit subscription, answer. `Handler`
holds what distinguishes them, and `Handler.respond` is the common tail. Each
handler below is named as in the source and is given by its request.

The read handlers answer a duplicate like any other read; the keepalive handler
answers the same whether or not the lease was found.
-/

namespace Zodiac

/-! ## Requests -/

/-- `api.PutRequest`. -/
structure PutRequest where
  key : String
  value : String
  leaseID : Int := 0
  clientID : Int := 0
  requestID : Int := 0

/-- `api.AppendRequest`. -/
structure AppendRequest where
  key : String
  value : String
  clientID : Int := 0
  requestID : Int := 0

/-- `api.GetRequest`. -/
structure GetRequest where
  key : String
  clientID : Int := 0
  requestID : Int := 0

/-- `api.CASRequest`. -/
structure CASRequest where
  key : String
  compareValue : String
  value : String
  clientID : Int := 0
  requestID : Int := 0

/-- `api.ListRequest`. -/
structure ListRequest where
  pre : String
  limit : Int := 0
  keyAfter : String := ""
  clientID : Int := 0
  requestID : Int := 0

/-- `api.TxnRequest`. -/
structure TxnRequest where
  conditions : List TxnCondition
  success : List TxnOp
  failure : List TxnOp
  clientID : Int := 0
  requestID : Int := 0

/-- `api.LeaseGrantRequest`. -/
structure LeaseGrantRequest where
  ttl : Int
  clientID : Int := 0
  requestID : Int := 0

/-- `api.LeaseKeepAliveRequest` and `api.LeaseRevokeRequest`. -/
structure LeaseRequest where
  id : Int
  clientID : Int := 0
  requestID : Int := 0

/-! ## Responses -/

/-- `api.ResponseStatus`, without the zero value `StatusInvalid`. -/
inductive ResponseStatus
  | ok
  | notLeader
  | failedCommit
  | duplicateRequest
deriving DecidableEq, Repr

/-- What a response carries besides its status. `PutResponse`, `AppendResponse`
and `CASResponse` have the same fields. -/
inductive Body
  | prev (keyFound : Bool) (prevValue : String) (revision : Int)
  | value (keyFound : Bool) (value : String) (revision : Int)
  | page (pairs : GoMap String String) (nextKey : String) (revision : Int)
  | txn (succeeded : Bool) (results : List TxnOpResult) (revision : Int)
  | granted (id ttl : Int)
  | kept (id : Int)
  | revoked
deriving DecidableEq

/-- A response; only OK responses carry a body. -/
inductive Response
  | ok (body : Body)
  | notLeader
  | failedCommit
  | duplicateRequest
deriving DecidableEq

/-- The status of a response. -/
def Response.status : Response → ResponseStatus
  | .ok _ => .ok
  | .notLeader => .notLeader
  | .failedCommit => .failedCommit
  | .duplicateRequest => .duplicateRequest

/-! ## Handlers -/

/-- One handler at work on one request. `command id` is the command that the node
`id` submits; `rejects` is the test for `StatusDuplicateRequest`; `body` is the
OK response, or none where building it panics. Every handler stamps the command
with the id of its node. -/
structure Handler where
  command : Nat → Command
  rejects : CommitCmd → Bool
  body : CommitCmd → Option Body
  command_serviceID : ∀ id, (command id).serviceID = id

/-- The tail of every handler, after the receive from the subscription: `none` is
a channel that was closed without a command. A panic gives no response. -/
def Handler.respond (h : Handler) (id : Nat) : Option CommitCmd → Option Response
  | none => some .failedCommit
  | some commitCmd =>
    if commitCmd.serviceID = id then
      if h.rejects commitCmd then some .duplicateRequest else (h.body commitCmd).map .ok
    else some .failedCommit

/-- The OK response of the handlers that write one key. -/
def prevBody (c : CommitCmd) : Option Body := some (.prev c.resultFound c.resultValue c.revision)

/-- `handlePut`. -/
def handlePut (pr : PutRequest) : Handler where
  command id :=
    { kind := .put, key := pr.key, value := pr.value, leaseID := pr.leaseID, serviceID := id,
      clientID := pr.clientID, requestID := pr.requestID }
  rejects c := c.isDuplicate
  body := prevBody
  command_serviceID _ := rfl

/-- `handleAppend`. -/
def handleAppend (ar : AppendRequest) : Handler where
  command id :=
    { kind := .append, key := ar.key, value := ar.value, serviceID := id, clientID := ar.clientID,
      requestID := ar.requestID }
  rejects c := c.isDuplicate
  body := prevBody
  command_serviceID _ := rfl

/-- `handleGet`. -/
def handleGet (gr : GetRequest) : Handler where
  command id :=
    { kind := .get, key := gr.key, serviceID := id, clientID := gr.clientID,
      requestID := gr.requestID }
  rejects c := c.isDuplicate && c.kind != .get
  body c := some (.value c.resultFound c.resultValue c.revision)
  command_serviceID _ := rfl

/-- `handleCAS`. -/
def handleCAS (cr : CASRequest) : Handler where
  command id :=
    { kind := .cas, key := cr.key, value := cr.value, compareValue := cr.compareValue,
      serviceID := id, clientID := cr.clientID, requestID := cr.requestID }
  rejects c := c.isDuplicate
  body := prevBody
  command_serviceID _ := rfl

/-- `handleList`. -/
def handleList (lr : ListRequest) : Handler where
  command id :=
    { kind := .list, key := lr.pre, limit := lr.limit, keyAfter := lr.keyAfter, serviceID := id,
      clientID := lr.clientID, requestID := lr.requestID }
  rejects c := c.isDuplicate && c.kind != .list
  body c := some (.page c.resultPairs c.resultValue c.revision)
  command_serviceID _ := rfl

/-- `handleTxn`. The response reads through the pointer `TxnResult`, which only a
transaction sets. -/
def handleTxn (tr : TxnRequest) : Handler where
  command id :=
    { kind := .txn,
      txn := { conditions := tr.conditions, success := tr.success, failure := tr.failure },
      serviceID := id, clientID := tr.clientID, requestID := tr.requestID }
  rejects c := c.isDuplicate
  body c := c.txnResult.map fun r => .txn r.succeeded r.results c.revision
  command_serviceID _ := rfl

/-- `handleLeaseGrant`. A result that does not parse gives the id 0. -/
def handleLeaseGrant (lr : LeaseGrantRequest) : Handler where
  command id :=
    { kind := .leaseGrant, leaseTTL := lr.ttl, serviceID := id, clientID := lr.clientID,
      requestID := lr.requestID }
  rejects c := c.isDuplicate
  body c := some (.granted (parseInt c.resultValue).1 lr.ttl)
  command_serviceID _ := rfl

/-- `handleLeaseKeepAlive`. Both branches on `ResultFound` answer the same. -/
def handleLeaseKeepAlive (lkr : LeaseRequest) : Handler where
  command id :=
    { kind := .leaseKeepAlive, leaseID := lkr.id, serviceID := id, clientID := lkr.clientID,
      requestID := lkr.requestID }
  rejects c := c.isDuplicate
  body c := if c.resultFound then some (.kept lkr.id) else some (.kept lkr.id)
  command_serviceID _ := rfl

/-- `handleLeaseRevoke`. -/
def handleLeaseRevoke (lrr : LeaseRequest) : Handler where
  command id :=
    { kind := .leaseRevoke, leaseID := lrr.id, serviceID := id, clientID := lrr.clientID,
      requestID := lrr.requestID }
  rejects c := c.isDuplicate
  body _ := some .revoked
  command_serviceID _ := rfl

/-- An OK response comes from a command of this node, and its body from that
command's results. -/
theorem Handler.respond_eq_ok {h : Handler} {id : Nat} {r : Option CommitCmd} {body : Body}
    (hr : h.respond id r = some (.ok body)) :
    ∃ c, r = some c ∧ c.serviceID = id ∧ h.body c = some body := by
  cases r with
  | none => cases hr
  | some c =>
    simp only [Handler.respond] at hr
    split at hr
    · next hid =>
      split at hr
      · cases hr
      · obtain ⟨b, hb, heq⟩ := Option.map_eq_some_iff.mp hr
        cases heq
        exact ⟨c, rfl, hid, hb⟩
    · cases hr

/-- A command that fails its handler carries the id of another node. -/
theorem Handler.serviceID_of_failedCommit {h : Handler} {id : Nat} {c : CommitCmd}
    (hr : h.respond id (some c) = some .failedCommit) : c.serviceID ≠ id := by
  intro hid
  simp only [Handler.respond, hid, if_true] at hr
  split at hr
  · cases hr
  · obtain ⟨b, _, heq⟩ := Option.map_eq_some_iff.mp hr
    cases heq

end Zodiac
