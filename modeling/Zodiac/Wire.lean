import Zodiac.JsonText
import Zodiac.Revision

/-!
# Requests on the wire

The other modules hand the requests of `KVClient` to the handlers as they are. Here they go as
text: `sendJSONRequest` of `kvclient.go` writes the request as JSON, the mux finds the handler by
the path, and `readRequestJSON` refuses members that the request does not have.

* `Route`: the handlers with their paths, and the structs of `api.go` with their JSON names.
* `KVRequest.wire`, `KVRequest.ofWire`: the values of the request structs.
* `request_as_sent`: the command of the request that was sent is submitted, or none, wherever the
  body is cut.
* `accepted_requests`: what a request can be that a handler accepts.
-/

namespace Zodiac

open TypedJson JsonText

/-! ## The structs of `api.go` -/

/-- The handlers that go through the log. -/
inductive Route
  | get
  | put
  | append
  | cas
  | list
  | txn
  | leaseGrant
  | leaseKeepAlive
  | leaseRevoke
deriving DecidableEq

namespace Route

def all : List Route :=
  [.get, .put, .append, .cas, .list, .txn, .leaseGrant, .leaseKeepAlive, .leaseRevoke]

/-- The path in the pattern of `ServeHTTP`. The method of each is POST. -/
def pattern : Route → String
  | .get => "/get/"
  | .put => "/put/"
  | .append => "/append/"
  | .cas => "/cas/"
  | .list => "/list/"
  | .txn => "/txn/"
  | .leaseGrant => "/lease/grant/"
  | .leaseKeepAlive => "/lease/keepalive/"
  | .leaseRevoke => "/lease/revoke/"

/-- The route that the client's method passes to `send`. -/
def name : Route → String
  | .get => "get"
  | .put => "put"
  | .append => "append"
  | .cas => "cas"
  | .list => "list"
  | .txn => "txn"
  | .leaseGrant => "lease/grant"
  | .leaseKeepAlive => "lease/keepalive"
  | .leaseRevoke => "lease/revoke"

/-- The path of the requests that `send` makes. -/
def path (route : Route) : String := "/" ++ route.name ++ "/"

def url (route : Route) (addr : String) : String := "http://" ++ addr ++ route.path

end Route

/-- `api.TxnCondition`. -/
abbrev conditionFields : Fields :=
  .cons "key" false .string <| .cons "compare" false .int <| .cons "value" false .string .nil

/-- `api.TxnOp`. -/
abbrev opFields : Fields :=
  .cons "op" false .int <| .cons "key" false .string <| .cons "value" true .string <|
  .cons "compare_value" true .string <| .cons "lease_id" true .int .nil

/-- `api.TxnOpResult`. -/
abbrev opResultFields : Fields :=
  .cons "key" false .string <| .cons "prev_value" true .string <| .cons "key_found" false .bool .nil

/-- The struct of the request. -/
abbrev Route.request : Route → Fields
  | .get =>
    .cons "Key" false .string <| .cons "ClientID" false .int <| .cons "RequestID" false .int .nil
  | .put =>
    .cons "Key" false .string <| .cons "Value" false .string <| .cons "ClientID" false .int <|
    .cons "RequestID" false .int <| .cons "LeaseID" false .int .nil
  | .append =>
    .cons "Key" false .string <| .cons "Value" false .string <| .cons "ClientID" false .int <|
    .cons "RequestID" false .int .nil
  | .cas =>
    .cons "Key" false .string <| .cons "CompareValue" false .string <|
    .cons "Value" false .string <| .cons "ClientID" false .int <| .cons "RequestID" false .int .nil
  | .list =>
    .cons "Prefix" false .string <| .cons "Limit" false .int <| .cons "KeyAfter" false .string <|
    .cons "ClientID" false .int <| .cons "RequestID" false .int .nil
  | .txn =>
    .cons "conditions" false (.slice (.struct conditionFields)) <|
    .cons "success" false (.slice (.struct opFields)) <|
    .cons "failure" false (.slice (.struct opFields)) <|
    .cons "clientID" false .int <| .cons "requestID" false .int .nil
  | .leaseGrant =>
    .cons "ttl" false .int <| .cons "clientID" false .int <| .cons "requestID" false .int .nil
  | .leaseKeepAlive =>
    .cons "id" false .int <| .cons "clientID" false .int <| .cons "requestID" false .int .nil
  | .leaseRevoke =>
    .cons "id" false .int <| .cons "clientID" false .int <| .cons "requestID" false .int .nil

/-- The name of the status, which comes first in every response. -/
abbrev Route.statusName : Route → String
  | .get | .put | .append | .cas | .list => "RespStatus"
  | .txn | .leaseGrant | .leaseKeepAlive | .leaseRevoke => "resp_status"

/-- The fields of the response after its status. -/
abbrev Route.body : Route → Fields
  | .get =>
    .cons "KeyFound" false .bool <| .cons "Value" false .string <| .cons "Revision" false .int .nil
  | .put | .append | .cas =>
    .cons "KeyFound" false .bool <| .cons "PrevValue" false .string <|
    .cons "Revision" false .int .nil
  | .list =>
    .cons "Pairs" false .map <| .cons "NextKey" false .string <| .cons "Revision" false .int .nil
  | .txn =>
    .cons "succeeded" false .bool <| .cons "results" false (.slice (.struct opResultFields)) <|
    .cons "revision" false .int .nil
  | .leaseGrant => .cons "id" false .int <| .cons "ttl" false .int .nil
  | .leaseKeepAlive => .cons "id" false .int .nil
  | .leaseRevoke => .nil

/-- The struct of the response. -/
abbrev Route.response (route : Route) : Fields := .cons route.statusName false .int route.body

/-! ## Requests -/

/-- The integer of an `api.CompareOp`. -/
def CompareOp.code : CompareOp → Int
  | .eq => 0
  | .neq => 1
  | .gte => 2
  | .lte => 3
  | .exists => 4
  | .notExists => 5
  | .unknown code => code

def CompareOp.ofCode (code : Int) : CompareOp :=
  match code with
  | 0 => .eq
  | 1 => .neq
  | 2 => .gte
  | 3 => .lte
  | 4 => .exists
  | 5 => .notExists
  | code => .unknown code

/-- The integer of an `api.TxnOpType`. -/
def TxnOpType.code : TxnOpType → Int
  | .put => 0
  | .delete => 1
  | .cas => 2
  | .append => 3
  | .unknown code => code

def TxnOpType.ofCode (code : Int) : TxnOpType :=
  match code with
  | 0 => .put
  | 1 => .delete
  | 2 => .cas
  | 3 => .append
  | code => .unknown code

/-- Which of the slices of a transaction are nil when they have no elements. That is up to the
caller of `Txn`. -/
structure NilSlices where
  conditions : Bool := false
  success : Bool := false
  failure : Bool := false

/-- A slice, which may be nil if it has no elements. -/
def slice {α : Type} (isNil : Bool) (l : List α) : Slice α :=
  if isNil && l.isEmpty then none else some (l, [])

def TxnCondition.wire (c : TxnCondition) : conditionFields.Val :=
  (c.key, c.compare.code, c.value, ())

def TxnCondition.ofWire : conditionFields.Val → TxnCondition
  | (key, compare, value, ()) => { key := key, compare := .ofCode compare, value := value }

def TxnOp.wire (op : TxnOp) : opFields.Val :=
  (op.op.code, op.key, op.value, op.compareValue, op.leaseID, ())

def TxnOp.ofWire : opFields.Val → TxnOp
  | (op, key, value, compareValue, leaseID, ()) =>
    { op := .ofCode op, key := key, value := value, compareValue := compareValue,
      leaseID := leaseID }

def KVRequest.route : KVRequest → Route
  | .get _ => .get
  | .put _ => .put
  | .append _ => .append
  | .cas _ => .cas
  | .list _ => .list
  | .txn _ => .txn
  | .leaseGrant _ => .leaseGrant
  | .leaseKeepAlive _ => .leaseKeepAlive
  | .leaseRevoke _ => .leaseRevoke

/-- The value of the request struct. -/
def KVRequest.wire (nils : NilSlices) : (req : KVRequest) → req.route.request.Val
  | .get gr => (gr.key, gr.clientID, gr.requestID, ())
  | .put pr => (pr.key, pr.value, pr.clientID, pr.requestID, pr.leaseID, ())
  | .append ar => (ar.key, ar.value, ar.clientID, ar.requestID, ())
  | .cas cr => (cr.key, cr.compareValue, cr.value, cr.clientID, cr.requestID, ())
  | .list lr => (lr.pre, lr.limit, lr.keyAfter, lr.clientID, lr.requestID, ())
  | .txn tr => (slice nils.conditions (tr.conditions.map TxnCondition.wire),
      slice nils.success (tr.success.map TxnOp.wire),
      slice nils.failure (tr.failure.map TxnOp.wire), tr.clientID, tr.requestID, ())
  | .leaseGrant lr => (lr.ttl, lr.clientID, lr.requestID, ())
  | .leaseKeepAlive lkr => (lkr.id, lkr.clientID, lkr.requestID, ())
  | .leaseRevoke lrr => (lrr.id, lrr.clientID, lrr.requestID, ())

/-- The request that a handler has in its struct. -/
def KVRequest.ofWire : (route : Route) → route.request.Val → KVRequest
  | .get, (key, clientID, requestID, ()) =>
    .get { key := key, clientID := clientID, requestID := requestID }
  | .put, (key, value, clientID, requestID, leaseID, ()) =>
    .put { key := key, value := value, leaseID := leaseID, clientID := clientID,
           requestID := requestID }
  | .append, (key, value, clientID, requestID, ()) =>
    .append { key := key, value := value, clientID := clientID, requestID := requestID }
  | .cas, (key, compareValue, value, clientID, requestID, ()) =>
    .cas { key := key, compareValue := compareValue, value := value, clientID := clientID,
           requestID := requestID }
  | .list, (pre, limit, keyAfter, clientID, requestID, ()) =>
    .list { pre := pre, limit := limit, keyAfter := keyAfter, clientID := clientID,
            requestID := requestID }
  | .txn, (conditions, success, failure, clientID, requestID, ()) =>
    .txn { conditions := conditions.elems.map TxnCondition.ofWire,
           success := success.elems.map TxnOp.ofWire,
           failure := failure.elems.map TxnOp.ofWire,
           clientID := clientID, requestID := requestID }
  | .leaseGrant, (ttl, clientID, requestID, ()) =>
    .leaseGrant { ttl := ttl, clientID := clientID, requestID := requestID }
  | .leaseKeepAlive, (id, clientID, requestID, ()) =>
    .leaseKeepAlive { id := id, clientID := clientID, requestID := requestID }
  | .leaseRevoke, (id, clientID, requestID, ()) =>
    .leaseRevoke { id := id, clientID := clientID, requestID := requestID }

/-- A request as far as the mux and the handlers look at it. `err` is the error that the decoder
of the body gives if it fails. -/
structure HttpRequest where
  method : String
  path : String
  contentType : String
  body : Bytes
  err : String

/-- The request that `sendJSONRequest` makes. An `Encoder` ends the value with a line break. -/
def Route.post (route : Route) (reqData : route.request.Val) (err : String) : HttpRequest where
  method := "POST"
  path := route.path
  contentType := "application/json"
  body := writeJson ((GoType.struct route.request).encode reqData) ++ [newline]
  err := err

/-- What the handlers use of `mime`. -/
structure Mime where
  parseMediaType : String → Except String String
  parseMediaType_json : parseMediaType "application/json" = .ok "application/json"

/-- The handler of one of the routes that the mux finds. -/
def route? (req : HttpRequest) : Option Route :=
  if req.method = "POST" then Route.all.find? fun route => hasPrefix req.path route.pattern
  else none

/-- The decoder with `DisallowUnknownFields`, on a JSON value. -/
def Route.decode (route : Route) (j : Json) : Option route.request.Val :=
  (GoType.struct route.request).decode true j route.request.zero

/-- `readRequestJSON` for the struct of a handler. -/
def readRequestJSON (mime : Mime) (route : Route) (req : HttpRequest) :
    Except String route.request.Val := do
  let mediaType ← mime.parseMediaType req.contentType
  if mediaType ≠ "application/json" then
    .error ("expect application/json Content-Type, got " ++ mediaType)
  else match (readFirst req.body).bind route.decode with
    | some target => .ok target
    | none => .error req.err

/-- What the service does with a request: it submits a command, it answers with an error of its
own, or it does something else. -/
inductive Served
  | submitted (cmd : Command)
  | badRequest (text : String)
  | elsewhere

/-- The mux, and the handlers up to `Submit`, on the node `id`. -/
def serve (mime : Mime) (id : Nat) (req : HttpRequest) : Served :=
  match route? req with
  | none => .elsewhere
  | some route =>
    match readRequestJSON mime route req with
    | .error err => .badRequest err
    | .ok target => .submitted ((KVRequest.ofWire route target).handler.command id)

/-! ## Requests that can be sent -/

/-- The comparison has an integer of 64 bits, and `unknown` is not one of the others. -/
def TxnCondition.Sendable (c : TxnCondition) : Prop :=
  IsInt64 c.compare.code ∧ CompareOp.ofCode c.compare.code = c.compare

def TxnOp.Sendable (op : TxnOp) : Prop :=
  IsInt64 op.op.code ∧ TxnOpType.ofCode op.op.code = op.op ∧ IsInt64 op.leaseID

/-- Every integer has 64 bits. -/
def KVRequest.Sendable : KVRequest → Prop
  | .get gr => IsInt64 gr.clientID ∧ IsInt64 gr.requestID
  | .put pr => IsInt64 pr.clientID ∧ IsInt64 pr.requestID ∧ IsInt64 pr.leaseID
  | .append ar => IsInt64 ar.clientID ∧ IsInt64 ar.requestID
  | .cas cr => IsInt64 cr.clientID ∧ IsInt64 cr.requestID
  | .list lr => IsInt64 lr.limit ∧ IsInt64 lr.clientID ∧ IsInt64 lr.requestID
  | .txn tr => (∀ c ∈ tr.conditions, c.Sendable) ∧ (∀ op ∈ tr.success, op.Sendable) ∧
      (∀ op ∈ tr.failure, op.Sendable) ∧ IsInt64 tr.clientID ∧ IsInt64 tr.requestID
  | .leaseGrant lr => IsInt64 lr.ttl ∧ IsInt64 lr.clientID ∧ IsInt64 lr.requestID
  | .leaseKeepAlive lkr => IsInt64 lkr.id ∧ IsInt64 lkr.clientID ∧ IsInt64 lkr.requestID
  | .leaseRevoke lrr => IsInt64 lrr.id ∧ IsInt64 lrr.clientID ∧ IsInt64 lrr.requestID

namespace WireLemmas

open JsonTextLemmas

/-! ## The structs -/

theorem distinct_request (route : Route) : route.request.distinct = true := by
  cases route <;> decide

theorem plain_request (route : Route) : route.request.plain = true := by
  cases route <;> rfl

/-! ## Requests -/

theorem code_ofCode_compare (code : Int) : (CompareOp.ofCode code).code = code := by
  unfold CompareOp.ofCode
  split <;> rfl

theorem code_ofCode_op (code : Int) : (TxnOpType.ofCode code).code = code := by
  unfold TxnOpType.ofCode
  split <;> rfl

theorem elems_slice {α : Type} (isNil : Bool) (l : List α) : (slice isNil l).elems = l := by
  unfold slice
  split
  · next h =>
    rw [Bool.and_eq_true, List.isEmpty_iff] at h
    exact h.2.symm
  · rfl

section

variable {tight : Bool}

theorem fits_nilSlice {elem : GoType} {isNil : Bool} {l : List elem.Val}
    (h : ∀ v ∈ l, elem.Fits tight v) : (GoType.slice elem).Fits tight (slice isNil l) := by
  unfold slice
  split
  · exact (GoType.slice elem).fits_zero
  · exact fits_slice h

theorem fits_int {v : GoType.int.Val} : GoType.int.Fits tight v ↔ IsInt64 v := Iff.rfl

theorem fits_condition {v : conditionFields.Val} :
    conditionFields.Fits tight v ↔ IsInt64 v.2.1 := by
  simp only [fits_cons, fits_nil, fits_string, fits_int, true_and, and_true]

theorem fits_op {v : opFields.Val} :
    opFields.Fits tight v ↔ IsInt64 v.1 ∧ IsInt64 v.2.2.2.2.1 := by
  have hstring : GoType.string.scalar = true := rfl
  have hint : GoType.int.scalar = true := rfl
  simp only [fits_cons, fits_omitempty hstring, fits_omitempty hint, fits_nil, fits_string,
    fits_int, true_and, and_true]

end

theorem fits_wire {req : KVRequest} (h : req.Sendable) (nils : NilSlices) :
    req.route.request.Fits true (req.wire nils) := by
  cases req <;> simp only [KVRequest.Sendable] at h
  case txn tr =>
    obtain ⟨hconditions, hsuccess, hfailure, hids⟩ := h
    have hops {ops : List TxnOp} (h : ∀ op ∈ ops, op.Sendable) :
        ∀ v ∈ ops.map TxnOp.wire, opFields.Fits true v := by
      intro v hv
      obtain ⟨op, hop, rfl⟩ := List.mem_map.mp hv
      exact fits_op.mpr ⟨(h op hop).1, (h op hop).2.2⟩
    simp only [KVRequest.route, KVRequest.wire, fits_cons]
    refine ⟨fits_nilSlice ?_, fits_nilSlice (hops hsuccess), fits_nilSlice (hops hfailure), hids.1,
      hids.2, trivial⟩
    intro v hv
    obtain ⟨c, hc, rfl⟩ := List.mem_map.mp hv
    exact fits_condition.mpr (hconditions c hc).1
  all_goals
    simp only [KVRequest.route, KVRequest.wire, fits_cons, fits_nil, fits_string, fits_int, h,
      and_true]

theorem ofWire_wire {req : KVRequest} (h : req.Sendable) (nils : NilSlices) :
    KVRequest.ofWire req.route (req.wire nils) = req := by
  cases req with
  | txn tr =>
    obtain ⟨hconditions, hsuccess, hfailure, -⟩ := h
    have hops {ops : List TxnOp} (h : ∀ op ∈ ops, op.Sendable) :
        (ops.map TxnOp.wire).map TxnOp.ofWire = ops := by
      rw [List.map_map]
      refine (List.map_congr_left fun op hop => ?_).trans (List.map_id ops)
      simp only [Function.comp, TxnOp.wire, TxnOp.ofWire, (h op hop).2.1, id]
    have hconds :
        (tr.conditions.map TxnCondition.wire).map TxnCondition.ofWire = tr.conditions := by
      rw [List.map_map]
      refine (List.map_congr_left fun c hc => ?_).trans (List.map_id tr.conditions)
      simp only [Function.comp, TxnCondition.wire, TxnCondition.ofWire, (hconditions c hc).2, id]
    simp only [KVRequest.route, KVRequest.wire, KVRequest.ofWire, elems_slice, hops hsuccess,
      hops hfailure, hconds]
  | put _ | append _ | get _ | cas _ | list _ => rfl
  | leaseGrant _ | leaseKeepAlive _ | leaseRevoke _ => rfl

theorem sendable_ofWire {route : Route} {v : route.request.Val} (h : route.request.Fits false v) :
    (KVRequest.ofWire route v).Sendable := by
  cases route
  case txn =>
    obtain ⟨conditions, success, failure, clientID, requestID, _⟩ := v
    simp only [fits_cons, fits_int] at h
    obtain ⟨hconditions, hsuccess, hfailure, hclient, hrequest, -⟩ := h
    have hops {ops : (GoType.slice (.struct opFields)).Val}
        (h : (GoType.slice (.struct opFields)).Fits false ops) :
        ∀ op ∈ ops.elems.map TxnOp.ofWire, op.Sendable := by
      intro op hop
      obtain ⟨v, hv, rfl⟩ := List.mem_map.mp hop
      obtain ⟨hcode, hlease⟩ := fits_op.mp (h.1 v (List.mem_append_left _ hv))
      refine ⟨?_, ?_, hlease⟩
      · exact (code_ofCode_op v.1).symm ▸ hcode
      · exact congrArg TxnOpType.ofCode (code_ofCode_op v.1)
    refine ⟨?_, hops hsuccess, hops hfailure, hclient, hrequest⟩
    intro c hc
    obtain ⟨v, hv, rfl⟩ := List.mem_map.mp hc
    have hcode := fits_condition.mp (hconditions.1 v (List.mem_append_left _ hv))
    refine ⟨?_, ?_⟩
    · exact (code_ofCode_compare v.2.1).symm ▸ hcode
    · exact congrArg CompareOp.ofCode (code_ofCode_compare v.2.1)
  all_goals
    simp only [fits_cons, fits_nil, fits_string, fits_int, true_and, and_true] at h
    simpa only [KVRequest.ofWire, KVRequest.Sendable] using h

/-! ## Serving -/

theorem route?_post (route : Route) (v : route.request.Val) (err : String) (body : Bytes) :
    route? { route.post v err with body := body } = some route := by
  have hfind : Route.all.find? (fun r => hasPrefix route.path r.pattern) = some route := by
    cases route <;> decide
  exact (if_pos rfl).trans hfind

theorem decode_encode_request {route : Route} {v : route.request.Val}
    (h : route.request.Fits true v) : route.decode ((GoType.struct route.request).encode v) = some v :=
  (GoType.struct route.request).decode_encode (distinct_request route) v _ h
    (GoType.struct route.request).clean_zero

/-- The service, on a body that comes with the request of a client. -/
theorem serve_post (mime : Mime) (id : Nat) (route : Route) (v : route.request.Val) (err : String)
    (body : Bytes) : serve mime id { route.post v err with body := body } =
      match (readFirst body).bind route.decode with
      | some target => .submitted ((KVRequest.ofWire route target).handler.command id)
      | none => .badRequest err := by
  have hread : readRequestJSON mime route { route.post v err with body := body } =
      match (readFirst body).bind route.decode with
      | some target => .ok target
      | none => .error err := by
    show (mime.parseMediaType "application/json").bind _ = _
    rw [mime.parseMediaType_json]
    rfl
  rw [serve, route?_post]
  dsimp only
  rw [hread]
  cases (readFirst body).bind route.decode <;> rfl

/-- The JSON value of a request. -/
def sent (req : KVRequest) (nils : NilSlices) : Json :=
  .object (req.route.request.encode (req.wire nils))

theorem body_post (req : KVRequest) (nils : NilSlices) (err : String) :
    (req.route.post (req.wire nils) err).body = writeJson (sent req nils) ++ [newline] := by
  rw [Route.post, GoType.encode, sent]

theorem serve_sent (mime : Mime) (id : Nat) {req : KVRequest} (hreq : req.Sendable)
    (nils : NilSlices) (err : String) {body : Bytes}
    (hbody : readFirst body = some (sent req nils)) :
    serve mime id { req.route.post (req.wire nils) err with body := body } =
      .submitted (req.handler.command id) := by
  have hdecode : req.route.decode (sent req nils) = some (req.wire nils) := by
    rw [sent, ← GoType.encode]
    exact decode_encode_request (fits_wire hreq nils)
  rw [serve_post, hbody, Option.bind_some, hdecode]
  dsimp only
  rw [ofWire_wire hreq]

theorem stops_newline : Stops [newline] := stops_cons (by decide) []

theorem object_of_decode {route : Route} {j : Json} {v : route.request.Val}
    (h : route.decode j = some v) :
    (j = .null ∧ v = route.request.zero) ∨ ∃ members, j = .object members := by
  unfold Route.decode at h
  cases j with
  | null =>
    cases h
    exact .inl ⟨rfl, rfl⟩
  | object members => exact .inr ⟨members, rfl⟩
  | bool _ | number _ | text _ | array _ => cases h

end WireLemmas

open WireLemmas JsonTextLemmas

/-! ## Main results -/

/-- What a client sends is what a handler submits: the service gives Raft the command of the
request. Its keys and values are valid UTF-8, as all of Lean's strings are. If only a first part
of the body arrives, it is the same command, as long as the closing brace is there, and otherwise
the request is refused. -/
theorem request_as_sent (mime : Mime) (id : Nat) {req : KVRequest} (hreq : req.Sendable)
    (nils : NilSlices) (err : String) {p : Bytes}
    (hp : p <+: (req.route.post (req.wire nils) err).body) :
    serve mime id { req.route.post (req.wire nils) err with body := p } =
      if (req.route.post (req.wire nils) err).body.length ≤ p.length + 1 then
        .submitted (req.handler.command id)
      else .badRequest err := by
  rw [body_post] at hp ⊢
  have hpart := readFirst_part stops_newline hp
  rw [List.length_append, List.length_singleton]
  by_cases hlen : (writeJson (sent req nils)).length ≤ p.length
  · rw [if_pos (Nat.succ_le_succ hlen)]
    exact serve_sent mime id hreq nils err (hpart.trans (if_pos hlen))
  · rw [if_neg fun hle => hlen (Nat.le_of_succ_le_succ hle), serve_post,
      hpart.trans (if_neg hlen)]
    rfl

/-- A parser of media types that takes every text for one. -/
def anyMediaType : Mime where
  parseMediaType := .ok
  parseMediaType_json := rfl

/-- A transaction that deletes a key, without conditions. -/
def deleteTxn : KVRequest :=
  .txn { conditions := [], success := [{ op := .delete, key := "a\"b" }], failure := [],
         clientID := 1, requestID := 7 }

/-- Its body arrives up to the line break, or without the closing brace. -/
theorem request_as_sent_delete :
    serve anyMediaType 0 { deleteTxn.route.post (deleteTxn.wire {}) "unexpected EOF" with
      body := (deleteTxn.route.post (deleteTxn.wire {}) "unexpected EOF").body } =
        .submitted (deleteTxn.handler.command 0) ∧
    serve anyMediaType 0 { deleteTxn.route.post (deleteTxn.wire {}) "unexpected EOF" with
      body := [] } = .badRequest "unexpected EOF" := by
  have hsendable : deleteTxn.Sendable := by
    refine ⟨by simp, ?_, by simp, by decide, by decide⟩
    simp only [List.forall_mem_singleton]
    exact ⟨by decide, by decide, by decide⟩
  refine ⟨?_, ?_⟩
  · rw [request_as_sent anyMediaType 0 hsendable {} _ (List.prefix_refl _)]
    exact if_pos (Nat.le_succ _)
  · rw [request_as_sent anyMediaType 0 hsendable {} _ List.nil_prefix]
    refine if_neg (Nat.not_le_of_lt ?_)
    rw [body_post, List.length_append]
    exact Nat.lt_add_of_pos_left (one_le_write _)

/-- Whatever JSON value a handler takes for a request, it is `null`, which is a request with zero
values only, or an object that has no members but those of the request. The request is one that a
client could have sent, and a client that sends it gets the same command. -/
theorem accepted_requests {route : Route} {j : Json} {v : route.request.Val}
    (h : route.decode j = some v) :
    ((j = .null ∧ v = route.request.zero) ∨ ∃ members, j = .object members ∧
      ∀ member ∈ members, ∃ name ∈ route.request.names, sameFold member.1 name = true) ∧
    (KVRequest.ofWire route v).Sendable ∧
    ∀ mime id nils err,
      serve mime id
          ((KVRequest.ofWire route v).route.post ((KVRequest.ofWire route v).wire nils) err) =
        .submitted ((KVRequest.ofWire route v).handler.command id) := by
  have hfits : route.request.Fits false v :=
    (GoType.struct route.request).fits_of_decode (plain_request route)
      (GoType.struct route.request).fits_zero h
  have hsendable := sendable_ofWire hfits
  refine ⟨?_, hsendable, fun mime id nils err => ?_⟩
  · rcases object_of_decode h with hnull | ⟨members, rfl⟩
    · exact .inl hnull
    · exact .inr ⟨members, rfl, known_of_decode h⟩
  · have hbody := readFirst_write (sent (KVRequest.ofWire route v) nils) stops_newline
    rw [← body_post _ nils err] at hbody
    exact serve_sent mime id hsendable nils err hbody

/-- A field with another case, and fields that are missing. -/
theorem accepted_requests_lowercase :
    (KVRequest.ofWire .get ("k", 0, 0, ())).Sendable ∧
    ∀ mime id nils err,
      serve mime id ((KVRequest.ofWire .get ("k", 0, 0, ())).route.post
        ((KVRequest.ofWire .get ("k", 0, 0, ())).wire nils) err) =
          .submitted ((handleGet { key := "k" }).command id) := by
  have hdecode : Route.get.decode (.object [("key", .text "k")]) = some ("k", 0, 0, ()) := by rfl
  exact (accepted_requests hdecode).2

-- the third list is read into what the first two have left
example : (Route.txn.decode (.object
    [("success", .array [.object [("key", .text "p")], .object [("key", .text "q")]]),
      ("success", .array [.object [("key", .text "r")]]),
      ("success", .array [.object [], .object []])])).map (fun v => v.2.1.elems.map (·.2.1)) =
    some ["r", "q"] := by rfl

end Zodiac
