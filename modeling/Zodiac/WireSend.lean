import Zodiac.Client
import Zodiac.Wire

/-!
# Responses on the wire

`renderJSON` writes the response of a handler as JSON, and `sendJSONRequest` reads it. Each call
of `send` has one response struct, into which every round of its loop reads what it gets. A body
may be cut anywhere.

* `Response.wire`, `Body.ofWire`: the values of the response structs.
* `KVClient.sendBytes`: the loop of `send` on bytes.
* `Renders`: a response and the value that is written for it.
* `send_over_wire`: the loop on bytes does what `sendLoop` does on responses, and what it returns
  is the last response, with nothing left of the earlier ones.
-/

namespace Zodiac

open TypedJson JsonText

/-! ## Responses -/

/-- The integer of an `api.ResponseStatus`. -/
def ResponseStatus.code : ResponseStatus → Int
  | .ok => 1
  | .notLeader => 2
  | .failedCommit => 3
  | .duplicateRequest => 4

/-- The case of the switch in `send`. -/
def ResponseStatus.ofCode (code : Int) : Option ResponseStatus :=
  match code with
  | 1 => some .ok
  | 2 => some .notLeader
  | 3 => some .failedCommit
  | 4 => some .duplicateRequest
  | _ => none

def TxnOpResult.wire (r : TxnOpResult) : opResultFields.Val := (r.key, r.prevValue, r.keyFound, ())

def TxnOpResult.ofWire : opResultFields.Val → TxnOpResult
  | (key, prevValue, keyFound, ()) => { key := key, prevValue := prevValue, keyFound := keyFound }

/-- The fields of an OK response, or none if a handler of another route has made it. The results
of a transaction are never nil. The pairs are nil when `handleList` gets a command of another
kind. -/
def Body.wire (isNil : Bool) : (route : Route) → Body → Option route.body.Val
  | .get, .value keyFound text revision => some (keyFound, text, revision, ())
  | .put, .prev keyFound prevValue revision
  | .append, .prev keyFound prevValue revision
  | .cas, .prev keyFound prevValue revision => some (keyFound, prevValue, revision, ())
  | .list, .page pairs nextKey revision =>
    some (if isNil && decide (pairs = ∅) then none else some pairs, nextKey, revision, ())
  | .txn, .txn succeeded results revision =>
    some (succeeded, some (results.map TxnOpResult.wire, []), revision, ())
  | .leaseGrant, .granted id ttl => some (id, ttl, ())
  | .leaseKeepAlive, .kept id => some (id, ())
  | .leaseRevoke, .revoked => some ()
  | _, _ => none

/-- The body that a method of the client returns from its struct. -/
def Body.ofWire : (route : Route) → route.body.Val → Body
  | .get, (keyFound, text, revision, ()) => .value keyFound text revision
  | .put, (keyFound, prevValue, revision, ())
  | .append, (keyFound, prevValue, revision, ())
  | .cas, (keyFound, prevValue, revision, ()) => .prev keyFound prevValue revision
  | .list, (pairs, nextKey, revision, ()) => .page (pairs.getD ∅) nextKey revision
  | .txn, (succeeded, results, revision, ()) =>
    .txn succeeded (results.elems.map TxnOpResult.ofWire) revision
  | .leaseGrant, (id, ttl, ()) => .granted id ttl
  | .leaseKeepAlive, (id, ()) => .kept id
  | .leaseRevoke, () => .revoked

/-- The value of the response struct. Responses that are not OK have the status only. -/
def Response.wire (isNil : Bool) (route : Route) : Response → Option route.response.Val
  | .ok body => (body.wire isNil route).map fun fields => (ResponseStatus.ok.code, fields)
  | .notLeader => some (ResponseStatus.notLeader.code, route.body.zero)
  | .failedCommit => some (ResponseStatus.failedCommit.code, route.body.zero)
  | .duplicateRequest => some (ResponseStatus.duplicateRequest.code, route.body.zero)

/-- What `renderJSON` writes. -/
def renderJSON (route : Route) (v : route.response.Val) : Bytes :=
  writeJson ((GoType.struct route.response).encode v)

/-! ## `send` on bytes -/

/-- What comes of a request on the wire: an error, or a body. `err` is the error that the decoder
gives if it fails; the other two are as in `Attempt`. -/
structure Delivery where
  result : Except String Bytes
  err : String
  done : Bool
  deadlineExceeded : Bool

/-- `sendJSONRequest`, with the struct that it reads the body into. A body that is cut is refused
before anything is stored. -/
def sendJSONRequest (route : Route) (d : Delivery) (respData : route.response.Val) :
    Except String route.response.Val :=
  match d.result with
  | .error err => .error err
  | .ok body =>
    match (readFirst body).bind fun j => (GoType.struct route.response).decode false j respData with
    | some respData => .ok respData
    | none => .error ("JSON-decoding response data: " ++ d.err)

/-- Where `send` is after some rounds, as in `Sending`, with the response struct. -/
inductive SendingBytes (route : Route)
  | running (c : KVClient) (resp : route.response.Val)
  | returned (t : Nat) (c : KVClient) (resp : route.response.Val) (err : Option String)
  | panicked

/-- The first `n` rounds of `send`, the next of which has number `t`. `world t path` is what comes
of round `t` if it goes to `path`. -/
def KVClient.sendBytes (route : Route) (world : Nat → String → Delivery) :
    Nat → Nat → KVClient → route.response.Val → SendingBytes route
  | 0, _, c, resp => .running c resp
  | n + 1, t, c, resp =>
    match c.address with
    | none => .panicked
    | some addr =>
      let d := world t (route.url addr)
      match sendJSONRequest route d resp with
      | .error err =>
        if d.done then .returned t c resp (some err)
        else if d.deadlineExceeded then sendBytes route world n (t + 1) c.rotate resp
        else .returned t c resp (some err)
      | .ok resp =>
        match ResponseStatus.ofCode resp.1 with
        | some .notLeader => sendBytes route world n (t + 1) c.rotate resp
        | some .ok => .returned t c resp none
        | some .failedCommit => .returned t c resp (some "commit failed; please retry")
        | some .duplicateRequest => .returned t c resp (some "this request was already completed")
        -- the default case: panic("unreachable")
        | none => .panicked

/-- The same without the struct. -/
def SendingBytes.forget {route : Route} : SendingBytes route → Sending
  | .running c _ => .running c
  | .returned t c _ err => .returned t c err
  | .panicked => .panicked

/-- What comes of a request: an error, or the response of a handler and the number of its bytes
that arrive. -/
structure Transfer where
  result : Except String (Response × Nat)
  isNil : Bool
  err : String
  done : Bool
  deadlineExceeded : Bool

namespace Transfer

/-- The bytes of a response. -/
def rendered (route : Route) (tr : Transfer) (resp : Response) : Bytes :=
  ((resp.wire tr.isNil route).map (renderJSON route)).getD []

/-- The transfer as the client sees it. -/
def delivery (route : Route) (tr : Transfer) : Delivery where
  result := tr.result.map fun r => (tr.rendered route r.1).take r.2
  err := tr.err
  done := tr.done
  deadlineExceeded := tr.deadlineExceeded

/-- The transfer as a round of `sendLoop`. -/
def attempt (route : Route) (tr : Transfer) : Attempt :=
  match tr.result with
  | .error err => .failed err tr.done tr.deadlineExceeded
  | .ok (resp, arrived) =>
    if (tr.rendered route resp).length ≤ arrived then .answered resp
    else .failed ("JSON-decoding response data: " ++ tr.err) tr.done tr.deadlineExceeded

/-- The response is one of the handler of `req`: for a node that does not lead, or for what it
receives from its subscription. -/
def Handled (req : KVRequest) (tr : Transfer) : Prop :=
  ∀ resp arrived, tr.result = .ok (resp, arrived) → resp = .notLeader ∨
    ∃ id received, req.handler.respond id received = some resp ∧
      ∀ commitCmd ∈ received, IsInt64 commitCmd.revision

end Transfer

/-- What the client sees of the transfers. -/
def deliveries (route : Route) (world : Nat → String → Transfer) : Nat → String → Delivery :=
  fun t path => (world t path).delivery route

/-- The same for `sendLoop`, by addresses. -/
def attempts (route : Route) (world : Nat → String → Transfer) : Nat → String → Attempt :=
  fun t addr => (world t (route.url addr)).attempt route

namespace WireSendLemmas

open JsonTextLemmas WireLemmas

theorem distinct_response (route : Route) : route.response.distinct = true := by
  cases route <;> decide

/-! ## Responses -/

theorem isInt64_parseInt (s : String) : IsInt64 (parseInt s).1 := by
  unfold parseInt
  dsimp only
  generalize (s.toList.head? == some '-') = neg
  split
  · decide
  · cases neg
      <;> simp only [Bool.false_eq_true, reduceCtorEq, true_and, false_and, if_false, if_true]
      <;> split_ifs <;> unfold IsInt64 <;> omega

theorem fits_results (results : List TxnOpResult) :
    (GoType.slice (.struct opResultFields)).Fits true
      (some (results.map TxnOpResult.wire, [])) := by
  refine fits_slice fun v hv => ?_
  obtain ⟨r, -, rfl⟩ := List.mem_map.mp hv
  have hstring : GoType.string.scalar = true := rfl
  have hfits : opResultFields.Fits true r.wire := by
    simp only [fits_cons, fits_omitempty hstring, fits_nil, fits_string, fits_bool, and_true]
  exact hfits

/-- The body that a handler makes fits the struct of its route, and can be told from it. -/
theorem wire_of_handler {req : KVRequest} (hreq : req.Sendable) {commitCmd : CommitCmd}
    (hrevision : IsInt64 commitCmd.revision) {body : Body}
    (hbody : req.handler.body commitCmd = some body) (isNil : Bool) :
    ∃ fields, body.wire isNil req.route = some fields ∧ req.route.body.Fits true fields ∧
      Body.ofWire req.route fields = body := by
  cases req with
  | put pr | append ar | cas cr | get gr =>
    cases hbody
    refine ⟨_, rfl, ?_, rfl⟩
    simp only [KVRequest.route, fits_cons, fits_nil, fits_string, fits_bool, fits_int, and_true,
      hrevision]
  | list lr =>
    cases hbody
    refine ⟨_, rfl, ?_, ?_⟩
    · simp only [KVRequest.route, fits_cons, fits_nil, fits_string, fits_map, fits_int,
        and_true, hrevision]
    · show Body.page (Option.getD (if _ then none else _) ∅) _ _ = _
      split
      · next hnil =>
        rw [Bool.and_eq_true, decide_eq_true_iff] at hnil
        rw [Option.getD_none, hnil.2]
      · rfl
  | txn tr =>
    obtain ⟨r, -, rfl⟩ := Option.map_eq_some_iff.mp hbody
    refine ⟨_, rfl, ?_, ?_⟩
    · simp only [KVRequest.route, fits_cons, fits_nil, fits_bool, fits_int, true_and, and_true,
        hrevision]
      exact fits_results r.results
    · show Body.txn _ ((r.results.map TxnOpResult.wire).map TxnOpResult.ofWire) _ = _
      rw [List.map_map]
      exact congrArg (Body.txn _ · _) (List.map_id r.results)
  | leaseGrant lr =>
    cases hbody
    refine ⟨_, rfl, ?_, rfl⟩
    simp only [KVRequest.route, fits_cons, fits_nil, fits_int, and_true]
    exact ⟨isInt64_parseInt _, hreq.1⟩
  | leaseKeepAlive lkr =>
    obtain rfl : body = .kept lkr.id := by
      have hkept : (if commitCmd.resultFound then some (Body.kept lkr.id)
          else some (.kept lkr.id)) = some body := hbody
      rw [ite_self] at hkept
      exact (Option.some.inj hkept).symm
    exact ⟨_, rfl, fits_cons.mpr ⟨hreq.1, trivial⟩, rfl⟩
  | leaseRevoke lrr =>
    cases hbody
    exact ⟨_, rfl, trivial, rfl⟩

/-- A response and the value of its struct. -/
structure Renders (route : Route) (isNil : Bool) (resp : Response) (v : route.response.Val) :
    Prop where
  wire_eq : resp.wire isNil route = some v
  fits : route.response.Fits true v
  status_eq : ResponseStatus.ofCode v.1 = some resp.status
  body_eq : ∀ {body}, resp = .ok body → Body.ofWire route v.2 = body
  zero : resp.status ≠ .ok → v.2 = route.body.zero

theorem renders_status {route : Route} {isNil : Bool} {resp : Response}
    (hwire : resp.wire isNil route = some (resp.status.code, route.body.zero))
    (hno : resp.status ≠ .ok) :
    Renders route isNil resp (resp.status.code, route.body.zero) where
  wire_eq := hwire
  fits := by
    refine fits_cons.mpr ⟨?_, route.body.fits_zero⟩
    have hcode : IsInt64 resp.status.code := by cases resp.status <;> decide
    exact hcode
  status_eq := by cases resp.status <;> rfl
  body_eq h := absurd (congrArg Response.status h) hno
  zero _ := rfl

theorem renders_of_handled {req : KVRequest} (hreq : req.Sendable) {tr : Transfer}
    (htr : tr.Handled req) {resp : Response} {arrived : Nat}
    (hresult : tr.result = .ok (resp, arrived)) :
    ∃ v, Renders req.route tr.isNil resp v := by
  cases resp with
  | notLeader => exact ⟨_, renders_status rfl (by decide)⟩
  | failedCommit => exact ⟨_, renders_status rfl (by decide)⟩
  | duplicateRequest => exact ⟨_, renders_status rfl (by decide)⟩
  | ok body =>
    rcases htr _ _ hresult with hno | ⟨id, received, hrespond, hrevision⟩
    · cases hno
    · obtain ⟨commitCmd, rfl, -, hbody⟩ := Handler.respond_eq_ok hrespond
      obtain ⟨fields, hwire, hfits, hback⟩ :=
        wire_of_handler hreq (hrevision commitCmd rfl) hbody tr.isNil
      refine ⟨(ResponseStatus.ok.code, fields), ?_, fits_cons.mpr ⟨?_, hfits⟩, rfl, ?_, ?_⟩
      · rw [Response.wire, hwire]
        rfl
      · have hcode : IsInt64 ResponseStatus.ok.code := by decide
        exact hcode
      · rintro _ ⟨⟩
        exact hback
      · exact fun hno => absurd rfl hno

/-! ## Rounds -/

/-- Reading a response into a struct that has nothing but a status. -/
theorem decode_response {route : Route} {v old : route.response.Val}
    (hfits : route.response.Fits true v) (hold : old.2 = route.body.zero) :
    (GoType.struct route.response).decode false ((GoType.struct route.response).encode v) old =
      some v := by
  refine (GoType.struct route.response).decode_encode (distinct_response route) v old hfits ?_
  exact ⟨fun hno => absurd hno Bool.false_ne_true, trivial, hold ▸ route.body.clean_zero⟩

theorem readFirst_render (route : Route) (v : route.response.Val) (k : Nat) :
    readFirst ((renderJSON route v).take k) =
      if (renderJSON route v).length ≤ k then some ((GoType.struct route.response).encode v)
      else none := by
  have hobject : renderJSON route v = writeJson (.object (route.response.encode v)) := by
    rw [renderJSON, GoType.encode]
  have hstops : Stops [] := by
    intro b hb
    cases hb
  have hpart :
      (renderJSON route v).take k <+: writeJson (.object (route.response.encode v)) ++ [] := by
    rw [hobject, List.append_nil]
    exact List.take_prefix _ _
  rw [readFirst_part hstops hpart, GoType.encode, hobject, List.length_take]
  by_cases hk : (writeJson (.object (route.response.encode v))).length ≤ k
  · rw [if_pos hk, if_pos (by omega)]
  · rw [if_neg hk, if_neg (by omega)]

theorem Renders.rendered {route : Route} {tr : Transfer} {resp : Response} {v : route.response.Val}
    (h : Renders route tr.isNil resp v) : tr.rendered route resp = renderJSON route v := by
  rw [Transfer.rendered, h.wire_eq]
  rfl

section

variable {req : KVRequest} {tr : Transfer} {old : req.route.response.Val}

/-- A round that gives a response gives it in the struct. -/
theorem sendJSONRequest_answered (hreq : req.Sendable) (htr : tr.Handled req)
    (hold : old.2 = req.route.body.zero) {resp : Response}
    (h : tr.attempt req.route = .answered resp) :
    ∃ v, sendJSONRequest req.route (tr.delivery req.route) old = .ok v ∧
      Renders req.route tr.isNil resp v := by
  unfold Transfer.attempt at h
  split at h
  · cases h
  · next resp' arrived hresult =>
    split at h
    · next hlen =>
      cases h
      obtain ⟨v, hv⟩ := renders_of_handled hreq htr hresult
      refine ⟨v, ?_, hv⟩
      rw [hv.rendered] at hlen
      simp only [sendJSONRequest, Transfer.delivery, hresult, Except.map, hv.rendered,
        readFirst_render, if_pos hlen, Option.bind_some, decode_response hv.fits hold]
    · cases h

/-- A round that fails leaves the struct alone. -/
theorem sendJSONRequest_failed (hreq : req.Sendable) (htr : tr.Handled req) {err : String}
    {done deadlineExceeded : Bool} (h : tr.attempt req.route = .failed err done deadlineExceeded) :
    sendJSONRequest req.route (tr.delivery req.route) old = .error err ∧
      tr.done = done ∧ tr.deadlineExceeded = deadlineExceeded := by
  unfold Transfer.attempt at h
  split at h
  · next err' hresult =>
    cases h
    refine ⟨?_, rfl, rfl⟩
    simp only [sendJSONRequest, Transfer.delivery, hresult, Except.map]
  · next resp' arrived hresult =>
    split at h
    · cases h
    · next hlen =>
      cases h
      obtain ⟨v, hv⟩ := renders_of_handled hreq htr hresult
      rw [hv.rendered] at hlen
      refine ⟨?_, rfl, rfl⟩
      simp only [sendJSONRequest, Transfer.delivery, hresult, Except.map, hv.rendered,
        readFirst_render, if_neg hlen, Option.bind_none]

variable {world : Nat → String → Transfer} {c : KVClient} {addr : String} {t : Nat}

theorem sendBytes_failed (hreq : req.Sendable) (hworld : ∀ t path, (world t path).Handled req)
    (haddr : c.address = some addr) {err : String} {done deadlineExceeded : Bool}
    (h : attempts req.route world t addr = .failed err done deadlineExceeded) (n : Nat) :
    c.sendBytes req.route (deliveries req.route world) (n + 1) t old =
      if done then .returned t c old (some err)
      else if deadlineExceeded then
        c.rotate.sendBytes req.route (deliveries req.route world) n (t + 1) old
      else .returned t c old (some err) := by
  obtain ⟨hsend, rfl, rfl⟩ := sendJSONRequest_failed hreq (hworld t _) h
  rw [KVClient.sendBytes, haddr]
  dsimp only
  rw [deliveries, hsend]
  rfl

theorem sendBytes_answered (hreq : req.Sendable) (hworld : ∀ t path, (world t path).Handled req)
    (haddr : c.address = some addr) (hold : old.2 = req.route.body.zero) {resp : Response}
    (h : attempts req.route world t addr = .answered resp) (n : Nat) :
    ∃ v, Renders req.route (world t (req.route.url addr)).isNil resp v ∧
      c.sendBytes req.route (deliveries req.route world) (n + 1) t old =
        match resp.status with
        | .notLeader => c.rotate.sendBytes req.route (deliveries req.route world) n (t + 1) v
        | .ok => .returned t c v none
        | .failedCommit => .returned t c v (some "commit failed; please retry")
        | .duplicateRequest => .returned t c v (some "this request was already completed") := by
  obtain ⟨v, hsend, hv⟩ := sendJSONRequest_answered hreq (hworld t _) hold h
  refine ⟨v, hv, ?_⟩
  rw [KVClient.sendBytes, haddr]
  dsimp only
  rw [deliveries, hsend]
  dsimp only
  rw [hv.status_eq]
  cases resp.status <;> rfl

/-- What is in the struct when `send` returns. -/
def Outcome (route : Route) (attempt : Attempt) (resp : route.response.Val) : Option String → Prop
  | none => attempt = .answered (.ok (Body.ofWire route resp.2))
  | some _ => resp.2 = route.body.zero

/-- The induction is over the rounds: in each of them the struct has at most a status. -/
theorem sendBytes_refines (hreq : req.Sendable) (hworld : ∀ t path, (world t path).Handled req)
    (n : Nat) : ∀ (t : Nat) (c : KVClient) (old : req.route.response.Val),
      old.2 = req.route.body.zero →
      (c.sendBytes req.route (deliveries req.route world) n t old).forget =
        c.sendLoop (attempts req.route world) n t ∧
      ∀ u c' resp err,
        c.sendBytes req.route (deliveries req.route world) n t old = .returned u c' resp err →
        ∃ addr, c'.address = some addr ∧
          Outcome req.route (attempts req.route world u addr) resp err := by
  induction n with
  | zero =>
    intro t c old _
    refine ⟨rfl, ?_⟩
    rintro _ _ _ _ ⟨⟩
  | succ n ih =>
    intro t c old hold
    cases haddr : c.address with
    | none =>
      rw [KVClient.sendBytes, KVClient.sendLoop, haddr]
      refine ⟨rfl, ?_⟩
      rintro _ _ _ _ ⟨⟩
    | some addr =>
      rw [KVClient.sendLoop, haddr]
      dsimp only
      cases hattempt : attempts req.route world t addr with
      | failed err done deadlineExceeded =>
        rw [sendBytes_failed hreq hworld haddr hattempt]
        cases done with
        | true =>
          refine ⟨rfl, ?_⟩
          rintro _ _ _ _ ⟨⟩
          exact ⟨addr, haddr, hold⟩
        | false =>
          cases deadlineExceeded with
          | true => exact ih (t + 1) c.rotate old hold
          | false =>
            refine ⟨rfl, ?_⟩
            rintro _ _ _ _ ⟨⟩
            exact ⟨addr, haddr, hold⟩
      | answered resp =>
        obtain ⟨v, hv, hround⟩ := sendBytes_answered hreq hworld haddr hold hattempt n
        rw [hround]
        cases resp with
        | notLeader => exact ih (t + 1) c.rotate v (hv.zero (by decide))
        | ok body =>
          refine ⟨rfl, ?_⟩
          rintro _ _ _ _ ⟨⟩
          refine ⟨addr, haddr, ?_⟩
          rw [Outcome, hattempt, hv.body_eq rfl]
        | failedCommit | duplicateRequest =>
          refine ⟨rfl, ?_⟩
          rintro _ _ _ _ ⟨⟩
          exact ⟨addr, haddr, hv.zero (by decide)⟩

end

end WireSendLemmas

open WireSendLemmas

/-! ## Main result -/

/-- With bytes on the wire and one struct for all rounds, `send` does what it does with responses,
and it does not come to its `panic("unreachable")`. When it returns nil, the struct has the OK
response of the last round; when it returns an error, the struct has nothing but a status, whatever
the rounds before have brought. -/
theorem send_over_wire {req : KVRequest} (hreq : req.Sendable) {world : Nat → String → Transfer}
    (hworld : ∀ t path, (world t path).Handled req) (c : KVClient) (n t : Nat) :
    (c.sendBytes req.route (deliveries req.route world) n t req.route.response.zero).forget =
      c.sendLoop (attempts req.route world) n t ∧
    ∀ u c' resp err,
      c.sendBytes req.route (deliveries req.route world) n t req.route.response.zero =
        .returned u c' resp err →
      ∃ addr, c'.address = some addr ∧
        (err = none → attempts req.route world u addr =
          .answered (.ok (Body.ofWire req.route resp.2))) ∧
        (err ≠ none → resp.2 = req.route.body.zero) := by
  obtain ⟨hforget, hreturned⟩ := sendBytes_refines hreq hworld n t c req.route.response.zero rfl
  refine ⟨hforget, fun u c' resp err h => ?_⟩
  obtain ⟨addr, haddr, houtcome⟩ := hreturned u c' resp err h
  cases err with
  | none => exact ⟨addr, haddr, fun _ => houtcome, fun hno => absurd rfl hno⟩
  | some err => exact ⟨addr, haddr, fun hno => (nomatch hno), fun _ => houtcome⟩

/-- A read of a key. -/
def getX : KVRequest := .get { key := "x", clientID := 1, requestID := 1 }

/-- The command for it as the second node gets it back. -/
def committedGetX : CommitCmd :=
  { kind := .get, key := "x", serviceID := 1, clientID := 1, requestID := 1, resultValue := "v",
    resultFound := true, revision := 3 }

/-- The first node does not lead, and the second one answers. -/
def secondLeads : Nat → String → Transfer := fun _ path =>
  { result := .ok (if path = "http://a:1/get/" then .notLeader else .ok (.value true "v" 3), 100),
    isNil := false, err := "unexpected EOF", done := false, deadlineExceeded := false }

/-- The client asks both, and returns the answer of the second. -/
theorem send_over_wire_second :
    (∀ t path, (secondLeads t path).Handled getX) ∧
    ∃ resp, (KVClient.new ["a:1", "b:1"] 1).sendBytes .get (deliveries .get secondLeads) 2 0
        Route.get.response.zero = .returned 1 (KVClient.new ["a:1", "b:1"] 1).rotate resp none ∧
      Body.ofWire .get resp.2 = .value true "v" 3 := by
  have hworld : ∀ t path, (secondLeads t path).Handled getX := by
    rintro t path resp arrived ⟨⟩
    split
    · exact .inl rfl
    · exact .inr ⟨1, some committedGetX, rfl, fun _ h => by cases h; decide⟩
  have hsendable : getX.Sendable := ⟨by decide, by decide⟩
  obtain ⟨hforget, hreturned⟩ :=
    send_over_wire hsendable hworld (KVClient.new ["a:1", "b:1"] 1) 2 0
  have hloop : (KVClient.new ["a:1", "b:1"] 1).sendLoop (attempts .get secondLeads) 2 0 =
      .returned 1 (KVClient.new ["a:1", "b:1"] 1).rotate none := by
    rfl
  refine ⟨hworld, ?_⟩
  replace hforget := hforget.trans hloop
  cases hsent : (KVClient.new ["a:1", "b:1"] 1).sendBytes getX.route
      (deliveries getX.route secondLeads) 2 0 getX.route.response.zero with
  | running c resp | panicked =>
    rw [hsent] at hforget
    cases hforget
  | returned u c resp err =>
    rw [hsent] at hforget
    cases hforget
    obtain ⟨addr, haddr, hok, -⟩ := hreturned _ _ _ _ hsent
    obtain rfl : "b:1" = addr := Option.some.inj haddr
    exact ⟨resp, hsent, (Response.ok.inj (Attempt.answered.inj (hok rfl))).symm⟩

end Zodiac
