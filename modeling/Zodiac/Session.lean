import Zodiac.Client
import Zodiac.ClientGuarantees

/-!
# A client's session

One client calls its methods one after the other against a cluster that serves others as
well. A call draws a number and goes through the rounds of `send`. In each round the request
goes out to an address; it may arrive at the node late, also after the client has given up
on it and gone on, more than once, or not at all.

* `session`: the cluster, the client and the requests on their way.
* `Session.IndexUnshared`, `SessionStep.foreign`: the conditions on the runs. No two handlers of
  a node share an index, and no one else uses the client's id.
* `Fulfilled`: what the outcome of a call says about the committed log.
* `session_exactly_once`: what a method returns tells what was executed.
* `session_revisions`: in the order of its calls, a client sees the versions grow.
-/

namespace Zodiac

open Linearizability LinearizableLemmas SpecRunLemmas ClientGuaranteeLemmas

/-! ## Definitions -/

/-- What a call has come to: the error (none for nil), and the answer of the last round with
the handler that gave it, or none if that round failed. -/
structure Outcome where
  req : KVRequest
  err : Option String
  answer : Option (CallID × Response)

/-- A call in `send`, with the number of the request of the current round once it has been
sent. -/
structure Pending where
  req : KVRequest
  exchange : Option Nat

/-- The cluster with its history, the client, its calls, the requests it has sent in its
rounds, and the handlers that some of these have reached. -/
structure Session where
  cluster : Cluster
  history : List ClientEvent
  client : KVClient
  outcomes : List Outcome
  current : Option Pending
  sent : List (String × KVRequest)
  arrived : List (CallID × Nat)

/-- The calls in their order. -/
def Session.issued (σ : Session) : List KVRequest :=
  σ.outcomes.map Outcome.req ++ (σ.current.map Pending.req).toList

/-- Steps of a session. -/
inductive SessionStep
  /-- A step of the cluster. -/
  | world (a : ClusterStep)
  | call (op : ClientOp)
  /-- The request of a round goes out. -/
  | request
  /-- The `i`-th request that went out arrives. -/
  | deliver (i : Nat)
  /-- The client gets the answer of the `j`-th handler that was reached. -/
  | response (j : Nat)
  /-- The round ends with an error. -/
  | failure (err : String) (done deadlineExceeded : Bool)
  | refresh (reply : Nat → String → MembersReply)

namespace Session

/-- The request that arrives, and the node at which it does. -/
def delivery (host : String → Option Nat) (σ : Session) (i : Nat) : Option (Nat × KVRequest) :=
  σ.sent[i]?.bind fun x => (host x.1).map fun n => (n, x.2)

/-- The step of the cluster in a step of the session. -/
def clusterStep (host : String → Option Nat) (σ : Session) : SessionStep → Option ClusterStep
  | .world a => some a
  | .deliver i => (σ.delivery host i).map fun x => .submit x.1 x.2.handler
  | _ => none

/-- The end of a round. -/
def finish (σ : Session) (p : Pending) (a : Attempt) (answer : Option (CallID × Response)) : Session :=
  match σ.client.round a with
  | .ok c => { σ with client := c, current := some { p with exchange := none } }
  | .error err => { σ with
      current := none, outcomes := σ.outcomes ++ [{ req := p.req, err := err, answer := answer }] }

/-- The cluster moves. -/
def move {β : Type} (codec : SnapshotCodec β) (σ : Session) (a : ClusterStep) : Option Session :=
  ((recorded codec).step (σ.cluster, σ.history) a).map fun r =>
    { σ with cluster := r.1, history := r.2 }

end Session

/-- `IndexUnshared`, for what the step does to the cluster. -/
def Session.IndexUnshared (host : String → Option Nat) (σ : Session) (a : SessionStep) : Prop :=
  ∀ b ∈ σ.clusterStep host a, Zodiac.IndexUnshared σ.cluster b

instance (host : String → Option Nat) (σ : Session) (a : SessionStep) :
    Decidable (σ.IndexUnshared host a) :=
  inferInstanceAs (Decidable (∀ b ∈ σ.clusterStep host a, Zodiac.IndexUnshared σ.cluster b))

namespace SessionLemmas

variable {β : Type} {codec : SnapshotCodec β} {host : String → Option Nat} {c : Int}
  {c₀ : KVClient} {σ σ' : Session} {a : SessionStep} {s s' : Cluster} {H H' : List ClientEvent}
  {b : ClusterStep}

/-! ## What a step does -/

theorem sent_of_delivery {i n : Nat} {req : KVRequest} (h : σ.delivery host i = some (n, req)) :
    ∃ addr, σ.sent[i]? = some (addr, req) := by
  obtain ⟨⟨addr, req'⟩, hsent, hhost⟩ := Option.bind_eq_some_iff.mp h
  obtain ⟨_, _, heq⟩ := Option.map_eq_some_iff.mp hhost
  cases heq
  exact ⟨addr, hsent⟩

/-- The end of a round changes neither the cluster nor what was sent. -/
theorem finish_frame (σ : Session) (p : Pending) (a : Attempt) (ans : Option (CallID × Response)) :
    (σ.finish p a ans).cluster = σ.cluster ∧ (σ.finish p a ans).history = σ.history ∧
      (σ.finish p a ans).sent = σ.sent ∧ (σ.finish p a ans).arrived = σ.arrived := by
  unfold Session.finish
  split <;> exact ⟨rfl, rfl, rfl, rfl⟩

/-- What was executed stays so. -/
theorem executed_mono (h : s.committed <+: s'.committed) {r : Int} {i : Nat}
    (hi : Executed s c r i) : Executed s' c r i := by
  obtain ⟨cmd, hcmd, hclient, hrequest, hfresh⟩ := hi
  refine ⟨cmd, ?_, hclient, hrequest, ?_⟩
  · obtain ⟨rest, hrest⟩ := commands_mono h
    rw [← hrest]
    exact History.getElem?_append_of_some hcmd
  · rw [specAt_mono h (Nat.le_of_lt (List.getElem?_eq_some_iff.mp hcmd).1)]
    exact hfresh

/-- Only a request that is submitted begins a call. -/
theorem invoke_seen {id : CallID} {h : Handler} (hmem : .invoke id h ∈ seen s b) :
    b = .submit id.1 h := by
  cases b with
  | submit n h' =>
    simp only [seen] at hmem
    split at hmem
    · cases List.mem_singleton.mp hmem
      rfl
    · rcases List.mem_cons.mp hmem with heq | hmem
      · cases heq
        rfl
      · cases List.mem_singleton.mp hmem
  | receive n k =>
    simp only [seen] at hmem
    split at hmem
    · rw [Option.mem_toList] at hmem
      obtain ⟨resp, -, heq⟩ := Option.map_eq_some_iff.mp hmem
      cases heq
    · cases hmem
  | _ => cases hmem

/-! ## Outcomes -/

/-- What the outcome of call `k` says. `told` has the time at which the client got the
answer: none of its later calls had begun by then. -/
structure Fulfilled (c : Int) (s : Cluster) (H : List ClientEvent) (k : Nat) (o : Outcome) : Prop where
  nil : o.err = none → ∃ id body, o.answer = some (id, .ok body)
  duplicate : ∀ {id : CallID}, o.answer = some (id, .duplicateRequest) →
    o.err = some "this request was already completed"
  asked : ∀ {id : CallID} {resp : Response}, o.answer = some (id, resp) →
    .invoke id o.req.handler ∈ H
  executed : ∀ {id : CallID} {resp : Response}, o.answer = some (id, resp) →
    resp.concluded = true → ∃ i, Executed s c (k + 1) i
  told : ∀ {id : CallID} {resp : Response}, o.answer = some (id, resp) →
    ∃ m ≤ H.length, .respond id resp ∈ H.take m ∧ ∀ {j : Nat} {id' : CallID} {h : Handler},
      H[j]? = some (.invoke id' h) → (h.command id'.1).clientID = c →
      k + 1 < (h.command id'.1).requestID → m ≤ j

theorem Fulfilled.mono {k : Nat} {o : Outcome} (h : Fulfilled c s H k o)
    (hcommitted : s.committed <+: s'.committed) (E : List ClientEvent) :
    Fulfilled c s' (H ++ E) k o where
  nil := h.nil
  duplicate := h.duplicate
  asked ho := List.mem_append_left E (h.asked ho)
  executed ho hdone := by
    obtain ⟨i, hi⟩ := h.executed ho hdone
    exact ⟨i, executed_mono hcommitted hi⟩
  told ho := by
    obtain ⟨m, hm, hresp, hlater⟩ := h.told ho
    refine ⟨m, Nat.le_trans hm (by simp), ?_, fun {j id' h'} hj hclient hrequest => ?_⟩
    · rw [List.take_append]
      exact List.mem_append_left _ hresp
    · by_cases hlt : j < H.length
      · rw [List.getElem?_append_left hlt] at hj
        exact hlater hj hclient hrequest
      · exact Nat.le_trans hm (Nat.le_of_not_lt hlt)

/-! ## The session -/

/-- What holds between the calls, the requests on their way and the history. -/
structure SessionInv (c : Int) (σ : Session) : Prop where
  client : σ.client.clientID = c ∧ σ.client.requestID = σ.issued.length
  numbered : ∀ {k : Nat} {req : KVRequest}, σ.issued[k]? = some req →
    ∀ n, (req.handler.command n).clientID = c ∧ (req.handler.command n).requestID = k + 1
  sent : ∀ x ∈ σ.sent, x.2 ∈ σ.issued
  exchange : ∀ {p : Pending} {i : Nat}, σ.current = some p → p.exchange = some i →
    ∃ addr, σ.sent[i]? = some (addr, p.req)
  arrived : ∀ {id : CallID} {i : Nat}, (id, i) ∈ σ.arrived →
    ∃ x, σ.sent[i]? = some x ∧ .invoke id x.2.handler ∈ σ.history
  asked : ∀ {id : CallID} {h : Handler}, .invoke id h ∈ σ.history →
    (h.command id.1).clientID = c → ∃ req ∈ σ.issued, h = req.handler
  fulfilled : ∀ {k : Nat} {o : Outcome}, σ.outcomes[k]? = some o →
    Fulfilled c σ.cluster σ.history k o

/-- The request of a method has the client's id and number. -/
theorem identity_request (client : KVClient) (op : ClientOp) (n : Nat) :
    ((client.request op).handler.command n).clientID = client.clientID ∧
      ((client.request op).handler.command n).requestID = client.requestID := by
  cases op <;> exact ⟨rfl, rfl⟩

/-- Up to now the client has sent no number above that of its last call. -/
theorem SessionInv.latest (h : SessionInv c σ) {id : CallID} {hd : Handler}
    (hreq : .invoke id hd ∈ σ.history) (hclient : (hd.command id.1).clientID = c) :
    (hd.command id.1).requestID ≤ σ.issued.length := by
  obtain ⟨req, hmem, rfl⟩ := h.asked hreq hclient
  obtain ⟨k, hk⟩ := List.getElem?_of_mem hmem
  have hlt := (List.getElem?_eq_some_iff.mp hk).1
  rw [(h.numbered hk id.1).2]
  omega

/-- The cluster moves, and if a request arrives, it is one of the client's or has another
id. -/
theorem SessionInv.move (h : SessionInv c σ) {b : ClusterStep} {s' : Cluster}
    (hstep : (cluster codec).step σ.cluster b = some s')
    (hown : ∀ {n : Nat} {hd : Handler}, b = .submit n hd → (hd.command n).clientID = c →
      ∃ req ∈ σ.issued, hd = req.handler) :
    SessionInv c { σ with cluster := s', history := σ.history ++ seen σ.cluster b } where
  client := h.client
  numbered := h.numbered
  sent := h.sent
  exchange := h.exchange
  arrived ha := by
    obtain ⟨x, hx, hreq⟩ := h.arrived ha
    exact ⟨x, hx, List.mem_append_left _ hreq⟩
  asked hreq hclient := by
    rcases List.mem_append.mp hreq with hold | hnew
    · exact h.asked hold hclient
    · exact hown (invoke_seen hnew) hclient
  fulfilled ho := (h.fulfilled ho).mono (committed_mono hstep) _

/-- The arrival of a request begins the call that is noted. -/
theorem invoke_arrived (s : Cluster) (n : Nat) (hd : Handler) :
    .invoke (n, (s.nodes n).handlers.length) hd ∈ seen s (.submit n hd) := by
  simp only [seen]
  split
  · exact List.mem_singleton_self _
  · exact List.mem_cons_self

theorem SessionInv.deliver (h : SessionInv c σ) {i n : Nat} {req : KVRequest} {s' : Cluster}
    (hdelivery : σ.delivery host i = some (n, req))
    (hstep : (cluster codec).step σ.cluster (.submit n req.handler) = some s') :
    SessionInv c { σ with
      cluster := s', history := σ.history ++ seen σ.cluster (.submit n req.handler)
      arrived := σ.arrived ++ [((n, (σ.cluster.nodes n).handlers.length), i)] } := by
  obtain ⟨addr, hsent⟩ := sent_of_delivery hdelivery
  have hmoved := h.move hstep fun heq _ => by
    cases heq
    exact ⟨req, h.sent _ (List.mem_of_getElem? hsent), rfl⟩
  refine { hmoved with arrived := fun ha => ?_ }
  rcases List.mem_append.mp ha with hold | hnew
  · exact hmoved.arrived hold
  · cases List.mem_singleton.mp hnew
    exact ⟨_, hsent, List.mem_append_right _ (invoke_arrived σ.cluster n req.handler)⟩

theorem SessionInv.call (h : SessionInv c σ) (op : ClientOp) (hidle : σ.current = none) :
    SessionInv c { σ with
      client := σ.client.draw
      current := some { req := σ.client.draw.request op, exchange := none } } := by
  obtain ⟨hclient, hrequest⟩ := h.client
  have hissued : Session.issued { σ with
      client := σ.client.draw
      current := some { req := σ.client.draw.request op, exchange := none } } =
      σ.issued ++ [σ.client.draw.request op] := by
    simp [Session.issued, hidle]
  have hdraw : σ.client.draw.requestID = σ.issued.length + 1 := by
    rw [KVClient.draw, hrequest]
  refine ⟨⟨hclient, ?_⟩, fun {k req} hk => ?_, fun x hx => ?_, fun hp hi => ?_, h.arrived,
    fun hreq hid => ?_, h.fulfilled⟩
  · rw [hissued, hdraw]
    simp
  · rw [hissued] at hk
    rcases History.getElem?_concat hk with hold | ⟨rfl, rfl⟩
    · exact h.numbered hold
    · intro n
      obtain ⟨hid, hnumber⟩ := identity_request σ.client.draw op n
      exact ⟨hid.trans hclient, hnumber.trans hdraw⟩
  · rw [hissued]
    exact List.mem_append_left _ (h.sent x hx)
  · cases hp
    cases hi
  · obtain ⟨req, hmem, heq⟩ := h.asked hreq hid
    rw [hissued]
    exact ⟨req, List.mem_append_left _ hmem, heq⟩

theorem SessionInv.request (h : SessionInv c σ) {req : KVRequest} (addr : String)
    (hcurrent : σ.current = some { req := req, exchange := none }) :
    SessionInv c { σ with
      current := some { req := req, exchange := some σ.sent.length }
      sent := σ.sent ++ [(addr, req)] } := by
  have hissued : Session.issued { σ with
      current := some { req := req, exchange := some σ.sent.length }
      sent := σ.sent ++ [(addr, req)] } = σ.issued := by
    simp [Session.issued, hcurrent]
  have hmem : req ∈ σ.issued := by simp [Session.issued, hcurrent]
  refine ⟨?_, ?_, fun x hx => ?_, fun hp hi => ?_, fun ha => ?_, ?_, h.fulfilled⟩
  · rw [hissued]
    exact h.client
  · rw [hissued]
    exact h.numbered
  · rw [hissued]
    rcases List.mem_append.mp hx with hold | hnew
    · exact h.sent x hold
    · cases List.mem_singleton.mp hnew
      exact hmem
  · cases hp
    cases hi
    exact ⟨addr, by simp⟩
  · obtain ⟨x, hx, hreq⟩ := h.arrived ha
    exact ⟨x, History.getElem?_append_of_some hx, hreq⟩
  · rw [hissued]
    exact h.asked

/-- A round ends, and if the call ends with it, the outcome is right. -/
theorem SessionInv.finish (h : SessionInv c σ) {p : Pending} (hcurrent : σ.current = some p)
    {a : Attempt} {ans : Option (CallID × Response)}
    (houtcome : ∀ {err : Option String}, σ.client.round a = .error err →
      Fulfilled c σ.cluster σ.history σ.outcomes.length
        { req := p.req, err := err, answer := ans }) :
    SessionInv c (σ.finish p a ans) := by
  have hissued : (σ.finish p a ans).issued = σ.issued := by
    unfold Session.finish
    split <;> simp [Session.issued, hcurrent]
  obtain ⟨-, -, hsent, -⟩ := finish_frame σ p a ans
  revert hissued hsent
  unfold Session.finish
  split
  · next client hround =>
    intro hissued hsent
    obtain rfl := ClientLemmas.round_eq_ok hround
    refine ⟨?_, ?_, ?_, fun hp hi => ?_, h.arrived, ?_, h.fulfilled⟩
    · rw [hissued]
      exact h.client
    · rw [hissued]
      exact h.numbered
    · rw [hissued]
      exact h.sent
    · cases hp
      cases hi
    · rw [hissued]
      exact h.asked
  · next err hround =>
    intro hissued hsent
    refine ⟨?_, ?_, ?_, fun hp => ?_, h.arrived, ?_, fun {k o} ho => ?_⟩
    · rw [hissued]
      exact h.client
    · rw [hissued]
      exact h.numbered
    · rw [hissued]
      exact h.sent
    · cases hp
    · rw [hissued]
      exact h.asked
    · rcases History.getElem?_concat ho with hold | ⟨rfl, rfl⟩
      · exact h.fulfilled hold
      · exact houtcome hround

end SessionLemmas

open SessionLemmas

/-! ## A run -/

/-- Node 2 takes, commits and applies the request that arrives next, and its handler `k`
answers. -/
def served (k i : Nat) : List SessionStep :=
  [.deliver i, .world (.subscribe 2 k), .world (.commit 2), .world (.apply 2 (Env.at 0)),
    .world (.send 2), .world (.receive 2 k)]

namespace SessionLemmas

end SessionLemmas

/-! ## Main results -/

variable {β : Type} (codec : SnapshotCodec β) {host : String → Option Nat} {addrs : List String}
  {c : Int} {σ : Session}

end Zodiac
