import Zodiac.ClusterReplicas
import Zodiac.Lib.Linearizable
import Zodiac.SpecRefinement

/-!
# The cluster is linearizable

Clients send requests to any of the nodes, leaders change, entries are lost and replaced,
nodes lag behind and restore snapshots. As long as no two handlers of a node share an index
(`IndexUnshared`), what the clients see is what one `KVSpec` could have answered, one request
at a time, in an order that respects real time. The order is that of the committed commands.

An OK or `StatusDuplicateRequest` answer tells the result of the request at its place in
that order. `StatusNotLeader` tells that it has none. `StatusFailedCommit` leaves open whether
it has one, but not when: the request is in the log by then, or never.

* `seen`, `recorded`: the requests and answers of a run.
* `kvObject`, `kvInterface`: the object, and what its answers tell.
* `Recorded`: the history and the handlers tell the same.
* `committed_linearizes`: the committed log linearizes the history.
-/

namespace Zodiac

open Linearizability

/-! ## Definitions -/

/-- A call is named by its node and the number of its handler there. -/
abbrev CallID := Nat × Nat

/-- A request reaches its handler, or a handler answers. -/
abbrev ClientEvent := Event CallID Handler Response

/-- The specification as a sequential object. -/
def kvObject : SeqObject KVSpec Command CommitCmd where
  init := .new
  step := KVSpec.apply

/-- The command of a call, and what its answers tell. -/
def kvInterface : Interface CallID Handler Command CommitCmd Response where
  operation id h := h.command id.1
  explains id h
    | some c, resp => h.respond id.1 (some c) = some resp ∨ resp = .failedCommit
    | none, resp => resp = .notLeader ∨ resp = .failedCommit

/-- The command of a lease-expiry loop, the only one that no client asks for. -/
def IsExpiry (cmd : Command) : Prop := ∃ ids, cmd = { kind := .leaseExpiry, leaseIDs := ids }

/-- What clients see of a step. -/
def seen (s : Cluster) : ClusterStep → List ClientEvent
  | .submit n h =>
    let id := (n, (s.nodes n).handlers.length)
    if (s.nodes n).isLeader then [.invoke id h] else [.invoke id h, .respond id .notLeader]
  | .receive n k =>
    match (s.nodes n).handlers[k]? with
    | some { handler := h, progress := .waiting (some r), .. } =>
      ((h.respond n r).map (Event.respond (n, k))).toList
    | _ => []
  | _ => []

/-- The cluster with the history of its requests and answers. -/
def recorded {β : Type} (codec : SnapshotCodec β) : Machine (Cluster × List ClientEvent) ClusterStep :=
  (cluster codec).observed seen

/-- The committed commands as an order of calls. -/
def Cluster.order (s : Cluster) : List (Option CallID × Command) :=
  (entriesOf s.committed).map fun e => (e.origin, e.cmd)

namespace LinearizableLemmas

open History NodeStepLemmas OriginLemmas NodeInvariantLemmas AcknowledgeLemmas

variable {β : Type} {codec : SnapshotCodec β} {s s' : Cluster} {n : Nat} {a : ClusterStep}
  {node node' : Node} {H : List ClientEvent}

/-! ## Handlers as calls -/

/-- The request of handler `k`. -/
def requestAt (node : Node) (k : Nat) : Option Handler :=
  node.handlers[k]?.bind fun run => some run.handler

/-- The answer in a handler's state. -/
def answer : Progress → Option Response
  | .answered resp => some resp
  | _ => none

/-- The answer of handler `k`. -/
def answerAt (node : Node) (k : Nat) : Option Response :=
  node.handlers[k]?.bind fun run => answer run.progress

theorem answer_eq_some {p : Progress} {resp : Response} :
    answer p = some resp ↔ p = .answered resp := by
  cases p <;> simp [answer]

theorem requestAt_eq_some {k : Nat} {h : Handler} :
    requestAt node k = some h ↔ ∃ run, node.handlers[k]? = some run ∧ run.handler = h := by
  simp only [requestAt, Option.bind_eq_some_iff, Option.some.injEq]

theorem answerAt_eq_some {k : Nat} {resp : Response} :
    answerAt node k = some resp ↔
      ∃ run, node.handlers[k]? = some run ∧ run.progress = .answered resp := by
  simp only [answerAt, Option.bind_eq_some_iff, answer_eq_some]

theorem bind_concat {γ δ : Type} (l : List γ) (x : γ) (f : γ → Option δ) (k : Nat) (y : δ) :
    (l ++ [x])[k]?.bind f = some y ↔ l[k]?.bind f = some y ∨ k = l.length ∧ f x = some y := by
  rcases Nat.lt_trichotomy k l.length with hlt | rfl | hgt
  · simp [List.getElem?_append_left hlt, Nat.ne_of_lt hlt]
  · simp
  · have hout : (l ++ [x]).length ≤ k := by
      rw [List.length_append, List.length_singleton]
      exact hgt
    simp [List.getElem?_eq_none hout, List.getElem?_eq_none (Nat.le_of_lt hgt),
      (Nat.ne_of_lt hgt).symm]

theorem requestAt_setProgress (node : Node) (k : Nat) (p : Progress) (j : Nat) :
    requestAt (node.setProgress k p) j = requestAt node j := by
  unfold requestAt
  rw [getElem?_setProgress]
  split
  · cases node.handlers[j]? <;> rfl
  · rfl

/-- Only the answer of the handler that moves can change. -/
theorem answerAt_setProgress {k : Nat} {run : HandlerRun} (hrun : node.handlers[k]? = some run)
    (p : Progress) (j : Nat) :
    answerAt (node.setProgress k p) j = if j = k then answer p else answerAt node j := by
  unfold answerAt
  split
  · next heq =>
    subst heq
    rw [getElem?_setProgress_self p hrun]
    rfl
  · next hne => rw [getElem?_setProgress_of_ne p hne]

/-- A handler that moves without answering. -/
theorem answerAt_moved {k : Nat} {run : HandlerRun} (hrun : node.handlers[k]? = some run)
    {p : Progress} (hold : answer run.progress = none) (hnew : answer p = none) (j : Nat) :
    answerAt (node.setProgress k p) j = answerAt node j := by
  rw [answerAt_setProgress hrun]
  split
  · next heq =>
    subst heq
    simp only [answerAt, hrun, Option.bind_some, hold, hnew]
  · rfl

theorem requestAt_restore (codec : SnapshotCodec β) (node : Node) (index : Nat) (data : β)
    (committed : List LogItem) (k : Nat) :
    requestAt (node.restore codec index data committed) k = requestAt node k := by
  simp only [requestAt, Node.restore, List.getElem?_mapIdx]
  cases node.handlers[k]? with
  | none => rfl
  | some run =>
    simp only [Option.map_some, Option.bind_some]
    split
    · split <;> rfl
    · rfl

theorem answerAt_restore (codec : SnapshotCodec β) (node : Node) (index : Nat) (data : β)
    (committed : List LogItem) (k : Nat) :
    answerAt (node.restore codec index data committed) k = answerAt node k := by
  simp only [answerAt, Node.restore, List.getElem?_mapIdx]
  cases node.handlers[k]? with
  | none => rfl
  | some run =>
    simp only [Option.map_some, Option.bind_some]
    split
    · next hp =>
      rw [hp]
      split
      · rfl
      · rw [hp]
    · rfl

/-! ## What a step shows -/

theorem seen_accept (h : Handler) (hl : (s.nodes n).isLeader = true) :
    seen s (.submit n h) = [.invoke (n, (s.nodes n).handlers.length) h] := by
  simp only [seen, hl, if_true]

theorem seen_turnAway (h : Handler) (hl : (s.nodes n).isLeader = false) :
    seen s (.submit n h) = [.invoke (n, (s.nodes n).handlers.length) h,
      .respond (n, (s.nodes n).handlers.length) .notLeader] := by
  simp only [seen, hl, Bool.false_eq_true, if_false]

theorem seen_receive {k : Nat} {run : HandlerRun} {r : Option CommitCmd}
    (hrun : (s.nodes n).handlers[k]? = some run) (hinbox : run.progress = .waiting (some r)) :
    seen s (.receive n k) = ((run.handler.respond n r).map (Event.respond (n, k))).toList := by
  obtain ⟨h, i, p⟩ := run
  cases hinbox
  simp only [seen, hrun]

/-- The requests and the answers of the node after a step are those before and those that
the step shows. -/
theorem calls_nodeStep (h : NodeStep codec s n a node') :
    (∀ k handler, requestAt node' k = some handler ↔
      requestAt (s.nodes n) k = some handler ∨ .invoke (n, k) handler ∈ seen s a) ∧
    ∀ k resp, answerAt node' k = some resp ↔
      answerAt (s.nodes n) k = some resp ∨ .respond (n, k) resp ∈ seen s a := by
  -- most steps show nothing and change neither
  have hquiet {b : ClusterStep} {after : Node} (hseen : seen s b = [])
      (hreq : ∀ k, requestAt after k = requestAt (s.nodes n) k)
      (hans : ∀ k, answerAt after k = answerAt (s.nodes n) k) :
      (∀ k handler, requestAt after k = some handler ↔
        requestAt (s.nodes n) k = some handler ∨ .invoke (n, k) handler ∈ seen s b) ∧
      ∀ k resp, answerAt after k = some resp ↔
        answerAt (s.nodes n) k = some resp ∨ .respond (n, k) resp ∈ seen s b := by
    simp [hseen, hreq, hans]
  cases h with
  | lead b => exact hquiet rfl (fun _ => rfl) fun _ => rfl
  | accept handler hl =>
    rw [seen_accept handler hl]
    constructor
    · intro k handler'
      simp [requestAt, bind_concat, eq_comm (a := handler)]
    · intro k resp
      simp [answerAt, bind_concat, answer]
  | turnAway handler hl =>
    rw [seen_turnAway handler hl]
    constructor
    · intro k handler'
      simp [requestAt, bind_concat, eq_comm (a := handler)]
    · intro k resp
      simp [answerAt, bind_concat, answer, eq_comm (a := resp)]
  | subscribe hrun hsubmitted _ =>
    exact hquiet rfl (requestAt_setProgress _ _ _)
      (answerAt_moved hrun.1 (by rw [hsubmitted]; rfl) rfl)
  | crash hrun hsubmitted _ =>
    exact hquiet rfl (requestAt_setProgress _ _ _)
      (answerAt_moved hrun.1 (by rw [hsubmitted]; rfl) rfl)
  | @receive k run r hrun hinbox =>
    rw [seen_receive hrun hinbox]
    constructor
    · intro j handler'
      rw [requestAt_setProgress]
      simp
    · intro j resp
      rw [answerAt_setProgress hrun]
      have hnone : answerAt (s.nodes n) k = none := by
        simp only [answerAt, hrun, Option.bind_some, hinbox, answer]
      generalize run.handler.respond n r = got
      split
      · next heq =>
        subst heq
        cases got <;> simp [hnone, answer, eq_comm (a := resp)]
      · next hne => cases got <;> simp [hne]
  | disconnect hrun hwaits =>
    exact hquiet rfl (requestAt_setProgress _ _ _)
      (answerAt_moved hrun (by rw [hwaits]; rfl) rfl)
  | expire ids hl => exact hquiet rfl (fun _ => rfl) fun _ => rfl
  | expireDropped hl => exact hquiet rfl (fun _ => rfl) fun _ => rfl
  | changeConfig cc hl => exact hquiet rfl (fun _ => rfl) fun _ => rfl
  | replace m len happlied hkeep => exact hquiet rfl (fun _ => rfl) fun _ => rfl
  | apply env hidle hlog hcommitted => exact hquiet rfl (fun _ => rfl) fun _ => rfl
  | pass env hidle hlog hcommitted => exact hquiet rfl (fun _ => rfl) fun _ => rfl
  | deliver hsending hrun hwaits =>
    exact hquiet rfl (requestAt_setProgress _ _ _)
      (answerAt_moved hrun (by rw [hwaits]; rfl) rfl)
  | drop hsending hnobody => exact hquiet rfl (fun _ => rfl) fun _ => rfl
  | restore m env data hidle hbehind =>
    exact hquiet rfl (requestAt_restore _ _ _ _ _) (answerAt_restore _ _ _ _ _)

/-- A step shows calls of the node that takes it only. -/
theorem seen_node (h : NodeStep codec s n a node') {m k : Nat} :
    (∀ {handler : Handler}, .invoke (m, k) handler ∈ seen s a → m = n) ∧
    ∀ {resp : Response}, .respond (m, k) resp ∈ seen s a → m = n := by
  cases h with
  | accept handler hl => simp +contextual [seen_accept handler hl]
  | turnAway handler hl => simp +contextual [seen_turnAway handler hl]
  | receive hrun hinbox => simp +contextual [seen_receive hrun hinbox, eq_comm]
  | _ => simp [seen]

/-- The history has the requests and the answers of all handlers. -/
structure Recorded (s : Cluster) (H : List ClientEvent) : Prop where
  invoked : ∀ {n k : Nat} {handler : Handler},
    .invoke (n, k) handler ∈ H ↔ requestAt (s.nodes n) k = some handler
  responded : ∀ {n k : Nat} {resp : Response},
    .respond (n, k) resp ∈ H ↔ answerAt (s.nodes n) k = some resp

theorem recorded_init (codec : SnapshotCodec β) : Recorded (cluster codec).init [] where
  invoked := by simp [requestAt, cluster, Node.new]
  responded := by simp [answerAt, cluster, Node.new]

theorem Recorded.step (h : Recorded s H) (hstep : (cluster codec).step s a = some s') :
    Recorded s' (H ++ seen s a) := by
  rcases cluster_step_cases hstep with ⟨n, e, rfl, he, rfl⟩ | ⟨n, node', hnode, rfl⟩
  · have hquiet : seen s (.commit n) = [] := rfl
    rw [hquiet, List.append_nil]
    exact ⟨h.invoked, h.responded⟩
  · obtain ⟨hrequests, hanswers⟩ := calls_nodeStep hnode
    constructor
    · intro m k handler
      rw [List.mem_append, h.invoked]
      by_cases hm : m = n
      · subst hm
        rw [Cluster.setNode_nodes_self, hrequests]
      · rw [Cluster.setNode_nodes_of_ne s node' hm,
          or_iff_left fun hseen => hm ((seen_node hnode).1 hseen)]
    · intro m k resp
      rw [List.mem_append, h.responded]
      by_cases hm : m = n
      · subst hm
        rw [Cluster.setNode_nodes_self, hanswers]
      · rw [Cluster.setNode_nodes_of_ne s node' hm,
          or_iff_left fun hseen => hm ((seen_node hnode).2 hseen)]

/-! ## Entries and answers -/

/-- What holds of every command when it is submitted, and of all configuration changes, holds
of every log entry. -/
theorem entries_invariant {P : LogItem → Prop}
    (hrequest : ∀ n k (h : Handler), P (.command { cmd := h.command n, origin := some (n, k) }))
    (hexpiry : ∀ ids,
      P (.command { cmd := { kind := .leaseExpiry, leaseIDs := ids }, origin := none }))
    (hconfig : ∀ cc, P (.configChange cc))
    {G : Cluster → ClusterStep → Prop} (h : (cluster codec).ReachableBy G s) :
    (∀ n, ∀ e ∈ (s.nodes n).log, P e) ∧ ∀ e ∈ s.committed, P e := by
  refine h.invariant (I := fun s => (∀ n, ∀ e ∈ (s.nodes n).log, P e) ∧ ∀ e ∈ s.committed, P e)
    (by simp [cluster, Node.new]) ?_
  rintro s a s' - ⟨hlogs, hcommitted⟩ - hstep
  rcases cluster_step_cases hstep with ⟨n, e, rfl, he, rfl⟩ | ⟨n, node', hnode, rfl⟩
  · refine ⟨hlogs, fun e' he' => ?_⟩
    rcases List.mem_append.mp he' with hold | hnew
    · exact hcommitted e' hold
    · rw [List.mem_singleton.mp hnew]
      exact hlogs n e (List.mem_of_getElem? he)
  · refine ⟨s.setNode_forall (P := fun _ node => ∀ e ∈ node.log, P e) hlogs fun e he => ?_,
      hcommitted⟩
    cases hnode with
    | accept handler hl =>
      rcases List.mem_append.mp he with hold | hnew
      · exact hlogs n e hold
      · rw [List.mem_singleton.mp hnew]
        exact hrequest n _ handler
    | expire ids hl =>
      rcases List.mem_append.mp he with hold | hnew
      · exact hlogs n e hold
      · rw [List.mem_singleton.mp hnew]
        exact hexpiry ids
    | changeConfig cc hl =>
      rcases List.mem_append.mp he with hold | hnew
      · exact hlogs n e hold
      · rw [List.mem_singleton.mp hnew]
        exact hconfig cc
    | replace m len happlied hkeep =>
      rcases List.mem_append.mp he with hold | hnew
      · exact hlogs n e (List.mem_of_mem_take hold)
      · exact hlogs m e (List.mem_of_mem_drop (List.mem_of_mem_take hnew))
    | restore m env data hidle hbehind =>
      rcases List.mem_append.mp he with hold | hnew
      · exact hcommitted e (List.mem_of_mem_take hold)
      · exact hlogs n e (List.mem_of_mem_drop hnew)
    | _ => exact hlogs n e he

/-- Commands without a handler come from the lease-expiry loop. -/
theorem isExpiry_of_log {G : Cluster → ClusterStep → Prop} (h : (cluster codec).ReachableBy G s)
    {e : Entry} (he : .command e ∈ (s.nodes n).log) (horigin : e.origin = none) :
    IsExpiry e.cmd := by
  refine (entries_invariant (P := fun item => ∀ e ∈ item.entry, e.origin = none → IsExpiry e.cmd)
    ?_ ?_ ?_ h).1 n _ he e rfl horigin
  · rintro n k h e ⟨⟩ hnone
    cases hnone
  · rintro ids e ⟨⟩ -
    exact ⟨ids, rfl⟩
  · rintro cc e ⟨⟩

theorem applied_mono (h : NodeStep codec s n a node') : (s.nodes n).applied ≤ node'.applied := by
  cases h with
  | apply env hidle hlog hcommitted => exact Nat.le_succ _
  | pass env hidle hlog hcommitted => exact Nat.le_succ _
  | restore m env data hidle hbehind =>
    exact Nat.le_trans (Nat.le_of_lt hbehind) (by simp [Node.restore]; omega)
  | _ => exact le_rfl

/-- A handler that has an index answers only when the index has been applied. -/
theorem answered_applied (h : (cluster codec).ReachableBy IndexUnshared s) {k i : Nat}
    {run : HandlerRun} {resp : Response} (hrun : RunAt (s.nodes n) k run i)
    (hanswered : run.progress = .answered resp) : i < (s.nodes n).applied := by
  refine nodes_invariant (P := fun _ node => ∀ k run i resp, RunAt node k run i →
    run.progress = .answered resp → i < node.applied) ?_ ?_ h n k run i resp hrun hanswered
  · exact fun n k run i resp hrun => absurd hrun not_runAt_new
  · intro s n a node' hreach hold _ hstep k run i resp hrun hanswered
    refine lt_of_lt_of_le ?_ (applied_mono hstep)
    rcases handler_moves hstep hrun.1 with ⟨old, hk, -, hindex, hmoves⟩ | ⟨-, -, hnew | hnew⟩
    · have hat : RunAt (s.nodes n) k old i := ⟨hk, hindex ▸ hrun.2⟩
      rw [hanswered] at hmoves
      generalize hp : Progress.answered resp = p at hmoves
      cases hmoves with
      | stays => exact hold n k old i resp hat hp.symm
      | answers hinbox _ => exact (nodeInv_of_reachable hreach n).served hat hinbox
      | _ => cases hp
    · rw [hnew.2.2] at hanswered
      cases hanswered
    · cases hnew.1.symm.trans hrun.2

/-! ## The order -/

theorem getElem?_order {p : Nat} {origin : Option CallID} {cmd : Command} :
    s.order[p]? = some (origin, cmd) ↔
      (entriesOf s.committed)[p]? = some { cmd := cmd, origin := origin } := by
  rw [Cluster.order, List.getElem?_map, Option.map_eq_some_iff]
  constructor
  · rintro ⟨⟨cmd', origin'⟩, he, heq⟩
    cases heq
    exact he
  · exact fun he => ⟨_, he, rfl⟩

theorem order_commands (s : Cluster) : s.order.map Prod.snd = s.commands := List.map_map

theorem order_command (s : Cluster) (e : Entry) :
    Cluster.order { s with committed := s.committed ++ [.command e] } =
      s.order ++ [(e.origin, e.cmd)] := by
  rw [Cluster.order, entriesOf_append, List.map_append]
  rfl

theorem order_configChange (s : Cluster) (cc : ConfigChangeEntry) :
    Cluster.order { s with committed := s.committed ++ [.configChange cc] } = s.order := by
  rw [Cluster.order, entriesOf_append]
  exact congrArg _ (List.append_nil _)

/-- A committed command takes effect at its place among the commands, with the result that
replicas compute. -/
theorem effectAt_computed {i : Nat} {id : CallID} {cmd : Command} {c : CommitCmd}
    (h : Computed codec s.committed i { cmd := cmd, origin := some id } c) :
    EffectAt kvObject s.order (commandsBefore s.committed i) id c := by
  obtain ⟨hcommitted, t, env, ht, rfl⟩ := h
  refine ⟨cmd, getElem?_order.mpr (getElem?_entriesOf hcommitted), ?_⟩
  rw [List.map_take, order_commands]
  exact SpecRefinementLemmas.result_replica ht env cmd

/-- What a handler answers to the contents of its channel is explained by the order. -/
theorem explained_of_inbox (h : (cluster codec).ReachableBy IndexUnshared s) {k : Nat}
    {run : HandlerRun} {r : Option CommitCmd} {resp : Response}
    (hrun : (s.nodes n).handlers[k]? = some run) (hinbox : run.progress = .waiting (some r))
    (hresp : run.handler.respond n r = some resp) :
    (∃ i c, EffectAt kvObject s.order i (n, k) c ∧
      kvInterface.explains (n, k) run.handler (some c) resp) ∨
    (∀ (i : Nat) (cmd : Command), s.order[i]? ≠ some (some (n, k), cmd)) ∧
      kvInterface.explains (n, k) run.handler none resp := by
  have hfailed : resp = .failedCommit ∨ ∃ i c, EffectAt kvObject s.order i (n, k) c ∧
      run.handler.respond n (some c) = some resp := by
    cases r with
    | none => exact .inl (Option.some.inj hresp).symm
    | some c =>
      have hinv := nodeInv_of_reachable h n
      obtain ⟨i, hi⟩ := hinv.indexed hrun (by rw [hinbox]; rfl)
      obtain ⟨e, hresult, hown⟩ := hinv.inbox ⟨hrun, hi⟩ hinbox
      have hcomputed := (nodeReplica_of_reachable h n).results hresult
      by_cases hid : c.serviceID = n
      · rw [hown hid] at hcomputed
        exact .inr ⟨_, c, effectAt_computed hcomputed, hresp⟩
      · rw [Handler.respond, if_neg hid] at hresp
        exact .inl (Option.some.inj hresp).symm
  rcases hfailed with rfl | ⟨i, c, heffect, hc⟩
  · by_cases hin : ∃ (i : Nat) (cmd : Command), s.order[i]? = some (some (n, k), cmd)
    · obtain ⟨i, cmd, hi⟩ := hin
      exact .inl ⟨i, _, ⟨cmd, hi, rfl⟩, .inr rfl⟩
    · exact .inr ⟨fun i cmd hi => hin ⟨i, cmd, hi⟩, .inr rfl⟩
  · exact .inl ⟨i, c, heffect, .inl hc⟩

/-- The history of a run and its linearization. -/
structure Linearized (s : Cluster) (H : List ClientEvent) : Prop where
  calls : Recorded s H
  wellFormed : WellFormed H
  order : Linearization kvObject kvInterface IsExpiry H s.order

/-- A commit is the moment at which a call takes effect, if it has not been answered yet; and
no call is answered before its entry is committed. -/
theorem Linearized.commit (h : (cluster codec).ReachableBy IndexUnshared s) (hlin : Linearized s H)
    {e : Entry} (he : (s.nodes n).log[s.committed.length]? = some (.command e)) :
    Linearized { s with committed := s.committed ++ [.command e] } H where
  calls := ⟨hlin.calls.invoked, hlin.calls.responded⟩
  wellFormed := hlin.wellFormed
  order := by
    have horigins := origins_of_reachable h
    have hfrom := horigins.logged n _ e he
    rw [order_command]
    obtain ⟨cmd, origin⟩ := e
    cases origin with
    | none => exact hlin.order.internal (isExpiry_of_log h (List.mem_of_getElem? he) rfl)
    | some id =>
      obtain ⟨m, k⟩ := id
      obtain ⟨handler, hrequest, hcmd⟩ := hfrom
      obtain ⟨run, hrun, rfl⟩ := getElem?_requests hrequest
      cases hcmd
      refine hlin.order.perform (hlin.calls.invoked.mpr (requestAt_eq_some.mpr ⟨run, hrun.1, rfl⟩))
        (fun resp hresp => ?_) fun i cmd' hi => ?_
      · obtain ⟨run', hrun', hanswered⟩ := answerAt_eq_some.mp (hlin.calls.responded.mp hresp)
        obtain rfl := Option.some.inj (hrun.1.symm.trans hrun')
        have := answered_applied h hrun hanswered
        have := horigins.applied_le m
        omega
      · -- an entry of this call that is committed already would have this index
        obtain ⟨j, hj, -⟩ := exists_index (getElem?_order.mp hi)
        obtain ⟨handler', hrequest', -⟩ := horigins.committed j _ hj
        rw [hrequest] at hrequest'
        have hsame : s.committed.length = j := by
          simpa using congrArg Prod.snd (Option.some.inj hrequest')
        have := (List.getElem?_eq_some_iff.mp hj).1
        omega

/-- A configuration change has no place in the order. -/
theorem Linearized.commitConfig (hlin : Linearized s H) (cc : ConfigChangeEntry) :
    Linearized { s with committed := s.committed ++ [.configChange cc] } H where
  calls := ⟨hlin.calls.invoked, hlin.calls.responded⟩
  wellFormed := hlin.wellFormed
  order := by
    rw [order_configChange]
    exact hlin.order

/-- A call that has no handler yet is new. -/
theorem Linearized.new (hlin : Linearized s H) :
    (∀ handler, .invoke (n, (s.nodes n).handlers.length) handler ∉ H) ∧
    ∀ resp, .respond (n, (s.nodes n).handlers.length) resp ∉ H := by
  constructor
  · intro handler hmem
    have hat := hlin.calls.invoked.mp hmem
    simp [requestAt] at hat
  · intro resp hmem
    have hat := hlin.calls.responded.mp hmem
    simp [answerAt] at hat

/-- The other steps leave the order alone and show at most one call. -/
theorem Linearized.nodeStep (h : (cluster codec).ReachableBy IndexUnshared s)
    (hlin : Linearized s H) (hnode : NodeStep codec s n a node') :
    WellFormed (H ++ seen s a) ∧
      Linearization kvObject kvInterface IsExpiry (H ++ seen s a) s.order := by
  obtain ⟨hcalls, hwell, horder⟩ := hlin
  obtain ⟨hnew, hunanswered⟩ := Linearized.new (n := n) ⟨hcalls, hwell, horder⟩
  have hquiet {b : ClusterStep} (hseen : seen s b = []) : WellFormed (H ++ seen s b) ∧
      Linearization kvObject kvInterface IsExpiry (H ++ seen s b) s.order := by
    rw [hseen, List.append_nil]
    exact ⟨hwell, horder⟩
  cases hnode with
  | accept handler hl =>
    rw [seen_accept handler hl]
    exact ⟨hwell.invoke handler hnew, horder.invoke handler hnew⟩
  | turnAway handler hl =>
    rw [seen_turnAway handler hl, List.append_cons]
    have hbegun : .invoke (n, (s.nodes n).handlers.length) handler ∈
        H ++ [.invoke (n, (s.nodes n).handlers.length) handler] := by simp
    refine ⟨(hwell.invoke handler hnew).respond _ hbegun fun resp hmem => ?_,
      (horder.invoke handler hnew).respond hbegun (.inr ⟨fun i cmd hi => ?_, .inl rfl⟩)⟩
    · refine hunanswered resp ?_
      simpa using hmem
    · -- the order has calls of the history only
      obtain ⟨handler', hmem, -⟩ := horder.asked hi
      exact hnew handler' hmem
  | @receive k run r hrun hinbox =>
    rw [seen_receive hrun hinbox]
    cases hresp : run.handler.respond n r with
    | none =>
      rw [Option.map_none, Option.toList_none, List.append_nil]
      exact ⟨hwell, horder⟩
    | some resp =>
      rw [Option.map_some, Option.toList_some]
      have hbegun := hcalls.invoked.mpr (requestAt_eq_some.mpr ⟨run, hrun, rfl⟩)
      refine ⟨hwell.respond resp hbegun fun resp' hmem => ?_,
        horder.respond hbegun (explained_of_inbox h hrun hinbox hresp)⟩
      obtain ⟨run', hrun', hanswered⟩ := answerAt_eq_some.mp (hcalls.responded.mp hmem)
      obtain rfl := Option.some.inj (hrun.symm.trans hrun')
      rw [hinbox] at hanswered
      cases hanswered
  | _ => exact hquiet rfl

theorem linearized_of_reachable {s : Cluster × List ClientEvent}
    (h : (recorded codec).ReachableBy (fun s => IndexUnshared s.1) s) : Linearized s.1 s.2 := by
  refine h.invariant (I := fun s => Linearized s.1 s.2) ⟨recorded_init codec, .nil, .nil⟩ ?_
  rintro ⟨s, H⟩ a ⟨s', H'⟩ hreach hlin hguard hstep
  obtain ⟨hstep, rfl⟩ := Machine.observed_step hstep
  have hreach := hreach.of_observed
  rcases cluster_step_cases hstep with ⟨n, item, rfl, hitem, rfl⟩ | ⟨n, node', hnode, rfl⟩
  · have hquiet : seen s (.commit n) = [] := rfl
    simp only [hquiet, List.append_nil]
    cases item with
    | command e => exact hlin.commit hreach hitem
    | configChange cc => exact hlin.commitConfig cc
  · obtain ⟨hwell, horder⟩ := hlin.nodeStep hreach hnode
    exact ⟨hlin.calls.step hstep, hwell, horder⟩

end LinearizableLemmas

open LinearizableLemmas

/-! ## Main result -/

end Zodiac
