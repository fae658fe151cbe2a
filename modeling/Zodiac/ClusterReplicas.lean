import Zodiac.Acknowledge
import Zodiac.KeepAlive
import Zodiac.SpecRefinement

/-!
# Nodes as replicas

The modules on the log are about the replicas of a log, those on handlers about the nodes
of a cluster. In every run of the cluster each node is a replica of the committed log, and
what it records at an index is what replicas compute there.

* `NodeReplica`, `nodeReplica_of_reachable`: every node is a replica.
* `nodes_agree`: nodes that have come equally far agree.
* `ok_answers_sequential`: where no two handlers share an index, an OK answer is the
  answer of a single service that applies the committed log in order.
* `answered_of_reachable`: there, all answers are `Answered`.
* `keepAlive_in_cluster`: what a successful keepalive means for the nodes.
-/

namespace Zodiac

variable {β : Type}

/-- Some replica of the committed commands applies the command `e` of index `i`, with result
`c`. -/
def Computed (codec : SnapshotCodec β) (committed : List LogItem) (i : Nat) (e : Entry)
    (c : CommitCmd) : Prop :=
  committed[i]? = some (.command e) ∧ ∃ t env,
    (replicated codec).ReplicaAt (commandsOf committed) (commandsBefore committed i) t ∧
    c = (t.handleCommand codec env e.cmd (commandsBefore committed i)).2.cmd

/-- The node agrees with a replica of the committed commands, and so did the states in which
it got its results. -/
structure NodeReplica (codec : SnapshotCodec β) (committed : List LogItem) (node : Node) : Prop where
  applied_le : node.applied ≤ committed.length
  service : (replicated codec).AgreesAt Agree (commandsOf committed)
    (commandsBefore committed node.applied) node.service
  results : ∀ {i e c}, node.results.lookup i = some (e, c) → Computed codec committed i e c

open History NodeStepLemmas NodeInvariantLemmas AcknowledgeLemmas

variable {codec : SnapshotCodec β} {committed : List LogItem} {node node' : Node} {s s' : Cluster}
  {a : ClusterStep}

theorem Computed.concat {i : Nat} {e : Entry} {c : CommitCmd} (h : Computed codec committed i e c)
    (item : LogItem) : Computed codec (committed ++ [item]) i e c := by
  obtain ⟨he, t, env, ht, hc⟩ := h
  have hi : i ≤ committed.length := Nat.le_of_lt (List.getElem?_eq_some_iff.mp he).1
  refine ⟨getElem?_append_of_some he, t, env, ?_, ?_⟩
  · rw [commandsOf_append, commandsBefore_append hi]
    exact ht.extend _
  · rw [commandsBefore_append hi]
    exact hc

namespace NodeReplica

/-! ## One node -/

theorem new (codec : SnapshotCodec β) : NodeReplica codec [] .new where
  applied_le := le_rfl
  service := ⟨_, .init, agree_equivalence.refl _⟩
  results h := by simp [Node.new] at h

theorem concat (h : NodeReplica codec committed node) (item : LogItem) :
    NodeReplica codec (committed ++ [item]) node where
  applied_le := le_trans h.applied_le (by simp)
  service := by
    rw [commandsOf_append, commandsBefore_append h.applied_le]
    exact h.service.extend _
  results hl := (h.results hl).concat item

/-- Steps in which the apply loop does nothing. -/
theorem idle (h : NodeReplica codec committed node) (hservice : node'.service = node.service)
    (happlied : node'.applied = node.applied) (hresults : node'.results = node.results) :
    NodeReplica codec committed node' where
  applied_le := happlied ▸ h.applied_le
  service := by
    rw [hservice, happlied]
    exact h.service
  results hl := by
    rw [hresults] at hl
    exact h.results hl

/-- What the node computes for a command is what a replica computes. -/
theorem computed (h : NodeReplica codec committed node) (env : Env) {e : Entry}
    (he : committed[node.applied]? = some (.command e)) :
    Computed codec committed node.applied e
      (node.service.handleCommand codec env e.cmd node.applied).2.cmd := by
  obtain ⟨t, ht, hagree⟩ := h.service
  exact ⟨he, t, env, ht, (deterministic_replicated codec).output env env node.applied
    (commandsBefore committed node.applied) e.cmd hagree⟩

theorem apply (h : NodeReplica codec committed node) (env : Env) {e : Entry}
    (he : committed[node.applied]? = some (.command e)) :
    NodeReplica codec committed (node.apply codec env e) where
  applied_le := (List.getElem?_eq_some_iff.mp he).1
  service := by
    simp only [Node.apply, commandsBefore_command he]
    exact h.service.apply (deterministic_replicated codec) env node.applied
      (getElem?_commandsOf he)
  results hl := by
    simp only [Node.apply, Finmap.lookup_insert_ite] at hl
    split at hl
    · next heq =>
      cases hl
      subst heq
      exact h.computed env he
    · exact h.results hl

/-- A configuration change is no command. -/
theorem pass (h : NodeReplica codec committed node) {cc : ConfigChangeEntry}
    (hcc : committed[node.applied]? = some (.configChange cc)) :
    NodeReplica codec committed node.passConfigChange where
  applied_le := (List.getElem?_eq_some_iff.mp hcc).1
  service := by
    simp only [Node.passConfigChange, commandsBefore_configChange hcc]
    exact h.service
  results hl := h.results hl

/-- A snapshot of another node that is ahead. -/
theorem restore {other : Node} (h : NodeReplica codec committed node)
    (hother : NodeReplica codec committed other) (hbehind : node.applied < other.applied)
    {env : Env} {data : β}
    (hsave : other.service.encodeSnapshot codec env.snapshotKeys = some data) :
    NodeReplica codec committed (node.restore codec (other.applied - 1) data committed) where
  applied_le := by
    have := hother.applied_le
    simp only [Node.restore]
    omega
  service := by
    have hrestored := hother.service.restore (e := env) (deterministic_replicated codec) hsave
      node.service other.applied
    have happlied : other.applied - 1 + 1 = other.applied := by omega
    have hindex : ((other.applied - 1 : Nat) : Int) = other.applied - 1 := by omega
    simp only [Node.restore, happlied, hindex]
    exact hrestored
  results hl := h.results hl

theorem leaseInv (h : NodeReplica codec committed node) : LeaseInv node.service.ds := by
  obtain ⟨t, ht, hagree⟩ := h.service
  rw [← LeaseRemovalLemmas.leaseInv_timeless, hagree.store, LeaseRemovalLemmas.leaseInv_timeless]
  exact LeaseRemovalLemmas.leaseInv_replica ht

/-- The node is in the state of the specification after the commands it has come past. -/
theorem spec (h : NodeReplica codec committed node) :
    node.service.spec = .after (commandsOf (committed.take node.applied)) := by
  obtain ⟨t, ht, hagree⟩ := h.service
  rw [SpecRefinementLemmas.spec_of_agree hagree, SpecRefinementLemmas.spec_replica ht,
    take_commandsOf]

/-- It gives the specification's result. -/
theorem result (h : NodeReplica codec committed node) (env : Env) (cmd : Command) (index : Int) :
    (node.service.handleCommand codec env cmd index).2.cmd =
      ((KVSpec.after (commandsOf (committed.take node.applied))).apply cmd).2 := by
  rw [KVService.handleCommand_cmd, ← h.spec,
    ← SpecRefinementLemmas.spec_applyCommand h.leaseInv env cmd]

end NodeReplica

/-! ## Runs -/

theorem nodeReplica_step (h : ∀ n, NodeReplica codec s.committed (s.nodes n))
    (hstep : (cluster codec).step s a = some s') (n : Nat) :
    NodeReplica codec s'.committed (s'.nodes n) := by
  rcases cluster_step_cases hstep with ⟨m, e, -, -, rfl⟩ | ⟨m, node', hnode, rfl⟩
  · exact (h n).concat e
  refine s.setNode_forall h ?_ n
  cases hnode with
  | apply env hidle hlog hcommitted => exact (h m).apply env hcommitted
  | pass env hidle hlog hcommitted => exact (h m).pass hcommitted
  | restore k env data hidle hbehind =>
    -- the data is what node `k` has saved
    simp only [cluster, hidle, hbehind, and_self, if_true] at hstep
    obtain ⟨data', hsave, heq⟩ := Option.map_eq_some_iff.mp hstep
    have hsame := congrArg (fun s => s.nodes m) heq
    simp only [Cluster.setNode_nodes_self] at hsame
    rw [← hsame]
    exact (h m).restore (h k) hbehind hsave
  | _ => exact (h m).idle rfl rfl rfl

/-- Every node of every run is a replica of the committed log. -/
theorem nodeReplica_of_reachable {G : Cluster → ClusterStep → Prop}
    (h : (cluster codec).ReachableBy G s) (n : Nat) : NodeReplica codec s.committed (s.nodes n) :=
  h.invariant (I := fun s => ∀ n, NodeReplica codec s.committed (s.nodes n))
    (fun _ => .new codec) (fun _ _ _ _ hinv _ hstep => nodeReplica_step hinv hstep) n

/-- Nodes that have come equally far agree on everything that is replicated. -/
theorem nodes_agree {G : Cluster → ClusterStep → Prop} (h : (cluster codec).ReachableBy G s)
    {n m : Nat} (happlied : (s.nodes n).applied = (s.nodes m).applied) :
    Agree (s.nodes n).service (s.nodes m).service := by
  obtain ⟨t, ht, hagree⟩ := (nodeReplica_of_reachable h n).service
  obtain ⟨t', ht', hagree'⟩ := (nodeReplica_of_reachable h m).service
  rw [happlied] at ht
  have hsame := ht.agree (deterministic_replicated codec) ht'
  exact agree_equivalence.trans hagree
    (agree_equivalence.trans hsame (agree_equivalence.symm hagree'))

/-! ## Answers -/

/-- In every run in which no two handlers of a node share an index, an OK answer is the one
of a single service: the entry of the handler is committed at its index, and every
replica that applies it there gives this answer. -/
theorem ok_answers_sequential (h : (cluster codec).ReachableBy IndexUnshared s) {n k : Nat}
    {run : HandlerRun} {body : Body} (hrun : (s.nodes n).handlers[k]? = some run)
    (hok : run.progress = .answered (.ok body)) :
    ∃ i, run.index = some i ∧
      s.committed[i]? = some (.command { cmd := run.handler.command n, origin := some (n, k) }) ∧
      ∀ t env, (replicated codec).ReplicaAt s.commands (commandsBefore s.committed i) t →
        run.handler.body (t.handleCommand codec env (run.handler.command n)
          (commandsBefore s.committed i)).2.cmd = some body := by
  obtain ⟨i, c, hindex, hresult, hbody⟩ := (nodeInv_of_reachable h n).answers hrun hok
  obtain ⟨hcommitted, t', env', ht', rfl⟩ := (nodeReplica_of_reachable h n).results hresult
  refine ⟨i, hindex, hcommitted, fun t env ht => ?_⟩
  rw [← hbody]
  exact congrArg run.handler.body (ht.output_eq (deterministic_replicated codec) ht' env env' _)

theorem Answered.extend {log : List Command} {h : Handler} {resp : Response}
    (hanswered : Answered codec log h resp) (more : List Command) :
    Answered codec (log ++ more) h resp := by
  cases hanswered with
  | notLeader => exact .notLeader
  | closed hresp => exact .closed hresp
  | applied ht hcmd hown hresp =>
    exact .applied (ht.extend more) (getElem?_append_of_some hcmd) hown hresp

/-- What a handler answers to the contents of its channel. -/
theorem answered_of_inbox {n : Nat} (hinv : NodeInv n (s.nodes n))
    (hreplica : NodeReplica codec s.committed (s.nodes n)) {k : Nat} {run : HandlerRun}
    {r : Option CommitCmd} {resp : Response} (hrun : (s.nodes n).handlers[k]? = some run)
    (hinbox : run.progress = .waiting (some r)) (hresp : run.handler.respond n r = some resp) :
    Answered codec s.commands run.handler resp := by
  cases r with
  | none => exact .closed hresp
  | some c =>
    obtain ⟨i, hi⟩ := hinv.indexed hrun (by rw [hinbox]; rfl)
    obtain ⟨e, hresult, hown⟩ := hinv.inbox ⟨hrun, hi⟩ hinbox
    obtain ⟨hcommitted, t, env, ht, rfl⟩ := hreplica.results hresult
    refine .applied ht (getElem?_commandsOf hcommitted) (fun hid => ?_) hresp
    rw [hown (by rw [KVService.handleCommand_cmd, KVService.applyCommand_toCommand, hid])]

/-- All answers of the node come from the log. -/
def AllAnswered (codec : SnapshotCodec β) (committed : List LogItem) (node : Node) : Prop :=
  ∀ (k : Nat) (run : HandlerRun) (resp : Response), node.handlers[k]? = some run →
    run.progress = .answered resp → Answered codec (commandsOf committed) run.handler resp

theorem allAnswered_nodeStep {n : Nat} (hinv : NodeInv n (s.nodes n))
    (hreplica : NodeReplica codec s.committed (s.nodes n))
    (h : AllAnswered codec s.committed (s.nodes n)) (hstep : NodeStep codec s n a node') :
    AllAnswered codec s.committed node' := by
  intro k run resp hrun hresp
  rcases handler_moves hstep hrun with ⟨old, hold, hhandler, -, hmoves⟩ | ⟨-, -, hnew | hnew⟩
  · rw [hhandler]
    rw [hresp] at hmoves
    generalize hp : Progress.answered resp = p at hmoves
    cases hmoves with
    | stays => exact h k old resp hold hp.symm
    | answers hinbox hanswer =>
      cases hp
      exact answered_of_inbox hinv hreplica hold hinbox hanswer
    | _ => cases hp
  · rw [hnew.2.2] at hresp
    cases hresp
  · rw [hnew.2] at hresp
    cases hresp
    exact .notLeader

/-- In every run in which no two handlers of a node share an index, all answers come from
the committed log. -/
theorem answered_of_reachable (h : (cluster codec).ReachableBy IndexUnshared s) (n : Nat) :
    AllAnswered codec s.committed (s.nodes n) := by
  refine h.invariant (I := fun s => ∀ n, AllAnswered codec s.committed (s.nodes n)) ?_ ?_ n
  · intro n k run resp hrun
    simp [cluster, Node.new] at hrun
  · intro s a s' hreach hall hguard hstep
    rcases cluster_step_cases hstep with ⟨m, e, -, -, rfl⟩ | ⟨m, node', hnode, rfl⟩
    · intro n k run resp hrun hresp
      rw [commandsOf_append]
      exact (hall n k run resp hrun hresp).extend _
    · exact s.setNode_forall hall (allAnswered_nodeStep (nodeInv_of_reachable hreach m)
        (nodeReplica_of_reachable hreach m) (hall m) hnode)

/-- `LeaseKeepAlive` against the cluster: a nil result belongs to a committed entry, which
renews the lease on the nodes exactly if the lease was live. -/
theorem keepAlive_in_cluster (h : (cluster codec).ReachableBy IndexUnshared s) {c c' : KVClient}
    {id : Int} {rounds : LeaseRequest → List Attempt}
    (hserved : ∀ resp, .answered resp ∈ rounds (c.keepAliveRequest id) →
      ∃ (n k : Nat) (run : HandlerRun), (s.nodes n).handlers[k]? = some run ∧
        run.handler = handleLeaseKeepAlive (c.keepAliveRequest id) ∧
        run.progress = .answered resp)
    (hnil : c.leaseKeepAlive id rounds = some (c', none)) :
    ∃ n i, s.commands[i]? =
        some ((handleLeaseKeepAlive (c.keepAliveRequest id)).command n) ∧
      ∀ t env, (replicated codec).ReplicaAt s.commands i t →
        (Renews codec env t ((handleLeaseKeepAlive (c.keepAliveRequest id)).command n) i id ↔
          LiveAt codec s.commands i id) := by
  obtain ⟨body, hbody⟩ := KeepAliveLemmas.answered_of_nil hnil
  obtain ⟨m, k, run, hrun, hhandler, hok⟩ := hserved _ hbody
  have hanswered := answered_of_reachable h m k run _ hrun hok
  rw [hhandler] at hanswered
  obtain ⟨n, i, t', hentry, ht', hfresh⟩ := KeepAliveLemmas.entry_of_ok hanswered
  exact ⟨n, i, hentry, fun t env ht => KeepAliveLemmas.renews_iff_liveAt rfl ht' hfresh ht env⟩

end Zodiac
