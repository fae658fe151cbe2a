import Zodiac.Cluster

/-!
# What a step of the cluster can do

Every step but a commit changes one node. `NodeStep` says what each step can make
of it, with the conditions under which it does, so that an invariant of the nodes
is one case analysis over its constructors.

* `cluster_step_cases`: a step is a commit or a `NodeStep` of one node.
* `nodes_invariant`: the invariant rule for properties of the nodes.
-/

namespace Zodiac

open History

namespace NodeStepLemmas

/-! ## Handlers by position -/

/-- Handler `k` of the node, whose `Submit` returned index `i`. -/
def RunAt (node : Node) (k : Nat) (run : HandlerRun) (i : Nat) : Prop :=
  node.handlers[k]? = some run ∧ run.index = some i

theorem not_runAt_new {k : Nat} {run : HandlerRun} {i : Nat} : ¬ RunAt .new k run i := by
  rintro ⟨h, _⟩
  simp [Node.new] at h

theorem RunAt.unique {node : Node} {k : Nat} {run run' : HandlerRun} {i i' : Nat}
    (h : RunAt node k run i) (h' : RunAt node k run' i') : run = run' ∧ i = i' := by
  obtain rfl : run = run' := Option.some.inj (h.1.symm.trans h'.1)
  exact ⟨rfl, Option.some.inj (h.2.symm.trans h'.2)⟩

variable {n : Nat} {node : Node}

theorem getElem?_setProgress (node : Node) (k j : Nat) (p : Progress) :
    (node.setProgress k p).handlers[j]? = if k = j then
      node.handlers[j]?.map fun run => { run with progress := p } else node.handlers[j]? := by
  rw [Node.setProgress, List.getElem?_modify]
  split
  · rfl
  · exact congrFun Option.map_id _

theorem getElem?_setProgress_self {k : Nat} {run : HandlerRun} (p : Progress)
    (h : node.handlers[k]? = some run) :
    (node.setProgress k p).handlers[k]? = some { run with progress := p } := by
  rw [getElem?_setProgress, if_pos rfl, h]
  rfl

theorem getElem?_setProgress_of_ne {k j : Nat} (p : Progress) (h : j ≠ k) :
    (node.setProgress k p).handlers[j]? = node.handlers[j]? := by
  rw [getElem?_setProgress, if_neg fun he => h he.symm]

/-- The handlers after the progress of handler `k`, by position. -/
theorem getElem?_setProgress_cases {k j : Nat} {run run' : HandlerRun} {p : Progress}
    (hrun : node.handlers[k]? = some run) (hj : (node.setProgress k p).handlers[j]? = some run') :
    (j = k ∧ run' = { run with progress := p }) ∨ (j ≠ k ∧ node.handlers[j]? = some run') := by
  by_cases heq : j = k
  · subst heq
    rw [getElem?_setProgress_self p hrun] at hj
    exact .inl ⟨rfl, (Option.some.inj hj).symm⟩
  · rw [getElem?_setProgress_of_ne p heq] at hj
    exact .inr ⟨heq, hj⟩

/-- A handler after a restore: its subscription was closed under it, or nothing
happened to it. -/
theorem getElem?_restore_cases {β : Type} {codec : SnapshotCodec β} {index : Nat} {data : β}
    {committed : List LogItem} {k : Nat} {run' : HandlerRun}
    (hk : (node.restore codec index data committed).handlers[k]? = some run') :
    (∃ run i, RunAt node k run i ∧ run.progress = .waiting none ∧ i ≤ index ∧
      node.commitSubs.lookup i = some k ∧ run' = { run with progress := .waiting (some none) }) ∨
    (node.handlers[k]? = some run' ∧ ∀ i, run'.index = some i → run'.progress = .waiting none →
      i ≤ index → node.commitSubs.lookup i ≠ some k) := by
  simp only [Node.restore, List.getElem?_mapIdx, Option.map_eq_some_iff] at hk
  obtain ⟨run, hrun, rfl⟩ := hk
  split
  · next i hi hp =>
    simp only [Finmap.lookup_filterKeys, decide_eq_true_eq]
    by_cases hle : i ≤ index
    · by_cases hsub : node.commitSubs.lookup i = some k
      · rw [if_pos hle, if_pos hsub]
        exact .inl ⟨run, i, ⟨hrun, hi⟩, hp, hle, hsub, rfl⟩
      · rw [if_pos hle, if_neg hsub]
        refine .inr ⟨hrun, fun j hj _ _ => ?_⟩
        obtain rfl := Option.some.inj (hi.symm.trans hj)
        exact hsub
    · rw [if_neg hle, if_neg nofun]
      refine .inr ⟨hrun, fun j hj _ hle' => ?_⟩
      obtain rfl := Option.some.inj (hi.symm.trans hj)
      exact absurd hle' hle
  · next hother => exact .inr ⟨hrun, fun i hi hp => absurd hp (hother i hi)⟩

theorem lookup_restore_commitSubs {β : Type} (codec : SnapshotCodec β) (node : Node) (index : Nat)
    (data : β) (committed : List LogItem) (i : Nat) :
    (node.restore codec index data committed).commitSubs.lookup i =
      if i ≤ index then none else node.commitSubs.lookup i := by
  simp only [Node.restore, Finmap.lookup_filterKeys]
  by_cases h : i ≤ index <;> simp [h]

end NodeStepLemmas

open NodeStepLemmas

/-! ## Steps of one node in the cluster -/

/-- What the step `a` can make of node `n`. -/
inductive NodeStep {β : Type} (codec : SnapshotCodec β) (s : Cluster) (n : Nat) :
    ClusterStep → Node → Prop
  | lead (b : Bool) : NodeStep codec s n (.lead n b) { s.nodes n with isLeader := b }
  /-- `Submit` on the leader. -/
  | accept (h : Handler) (hleader : (s.nodes n).isLeader = true) :
    NodeStep codec s n (.submit n h) { s.nodes n with
      log := (s.nodes n).log ++
        [.command { cmd := h.command n, origin := some (n, (s.nodes n).handlers.length) }]
      handlers := (s.nodes n).handlers ++
        [{ handler := h, index := some (s.nodes n).log.length, progress := .submitted }] }
  /-- `Submit` on any other node. -/
  | turnAway (h : Handler) (hleader : (s.nodes n).isLeader = false) :
    NodeStep codec s n (.submit n h) { s.nodes n with
      handlers := (s.nodes n).handlers ++
        [{ handler := h, index := none, progress := .answered .notLeader }] }
  | subscribe {k i : Nat} {run : HandlerRun} (hrun : RunAt (s.nodes n) k run i)
      (hsubmitted : run.progress = .submitted) (hfree : i ∉ (s.nodes n).commitSubs) :
    NodeStep codec s n (.subscribe n k) { (s.nodes n).setProgress k (.waiting none) with
      commitSubs := (s.nodes n).commitSubs.insert i k }
  /-- `createCommitSubscription` finds the index present. -/
  | crash {k i : Nat} {run : HandlerRun} (hrun : RunAt (s.nodes n) k run i)
      (hsubmitted : run.progress = .submitted) (hpresent : i ∈ (s.nodes n).commitSubs) :
    NodeStep codec s n (.subscribe n k) ((s.nodes n).setProgress k .gone)
  | receive {k : Nat} {run : HandlerRun} {r : Option CommitCmd}
      (hrun : (s.nodes n).handlers[k]? = some run) (hinbox : run.progress = .waiting (some r)) :
    NodeStep codec s n (.receive n k) ((s.nodes n).setProgress k
      (match run.handler.respond n r with
        | some resp => .answered resp
        | none => .gone))
  | disconnect {k : Nat} {run : HandlerRun} {inbox : Option (Option CommitCmd)}
      (hrun : (s.nodes n).handlers[k]? = some run) (hwaits : run.progress = .waiting inbox) :
    NodeStep codec s n (.disconnect n k) ((s.nodes n).setProgress k .gone)
  | expire {now : Time} {order : RangeOrder Int} (ids : List Int)
      (hleader : (s.nodes n).isLeader = true) :
    NodeStep codec s n (.expire n now order) { s.nodes n with
      log := (s.nodes n).log ++
        [.command { cmd := { kind := .leaseExpiry, leaseIDs := ids }, origin := none }] }
  /-- Only the leader can submit the expired leases. -/
  | expireDropped {now : Time} {order : RangeOrder Int} (hleader : (s.nodes n).isLeader = false) :
    NodeStep codec s n (.expire n now order) (s.nodes n)
  | changeConfig (cc : ConfigChangeEntry) (hleader : (s.nodes n).isLeader = true) :
    NodeStep codec s n (.changeConfig n cc) { s.nodes n with
      log := (s.nodes n).log ++ [.configChange cc] }
  | replace (m len : Nat) {keep : Nat} (happlied : (s.nodes n).applied ≤ keep)
      (hkeep : keep ≤ (s.nodes n).log.length) :
    NodeStep codec s n (.replace n m keep len) { s.nodes n with
      log := (s.nodes n).log.take keep ++ ((s.nodes m).log.drop keep).take len }
  | apply (env : Env) {e : Entry} (hidle : (s.nodes n).sending = none)
      (hlog : (s.nodes n).log[(s.nodes n).applied]? = some (.command e))
      (hcommitted : s.committed[(s.nodes n).applied]? = some (.command e)) :
    NodeStep codec s n (.apply n env) ((s.nodes n).apply codec env e)
  /-- The next entry is a configuration change. -/
  | pass (env : Env) {cc : ConfigChangeEntry} (hidle : (s.nodes n).sending = none)
      (hlog : (s.nodes n).log[(s.nodes n).applied]? = some (.configChange cc))
      (hcommitted : s.committed[(s.nodes n).applied]? = some (.configChange cc)) :
    NodeStep codec s n (.apply n env) (s.nodes n).passConfigChange
  /-- The popped subscription is one that its handler still waits on. -/
  | deliver {k : Nat} {c : CommitCmd} {run : HandlerRun}
      (hsending : (s.nodes n).sending = some (k, c))
      (hrun : (s.nodes n).handlers[k]? = some run) (hwaits : run.progress = .waiting none) :
    NodeStep codec s n (.send n)
      { (s.nodes n).setProgress k (.waiting (some (some c))) with sending := none }
  /-- Nobody waits on the popped subscription. -/
  | drop {k : Nat} {c : CommitCmd} (hsending : (s.nodes n).sending = some (k, c))
      (hnobody : ∀ run, (s.nodes n).handlers[k]? = some run → run.progress ≠ .waiting none) :
    NodeStep codec s n (.send n) { s.nodes n with sending := none }
  | restore (m : Nat) (env : Env) (data : β) (hidle : (s.nodes n).sending = none)
      (hbehind : (s.nodes n).applied < (s.nodes m).applied) :
    NodeStep codec s n (.restore n m env)
      ((s.nodes n).restore codec ((s.nodes m).applied - 1) data s.committed)

namespace NodeStepLemmas

variable {β : Type} {codec : SnapshotCodec β} {s s' : Cluster} {n : Nat}

theorem nodeStep_submit (codec : SnapshotCodec β) (s : Cluster) (n : Nat) (h : Handler) :
    NodeStep codec s n (.submit n h) ((s.nodes n).startHandler n h) := by
  cases hl : (s.nodes n).isLeader with
  | true =>
    rw [Node.startHandler_leader hl]
    exact .accept h hl
  | false =>
    rw [Node.startHandler_follower hl]
    exact .turnAway h hl

theorem nodeStep_subscribe {k : Nat} {node' : Node} (h : (s.nodes n).subscribe k = some node') :
    NodeStep codec s n (.subscribe n k) node' := by
  unfold Node.subscribe at h
  split at h
  · next hrun =>
    split at h
    · next hpresent =>
      cases h
      exact .crash ⟨hrun, rfl⟩ rfl hpresent
    · next hfree =>
      cases h
      exact .subscribe ⟨hrun, rfl⟩ rfl hfree
  · cases h

theorem nodeStep_receive {k : Nat} {node' : Node} (h : (s.nodes n).receive n k = some node') :
    NodeStep codec s n (.receive n k) node' := by
  unfold Node.receive at h
  split at h
  · next hrun =>
    cases h
    exact .receive hrun rfl
  · cases h

theorem nodeStep_disconnect {k : Nat} {node' : Node} (h : (s.nodes n).disconnect k = some node') :
    NodeStep codec s n (.disconnect n k) node' := by
  unfold Node.disconnect at h
  split at h
  · next hrun =>
    cases h
    exact .disconnect hrun rfl
  · cases h

theorem nodeStep_expire {now : Time} {order : RangeOrder Int} {node' : Node}
    (h : (s.nodes n).expire now order = some node') :
    NodeStep codec s n (.expire n now order) node' := by
  unfold Node.expire at h
  split at h
  · cases h
  · cases h
    cases hl : (s.nodes n).isLeader with
    | true =>
      simp only [Node.submit, hl, if_true]
      exact hl ▸ .expire _ hl
    | false =>
      simp only [Node.submit, hl, Bool.false_eq_true, if_false]
      exact .expireDropped hl

theorem nodeStep_changeConfig {cc : ConfigChangeEntry} {node' : Node}
    (h : (s.nodes n).changeConfig cc = some node') :
    NodeStep codec s n (.changeConfig n cc) node' := by
  unfold Node.changeConfig at h
  split at h
  · next hl =>
    cases h
    exact .changeConfig cc hl
  · cases h

theorem nodeStep_applyItem {env : Env} {item : LogItem} (hidle : (s.nodes n).sending = none)
    (hlog : (s.nodes n).log[(s.nodes n).applied]? = some item)
    (hcommitted : s.committed[(s.nodes n).applied]? = some item) :
    NodeStep codec s n (.apply n env) ((s.nodes n).applyItem codec env item) := by
  cases item with
  | command e => exact .apply env hidle hlog hcommitted
  | configChange cc => exact .pass env hidle hlog hcommitted

theorem nodeStep_send {node' : Node} (h : (s.nodes n).send = some node') :
    NodeStep codec s n (.send n) node' := by
  unfold Node.send at h
  split at h
  · cases h
  · next k c hsending =>
    cases h
    unfold Node.deposit
    split
    · next hrun => exact .deliver hsending hrun rfl
    · next hother =>
      refine .drop hsending fun run hrun hp => ?_
      obtain ⟨handler, index, progress⟩ := run
      cases hp
      exact hother _ _ hrun

end NodeStepLemmas

/-- A step commits the next entry, or it is a step of one node. -/
theorem cluster_step_cases {β : Type} {codec : SnapshotCodec β} {s s' : Cluster} {a : ClusterStep}
    (hstep : (cluster codec).step s a = some s') :
    (∃ n e, a = .commit n ∧ (s.nodes n).log[s.committed.length]? = some e ∧
      s' = { s with committed := s.committed ++ [e] }) ∨
    ∃ n node', NodeStep codec s n a node' ∧ s' = s.setNode n node' := by
  cases a with
  | lead n b =>
    cases hstep
    exact .inr ⟨n, _, .lead b, rfl⟩
  | submit n h =>
    cases hstep
    exact .inr ⟨n, _, nodeStep_submit codec s n h, rfl⟩
  | subscribe n k =>
    obtain ⟨node', hn, rfl⟩ := Option.map_eq_some_iff.mp hstep
    exact .inr ⟨n, node', nodeStep_subscribe hn, rfl⟩
  | receive n k =>
    obtain ⟨node', hn, rfl⟩ := Option.map_eq_some_iff.mp hstep
    exact .inr ⟨n, node', nodeStep_receive hn, rfl⟩
  | disconnect n k =>
    obtain ⟨node', hn, rfl⟩ := Option.map_eq_some_iff.mp hstep
    exact .inr ⟨n, node', nodeStep_disconnect hn, rfl⟩
  | expire n now order =>
    obtain ⟨node', hn, rfl⟩ := Option.map_eq_some_iff.mp hstep
    exact .inr ⟨n, node', nodeStep_expire hn, rfl⟩
  | changeConfig n cc =>
    obtain ⟨node', hn, rfl⟩ := Option.map_eq_some_iff.mp hstep
    exact .inr ⟨n, node', nodeStep_changeConfig hn, rfl⟩
  | replace n m keep len =>
    simp only [cluster] at hstep
    split at hstep
    · next hkeep =>
      cases hstep
      exact .inr ⟨n, _, .replace m len hkeep.1 hkeep.2, rfl⟩
    · cases hstep
  | commit n =>
    simp only [cluster] at hstep
    split at hstep
    · cases hstep
    · next e he =>
      split at hstep
      · cases hstep
        exact .inl ⟨n, e, rfl, he, rfl⟩
      · cases hstep
  | apply n env =>
    simp only [cluster] at hstep
    split at hstep
    · next hidle hlog =>
      split at hstep
      · next hcommitted =>
        cases hstep
        exact .inr ⟨n, _, nodeStep_applyItem hidle hlog hcommitted, rfl⟩
      · cases hstep
    · cases hstep
  | send n =>
    obtain ⟨node', hn, rfl⟩ := Option.map_eq_some_iff.mp hstep
    exact .inr ⟨n, node', nodeStep_send hn, rfl⟩
  | restore n m env =>
    simp only [cluster] at hstep
    split at hstep
    · next hcan =>
      obtain ⟨data, _, rfl⟩ := Option.map_eq_some_iff.mp hstep
      exact .inr ⟨n, _, .restore m env data hcan.1 hcan.2, rfl⟩
    · cases hstep

/-- The invariant rule for properties of the nodes: a step keeps the property at the
node that takes it. -/
theorem nodes_invariant {β : Type} {codec : SnapshotCodec β} {G : Cluster → ClusterStep → Prop}
    {P : Nat → Node → Prop} (hnew : ∀ n, P n .new)
    (hnode : ∀ s n a node', (cluster codec).ReachableBy G s → (∀ m, P m (s.nodes m)) → G s a →
      NodeStep codec s n a node' → P n node')
    {s : Cluster} (h : (cluster codec).ReachableBy G s) (n : Nat) : P n (s.nodes n) := by
  refine h.invariant (I := fun s => ∀ n, P n (s.nodes n)) hnew ?_ n
  intro s a s' hreach hinv hguard hstep
  rcases cluster_step_cases hstep with ⟨_, _, _, _, rfl⟩ | ⟨m, node', hm, rfl⟩
  · exact hinv
  · exact s.setNode_forall hinv (hnode s m a node' hreach hinv hguard hm)

/-! ## Handlers and subscriptions after a step -/

namespace NodeStepLemmas

variable {β : Type} {codec : SnapshotCodec β} {s : Cluster} {n : Nat} {a : ClusterStep} {node' : Node}

/-- Progress that is not `submitted` makes no handler `submitted`. -/
theorem runAt_setProgress {node : Node} {k j i : Nat} {run run' : HandlerRun} {p : Progress}
    (hrun : node.handlers[k]? = some run) (hj : RunAt (node.setProgress k p) j run' i)
    (hne : run'.progress ≠ p) : j ≠ k ∧ RunAt node j run' i := by
  rcases getElem?_setProgress_cases hrun hj.1 with ⟨_, rfl⟩ | ⟨hjk, hold⟩
  · exact absurd rfl hne
  · exact ⟨hjk, hold, hj.2⟩

/-- Where the step `a` of node `n` can take its handler `k`. -/
inductive Moves (s : Cluster) (n : Nat) (a : ClusterStep) (k : Nat) (run : HandlerRun) :
    Progress → Prop
  | stays : Moves s n a k run run.progress
  | waits {i : Nat} (hindex : run.index = some i) (hsubmitted : run.progress = .submitted) :
    Moves s n a k run (.waiting none)
  | ends : Moves s n a k run .gone
  | answers {r : Option CommitCmd} {resp : Response} (hinbox : run.progress = .waiting (some r))
      (hresp : run.handler.respond n r = some resp) : Moves s n a k run (.answered resp)
  | gets {c : CommitCmd} (hwaits : run.progress = .waiting none)
      (hsending : (s.nodes n).sending = some (k, c)) :
    Moves s n a k run (.waiting (some (some c)))
  | cut {m i : Nat} {env : Env} (ha : a = .restore n m env) (hindex : run.index = some i)
      (hwaits : run.progress = .waiting none) (hcovered : i < (s.nodes m).applied)
      (hsub : (s.nodes n).commitSubs.lookup i = some k) :
    Moves s n a k run (.waiting (some none))

/-- A handler that has just arrived at the node, and what was answered. -/
def Arrives (s : Cluster) (n : Nat) (a : ClusterStep) (run : HandlerRun) : Prop :=
  (∃ handler, a = .submit n handler) ∧
    ((s.nodes n).isLeader = true ∧ run.index = some (s.nodes n).log.length ∧
        run.progress = .submitted ∨
      run.index = none ∧ run.progress = .answered .notLeader)

theorem moves_setProgress {k j : Nat} {run run' : HandlerRun} {p : Progress}
    (hrun : (s.nodes n).handlers[k]? = some run) (hp : Moves s n a k run p)
    (hj : ((s.nodes n).setProgress k p).handlers[j]? = some run') :
    ∃ old, (s.nodes n).handlers[j]? = some old ∧ run'.handler = old.handler ∧
      run'.index = old.index ∧ Moves s n a j old run'.progress := by
  rcases getElem?_setProgress_cases hrun hj with ⟨rfl, rfl⟩ | ⟨_, hold⟩
  · exact ⟨run, hrun, rfl, rfl, hp⟩
  · exact ⟨run', hold, rfl, rfl, .stays⟩

/-- A handler after a step was there before and has moved, or has just arrived. -/
theorem handler_moves (h : NodeStep codec s n a node') {k : Nat} {run' : HandlerRun}
    (hk : node'.handlers[k]? = some run') :
    (∃ run, (s.nodes n).handlers[k]? = some run ∧ run'.handler = run.handler ∧
      run'.index = run.index ∧ Moves s n a k run run'.progress) ∨
    (k = (s.nodes n).handlers.length ∧ Arrives s n a run') := by
  have hsame : (s.nodes n).handlers[k]? = some run' →
      ∃ run, (s.nodes n).handlers[k]? = some run ∧ run'.handler = run.handler ∧
        run'.index = run.index ∧ Moves s n a k run run'.progress :=
    fun hold => ⟨run', hold, rfl, rfl, .stays⟩
  cases h with
  | lead b => exact .inl (hsame hk)
  | accept handler hl =>
    rcases getElem?_concat hk with hold | ⟨hlen, rfl⟩
    · exact .inl (hsame hold)
    · exact .inr ⟨hlen, ⟨handler, rfl⟩, .inl ⟨hl, rfl, rfl⟩⟩
  | turnAway handler hl =>
    rcases getElem?_concat hk with hold | ⟨hlen, rfl⟩
    · exact .inl (hsame hold)
    · exact .inr ⟨hlen, ⟨handler, rfl⟩, .inr ⟨rfl, rfl⟩⟩
  | subscribe hat hsubmitted hfree =>
    exact .inl (moves_setProgress hat.1 (.waits hat.2 hsubmitted) hk)
  | crash hat _ _ => exact .inl (moves_setProgress hat.1 .ends hk)
  | @receive k r _ hat hinbox =>
    refine .inl (moves_setProgress hat ?_ hk)
    split
    · next resp hresp => exact .answers hinbox hresp
    · exact .ends
  | disconnect hat _ => exact .inl (moves_setProgress hat .ends hk)
  | expire ids hl => exact .inl (hsame hk)
  | expireDropped hl => exact .inl (hsame hk)
  | changeConfig cc hl => exact .inl (hsame hk)
  | replace m len happlied hkeep => exact .inl (hsame hk)
  | apply env hidle hlog hcommitted => exact .inl (hsame hk)
  | pass env hidle hlog hcommitted => exact .inl (hsame hk)
  | deliver hsending hat hwaits => exact .inl (moves_setProgress hat (.gets hwaits hsending) hk)
  | drop hsending hnobody => exact .inl (hsame hk)
  | restore m env data hidle hbehind =>
    rcases getElem?_restore_cases hk with ⟨run, i, hrun, hp, hle, hsub, rfl⟩ | ⟨hold, _⟩
    · exact .inl ⟨run, hrun.1, rfl, rfl, .cut rfl hrun.2 hp (by omega) hsub⟩
    · exact .inl (hsame hold)

/-- A handler between `Submit` and its subscription was there before, or has just
been accepted. -/
theorem submitted_cases (h : NodeStep codec s n a node') {k i : Nat} {run : HandlerRun}
    (hrun : RunAt node' k run i) (hp : run.progress = .submitted) :
    (∃ old, RunAt (s.nodes n) k old i ∧ old.progress = .submitted) ∨
    (∃ handler, a = .submit n handler) ∧ (s.nodes n).isLeader = true ∧
      k = (s.nodes n).handlers.length ∧ i = (s.nodes n).log.length := by
  rcases handler_moves h hrun.1 with ⟨old, hold, _, hindex, hmoves⟩ | ⟨hk, ha, hnew | hnew⟩
  · refine .inl ⟨old, ⟨hold, hindex ▸ hrun.2⟩, ?_⟩
    generalize run.progress = p at hp hmoves
    cases hmoves with
    | stays => exact hp
    | _ => cases hp
  · exact .inr ⟨ha, hnew.1, hk, Option.some.inj (hrun.2.symm.trans hnew.2.1)⟩
  · rw [hp] at hnew
    cases hnew.2

/-- A subscription was there before, or its handler has just made it. -/
theorem commitSubs_cases (h : NodeStep codec s n a node') {i k : Nat}
    (hl : node'.commitSubs.lookup i = some k) :
    (s.nodes n).commitSubs.lookup i = some k ∨
    ∃ run, RunAt (s.nodes n) k run i ∧ run.progress = .submitted ∧
      RunAt node' k { run with progress := .waiting none } i := by
  cases h with
  | subscribe hat hsubmitted hfree =>
    rw [Finmap.lookup_insert_ite] at hl
    split at hl
    · next heq =>
      cases hl
      subst heq
      exact .inr ⟨_, hat, hsubmitted, getElem?_setProgress_self _ hat.1, hat.2⟩
    · exact .inl hl
  | apply env hidle hlog hcommitted =>
    simp only [Node.apply, Finmap.lookup_erase_ite] at hl
    split at hl
    · cases hl
    · exact .inl hl
  | restore m env data hidle hbehind =>
    rw [lookup_restore_commitSubs] at hl
    split at hl
    · cases hl
    · exact .inl hl
  | _ => exact .inl hl

end NodeStepLemmas

end Zodiac
