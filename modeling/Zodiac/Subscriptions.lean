import Zodiac.Acknowledge

/-!
# Commit subscriptions

A handler submits its command and subscribes to the returned index in two steps.
In between, the apply loop may be faster, and after a change of leader the index
may be one that an older subscription still holds.

* `no_lost_wakeup`: every subscription is for an index to come, in every run in
  which no index is applied before its handler has subscribed, and none that has a
  subscription turns out to be a configuration change.
* `subscribed_too_late`: a handler that waits for an index already applied.
* `displaced_by_configChange`: one whose index went to a configuration change.
* `no_duplicate_subscription`: no handler finds its index taken, in every run in
  which `Submit` returns no index that is taken or about to be.
* `duplicate_subscription`: the panic, after an index is reused.
-/

namespace Zodiac

open History NodeStepLemmas OriginLemmas

/-! ## Wakeups -/

/-- No node has a subscription for an index that is applied or covered by a
snapshot, and every handler that is live at such an index has its wakeup in its
channel or on the way. -/
def NoLostWakeup (s : Cluster) : Prop :=
  ∀ n, (∀ i ∈ (s.nodes n).commitSubs, (s.nodes n).applied ≤ i) ∧
    ∀ k run i, (s.nodes n).handlers[k]? = some run → run.index = some i →
      run.progress.live = true → i < (s.nodes n).applied →
      (∃ r, run.progress = .waiting (some r)) ∨ ∃ c, (s.nodes n).sending = some (k, c)

/-- The condition on steps: an index is applied, or covered by a restored snapshot,
only after the handler that `Submit` returned it to has subscribed. -/
def SubscribedInTime (s : Cluster) : ClusterStep → Prop
  | .apply n _ => ∀ run ∈ (s.nodes n).handlers, run.progress = .submitted →
      run.index ≠ some (s.nodes n).applied
  | .restore n m _ => ∀ run ∈ (s.nodes n).handlers, run.progress = .submitted →
      ∀ i ∈ run.index, (s.nodes m).applied ≤ i
  | _ => True

instance (s : Cluster) : (a : ClusterStep) → Decidable (SubscribedInTime s a)
  | .apply n _ => inferInstanceAs (Decidable (∀ run ∈ (s.nodes n).handlers,
      run.progress = .submitted → run.index ≠ some (s.nodes n).applied))
  | .restore n m _ => inferInstanceAs (Decidable (∀ run ∈ (s.nodes n).handlers,
      run.progress = .submitted → ∀ i ∈ run.index, (s.nodes m).applied ≤ i))
  | .lead _ _ | .submit _ _ | .subscribe _ _ | .receive _ _ | .disconnect _ _ | .expire _ _ _
  | .changeConfig _ _ | .replace _ _ _ _ | .commit _ | .send _ => inferInstanceAs (Decidable True)

/-- The condition on steps: no configuration change is applied at an index that has a
subscription. -/
def NoneDisplaced (s : Cluster) : ClusterStep → Prop
  | .apply n _ => ∀ item ∈ s.committed[(s.nodes n).applied]?, item.entry = none →
      (s.nodes n).applied ∉ (s.nodes n).commitSubs
  | _ => True

instance (s : Cluster) : (a : ClusterStep) → Decidable (NoneDisplaced s a)
  | .apply n _ => inferInstanceAs (Decidable (∀ item ∈ s.committed[(s.nodes n).applied]?,
      item.entry = none → (s.nodes n).applied ∉ (s.nodes n).commitSubs))
  | .lead _ _ | .submit _ _ | .subscribe _ _ | .receive _ _ | .disconnect _ _ | .expire _ _ _
  | .changeConfig _ _ | .replace _ _ _ _ | .commit _ | .send _ | .restore _ _ _ =>
    inferInstanceAs (Decidable True)

namespace SubscriptionLemmas

/-- Subscriptions and handlers on the way to one are for indices to come, and who
waits with an empty channel has a subscription or is about to be served. -/
structure WakeInv (node : Node) : Prop where
  pending : ∀ i ∈ node.commitSubs, node.applied ≤ i
  submitted : ∀ {k run i}, RunAt node k run i → run.progress = .submitted → node.applied ≤ i
  waiting : ∀ {k run i}, RunAt node k run i → run.progress = .waiting none →
    node.commitSubs.lookup i = some k ∨ ∃ c, node.sending = some (k, c)

theorem WakeInv.new : WakeInv .new where
  pending _ h := absurd h Finmap.notMem_empty
  submitted h := absurd h not_runAt_new
  waiting h := absurd h not_runAt_new

variable {node : Node}

/-- Steps that only touch the log or the leader flag. -/
theorem WakeInv.setLog (h : WakeInv node) (log : List LogItem) (b : Bool) :
    WakeInv { node with log := log, isLeader := b } :=
  ⟨h.pending, h.submitted, h.waiting⟩

/-- A handler goes on and does not wait with an empty channel. -/
theorem WakeInv.setProgress (h : WakeInv node) {k : Nat} {run : HandlerRun} {p : Progress}
    (hrun : node.handlers[k]? = some run) (hp : p ≠ .submitted) (hp' : p ≠ .waiting none) :
    WakeInv (node.setProgress k p) where
  pending := h.pending
  submitted hj hs := h.submitted (runAt_setProgress hrun hj (by rw [hs]; exact hp.symm)).2 hs
  waiting hj hw := h.waiting (runAt_setProgress hrun hj (by rw [hw]; exact hp'.symm)).2 hw

/-- A handler arrives, and its index is one to come. -/
theorem WakeInv.addHandler (h : WakeInv node) {run : HandlerRun}
    (hindex : ∀ i, run.index = some i → node.applied ≤ i) (hp : run.progress.isWaiting = false) :
    WakeInv { node with handlers := node.handlers ++ [run] } := by
  refine ⟨h.pending, fun hj hs => ?_, fun hj hw => ?_⟩
  · rcases getElem?_concat hj.1 with hold | ⟨_, rfl⟩
    · exact h.submitted ⟨hold, hj.2⟩ hs
    · exact hindex _ hj.2
  · rcases getElem?_concat hj.1 with hold | ⟨_, rfl⟩
    · exact h.waiting ⟨hold, hj.2⟩ hw
    · rw [hw] at hp
      cases hp

theorem WakeInv.subscribe (h : WakeInv node) {k i : Nat} {run : HandlerRun}
    (hrun : RunAt node k run i) (hsubmitted : run.progress = .submitted)
    (hfree : i ∉ node.commitSubs) :
    WakeInv { node.setProgress k (.waiting none) with
      commitSubs := node.commitSubs.insert i k } := by
  refine ⟨fun j hj => ?_, fun hj hs => ?_, fun {k' run' j} hj hw => ?_⟩
  · rcases Finmap.mem_insert.mp hj with rfl | hj
    · exact h.submitted hrun hsubmitted
    · exact h.pending j hj
  · exact h.submitted (runAt_setProgress hrun.1 hj (by rw [hs]; nofun)).2 hs
  · rw [Finmap.lookup_insert_ite]
    rcases getElem?_setProgress_cases hrun.1 hj.1 with ⟨rfl, rfl⟩ | ⟨_, hold⟩
    · exact .inl (if_pos (Option.some.inj (hj.2.symm.trans hrun.2)))
    · refine (h.waiting ⟨hold, hj.2⟩ hw).imp_left fun hl => ?_
      have hne : j ≠ i := fun heq => hfree (heq ▸ Finmap.mem_of_lookup_eq_some hl)
      rw [if_neg hne, hl]

/-- A handler that is still to subscribe, when the next entry is applied. -/
theorem WakeInv.lt_of_submitted (h : WakeInv node)
    (hintime : ∀ run ∈ node.handlers, run.progress = .submitted → run.index ≠ some node.applied)
    {k i : Nat} {run : HandlerRun} (hrun : RunAt node k run i) (hs : run.progress = .submitted) :
    node.applied < i := by
  refine Nat.lt_of_le_of_ne (h.submitted hrun hs) ?_
  rintro rfl
  exact hintime run (List.mem_of_getElem? hrun.1) hs hrun.2

theorem WakeInv.apply {β : Type} (codec : SnapshotCodec β) (h : WakeInv node) (env : Env)
    {e : Entry} (hidle : node.sending = none)
    (hintime : ∀ run ∈ node.handlers, run.progress = .submitted → run.index ≠ some node.applied) :
    WakeInv (node.apply codec env e) := by
  refine ⟨fun i hi => ?_, fun hk hs => h.lt_of_submitted hintime hk hs, fun {k run i} hk hw => ?_⟩
  · obtain ⟨hne, hi⟩ := Finmap.mem_erase.mp hi
    have hle := h.pending i hi
    exact Nat.lt_of_le_of_ne hle fun heq => hne heq.symm
  · have hold : RunAt node k run i := hk
    rcases h.waiting hold hw with hl | ⟨c, hsending⟩
    · simp only [Node.apply, Finmap.lookup_erase_ite]
      by_cases heq : i = node.applied
      · -- the subscription is popped and its handler is served next
        subst heq
        exact .inr ⟨_, by rw [hl]; rfl⟩
      · rw [if_neg heq]
        exact .inl hl
    · rw [hidle] at hsending
      cases hsending

/-- A configuration change pops nothing, so there must be nothing to pop. -/
theorem WakeInv.pass (h : WakeInv node)
    (hintime : ∀ run ∈ node.handlers, run.progress = .submitted → run.index ≠ some node.applied)
    (hfree : node.applied ∉ node.commitSubs) : WakeInv node.passConfigChange where
  pending i hi := Nat.lt_of_le_of_ne (h.pending i hi) fun heq => hfree (heq ▸ hi)
  submitted hk hs := h.lt_of_submitted hintime hk hs
  waiting hk hw := h.waiting hk hw

theorem WakeInv.restore {β : Type} (codec : SnapshotCodec β) (h : WakeInv node) {index : Nat}
    (data : β) (committed : List LogItem) (hidle : node.sending = none)
    (hintime : ∀ run ∈ node.handlers, run.progress = .submitted → ∀ i ∈ run.index, index + 1 ≤ i) :
    WakeInv (node.restore codec index data committed) := by
  refine ⟨fun i hi => ?_, fun {k run i} hk hs => ?_, fun {k run i} hk hw => ?_⟩
  · obtain ⟨k, hl⟩ := Finmap.mem_iff.mp hi
    rw [lookup_restore_commitSubs] at hl
    split at hl
    · cases hl
    · next hle => exact Nat.lt_of_not_le hle
  · rcases getElem?_restore_cases hk.1 with ⟨_, _, _, _, _, _, rfl⟩ | ⟨hold, _⟩
    · cases hs
    · exact hintime run (List.mem_of_getElem? hold) hs i hk.2
  · rcases getElem?_restore_cases hk.1 with ⟨_, _, _, _, _, _, rfl⟩ | ⟨hold, hopen⟩
    · cases hw
    · rcases h.waiting ⟨hold, hk.2⟩ hw with hl | ⟨c, hsending⟩
      · -- a subscription that stays is beyond the snapshot
        rw [lookup_restore_commitSubs, if_neg fun hle => hopen i hk.2 hw hle hl]
        exact .inl hl
      · rw [hidle] at hsending
        cases hsending

theorem WakeInv.nodeStep {β : Type} {codec : SnapshotCodec β} {s : Cluster} {n : Nat}
    {a : ClusterStep} {node' : Node} (h : WakeInv (s.nodes n)) (horigins : Origins s)
    (hintime : SubscribedInTime s a) (hplace : NoneDisplaced s a)
    (hstep : NodeStep codec s n a node') : WakeInv node' := by
  cases hstep with
  | lead b => exact h.setLog _ b
  | accept handler hl =>
    refine (h.setLog _ (s.nodes n).isLeader).addHandler (fun i hi => ?_) rfl
    cases hi
    exact horigins.applied_le_log n
  | turnAway handler hl => exact h.addHandler nofun rfl
  | subscribe hrun hsubmitted hfree => exact h.subscribe hrun hsubmitted hfree
  | crash hrun _ _ => exact h.setProgress hrun.1 nofun nofun
  | receive hrun hinbox =>
    refine h.setProgress hrun ?_ ?_
    · split <;> nofun
    · split <;> nofun
  | disconnect hrun _ => exact h.setProgress hrun nofun nofun
  | expire ids hl => exact h.setLog _ (s.nodes n).isLeader
  | expireDropped hl => exact h
  | changeConfig cc hl => exact h.setLog _ (s.nodes n).isLeader
  | replace m len happlied hkeep => exact h.setLog _ (s.nodes n).isLeader
  | apply env hidle hlog hcommitted => exact h.apply codec env hidle hintime
  | pass env hidle hlog hcommitted => exact h.pass hintime (hplace _ hcommitted rfl)
  | @deliver k c run hsending hrun hwaits =>
    have hset := h.setProgress hrun (p := .waiting (some (some c))) nofun nofun
    refine ⟨hset.pending, hset.submitted, fun hj hw => ?_⟩
    obtain ⟨hne, hold⟩ := runAt_setProgress hrun hj (by rw [hw]; nofun)
    refine (h.waiting hold hw).imp_right fun ⟨c', hsending'⟩ => ?_
    rw [hsending] at hsending'
    cases hsending'
    exact absurd rfl hne
  | drop hsending hnobody =>
    refine ⟨h.pending, h.submitted,
      fun hj hw => (h.waiting hj hw).imp_right fun ⟨c', hsending'⟩ => ?_⟩
    rw [hsending] at hsending'
    cases hsending'
    exact absurd hw (hnobody _ hj.1)
  | restore m env data hidle hbehind =>
    refine h.restore codec data _ hidle fun run hrun hs i hi => ?_
    have := hintime run hrun hs i hi
    omega

end SubscriptionLemmas

open SubscriptionLemmas

/-- In every run in which handlers subscribe before their index is applied or
covered, and no configuration change is applied where one has subscribed, no wakeup is
lost. -/
theorem no_lost_wakeup {β : Type} (codec : SnapshotCodec β) {s : Cluster}
    (h : (cluster codec).ReachableBy (fun s a => SubscribedInTime s a ∧ NoneDisplaced s a) s) :
    NoLostWakeup s := by
  have hinv : ∀ n, WakeInv (s.nodes n) :=
    nodes_invariant (fun _ => WakeInv.new) (fun _ n _ _ hreach hinv hguard hstep =>
      (hinv n).nodeStep (origins_of_reachable hreach) hguard.1 hguard.2 hstep) h
  intro n
  refine ⟨(hinv n).pending, fun k run i hk hi hlive hlt => ?_⟩
  cases hp : run.progress with
  | submitted => exact absurd ((hinv n).submitted ⟨hk, hi⟩ hp) (Nat.not_le_of_lt hlt)
  | waiting inbox =>
    cases inbox with
    | some r => exact .inl ⟨r, rfl⟩
    | none =>
      refine .inr (((hinv n).waiting ⟨hk, hi⟩ hp).resolve_left fun hl => ?_)
      exact absurd ((hinv n).pending i (Finmap.mem_of_lookup_eq_some hl)) (Nat.not_le_of_lt hlt)
  | answered resp => rw [hp] at hlive; cases hlive
  | gone => rw [hp] at hlive; cases hlive

/-- The apply loop has popped the subscription of the handler and not served it
yet. -/
theorem no_lost_wakeup_popped :
    ∃ s, (cluster .plain).ReachableBy (fun s a => SubscribedInTime s a ∧ NoneDisplaced s a) s ∧
      NoLostWakeup s ∧
      s.handlerAt 1 0 = some (aPut.command 1, some 0, .waiting none) ∧
      (s.nodes 1).applied = 1 := by
  obtain ⟨s, hreach, hs⟩ := Machine.exists_reachableBy (M := cluster .plain)
    (G := fun s a => SubscribedInTime s a ∧ NoneDisplaced s a)
    [.lead 1 true, .submit 1 aPut, .subscribe 1 0, .commit 1, .apply 1 (Env.at 0)]
    (fun s => (s.handlerAt 1 0, (s.nodes 1).applied))
    (x := (some (aPut.command 1, some 0, .waiting none), 1)) (by decide)
  obtain ⟨hrun, happlied⟩ := Prod.mk.inj hs
  exact ⟨s, hreach, no_lost_wakeup .plain hreach, hrun, happlied⟩

theorem not_noLostWakeup {s : Cluster} {n i k : Nat}
    (hl : (s.nodes n).commitSubs.lookup i = some k) (hi : i < (s.nodes n).applied) :
    ¬ NoLostWakeup s := fun h =>
  Nat.not_le_of_lt hi ((h n).1 i (Finmap.mem_of_lookup_eq_some hl))

/-- The put is committed and applied before its handler subscribes. -/
theorem subscribed_too_late :
    ∃ s, (cluster .plain).Reachable s ∧ ¬ NoLostWakeup s ∧
      s.handlerAt 1 0 = some (aPut.command 1, some 0, .waiting none) ∧
      s.appliedAt 1 0 = some (aPut.command 1) ∧ (s.nodes 1).applied = 1 ∧
      (s.nodes 1).commitSubs.lookup 0 = some 0 ∧ (s.nodes 1).sending = none := by
  obtain ⟨s, hreach, hs⟩ := Machine.exists_reachableBy (M := cluster .plain)
    (G := fun _ _ => True)
    [.lead 1 true, .submit 1 aPut, .commit 1, .apply 1 (Env.at 0), .subscribe 1 0]
    (fun s => decide (s.handlerAt 1 0 = some (aPut.command 1, some 0, .waiting none) ∧
      s.appliedAt 1 0 = some (aPut.command 1) ∧ (s.nodes 1).applied = 1 ∧
      (s.nodes 1).commitSubs.lookup 0 = some 0 ∧ (s.nodes 1).sending = none))
    (x := true) (by decide)
  have hfacts := of_decide_eq_true hs
  have happlied : 0 < (s.nodes 1).applied := by rw [hfacts.2.2.1]; decide
  exact ⟨s, hreach, not_noLostWakeup hfacts.2.2.2.1 happlied, hfacts⟩

/-- Node 1 leads, and its put is subscribed to at index 0. The next leader adds a member there
and node 1 gets its log. -/
def displaced : List ClusterStep :=
  [.lead 1 true, .submit 1 aPut, .subscribe 1 0, .lead 1 false, .lead 2 true,
    .changeConfig 2 { type := .addNode, nodeId := 3 }, .replace 1 2 0 1, .commit 2,
    .apply 1 (Env.at 0)]

/-- The handler has subscribed in time, but a configuration change wakes nobody. -/
theorem displaced_by_configChange :
    ∃ s, (cluster .plain).ReachableBy SubscribedInTime s ∧ ¬ NoLostWakeup s ∧
      s.handlerAt 1 0 = some (aPut.command 1, some 0, .waiting none) ∧
      s.committed = [.configChange { type := .addNode, nodeId := 3 }] ∧
      (s.nodes 1).applied = 1 ∧ (s.nodes 1).commitSubs.lookup 0 = some 0 ∧
      (s.nodes 1).sending = none := by
  obtain ⟨s, hreach, hs⟩ := Machine.exists_reachableBy (M := cluster .plain)
    (G := SubscribedInTime) displaced
    (fun s => decide (s.handlerAt 1 0 = some (aPut.command 1, some 0, .waiting none) ∧
      s.committed = [LogItem.configChange { type := .addNode, nodeId := 3 }] ∧
      (s.nodes 1).applied = 1 ∧ (s.nodes 1).commitSubs.lookup 0 = some 0 ∧
      (s.nodes 1).sending = none))
    (x := true) (by decide)
  have hfacts := of_decide_eq_true hs
  have happlied : 0 < (s.nodes 1).applied := by rw [hfacts.2.2.1]; decide
  exact ⟨s, hreach, not_noLostWakeup hfacts.2.2.2.1 happlied, hfacts⟩

/-! ## Duplicate subscriptions -/

/-- No handler that has its index and not subscribed yet would find the index
present: `createCommitSubscription` does not panic. -/
def NoDuplicateSubscription (s : Cluster) : Prop :=
  ∀ (n k : Nat) (run : HandlerRun) (i : Nat), (s.nodes n).handlers[k]? = some run →
    run.progress = .submitted → run.index = some i → i ∉ (s.nodes n).commitSubs

/-- The condition on steps: `Submit` returns no index that has a subscription on the
node, or that an earlier handler of the node is about to subscribe to. -/
def FreshIndex (s : Cluster) : ClusterStep → Prop
  | .submit n _ => (s.nodes n).isLeader = true →
      (s.nodes n).log.length ∉ (s.nodes n).commitSubs ∧
      ∀ run ∈ (s.nodes n).handlers, run.progress = .submitted →
        run.index ≠ some (s.nodes n).log.length
  | _ => True

instance (s : Cluster) : (a : ClusterStep) → Decidable (FreshIndex s a)
  | .submit n _ => inferInstanceAs (Decidable ((s.nodes n).isLeader = true →
      (s.nodes n).log.length ∉ (s.nodes n).commitSubs ∧
      ∀ run ∈ (s.nodes n).handlers, run.progress = .submitted →
        run.index ≠ some (s.nodes n).log.length))
  | .lead _ _ | .subscribe _ _ | .receive _ _ | .disconnect _ _ | .expire _ _ _
  | .changeConfig _ _ | .replace _ _ _ _ | .commit _ | .apply _ _ | .send _ | .restore _ _ _ =>
    inferInstanceAs (Decidable True)

namespace SubscriptionLemmas

/-- The handlers on the way to a subscription have free indices, each its own. -/
structure FreeInv (node : Node) : Prop where
  free : ∀ {k run i}, RunAt node k run i → run.progress = .submitted → i ∉ node.commitSubs
  single : ∀ {k k' run run' i}, RunAt node k run i → RunAt node k' run' i →
    run.progress = .submitted → run'.progress = .submitted → k = k'

theorem FreeInv.new : FreeInv .new where
  free h := absurd h not_runAt_new
  single h := absurd h not_runAt_new

theorem FreeInv.nodeStep {β : Type} {codec : SnapshotCodec β} {s : Cluster} {n : Nat}
    {a : ClusterStep} {node' : Node} (h : FreeInv (s.nodes n)) (hguard : FreshIndex s a)
    (hstep : NodeStep codec s n a node') : FreeInv node' := by
  refine ⟨fun {k run i} hrun hp hmem => ?_, fun {k k' run run' i} hrun hrun' hp hp' => ?_⟩
  · obtain ⟨k', hlookup⟩ := Finmap.mem_iff.mp hmem
    rcases commitSubs_cases hstep hlookup with hbefore | ⟨_, hsub, hsubmitted, hwaits⟩
    · have hmem := Finmap.mem_of_lookup_eq_some hbefore
      rcases submitted_cases hstep hrun hp with ⟨old, hold, hop⟩ | ⟨⟨_, rfl⟩, hl, _, rfl⟩
      · exact h.free hold hop hmem
      · exact (hguard hl).1 hmem
    · -- the handler that has just subscribed would be this one
      rcases submitted_cases hstep hrun hp with ⟨old, hold, hop⟩ | ⟨⟨_, rfl⟩, hl, _, rfl⟩
      · obtain rfl := h.single hold hsub hop hsubmitted
        obtain ⟨rfl, _⟩ := hrun.unique hwaits
        cases hp
      · exact absurd hsub.2 ((hguard hl).2 _ (List.mem_of_getElem? hsub.1) hsubmitted)
  · rcases submitted_cases hstep hrun hp with ⟨old, hold, hop⟩ | ⟨⟨_, rfl⟩, hl, rfl, rfl⟩
    · rcases submitted_cases hstep hrun' hp' with ⟨old', hold', hop'⟩ | ⟨⟨_, rfl⟩, hl, _, rfl⟩
      · exact h.single hold hold' hop hop'
      · exact absurd hold.2 ((hguard hl).2 old (List.mem_of_getElem? hold.1) hop)
    · rcases submitted_cases hstep hrun' hp' with ⟨old', hold', hop'⟩ | ⟨_, _, rfl, _⟩
      · exact absurd hold'.2 ((hguard hl).2 old' (List.mem_of_getElem? hold'.1) hop')
      · rfl

end SubscriptionLemmas

/-- In every run in which `Submit` returns fresh indices, the panic of
`createCommitSubscription` is not reached. -/
theorem no_duplicate_subscription {β : Type} (codec : SnapshotCodec β) {s : Cluster}
    (h : (cluster codec).ReachableBy FreshIndex s) : NoDuplicateSubscription s := by
  intro n k run i hk hp hi
  have hinv : FreeInv (s.nodes n) :=
    nodes_invariant (P := fun _ => FreeInv) (fun _ => FreeInv.new)
      (fun _ n _ _ _ hinv hguard hstep => (hinv n).nodeStep hguard hstep) h n
  exact hinv.free ⟨hk, hi⟩ hp

/-- Two handlers in flight at different indices. -/
theorem no_duplicate_subscription_two :
    ∃ s, (cluster .plain).ReachableBy FreshIndex s ∧ NoDuplicateSubscription s ∧
      s.handlerAt 1 0 = some (aPut.command 1, some 0, .waiting none) ∧
      s.handlerAt 1 1 = some (lostPut.command 1, some 1, .submitted) := by
  obtain ⟨s, hreach, hs⟩ := Machine.exists_reachableBy (M := cluster .plain) (G := FreshIndex)
    [.lead 1 true, .submit 1 aPut, .subscribe 1 0, .submit 1 lostPut]
    (fun s => decide (s.handlerAt 1 0 = some (aPut.command 1, some 0, .waiting none) ∧
      s.handlerAt 1 1 = some (lostPut.command 1, some 1, .submitted)))
    (x := true) (by decide)
  obtain ⟨hrun, hnext⟩ := of_decide_eq_true hs
  exact ⟨s, hreach, no_duplicate_subscription .plain hreach, hrun, hnext⟩

/-- Node 1 leads, loses its second entry to the next leader, and leads again. The
subscription for the lost entry is still there when index 1 is given out again. -/
def reusedWhileSubscribed : List ClusterStep :=
  [.lead 1 true, .submit 1 aPut, .subscribe 1 0, .submit 1 lostPut, .subscribe 1 1, .lead 1 false,
    .lead 2 true, .submit 2 otherPut, .replace 1 2 0 1, .lead 2 false,
    .lead 1 true, .submit 1 latePut]

/-- The third handler is about to subscribe to an index that the second one holds,
and the call panics. -/
theorem duplicate_subscription :
    ∃ s s', (cluster .plain).Reachable s ∧ ¬ NoDuplicateSubscription s ∧
      s.handlerAt 1 2 = some (latePut.command 1, some 1, .submitted) ∧
      (s.nodes 1).commitSubs.lookup 1 = some 1 ∧
      (cluster .plain).step s (.subscribe 1 2) = some s' ∧
      s'.handlerAt 1 2 = some (latePut.command 1, some 1, .gone) := by
  obtain ⟨s, hreach, hs⟩ := Machine.exists_reachableBy (M := cluster .plain)
    (G := fun _ _ => True) reusedWhileSubscribed
    (fun s => decide (s.handlerAt 1 2 = some (latePut.command 1, some 1, .submitted) ∧
      (s.nodes 1).commitSubs.lookup 1 = some 1 ∧
      (((cluster .plain).step s (.subscribe 1 2)).map fun s' => s'.handlerAt 1 2) =
        some (some (latePut.command 1, some 1, .gone))))
    (x := true) (by decide)
  obtain ⟨hrun, hsub, hafter⟩ := of_decide_eq_true hs
  obtain ⟨s', hstep, hgone⟩ := Option.map_eq_some_iff.mp hafter
  refine ⟨s, s', hreach, fun hnone => ?_, hrun, hsub, hstep, hgone⟩
  obtain ⟨run, hk, _, hindex, hp⟩ := Cluster.handlerAt_eq_some hrun
  exact hnone 1 2 run 1 hk hp hindex (Finmap.mem_of_lookup_eq_some hsub)

end Zodiac
