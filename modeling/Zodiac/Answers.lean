import Zodiac.ClientGuarantees
import Zodiac.Progress

/-!
# Requests are answered, if their handlers subscribe in time

A handler submits its command and then subscribes to its index. In a fair run in which its node
keeps the log, that decides what becomes of the request: a handler that has subscribed before
its entry is applied is answered, one that comes later waits until its client gives up.

* `Turn`: what a step can do to a handler.
* `Waits`, `Served`, `Got`, `Done`: the stages of an answer.
* `Missed`: the handler that came too late.
* `answered_or_never`: the two together.
-/

namespace Zodiac

open Machine NodeStepLemmas NodeInvariantLemmas AcknowledgeLemmas SpecRunLemmas ProgressLemmas

/-! ## Definitions -/

/-- The client of handler `k` of node `n` does not give up. -/
def ClientWaits (n k : Nat) : ClusterStep → Prop
  | .disconnect m j => ¬ (m = n ∧ j = k)
  | _ => True

instance (n k : Nat) : (a : ClusterStep) → Decidable (ClientWaits n k a)
  | .disconnect m j => inferInstanceAs (Decidable ¬ (m = n ∧ j = k))
  | .lead _ _ | .submit _ _ | .subscribe _ _ | .receive _ _ | .expire _ _ _ | .changeConfig _ _
  | .replace _ _ _ _ | .commit _ | .apply _ _ | .send _ | .restore _ _ _ =>
    inferInstanceAs (Decidable True)

/-- The receive of handler `k` of node `n`. -/
def Receives (n k : Nat) : ClusterStep → Prop
  | .receive m j => m = n ∧ j = k
  | _ => False

namespace AnswerLemmas

variable {β : Type} {codec : SnapshotCodec β} {s s' : Cluster} {n k i : Nat} {a : ClusterStep}

/-! ## The handler -/

/-- What handler `k` of node `n` does in a step in which it does not stand still. -/
inductive Turn (s : Cluster) (n : Nat) (a : ClusterStep) (k : Nat) (run : HandlerRun) :
    Progress → Prop
  | subscribes (ha : a = .subscribe n k) (hsubmitted : run.progress = .submitted)
      {i : Nat} (hindex : run.index = some i) (hfree : i ∉ (s.nodes n).commitSubs) :
    Turn s n a k run (.waiting none)
  | crashes (ha : a = .subscribe n k) (hsubmitted : run.progress = .submitted)
      {i : Nat} (hindex : run.index = some i) (hpresent : i ∈ (s.nodes n).commitSubs) :
    Turn s n a k run .gone
  | receives (ha : a = .receive n k) {r : Option CommitCmd} (hinbox : run.progress = .waiting (some r)) :
    Turn s n a k run (match run.handler.respond n r with
      | some resp => .answered resp
      | none => .gone)
  | leaves (ha : a = .disconnect n k) : Turn s n a k run .gone
  | gets (ha : a = .send n) {c : CommitCmd} (hwaits : run.progress = .waiting none)
      (hsending : (s.nodes n).sending = some (k, c)) :
    Turn s n a k run (.waiting (some (some c)))

theorem turn_setProgress {j : Nat} {run : HandlerRun} {p : Progress}
    (hrun : (s.nodes n).handlers[k]? = some run) (hturn : j = k → Turn s n a k run p) :
    ((s.nodes n).setProgress j p).handlers[k]? = some run ∨
    ∃ q, Turn s n a k run q ∧
      ((s.nodes n).setProgress j p).handlers[k]? = some { run with progress := q } := by
  by_cases hjk : j = k
  · subst hjk
    exact .inr ⟨p, hturn rfl, getElem?_setProgress_self p hrun⟩
  · rw [getElem?_setProgress_of_ne p (Ne.symm hjk)]
    exact .inl hrun

/-- A step of the node leaves handler `k` alone, or it is its turn. -/
theorem turn_of_nodeStep {node' : Node} {run : HandlerRun} (hkept : KeepsLog n s a)
    (h : NodeStep codec s n a node') (hrun : (s.nodes n).handlers[k]? = some run) :
    node'.handlers[k]? = some run ∨
    ∃ p, Turn s n a k run p ∧ node'.handlers[k]? = some { run with progress := p } := by
  cases h with
  | accept handler hl => exact .inl (History.getElem?_append_of_some hrun)
  | turnAway handler hl => exact .inl (History.getElem?_append_of_some hrun)
  | subscribe hat hsubmitted hfree =>
    refine turn_setProgress hrun ?_
    rintro rfl
    obtain rfl := Option.some.inj (hat.1.symm.trans hrun)
    exact .subscribes rfl hsubmitted hat.2 hfree
  | crash hat hsubmitted hpresent =>
    refine turn_setProgress hrun ?_
    rintro rfl
    obtain rfl := Option.some.inj (hat.1.symm.trans hrun)
    exact .crashes rfl hsubmitted hat.2 hpresent
  | receive hat hinbox =>
    refine turn_setProgress hrun ?_
    rintro rfl
    obtain rfl := Option.some.inj (hat.symm.trans hrun)
    exact .receives rfl hinbox
  | disconnect hat hwaits =>
    refine turn_setProgress hrun ?_
    rintro rfl
    exact .leaves rfl
  | deliver hsending hat hwaits =>
    refine turn_setProgress hrun ?_
    rintro rfl
    obtain rfl := Option.some.inj (hat.symm.trans hrun)
    exact .gets rfl hwaits hsending
  | restore m env data hidle hbehind => exact absurd rfl hkept
  | _ => exact .inl hrun

theorem turn_of_step {run : HandlerRun} (hkept : KeepsLog n s a)
    (hstep : (cluster codec).step s a = some s') (hrun : (s.nodes n).handlers[k]? = some run) :
    (s'.nodes n).handlers[k]? = some run ∨
    ∃ p, Turn s n a k run p ∧ (s'.nodes n).handlers[k]? = some { run with progress := p } := by
  rcases cluster_step_cases hstep with ⟨m, e', rfl, he', rfl⟩ | ⟨m, node', hnode, rfl⟩
  · exact .inl hrun
  · by_cases hm : n = m
    · subst hm
      rw [Cluster.setNode_nodes_self]
      exact turn_of_nodeStep hkept hnode hrun
    · rw [Cluster.setNode_nodes_of_ne s node' hm]
      exact .inl hrun

/-- Handler `k` of node `n` works on the request of `h` with index `i`. -/
def At (n k i : Nat) (h : Handler) (s : Cluster) (p : Progress) : Prop :=
  (s.nodes n).handlers[k]? = some { handler := h, index := some i, progress := p }

/-- The handler can answer with the result `c` of its command. -/
def Concludes (n : Nat) (h : Handler) (c : CommitCmd) : Prop :=
  ∃ resp, h.respond n (some c) = some resp ∧ resp.concluded = true

theorem concludes_of_body {h : Handler} {c : CommitCmd} (hown : c.serviceID = n)
    (hc : h.rejects c = true ∨ ∃ body, h.body c = some body) : Concludes n h c := by
  unfold Concludes
  rw [Handler.respond, if_pos hown]
  cases hrej : h.rejects c with
  | true => exact ⟨.duplicateRequest, rfl, rfl⟩
  | false =>
    obtain ⟨body, hbody⟩ := hc.resolve_left (by rw [hrej]; exact Bool.false_ne_true)
    exact ⟨.ok body, by rw [if_neg Bool.false_ne_true, hbody]; rfl, rfl⟩

theorem serviceID_apply (sp : KVSpec) (cmd : Command) :
    (sp.apply cmd).2.serviceID = cmd.serviceID := by
  have hexecute : (sp.store.execute cmd).2.serviceID = cmd.serviceID := by
    unfold ItemStore.execute
    cases cmd.kind <;> rfl
  cases hrep : sp.repeats cmd with
  | true =>
    rw [apply_repeats hrep]
    dsimp only [KVSpec.again]
    split
    · exact hexecute
    · exact hexecute
    · rfl
  | false =>
    rw [apply_fresh hrep]
    exact hexecute

/-- The result of a request's own command concludes it. Only the answer to a transaction
reads something that is not always there. -/
theorem concludes_apply (req : KVRequest) (sp : KVSpec) (n : Nat) :
    Concludes n req.handler (sp.apply (req.handler.command n)).2 := by
  refine concludes_of_body ((serviceID_apply sp _).trans (req.handler.command_serviceID n)) ?_
  cases req with
  | txn tr =>
    cases hrep : sp.repeats ((handleTxn tr).command n) with
    | true => exact .inl ((apply_isDuplicate sp _).trans hrep)
    | false =>
      refine .inr ?_
      dsimp only [KVRequest.handler]
      rw [apply_fresh hrep]
      exact ⟨_, rfl⟩
  | leaseKeepAlive lkr => exact .inr ⟨_, ite_self _⟩
  | _ => exact .inr ⟨_, rfl⟩

variable {h : Handler}

theorem waiting_step (hat : At n k i h s (.waiting none)) (hkept : KeepsLog n s a)
    (hclient : ClientWaits n k a) (hstep : (cluster codec).step s a = some s') :
    At n k i h s' (.waiting none) ∨
    ∃ c, (s.nodes n).sending = some (k, c) ∧ At n k i h s' (.waiting (some (some c))) := by
  rcases turn_of_step hkept hstep hat with hsame | ⟨p, hturn, hnew⟩
  · exact .inl hsame
  · cases hturn with
    | subscribes ha hsubmitted hindex hfree => cases hsubmitted
    | crashes ha hsubmitted hindex hpresent => cases hsubmitted
    | receives ha hinbox => cases hinbox
    | leaves ha =>
      subst ha
      exact absurd ⟨rfl, rfl⟩ hclient
    | gets ha hwaits hsending => exact .inr ⟨_, hsending, hnew⟩

theorem inbox_step {c : CommitCmd} (hat : At n k i h s (.waiting (some (some c))))
    (hc : Concludes n h c) (hkept : KeepsLog n s a) (hclient : ClientWaits n k a)
    (hstep : (cluster codec).step s a = some s') :
    At n k i h s' (.waiting (some (some c))) ∨
    ∃ resp, resp.concluded = true ∧ At n k i h s' (.answered resp) := by
  rcases turn_of_step hkept hstep hat with hsame | ⟨p, hturn, hnew⟩
  · exact .inl hsame
  · cases hturn with
    | subscribes ha hsubmitted hindex hfree => cases hsubmitted
    | crashes ha hsubmitted hindex hpresent => cases hsubmitted
    | receives ha hinbox =>
      cases hinbox
      obtain ⟨resp, hresp, hconcluded⟩ := hc
      simp only [hresp] at hnew
      exact .inr ⟨resp, hconcluded, hnew⟩
    | leaves ha =>
      subst ha
      exact absurd ⟨rfl, rfl⟩ hclient
    | gets ha hwaits hsending => cases hwaits

/-! ## The stages of an answer -/

/-- The handler's own entry is in the log of its node, in a run in which indices are not
shared. -/
structure Tended (codec : SnapshotCodec β) (n k i : Nat) (h : Handler) (s : Cluster) : Prop where
  reached : (cluster codec).ReachableBy IndexUnshared s
  holds : Holds n i (.command { cmd := h.command n, origin := some (n, k) }) s

/-- The steps of a run that leaves the handler to its node. -/
def Undisturbed (n k : Nat) (s : Cluster) (a : ClusterStep) : Prop :=
  IndexUnshared s a ∧ KeepsLog n s a ∧ ClientWaits n k a

theorem Tended.step (ht : Tended codec n k i h s) (hguard : Undisturbed n k s a)
    (hstep : (cluster codec).step s a = some s') : Tended codec n k i h s' :=
  ⟨ht.reached.step hguard.1 hstep, ht.holds.step hguard.2.1 hstep⟩

/-- The handler has subscribed, and its entry is still to be applied. -/
def Waits (n k i : Nat) (h : Handler) (s : Cluster) : Prop :=
  At n k i h s (.waiting none) ∧ (s.nodes n).applied ≤ i

/-- The apply loop has the result for the handler. -/
def Served (n k i : Nat) (h : Handler) (s : Cluster) : Prop :=
  At n k i h s (.waiting none) ∧ ∃ c, (s.nodes n).sending = some (k, c) ∧ Concludes n h c

/-- The handler has the result. -/
def Got (n k i : Nat) (h : Handler) (s : Cluster) : Prop :=
  ∃ c, At n k i h s (.waiting (some (some c))) ∧ Concludes n h c

/-- The handler has answered. -/
def Done (n k i : Nat) (h : Handler) (s : Cluster) : Prop :=
  ∃ resp, resp.concluded = true ∧ At n k i h s (.answered resp)

/-- Nothing is sent to a handler whose entry is still to be applied. -/
theorem not_sending (ht : Tended codec n k i h s) (hw : Waits n k i h s) (c : CommitCmd) :
    (s.nodes n).sending ≠ some (k, c) := by
  intro hsending
  obtain ⟨run, j, hrun, -, hlt, -⟩ := (nodeInv_of_reachable ht.reached n).sending hsending
  have hsame : i = j := (RunAt.unique ⟨hw.1, rfl⟩ hrun).2
  have := hw.2
  omega

theorem Waits.step {req : KVRequest} (ht : Tended codec n k i req.handler s)
    (hw : Waits n k i req.handler s) (hguard : Undisturbed n k s a)
    (hstep : (cluster codec).step s a = some s') :
    Served n k i req.handler s' ∨ Waits n k i req.handler s' := by
  obtain ⟨-, hkept, hclient⟩ := hguard
  rcases waiting_step hw.1 hkept hclient hstep with hat | ⟨c, hsending, -⟩
  · have hle := hw.2
    cases advance_step hkept hstep with
    | commits ha hlen hnode => exact .inr ⟨hat, hnode ▸ hle⟩
    | @applies env e hidle hlog hnode hcommitted =>
      by_cases hi : (s.nodes n).applied = i
      · -- its own entry: the subscription is there, and the result is its own
        subst hi
        refine .inl ⟨hat, ((s.nodes n).service.handleCommand codec env e.cmd
          (s.nodes n).applied).2.cmd, ?_, ?_⟩
        · have hsub := (nodeInv_of_reachable ht.reached n).waits ⟨hw.1, rfl⟩ rfl hle
          rw [hnode]
          simp only [Node.apply, hsub, Option.map_some]
        · have hentry := hlog.symm.trans ht.holds.entry
          cases hentry
          rw [(nodeReplica_of_reachable ht.reached n).result]
          exact concludes_apply req _ n
      · refine .inr ⟨hat, ?_⟩
        have happlied : (s'.nodes n).applied = (s.nodes n).applied + 1 :=
          congrArg Node.applied hnode
        omega
    | passes hidle hlog hnode hcommitted =>
      -- the entry at the index is its own
      have hi : (s.nodes n).applied ≠ i := by
        rintro rfl
        have hentry := hlog.symm.trans ht.holds.entry
        cases hentry
      refine .inr ⟨hat, ?_⟩
      have happlied : (s'.nodes n).applied = (s.nodes n).applied + 1 :=
        congrArg Node.applied hnode
      omega
    | serves ha hbusy hidle happlied hservice hcommitted => exact .inr ⟨hat, happlied ▸ hle⟩
    | rests ha hsending happlied hservice hcommitted => exact .inr ⟨hat, happlied ▸ hle⟩
  · exact absurd hsending (not_sending ht hw c)

/-- A send to a handler that waits reaches it. -/
theorem deliver_step {c : CommitCmd} (hat : At n k i h s (.waiting none))
    (hsending : (s.nodes n).sending = some (k, c))
    (hstep : (cluster codec).step s (.send n) = some s') :
    At n k i h s' (.waiting (some (some c))) := by
  obtain ⟨node', hsend, rfl⟩ := Option.map_eq_some_iff.mp hstep
  rw [At] at hat ⊢
  simp only [Node.send, hsending, Node.deposit, hat, Option.some.injEq] at hsend
  rw [Cluster.setNode_nodes_self, ← hsend]
  exact getElem?_setProgress_self _ hat

theorem Served.step (hs : Served n k i h s) (hkept : KeepsLog n s a) (hclient : ClientWaits n k a)
    (hstep : (cluster codec).step s a = some s') :
    Got n k i h s' ∨ Served n k i h s' ∧ ¬ Work.send.doneBy n a := by
  obtain ⟨hat, c, hsending, hc⟩ := hs
  rcases waiting_step hat hkept hclient hstep with hat' | ⟨c', hsending', hat'⟩
  · cases advance_step hkept hstep with
    | commits ha hlen hnode =>
      obtain ⟨m, rfl⟩ := ha
      exact .inr ⟨⟨hat', c, hnode ▸ hsending, hc⟩, id⟩
    | applies hidle hlog hnode hcommitted =>
      rw [hidle] at hsending
      cases hsending
    | passes hidle hlog hnode hcommitted =>
      rw [hidle] at hsending
      cases hsending
    | serves ha hbusy hidle happlied hservice hcommitted =>
      subst ha
      exact .inl ⟨c, deliver_step hat hsending hstep, hc⟩
    | rests ha hsame happlied hservice hcommitted =>
      exact .inr ⟨⟨hat', c, hsame.trans hsending, hc⟩, ha .send⟩
  · rw [hsending] at hsending'
    cases hsending'
    exact .inl ⟨c, hat', hc⟩

/-- The receive of a handler that has its result. -/
theorem receive_step (hg : Got n k i h s) (hstep : (cluster codec).step s (.receive n k) = some s') :
    Done n k i h s' := by
  obtain ⟨c, hat, resp, hresp, hconcluded⟩ := hg
  obtain ⟨node', hnode, rfl⟩ := Option.map_eq_some_iff.mp hstep
  rw [At] at hat
  simp only [Node.receive, hat, hresp, Option.some.injEq] at hnode
  refine ⟨resp, hconcluded, ?_⟩
  rw [At, Cluster.setNode_nodes_self, ← hnode]
  exact getElem?_setProgress_self _ hat

theorem Got.step (hg : Got n k i h s) (hkept : KeepsLog n s a) (hclient : ClientWaits n k a)
    (hstep : (cluster codec).step s a = some s') :
    Done n k i h s' ∨ Got n k i h s' ∧ ¬ Receives n k a := by
  by_cases hreceives : Receives n k a
  · cases a with
    | receive m j =>
      obtain ⟨rfl, rfl⟩ := hreceives
      exact .inl (receive_step hg hstep)
    | _ => cases hreceives
  · obtain ⟨c, hat, hc⟩ := hg
    exact (inbox_step hat hc hkept hclient hstep).symm.imp_right fun hat' =>
      ⟨⟨c, hat', hc⟩, hreceives⟩

/-- The handler waits for an entry that has been applied, and nothing is on its way. -/
def Missed (n k i : Nat) (h : Handler) (s : Cluster) : Prop :=
  At n k i h s (.waiting none) ∧ i < (s.nodes n).applied ∧ ∀ c, (s.nodes n).sending ≠ some (k, c)

theorem Missed.step (hreach : (cluster codec).ReachableBy IndexUnshared s)
    (hm : Missed n k i h s) (hkept : KeepsLog n s a) (hclient : ClientWaits n k a)
    (hstep : (cluster codec).step s a = some s') : Missed n k i h s' := by
  obtain ⟨hat, hlt, hnone⟩ := hm
  rcases waiting_step hat hkept hclient hstep with hat' | ⟨c, hsending, -⟩
  · cases advance_step hkept hstep with
    | commits ha hlen hnode =>
      rw [Missed, hnode]
      exact ⟨hat', hlt, hnone⟩
    | applies hidle hlog hnode hcommitted =>
      refine ⟨hat', ?_, fun c hsending => ?_⟩
      · rw [hnode]
        exact Nat.lt_succ_of_lt hlt
      · -- a subscription of the handler is for its index
        rw [hnode] at hsending
        obtain ⟨j, hsub, hj⟩ := Option.map_eq_some_iff.mp hsending
        obtain rfl : j = k := congrArg Prod.fst hj
        obtain ⟨run, hrun, -⟩ := (nodeInv_of_reachable hreach n).subs hsub
        have hsame : i = (s.nodes n).applied := (RunAt.unique ⟨hat, rfl⟩ hrun).2
        omega
    | passes hidle hlog hnode hcommitted =>
      rw [Missed, hnode]
      exact ⟨hat', Nat.lt_succ_of_lt hlt, hnone⟩
    | serves ha hbusy hidle happlied hservice hcommitted =>
      refine ⟨hat', happlied ▸ hlt, fun c => ?_⟩
      rw [hidle]
      exact (Option.some_ne_none _).symm
    | rests ha hsending happlied hservice hcommitted =>
      refine ⟨hat', happlied ▸ hlt, fun c => ?_⟩
      rw [hsending]
      exact hnone c
  · exact absurd hsending (hnone c)

/-! ## Runs -/

section Answers

variable {r : (cluster codec).Run} {t : Nat} {req : KVRequest}

/-- In a fair run, a handler that waits for its entry is served. The entry is applied at some
time, and only a result for the handler ends its wait. -/
theorem eventually_served (hmeets : r.MeetsFrom t (Undisturbed n k))
    (hwork : ∀ w : Work, r.Fair (w.doneBy n)) (ht : Tended codec n k i req.handler (r.state t))
    (hw : Waits n k i req.handler (r.state t)) :
    ∃ u, t ≤ u ∧ Tended codec n k i req.handler (r.state u) ∧
      Served n k i req.handler (r.state u) := by
  obtain ⟨u, htu, happlied⟩ := Run.eventually_of_ranked (ranked_applied codec n i _) hwork
    (hmeets.imp fun hguard => hguard.2.1) ⟨ht.holds, hw.2⟩
  refine Run.eventually_of_unless (G := Undisturbed n k)
    (P := fun s => Tended codec n k i req.handler s ∧ Waits n k i req.handler s)
    (Q := fun s => Tended codec n k i req.handler s ∧ Served n k i req.handler s)
    hmeets ⟨ht, hw⟩ ?_ ⟨u, htu, fun hwaits => ?_⟩
  · rintro s a s' ⟨ht, hw⟩ hguard hstep
    have ht' := ht.step hguard hstep
    exact (hw.step ht hguard hstep).imp (fun hs => ⟨ht', hs⟩) fun hw' => ⟨ht', hw'⟩
  · exact absurd hwaits.2.2 (Nat.not_le_of_lt happlied)

theorem eventually_got (hmeets : r.MeetsFrom t (Undisturbed n k))
    (hsend : r.Fair (Work.send.doneBy n)) (hs : Served n k i h (r.state t)) :
    ∃ u, t ≤ u ∧ Got n k i h (r.state u) := by
  refine Run.eventually_of_fair hsend ?_ ?_ hmeets hs
  · rintro s ⟨hat, c, hsending, hc⟩
    refine ⟨.send n, rfl, ?_⟩
    simp [cluster, Node.send, hsending]
  · exact fun hs hguard hstep => hs.step hguard.2.1 hguard.2.2 hstep

theorem eventually_done (hmeets : r.MeetsFrom t (Undisturbed n k))
    (hreceive : r.Fair (Receives n k)) (hg : Got n k i h (r.state t)) :
    ∃ u, t ≤ u ∧ Done n k i h (r.state u) := by
  refine Run.eventually_of_fair hreceive ?_ ?_ hmeets hg
  · rintro s ⟨c, hat, hc⟩
    rw [At] at hat
    refine ⟨.receive n k, ⟨rfl, rfl⟩, ?_⟩
    simp [cluster, Node.receive, hat]
  · exact fun hg hguard hstep => hg.step hguard.2.1 hguard.2.2 hstep

/-- The subscription. -/
theorem subscribe_step (hat : At n k i h s .submitted) (hfree : i ∉ (s.nodes n).commitSubs)
    (hstep : (cluster codec).step s (.subscribe n k) = some s') :
    At n k i h s' (.waiting none) ∧ (s'.nodes n).applied = (s.nodes n).applied ∧
      (s'.nodes n).sending = (s.nodes n).sending := by
  obtain ⟨node', hnode, rfl⟩ := Option.map_eq_some_iff.mp hstep
  rw [At] at hat
  simp only [Node.subscribe, hat, if_neg hfree, Option.some.injEq] at hnode
  rw [At, Cluster.setNode_nodes_self, ← hnode]
  exact ⟨getElem?_setProgress_self _ hat, rfl, rfl⟩

/-- Nobody sends to a handler that has not subscribed. -/
theorem not_sending_submitted (hreach : (cluster codec).ReachableBy IndexUnshared s)
    (hat : At n k i h s .submitted) (c : CommitCmd) : (s.nodes n).sending ≠ some (k, c) := by
  intro hsending
  obtain ⟨run, j, hrun, hstarted, -⟩ := (nodeInv_of_reachable hreach n).sending hsending
  obtain rfl := (RunAt.unique ⟨hat, rfl⟩ hrun).1
  exact hstarted rfl

end Answers

end AnswerLemmas

open AnswerLemmas

/-! ## Main results -/

/-- In a fair run, node `n` has the entry of its handler `k` at index `i`, where nobody else has
subscribed. It has all that is committed and keeps its log, and the client waits. If the handler
subscribes before the entry is applied, it answers OK or that the request was done before. If it
subscribes after that, it waits for ever. -/
theorem answered_or_never {β : Type} (codec : SnapshotCodec β) {r : (cluster codec).Run}
    (hunshared : r.MeetsFrom 0 IndexUnshared) {t n k i : Nat} {req : KVRequest}
    (hsubscribe : r.label t = some (.subscribe n k))
    (hrun : ((r.state t).nodes n).handlers[k]? =
      some { handler := req.handler, index := some i, progress := .submitted })
    (hfree : i ∉ ((r.state t).nodes n).commitSubs)
    (hentry : ((r.state t).nodes n).log[i]? =
      some (.command { cmd := req.handler.command n, origin := some (n, k) }))
    (hcommitted : (r.state t).committed <+: ((r.state t).nodes n).log)
    (hkept : r.MeetsFrom t fun s a => KeepsLog n s a ∧ ClientWaits n k a)
    (hwork : ∀ w : Work, r.Fair (w.doneBy n)) (hreceive : r.Fair (Receives n k)) :
    (((r.state t).nodes n).applied ≤ i → ∃ u, t < u ∧ ∃ resp, resp.concluded = true ∧
      ((r.state u).nodes n).handlers[k]? =
        some { handler := req.handler, index := some i, progress := .answered resp }) ∧
    (i < ((r.state t).nodes n).applied → ∀ u, t < u → ((r.state u).nodes n).handlers[k]? =
      some { handler := req.handler, index := some i, progress := .waiting none }) := by
  have hreach := Run.reachableBy hunshared
  have hmeets : r.MeetsFrom t (Undisturbed n k) := fun u htu a ha =>
    ⟨hunshared u (Nat.zero_le u) a ha, hkept u htu a ha⟩
  have hstep := r.steps hsubscribe
  have ht : Tended codec n k i req.handler (r.state (t + 1)) := by
    have hholds : Holds n i (.command ⟨req.handler.command n, some (n, k)⟩) (r.state t) :=
      ⟨⟨hcommitted, (OriginLemmas.origins_of_reachable (hreach t)).applied_le n⟩, hentry⟩
    exact ⟨hreach (t + 1), hholds.step (hkept t le_rfl _ hsubscribe).1 hstep⟩
  obtain ⟨hat, happlied, hsending⟩ := subscribe_step hrun hfree hstep
  have hlater := hmeets.later (Nat.le_succ t)
  constructor
  · intro hle
    obtain ⟨u, htu, htu', hserved⟩ := eventually_served hlater hwork ht ⟨hat, happlied ▸ hle⟩
    obtain ⟨v, huv, hgot⟩ := eventually_got (hlater.later htu) (hwork .send) hserved
    obtain ⟨w, hvw, hdone⟩ := eventually_done (hlater.later (Nat.le_trans htu huv)) hreceive hgot
    exact ⟨w, Nat.lt_of_succ_le (Nat.le_trans htu (Nat.le_trans huv hvw)), hdone⟩
  · intro hlt u htu
    have hmissed : Missed n k i req.handler (r.state (t + 1)) := by
      refine ⟨hat, happlied ▸ hlt, fun c => ?_⟩
      rw [hsending]
      exact not_sending_submitted (hreach t) hrun c
    exact (Run.always_of_step hlater hmissed (fun {v _ _} _ hm hguard hstep =>
      hm.step (hreach v) hguard.2.1 hguard.2.2 hstep) htu).1

/-- `aPut` of node 1, which then stands still. -/
def oneAnswer : List ClusterStep :=
  [.lead 1 true, .submit 1 aPut, .subscribe 1 0, .commit 1, .apply 1 (Env.at 0), .send 1,
    .receive 1 0]

/-- The handler subscribes before the put is committed. -/
theorem answered_or_never_put :
    ∃ r : (cluster .plain).Run, r.label 2 = some (.subscribe 1 0) ∧
      ∃ u, 2 < u ∧ ∃ resp, resp.concluded = true ∧ ((r.state u).nodes 1).handlers[0]? =
        some { handler := aPut, index := some 0, progress := .answered resp } := by
  obtain ⟨r, hmeets, hlabel, hexec⟩ := exists_run (M := cluster .plain)
    (G := fun s a => IndexUnshared s a ∧ KeepsLog 1 s a ∧ ClientWaits 1 0 a) oneAnswer rfl
  have hstops : ∀ u, 7 ≤ u → r.label u = none := fun u hu => by
    rw [hlabel]
    exact List.getElem?_eq_none hu
  have hrun : ((r.state 2).nodes 1).handlers[0]? = some ⟨(KVRequest.put
      { key := "a", value := "x", clientID := 1, requestID := 1 }).handler, some 0, .submitted⟩ :=
    Run.shows hexec 2 (fun s => (s.nodes 1).handlers[0]?) rfl
  have hfree : ((r.state 2).nodes 1).commitSubs = ∅ :=
    Run.shows hexec 2 (fun s => (s.nodes 1).commitSubs) rfl
  have hlog : ((r.state 2).nodes 1).log = [.command ⟨aPut.command 1, some (1, 0)⟩] :=
    Run.shows hexec 2 (fun s => (s.nodes 1).log) rfl
  have hcommitted : (r.state 2).committed = [] := Run.shows hexec 2 (fun s => s.committed) rfl
  have happlied : ((r.state 2).nodes 1).applied = 0 :=
    Run.shows hexec 2 (fun s => (s.nodes 1).applied) rfl
  have hend : ((r.state 7).nodes 1).log.length = 1 ∧ (r.state 7).committed.length = 1 ∧
      ((r.state 7).nodes 1).applied = 1 ∧ ((r.state 7).nodes 1).sending = none := by
    have hshown := Run.shows hexec 7 (x := (1, 1, 1, none)) (fun s => ((s.nodes 1).log.length,
      s.committed.length, (s.nodes 1).applied, (s.nodes 1).sending)) (by decide)
    simpa using hshown
  have hanswered : ((r.state 7).nodes 1).handlers[0]? =
      some ⟨aPut, some 0, .answered (.ok (.prev false "" 1))⟩ :=
    Run.shows hexec 7 (fun s => (s.nodes 1).handlers[0]?) rfl
  refine ⟨r, hlabel 2, (answered_or_never .plain (hmeets.imp And.left) (hlabel 2) hrun
    (by rw [hfree]; exact Finmap.notMem_empty) (by rw [hlog]; rfl)
    (by rw [hcommitted]; exact List.nil_prefix)
    ((hmeets.imp And.right).later (Nat.zero_le 2)) (fun w => ?_) ?_).1 (by rw [happlied])⟩
  · obtain ⟨hlog', hcommitted', happlied', hidle⟩ := hend
    exact Run.fair_of_stops hstops (no_work .plain (by omega) (by omega) hidle w)
  · refine Run.fair_of_stops hstops fun a ha => ?_
    cases a with
    | receive m j =>
      obtain ⟨rfl, rfl⟩ := ha
      simp [cluster, Node.receive, hanswered]
    | _ => cases ha

end Zodiac
