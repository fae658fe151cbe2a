import Zodiac.NodeInvariant
import Zodiac.Origin

/-!
# What an acknowledgement means

A handler that answers OK should have had its own command applied. The handler
only knows the log index that `Submit` returned and compares the service id of
what was applied there with its own. That identifies the command as long as no
two handlers of one node share an index.

* `Acknowledged`: every OK answer reports the handler's own entry.
* `IndexUnshared`: the condition on steps.
* `acknowledged_of_indexUnshared`: it suffices, in every run.
* `reused_index_acknowledged`: after an index is reused, a handler reports the
  result of another command.
* `expiry_acknowledged`: on node 0 a lease expiry passes for the handler's
  command.
-/

namespace Zodiac

/-! ## Definitions -/

/-- Every OK answer of a handler is built from the result of the entry applied at
the index its `Submit` returned, and that entry is the one it submitted. -/
def Acknowledged (s : Cluster) : Prop :=
  ∀ n k run body, (s.nodes n).handlers[k]? = some run → run.progress = .answered (.ok body) →
    ∃ i c, run.index = some i ∧
      (s.nodes n).results.lookup i =
        some ({ cmd := run.handler.command n, origin := some (n, k) }, c) ∧
      run.handler.body c = some body

/-- The condition on steps. `Submit` does not return an index on which another
handler of the node is in flight, and node 0 applies no lease expiry at an index
on which one of its handlers waits. -/
def IndexUnshared (s : Cluster) : ClusterStep → Prop
  | .submit n _ => (s.nodes n).isLeader = true →
      ∀ run ∈ (s.nodes n).handlers, run.progress.live = true →
        run.index ≠ some (s.nodes n).log.length
  | .apply n _ => n = 0 → ∀ item ∈ s.committed[(s.nodes n).applied]?, ∀ e ∈ item.entry,
      e.origin = none → ∀ k ∈ (s.nodes n).commitSubs.lookup (s.nodes n).applied,
        ∀ run ∈ (s.nodes n).handlers[k]?, run.progress.isWaiting = false
  | _ => True

instance (s : Cluster) : (a : ClusterStep) → Decidable (IndexUnshared s a)
  | .submit n _ => inferInstanceAs (Decidable ((s.nodes n).isLeader = true →
      ∀ run ∈ (s.nodes n).handlers, run.progress.live = true →
        run.index ≠ some (s.nodes n).log.length))
  | .apply n _ => inferInstanceAs (Decidable (n = 0 →
      ∀ item ∈ s.committed[(s.nodes n).applied]?, ∀ e ∈ item.entry, e.origin = none →
        ∀ k ∈ (s.nodes n).commitSubs.lookup (s.nodes n).applied,
          ∀ run ∈ (s.nodes n).handlers[k]?, run.progress.isWaiting = false))
  | .lead _ _ | .subscribe _ _ | .receive _ _ | .disconnect _ _ | .expire _ _ _
  | .changeConfig _ _ | .replace _ _ _ _ | .commit _ | .send _ | .restore _ _ _ =>
    inferInstanceAs (Decidable True)

/-! ## The invariant -/

namespace AcknowledgeLemmas

open NodeStepLemmas NodeInvariantLemmas OriginLemmas

variable {n : Nat} {s : Cluster}

/-- The entry that node `n` applies next, where one of its handlers waits: if it
carries the id of the node, it is that handler's. -/
theorem own_entry (h : NodeInv n (s.nodes n)) (horigins : Origins s) {env : Env} {e : Entry} {k : Nat}
    {run : HandlerRun} (he : s.committed[(s.nodes n).applied]? = some (.command e))
    (hguard : IndexUnshared s (.apply n env)) (hrun : RunAt (s.nodes n) k run (s.nodes n).applied)
    (hwaits : run.progress.isWaiting = true) (hid : e.cmd.serviceID = n) :
    e = { cmd := run.handler.command n, origin := some (n, k) } := by
  obtain ⟨cmd, origin⟩ := e
  have hfrom := horigins.committed _ _ he
  cases origin with
  | none =>
    -- a lease expiry has the service id 0
    obtain rfl : 0 = n := hfrom.symm.trans hid
    have hsub := h.waits hrun hwaits le_rfl
    have hfalse := hguard rfl _ he _ rfl rfl k hsub run hrun.1
    rw [hwaits] at hfalse
    cases hfalse
  | some o =>
    obtain ⟨m, k'⟩ := o
    obtain ⟨handler, hk', hcmd⟩ := hfrom
    obtain rfl : m = n := by
      rw [← hid, hcmd]
      exact (handler.command_serviceID m).symm
    obtain ⟨run', hrun', rfl⟩ := getElem?_requests hk'
    obtain rfl := h.alone hrun hrun' le_rfl hwaits
    obtain ⟨rfl, _⟩ := hrun.unique hrun'
    rw [← hcmd]

/-- Every step of a node that keeps the indices unshared keeps its bookkeeping. -/
theorem nodeInv_nodeStep {β : Type} {codec : SnapshotCodec β} (h : NodeInv n (s.nodes n))
    (horigins : Origins s) {a : ClusterStep} {node' : Node} (hguard : IndexUnshared s a)
    (hstep : NodeStep codec s n a node') : NodeInv n node' := by
  cases hstep with
  | lead b => exact h.setLog b h.applied_le
  | accept handler hl => exact h.accept handler (hguard hl)
  | turnAway handler hl => exact h.addHandler _ (.inl ⟨rfl, rfl⟩)
  | subscribe hrun hsubmitted hfree => exact h.wait hrun hsubmitted hfree
  | crash hrun hsubmitted hpresent => exact h.crash hrun hpresent
  | receive hrun hinbox => exact h.receive hrun hinbox
  | disconnect hrun hwaits => exact h.disconnect hrun hwaits
  | expire ids hl => exact h.append _
  | expireDropped hl => exact h
  | changeConfig cc hl => exact h.append _
  | replace m len happlied hkeep =>
    refine h.setLog (s.nodes n).isLeader ?_
    rw [List.length_append, List.length_take_of_le hkeep]
    exact le_trans happlied (Nat.le_add_right _ _)
  | apply env hidle hlog hcommitted =>
    exact h.apply codec env (List.getElem?_eq_some_iff.mp hlog).1
      fun _ _ hrun hwaits hid => own_entry h horigins hcommitted hguard hrun hwaits hid
  | pass env hidle hlog hcommitted => exact h.pass (List.getElem?_eq_some_iff.mp hlog).1
  | deliver hsending hrun hwaits => exact h.deliver hsending hrun hwaits
  | drop hsending hnobody => exact h.clearSending
  | restore m env data hidle hbehind =>
    have hle := horigins.applied_le m
    exact h.restore codec data (by omega) (by omega) hidle

theorem nodeInv_of_reachable {β : Type} {codec : SnapshotCodec β} {s : Cluster}
    (h : (cluster codec).ReachableBy IndexUnshared s) (n : Nat) : NodeInv n (s.nodes n) :=
  nodes_invariant NodeInv.new (fun _ n _ _ hreach hinv hguard hstep =>
    nodeInv_nodeStep (hinv n) (origins_of_reachable hreach) hguard hstep) h n

end AcknowledgeLemmas

open AcknowledgeLemmas

/-! ## Acknowledgements -/

/-- In every run in which no two handlers of a node share an index, an OK answer
reports the handler's own command and its result. -/
theorem acknowledged_of_indexUnshared {β : Type} (codec : SnapshotCodec β) {s : Cluster}
    (h : (cluster codec).ReachableBy IndexUnshared s) : Acknowledged s := by
  exact fun n _ _ _ hrun hp => (nodeInv_of_reachable h n).answers hrun hp

/-- Handler `k` of node `n`: the command that it submitted, its index and where it is. -/
def Cluster.handlerAt (s : Cluster) (n k : Nat) : Option (Command × Option Nat × Progress) :=
  (s.nodes n).handlers[k]?.map fun run => (run.handler.command n, run.index, run.progress)

theorem Cluster.handlerAt_eq_some {s : Cluster} {n k : Nat} {c : Command} {i : Option Nat}
    {p : Progress} (h : s.handlerAt n k = some (c, i, p)) :
    ∃ run, (s.nodes n).handlers[k]? = some run ∧ run.handler.command n = c ∧ run.index = i ∧
      run.progress = p := by
  obtain ⟨run, hrun, hshown⟩ := Option.map_eq_some_iff.mp h
  simp only [Prod.mk.injEq] at hshown
  exact ⟨run, hrun, hshown⟩

/-- The command that node `n` applied at index `i`. -/
def Cluster.appliedAt (s : Cluster) (n i : Nat) : Option Command :=
  ((s.nodes n).results.lookup i).map fun r => r.1.cmd

def aPut : Handler := handlePut { key := "a", value := "x", clientID := 1, requestID := 1 }

def lostPut : Handler := handlePut { key := "a", value := "y", clientID := 2, requestID := 1 }

def otherPut : Handler := handlePut { key := "b", value := "z", clientID := 3, requestID := 1 }

def latePut : Handler := handlePut { key := "b", value := "w", clientID := 3, requestID := 2 }

/-- One put, from its submission to its answer. -/
theorem acknowledged_single_put :
    ∃ s, (cluster .plain).ReachableBy IndexUnshared s ∧ Acknowledged s ∧
      s.handlerAt 1 0 = some (aPut.command 1, some 0, .answered (.ok (.prev false "" 1))) := by
  obtain ⟨s, hreach, hs⟩ := Machine.exists_reachableBy (M := cluster .plain) (G := IndexUnshared)
    [.lead 1 true, .submit 1 aPut, .subscribe 1 0, .commit 1, .apply 1 (Env.at 0), .send 1,
      .receive 1 0]
    (fun s => s.handlerAt 1 0)
    (x := some (aPut.command 1, some 0, .answered (.ok (.prev false "" 1)))) (by decide)
  exact ⟨s, hreach, acknowledged_of_indexUnshared .plain hreach, hs⟩

/-! ## Wrong acknowledgements -/

namespace AcknowledgeLemmas

/-- An OK answer for a command other than the one applied at its index. -/
theorem not_acknowledged {s : Cluster} {n k i : Nat} {c c' : Command} {body : Body} (hne : c' ≠ c)
    (hrun : s.handlerAt n k = some (c, some i, .answered (.ok body)))
    (happlied : s.appliedAt n i = some c') : ¬ Acknowledged s := by
  intro h
  obtain ⟨run, hk, rfl, hindex, hp⟩ := Cluster.handlerAt_eq_some hrun
  obtain ⟨j, result, hj, hresult, _⟩ := h n k run body hk hp
  obtain rfl : i = j := Option.some.inj (hindex.symm.trans hj)
  rw [Cluster.appliedAt, hresult] at happlied
  exact hne (Option.some.inj happlied).symm

end AcknowledgeLemmas

/-- Node 1 submits two puts at 0 and 1 and loses both to the put of another leader
at 0. Then it leads again and `Submit` returns index 1 for a later put, whose
handler panics on the old subscription; the result of the later put goes to the
second handler. -/
def reusedIndex : List ClusterStep :=
  [.lead 1 true, .submit 1 aPut, .subscribe 1 0, .submit 1 lostPut, .subscribe 1 1, .lead 1 false,
    .lead 2 true, .submit 2 otherPut, .replace 1 2 0 1, .lead 2 false,
    .lead 1 true, .submit 1 latePut, .subscribe 1 2, .commit 1, .commit 1,
    .apply 1 (Env.at 0), .send 1, .apply 1 (Env.at 0), .send 1, .receive 1 1]

/-- The client is told that `a` held `z` before its put, which was never applied. -/
theorem reused_index_acknowledged :
    ∃ s, (cluster .plain).Reachable s ∧ ¬ Acknowledged s ∧
      s.handlerAt 1 1 = some (lostPut.command 1, some 1, .answered (.ok (.prev true "z" 2))) ∧
      s.commands = [otherPut.command 2, latePut.command 1] := by
  obtain ⟨s, hreach, hs⟩ := Machine.exists_reachableBy (M := cluster .plain)
    (G := fun _ _ => True) reusedIndex
    (fun s => (s.handlerAt 1 1, s.appliedAt 1 1, s.commands))
    (x := (some (lostPut.command 1, some 1, .answered (.ok (.prev true "z" 2))),
      some (latePut.command 1), [otherPut.command 2, latePut.command 1])) (by decide)
  simp only [Prod.mk.injEq] at hs
  obtain ⟨hrun, happlied, hcommitted⟩ := hs
  exact ⟨s, hreach, not_acknowledged (by decide) hrun happlied, hrun, hcommitted⟩

/-- The handler of node 0 waits at index 1, where the next leader puts the expiry
of lease 1. -/
def expiryAtIndex : List ClusterStep :=
  [.lead 0 true, .submit 0 (handleLeaseGrant { ttl := 1, clientID := 1, requestID := 1 }),
    .replace 2 0 0 1, .commit 0, .apply 0 (Env.at 0), .apply 2 (Env.at 0),
    .submit 0 lostPut, .subscribe 0 1, .lead 0 false,
    .lead 2 true, .expire 2 2000000000 .ascending, .replace 0 2 1 1, .commit 2,
    .apply 0 (Env.at 0), .send 0, .receive 0 1]

/-- A lease-expiry command has the service id 0, which node 0 takes for its own. -/
theorem expiry_acknowledged :
    ∃ s, (cluster .plain).Reachable s ∧ ¬ Acknowledged s ∧
      s.handlerAt 0 1 = some (lostPut.command 0, some 1, .answered (.ok (.prev false "" 1))) := by
  obtain ⟨s, hreach, hs⟩ := Machine.exists_reachableBy (M := cluster .plain)
    (G := fun _ _ => True) expiryAtIndex (fun s => (s.handlerAt 0 1, s.appliedAt 0 1))
    (x := (some (lostPut.command 0, some 1, .answered (.ok (.prev false "" 1))),
      some { kind := .leaseExpiry, leaseIDs := [1] })) (by decide)
  simp only [Prod.mk.injEq] at hs
  exact ⟨s, hreach, not_acknowledged (by decide) hs.1 hs.2, hs.1⟩

end Zodiac
