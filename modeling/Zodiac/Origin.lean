import Zodiac.NodeStep

/-!
# Where log entries come from

In every run, a command stands at the index that `Submit` returned to the handler
that it names, in every log and in the committed one, whatever was cut and
replaced in between.

* `FromHandler`: the command is where its handler put it.
* `Origins`: so are all commands, and no node is ahead of the committed log.
* `origins_of_reachable`: in every state reached.
-/

namespace Zodiac

namespace OriginLemmas

open History NodeStepLemmas

/-- What stays of a handler: the request and the index that `Submit` returned. -/
def requests (node : Node) : List (Handler × Option Nat) :=
  node.handlers.map fun run => (run.handler, run.index)

/-- The entry `e` at index `j` is a lease expiry, or was submitted there by the
handler that it names. -/
def FromHandler (s : Cluster) (j : Nat) (e : Entry) : Prop :=
  match e.origin with
  | none => e.cmd.serviceID = 0
  | some (m, k) => ∃ handler, (requests (s.nodes m))[k]? = some (handler, some j) ∧
      e.cmd = handler.command m

/-- All commands are where their handlers put them, and no node has applied more
than its log or the committed log has. -/
structure Origins (s : Cluster) : Prop where
  logged : ∀ n j e, (s.nodes n).log[j]? = some (.command e) → FromHandler s j e
  committed : ∀ j e, s.committed[j]? = some (.command e) → FromHandler s j e
  applied_le : ∀ n, (s.nodes n).applied ≤ s.committed.length
  applied_le_log : ∀ n, (s.nodes n).applied ≤ (s.nodes n).log.length

variable {n : Nat} {node : Node} {s : Cluster}

theorem getElem?_requests {k j : Nat} {handler : Handler}
    (h : (requests node)[k]? = some (handler, some j)) :
    ∃ run, RunAt node k run j ∧ run.handler = handler := by
  rw [requests, List.getElem?_map, Option.map_eq_some_iff] at h
  obtain ⟨run, hrun, hpair⟩ := h
  obtain ⟨rfl, hindex⟩ := Prod.mk.inj hpair
  exact ⟨run, ⟨hrun, hindex⟩, rfl⟩

theorem fromHandler_setNode {node' : Node} {j : Nat} {e : Entry}
    (hkept : requests (s.nodes n) <+: requests node') (h : FromHandler s j e) :
    FromHandler (s.setNode n node') j e := by
  unfold FromHandler at h ⊢
  split at h
  · exact h
  · next m k _ =>
    obtain ⟨handler, hk, hcmd⟩ := h
    refine ⟨handler, ?_, hcmd⟩
    by_cases heq : m = n
    · subst heq
      obtain ⟨rest, hrest⟩ := hkept
      rw [Cluster.setNode_nodes_self, ← hrest]
      exact getElem?_append_of_some hk
    · rw [Cluster.setNode_nodes_of_ne s node' heq]
      exact hk

/-! ## Requests only accumulate -/

theorem requests_setProgress (k : Nat) (p : Progress) :
    requests (node.setProgress k p) = requests node := by
  refine List.ext_getElem? fun j => ?_
  rw [requests, requests, List.getElem?_map, List.getElem?_map, getElem?_setProgress]
  split
  · rw [Option.map_map]
    rfl
  · rfl

theorem requests_restore {β : Type} (codec : SnapshotCodec β) (node : Node) (index : Nat) (data : β)
    (committed : List LogItem) :
    requests (node.restore codec index data committed) = requests node := by
  refine List.ext_getElem? fun j => ?_
  simp only [requests, Node.restore, List.getElem?_map, List.getElem?_mapIdx, Option.map_map]
  congr 1
  funext run
  simp only [Function.comp_apply]
  split
  · split <;> rfl
  · rfl

variable {β : Type} {codec : SnapshotCodec β} {a : ClusterStep} {node' : Node}

theorem requests_kept (h : NodeStep codec s n a node') :
    requests (s.nodes n) <+: requests node' := by
  have hsame : requests node' = requests (s.nodes n) →
      requests (s.nodes n) <+: requests node' := fun heq => heq ▸ List.prefix_refl _
  cases h with
  | lead b => exact hsame rfl
  | accept handler hl => exact ⟨_, List.map_append.symm⟩
  | turnAway handler hl => exact ⟨_, List.map_append.symm⟩
  | subscribe => exact hsame (requests_setProgress _ _)
  | crash => exact hsame (requests_setProgress _ _)
  | receive => exact hsame (requests_setProgress _ _)
  | disconnect => exact hsame (requests_setProgress _ _)
  | expire ids hl => exact hsame rfl
  | expireDropped hl => exact hsame rfl
  | changeConfig cc hl => exact hsame rfl
  | replace m len happlied hkeep => exact hsame rfl
  | apply env hidle hlog hcommitted => exact hsame rfl
  | pass env hidle hlog hcommitted => exact hsame rfl
  | deliver => exact hsame (requests_setProgress _ _)
  | drop hsending hnobody => exact hsame rfl
  | restore m env data hidle hbehind => exact hsame (requests_restore _ _ _ _ _)

/-- A handler keeps its number and its index. -/
theorem runAt_kept (h : NodeStep codec s n a node') {k i : Nat} {run : HandlerRun}
    (hrun : RunAt (s.nodes n) k run i) : ∃ run', RunAt node' k run' i := by
  have hk : (requests (s.nodes n))[k]? = some (run.handler, some i) := by
    rw [requests, List.getElem?_map, hrun.1, Option.map_some, hrun.2]
  obtain ⟨rest, hrest⟩ := requests_kept h
  have hk' : (requests node')[k]? = some (run.handler, some i) := by
    rw [← hrest]
    exact getElem?_append_of_some hk
  obtain ⟨run', hrun', _⟩ := getElem?_requests hk'
  exact ⟨run', hrun'⟩

/-! ## Logs -/

/-- The entries of a log that keeps a first part and goes on with others. -/
theorem getElem?_take_append {l r : List LogItem} {keep j : Nat} {e : LogItem} (hkeep : keep ≤ l.length)
    (hj : (l.take keep ++ r)[j]? = some e) :
    l[j]? = some e ∨ (keep ≤ j ∧ r[j - keep]? = some e) := by
  have hlen : (l.take keep).length = keep := List.length_take_of_le hkeep
  rcases Nat.lt_or_ge j keep with hlt | hge
  · rw [List.getElem?_append_left (hlen.symm ▸ hlt), List.getElem?_take_of_lt hlt] at hj
    exact .inl hj
  · rw [List.getElem?_append_right (hlen.symm ▸ hge), hlen] at hj
    exact .inr ⟨hge, hj⟩

/-- The log of a node after a step of it. -/
theorem logged_nodeStep (h : Origins s) (hstep : NodeStep codec s n a node') {j : Nat} {e : Entry}
    (hj : node'.log[j]? = some (.command e)) : FromHandler (s.setNode n node') j e := by
  have hold : FromHandler s j e → FromHandler (s.setNode n node') j e :=
    fromHandler_setNode (requests_kept hstep)
  cases hstep with
  | lead b => exact hold (h.logged n j e hj)
  | accept handler hl =>
    rcases getElem?_concat hj with hj | ⟨rfl, heq⟩
    · exact hold (h.logged n j e hj)
    · cases heq
      refine ⟨handler, ?_, rfl⟩
      simp [requests]
  | turnAway handler hl => exact hold (h.logged n j e hj)
  | subscribe => exact hold (h.logged n j e hj)
  | crash => exact hold (h.logged n j e hj)
  | receive => exact hold (h.logged n j e hj)
  | disconnect => exact hold (h.logged n j e hj)
  | expire ids hl =>
    rcases getElem?_concat hj with hj | ⟨_, heq⟩
    · exact hold (h.logged n j e hj)
    · cases heq
      exact hold rfl
  | expireDropped hl => exact hold (h.logged n j e hj)
  | changeConfig cc hl =>
    rcases getElem?_concat hj with hj | ⟨_, heq⟩
    · exact hold (h.logged n j e hj)
    · cases heq
  | replace m len happlied hkeep =>
    rcases getElem?_take_append hkeep hj with hj | ⟨hge, htaken⟩
    · exact hold (h.logged n j e hj)
    · -- the entries taken over keep their indices
      rw [List.getElem?_take] at htaken
      split at htaken
      · rw [List.getElem?_drop, Nat.add_sub_cancel' hge] at htaken
        exact hold (h.logged m j e htaken)
      · cases htaken
  | apply env hidle hlog hcommitted => exact hold (h.logged n j e hj)
  | pass env hidle hlog hcommitted => exact hold (h.logged n j e hj)
  | deliver => exact hold (h.logged n j e hj)
  | drop hsending hnobody => exact hold (h.logged n j e hj)
  | restore m env data hidle hbehind =>
    have hlen : (s.nodes m).applied - 1 + 1 ≤ s.committed.length := by
      have := h.applied_le m
      omega
    rcases getElem?_take_append hlen hj with hcovered | ⟨hge, hrest⟩
    · exact hold (h.committed j e hcovered)
    · rw [List.getElem?_drop, Nat.add_sub_cancel' hge] at hrest
      exact hold (h.logged n j e hrest)

/-- A node stays behind its log and the committed one. -/
theorem applied_nodeStep (h : Origins s) (hstep : NodeStep codec s n a node') :
    node'.applied ≤ s.committed.length ∧ node'.applied ≤ node'.log.length := by
  have hold := h.applied_le n
  have hlog := h.applied_le_log n
  cases hstep with
  | lead b => exact ⟨hold, hlog⟩
  | accept handler hl => exact ⟨hold, le_trans hlog (by simp)⟩
  | turnAway handler hl => exact ⟨hold, hlog⟩
  | subscribe => exact ⟨hold, hlog⟩
  | crash => exact ⟨hold, hlog⟩
  | receive => exact ⟨hold, hlog⟩
  | disconnect => exact ⟨hold, hlog⟩
  | expire ids hl => exact ⟨hold, le_trans hlog (by simp)⟩
  | expireDropped hl => exact ⟨hold, hlog⟩
  | changeConfig cc hl => exact ⟨hold, le_trans hlog (by simp)⟩
  | replace m len happlied hkeep =>
    refine ⟨hold, ?_⟩
    rw [List.length_append, List.length_take_of_le hkeep]
    exact le_trans happlied (Nat.le_add_right _ _)
  | apply env hidle hnext hcommitted =>
    exact ⟨(List.getElem?_eq_some_iff.mp hcommitted).1, (List.getElem?_eq_some_iff.mp hnext).1⟩
  | pass env hidle hnext hcommitted =>
    exact ⟨(List.getElem?_eq_some_iff.mp hcommitted).1, (List.getElem?_eq_some_iff.mp hnext).1⟩
  | deliver => exact ⟨hold, hlog⟩
  | drop hsending hnobody => exact ⟨hold, hlog⟩
  | restore m env data hidle hbehind =>
    have hle := h.applied_le m
    simp only [Node.restore, List.length_append, List.length_take]
    omega

/-! ## Runs -/

theorem origins_init (codec : SnapshotCodec β) : Origins (cluster codec).init where
  logged n j e hj := by simp [cluster, Node.new] at hj
  committed j e hj := by simp [cluster] at hj
  applied_le n := le_rfl
  applied_le_log n := le_rfl

theorem Origins.step (h : Origins s) {s' : Cluster} (hstep : (cluster codec).step s a = some s') :
    Origins s' := by
  rcases cluster_step_cases hstep with ⟨n, e, rfl, he, rfl⟩ | ⟨n, node', hnode, rfl⟩
  · refine ⟨h.logged, fun j e' hj => ?_, fun m => le_trans (h.applied_le m) (by simp),
      h.applied_le_log⟩
    rcases getElem?_concat hj with hold | ⟨rfl, heq⟩
    · exact h.committed j e' hold
    · exact h.logged n _ _ (heq ▸ he)
  · have hkept := requests_kept hnode
    have happlied := applied_nodeStep h hnode
    refine ⟨?_, fun j e hj => fromHandler_setNode hkept (h.committed j e hj), ?_, ?_⟩
    · exact s.setNode_forall (P := fun _ node => ∀ j e, node.log[j]? = some (.command e) →
        FromHandler _ j e)
        (fun m j e hj => fromHandler_setNode hkept (h.logged m j e hj))
        fun j e hj => logged_nodeStep h hnode hj
    · exact s.setNode_forall (P := fun _ node => node.applied ≤ s.committed.length) h.applied_le
        happlied.1
    · exact s.setNode_forall (P := fun _ node => node.applied ≤ node.log.length) h.applied_le_log
        happlied.2

theorem origins_of_reachable {G : Cluster → ClusterStep → Prop}
    (h : (cluster codec).ReachableBy G s) : Origins s :=
  h.invariant (origins_init codec) fun _ _ _ _ hinv _ hstep => hinv.step hstep

end OriginLemmas

end Zodiac
