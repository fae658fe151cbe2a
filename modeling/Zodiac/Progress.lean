import Zodiac.Lib.Fairness
import Zodiac.Origin

/-!
# Entries are applied

What happens to an entry in the end, in infinite runs that are fair: committing, applying and
serving subscriptions are not put off for ever. The node in question keeps its log
(`KeepsLog`): it is not cut, no snapshot is restored over it, and what is committed is what it
has. Everything else may happen in between, in any order.

* `Advance`: what a step can do to the apply loop of the node.
* `ranked_applied`: an entry in the log is applied in the end.
-/

namespace Zodiac

open Machine NodeStepLemmas

/-! ## Definitions -/

/-- Node `n` keeps its log, and the entries that are committed are the ones it has. -/
def KeepsLog (n : Nat) (s : Cluster) : ClusterStep → Prop
  | .replace m _ _ _ | .restore m _ _ => m ≠ n
  | .commit m => (s.nodes m).log[s.committed.length]? = (s.nodes n).log[s.committed.length]?
  | _ => True

instance (n : Nat) (s : Cluster) : (a : ClusterStep) → Decidable (KeepsLog n s a)
  | .replace m _ _ _ | .restore m _ _ => inferInstanceAs (Decidable (m ≠ n))
  | .commit m => inferInstanceAs (Decidable
      ((s.nodes m).log[s.committed.length]? = (s.nodes n).log[s.committed.length]?))
  | .lead _ _ | .submit _ _ | .subscribe _ _ | .receive _ _ | .disconnect _ _ | .expire _ _ _
  | .changeConfig _ _ | .apply _ _ | .send _ => inferInstanceAs (Decidable True)

/-- What node `n` has to do for the entries of its log. -/
inductive Work
  | commit
  | apply
  | send

/-- The steps that do it. -/
def Work.doneBy (n : Nat) : Work → ClusterStep → Prop
  | .commit, .commit m => m = n
  | .apply, .apply m _ => m = n
  | .send, .send m => m = n
  | _, _ => False

namespace ProgressLemmas

variable {β : Type} {codec : SnapshotCodec β} {s s' : Cluster} {n k i : Nat} {a : ClusterStep}
  {item : LogItem}

/-! ## The entry -/

/-- Node `n` has all that is committed. -/
structure UpToDate (n : Nat) (s : Cluster) : Prop where
  committed : s.committed <+: (s.nodes n).log
  applied : (s.nodes n).applied ≤ s.committed.length

/-- It also has the entry `item` at index `i`. -/
structure Holds (n i : Nat) (item : LogItem) (s : Cluster) : Prop extends UpToDate n s where
  entry : (s.nodes n).log[i]? = some item

theorem prefix_concat {l L : List LogItem} (h : l <+: L) (hitem : L[l.length]? = some item) :
    l ++ [item] <+: L := by
  obtain ⟨rest, rfl⟩ := h
  rw [List.getElem?_append_right (Nat.le_refl _), Nat.sub_self] at hitem
  cases rest with
  | nil => cases hitem
  | cons x rest =>
    cases hitem
    exact ⟨rest, by simp⟩

/-- The log of the node only grows. -/
theorem log_nodeStep {node' : Node} (hkept : KeepsLog n s a) (h : NodeStep codec s n a node') :
    (s.nodes n).log <+: node'.log := by
  cases h with
  | accept handler hl => exact List.prefix_append _ _
  | expire ids hl => exact List.prefix_append _ _
  | changeConfig cc hl => exact List.prefix_append _ _
  | replace m len happlied hkeep => exact absurd rfl hkept
  | restore m env data hidle hbehind => exact absurd rfl hkept
  | _ => exact List.prefix_refl _

theorem applied_nodeStep {node' : Node} (hkept : KeepsLog n s a) (h : NodeStep codec s n a node')
    (hle : (s.nodes n).applied ≤ s.committed.length) : node'.applied ≤ s.committed.length := by
  cases h with
  | apply env hidle hlog hcommitted => exact (List.getElem?_eq_some_iff.mp hcommitted).1
  | pass env hidle hlog hcommitted => exact (List.getElem?_eq_some_iff.mp hcommitted).1
  | restore m env data hidle hbehind => exact absurd rfl hkept
  | _ => exact hle

theorem log_step (hkept : KeepsLog n s a) (hstep : (cluster codec).step s a = some s') :
    (s.nodes n).log <+: (s'.nodes n).log := by
  rcases cluster_step_cases hstep with ⟨m, e', rfl, he', rfl⟩ | ⟨m, node', hnode, rfl⟩
  · exact List.prefix_refl _
  · by_cases hm : n = m
    · subst hm
      rw [Cluster.setNode_nodes_self]
      exact log_nodeStep hkept hnode
    · rw [Cluster.setNode_nodes_of_ne s node' hm]

theorem UpToDate.step (h : UpToDate n s) (hkept : KeepsLog n s a)
    (hstep : (cluster codec).step s a = some s') : UpToDate n s' := by
  have hlog := log_step hkept hstep
  rcases cluster_step_cases hstep with ⟨m, e', rfl, he', rfl⟩ | ⟨m, node', hnode, rfl⟩
  · refine ⟨prefix_concat h.committed ?_, Nat.le_trans h.applied (by simp)⟩
    exact hkept ▸ he'
  · refine ⟨h.committed.trans hlog, ?_⟩
    by_cases hm : n = m
    · subst hm
      have happlied := applied_nodeStep hkept hnode h.applied
      rw [Cluster.setNode_nodes_self]
      exact happlied
    · rw [Cluster.setNode_nodes_of_ne s node' hm]
      exact h.applied

theorem Holds.step (h : Holds n i item s) (hkept : KeepsLog n s a)
    (hstep : (cluster codec).step s a = some s') : Holds n i item s' := by
  refine ⟨h.toUpToDate.step hkept hstep, ?_⟩
  obtain ⟨rest, hrest⟩ := log_step hkept hstep
  rw [← hrest]
  exact History.getElem?_append_of_some h.entry

/-! ## The apply loop -/

/-- What a step does to the apply loop of node `n`: how much is committed and applied, and
whether a subscription is being served. -/
inductive Advance (codec : SnapshotCodec β) (n : Nat) (s : Cluster) (a : ClusterStep)
    (s' : Cluster) : Prop
  | commits (ha : ∃ m, a = .commit m) (hlen : s'.committed.length = s.committed.length + 1)
      (hnode : s'.nodes n = s.nodes n)
  | applies {env : Env} {e : Entry} (hidle : (s.nodes n).sending = none)
      (hlog : (s.nodes n).log[(s.nodes n).applied]? = some (.command e))
      (hnode : s'.nodes n = (s.nodes n).apply codec env e)
      (hcommitted : s'.committed = s.committed)
  | passes {cc : ConfigChangeEntry} (hidle : (s.nodes n).sending = none)
      (hlog : (s.nodes n).log[(s.nodes n).applied]? = some (.configChange cc))
      (hnode : s'.nodes n = (s.nodes n).passConfigChange)
      (hcommitted : s'.committed = s.committed)
  | serves (ha : a = .send n) (hbusy : (s.nodes n).sending ≠ none)
      (hidle : (s'.nodes n).sending = none)
      (happlied : (s'.nodes n).applied = (s.nodes n).applied)
      (hservice : (s'.nodes n).service = (s.nodes n).service)
      (hcommitted : s'.committed = s.committed)
  | rests (ha : ∀ w : Work, ¬ w.doneBy n a) (hsending : (s'.nodes n).sending = (s.nodes n).sending)
      (happlied : (s'.nodes n).applied = (s.nodes n).applied)
      (hservice : (s'.nodes n).service = (s.nodes n).service)
      (hcommitted : s'.committed = s.committed)

/-- Steps of other nodes are no work of node `n`. -/
theorem not_doneBy_other {m : Nat} {node' : Node} (hm : n ≠ m) (h : NodeStep codec s m a node')
    (w : Work) : ¬ w.doneBy n a := by
  cases h <;> cases w <;> first | exact id | exact fun heq => hm heq.symm

theorem advance_nodeStep {node' : Node} (hkept : KeepsLog n s a) (h : NodeStep codec s n a node') :
    Advance codec n s a (s.setNode n node') := by
  have hsending := congrArg Node.sending (s.setNode_nodes_self n node')
  have happlied := congrArg Node.applied (s.setNode_nodes_self n node')
  have hservice := congrArg Node.service (s.setNode_nodes_self n node')
  cases h with
  | apply env hidle hlog hcommitted =>
    exact .applies hidle hlog (s.setNode_nodes_self n _) rfl
  | pass env hidle hlog hcommitted =>
    exact .passes hidle hlog (s.setNode_nodes_self n _) rfl
  | deliver hbusy hrun hwaits =>
    exact .serves rfl (by rw [hbusy]; exact Option.some_ne_none _) hsending happlied hservice rfl
  | drop hbusy hnobody =>
    exact .serves rfl (by rw [hbusy]; exact Option.some_ne_none _) hsending happlied hservice rfl
  | restore m env data hidle hbehind => exact absurd rfl hkept
  | _ => exact .rests (by rintro (_ | _ | _) <;> exact id) hsending happlied hservice rfl

theorem advance_step (hkept : KeepsLog n s a) (hstep : (cluster codec).step s a = some s') :
    Advance codec n s a s' := by
  rcases cluster_step_cases hstep with ⟨m, e', rfl, he', rfl⟩ | ⟨m, node', hnode, rfl⟩
  · exact .commits ⟨m, rfl⟩ (by simp) rfl
  · by_cases hm : n = m
    · subst hm
      exact advance_nodeStep hkept hnode
    · have hother := s.setNode_nodes_of_ne node' hm
      exact .rests (not_doneBy_other hm hnode) (by rw [hother]) (by rw [hother]) (by rw [hother]) rfl

/-- What is left to do until index `i` is applied. -/
def backlog (n i : Nat) (s : Cluster) : Nat :=
  (i + 1 - s.committed.length) + 2 * (i + 1 - (s.nodes n).applied) +
    (if (s.nodes n).sending = none then 0 else 1)

/-- What to do next. -/
def nextWork (n : Nat) (s : Cluster) : Work :=
  if (s.nodes n).sending = none then
    if (s.nodes n).applied < s.committed.length then .apply else .commit
  else .send

/-- The node has something to do as long as the entry is not applied. -/
theorem nextWork_enabled (codec : SnapshotCodec β) {n i : Nat} {item : LogItem} {s : Cluster}
    (h : Holds n i item s) (hle : (s.nodes n).applied ≤ i) :
    ∃ a, (nextWork n s).doneBy n a ∧ (cluster codec).step s a ≠ none := by
  unfold nextWork
  split
  · next hidle =>
    split
    · next hlt =>
      -- the node has the next committed entry
      refine ⟨.apply n (Env.at 0), rfl, ?_⟩
      have hc : s.committed[(s.nodes n).applied]? = some s.committed[(s.nodes n).applied] :=
        List.getElem?_eq_getElem hlt
      have hl : (s.nodes n).log[(s.nodes n).applied]? = some s.committed[(s.nodes n).applied] := by
        obtain ⟨rest, hrest⟩ := h.committed
        rw [← hrest]
        exact History.getElem?_append_of_some hc
      simp [cluster, hidle, hl, hc]
    · next hge =>
      -- the next entry of the node is not committed yet
      refine ⟨.commit n, rfl, ?_⟩
      have hlt : s.committed.length < (s.nodes n).log.length := by
        have := (List.getElem?_eq_some_iff.mp h.entry).1
        omega
      have htake := (List.prefix_iff_eq_take.mp h.committed).symm
      simp [cluster, List.getElem?_eq_getElem hlt, htake]
  · next hbusy =>
    refine ⟨.send n, rfl, ?_⟩
    obtain ⟨⟨j, c⟩, hsending⟩ := Option.ne_none_iff_exists'.mp hbusy
    simp [cluster, Node.send, hsending]

/-- An entry in the log of a node that keeps it is committed and applied in the end. -/
theorem ranked_applied (codec : SnapshotCodec β) (n i : Nat) (item : LogItem) :
    (cluster codec).Ranked (KeepsLog n) (Work.doneBy n) (backlog n i) (nextWork n)
      (fun s => Holds n i item s ∧ (s.nodes n).applied ≤ i) (fun s => i < (s.nodes n).applied) where
  enabled h := nextWork_enabled codec h.1 h.2
  step := by
    rintro s a s' ⟨h, hle⟩ hkept hstep
    have h' := h.step hkept hstep
    have hbound := h.applied
    -- an entry is applied, or passes
    have hmoves (hidle : (s.nodes n).sending = none) (hcommitted : s'.committed = s.committed)
        (happlied : (s'.nodes n).applied = (s.nodes n).applied + 1) :
        i < (s'.nodes n).applied ∨ (Holds n i item s' ∧ (s'.nodes n).applied ≤ i) ∧
          backlog n i s' < backlog n i s := by
      by_cases hi : (s.nodes n).applied = i
      · exact .inl (by omega)
      · refine .inr ⟨⟨h', by omega⟩, ?_⟩
        simp only [backlog, happlied, hcommitted, hidle, if_true]
        split <;> omega
    cases advance_step hkept hstep with
    | commits ha hlen hnode =>
      refine .inr ⟨⟨h', hnode ▸ hle⟩, ?_⟩
      by_cases hi : s.committed.length ≤ i
      · refine .inl ?_
        simp only [backlog, hlen, hnode]
        omega
      · -- the entry itself is committed: only the apply loop matters
        have hlt : (s.nodes n).applied < s.committed.length := by omega
        refine .inr ⟨?_, ?_, ?_⟩
        · simp only [backlog, hlen, hnode]
          omega
        · simp only [nextWork, hlen, hnode, if_pos hlt, if_pos (Nat.lt_succ_of_lt hlt)]
        · obtain ⟨m, rfl⟩ := ha
          rw [nextWork, if_pos hlt]
          split <;> exact id
    | applies hidle hlog hnode hcommitted =>
      exact (hmoves hidle hcommitted (congrArg Node.applied hnode)).imp_right (And.imp_right .inl)
    | passes hidle hlog hnode hcommitted =>
      exact (hmoves hidle hcommitted (congrArg Node.applied hnode)).imp_right (And.imp_right .inl)
    | serves ha hbusy hidle happlied hservice hcommitted =>
      refine .inr ⟨⟨h', by omega⟩, .inl ?_⟩
      simp only [backlog, happlied, hcommitted, hidle, if_true, if_neg hbusy]
      omega
    | rests ha hsending happlied hservice hcommitted =>
      refine .inr ⟨⟨h', by omega⟩, .inr ⟨?_, ?_, ha _⟩⟩
      · simp only [backlog, happlied, hcommitted, hsending]
      · simp only [nextWork, happlied, hcommitted, hsending]

/-- A node that has applied its whole log has nothing to do. -/
theorem no_work (codec : SnapshotCodec β) (hcommitted : (s.nodes n).log.length ≤ s.committed.length)
    (happlied : (s.nodes n).log.length ≤ (s.nodes n).applied) (hidle : (s.nodes n).sending = none)
    (w : Work) (a : ClusterStep) (hw : w.doneBy n a) : (cluster codec).step s a = none := by
  cases w <;> cases a <;> cases hw
  · simp [cluster, List.getElem?_eq_none hcommitted]
  · simp [cluster, hidle, List.getElem?_eq_none happlied]
  · simp [cluster, Node.send, hidle]

end ProgressLemmas

end Zodiac
