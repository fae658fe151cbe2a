import Zodiac.Membership

/-!
# The list of peer ids

`peerIDs` of `KVService` is described as parallel to the peers of Raft: the members of
the cluster other than the node. `handleCommittedConfigChange` appends the id of an
added node without looking for it, and removes every copy of a removed one.

* `Listed`: what the committed changes make of one id.
* `peerIDs_tracks_changes`: the list has the ids that it should have and never the
  node's own; it has no id twice exactly if no change adds a node that is there already.
* `peerIDs_twice`: a node that joins again after a restart is listed twice.
* `peerIDs_of_reachable`: the list of every node in the system of joins and leaves.
-/

namespace Zodiac

/-! ## Definitions -/

/-- `handleCommittedConfigChange` for one change after the other. -/
def Membership.applyChanges (m : Membership) (changes : List ConfigChangeEntry) : Membership :=
  changes.foldl Membership.handleCommittedConfigChange m

/-- The last change of `j` was an `AddNode`, or there was none and `j` was there from
the start. -/
def Listed (initial : List Int) (changes : List ConfigChangeEntry) (j : Int) : Prop :=
  lastChange changes j = some .addNode ∨ lastChange changes j = none ∧ j ∈ initial

instance (initial : List Int) (changes : List ConfigChangeEntry) (j : Int) :
    Decidable (Listed initial changes j) :=
  inferInstanceAs (Decidable (_ ∨ _ ∧ _))

/-- Every `AddNode` of another node comes when that node is not a member. -/
def NoRedundantAdd (m : Membership) (changes : List ConfigChangeEntry) : Prop :=
  ∀ (i : Nat) (j : Int), changes[i]? = some { type := .addNode, nodeId := j } → j ≠ m.id →
    ¬ Listed m.peerIDs (changes.take i) j

namespace PeerListLemmas

/-! ## One change -/

theorem lastChange_concat (changes : List ConfigChangeEntry) (cc : ConfigChangeEntry) (j : Int) :
    lastChange (changes ++ [cc]) j =
      if cc.nodeId = j then some cc.type else lastChange changes j := by
  rw [lastChange, List.reverse_concat, List.find?_cons]
  by_cases hj : cc.nodeId = j
  · simp [hj]
  · simp [hj, lastChange]

theorem peerIDs_addNode {m : Membership} {cc : ConfigChangeEntry} (hadd : cc.type = .addNode) :
    (m.handleCommittedConfigChange cc).peerIDs =
      if cc.nodeId ≠ m.id then m.peerIDs ++ [cc.nodeId] else m.peerIDs := by
  rw [Membership.handleCommittedConfigChange, hadd]
  dsimp only
  by_cases hself : cc.nodeId = m.id
  · split <;> simp [hself]
  · split <;> simp [hself]

theorem peerIDs_removeNode {m : Membership} {cc : ConfigChangeEntry}
    (hremove : cc.type = .removeNode) :
    (m.handleCommittedConfigChange cc).peerIDs =
      m.peerIDs.filter fun id => decide (id ≠ cc.nodeId) := by
  rw [Membership.handleCommittedConfigChange, hremove]

/-- Which ids a change leaves in the list. -/
theorem mem_peerIDs_change (m : Membership) (cc : ConfigChangeEntry) {j : Int} (hj : j ≠ m.id) :
    j ∈ (m.handleCommittedConfigChange cc).peerIDs ↔
      if cc.nodeId = j then cc.type = .addNode else j ∈ m.peerIDs := by
  cases htype : cc.type with
  | addNode =>
    rw [peerIDs_addNode htype]
    by_cases hnode : cc.nodeId = j
    · rw [if_pos hnode, hnode, if_pos hj]
      simp
    · rw [if_neg hnode]
      split
      · simp [Ne.symm hnode]
      · rfl
  | removeNode =>
    rw [peerIDs_removeNode htype]
    by_cases hnode : cc.nodeId = j
    · simp [hnode]
    · simp [hnode, Ne.symm hnode]

theorem self_notMem_change {m : Membership} (hself : m.id ∉ m.peerIDs) (cc : ConfigChangeEntry) :
    m.id ∉ (m.handleCommittedConfigChange cc).peerIDs := by
  cases htype : cc.type with
  | addNode =>
    rw [peerIDs_addNode htype]
    split
    · next hother => simp [hself, Ne.symm hother]
    · exact hself
  | removeNode =>
    rw [peerIDs_removeNode htype]
    exact fun hmem => hself (List.mem_of_mem_filter hmem)

/-- A change keeps the list free of duplicates, unless it adds a node that is there. -/
theorem nodup_change {m : Membership} {cc : ConfigChangeEntry} (hnodup : m.peerIDs.Nodup)
    (hnew : cc.type = .addNode → cc.nodeId ≠ m.id → cc.nodeId ∉ m.peerIDs) :
    (m.handleCommittedConfigChange cc).peerIDs.Nodup := by
  cases htype : cc.type with
  | addNode =>
    rw [peerIDs_addNode htype]
    split
    · next hother =>
      rw [← List.concat_eq_append, List.nodup_concat]
      exact ⟨hnew htype hother, hnodup⟩
    · exact hnodup
  | removeNode =>
    rw [peerIDs_removeNode htype]
    exact hnodup.filter _

/-! ## All changes -/

theorem applyChanges_concat (m : Membership) (changes : List ConfigChangeEntry)
    (cc : ConfigChangeEntry) :
    m.applyChanges (changes ++ [cc]) = (m.applyChanges changes).handleCommittedConfigChange cc :=
  List.foldl_concat _ m cc changes

theorem applyChanges_id (m : Membership) (changes : List ConfigChangeEntry) :
    (m.applyChanges changes).id = m.id := by
  induction changes using List.reverseRecOn with
  | nil => rfl
  | append_singleton changes cc ih =>
    rw [applyChanges_concat, Membership.handleCommittedConfigChange_id, ih]

theorem self_notMem {m : Membership} (hself : m.id ∉ m.peerIDs)
    (changes : List ConfigChangeEntry) : m.id ∉ (m.applyChanges changes).peerIDs := by
  induction changes using List.reverseRecOn with
  | nil => exact hself
  | append_singleton changes cc ih =>
    rw [applyChanges_concat]
    rw [← applyChanges_id m changes] at ih ⊢
    exact self_notMem_change ih cc

theorem mem_peerIDs (m : Membership) (changes : List ConfigChangeEntry) {j : Int}
    (hj : j ≠ m.id) :
    j ∈ (m.applyChanges changes).peerIDs ↔ Listed m.peerIDs changes j := by
  induction changes using List.reverseRecOn with
  | nil => simp [Membership.applyChanges, Listed, lastChange]
  | append_singleton changes cc ih =>
    rw [applyChanges_concat, mem_peerIDs_change _ cc (by rwa [applyChanges_id]), ih, Listed, Listed,
      lastChange_concat]
    by_cases hnode : cc.nodeId = j
    · simp [hnode]
    · simp [hnode]

/-- The changes up to and including change `i`. -/
theorem applyChanges_take_succ (m : Membership) {changes : List ConfigChangeEntry} {i : Nat}
    {cc : ConfigChangeEntry} (hi : changes[i]? = some cc) :
    m.applyChanges (changes.take (i + 1)) =
      (m.applyChanges (changes.take i)).handleCommittedConfigChange cc := by
  rw [List.take_add_one, hi, Option.toList_some, applyChanges_concat]

/-- No duplicates, if no node is added twice. -/
theorem nodup_of_noRedundantAdd {m : Membership} (hnodup : m.peerIDs.Nodup)
    {changes : List ConfigChangeEntry} (hadd : NoRedundantAdd m changes) (n : Nat) :
    (m.applyChanges (changes.take n)).peerIDs.Nodup := by
  induction n with
  | zero => exact hnodup
  | succ n ih =>
    cases hn : changes[n]? with
    | none => rwa [List.take_add_one, hn, Option.toList_none, List.append_nil]
    | some cc =>
      rw [applyChanges_take_succ m hn]
      refine nodup_change ih fun htype hother hmem => ?_
      rw [applyChanges_id] at hother
      obtain ⟨type, j⟩ := cc
      subst htype
      exact hadd n j hn hother ((mem_peerIDs m _ hother).mp hmem)

/-- A node that is added while it is there is listed twice. -/
theorem noRedundantAdd_of_nodup {m : Membership} {changes : List ConfigChangeEntry}
    (hnodup : ∀ n, (m.applyChanges (changes.take n)).peerIDs.Nodup) : NoRedundantAdd m changes := by
  intro i j hi hother hlisted
  have hpresent := (mem_peerIDs m _ hother).mpr hlisted
  have hafter := hnodup (i + 1)
  rw [applyChanges_take_succ m hi, peerIDs_addNode rfl, applyChanges_id, if_pos hother,
    ← List.concat_eq_append, List.nodup_concat] at hafter
  exact hafter.1 hpresent

/-! ## The nodes of the system -/

theorem peerIDs_change_congr {m m' : Membership} (hid : m'.id = m.id)
    (hpeers : m'.peerIDs = m.peerIDs) (cc : ConfigChangeEntry) :
    (m'.handleCommittedConfigChange cc).peerIDs = (m.handleCommittedConfigChange cc).peerIDs := by
  cases htype : cc.type with
  | addNode => rw [peerIDs_addNode htype, peerIDs_addNode htype, hid, hpeers]
  | removeNode => rw [peerIDs_removeNode htype, peerIDs_removeNode htype, hpeers]

/-- The list of a node is what its applied changes make of the initial one. -/
structure ListInv (peerIds : Int → List Int) (s : Members) : Prop where
  self : ∀ n, (s.nodes n).state.id = n
  applied_le : ∀ n, (s.nodes n).applied ≤ s.committed.length
  listed : ∀ n, (s.nodes n).state.peerIDs =
    ((Membership.new n (peerIds n)).applyChanges (s.committed.take (s.nodes n).applied)).peerIDs

variable {peerIds : Int → List Int} {s s' : Members}

/-- Steps in which no node applies a change. -/
theorem ListInv.frame (h : ListInv peerIds s) {rest : List ConfigChangeEntry}
    (hcommitted : s'.committed = s.committed ++ rest)
    (hnodes : ∀ n, (s'.nodes n).state.id = (s.nodes n).state.id ∧
      (s'.nodes n).state.peerIDs = (s.nodes n).state.peerIDs ∧
      (s'.nodes n).applied = (s.nodes n).applied) : ListInv peerIds s' where
  self n := (hnodes n).1.trans (h.self n)
  applied_le n := by
    rw [(hnodes n).2.2, hcommitted, List.length_append]
    exact le_trans (h.applied_le n) (Nat.le_add_right _ _)
  listed n := by
    rw [(hnodes n).2.1, (hnodes n).2.2, hcommitted, List.take_append_of_le_length (h.applied_le n)]
    exact h.listed n

/-- Steps that change the addresses on one node. -/
theorem ListInv.update (h : ListInv peerIds s) (n : Int) {f : Membership → Membership}
    (hid : ∀ m, (f m).id = m.id) (hpeers : ∀ m, (f m).peerIDs = m.peerIDs) :
    ListInv peerIds (s.update n f) := by
  refine h.frame (List.append_nil _).symm ?_
  exact s.setNode_forall (P := fun n node => node.state.id = (s.nodes n).state.id ∧
    node.state.peerIDs = (s.nodes n).state.peerIDs ∧ node.applied = (s.nodes n).applied)
    ⟨hid _, hpeers _, rfl⟩ fun _ _ => ⟨rfl, rfl, rfl⟩

theorem ListInv.apply (h : ListInv peerIds s) {n : Int} {cc : ConfigChangeEntry}
    (hcc : s.committed[(s.nodes n).applied]? = some cc) : ListInv peerIds (s.apply n cc) where
  self := s.setNode_forall (P := fun n node => node.state.id = n)
    ((Membership.handleCommittedConfigChange_id _ cc).trans (h.self n)) fun m _ => h.self m
  applied_le := s.setNode_forall (P := fun _ node => node.applied ≤ s.committed.length)
    (List.getElem?_eq_some_iff.mp hcc).1 fun m _ => h.applied_le m
  listed := by
    refine s.setNode_forall (P := fun n node => node.state.peerIDs =
      ((Membership.new n (peerIds n)).applyChanges (s.committed.take node.applied)).peerIDs)
      ?_ fun m _ => h.listed m
    rw [applyChanges_take_succ _ hcc]
    refine peerIDs_change_congr ?_ (h.listed n) cc
    rw [applyChanges_id]
    exact h.self n

theorem ListInv.step {a : MemberStep} (h : ListInv peerIds s)
    (hstep : (members peerIds).step s a = some s') : ListInv peerIds s' := by
  cases a with
  | join n x pi =>
    cases hstep
    have hpend := h.update n (f := (·.storePending x pi)) (fun _ => rfl) fun _ => rfl
    exact hpend.frame (List.append_nil _).symm fun _ => ⟨rfl, rfl, rfl⟩
  | addPeer k ok =>
    obtain ⟨⟨n, x⟩, _, rfl⟩ := Option.map_eq_some_iff.mp hstep
    cases ok with
    | true => exact h.frame (List.append_nil _).symm fun _ => ⟨rfl, rfl, rfl⟩
    | false =>
      have hpend := h.update n (f := (·.deletePending x)) (fun _ => rfl) fun _ => rfl
      exact hpend.frame (List.append_nil _).symm fun _ => ⟨rfl, rfl, rfl⟩
  | leave x =>
    cases hstep
    exact h.frame (List.append_nil _).symm fun _ => ⟨rfl, rfl, rfl⟩
  | commit k =>
    obtain ⟨cc, _, rfl⟩ := Option.map_eq_some_iff.mp hstep
    exact h.frame rfl fun _ => ⟨rfl, rfl, rfl⟩
  | apply n =>
    obtain ⟨cc, hcc, rfl⟩ := Option.map_eq_some_iff.mp hstep
    exact h.apply hcc
  | setLocal n addr =>
    cases hstep
    exact h.update n (fun _ => rfl) fun _ => rfl

end PeerListLemmas

open PeerListLemmas

/-! ## Main results -/

/-- In the system of joins and leaves, the list of every node is what the changes that
it has applied make of its initial list. -/
theorem peerIDs_of_reachable (peerIds : Int → List Int) {s : Members}
    (h : (members peerIds).Reachable s) (n : Int) : (s.nodes n).state.peerIDs =
      ((Membership.new n (peerIds n)).applyChanges
        (s.committed.take (s.nodes n).applied)).peerIDs := by
  have hinv : ListInv peerIds s :=
    h.invariant ⟨fun _ => rfl, fun _ => le_rfl, fun _ => rfl⟩
      fun _ _ _ _ hinv _ hstep => hinv.step hstep
  exact hinv.listed n

/-- Whatever changes are committed, the list never has the id of the node itself, and
another id is in it exactly if the changes made it a member. It is free of duplicates
all along exactly if no change adds a node that is a member already. -/
theorem peerIDs_tracks_changes (m : Membership) (hnodup : m.peerIDs.Nodup)
    (hself : m.id ∉ m.peerIDs) (changes : List ConfigChangeEntry) :
    m.id ∉ (m.applyChanges changes).peerIDs ∧
    (∀ j, j ≠ m.id →
      (j ∈ (m.applyChanges changes).peerIDs ↔ Listed m.peerIDs changes j)) ∧
    ((∀ n, (m.applyChanges (changes.take n)).peerIDs.Nodup) ↔ NoRedundantAdd m changes) :=
  ⟨self_notMem hself changes, fun _ hj => mem_peerIDs m changes hj, noRedundantAdd_of_nodup,
    nodup_of_noRedundantAdd hnodup⟩

/-- Node 1, started with node 2 as its peer. -/
def firstNode : Membership := .new 1 [2]

/-- Node 2 leaves and comes back. -/
def rejoin : List ConfigChangeEntry := [⟨.removeNode, 2⟩, ⟨.addNode, 2⟩]

/-- The list of node 1 is right all along. -/
theorem peerIDs_tracks_rejoin :
    firstNode.peerIDs.Nodup ∧ firstNode.id ∉ firstNode.peerIDs ∧ NoRedundantAdd firstNode rejoin ∧
    (firstNode.applyChanges rejoin).peerIDs = [2] ∧
    ∀ n, (firstNode.applyChanges (rejoin.take n)).peerIDs.Nodup := by
  have hnew : NoRedundantAdd firstNode rejoin := by
    rintro (_ | _ | i) j hi hother
    · cases hi
    · cases hi
      decide
    · cases hi
  have htracks := peerIDs_tracks_changes firstNode (by decide) (by decide) rejoin
  exact ⟨by decide, by decide, hnew, by decide, htracks.2.2.mpr hnew⟩

/-- Node 2 joins again without having left, and is listed twice. -/
theorem peerIDs_twice :
    firstNode.peerIDs.Nodup ∧ firstNode.id ∉ firstNode.peerIDs ∧
    (firstNode.applyChanges [⟨.addNode, 2⟩]).peerIDs = [2, 2] ∧
    ¬ (firstNode.applyChanges [⟨.addNode, 2⟩]).peerIDs.Nodup :=
  ⟨by decide, by decide, by decide, by decide⟩

end Zodiac
