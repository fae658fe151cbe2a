import Mathlib.Logic.Function.Basic
import Zodiac.Lib.GoMap
import Zodiac.Lib.Machine

/-!
# Membership changes

The peer address book of `kvservice.go`. A join request puts the addresses of the
new node into `pendingJoinAddrs` of the node that serves it and proposes a config
change; the log carries the type of the change and the id of the node only. Every
node applies the change when it is committed, and takes the addresses out of its
own `pendingJoinAddrs`.

Of Raft this is assumed: a proposed change may be committed or lost, and every node
applies the committed changes in order.

* `AddressesAgree`: nodes that have applied the same changes have the same
  addresses of the nodes added.
* `addresses_agree`: in every run in which all nodes find the same pending address.
* `address_unknown`: the nodes that did not serve the join have no address.
-/

namespace Zodiac

/-! ## The address book of a node -/

/-- `peerInfo`. -/
structure PeerInfo where
  raftAddr : String := ""
  httpAddr : String := ""
deriving DecidableEq, Repr

/-- `raft.ConfigChangeEntry.Type`. -/
inductive ConfigChangeType
  | addNode
  | removeNode
deriving DecidableEq, Repr

/-- `raft.ConfigChangeEntry`. -/
structure ConfigChangeEntry where
  type : ConfigChangeType
  nodeId : Int
deriving DecidableEq, Repr

/-- The membership fields of `KVService`. -/
structure Membership where
  id : Int
  peers : GoMap Int PeerInfo
  peerIDs : List Int
  pendingJoinAddrs : GoMap Int PeerInfo
deriving DecidableEq

namespace Membership

/-- The fields as `New` sets them, before `loadPeers`. -/
def new (id : Int) (peerIds : List Int) : Membership :=
  { id := id, peers := ∅, peerIDs := peerIds, pendingJoinAddrs := ∅ }

/-- The first critical section of `handleJoin`. -/
def storePending (m : Membership) (id : Int) (pi : PeerInfo) : Membership :=
  { m with pendingJoinAddrs := m.pendingJoinAddrs.insert id pi }

/-- The second critical section of `handleJoin`, after `AddPeer` has failed. -/
def deletePending (m : Membership) (id : Int) : Membership :=
  { m with pendingJoinAddrs := m.pendingJoinAddrs.erase id }

/-- `handleCommittedConfigChange`, without the `savePeers` that it starts. -/
def handleCommittedConfigChange (m : Membership) (cc : ConfigChangeEntry) : Membership :=
  match cc.type with
  | .addNode =>
    let m := match m.pendingJoinAddrs.lookup cc.nodeId with
      | some pi =>
        { m with
          peers := m.peers.insert cc.nodeId pi
          pendingJoinAddrs := m.pendingJoinAddrs.erase cc.nodeId }
      | none => m
    if cc.nodeId ≠ m.id then { m with peerIDs := m.peerIDs ++ [cc.nodeId] } else m
  | .removeNode =>
    { m with
      peers := m.peers.erase cc.nodeId
      peerIDs := m.peerIDs.filter fun id => decide (id ≠ cc.nodeId) }

/-- `SetLocalHTTPAddr`, without the `savePeers` that it calls. -/
def setLocalHTTPAddr (m : Membership) (addr : String) : Membership :=
  { m with peers := m.peers.insert m.id { httpAddr := addr } }

@[simp]
theorem handleCommittedConfigChange_id (m : Membership) (cc : ConfigChangeEntry) :
    (m.handleCommittedConfigChange cc).id = m.id := by
  unfold handleCommittedConfigChange
  cases cc.type with
  | removeNode => rfl
  | addNode =>
    dsimp only
    split
    · split <;> rfl
    · split <;> rfl

/-- A config change touches the address of its own node only: an added node gets the
pending address, if there is one. -/
theorem handleCommittedConfigChange_peers (m : Membership) (cc : ConfigChangeEntry) (x : Int) :
    (m.handleCommittedConfigChange cc).peers.lookup x =
      if x = cc.nodeId then
        match cc.type with
        | .addNode => (m.pendingJoinAddrs.lookup x).or (m.peers.lookup x)
        | .removeNode => none
      else m.peers.lookup x := by
  unfold handleCommittedConfigChange
  cases cc.type with
  | removeNode => exact Finmap.lookup_erase_ite _ _ _
  | addNode =>
    dsimp only
    cases hpending : m.pendingJoinAddrs.lookup cc.nodeId with
    | none =>
      by_cases hx : x = cc.nodeId
      · subst hx
        simp only [hpending, Option.none_or, if_true]
        split <;> rfl
      · simp only [hx, if_false]
        split <;> rfl
    | some pi =>
      by_cases hx : x = cc.nodeId
      · subst hx
        simp only [hpending, Option.some_or, if_true]
        split <;> exact Finmap.lookup_insert _
      · simp only [hx, if_false]
        split <;> exact Finmap.lookup_insert_of_ne _ hx

end Membership

/-! ## Joins and leaves across the nodes -/

/-- A node and how many committed config changes it has applied. -/
structure Member where
  state : Membership
  applied : Nat

/-- All nodes, the join requests between their first critical section and `AddPeer`,
the changes proposed and the changes committed. The ghost `found` records what the
first node that applied an `AddNode`, other than the added one, found pending for
it. -/
structure Members where
  nodes : Int → Member
  joining : List (Int × Int)
  proposed : List ConfigChangeEntry
  committed : List ConfigChangeEntry
  found : GoMap Nat (Option PeerInfo)

/-- Atomic steps. -/
inductive MemberStep
  /-- `handleJoin` on node `n`, up to its first critical section. -/
  | join (n x : Int) (pi : PeerInfo)
  /-- `AddPeer` of the `k`-th join in flight, and what `handleJoin` does with its
  result. -/
  | addPeer (k : Nat) (ok : Bool)
  /-- `handleLeave` on any leader, whose `RemovePeer` succeeds. -/
  | leave (x : Int)
  /-- The `k`-th proposed change is committed. -/
  | commit (k : Nat)
  /-- Node `n` applies its next committed change. -/
  | apply (n : Int)
  /-- `SetLocalHTTPAddr` on node `n`. -/
  | setLocal (n : Int) (addr : String)

namespace Members

/-- The step of one node. -/
def setNode (s : Members) (n : Int) (node : Member) : Members :=
  { s with nodes := Function.update s.nodes n node }

/-- A property of every node after the step of one. -/
theorem setNode_forall (s : Members) {n : Int} {node : Member} {P : Int → Member → Prop}
    (hn : P n node) (hother : ∀ m, m ≠ n → P m (s.nodes m)) (m : Int) :
    P m ((s.setNode n node).nodes m) :=
  (Function.forall_update_iff s.nodes P).mpr ⟨hn, hother⟩ m

/-- Change the membership fields of node `n`. -/
def update (s : Members) (n : Int) (f : Membership → Membership) : Members :=
  s.setNode n { s.nodes n with state := f (s.nodes n).state }

/-- Node `n` applies `cc`, and the ghost records what it found. -/
def apply (s : Members) (n : Int) (cc : ConfigChangeEntry) : Members :=
  let node := s.nodes n
  { s.setNode n
      { state := node.state.handleCommittedConfigChange cc, applied := node.applied + 1 } with
    found :=
      if cc.type = .addNode ∧ cc.nodeId ≠ n ∧ node.applied ∉ s.found then
        s.found.insert node.applied (node.state.pendingJoinAddrs.lookup cc.nodeId)
      else s.found }

end Members

/-- The nodes as a machine, with the Raft peers that each was started with. -/
def members (peerIds : Int → List Int) : Machine Members MemberStep where
  init :=
    { nodes := fun n => { state := .new n (peerIds n), applied := 0 }, joining := [],
      proposed := [], committed := [], found := ∅ }
  step s
    | .join n x pi =>
      some { s.update n (·.storePending x pi) with joining := s.joining ++ [(n, x)] }
    | .addPeer k ok =>
      (s.joining[k]?).map fun j =>
        if ok then
          { s with
            joining := s.joining.eraseIdx k
            proposed := s.proposed ++ [{ type := .addNode, nodeId := j.2 }] }
        else { s.update j.1 (·.deletePending j.2) with joining := s.joining.eraseIdx k }
    | .leave x => some { s with proposed := s.proposed ++ [{ type := .removeNode, nodeId := x }] }
    | .commit k =>
      (s.proposed[k]?).map fun cc =>
        { s with proposed := s.proposed.eraseIdx k, committed := s.committed ++ [cc] }
    | .apply n => (s.committed[(s.nodes n).applied]?).map (s.apply n)
    | .setLocal n addr => some (s.update n (·.setLocalHTTPAddr addr))

/-- The type of the last change of node `x`. -/
def lastChange (committed : List ConfigChangeEntry) (x : Int) : Option ConfigChangeType :=
  (committed.reverse.find? fun cc => cc.nodeId = x).map ConfigChangeEntry.type

/-- Two nodes that have applied the same changes have the same address of every
other node whose last change was an `AddNode`. -/
def AddressesAgree (s : Members) : Prop :=
  ∀ n m x, (s.nodes n).applied = (s.nodes m).applied → x ≠ n → x ≠ m →
    lastChange (s.committed.take (s.nodes n).applied) x = some .addNode →
    (s.nodes n).state.peers.lookup x = (s.nodes m).state.peers.lookup x

/-- The condition on steps: a node that applies an `AddNode` of another node finds in
its `pendingJoinAddrs` what the first node that applied the entry found in its own. -/
def SamePending (s : Members) : MemberStep → Prop
  | .apply n => ∀ cc ∈ s.committed[(s.nodes n).applied]?, cc.type = .addNode → cc.nodeId ≠ n →
      ∀ pi ∈ s.found.lookup (s.nodes n).applied,
        (s.nodes n).state.pendingJoinAddrs.lookup cc.nodeId = pi
  | .join _ _ _ | .addPeer _ _ | .leave _ | .commit _ | .setLocal _ _ => True

instance (s : Members) : (a : MemberStep) → Decidable (SamePending s a)
  | .apply n => inferInstanceAs (Decidable (∀ cc ∈ s.committed[(s.nodes n).applied]?,
      cc.type = .addNode → cc.nodeId ≠ n → ∀ pi ∈ s.found.lookup (s.nodes n).applied,
        (s.nodes n).state.pendingJoinAddrs.lookup cc.nodeId = pi))
  | .join _ _ _ | .addPeer _ _ | .leave _ | .commit _ | .setLocal _ _ =>
    inferInstanceAs (Decidable True)

namespace MembershipLemmas

/-! ## The common address book -/

/-- The address of `x` after the first changes, where every `AddNode` brings what was
found for it. -/
def book (committed : List ConfigChangeEntry) (found : GoMap Nat (Option PeerInfo)) (x : Int) :
    Nat → Option PeerInfo
  | 0 => none
  | i + 1 =>
    match committed[i]? with
    | none => book committed found x i
    | some cc =>
      if x = cc.nodeId then
        match cc.type with
        | .addNode => ((found.lookup i).getD none).or (book committed found x i)
        | .removeNode => none
      else book committed found x i

theorem book_congr {committed committed' : List ConfigChangeEntry}
    {found found' : GoMap Nat (Option PeerInfo)} {x : Int} {i : Nat}
    (hcommitted : ∀ j < i, committed'[j]? = committed[j]?)
    (hfound : ∀ j < i, ∀ cc, committed[j]? = some cc → cc.type = .addNode → cc.nodeId = x →
      found'.lookup j = found.lookup j) :
    book committed' found' x i = book committed found x i := by
  induction i with
  | zero => rfl
  | succ i ih =>
    have hrest := ih (fun j hj => hcommitted j (Nat.lt_succ_of_lt hj))
      fun j hj => hfound j (Nat.lt_succ_of_lt hj)
    rw [book, book, hcommitted i (Nat.lt_succ_self i), hrest]
    cases hcc : committed[i]? with
    | none => rfl
    | some cc =>
      dsimp only
      split
      · next hx =>
        cases htype : cc.type with
        | removeNode => rfl
        | addNode =>
          dsimp only
          rw [hfound i (Nat.lt_succ_self i) cc hcc htype hx.symm]
      · rfl

/-- Every node has the common book, as far as it has applied the changes, up to its
own address. -/
structure BookInv (s : Members) : Prop where
  self : ∀ n, (s.nodes n).state.id = n
  applied_le : ∀ n, (s.nodes n).applied ≤ s.committed.length
  recorded : ∀ n i cc, i < (s.nodes n).applied → s.committed[i]? = some cc → cc.type = .addNode →
    cc.nodeId ≠ n → i ∈ s.found
  agrees : ∀ n x, x ≠ n →
    (s.nodes n).state.peers.lookup x = book s.committed s.found x (s.nodes n).applied

theorem bookInv_init (peerIds : Int → List Int) : BookInv (members peerIds).init where
  self _ := rfl
  applied_le _ := le_rfl
  recorded _ i _ hi := absurd hi (Nat.not_lt_zero i)
  agrees _ _ _ := rfl

/-- Steps that apply and commit nothing, and touch at most the own address of a
node. -/
theorem BookInv.frame {s s' : Members} (h : BookInv s) (hcommitted : s'.committed = s.committed)
    (hfound : s'.found = s.found) (happlied : ∀ n, (s'.nodes n).applied = (s.nodes n).applied)
    (hid : ∀ n, (s'.nodes n).state.id = (s.nodes n).state.id)
    (hpeers : ∀ n x, x ≠ n →
      (s'.nodes n).state.peers.lookup x = (s.nodes n).state.peers.lookup x) : BookInv s' where
  self n := (hid n).trans (h.self n)
  applied_le n := by
    rw [happlied, hcommitted]
    exact h.applied_le n
  recorded n i cc hi hcc := by
    rw [happlied] at hi
    rw [hcommitted] at hcc
    rw [hfound]
    exact h.recorded n i cc hi hcc
  agrees n x hx := by
    rw [hpeers n x hx, hcommitted, hfound, happlied]
    exact h.agrees n x hx

theorem BookInv.update {s : Members} (h : BookInv s) (n : Int) {f : Membership → Membership}
    (hid : (f (s.nodes n).state).id = (s.nodes n).state.id)
    (hf : ∀ x, x ≠ n →
      (f (s.nodes n).state).peers.lookup x = (s.nodes n).state.peers.lookup x) :
    BookInv (s.update n f) := by
  refine h.frame rfl rfl ?_ ?_ ?_
  · exact s.setNode_forall (P := fun m node => node.applied = (s.nodes m).applied) rfl
      fun _ _ => rfl
  · exact s.setNode_forall (P := fun m node => node.state.id = (s.nodes m).state.id) hid
      fun _ _ => rfl
  · exact s.setNode_forall (P := fun m node => ∀ x, x ≠ m →
      node.state.peers.lookup x = (s.nodes m).state.peers.lookup x) hf fun _ _ _ _ => rfl

theorem BookInv.commit {s : Members} (h : BookInv s) (cc : ConfigChangeEntry)
    (proposed : List ConfigChangeEntry) :
    BookInv { s with proposed := proposed, committed := s.committed ++ [cc] } := by
  have hold : ∀ n i, i < (s.nodes n).applied → (s.committed ++ [cc])[i]? = s.committed[i]? :=
    fun n i hi => List.getElem?_append_left (lt_of_lt_of_le hi (h.applied_le n))
  refine ⟨h.self, fun n => ?_, fun n i cc' hi hcc => ?_, fun n x hx => ?_⟩
  · rw [List.length_append]
    exact le_trans (h.applied_le n) (Nat.le_add_right _ _)
  · rw [hold n i hi] at hcc
    exact h.recorded n i cc' hi hcc
  · rw [book_congr (hold n) fun _ _ _ _ _ _ => rfl]
    exact h.agrees n x hx

/-- What is recorded stays, and an `AddNode` of another node is recorded when it is
applied. -/
theorem lookup_found_apply (s : Members) (n : Int) (cc : ConfigChangeEntry) {i : Nat}
    (hi : i ∈ s.found ∨ i ≠ (s.nodes n).applied) :
    (s.apply n cc).found.lookup i = s.found.lookup i := by
  simp only [Members.apply]
  split
  · next hnew =>
    have hne : i ≠ (s.nodes n).applied :=
      hi.elim (fun hmem heq => hnew.2.2 (heq ▸ hmem)) id
    exact Finmap.lookup_insert_of_ne _ hne
  · rfl

/-- Under the condition, what a node finds for an added node is what is recorded. -/
theorem lookup_found_self {s : Members} {n : Int} {cc : ConfigChangeEntry}
    (hcc : s.committed[(s.nodes n).applied]? = some cc) (hadd : cc.type = .addNode)
    (hother : cc.nodeId ≠ n) (hguard : SamePending s (.apply n)) :
    (s.apply n cc).found.lookup (s.nodes n).applied =
      some ((s.nodes n).state.pendingJoinAddrs.lookup cc.nodeId) := by
  by_cases hmem : (s.nodes n).applied ∈ s.found
  · obtain ⟨pi, hpi⟩ := Finmap.mem_iff.mp hmem
    rw [lookup_found_apply s n cc (.inl hmem), hpi, hguard cc hcc hadd hother pi hpi]
  · simp only [Members.apply, if_pos (And.intro hadd (And.intro hother hmem))]
    exact Finmap.lookup_insert _

/-- The book of the node that applies a change. -/
theorem agrees_apply_self {s : Members} (h : BookInv s) {n x : Int} (hx : x ≠ n)
    {cc : ConfigChangeEntry} (hcc : s.committed[(s.nodes n).applied]? = some cc)
    (hguard : SamePending s (.apply n)) :
    ((s.nodes n).state.handleCommittedConfigChange cc).peers.lookup x =
      book s.committed (s.apply n cc).found x ((s.nodes n).applied + 1) := by
  have hbefore : book s.committed (s.apply n cc).found x (s.nodes n).applied =
      (s.nodes n).state.peers.lookup x := by
    rw [h.agrees n x hx]
    exact book_congr (fun _ _ => rfl) fun j hj _ _ _ _ =>
      lookup_found_apply s n cc (.inr (Nat.ne_of_lt hj))
  rw [Membership.handleCommittedConfigChange_peers, book, hcc, hbefore]
  dsimp only
  split
  · next hnode =>
    subst hnode
    cases hadd : cc.type with
    | removeNode => rfl
    | addNode =>
      dsimp only
      rw [lookup_found_self hcc hadd hx hguard]
      rfl
  · rfl

theorem BookInv.apply {s : Members} (h : BookInv s) {n : Int} {cc : ConfigChangeEntry}
    (hcc : s.committed[(s.nodes n).applied]? = some cc) (hguard : SamePending s (.apply n)) :
    BookInv (s.apply n cc) := by
  have hkept : ∀ {i}, i ∈ s.found → i ∈ (s.apply n cc).found := by
    intro i hi
    rw [← Finmap.lookup_isSome, lookup_found_apply s n cc (.inl hi), Finmap.lookup_isSome]
    exact hi
  refine ⟨?_, ?_, ?_, ?_⟩
  · refine s.setNode_forall (P := fun m node => node.state.id = m) ?_ fun m _ => h.self m
    exact (Membership.handleCommittedConfigChange_id _ cc).trans (h.self n)
  · exact s.setNode_forall (P := fun _ node => node.applied ≤ s.committed.length)
      (List.getElem?_eq_some_iff.mp hcc).1 fun m _ => h.applied_le m
  · refine s.setNode_forall (P := fun m node => ∀ i cc', i < node.applied →
      s.committed[i]? = some cc' → cc'.type = .addNode → cc'.nodeId ≠ m →
      i ∈ (s.apply n cc).found) ?_ ?_
    · intro i cc' hi hcc' hadd hother
      rcases Nat.lt_succ_iff_lt_or_eq.mp hi with hlt | rfl
      · exact hkept (h.recorded n i cc' hlt hcc' hadd hother)
      · obtain rfl := Option.some.inj (hcc.symm.trans hcc')
        exact Finmap.mem_of_lookup_eq_some (lookup_found_self hcc hadd hother hguard)
    · intro m _ i cc' hi hcc' hadd hother
      exact hkept (h.recorded m i cc' hi hcc' hadd hother)
  · refine s.setNode_forall (P := fun m node => ∀ x, x ≠ m →
      node.state.peers.lookup x = book s.committed (s.apply n cc).found x node.applied) ?_ ?_
    · exact fun x hx => agrees_apply_self h hx hcc hguard
    · intro m _ x hx
      rw [h.agrees m x hx]
      -- what this node has applied was recorded before
      refine (book_congr (fun _ _ => rfl) fun j hj cc' hcc' hadd hnode => ?_).symm
      exact lookup_found_apply s n cc (.inl (h.recorded m j cc' hj hcc' hadd (hnode ▸ hx)))

theorem BookInv.step {peerIds : Int → List Int} {s s' : Members} {a : MemberStep} (h : BookInv s)
    (hguard : SamePending s a) (hstep : (members peerIds).step s a = some s') : BookInv s' := by
  cases a with
  | join n x pi =>
    cases hstep
    have hpend := h.update n (f := (·.storePending x pi)) rfl fun _ _ => rfl
    exact hpend.frame rfl rfl (fun _ => rfl) (fun _ => rfl) fun _ _ _ => rfl
  | addPeer k ok =>
    obtain ⟨⟨n, x⟩, _, rfl⟩ := Option.map_eq_some_iff.mp hstep
    cases ok with
    | true => exact h.frame rfl rfl (fun _ => rfl) (fun _ => rfl) fun _ _ _ => rfl
    | false =>
      have hpend := h.update n (f := (·.deletePending x)) rfl fun _ _ => rfl
      exact hpend.frame rfl rfl (fun _ => rfl) (fun _ => rfl) fun _ _ _ => rfl
  | leave x =>
    cases hstep
    exact h.frame rfl rfl (fun _ => rfl) (fun _ => rfl) fun _ _ _ => rfl
  | commit k =>
    obtain ⟨cc, _, rfl⟩ := Option.map_eq_some_iff.mp hstep
    exact h.commit cc _
  | apply n =>
    obtain ⟨cc, hcc, rfl⟩ := Option.map_eq_some_iff.mp hstep
    exact h.apply hcc hguard
  | setLocal n addr =>
    cases hstep
    refine h.update n rfl fun x hx => Finmap.lookup_insert_of_ne _ ?_
    rw [h.self n]
    exact hx

end MembershipLemmas

open MembershipLemmas

/-! ## Main results -/

/-- In every run in which all nodes find the same pending address for an added node,
nodes that have applied the same changes agree on the addresses. -/
theorem addresses_agree (peerIds : Int → List Int) {s : Members}
    (h : (members peerIds).ReachableBy SamePending s) : AddressesAgree s := by
  have hinv : BookInv s :=
    h.invariant (bookInv_init peerIds) fun _ _ _ _ hinv hguard hstep => hinv.step hguard hstep
  intro n m x happlied hn hm _
  rw [hinv.agrees n x hn, hinv.agrees m x hm, happlied]

/-- The addresses of node 3. -/
def thirdNode : PeerInfo := { raftAddr := "c:1", httpAddr := "c:2" }

/-- Two nodes that both served a join request of node 3 know its address. -/
theorem addresses_agree_both_asked :
    ∃ s, (members fun _ => []).ReachableBy SamePending s ∧ AddressesAgree s ∧
      (s.nodes 1).applied = 1 ∧ (s.nodes 2).applied = 1 ∧
      (s.nodes 1).state.peers.lookup 3 = some thirdNode := by
  obtain ⟨s, hreach, hs⟩ := Machine.exists_reachableBy (M := members fun _ => [])
    (G := SamePending)
    [.join 1 3 thirdNode, .join 2 3 thirdNode, .addPeer 0 true, .commit 0, .apply 1, .apply 2]
    (fun s => decide ((s.nodes 1).applied = 1 ∧ (s.nodes 2).applied = 1 ∧
      (s.nodes 1).state.peers.lookup 3 = some thirdNode))
    (x := true) (by decide)
  exact ⟨s, hreach, addresses_agree _ hreach, of_decide_eq_true hs⟩

/-- Node 1 serves the join of node 3, and nodes 1 and 2 apply the change. Only node 1
gets the address. -/
theorem address_unknown :
    ∃ s, (members fun _ => []).Reachable s ∧ ¬ AddressesAgree s ∧
      s.committed = [{ type := .addNode, nodeId := 3 }] ∧
      (s.nodes 1).applied = 1 ∧ (s.nodes 2).applied = 1 ∧
      (s.nodes 1).state.peers.lookup 3 = some thirdNode ∧
      (s.nodes 2).state.peers.lookup 3 = none := by
  obtain ⟨s, hreach, hs⟩ := Machine.exists_reachableBy (M := members fun _ => [])
    (G := fun _ _ => True)
    [.join 1 3 thirdNode, .addPeer 0 true, .commit 0, .apply 1, .apply 2]
    (fun s => decide (s.committed = [ConfigChangeEntry.mk .addNode 3] ∧
      (s.nodes 1).applied = 1 ∧ (s.nodes 2).applied = 1 ∧
      (s.nodes 1).state.peers.lookup 3 = some thirdNode ∧
      (s.nodes 2).state.peers.lookup 3 = none))
    (x := true) (by decide)
  obtain ⟨hcommitted, hone, htwo, hknown, hunknown⟩ := of_decide_eq_true hs
  refine ⟨s, hreach, fun hagree => ?_, hcommitted, hone, htwo, hknown, hunknown⟩
  have hsame := hagree 1 2 3 (hone.trans htwo.symm) (by decide) (by decide)
    (by rw [hone, hcommitted]; decide)
  rw [hknown, hunknown] at hsame
  cases hsame

end Zodiac
