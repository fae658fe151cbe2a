import Zodiac.Locking
import Zodiac.PeerList

/-!
# Failed joins

`handleJoin` puts the addresses of the new node into `pendingJoinAddrs`, asks Raft for
the change, and takes them out again when Raft refuses. A refusal should leave things
as they were: another join of the same node may have been accepted and wait for its
`AddNode` to commit.

* `runAlone_handleJoin`: the critical sections of one call.
* `joins`: any number of calls on one node, in any interleaving with each other and
  with the committed changes.
* `failed_joins_traceless`: a refused call restores what was there exactly if nothing
  was pending for the node. In every run in which refused calls meet no other join or
  `AddNode` of their node, the address book is that of the accepted calls alone.
* `failed_join_forgets`: a refused repetition of an accepted join loses the addresses.
-/

namespace Zodiac

/-! ## One call -/

/-- The addresses in a join request. -/
def JoinRequest.addrs (jr : JoinRequest) : PeerInfo :=
  { raftAddr := jr.raftAddr, httpAddr := jr.httpAddr }

/-- A call of `handleJoin`: the request, and what the node, the network and Raft say to
it. -/
structure JoinCall where
  req : Except String JoinRequest
  isLeader : Bool
  resolved : Bool
  connected : Except String Unit
  added : Bool

namespace JoinCall

/-- The request of a call that gets as far as `AddPeer`. -/
def proposes (c : JoinCall) : Option JoinRequest :=
  match c.req with
  | .error _ => none
  | .ok jr =>
    if c.isLeader = false ∨ c.resolved = false then none
    else match c.connected with
      | .error _ => none
      | .ok () => some jr

/-- What the caller is told. -/
def reply (c : JoinCall) : Reply :=
  match c.req with
  | .error text => .httpError 400 text
  | .ok _ =>
    if c.isLeader = false then .changed .notLeader
    else if c.resolved = false then .httpError 400 "invalid raft address"
    else match c.connected with
      | .error text => .httpError 500 text
      | .ok () => if c.added = false then .changed .failedCommit else .changed .ok

/-- What a call that nothing disturbs does to the address book. -/
def alone (c : JoinCall) (m : Membership) : Membership :=
  match c.proposes with
  | none => m
  | some jr =>
    let m := m.storePending jr.id jr.addrs
    if c.added then m else m.deletePending jr.id

end JoinCall

/-! ## Calls that overlap -/

/-- A call between its first critical section and the answer of `AddPeer`. -/
structure PendingJoin where
  req : JoinRequest
  added : Bool

/-- A node with the calls in flight. -/
structure JoinNode where
  state : Membership
  inFlight : List PendingJoin

/-- Atomic steps. -/
inductive JoinStep
  /-- A call up to its first critical section, or to its end if it does not get there. -/
  | join (c : JoinCall)
  /-- `AddPeer` of the `k`-th call in flight answers, and the call ends. -/
  | addPeer (k : Nat)
  | commit (cc : ConfigChangeEntry)

/-- The calls on a node as a machine. -/
def joins (id : Int) (peerIds : List Int) : Machine JoinNode JoinStep where
  init := { state := .new id peerIds, inFlight := [] }
  step s
    | .join c =>
      match c.proposes with
      | none => some s
      | some jr => some
        { state := s.state.storePending jr.id jr.addrs
          inFlight := s.inFlight ++ [{ req := jr, added := c.added }] }
    | .addPeer k => s.inFlight[k]?.map fun j =>
        { state := if j.added then s.state else s.state.deletePending j.req.id
          inFlight := s.inFlight.eraseIdx k }
    | .commit cc => some { s with state := s.state.handleCommittedConfigChange cc }

/-- A call that Raft refuses is in flight for node `x`. -/
def Refusing (s : JoinNode) (x : Int) : Prop := ∃ j ∈ s.inFlight, j.added = false ∧ j.req.id = x

instance (s : JoinNode) (x : Int) : Decidable (Refusing s x) :=
  inferInstanceAs (Decidable (∃ j ∈ s.inFlight, j.added = false ∧ j.req.id = x))

/-- The condition on steps: while a call that Raft refuses is in flight, no other call
proposes the same node and no `AddNode` of it commits, and nothing is pending for the
node when the call starts. -/
def Untangled (s : JoinNode) : JoinStep → Prop
  | .join c => ∀ jr ∈ c.proposes, ¬ Refusing s jr.id ∧
      (c.added = false → jr.id ∉ s.state.pendingJoinAddrs)
  | .addPeer _ => True
  | .commit cc => cc.type = .addNode → ¬ Refusing s cc.nodeId

instance (s : JoinNode) : (a : JoinStep) → Decidable (Untangled s a)
  | .join c => inferInstanceAs (Decidable (∀ jr ∈ c.proposes, ¬ Refusing s jr.id ∧
      (c.added = false → jr.id ∉ s.state.pendingJoinAddrs)))
  | .addPeer _ => inferInstanceAs (Decidable True)
  | .commit cc => inferInstanceAs (Decidable (cc.type = .addNode → ¬ Refusing s cc.nodeId))

/-- What a step does to the address book of a node that never sees the refused calls. -/
def acceptedStep (m : Membership) : JoinStep → Membership
  | .join c =>
    match c.proposes with
    | none => m
    | some jr => if c.added then m.storePending jr.id jr.addrs else m
  | .addPeer _ => m
  | .commit cc => m.handleCommittedConfigChange cc

/-- The address book without the refused calls. -/
def acceptedOnly (m : Membership) (as : List JoinStep) : Membership := as.foldl acceptedStep m

/-- The step neither proposes node `x` successfully nor adds it. -/
def JoinStep.LeavesAlone (x : Int) : JoinStep → Prop
  | .join c => c.added = true → ∀ jr ∈ c.proposes, jr.id ≠ x
  | .addPeer _ => True
  | .commit cc => cc.type = .addNode → cc.nodeId ≠ x

/-- The address book is `m`, but for what is pending for nodes that a refused call in
flight is about; `m` has nothing pending for them. -/
structure TracksAccepted (s : JoinNode) (m : Membership) : Prop where
  id : s.state.id = m.id
  peers : s.state.peers = m.peers
  peerIDs : s.state.peerIDs = m.peerIDs
  settled : ∀ x, ¬ Refusing s x →
    s.state.pendingJoinAddrs.lookup x = m.pendingJoinAddrs.lookup x
  refusing : ∀ x, Refusing s x → m.pendingJoinAddrs.lookup x = none

namespace JoinLemmas

open LockProg KVServer PeerListLemmas

/-! ## One call -/

/-- `handleJoin`, when nothing else runs. -/
theorem runAlone_handleJoin {β γ : Type} (c : JoinCall) (s : KVServer β γ) :
    (KVServer.handleJoin c.req c.isLeader c.resolved c.connected c.added).runAlone s =
      some (some c.reply, s.onMembership c.alone) := by
  obtain ⟨req, isLeader, resolved, connected, added⟩ := c
  cases req with
  | error text => rfl
  | ok jr =>
    cases isLeader with
    | false => rfl
    | true =>
      cases resolved with
      | false => rfl
      | true =>
        cases connected with
        | error text => rfl
        | ok u => cases added <;> rfl

theorem reply_of_proposes {c : JoinCall} {jr : JoinRequest} (hp : c.proposes = some jr)
    (hfails : c.reply ≠ .changed .ok) : c.added = false := by
  obtain ⟨req, isLeader, resolved, connected, added⟩ := c
  cases added with
  | false => rfl
  | true =>
    refine absurd ?_ hfails
    cases req with
    | error text => cases hp
    | ok jr =>
      cases isLeader <;> cases resolved <;> cases connected <;> first | rfl | cases hp

/-- Storing and deleting restores a map exactly if the key was not there. -/
theorem erase_insert_eq_iff (m : GoMap Int PeerInfo) (x : Int) (pi : PeerInfo) :
    (m.insert x pi).erase x = m ↔ x ∉ m := by
  constructor
  · intro heq hmem
    rw [← heq] at hmem
    exact (Finmap.mem_erase.mp hmem).1 rfl
  · intro hx
    refine Finmap.ext_lookup fun y => ?_
    rw [Finmap.lookup_erase_ite, Finmap.lookup_insert_ite]
    split
    · next heq => rw [heq, Finmap.lookup_eq_none.mpr hx]
    · rfl

theorem alone_pending_iff (c : JoinCall) (hfails : c.reply ≠ .changed .ok) (m : Membership) :
    (c.alone m).pendingJoinAddrs = m.pendingJoinAddrs ↔
      ∀ jr ∈ c.proposes, jr.id ∉ m.pendingJoinAddrs := by
  unfold JoinCall.alone
  cases hp : c.proposes with
  | none => simp
  | some jr =>
    simp only [reply_of_proposes hp hfails, Option.mem_some_iff, forall_eq']
    exact erase_insert_eq_iff _ _ _

/-! ## Committed changes -/

theorem pending_change (m : Membership) (cc : ConfigChangeEntry) (x : Int) :
    (m.handleCommittedConfigChange cc).pendingJoinAddrs.lookup x =
      if cc.type = .addNode ∧ x = cc.nodeId then none else m.pendingJoinAddrs.lookup x := by
  unfold Membership.handleCommittedConfigChange
  cases cc.type with
  | removeNode => simp
  | addNode =>
    cases hpending : m.pendingJoinAddrs.lookup cc.nodeId with
    | none =>
      by_cases hx : x = cc.nodeId
      · subst hx
        simp only [true_and, if_true]
        split <;> exact hpending
      · simp only [hx, and_false, if_false]
        split <;> rfl
    | some pi =>
      simp only [true_and]
      rw [← Finmap.lookup_erase_ite]
      split <;> rfl

/-- A change does the same to two address books that agree on what it looks at. -/
theorem peers_change_congr {m m' : Membership} (hpeers : m.peers = m'.peers)
    {cc : ConfigChangeEntry} (hpending : cc.type = .addNode →
      m.pendingJoinAddrs.lookup cc.nodeId = m'.pendingJoinAddrs.lookup cc.nodeId) :
    (m.handleCommittedConfigChange cc).peers = (m'.handleCommittedConfigChange cc).peers := by
  refine Finmap.ext_lookup fun x => ?_
  rw [Membership.handleCommittedConfigChange_peers, Membership.handleCommittedConfigChange_peers,
    hpeers]
  split
  · next hx =>
    subst hx
    cases htype : cc.type with
    | addNode => simp only [hpending htype]
    | removeNode => rfl
  · rfl

/-! ## Steps -/

variable {s s' : JoinNode} {m : Membership} {id : Int} {peerIds : List Int}

theorem refusing_concat (state : Membership) (j : PendingJoin) (x : Int) :
    Refusing { state := state, inFlight := s.inFlight ++ [j] } x ↔
      Refusing s x ∨ j.added = false ∧ j.req.id = x := by
  simp only [Refusing, List.mem_append, List.mem_singleton, or_and_right, exists_or,
    exists_eq_left]

/-- When a call ends, the other refused calls are still in flight. -/
theorem refusing_eraseIdx {k : Nat} {j : PendingJoin} (hk : s.inFlight[k]? = some j)
    (state : Membership) {x : Int} (hx : Refusing s x) :
    Refusing { state := state, inFlight := s.inFlight.eraseIdx k } x ∨
      j.added = false ∧ j.req.id = x := by
  obtain ⟨j', hmem, hrefused⟩ := hx
  obtain ⟨i, hi⟩ := List.mem_iff_getElem?.mp hmem
  by_cases hik : i = k
  · subst hik
    obtain rfl := Option.some.inj (hk.symm.trans hi)
    exact .inr hrefused
  · exact .inl ⟨j', List.mem_eraseIdx_iff_getElem?.mpr ⟨i, hik, hi⟩, hrefused⟩

theorem refusing_of_eraseIdx {k : Nat} {state : Membership} {x : Int}
    (hx : Refusing { state := state, inFlight := s.inFlight.eraseIdx k } x) : Refusing s x := by
  obtain ⟨j, hmem, hrefused⟩ := hx
  exact ⟨j, List.mem_of_mem_eraseIdx hmem, hrefused⟩

theorem tracks_joinAccepted (h : TracksAccepted s m) {jr : JoinRequest}
    (hfree : ¬ Refusing s jr.id) :
    TracksAccepted
      { state := s.state.storePending jr.id jr.addrs
        inFlight := s.inFlight ++ [{ req := jr, added := true }] }
      (m.storePending jr.id jr.addrs) where
  id := h.id
  peers := h.peers
  peerIDs := h.peerIDs
  settled x hx := by
    rw [refusing_concat, not_or] at hx
    simp only [Membership.storePending, Finmap.lookup_insert_ite, h.settled x hx.1]
  refusing x hx := by
    rcases (refusing_concat _ _ x).mp hx with hold | ⟨hfalse, _⟩
    · have hne : x ≠ jr.id := fun heq => hfree (heq ▸ hold)
      simp only [Membership.storePending, Finmap.lookup_insert_of_ne _ hne]
      exact h.refusing x hold
    · cases hfalse

theorem tracks_joinRefused (h : TracksAccepted s m) {jr : JoinRequest} (hfree : ¬ Refusing s jr.id)
    (hnone : jr.id ∉ s.state.pendingJoinAddrs) :
    TracksAccepted
      { state := s.state.storePending jr.id jr.addrs
        inFlight := s.inFlight ++ [{ req := jr, added := false }] } m where
  id := h.id
  peers := h.peers
  peerIDs := h.peerIDs
  settled x hx := by
    rw [refusing_concat, not_or] at hx
    have hne : x ≠ jr.id := fun heq => hx.2 ⟨rfl, heq.symm⟩
    simp only [Membership.storePending, Finmap.lookup_insert_of_ne _ hne]
    exact h.settled x hx.1
  refusing x hx := by
    rcases (refusing_concat _ _ x).mp hx with hold | ⟨_, rfl⟩
    · exact h.refusing x hold
    · rw [← h.settled _ hfree]
      exact Finmap.lookup_eq_none.mpr hnone

theorem tracks_addPeer (h : TracksAccepted s m) {k : Nat} {j : PendingJoin}
    (hk : s.inFlight[k]? = some j) :
    TracksAccepted
      { state := if j.added then s.state else s.state.deletePending j.req.id
        inFlight := s.inFlight.eraseIdx k } m := by
  cases hadded : j.added with
  | true =>
    refine ⟨h.id, h.peers, h.peerIDs, fun x hx => ?_, fun x hx => ?_⟩
    · refine h.settled x fun hold => ?_
      rcases refusing_eraseIdx hk _ hold with hstill | ⟨hfalse, _⟩
      · exact hx hstill
      · rw [hadded] at hfalse
        cases hfalse
    · exact h.refusing x (refusing_of_eraseIdx hx)
  | false =>
    have hrefusing : Refusing s j.req.id := ⟨j, List.mem_of_getElem? hk, hadded, rfl⟩
    refine ⟨h.id, h.peers, h.peerIDs, fun x hx => ?_, fun x hx => ?_⟩
    · simp only [Bool.false_eq_true, if_false, Membership.deletePending, Finmap.lookup_erase_ite]
      split
      · next heq => rw [heq, h.refusing _ hrefusing]
      · next hne =>
        refine h.settled x fun hold => ?_
        rcases refusing_eraseIdx hk _ hold with hstill | ⟨_, heq⟩
        · exact hx hstill
        · exact hne heq.symm
    · exact h.refusing x (refusing_of_eraseIdx hx)

theorem tracks_commit (h : TracksAccepted s m) {cc : ConfigChangeEntry}
    (hfree : cc.type = .addNode → ¬ Refusing s cc.nodeId) :
    TracksAccepted { s with state := s.state.handleCommittedConfigChange cc }
      (m.handleCommittedConfigChange cc) where
  id := by
    rw [Membership.handleCommittedConfigChange_id, Membership.handleCommittedConfigChange_id, h.id]
  peers := peers_change_congr h.peers fun htype => h.settled _ (hfree htype)
  peerIDs := peerIDs_change_congr h.id h.peerIDs cc
  settled x hx := by
    rw [pending_change, pending_change, h.settled x hx]
  refusing x hx := by
    rw [pending_change, h.refusing x hx, ite_self]

theorem tracks_step (h : TracksAccepted s m) {a : JoinStep} (hguard : Untangled s a)
    (hstep : (joins id peerIds).step s a = some s') : TracksAccepted s' (acceptedStep m a) := by
  cases a with
  | join c =>
    simp only [joins, acceptedStep] at hstep ⊢
    cases hp : c.proposes with
    | none =>
      rw [hp] at hstep
      cases hstep
      exact h
    | some jr =>
      rw [hp] at hstep
      obtain ⟨hfree, hnone⟩ := hguard jr hp
      cases hadded : c.added with
      | true =>
        rw [hadded] at hstep
        cases hstep
        exact tracks_joinAccepted h hfree
      | false =>
        rw [hadded] at hstep
        cases hstep
        exact tracks_joinRefused h hfree (hnone hadded)
  | addPeer k =>
    obtain ⟨j, hk, rfl⟩ := Option.map_eq_some_iff.mp hstep
    exact tracks_addPeer h hk
  | commit cc =>
    cases hstep
    exact tracks_commit h hguard

/-! ## Runs -/

theorem tracks_run {as : List JoinStep} : ∀ {s s' : JoinNode} {m : Membership}, TracksAccepted s m →
    (joins id peerIds).execWhen Untangled s as = some s' →
      TracksAccepted s' (acceptedOnly m as) := by
  induction as with
  | nil =>
    intro s s' m h hexec
    cases hexec
    exact h
  | cons a as ih =>
    intro s s' m h hexec
    rw [Machine.execWhen] at hexec
    split at hexec
    · next hguard =>
      obtain ⟨s1, hstep, hrest⟩ := Option.bind_eq_some_iff.mp hexec
      exact ih (tracks_step h hguard hstep) hrest
    · cases hexec

theorem acceptedStep_pending {a : JoinStep} {x : Int} (ha : a.LeavesAlone x) (m : Membership) :
    (acceptedStep m a).pendingJoinAddrs.lookup x = m.pendingJoinAddrs.lookup x := by
  cases a with
  | join c =>
    simp only [acceptedStep]
    cases hp : c.proposes with
    | none => rfl
    | some jr =>
      cases hadded : c.added with
      | false => rfl
      | true => exact Finmap.lookup_insert_of_ne _ (ha hadded jr hp).symm
  | addPeer k => rfl
  | commit cc =>
    rw [acceptedStep, pending_change, if_neg]
    rintro ⟨htype, rfl⟩
    exact ha htype rfl

/-- An accepted join stays pending until its node is added or proposed again. -/
theorem acceptedOnly_pending {c : JoinCall} {jr : JoinRequest} (hp : c.proposes = some jr)
    (hadded : c.added = true) (m : Membership) (before : List JoinStep) {after : List JoinStep}
    (hafter : ∀ a ∈ after, a.LeavesAlone jr.id) :
    (acceptedOnly m (before ++ .join c :: after)).pendingJoinAddrs.lookup jr.id =
      some jr.addrs := by
  induction after using List.reverseRecOn with
  | nil =>
    rw [acceptedOnly, List.foldl_concat, acceptedStep, hp]
    simp only [hadded, if_true]
    exact Finmap.lookup_insert _
  | append_singleton after a ih =>
    have hsplit : before ++ .join c :: (after ++ [a]) = before ++ .join c :: after ++ [a] := by simp
    rw [hsplit, acceptedOnly, List.foldl_concat, acceptedStep_pending (hafter a (by simp))]
    exact ih fun b hb => hafter b (List.mem_append_left _ hb)

end JoinLemmas

open JoinLemmas

/-! ## Main results -/

/-- A failed call that nothing disturbs leaves `pendingJoinAddrs` as it was exactly if
it ended before `AddPeer` or nothing was pending for its node. In every run in which
refused calls meet nothing else about their node, they leave no trace: the address book
is that of the accepted calls alone, and an accepted join is still recorded when its
`AddNode` commits. -/
theorem failed_joins_traceless (id : Int) (peerIds : List Int) {as : List JoinStep} {s : JoinNode}
    (h : (joins id peerIds).execWhen Untangled (joins id peerIds).init as = some s) :
    (∀ (m : Membership) (c : JoinCall), c.reply ≠ .changed .ok →
      ((c.alone m).pendingJoinAddrs = m.pendingJoinAddrs ↔
        ∀ jr ∈ c.proposes, jr.id ∉ m.pendingJoinAddrs)) ∧
    TracksAccepted s (acceptedOnly (.new id peerIds) as) ∧
    ∀ before c jr after, as = before ++ .join c :: after → c.proposes = some jr → c.added = true →
      (∀ a ∈ after, a.LeavesAlone jr.id) → ¬ Refusing s jr.id →
      s.state.pendingJoinAddrs.lookup jr.id = some jr.addrs ∧
      (s.state.handleCommittedConfigChange
        { type := .addNode, nodeId := jr.id }).peers.lookup jr.id = some jr.addrs := by
  have hinit : TracksAccepted (joins id peerIds).init (.new id peerIds) :=
    ⟨rfl, rfl, rfl, fun _ _ => rfl, fun _ _ => rfl⟩
  have htracks := tracks_run hinit h
  refine ⟨fun m c hfails => alone_pending_iff c hfails m, htracks, ?_⟩
  intro before c jr after has hp hadded hafter hfree
  have hpending : s.state.pendingJoinAddrs.lookup jr.id = some jr.addrs := by
    rw [htracks.settled _ hfree, has]
    exact acceptedOnly_pending hp hadded _ before hafter
  refine ⟨hpending, ?_⟩
  rw [Membership.handleCommittedConfigChange_peers, if_pos rfl, hpending, Option.some_or]

/-- A join of node 3, and whether Raft takes it. -/
def joinThird (added : Bool) : JoinCall where
  req := .ok { id := 3, raftAddr := "c:1", httpAddr := "c:2" }
  isLeader := true
  resolved := true
  connected := .ok ()
  added := added

/-- Raft refuses a join of node 3 and takes the next one. -/
def retriedJoin : List JoinStep :=
  [.join (joinThird false), .addPeer 0, .join (joinThird true), .addPeer 0]

/-- The second join is recorded when its `AddNode` commits. -/
theorem failed_joins_traceless_retry :
    ∃ s, (joins 1 []).execWhen Untangled (joins 1 []).init retriedJoin = some s ∧
      s.state.pendingJoinAddrs.lookup 3 = some thirdNode ∧
      (s.state.handleCommittedConfigChange
        { type := .addNode, nodeId := 3 }).peers.lookup 3 = some thirdNode := by
  have hrun : ((joins 1 []).execWhen Untangled (joins 1 []).init retriedJoin).map
      (fun s => decide (Refusing s 3)) = some false := by decide
  obtain ⟨s, hs, hended⟩ := Option.map_eq_some_iff.mp hrun
  have htraceless := failed_joins_traceless 1 [] hs
  refine ⟨s, hs, htraceless.2.2 [.join (joinThird false), .addPeer 0] (joinThird true) _
    [.addPeer 0] rfl rfl rfl (fun a ha => ?_) (of_decide_eq_false hended)⟩
  rw [List.mem_singleton.mp ha]
  trivial

/-- A join of node 3 is accepted. A second one is refused and takes the addresses of
the first with it, so that the `AddNode` finds none. -/
theorem failed_join_forgets :
    (joinThird true).reply = .changed .ok ∧ (joinThird false).reply = .changed .failedCommit ∧
    ∃ m, (joinThird true).alone (.new 1 []) = m ∧
      m.pendingJoinAddrs.lookup 3 = some thirdNode ∧
      ((joinThird false).alone m).pendingJoinAddrs ≠ m.pendingJoinAddrs ∧
      (((joinThird false).alone m).handleCommittedConfigChange
        { type := .addNode, nodeId := 3 }).peers.lookup 3 = none :=
  ⟨rfl, rfl, _, rfl, by decide, by decide, by decide⟩

end Zodiac
