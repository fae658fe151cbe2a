import Zodiac.Membership

/-!
# Saving the peer book

Every change of the peer book starts a `savePeers`, which copies the book under the
lock and writes the copy to storage after it has released the lock. The saves of
different changes run side by side.

* `bookOf_persisted`: a saved copy gives the book back.
* `peers_saved`: when all saves are done, the stored book is the current one, in
  every run in which no save writes over a later copy.
* `older_copy_stored`: otherwise the last change can be lost.
-/

namespace Zodiac

/-! ## Saving and loading -/

/-- `persistedPeer`. -/
structure PersistedPeer where
  id : Int
  raftAddr : String
  httpAddr : String
deriving DecidableEq, Repr

/-- What the service uses of `encoding/json`: a peer list is encoded, and decoding
gives it back. -/
structure PeerCodec (β : Type) where
  encode : List PersistedPeer → Option β
  decode : β → Option (List PersistedPeer)
  decode_encode : ∀ l, ∃ data, encode l = some data ∧ decode data = some l

/-- The codec that stores the list itself. -/
def PeerCodec.plain : PeerCodec (List PersistedPeer) where
  encode := some
  decode := some
  decode_encode l := ⟨l, rfl, rfl⟩

namespace Membership

/-- The critical section of `savePeers`: the book as a list, in the order of the loop
over it. -/
def persisted (m : Membership) (order : RangeOrder Int) : List PersistedPeer :=
  (order.keys m.peers.keys).map fun id =>
    let pi := (m.peers.read {} id).1
    { id := id, raftAddr := pi.raftAddr, httpAddr := pi.httpAddr }

/-- The loop of `loadPeers`, which leaves out the node's own record. -/
def loadPeers (m : Membership) (stored : List PersistedPeer) : Membership :=
  stored.foldl (fun m p =>
    if p.id ≠ m.id then
      { m with peers := m.peers.insert p.id { raftAddr := p.raftAddr, httpAddr := p.httpAddr } }
    else m) m

end Membership

/-- The address book that a stored list describes. -/
def bookOf (stored : List PersistedPeer) : GoMap Int PeerInfo :=
  stored.foldl (fun book p =>
    book.insert p.id { raftAddr := p.raftAddr, httpAddr := p.httpAddr }) ∅

/-! ## The saves of one node -/

/-- Where a `savePeers` is. A copy carries the ghost number of changes that had been
made when it was taken. -/
inductive Save
  | started
  | copied (stored : List PersistedPeer) (version : Nat)
  | finished
deriving DecidableEq

/-- The membership fields of a node, what storage has under `peerStoreKey`, and all
`savePeers` so far, one for each change of the book. The ghost `written` is the
version of the copy that was written last. -/
structure PeerBook (β : Type) where
  node : Membership
  stored : Option β
  saves : List Save
  written : Nat

/-- Atomic steps. -/
inductive BookStep
  | storePending (x : Int) (pi : PeerInfo)
  | deletePending (x : Int)
  /-- `handleCommittedConfigChange`, which starts a `savePeers`. -/
  | configChange (cc : ConfigChangeEntry)
  /-- `SetLocalHTTPAddr` up to its call of `savePeers`. -/
  | setLocal (addr : String)
  /-- The critical section of the `k`-th `savePeers`. -/
  | copy (k : Nat) (order : RangeOrder Int)
  /-- The rest of the `k`-th `savePeers`. -/
  | write (k : Nat)

section

variable {β : Type}

namespace PeerBook

/-- Change the book and start a save. -/
def change (s : PeerBook β) (node : Membership) : PeerBook β :=
  { s with node := node, saves := s.saves ++ [.started] }

/-- Write a copy to storage. A list that cannot be encoded is not written. -/
def write (codec : PeerCodec β) (s : PeerBook β) (k : Nat) (l : List PersistedPeer)
    (version : Nat) : PeerBook β :=
  match codec.encode l with
  | none => { s with saves := s.saves.set k .finished }
  | some data =>
    { s with stored := some data, written := version, saves := s.saves.set k .finished }

end PeerBook

/-- A node that starts with a book and a stored value, as a machine. -/
def peerBook (codec : PeerCodec β) (node : Membership) (stored : Option β) :
    Machine (PeerBook β) BookStep where
  init := { node := node, stored := stored, saves := [], written := 0 }
  step s
    | .storePending x pi => some { s with node := s.node.storePending x pi }
    | .deletePending x => some { s with node := s.node.deletePending x }
    | .configChange cc => some (s.change (s.node.handleCommittedConfigChange cc))
    | .setLocal addr => some (s.change (s.node.setLocalHTTPAddr addr))
    | .copy k order =>
      match s.saves[k]? with
      | some .started =>
        some { s with saves := s.saves.set k (.copied (s.node.persisted order) s.saves.length) }
      | _ => none
    | .write k =>
      match s.saves[k]? with
      | some (.copied l version) => some (s.write codec k l version)
      | _ => none

/-- Once something has changed and all saves are done, the stored value decodes to
the current book. -/
def PeersSaved (codec : PeerCodec β) (s : PeerBook β) : Prop :=
  s.saves ≠ [] → (∀ w ∈ s.saves, w = .finished) →
    ∃ data l, s.stored = some data ∧ codec.decode data = some l ∧ bookOf l = s.node.peers

/-- A copy that is older than the given version. -/
def Save.olderThan (v : Nat) : Save → Bool
  | .copied _ version => decide (version < v)
  | .started | .finished => false

/-- The condition on steps: a save does not write over a later copy. -/
def WritesInOrder (s : PeerBook β) : BookStep → Prop
  | .write k => ∀ w ∈ s.saves[k]?, w.olderThan s.written = false
  | .storePending _ _ | .deletePending _ | .configChange _ | .setLocal _ | .copy _ _ => True

instance (s : PeerBook β) : (a : BookStep) → Decidable (WritesInOrder s a)
  | .write k => inferInstanceAs (Decidable (∀ w ∈ s.saves[k]?, w.olderThan s.written = false))
  | .storePending _ _ | .deletePending _ | .configChange _ | .setLocal _ | .copy _ _ =>
    inferInstanceAs (Decidable True)

end

namespace PeerBookLemmas

/-! ## Copies of the book -/

theorem lookup_foldl_insert (ks : List Int) (info : Int → PeerInfo) (book : GoMap Int PeerInfo)
    (x : Int) :
    ((ks.map fun id => PersistedPeer.mk id (info id).raftAddr (info id).httpAddr).foldl
      (fun book p => book.insert p.id { raftAddr := p.raftAddr, httpAddr := p.httpAddr })
      book).lookup x = if x ∈ ks then some (info x) else book.lookup x := by
  induction ks generalizing book with
  | nil => rfl
  | cons k ks ih =>
    rw [List.map_cons, List.foldl_cons, ih, Finmap.lookup_insert_ite]
    by_cases hmem : x ∈ ks
    · simp [hmem]
    · by_cases hk : x = k
      · subst hk
        simp [hmem]
      · simp [hmem, hk]

/-- A copy describes the book it was taken from, in whatever order. -/
theorem bookOf_persisted (m : Membership) (order : RangeOrder Int) :
    bookOf (m.persisted order) = m.peers := by
  refine Finmap.ext_lookup fun x => ?_
  rw [bookOf, Membership.persisted, lookup_foldl_insert _ fun id => (m.peers.read {} id).1]
  simp only [order.mem_keys, Finmap.mem_keys]
  split
  · next hmem =>
    obtain ⟨pi, hpi⟩ := Finmap.mem_iff.mp hmem
    rw [Finmap.read_of_some hpi, hpi]
  · next hmem =>
    rw [Finmap.lookup_empty, Finmap.lookup_eq_none.mpr hmem]

/-! ## The invariant -/

variable {β : Type} {codec : PeerCodec β}

/-- A copy or a stored value of the newest version has the current book, and while the
newest version is not stored, a save that will write it is running. -/
structure SaveInv (codec : PeerCodec β) (s : PeerBook β) : Prop where
  copied : ∀ l v, Save.copied l v ∈ s.saves →
    v ≤ s.saves.length ∧ (v = s.saves.length → bookOf l = s.node.peers)
  written_le : s.written ≤ s.saves.length
  stored : s.saves ≠ [] → s.written = s.saves.length →
    ∃ data l, s.stored = some data ∧ codec.decode data = some l ∧ bookOf l = s.node.peers
  latest : s.saves ≠ [] → s.written = s.saves.length ∨
    .started ∈ s.saves ∨ ∃ l, .copied l s.saves.length ∈ s.saves

theorem saveInv_init (node : Membership) (stored : Option β) :
    SaveInv codec (peerBook codec node stored).init where
  copied _ _ h := absurd h List.not_mem_nil
  written_le := le_rfl
  stored h := absurd rfl h
  latest h := absurd rfl h

variable {s : PeerBook β}

/-- Join requests do not touch the book. -/
theorem SaveInv.setNode (h : SaveInv codec s) {node : Membership}
    (hpeers : node.peers = s.node.peers) : SaveInv codec { s with node := node } where
  copied l v hmem := by
    rw [hpeers]
    exact h.copied l v hmem
  written_le := h.written_le
  stored hne hw := by
    rw [hpeers]
    exact h.stored hne hw
  latest := h.latest

theorem SaveInv.change (h : SaveInv codec s) (node : Membership) :
    SaveInv codec (s.change node) := by
  have hlen : (s.change node).saves.length = s.saves.length + 1 := List.length_append
  refine ⟨fun l v hmem => ?_, ?_, fun _ hw => ?_, fun _ => .inr (.inl ?_)⟩
  · rcases List.mem_append.mp hmem with hold | hnew
    · have hle := (h.copied l v hold).1
      rw [hlen]
      exact ⟨Nat.le_succ_of_le hle, fun heq => absurd heq (Nat.ne_of_lt (Nat.lt_succ_of_le hle))⟩
    · cases List.mem_singleton.mp hnew
  · rw [hlen]
    exact Nat.le_succ_of_le h.written_le
  · have hle : s.written ≤ s.saves.length := h.written_le
    rw [hlen] at hw
    have hw : s.written = s.saves.length + 1 := hw
    omega
  · exact List.mem_append_right _ (List.mem_singleton.mpr rfl)

theorem SaveInv.copy (h : SaveInv codec s) {k : Nat} (hk : s.saves[k]? = some .started)
    (order : RangeOrder Int) :
    SaveInv codec
      { s with saves := s.saves.set k (.copied (s.node.persisted order) s.saves.length) } := by
  have hlt : k < s.saves.length := (List.getElem?_eq_some_iff.mp hk).1
  refine ⟨fun l v hmem => ?_, ?_, fun _ hw => ?_, fun _ => .inr (.inr ⟨s.node.persisted order, ?_⟩)⟩
  · rw [List.length_set]
    rcases List.mem_or_eq_of_mem_set hmem with hold | heq
    · exact h.copied l v hold
    · cases heq
      exact ⟨le_rfl, fun _ => bookOf_persisted s.node order⟩
  · rw [List.length_set]
    exact h.written_le
  · rw [List.length_set] at hw
    exact h.stored (List.ne_nil_of_length_pos (Nat.zero_lt_of_lt hlt)) hw
  · rw [List.length_set]
    exact List.mem_set hlt _

/-- A write of a copy that is not older than what is stored. -/
theorem SaveInv.write (h : SaveInv codec s) {k v : Nat} {l : List PersistedPeer}
    (hk : s.saves[k]? = some (.copied l v)) (hv : s.written ≤ v) :
    SaveInv codec (s.write codec k l v) := by
  obtain ⟨data, henc, hdec⟩ := codec.decode_encode l
  obtain ⟨hle, hbook⟩ := h.copied l v (List.mem_of_getElem? hk)
  have hlt : k < s.saves.length := (List.getElem?_eq_some_iff.mp hk).1
  have hne : s.saves ≠ [] := List.ne_nil_of_length_pos (Nat.zero_lt_of_lt hlt)
  simp only [PeerBook.write, henc]
  refine ⟨fun l' v' hmem => ?_, ?_, fun _ hw => ?_, fun _ => ?_⟩
  · rw [List.length_set]
    rcases List.mem_or_eq_of_mem_set hmem with hold | heq
    · exact h.copied l' v' hold
    · cases heq
  · rw [List.length_set]
    exact hle
  · rw [List.length_set] at hw
    exact ⟨data, l, rfl, hdec, hbook hw⟩
  · rw [List.length_set]
    rcases Nat.eq_or_lt_of_le hle with heq | hlt
    · exact .inl heq
    · -- an older copy leaves the save that will write the newest one
      refine .inr ?_
      rcases h.latest hne with hw | hstarted | ⟨l', hcopied⟩
      · omega
      · exact .inl (History.mem_set_of_ne hk hstarted nofun)
      · refine .inr ⟨l', History.mem_set_of_ne hk hcopied fun heq => ?_⟩
        cases heq
        exact absurd hlt (lt_irrefl _)

theorem SaveInv.step {node : Membership} {stored : Option β} {s' : PeerBook β} {a : BookStep}
    (h : SaveInv codec s) (hguard : WritesInOrder s a)
    (hstep : (peerBook codec node stored).step s a = some s') : SaveInv codec s' := by
  cases a with
  | storePending x pi =>
    cases hstep
    exact h.setNode rfl
  | deletePending x =>
    cases hstep
    exact h.setNode rfl
  | configChange cc =>
    cases hstep
    exact h.change _
  | setLocal addr =>
    cases hstep
    exact h.change _
  | copy k order =>
    simp only [peerBook] at hstep
    split at hstep
    · next hk =>
      cases hstep
      exact h.copy hk order
    · cases hstep
  | write k =>
    simp only [peerBook] at hstep
    split at hstep
    · next l v hk =>
      cases hstep
      have hnewer := hguard _ hk
      simp only [Save.olderThan, decide_eq_false_iff_not, not_lt] at hnewer
      exact h.write hk hnewer
    · cases hstep

end PeerBookLemmas

open PeerBookLemmas

/-! ## Main results -/

/-- In every run in which no save writes over a later copy, storage has the current
book whenever all saves are done. -/
theorem peers_saved {β : Type} (codec : PeerCodec β) (node : Membership) (stored : Option β)
    {s : PeerBook β} (h : (peerBook codec node stored).ReachableBy WritesInOrder s) :
    PeersSaved codec s := by
  have hinv : SaveInv codec s :=
    h.invariant (saveInv_init node stored) fun _ _ _ _ hinv hguard hstep => hinv.step hguard hstep
  intro hne hdone
  refine hinv.stored hne ?_
  rcases hinv.latest hne with hw | hstarted | ⟨l, hcopied⟩
  · exact hw
  · cases hdone _ hstarted
  · cases hdone _ hcopied

/-- Two changes of the book of node 1, whose saves take their copies at once and write
them in the order `first`, `second`. -/
def twoSaves (first second : Nat) : List BookStep :=
  [.setLocal "a:2", .copy 0 .ascending, .storePending 3 thirdNode,
    .configChange { type := .addNode, nodeId := 3 }, .copy 1 .ascending, .write first,
    .write second]

theorem peers_saved_in_order :
    ∃ s, (peerBook .plain (.new 1 []) none).ReachableBy WritesInOrder s ∧
      PeersSaved .plain s ∧ s.saves = [.finished, .finished] ∧
      s.node.peers.lookup 3 = some thirdNode := by
  obtain ⟨s, hreach, hs⟩ := Machine.exists_reachableBy (M := peerBook .plain (.new 1 []) none)
    (G := WritesInOrder) (twoSaves 0 1)
    (fun s => decide (s.saves = [.finished, .finished] ∧ s.node.peers.lookup 3 = some thirdNode))
    (x := true) (by decide)
  exact ⟨s, hreach, peers_saved .plain _ _ hreach, of_decide_eq_true hs⟩

/-- The second save overtakes the first one: node 3 is in the book and not in
storage. -/
theorem older_copy_stored :
    ∃ s, (peerBook .plain (.new 1 []) none).Reachable s ∧ ¬ PeersSaved .plain s ∧
      s.saves = [.finished, .finished] ∧ s.node.peers.lookup 3 = some thirdNode ∧
      s.stored = some [{ id := 1, raftAddr := "", httpAddr := "a:2" }] := by
  obtain ⟨s, hreach, hs⟩ := Machine.exists_reachableBy (M := peerBook .plain (.new 1 []) none)
    (G := fun _ _ => True) (twoSaves 1 0)
    (fun s => decide (s.saves = [.finished, .finished] ∧
      s.node.peers.lookup 3 = some thirdNode ∧
      s.stored = some [PersistedPeer.mk 1 "" "a:2"]))
    (x := true) (by decide)
  obtain ⟨hsaves, hknown, hstored⟩ := of_decide_eq_true hs
  refine ⟨s, hreach, fun hsaved => ?_, hsaves, hknown, hstored⟩
  obtain ⟨data, l, hdata, hl, hbook⟩ := hsaved (by rw [hsaves]; nofun) (by rw [hsaves]; decide)
  obtain rfl := Option.some.inj (hstored.symm.trans hdata)
  obtain rfl := Option.some.inj hl
  rw [← hbook] at hknown
  exact absurd hknown (by decide)

end Zodiac
