import Zodiac.JoinCluster
import Zodiac.Lib.Linearizable
import Zodiac.PeerBook

/-!
# Stopping and starting again

`main` of the server makes a service on the storage of its node, and the service loads the peers
that were saved there. Then `main` dials the peers with a saved address, and those of the
configuration that it has not dialled yet. The process can stop at any point, also between the
two parts of a `savePeers`, and start again.

* `lives`: the peer book of a node over any number of starts.
* `mem_dialled`: whom a start dials. Saved addresses come before configured ones, and the order of
  the loop over the peers does not matter.
* `restart_dials`: the addresses of a start are those of one book that the node had before it
  stopped, and of the last one if all saves were done in order.
-/

namespace Zodiac

/-! ## Dialling -/

/-- `Config.PeerIDs`. -/
def Config.peerIDs (cfg : Config) : List Int :=
  (cfg.initialCluster.map (·.id)).filter (· ≠ cfg.nodeID)

/-- The map `connected` of `main`, and the peers for which a goroutine was started. -/
structure Dialling where
  connected : GoMap Int Bool
  dialled : List (Int × String)

/-- `connect` of `main`. -/
def connect (cfg : Config) (d : Dialling) (peer : Int × String) : Dialling :=
  if peer.1 = cfg.nodeID ∨ (d.connected.read false peer.1).1 = true then d
  else { connected := d.connected.insert peer.1 true, dialled := d.dialled ++ [peer] }

/-- The two loops of `main`. -/
def dial (cfg : Config) (order : RangeOrder Int) (knownPeers : GoMap Int PeerInfo) : Dialling :=
  let d := (order.keys knownPeers.keys).foldl (fun d id =>
    let pi := (knownPeers.read {} id).1
    if pi.raftAddr ≠ "" then connect cfg d (id, pi.raftAddr) else d)
    { connected := ∅, dialled := [] }
  cfg.initialCluster.foldl (fun d p => connect cfg d (p.id, p.raftAddr)) d

/-- The address at which a node is dialled that has the given book: the saved one, or else the
first one in the configuration. -/
def dialAddr (cfg : Config) (book : GoMap Int PeerInfo) (id : Int) : Option String :=
  let configured := (cfg.initialCluster.find? fun p => p.id = id).map (·.raftAddr)
  match book.lookup id with
  | some pi => if pi.raftAddr ≠ "" then some pi.raftAddr else configured
  | none => configured

/-! ## Starts -/

section

variable {β : Type}

/-- `New`, with `loadPeers` on what is stored. What cannot be decoded is not loaded. -/
def boot (codec : PeerCodec β) (cfg : Config) (stored : Option β) : PeerBook β where
  node := match stored.bind codec.decode with
    | some l => (Membership.new cfg.nodeID cfg.peerIDs).loadPeers l
    | none => Membership.new cfg.nodeID cfg.peerIDs
  stored := stored
  saves := []
  written := 0

/-- A step of the process, or its end and the next start. -/
inductive LifeStep
  | run (a : BookStep)
  | restart

/-- A node from its first start on. Of its state, only the storage stays when it stops. -/
def lives (codec : PeerCodec β) (cfg : Config) : Machine (PeerBook β) LifeStep where
  init := boot codec cfg none
  step s
    | .run a => (peerBook codec s.node s.stored).step s a
    | .restart => some (boot codec cfg s.stored)

/-- The same with the books that the node had. -/
def livesWithBooks (codec : PeerCodec β) (cfg : Config) :
    Machine (PeerBook β × List (GoMap Int PeerInfo)) LifeStep :=
  (lives codec cfg).observed fun s _ => [s.node.peers]

/-- While the process runs, no save writes over a later copy. -/
def LifeInOrder (s : PeerBook β) : LifeStep → Prop
  | .run a => WritesInOrder s a
  | .restart => True

instance (s : PeerBook β) : (a : LifeStep) → Decidable (LifeInOrder s a)
  | .run a => inferInstanceAs (Decidable (WritesInOrder s a))
  | .restart => inferInstanceAs (Decidable True)

end

namespace StartupLemmas

open PeerBookLemmas

/-! ## Whom a start dials -/

/-- What `connect` has done with some peers, one after the other. -/
structure Connected (cfg : Config) (peers : List (Int × String)) (d : Dialling) : Prop where
  connected : ∀ id, (d.connected.read false id).1 = true ↔ id ∈ d.dialled.map Prod.fst
  nodup : (d.dialled.map Prod.fst).Nodup
  mem : ∀ id addr, (id, addr) ∈ d.dialled ↔
    id ≠ cfg.nodeID ∧ (peers.find? fun p => p.1 = id).map Prod.snd = some addr

variable {cfg : Config} {peers : List (Int × String)} {d : Dialling}

theorem Connected.mem_ids (h : Connected cfg peers d) (id : Int) :
    id ∈ d.dialled.map Prod.fst ↔ id ≠ cfg.nodeID ∧ (peers.find? fun p => p.1 = id).isSome := by
  constructor
  · intro hid
    obtain ⟨⟨_, addr⟩, hmem, rfl⟩ := List.mem_map.mp hid
    obtain ⟨hne, hfind⟩ := (h.mem _ addr).mp hmem
    obtain ⟨p, hp, -⟩ := Option.map_eq_some_iff.mp hfind
    exact ⟨hne, by rw [hp]; rfl⟩
  · rintro ⟨hne, hsome⟩
    obtain ⟨p, hp⟩ := Option.isSome_iff_exists.mp hsome
    exact List.mem_map.mpr ⟨(id, p.2), (h.mem id p.2).mpr ⟨hne, by rw [hp]; rfl⟩, rfl⟩

theorem read_connected (m : GoMap Int Bool) (k id : Int) :
    ((m.insert k true).read false id).1 = true ↔ (m.read false id).1 = true ∨ id = k := by
  simp only [Finmap.read, Finmap.lookup_insert_ite]
  by_cases hid : id = k
  · simp [hid]
  · simp [hid]

theorem find?_concat (peers : List (Int × String)) (peer : Int × String) (id : Int) :
    (peers ++ [peer]).find? (fun p => p.1 = id) =
      (peers.find? fun p => p.1 = id).or (if peer.1 = id then some peer else none) := by
  rw [List.find?_append, List.find?_singleton]
  simp only [decide_eq_true_eq]

theorem Connected.connect (h : Connected cfg peers d) (peer : Int × String) :
    Connected cfg (peers ++ [peer]) (connect cfg d peer) := by
  unfold Zodiac.connect
  split
  · next hskip =>
    refine ⟨h.connected, h.nodup, fun id addr => ?_⟩
    rw [h.mem, find?_concat]
    refine and_congr_right fun hne => ?_
    by_cases hid : peer.1 = id
    · -- it has been dialled before
      have hbefore : (peers.find? fun p => p.1 = id).isSome := by
        rcases hskip with hown | hconnected
        · exact absurd (hid.symm.trans hown) hne
        · exact ((h.mem_ids id).mp (hid ▸ (h.connected peer.1).mp hconnected)).2
      obtain ⟨p, hp⟩ := Option.isSome_iff_exists.mp hbefore
      rw [hp, Option.some_or]
    · rw [if_neg hid, Option.or_none]
  · next hnew =>
    rw [not_or] at hnew
    have hfresh : peer.1 ∉ d.dialled.map Prod.fst := fun hmem => hnew.2 ((h.connected _).mpr hmem)
    have hnone : (peers.find? fun p => p.1 = peer.1) = none := by
      rw [← Option.not_isSome_iff_eq_none]
      exact fun hsome => hfresh ((h.mem_ids peer.1).mpr ⟨hnew.1, hsome⟩)
    refine ⟨fun id => ?_, ?_, fun id addr => ?_⟩
    · rw [List.map_append, List.mem_append, List.map_singleton, List.mem_singleton,
        ← h.connected id]
      exact read_connected d.connected peer.1 id
    · rw [List.map_append, List.map_singleton]
      exact (List.perm_append_singleton _ _).nodup_iff.mpr (List.nodup_cons.mpr ⟨hfresh, h.nodup⟩)
    · rw [List.mem_append, List.mem_singleton, h.mem, find?_concat]
      by_cases hid : peer.1 = id
      · subst hid
        rw [hnone, if_pos rfl]
        simp [hnew.1, Prod.ext_iff, eq_comm]
      · rw [if_neg hid, Option.or_none]
        refine or_iff_left ?_
        rintro rfl
        exact hid rfl

/-- The peers that the first loop connects to. -/
def known (order : RangeOrder Int) (knownPeers : GoMap Int PeerInfo) : List (Int × String) :=
  ((order.keys knownPeers.keys).map fun id => (id, (knownPeers.read {} id).1.raftAddr)).filter
    fun p => p.2 ≠ ""

theorem dial_eq (cfg : Config) (order : RangeOrder Int) (knownPeers : GoMap Int PeerInfo) :
    dial cfg order knownPeers =
      (known order knownPeers ++ cfg.initialCluster.map fun p => (p.id, p.raftAddr)).foldl
        (Zodiac.connect cfg) { connected := ∅, dialled := [] } := by
  rw [List.foldl_append, known, List.foldl_filter, List.foldl_map, List.foldl_map, dial]
  simp only [decide_eq_true_eq]

theorem connected_foldl (cfg : Config) (peers : List (Int × String)) :
    Connected cfg peers (peers.foldl (Zodiac.connect cfg) { connected := ∅, dialled := [] }) := by
  induction peers using List.reverseRecOn with
  | nil => exact ⟨fun id => by simp [Finmap.read], List.nodup_nil, fun id addr => by simp⟩
  | append_singleton peers peer ih =>
    rw [List.foldl_append, List.foldl_cons, List.foldl_nil]
    exact ih.connect peer

theorem mem_known {order : RangeOrder Int} {knownPeers : GoMap Int PeerInfo} {id : Int}
    {addr : String} : (id, addr) ∈ known order knownPeers ↔
      ∃ pi, knownPeers.lookup id = some pi ∧ pi.raftAddr = addr ∧ addr ≠ "" := by
  simp only [known, List.mem_filter, List.mem_map, Prod.mk.injEq, order.mem_keys, Finmap.mem_keys,
    decide_eq_true_eq]
  constructor
  · rintro ⟨⟨_, hmem, rfl, rfl⟩, hne⟩
    obtain ⟨pi, hpi⟩ := Finmap.mem_iff.mp hmem
    rw [Finmap.read_of_some hpi] at hne ⊢
    exact ⟨pi, hpi, rfl, hne⟩
  · rintro ⟨pi, hpi, rfl, hne⟩
    exact ⟨⟨id, Finmap.mem_iff.mpr ⟨pi, hpi⟩, rfl, by rw [Finmap.read_of_some hpi]⟩, hne⟩

/-- The first loop finds the saved addresses, in whatever order. -/
theorem find?_known (order : RangeOrder Int) (knownPeers : GoMap Int PeerInfo) (id : Int) :
    ((known order knownPeers).find? fun p => p.1 = id).map Prod.snd =
      (knownPeers.lookup id).bind fun pi =>
        if pi.raftAddr ≠ "" then some pi.raftAddr else none := by
  cases hfind : (known order knownPeers).find? fun p => p.1 = id with
  | some p =>
    obtain ⟨_, addr⟩ := p
    have hid := List.find?_some hfind
    rw [decide_eq_true_eq] at hid
    subst hid
    obtain ⟨pi, hpi, rfl, hne⟩ := mem_known.mp (List.mem_of_find?_eq_some hfind)
    rw [hpi]
    exact (if_pos hne).symm
  | none =>
    rw [List.find?_eq_none] at hfind
    cases hpi : knownPeers.lookup id with
    | none => rfl
    | some pi =>
      by_cases hne : pi.raftAddr ≠ ""
      · exact absurd (decide_eq_true rfl) (hfind _ (mem_known.mpr ⟨pi, hpi, rfl, hne⟩))
      · exact (if_neg hne).symm

theorem mem_dialled (cfg : Config) (order : RangeOrder Int) (knownPeers : GoMap Int PeerInfo)
    (id : Int) (addr : String) : (id, addr) ∈ (dial cfg order knownPeers).dialled ↔
      id ≠ cfg.nodeID ∧ dialAddr cfg knownPeers id = some addr := by
  have hfind : ((known order knownPeers ++ cfg.initialCluster.map fun p => (p.id, p.raftAddr)).find?
      fun p => p.1 = id).map Prod.snd = dialAddr cfg knownPeers id := by
    rw [List.find?_append, List.find?_map, Option.map_or, find?_known, Option.map_map, dialAddr]
    cases knownPeers.lookup id with
    | none => rfl
    | some pi =>
      by_cases hne : pi.raftAddr = ""
      · simp [hne, Function.comp_def]
      · simp [hne]
  rw [dial_eq, (connected_foldl cfg _).mem, hfind]

/-! ## What a start loads -/

variable {β : Type} {codec : PeerCodec β}

theorem loadPeers_foldl (l : List PersistedPeer) (m : Membership) (book : GoMap Int PeerInfo)
    (h : ∀ x ≠ m.id, m.peers.lookup x = book.lookup x) :
    ∀ x ≠ m.id, (m.loadPeers l).peers.lookup x = (l.foldl (fun book p =>
      book.insert p.id { raftAddr := p.raftAddr, httpAddr := p.httpAddr }) book).lookup x := by
  induction l generalizing m book with
  | nil => exact h
  | cons p l ih =>
    rw [Membership.loadPeers, List.foldl_cons, List.foldl_cons]
    let pi : PeerInfo := { raftAddr := p.raftAddr, httpAddr := p.httpAddr }
    split
    · refine ih { m with peers := m.peers.insert p.id pi } (book.insert p.id pi) fun x hx => ?_
      rw [Finmap.lookup_insert_ite, Finmap.lookup_insert_ite, h x hx]
    · next hown =>
      refine ih m (book.insert p.id pi) fun x hx => ?_
      rw [Finmap.lookup_insert_ite, if_neg, h x hx]
      rintro rfl
      exact hx (not_not.mp hown)

/-- A start has the stored book, without the record of the node itself. -/
theorem lookup_boot (cfg : Config) {stored : Option β} {data : β} {l : List PersistedPeer}
    (hstored : stored = some data) (hdecode : codec.decode data = some l) :
    ∀ x ≠ cfg.nodeID, (boot codec cfg stored).node.peers.lookup x = (bookOf l).lookup x := by
  have hboot : (boot codec cfg stored).node =
      (Membership.new cfg.nodeID cfg.peerIDs).loadPeers l := by
    simp only [boot, hstored, Option.bind_some, hdecode]
  rw [hboot]
  exact loadPeers_foldl l (Membership.new cfg.nodeID cfg.peerIDs) ∅ fun _ _ => rfl

theorem dialAddr_congr {cfg : Config} {book book' : GoMap Int PeerInfo} {id : Int}
    (h : book.lookup id = book'.lookup id) : dialAddr cfg book id = dialAddr cfg book' id := by
  rw [dialAddr, dialAddr, h]

/-- What a start dials if it loads a book as far as other nodes go. -/
theorem mem_dialled_of_lookup {cfg : Config} {loaded book : GoMap Int PeerInfo}
    (h : ∀ x ≠ cfg.nodeID, loaded.lookup x = book.lookup x) (order : RangeOrder Int) (id : Int)
    (addr : String) : (id, addr) ∈ (dial cfg order loaded).dialled ↔
      id ≠ cfg.nodeID ∧ dialAddr cfg book id = some addr := by
  rw [mem_dialled]
  exact and_congr_right fun hid => by rw [dialAddr_congr (h id hid)]

/-! ## Over several starts -/

/-- What a step does to the book and the saves. -/
inductive LifeMove (codec : PeerCodec β) (cfg : Config) (s : PeerBook β) : PeerBook β → Prop
  | pending (node : Membership) :
      node.peers = s.node.peers → LifeMove codec cfg s { s with node := node }
  | change (node : Membership) : LifeMove codec cfg s (s.change node)
  | copy (k : Nat) (order : RangeOrder Int) : s.saves[k]? = some .started →
      LifeMove codec cfg s
        { s with saves := s.saves.set k (.copied (s.node.persisted order) s.saves.length) }
  | write (k : Nat) (l : List PersistedPeer) (version : Nat) :
      s.saves[k]? = some (.copied l version) → LifeMove codec cfg s (s.write codec k l version)
  | restart : LifeMove codec cfg s (boot codec cfg s.stored)

theorem lifeMove_of_step {cfg : Config} {s s' : PeerBook β} {a : LifeStep}
    (hstep : (lives codec cfg).step s a = some s') : LifeMove codec cfg s s' := by
  cases a with
  | restart =>
    cases hstep
    exact .restart
  | run a =>
    cases a with
    | storePending x pi | deletePending x =>
      cases hstep
      exact .pending _ rfl
    | configChange cc | setLocal addr =>
      cases hstep
      exact .change _
    | copy k order =>
      simp only [lives, peerBook] at hstep
      split at hstep
      · next hk =>
        cases hstep
        exact .copy k order hk
      · cases hstep
    | write k =>
      simp only [lives, peerBook] at hstep
      split at hstep
      · next l version hk =>
        cases hstep
        exact .write k l version hk
      · cases hstep

/-- The copies and the stored list are of books that the node had. -/
structure Books (codec : PeerCodec β) (s : PeerBook β) (H : List (GoMap Int PeerInfo)) :
    Prop where
  copied : ∀ l v, Save.copied l v ∈ s.saves → bookOf l ∈ H
  stored : ∀ data, s.stored = some data → ∃ l, codec.decode data = some l ∧ bookOf l ∈ H

theorem Books.mono {s : PeerBook β} {H H' : List (GoMap Int PeerInfo)} (h : Books codec s H)
    (hH : H ⊆ H') : Books codec s H' where
  copied l v hmem := hH (h.copied l v hmem)
  stored data hdata := by
    obtain ⟨l, hl, hmem⟩ := h.stored data hdata
    exact ⟨l, hl, hH hmem⟩

/-- A step takes a copy of the book at most, or writes one of the copies. -/
theorem Books.move {cfg : Config} {s s' : PeerBook β} {H : List (GoMap Int PeerInfo)}
    (h : Books codec s H) (hmove : LifeMove codec cfg s s') :
    Books codec s' (H ++ [s.node.peers]) := by
  have hkept := h.mono (List.subset_append_left H [s.node.peers])
  cases hmove with
  | pending node _ => exact ⟨hkept.copied, hkept.stored⟩
  | change node =>
    refine ⟨fun l v hmem => ?_, hkept.stored⟩
    rcases List.mem_append.mp hmem with hold | hnew
    · exact hkept.copied l v hold
    · cases List.mem_singleton.mp hnew
  | copy k order _ =>
    refine ⟨fun l v hmem => ?_, hkept.stored⟩
    rcases List.mem_or_eq_of_mem_set hmem with hold | heq
    · exact hkept.copied l v hold
    · cases heq
      rw [bookOf_persisted]
      exact List.mem_append_right H List.mem_cons_self
  | write k l version hk =>
    obtain ⟨data, hencode, hdecode⟩ := codec.decode_encode l
    simp only [PeerBook.write, hencode]
    refine ⟨fun l' v hmem => ?_, ?_⟩
    · rcases List.mem_or_eq_of_mem_set hmem with hold | heq
      · exact hkept.copied l' v hold
      · cases heq
    · rintro _ ⟨⟩
      exact ⟨l, hdecode, hkept.copied l version (List.mem_of_getElem? hk)⟩
  | restart => exact ⟨fun _ _ hmem => absurd hmem List.not_mem_nil, hkept.stored⟩

theorem books_of_reachable {cfg : Config} {G : PeerBook β → LifeStep → Prop}
    {s : PeerBook β × List (GoMap Int PeerInfo)}
    (h : (livesWithBooks codec cfg).ReachableBy (fun s => G s.1) s) : Books codec s.1 s.2 := by
  refine Machine.ReachableBy.invariant (I := fun s => Books codec s.1 s.2) ?_ ?_ h
  · refine ⟨fun _ _ hmem => absurd hmem List.not_mem_nil, ?_⟩
    rintro _ ⟨⟩
  · intro s a s' _ hbooks _ hstep
    obtain ⟨hlife, hbook⟩ := Machine.observed_step hstep
    rw [hbook]
    exact hbooks.move (lifeMove_of_step hlife)

/-- A life starts with what is stored, and has the saves of its changes. -/
structure LifeInv (codec : PeerCodec β) (cfg : Config) (s : PeerBook β) : Prop where
  saves : SaveInv codec s
  unchanged : s.saves = [] → (boot codec cfg s.stored).node.peers = s.node.peers

theorem lifeInv_boot (cfg : Config) (stored : Option β) :
    LifeInv codec cfg (boot codec cfg stored) :=
  ⟨saveInv_init (boot codec cfg stored).node stored, fun _ => rfl⟩

/-- Without a save the book is still the one that was loaded. -/
theorem unchanged_of_move {cfg : Config} {s s' : PeerBook β} (hmove : LifeMove codec cfg s s')
    (h : s.saves = [] → (boot codec cfg s.stored).node.peers = s.node.peers)
    (hnone : s'.saves = []) : (boot codec cfg s'.stored).node.peers = s'.node.peers := by
  cases hmove with
  | pending node hpeers => exact (h hnone).trans hpeers.symm
  | change node =>
    exact absurd hnone (List.append_ne_nil_of_right_ne_nil _ (List.cons_ne_nil _ _))
  | copy k order hk =>
    rw [(List.set_eq_nil_iff _ _).mp hnone] at hk
    cases hk
  | write k l version hk =>
    have hsaves : s.saves = [] := by
      unfold PeerBook.write at hnone
      split at hnone <;> exact (List.set_eq_nil_iff _ _).mp hnone
    rw [hsaves] at hk
    cases hk
  | restart => rfl

theorem LifeInv.step {cfg : Config} {s s' : PeerBook β} {a : LifeStep} (h : LifeInv codec cfg s)
    (hguard : LifeInOrder s a) (hstep : (lives codec cfg).step s a = some s') :
    LifeInv codec cfg s' := by
  cases a with
  | restart =>
    cases hstep
    exact lifeInv_boot cfg s.stored
  | run a =>
    have hrun : (peerBook codec s.node s.stored).step s a = some s' := hstep
    exact ⟨h.saves.step hguard hrun, unchanged_of_move (lifeMove_of_step hstep) h.unchanged⟩

/-- If all saves are done, in order, a start loads the book with which the node stopped. -/
theorem LifeInv.loaded {cfg : Config} {s : PeerBook β} (h : LifeInv codec cfg s)
    (hdone : ∀ w ∈ s.saves, w = .finished) :
    ∀ x ≠ cfg.nodeID, (boot codec cfg s.stored).node.peers.lookup x = s.node.peers.lookup x := by
  by_cases hnone : s.saves = []
  · intro x _
    rw [h.unchanged hnone]
  · have hwritten : s.written = s.saves.length := by
      rcases h.saves.latest hnone with hw | hstarted | ⟨l, hcopied⟩
      · exact hw
      · cases hdone _ hstarted
      · cases hdone _ hcopied
    obtain ⟨data, l, hstored, hdecode, hbook⟩ := h.saves.stored hnone hwritten
    rw [← hbook]
    exact lookup_boot cfg hstored hdecode

end StartupLemmas

open StartupLemmas

/-! ## Main result -/

/-- A node that starts again, after any number of lives and wherever it stopped, dials every peer
at most once and never itself. There is one book, which it had at some time or which is empty, such
that it dials exactly those with an address in that book or in the configuration, and the address
in the book comes first. If no save has written over a later copy, and all saves of the last life
were done, that is the book with which the node stopped. -/
theorem restart_dials {β : Type} (codec : PeerCodec β) (cfg : Config)
    {G : PeerBook β → LifeStep → Prop} {s : PeerBook β} {H : List (GoMap Int PeerInfo)}
    (h : (livesWithBooks codec cfg).ReachableBy (fun s => G s.1) (s, H)) (order : RangeOrder Int) :
    ((dial cfg order (boot codec cfg s.stored).node.peers).dialled.map Prod.fst).Nodup ∧
    (∃ book, (book = ∅ ∨ book ∈ H) ∧ ∀ id addr,
      (id, addr) ∈ (dial cfg order (boot codec cfg s.stored).node.peers).dialled ↔
        id ≠ cfg.nodeID ∧ dialAddr cfg book id = some addr) ∧
    ((∀ s a, G s a → LifeInOrder s a) → (∀ w ∈ s.saves, w = .finished) → ∀ id addr,
      (id, addr) ∈ (dial cfg order (boot codec cfg s.stored).node.peers).dialled ↔
        id ≠ cfg.nodeID ∧ dialAddr cfg s.node.peers id = some addr) := by
  refine ⟨?_, ?_, fun hG hdone => ?_⟩
  · rw [dial_eq]
    exact (connected_foldl cfg _).nodup
  · cases hstored : s.stored with
    | none => exact ⟨∅, .inl rfl, mem_dialled cfg order ∅⟩
    | some data =>
      obtain ⟨l, hdecode, hmem⟩ := (books_of_reachable h).stored data hstored
      exact ⟨bookOf l, .inr hmem, mem_dialled_of_lookup (lookup_boot cfg rfl hdecode) order⟩
  · have hinv : LifeInv codec cfg s := by
      refine Machine.ReachableBy.invariant (I := LifeInv codec cfg) (lifeInv_boot cfg none) ?_
        (Machine.ReachableBy.of_observed h)
      exact fun s a s' _ hinv hguard hstep => hinv.step (hG s a hguard) hstep
    exact mem_dialled_of_lookup (hinv.loaded hdone) order

/-- Node 1 of two. -/
def firstOfTwo : Config where
  nodeID := 1
  httpPort := 8001
  initialCluster := [{ id := 1, httpAddr := "a:1", raftAddr := "a:9" },
    { id := 2, httpAddr := "b:1", raftAddr := "b:9" }]

/-- Node 3 joins and is saved, and then node 1 stops and starts. -/
def joinedThenStopped : List LifeStep :=
  [.run (.setLocal "a:1"), .run (.copy 0 .ascending), .run (.write 0), .restart,
    .run (.storePending 3 thirdNode), .run (.configChange { type := .addNode, nodeId := 3 }),
    .run (.copy 0 .ascending), .run (.write 0)]

/-- It dials node 3 at the address with which it joined, and node 2 at the configured one. -/
theorem restart_dials_joined :
    ∃ s H, (livesWithBooks .plain firstOfTwo).ReachableBy (fun s => LifeInOrder s.1) (s, H) ∧
      (∀ w ∈ s.saves, w = .finished) ∧
      ∀ id addr, (id, addr) ∈ (dial firstOfTwo .ascending
          (boot .plain firstOfTwo s.stored).node.peers).dialled ↔
        id ≠ 1 ∧ dialAddr firstOfTwo s.node.peers id = some addr := by
  obtain ⟨⟨s, H⟩, hreach, hs⟩ := Machine.exists_reachableBy (M := livesWithBooks .plain firstOfTwo)
    (G := fun s => LifeInOrder s.1) joinedThenStopped
    (fun s => decide (s.1.saves = [.finished] ∧ s.1.node.peers.lookup 3 = some thirdNode))
    (x := true) (by decide)
  obtain ⟨hsaves, -⟩ := of_decide_eq_true hs
  have hdone : ∀ w ∈ s.saves, w = .finished := by
    intro w hw
    rw [hsaves] at hw
    exact List.mem_singleton.mp hw
  exact ⟨s, H, hreach, hdone, (restart_dials .plain firstOfTwo hreach .ascending).2.2
    (fun _ _ hguard => hguard) hdone⟩

end Zodiac
