import Zodiac.CommitChannels
import Zodiac.Locking

/-!
# The subscriptions of the service as channels

`KVServer` records subscriptions in a map and closed channels together with what was sent
on them; its send and its close are one step that cannot fail. `CommitSubs` has the
channels themselves. Run one after the other, the operations of the service do to its
record what they do to the channels.

* `Shows`: the record of a server is that of the channels.
* `shows_of_serverRun`: it is in every run of the operations on distinct indices.
-/

namespace Zodiac

open LockProg KVServer CommitChannelLemmas

variable {β γ : Type}

/-- What the sends and closes on a channel come to: nothing yet, a command, or a close
without one. -/
def channelOutcome : List ChanOp → Option (Option CommitCmd)
  | [.sent _ cmd, .closed _] => some (some cmd)
  | [.cancelled _] => some none
  | _ => none

/-- The record of the server is that of the channels, between two operations. -/
structure Shows (server : KVServer β γ) (s : CommitSubs) : Prop where
  subs : server.commitSubs = s.commitSubs
  closed : ∀ ch, server.closed.lookup ch = channelOutcome (opsOn ch s.trace)
  idle : s.handoffs = []

/-- Runs of the operations that use subscriptions, one after the other. The list has the
indices of the subscriptions, and the number is that of the next channel. -/
inductive ServerRun (codec : SnapshotCodec β) : KVServer β γ → List Int → Nat → Prop
  | new (id : Nat) (peerIds : List Int) (stored : Option γ) :
    ServerRun codec (.new id peerIds stored) [] 0
  | subscribe {server server' : KVServer β γ} {requested : List Int} {ch : Nat} {index : Int} :
    ServerRun codec server requested ch → index ∉ requested →
    (createCommitSubscription index ch).runAlone server = some (some ch, server') →
    ServerRun codec server' (requested ++ [index]) (ch + 1)
  | command {server server' : KVServer β γ} {requested : List Int} {ch : Nat} {env : Env}
      {cmd : Command} {index term : Int} :
    ServerRun codec server requested ch →
    (KVServer.handleCommand codec env (.known cmd) index term).runAlone server =
      some (some .done, server') →
    ServerRun codec server' requested ch
  | snapshot {server server' : KVServer β γ} {requested : List Int} {ch : Nat} {index : Int}
      {data : β} {order : RangeOrder Int} :
    ServerRun codec server requested ch →
    (KVServer.handleSnapshot codec index data order).runAlone server =
      some (some .done, server') →
    ServerRun codec server' requested ch

namespace ServerChannelLemmas

variable {server server' : KVServer β γ} {s s' : CommitSubs} {stages : List Stage} {ch : Nat}

/-- The operations on one channel change the outcome of that channel. -/
theorem channelOutcome_append {trace more : List ChanOp} (hnone : opsOn ch trace = [])
    (hwrites : ∀ op ∈ more, (op.sends ch || op.closes ch) = true) (k : Nat) :
    channelOutcome (opsOn k (trace ++ more)) =
      if k = ch then channelOutcome more else channelOutcome (opsOn k trace) := by
  rw [opsOn_append, opsOn_of_writes hwrites]
  split
  · next heq => rw [heq, hnone, List.nil_append]
  · rw [List.append_nil]

theorem opsOn_of_waiting (h : Owned s stages) {i : Int} (hi : s.commitSubs.lookup i = some ch) :
    opsOn ch s.trace = [] :=
  h.ops ((h.subs i ch).mp hi)

/-! ## Subscribing -/

theorem subscribe_eq {index : Int}
    (h : (createCommitSubscription index ch).runAlone server = some (some ch, server')) :
    index ∉ server.commitSubs ∧
      server' = { server with commitSubs := server.commitSubs.insert index ch } := by
  simp only [createCommitSubscription, runAlone_critical, runAlone_bind, runAlone_read,
    Option.bind_some] at h
  split at h
  · cases h
  · next hfree =>
    cases h
    exact ⟨hfree, rfl⟩

theorem shows_create (h : Shows server s) {index : Int} (hfree : index ∉ server.commitSubs) :
    Shows { server with commitSubs := server.commitSubs.insert index s.chans.length }
      (s.create index) := by
  rw [h.subs] at hfree ⊢
  rw [CommitSubs.create, if_neg hfree]
  exact ⟨rfl, h.closed, h.idle⟩

/-! ## Applying an entry -/

/-- Of the subscriptions, the step changes the trace only, by `op`. -/
structure Does (s s' : CommitSubs) (op : ChanOp) : Prop where
  commitSubs : s'.commitSubs = s.commitSubs
  requested : s'.requested = s.requested
  length : s'.chans.length = s.chans.length
  trace : s'.trace = s.trace ++ [op]

theorem send_first (h : Owned s stages) {cmd : CommitCmd} (hfirst : s.handoffs = [.send ch cmd]) :
    ∃ s', s.send 0 = some s' ∧ s'.handoffs = [.close ch] ∧ Does s s' (.sent ch cmd) := by
  have hmem : Handoff.send ch cmd ∈ s.handoffs := by simp [hfirst]
  obtain ⟨-, c, c', hc, hsend, -⟩ := h.send_done hmem
  simp only [CommitSubs.send, hfirst, List.getElem?_cons_zero, hc, hsend]
  exact ⟨_, rfl, rfl, rfl, rfl, List.length_set, rfl⟩

theorem close_first (h : Owned s stages) (hfirst : s.handoffs = [.close ch]) :
    ∃ s', s.close 0 = some s' ∧ s'.handoffs = [] ∧ Does s s' (.closed ch) := by
  have hmem : Handoff.close ch ∈ s.handoffs := by simp [hfirst]
  obtain ⟨cmd, -, c, hc, hopen, -⟩ := h.close_done hmem
  obtain ⟨c', -, -, hclose⟩ := closeChan_of_open hc hopen (.closed ch)
  refine ⟨{ s.closeChan ch (.closed ch) with handoffs := [] }, ?_, rfl, ?_⟩
  · simp only [CommitSubs.close, hfirst, List.getElem?_cons_zero, List.eraseIdx_zero,
      List.tail_cons]
  · rw [hclose]
    exact ⟨rfl, rfl, List.length_set, rfl⟩

/-- The pop, the send and the close of an entry that a handler waits for. -/
theorem delivered (h : commitChannels.ReachableBy DistinctIndices s) (hidle : s.handoffs = [])
    {index : Int} (hi : s.commitSubs.lookup index = some ch) (cmd : CommitCmd) :
    ∃ s', commitChannels.ReachableBy DistinctIndices s' ∧
      s'.commitSubs = s.commitSubs.erase index ∧ s'.handoffs = [] ∧
      s'.trace = s.trace ++ [.sent ch cmd, .closed ch] ∧ s'.requested = s.requested ∧
      s'.chans.length = s.chans.length := by
  have hpop : commitChannels.ReachableBy DistinctIndices (s.pop index cmd) :=
    .step (a := .pop index cmd) h trivial rfl
  have hpopped : (s.pop index cmd).handoffs = [.send ch cmd] := by
    simp [CommitSubs.pop, hidle, hi]
  obtain ⟨_, hown⟩ := owned_of_reachable hpop
  obtain ⟨s1, hsend, hsent, hdoes⟩ := send_first hown hpopped
  have hreach : commitChannels.ReachableBy DistinctIndices s1 :=
    .step (a := .send 0) hpop trivial hsend
  obtain ⟨_, hown'⟩ := owned_of_reachable hreach
  obtain ⟨s2, hclose, hclosed, hdoes'⟩ := close_first hown' hsent
  refine ⟨s2, .step (a := .close 0) hreach trivial hclose, ?_, hclosed, ?_, ?_, ?_⟩
  · exact hdoes'.commitSubs.trans hdoes.commitSubs
  · rw [hdoes'.trace, hdoes.trace, List.append_assoc]
    rfl
  · exact hdoes'.requested.trans hdoes.requested
  · exact hdoes'.length.trans hdoes.length

/-- An applied entry, whether a handler waits for it or not. -/
theorem shows_command (h : commitChannels.ReachableBy DistinctIndices s) (hshows : Shows server s)
    (codec : SnapshotCodec β) (env : Env) (cmd : Command) (index term : Int) :
    ∃ s', commitChannels.ReachableBy DistinctIndices s' ∧
      Shows (afterCommand codec env cmd index term server) s' ∧ s'.requested = s.requested ∧
      s'.chans.length = s.chans.length := by
  cases hi : s.commitSubs.lookup index with
  | none =>
    have hlookup : server.commitSubs.lookup index = none := by rw [hshows.subs, hi]
    refine ⟨s.pop index (server.service.handleCommand codec env cmd index).2.cmd,
      .step (a := .pop index _) h trivial rfl, ?_, rfl, rfl⟩
    refine ⟨?_, fun k => ?_, ?_⟩
    · rw [afterCommand, hshows.subs]
      rfl
    · simp only [afterCommand, hlookup, KVServer.notify]
      exact hshows.closed k
    · rw [pop_of_none hi]
      exact hshows.idle
  | some ch =>
    obtain ⟨_, hown⟩ := owned_of_reachable h
    obtain ⟨s', hreach, hsubs, hidle, htrace, hrequested, hlen⟩ := delivered h hshows.idle hi
      (server.service.handleCommand codec env cmd index).2.cmd
    refine ⟨s', hreach, ⟨?_, fun k => ?_, hidle⟩, hrequested, hlen⟩
    · rw [hsubs, ← hshows.subs]
      rfl
    · rw [htrace, channelOutcome_append (opsOn_of_waiting hown hi)
        (by simp [ChanOp.sends, ChanOp.closes])]
      simp only [afterCommand, hshows.subs, hi, KVServer.notify, Finmap.lookup_insert_ite,
        hshows.closed]
      rfl

/-! ## Restoring a snapshot -/

/-- A subscription that the snapshot covers. -/
theorem shows_cancelled (h : Owned s stages) (hshows : Shows server s) {index idx : Int}
    (hle : idx ≤ index) (hi : server.commitSubs.lookup idx = some ch) :
    Shows
      { server with
        closed := server.closed.insert ch none
        commitSubs := server.commitSubs.erase idx }
      (s.cancel index idx) := by
  rw [hshows.subs] at hi
  have hg := (h.subs idx ch).mp hi
  obtain ⟨c, hc⟩ := h.chan_of_stage hg
  obtain ⟨c', -, -, hclose⟩ := closeChan_of_open hc (h.chan hc hg).1 (.cancelled ch)
  simp only [CommitSubs.cancel, if_pos hle, hi, hclose]
  refine ⟨by rw [hshows.subs], fun k => ?_, hshows.idle⟩
  rw [channelOutcome_append (opsOn_of_waiting h hi) (by simp [ChanOp.closes])]
  simp only [Finmap.lookup_insert_ite, hshows.closed]
  rfl

theorem shows_restore (h : Owned s stages) (hshows : Shows server s) (index : Int)
    (order : RangeOrder Int) :
    Shows (server.cancelCovered index order) (s.restore index order) := by
  unfold KVServer.cancelCovered CommitSubs.restore
  rw [hshows.subs]
  generalize order.keys s.commitSubs.keys = keys
  induction keys generalizing server s stages with
  | nil => exact hshows
  | cons idx keys ih =>
    obtain ⟨stages', h'⟩ := h.cancel index idx
    refine ih h' ?_
    dsimp only
    split
    · next hle =>
      split
      · next ch hi => exact shows_cancelled h hshows hle hi
      · next hi =>
        rw [hshows.subs] at hi
        simp only [CommitSubs.cancel, if_pos hle, hi]
        exact hshows
    · next hgt =>
      rw [CommitSubs.cancel, if_neg hgt]
      exact hshows

theorem closeChan_frame (s : CommitSubs) (ch : Nat) (op : ChanOp) :
    (s.closeChan ch op).requested = s.requested ∧
      (s.closeChan ch op).chans.length = s.chans.length := by
  unfold CommitSubs.closeChan
  split
  · exact ⟨rfl, rfl⟩
  · split
    · exact ⟨rfl, List.length_set⟩
    · exact ⟨rfl, rfl⟩
    · exact ⟨rfl, rfl⟩

theorem cancel_frame (s : CommitSubs) (index idx : Int) :
    (s.cancel index idx).requested = s.requested ∧
      (s.cancel index idx).chans.length = s.chans.length := by
  unfold CommitSubs.cancel
  split
  · split
    · exact ⟨rfl, rfl⟩
    · next ch _ => exact closeChan_frame s ch (.cancelled ch)
  · exact ⟨rfl, rfl⟩

/-- A restore leaves the requests and the number of channels alone. -/
theorem restore_frame (s : CommitSubs) (index : Int) (order : RangeOrder Int) :
    (s.restore index order).requested = s.requested ∧
      (s.restore index order).chans.length = s.chans.length := by
  unfold CommitSubs.restore
  generalize order.keys s.commitSubs.keys = keys
  induction keys generalizing s with
  | nil => exact ⟨rfl, rfl⟩
  | cons idx keys ih =>
    obtain ⟨hrequested, hlen⟩ := cancel_frame s index idx
    rw [List.foldl_cons, (ih _).1, (ih _).2]
    exact ⟨hrequested, hlen⟩

theorem snapshot_eq {codec : SnapshotCodec β} {index : Int} {data : β} {order : RangeOrder Int}
    (h : (KVServer.handleSnapshot codec index data order).runAlone server =
      some (some .done, server')) :
    server' = server ∨ ∃ service,
      server' = { server with service := service }.cancelCovered index order := by
  unfold KVServer.handleSnapshot at h
  split at h
  · cases h
    exact .inl rfl
  · simp only [locked, runAlone_bind, runAlone_pure, runAlone_acquire, runAlone_release,
      runAlone_modifyGet, Option.bind_some, Option.some.injEq, Prod.mk.injEq] at h
    exact .inr ⟨_, h.2.symm⟩

end ServerChannelLemmas

open ServerChannelLemmas

/-- In every run of the operations on distinct indices, the record of the server is that of
channels in a reachable state. -/
theorem shows_of_serverRun {codec : SnapshotCodec β} {server : KVServer β γ} {requested : List Int}
    {ch : Nat} (h : ServerRun codec server requested ch) :
    ∃ s, commitChannels.ReachableBy DistinctIndices s ∧ Shows server s ∧ s.requested = requested ∧
      s.chans.length = ch := by
  induction h with
  | new id peerIds stored =>
    exact ⟨commitChannels.init, .init, ⟨rfl, fun _ => rfl, rfl⟩, rfl, rfl⟩
  | @subscribe server server' requested ch index _ hnew hrun ih =>
    obtain ⟨s, hreach, hshows, rfl, rfl⟩ := ih
    obtain ⟨hfree, rfl⟩ := subscribe_eq hrun
    have hfree' : index ∉ s.commitSubs := hshows.subs ▸ hfree
    refine ⟨s.create index, .step (a := .create index) hreach hnew rfl,
      shows_create hshows hfree, ?_, ?_⟩
    · rw [CommitSubs.create, if_neg hfree']
    · rw [CommitSubs.create, if_neg hfree', List.length_append, List.length_singleton]
  | @command server server' requested ch env cmd index term _ hrun ih =>
    obtain ⟨s, hreach, hshows, rfl, rfl⟩ := ih
    rw [LockingLemmas.runAlone_handleCommand] at hrun
    cases hrun
    exact shows_command hreach hshows codec env cmd index term
  | @snapshot server server' requested ch index data order _ hrun ih =>
    obtain ⟨s, hreach, hshows, rfl, rfl⟩ := ih
    rcases snapshot_eq hrun with rfl | ⟨service, rfl⟩
    · exact ⟨s, hreach, hshows, rfl, rfl⟩
    · obtain ⟨_, hown⟩ := owned_of_reachable hreach
      have hservice : Shows { server with service := service } s :=
        ⟨hshows.subs, hshows.closed, hshows.idle⟩
      exact ⟨s.restore index order, .step (a := .restore index order) hreach trivial rfl,
        shows_restore hown hservice index order, restore_frame s index order⟩

end Zodiac
