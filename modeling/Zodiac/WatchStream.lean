import Zodiac.Lib.Machine
import Zodiac.Watch

/-!
# From replay to live events

`handleWatch` subscribes first and replays the buffer afterwards, and
`pushWatchEvent` first fills the buffer and delivers afterwards. The two run
concurrently. Whatever the interleaving, an event reaches the watcher through
the buffer or through its channel.

* `watchStream`: one `handleWatch` call, the apply loop and other watchers, in
  atomic steps.
* `Provisos`: the channel has room at each delivery, and the buffer has not
  wrapped before the replay.
* `no_gap`: in every run that meets the provisos, the relevant events pushed so
  far are a sublist of what was written, is queued, or is about to be delivered.
-/

namespace Zodiac

/-! ## The machine -/

/-- Where the `handleWatch` call is; `id` is its subscription. -/
inductive WatcherState
  | starting
  | subscribed (id : Int)
  | streaming (id : Int)
deriving DecidableEq

/-- The subscription of the call, once it has one. -/
def WatcherState.sub? : WatcherState → Option Int
  | .starting => none
  | .subscribed id => some id
  | .streaming id => some id

/-- The service and one watcher. `inFlight` is the event that `pushWatchEvent`
has put into the buffer and not delivered yet; `pushed` and `written` record the
events pushed so far and the events written to the watcher. -/
structure WatchStream where
  hub : WatchHub
  inFlight : Option WatchEvent
  watcher : WatcherState
  pushed : List WatchEvent
  written : List WatchEvent

/-- Atomic steps. -/
inductive WatchStep
  /-- `eventBuf.Push`, the first half of `pushWatchEvent`. -/
  | push (e : WatchEvent)
  /-- The delivery loop, the second half. -/
  | deliver
  /-- `subscribeWatch`. -/
  | subscribe
  /-- `eventBuf.Replay` and the writes that follow. -/
  | replay
  /-- One round of the receive loop. -/
  | receive
  /-- Other watchers come, receive and go. -/
  | otherSubscribe (pre : String)
  | otherReceive (id : Int)
  | otherUnsubscribe (id : Int)

/-- The run of `handleWatch` with the given prefix and start revision. The apply
loop is one goroutine, so at most one event is in flight. -/
def watchStream (pre : String) (since : Int) : Machine WatchStream WatchStep where
  init := { hub := .new, inFlight := none, watcher := .starting, pushed := [], written := [] }
  step s
    | .push e =>
      match s.inFlight with
      | some _ => none
      | none => some { s with hub := s.hub.push e, inFlight := some e, pushed := s.pushed ++ [e] }
    | .deliver =>
      match s.inFlight with
      | none => none
      | some e => some { s with hub := s.hub.deliver e, inFlight := none }
    | .subscribe =>
      match s.watcher with
      | .starting =>
        let r := s.hub.subscribeWatch pre
        some { s with hub := r.1, watcher := .subscribed r.2 }
      | _ => none
    | .replay =>
      match s.watcher with
      | .subscribed id =>
        some { s with
          watcher := .streaming id
          written := s.written ++ Zodiac.replay s.hub.eventBuf since }
      | _ => none
    | .receive =>
      match s.watcher with
      | .streaming id =>
        match s.hub.receive id with
        | none => none
        | some (e, hub) => some { s with hub := hub, written := s.written ++ [e] }
      | _ => none
    | .otherSubscribe pre' => some { s with hub := (s.hub.subscribeWatch pre').1 }
    | .otherReceive id =>
      if s.watcher.sub? = some id then none
      else match s.hub.receive id with
        | none => none
        | some (_, hub) => some { s with hub := hub }
    | .otherUnsubscribe id =>
      if s.watcher.sub? = some id then none else some { s with hub := s.hub.unsubscribeWatch id }

/-- The assumptions on a run: at a delivery the watcher's channel is not full,
and before the replay fewer events were pushed than the buffer holds. -/
def Provisos (s : WatchStream) : WatchStep → Prop
  | .deliver => ∀ sub ∈ s.watcher.sub?.bind fun id => s.hub.watchSubs.lookup id,
      sub.ch.length < watchChanSize
  | .replay => s.pushed.length < eventBufferSize
  | _ => True

instance (s : WatchStream) : (a : WatchStep) → Decidable (Provisos s a)
  | .deliver => inferInstanceAs (Decidable
      (∀ sub ∈ s.watcher.sub?.bind fun id => s.hub.watchSubs.lookup id, _ < _))
  | .replay => inferInstanceAs (Decidable (_ < _))
  | .push _ | .subscribe | .receive | .otherSubscribe _ | .otherReceive _ | .otherUnsubscribe _ =>
    inferInstanceAs (Decidable True)

/-- The events that the watcher asked for. -/
def wanted (pre : String) (since : Int) (e : WatchEvent) : Bool :=
  decide (e.revision > since) && hasPrefix e.key pre

namespace WatchStreamLemmas

/-! ## What each step does -/

theorem hub_receive {hub hub' : WatchHub} {id : Int} {e : WatchEvent}
    (h : hub.receive id = some (e, hub')) :
    ∃ sub sub', hub.watchSubs.lookup id = some sub ∧ sub.receive = some (e, sub') ∧
      hub' = { hub with watchSubs := hub.watchSubs.insert id sub' } := by
  unfold WatchHub.receive at h
  split at h
  · cases h
  · next sub hsub =>
    split at h
    · cases h
    · next e' sub' hrecv =>
      cases h
      exact ⟨sub, sub', hsub, hrecv, rfl⟩

/-- The enabled steps. Those of other watchers are one case: they leave the buffer and
the issued ids, and touch no subscription but their own. -/
inductive StepsTo (pre : String) (since : Int) (s : WatchStream) : WatchStep → WatchStream → Prop
  | push (e : WatchEvent) : s.inFlight = none → StepsTo pre since s (.push e)
      { s with hub := s.hub.push e, inFlight := some e, pushed := s.pushed ++ [e] }
  | deliver {e : WatchEvent} : s.inFlight = some e → StepsTo pre since s .deliver
      { s with hub := s.hub.deliver e, inFlight := none }
  | subscribe : s.watcher = .starting → StepsTo pre since s .subscribe
      { s with
        hub := (s.hub.subscribeWatch pre).1
        watcher := .subscribed (s.hub.subscribeWatch pre).2 }
  | replay {id : Int} : s.watcher = .subscribed id → StepsTo pre since s .replay
      { s with
        watcher := .streaming id
        written := s.written ++ Zodiac.replay s.hub.eventBuf since }
  | receive {id : Int} {e : WatchEvent} {hub : WatchHub} : s.watcher = .streaming id →
      s.hub.receive id = some (e, hub) → StepsTo pre since s .receive
      { s with hub := hub, written := s.written ++ [e] }
  | other {a : WatchStep} {hub : WatchHub} : hub.eventBuf = s.hub.eventBuf →
      s.hub.watchSeq ≤ hub.watchSeq →
      (∀ id, s.watcher.sub? = some id → id ≤ s.hub.watchSeq →
        hub.watchSubs.lookup id = s.hub.watchSubs.lookup id) →
      StepsTo pre since s a { s with hub := hub }

theorem stepsTo_of_step {pre : String} {since : Int} {s s' : WatchStream} {a : WatchStep}
    (hstep : (watchStream pre since).step s a = some s') : StepsTo pre since s a s' := by
  cases a with
  | push e =>
    simp only [watchStream] at hstep
    split at hstep
    · cases hstep
    · next hfree => cases hstep; exact .push e hfree
  | deliver =>
    simp only [watchStream] at hstep
    split at hstep
    · cases hstep
    · next hfly => cases hstep; exact .deliver hfly
  | subscribe =>
    simp only [watchStream] at hstep
    split at hstep
    · next hw => cases hstep; exact .subscribe hw
    · cases hstep
  | replay =>
    simp only [watchStream] at hstep
    split at hstep
    · next hw => cases hstep; exact .replay hw
    · cases hstep
  | receive =>
    simp only [watchStream] at hstep
    split at hstep
    · next hw =>
      split at hstep
      · cases hstep
      · next hrecv => cases hstep; exact .receive hw hrecv
    · cases hstep
  | otherSubscribe pre' =>
    cases hstep
    refine .other rfl (by simp [WatchHub.subscribeWatch]) fun id _ hle => ?_
    exact Finmap.lookup_insert_of_ne _ (by omega)
  | otherReceive id =>
    simp only [watchStream] at hstep
    split at hstep
    · cases hstep
    · next hne =>
      split at hstep
      · cases hstep
      · next hrecv =>
        cases hstep
        obtain ⟨_, _, _, _, rfl⟩ := hub_receive hrecv
        exact .other rfl le_rfl fun id' hid _ =>
          Finmap.lookup_insert_of_ne _ fun heq => hne (heq ▸ hid)
  | otherUnsubscribe id =>
    simp only [watchStream] at hstep
    split at hstep
    · cases hstep
    · next hne =>
      cases hstep
      exact .other rfl le_rfl fun id' hid _ => Finmap.lookup_erase_ne fun heq => hne (heq ▸ hid)

/-! ## The invariant -/

/-- What holds along a run that meets the provisos. -/
structure Covered (pre : String) (since : Int) (s : WatchStream) : Prop where
  buffer : s.hub.eventBuf = newEventBuffer.pushAll s.pushed
  subscribed : ∀ id, s.watcher.sub? = some id →
    id ≤ s.hub.watchSeq ∧ ∃ sub, s.hub.watchSubs.lookup id = some sub ∧ sub.pre = pre
  covered : ∀ id sub, s.watcher = .streaming id → s.hub.watchSubs.lookup id = some sub →
    (s.pushed.filter (wanted pre since)).Sublist
      (s.written ++ sub.ch ++ s.inFlight.toList.filter (wanted pre since))

variable {pre : String} {since : Int} {s : WatchStream}

/-- Wanted events pass both tests. -/
theorem filter_wanted_sublist (es : List WatchEvent) :
    (es.filter (wanted pre since)).Sublist (es.filter fun e => decide (e.revision > since)) ∧
    (es.filter (wanted pre since)).Sublist (es.filter fun e => hasPrefix e.key pre) :=
  ⟨List.monotone_filter_right es fun _ h => (Bool.and_eq_true_iff.mp h).1,
    List.monotone_filter_right es fun _ h => (Bool.and_eq_true_iff.mp h).2⟩

theorem Covered.init : Covered pre since (watchStream pre since).init where
  buffer := rfl
  subscribed _ h := nomatch h
  covered _ _ h := nomatch h

theorem Covered.push (h : Covered pre since s) (e : WatchEvent) (hfree : s.inFlight = none) :
    Covered pre since
      { s with hub := s.hub.push e, inFlight := some e, pushed := s.pushed ++ [e] } where
  buffer := by
    simp only [WatchHub.push, h.buffer, RingBuffer.pushAll, List.foldl_concat]
  subscribed := h.subscribed
  covered id sub hw hsub := by
    have hold := h.covered id sub hw hsub
    rw [hfree, Option.toList_none, List.filter_nil, List.append_nil] at hold
    rw [List.filter_append]
    exact hold.append (List.Sublist.refl _)

theorem Covered.deliver (h : Covered pre since s) {e : WatchEvent} (hfly : s.inFlight = some e)
    (hroom : Provisos s .deliver) :
    Covered pre since { s with hub := s.hub.deliver e, inFlight := none } where
  buffer := h.buffer
  subscribed id hw := by
    obtain ⟨hle, sub, hsub, hpre⟩ := h.subscribed id hw
    refine ⟨hle, sub.deliver e, ?_, by rw [WatchSub.deliver_pre]; exact hpre⟩
    simp only [WatchHub.deliver, Finmap.lookup_mapVal, hsub, Option.map_some]
  covered id sub' hw hsub' := by
    obtain ⟨_, sub, hsub, hpre⟩ := h.subscribed id (by rw [hw]; rfl)
    simp only [WatchHub.deliver, Finmap.lookup_mapVal, hsub, Option.map_some] at hsub'
    cases hsub'
    have hold := h.covered id sub hw hsub
    rw [WatchSub.deliver_ch e (hroom sub (by rw [hw]; exact hsub)), hpre, Option.toList_none,
      List.filter_nil, List.append_nil, ← List.append_assoc]
    rw [hfly, Option.toList_some] at hold
    -- what the watcher wants of the event in flight is among what it is sent
    exact hold.trans (List.Sublist.append_left (filter_wanted_sublist [e]).2 _)

theorem Covered.subscribe (h : Covered pre since s) :
    Covered pre since { s with
      hub := (s.hub.subscribeWatch pre).1
      watcher := .subscribed (s.hub.subscribeWatch pre).2 } where
  buffer := h.buffer
  subscribed id hid := by
    cases hid
    exact ⟨le_rfl, newWatchSub pre, Finmap.lookup_insert _, rfl⟩
  covered _ _ hw := nomatch hw

theorem Covered.replay (h : Covered pre since s) {id : Int} (hw : s.watcher = .subscribed id)
    (hroom : Provisos s .replay) :
    Covered pre since { s with
      watcher := .streaming id
      written := s.written ++ Zodiac.replay s.hub.eventBuf since } where
  buffer := h.buffer
  subscribed id' hid := h.subscribed id' (by rw [hw]; exact hid)
  covered id' sub _ _ := by
    have hall : Zodiac.replay s.hub.eventBuf since =
        s.pushed.filter fun e => decide (e.revision > since) := by
      have hsize : s.pushed.length < eventBufferSize := hroom
      rw [h.buffer, replay_pushAll, Nat.sub_eq_zero_of_le (Nat.le_of_lt hsize), List.drop_zero]
    refine (filter_wanted_sublist s.pushed).1.trans ?_
    rw [← hall, List.append_assoc, List.append_assoc]
    exact (List.sublist_append_left _ _).trans (List.sublist_append_right _ _)

theorem Covered.receive (h : Covered pre since s) {id : Int} (hw : s.watcher = .streaming id)
    {e : WatchEvent} {hub : WatchHub} (hrecv : s.hub.receive id = some (e, hub)) :
    Covered pre since { s with hub := hub, written := s.written ++ [e] } := by
  obtain ⟨sub, sub', hsub, hch, rfl⟩ := hub_receive hrecv
  obtain ⟨hqueue, hpre⟩ := WatchSub.receive_eq_some hch
  obtain ⟨hle, _, hsub', hpre'⟩ := h.subscribed id (by rw [hw]; rfl)
  rw [hsub] at hsub'
  cases hsub'
  refine ⟨h.buffer, ?_, ?_⟩
  · intro id' hid
    obtain rfl : id = id' := by rw [hw] at hid; exact Option.some.inj hid
    exact ⟨hle, sub', Finmap.lookup_insert _, hpre.trans hpre'⟩
  · intro id' sub'' hid hsub''
    obtain rfl : id = id' := by rw [hw] at hid; exact WatcherState.streaming.inj hid
    have hold := h.covered id sub hw hsub
    rw [Finmap.lookup_insert] at hsub''
    cases hsub''
    -- the event moves from the head of the queue to the end of the written part
    rwa [hqueue, List.append_cons] at hold

/-- Steps of other watchers leave the buffer and this subscription alone. -/
theorem Covered.other (h : Covered pre since s) {hub : WatchHub}
    (hbuf : hub.eventBuf = s.hub.eventBuf) (hseq : s.hub.watchSeq ≤ hub.watchSeq)
    (hsame : ∀ id, s.watcher.sub? = some id →
      hub.watchSubs.lookup id = s.hub.watchSubs.lookup id) :
    Covered pre since { s with hub := hub } where
  buffer := hbuf.trans h.buffer
  subscribed id hid := by
    obtain ⟨hle, hsub⟩ := h.subscribed id hid
    exact ⟨le_trans hle hseq, by rw [hsame id hid]; exact hsub⟩
  covered id sub hid hsub := by
    rw [hsame id (by rw [hid]; rfl)] at hsub
    exact h.covered id sub hid hsub

theorem Covered.step (h : Covered pre since s) {a : WatchStep} {s' : WatchStream}
    (hprov : Provisos s a) (hstep : (watchStream pre since).step s a = some s') :
    Covered pre since s' := by
  cases stepsTo_of_step hstep with
  | push e hfree => exact h.push e hfree
  | deliver hfly => exact h.deliver hfly hprov
  | subscribe _ => exact h.subscribe
  | replay hw => exact h.replay hw hprov
  | receive hw hrecv => exact h.receive hw hrecv
  | other hbuf hseq hsame =>
    exact h.other hbuf hseq fun id hid => hsame id hid (h.subscribed id hid).1

end WatchStreamLemmas

open WatchStreamLemmas

/-- No gap between replay and live stream. In every run that meets the provisos,
once the watcher has replayed the buffer, the pushed events that it wants are, in
order and each at least once, among the events written to it and those queued in
its channel; only the event in flight may still be missing. -/
theorem no_gap {pre : String} {since : Int} {s : WatchStream}
    (h : (watchStream pre since).ReachableBy Provisos s) {id : Int}
    (hw : s.watcher = .streaming id) :
    ∃ sub, s.hub.watchSubs.lookup id = some sub ∧
      (s.pushed.filter (wanted pre since)).Sublist
        (s.written ++ sub.ch ++ s.inFlight.toList.filter (wanted pre since)) := by
  have hinv : Covered pre since s :=
    h.invariant Covered.init fun _ _ _ _ hinv hprov hstep => hinv.step hprov hstep
  obtain ⟨_, sub, hsub, _⟩ := hinv.subscribed id (by rw [hw]; rfl)
  exact ⟨sub, hsub, hinv.covered id sub hw hsub⟩

/-- The two events of the run below. -/
def firstEvent : WatchEvent := { key := "a", value := "x", revision := 1, type := .put }

def secondEvent : WatchEvent := { key := "ab", value := "y", revision := 2, type := .put }

/-- The watcher subscribes between push and delivery of the first event and
replays between push and delivery of the second. -/
def overlappingRun : List WatchStep :=
  [.push firstEvent, .subscribe, .deliver, .push secondEvent, .replay, .deliver, .receive]

/-- In `overlappingRun` the watcher gets both events, the first one twice. -/
theorem no_gap_overlapping :
    ∃ s, (watchStream "a" 0).ReachableBy Provisos s ∧ s.watcher = .streaming 1 ∧
      s.written = [firstEvent, secondEvent, firstEvent] ∧
      ∃ sub, s.hub.watchSubs.lookup 1 = some sub ∧
        [firstEvent, secondEvent].Sublist (s.written ++ sub.ch) := by
  obtain ⟨s, hreach, hs⟩ := Machine.exists_reachableBy (M := watchStream "a" 0) (G := Provisos)
    overlappingRun (fun s => (s.watcher, s.inFlight, s.pushed, s.written))
    (x := (.streaming 1, none, [firstEvent, secondEvent], [firstEvent, secondEvent, firstEvent]))
    (by decide)
  simp only [Prod.mk.injEq] at hs
  obtain ⟨hw, hfly, hpushed, hwritten⟩ := hs
  obtain ⟨sub, hsub, hgap⟩ := no_gap hreach hw
  rw [hfly, hpushed, Option.toList_none, List.filter_nil, List.append_nil] at hgap
  exact ⟨s, hreach, hw, hwritten, sub, hsub, hgap⟩

end Zodiac
