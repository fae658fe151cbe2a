import Zodiac.EventStream
import Zodiac.Lib.Fairness
import Zodiac.Mirror
import Zodiac.Revision
import Zodiac.WatchQuery

/-!
# Watchers catch up

`no_gap` says that an event which a watcher asked for is written, queued or about to be
delivered. Here the run goes on for ever, and the goroutines of the watch are not left
behind: `handleWatch` gets to subscribe, to replay and to receive, and the apply loop to
deliver. Then every such event is written, while more events keep coming, and a client that
lists and watches ends up with the keys of the service once no more events come. The watch
goes over the wire both ways: the client's request in a URL, the events in lines of text.

* `watcherSteps`: the steps that are taken in the end.
* `requested`, `Sendable`: the request on its way to the node.
* `Flows`: what a streaming watcher has been sent, and what waits in its channel.
* `eventually_sent`: what waits is sent.
* `events_arrive`: every event that the watcher asked for is written, in order.
* `watch_converges`: the copy of a client that lists and watches becomes right and stays so.
-/

namespace Zodiac

open Machine

/-! ## Definitions -/

/-- The steps of `handleWatch`, and the delivery of `pushWatchEvent`. -/
def watcherSteps : List WatchStep := [.subscribe, .replay, .deliver, .receive]

/-- The prefix and the revision that `handleWatch` gets from the request of `Watch`, or none
if the request does not arrive or is refused. -/
def requested (pre : String) (since : Int) : Option (String × Int) :=
  (deliveredQuery (watchPath (utf8 pre) since)).bind fun query =>
    match watchParams query "" with
    | (bytes, .ok since) => (decodeText bytes).map fun pre => (pre, since)
    | (_, .error _) => none

/-- The prefix can be put into a URL as it is, which is what `Watch` does. -/
def Sendable (pre : Bytes) : Prop :=
  Plain pre ∧ UrlQuery.space ∉ pre ∧ pre.any isControl = false

/-- The step pushes no event. -/
def Quiet : WatchStep → Prop
  | .push _ => False
  | _ => True

namespace WatchProgressLemmas

open WatchStreamLemmas MirrorLemmas

variable {pre : String} {since : Int} {s s' : WatchStream} {a : WatchStep} {W : List WatchEvent}

/-! ## Growing streams -/

theorem written_step (h : (watchStream pre since).step s a = some s') :
    s.written <+: s'.written := by
  cases stepsTo_of_step h with
  | replay | receive => exact List.prefix_append _ _
  | push | deliver | subscribe | other => exact List.prefix_rfl

theorem pushed_step (h : (watchStream pre since).step s a = some s') : s.pushed <+: s'.pushed := by
  cases stepsTo_of_step h with
  | push => exact List.prefix_append _ _
  | deliver | subscribe | replay | receive | other => exact List.prefix_rfl

theorem pushed_quiet (hquiet : Quiet a) (h : (watchStream pre since).step s a = some s') :
    s'.pushed = s.pushed ∧ (s.inFlight = none → s'.inFlight = none) := by
  cases stepsTo_of_step h with
  | push => exact absurd hquiet id
  | deliver => exact ⟨rfl, fun _ => rfl⟩
  | subscribe | replay | receive | other => exact ⟨rfl, fun hidle => hidle⟩

/-- A delivery appends to the channel, or drops the event. -/
theorem ch_deliver (sub : WatchSub) (e : WatchEvent) : sub.ch <+: (sub.deliver e).ch := by
  unfold WatchSub.deliver WatchSub.send
  split
  · split
    · exact List.prefix_append _ _
    · exact List.prefix_rfl
  · exact List.prefix_rfl

/-! ## A streaming watcher -/

/-- The watcher streams, and `W` is a first part of what it has been sent and of what waits in
its channel. -/
def Flows (W : List WatchEvent) (s : WatchStream) : Prop :=
  ∃ id sub, s.watcher = .streaming id ∧ s.hub.watchSubs.lookup id = some sub ∧
    W <+: s.written ++ sub.ch

/-- A receive moves the first event of the channel, and only a delivery adds to it. -/
theorem stream_step (hshape : Shape pre since s) {id : Int} {sub : WatchSub}
    (hw : s.watcher = .streaming id) (hsub : s.hub.watchSubs.lookup id = some sub)
    (hstep : (watchStream pre since).step s a = some s') :
    ∃ sub', s'.watcher = .streaming id ∧ s'.hub.watchSubs.lookup id = some sub' ∧
      s.written ++ sub.ch <+: s'.written ++ sub'.ch ∧
      (s.inFlight = none → s'.written ++ sub'.ch = s.written ++ sub.ch) := by
  cases stepsTo_of_step hstep with
  | push e => exact ⟨sub, hw, hsub, List.prefix_rfl, fun _ => rfl⟩
  | @deliver e hfly =>
    refine ⟨sub.deliver e, hw, ?_, ?_, fun hidle => ?_⟩
    · simp only [WatchHub.deliver, Finmap.lookup_mapVal, hsub, Option.map_some]
    · exact (List.prefix_append_right_inj _).mpr (ch_deliver sub e)
    · rw [hfly] at hidle
      cases hidle
  | subscribe hstart =>
    rw [hw] at hstart
    cases hstart
  | replay hsubscribed =>
    rw [hw] at hsubscribed
    cases hsubscribed
  | @receive id' e hub hstream hrecv =>
    rw [hw] at hstream
    cases hstream
    obtain ⟨sub₀, sub', hsub₀, hch, rfl⟩ := hub_receive hrecv
    rw [hsub] at hsub₀
    cases hsub₀
    have hmoved : s.written ++ [e] ++ sub'.ch = s.written ++ sub.ch := by
      rw [(WatchSub.receive_eq_some hch).1, ← List.append_cons]
    exact ⟨sub', hw, Finmap.lookup_insert _, hmoved ▸ List.prefix_rfl, fun _ => hmoved⟩
  | other _ _ hsame =>
    have hid : s.watcher.sub? = some id := by rw [hw]; rfl
    exact ⟨sub, hw, (hsame id hid (hshape.issued id hid)).trans hsub, List.prefix_rfl, fun _ => rfl⟩

theorem Flows.step (hshape : Shape pre since s) (h : Flows W s)
    (hstep : (watchStream pre since).step s a = some s') : Flows W s' := by
  obtain ⟨id, sub, hw, hsub, hW⟩ := h
  obtain ⟨sub', hw', hsub', hgrows, -⟩ := stream_step hshape hw hsub hstep
  exact ⟨id, sub', hw', hsub', hW.trans hgrows⟩

/-- A channel with an event in it can be received from. -/
theorem receive_enabled {id : Int} {sub : WatchSub} (hw : s.watcher = .streaming id)
    (hsub : s.hub.watchSubs.lookup id = some sub) (hch : sub.ch ≠ []) :
    (watchStream pre since).step s .receive ≠ none := by
  have hrecv : ∃ x, sub.receive = some x := by
    unfold WatchSub.receive
    split
    · next hnil => exact absurd hnil hch
    · exact ⟨_, rfl⟩
  obtain ⟨⟨e, sub'⟩, hx⟩ := hrecv
  simp [watchStream, hw, WatchHub.receive, hsub, hx]

theorem receive_step (h : (watchStream pre since).step s .receive = some s') :
    ∃ e, s'.written = s.written ++ [e] := by
  simp only [watchStream] at h
  split at h
  · split at h
    · cases h
    · next e hub _ =>
      cases h
      exact ⟨e, rfl⟩
  · cases h

theorem subscribe_step (h : (watchStream pre since).step s .subscribe = some s') :
    ∃ id, s'.watcher = .subscribed id := by
  simp only [watchStream] at h
  split at h
  · cases h
    exact ⟨_, rfl⟩
  · cases h

theorem replay_step (h : (watchStream pre since).step s .replay = some s') :
    ∃ id, s'.watcher = .streaming id := by
  simp only [watchStream] at h
  split at h
  · next id _ =>
    cases h
    exact ⟨id, rfl⟩
  · cases h

theorem deliver_step (h : (watchStream pre since).step s .deliver = some s') :
    s'.inFlight = none := by
  simp only [watchStream] at h
  split at h
  · cases h
  · cases h
    rfl

/-- The watcher moves on in two steps only. -/
theorem watcher_step (hsubscribe : a ≠ .subscribe) (hreplay : a ≠ .replay)
    (h : (watchStream pre since).step s a = some s') : s'.watcher = s.watcher := by
  cases stepsTo_of_step h with
  | push | deliver | receive | other => rfl
  | subscribe => exact absurd rfl hsubscribe
  | replay => exact absurd rfl hreplay

/-! ## Progress -/

section Progress

variable {r : (watchStream pre since).Run} {t : Nat}

/-- A run without a gap. -/
abbrev Reach (pre : String) (since : Int) (s : WatchStream) : Prop :=
  (watchStream pre since).ReachableBy (Gapless since) s

/-- A step of the watcher that stays enabled until it is taken. -/
theorem eventually_moves {P Q : WatchStream → Prop} {b : WatchStep} (hfair : r.Fair (· = b))
    (henabled : ∀ {s}, P s → (watchStream pre since).step s b ≠ none)
    (htaken : ∀ {s s'}, P s → Gapless since s b → (watchStream pre since).step s b = some s' → Q s')
    (hother : ∀ {s a s'}, P s → Gapless since s a → a ≠ b →
      (watchStream pre since).step s a = some s' → Q s' ∨ P s')
    (hgapless : r.MeetsFrom 0 (Gapless since)) (hP : P (r.state t)) :
    ∃ u, t ≤ u ∧ Q (r.state u) := by
  refine Run.eventually_of_fair (P := P) (Q := Q) hfair (fun hs => ⟨b, rfl, henabled hs⟩) ?_
    (hgapless.later (Nat.zero_le t)) hP
  intro s a s' hs hguard hstep
  by_cases hab : a = b
  · subst hab
    exact .inl (htaken hs hguard hstep)
  · exact (hother hs hguard hab hstep).imp_right fun hs' => ⟨hs', hab⟩

/-- The watcher gets to stream. -/
theorem eventually_streaming (hgapless : r.MeetsFrom 0 (Gapless since))
    (hfair : ∀ a ∈ watcherSteps, r.Fair (· = a)) (t : Nat) :
    ∃ u, t ≤ u ∧ ∃ id, (r.state u).watcher = .streaming id := by
  have hreplays : ∀ {v id}, (r.state v).watcher = .subscribed id →
      ∃ u, v ≤ u ∧ ∃ id, (r.state u).watcher = .streaming id := by
    intro v id hv
    refine eventually_moves (P := fun s => s.watcher = .subscribed id)
      (Q := fun s => ∃ id, s.watcher = .streaming id) (hfair .replay (by simp [watcherSteps]))
      (fun hs => by simp [watchStream, hs]) (fun _ _ => replay_step) ?_ hgapless hv
    intro s a s' hs _ hne hstep
    by_cases hsub : a = .subscribe
    · subst hsub
      simp [watchStream, hs] at hstep
    · exact .inr ((watcher_step hsub hne hstep).trans hs)
  cases hw : (r.state t).watcher with
  | streaming id => exact ⟨t, le_rfl, id, hw⟩
  | subscribed id => exact hreplays hw
  | starting =>
    obtain ⟨v, htv, id, hv⟩ : ∃ v, t ≤ v ∧ ∃ id, (r.state v).watcher = .subscribed id := by
      refine eventually_moves (P := fun s => s.watcher = .starting)
        (Q := fun s => ∃ id, s.watcher = .subscribed id) (hfair .subscribe (by simp [watcherSteps]))
        (fun hs => by simp [watchStream, hs]) (fun _ _ => subscribe_step) ?_ hgapless hw
      intro s a s' hs _ hne hstep
      by_cases hrep : a = .replay
      · subst hrep
        simp [watchStream, hs] at hstep
      · exact .inr ((watcher_step hne hrep hstep).trans hs)
    obtain ⟨u, hvu, hu⟩ := hreplays hv
    exact ⟨u, Nat.le_trans htv hvu, hu⟩

/-- The watcher streams and nothing is in flight. -/
structure AtRest (pre : String) (since : Int) (s : WatchStream) : Prop where
  reach : Reach pre since s
  streams : Flows [] s
  idle : s.inFlight = none

/-- A streaming watcher has its subscription. -/
theorem flows_of_streaming (hreach : Reach pre since s) {id : Int}
    (hw : s.watcher = .streaming id) : Flows [] s := by
  obtain ⟨delivered, -, hsent⟩ := (shape_of_reachable hreach).sent
  obtain ⟨sub, k, hsub, -⟩ := hsent id (by rw [hw]; rfl)
  exact ⟨id, sub, hw, hsub, List.nil_prefix⟩

theorem eventually_atRest (hgapless : r.MeetsFrom 0 (Gapless since))
    (hfair : ∀ a ∈ watcherSteps, r.Fair (· = a)) (t : Nat) :
    ∃ u, t ≤ u ∧ AtRest pre since (r.state u) := by
  obtain ⟨v, htv, id, hw⟩ := eventually_streaming hgapless hfair t
  have hreach := Run.reachableBy hgapless
  have hflows := flows_of_streaming (hreach v) hw
  by_cases hidle : (r.state v).inFlight = none
  · exact ⟨v, htv, hreach v, hflows, hidle⟩
  · suffices hmove : ∃ u, v ≤ u ∧ AtRest pre since (r.state u) by
      obtain ⟨u, hvu, hu⟩ := hmove
      exact ⟨u, Nat.le_trans htv hvu, hu⟩
    refine eventually_moves (Q := AtRest pre since)
      (P := fun s => Reach pre since s ∧ Flows [] s ∧ s.inFlight ≠ none)
      (hfair .deliver (by simp [watcherSteps])) ?_ ?_ ?_ hgapless ⟨hreach v, hflows, hidle⟩
    · rintro s ⟨-, -, hbusy⟩
      obtain ⟨e, he⟩ := Option.ne_none_iff_exists'.mp hbusy
      simp [watchStream, he]
    · rintro s s' ⟨hs, hf, -⟩ hguard hstep
      exact ⟨hs.step hguard hstep, hf.step (shape_of_reachable hs) hstep, deliver_step hstep⟩
    · rintro s a s' ⟨hs, hf, -⟩ hguard _ hstep
      have hs' := hs.step hguard hstep
      have hf' := hf.step (shape_of_reachable hs) hstep
      by_cases hnone : s'.inFlight = none
      · exact .inl ⟨hs', hf', hnone⟩
      · exact .inr ⟨hs', hf', hnone⟩

/-- What waits is sent: each receive brings the watcher nearer to the end of `W`. -/
theorem eventually_sent (hgapless : r.MeetsFrom 0 (Gapless since)) (hfair : r.Fair (· = .receive))
    (hflows : Flows W (r.state t)) : ∃ u, t ≤ u ∧ W <+: (r.state u).written := by
  have hreach := Run.reachableBy hgapless
  have hranked : (watchStream pre since).Ranked (Gapless since) (fun _ : Unit => (· = .receive))
      (fun s => W.length - s.written.length) (fun _ => ())
      (fun s => Reach pre since s ∧ Flows W s ∧ s.written.length < W.length)
      (fun s => W <+: s.written) := by
    constructor
    · rintro s ⟨-, ⟨id, sub, hw, hsub, hW⟩, hlt⟩
      refine ⟨.receive, rfl, receive_enabled hw hsub fun hnil => ?_⟩
      rw [hnil, List.append_nil] at hW
      exact absurd hW.length_le (Nat.not_le.mpr hlt)
    · rintro s a s' ⟨hs, hf, hlt⟩ hguard hstep
      have hf' := hf.step (shape_of_reachable hs) hstep
      have hle := (written_step hstep).length_le
      by_cases hlt' : s'.written.length < W.length
      · refine .inr ⟨⟨hs.step hguard hstep, hf', hlt'⟩, ?_⟩
        by_cases ha : a = .receive
        · subst ha
          obtain ⟨e, he⟩ := receive_step hstep
          rw [he, List.length_append, List.length_singleton] at hlt' ⊢
          exact .inl (by omega)
        · rcases Nat.lt_or_eq_of_le hle with hmore | hsame
          · exact .inl (by omega)
          · exact .inr ⟨by rw [hsame], rfl, ha⟩
      · obtain ⟨id, sub, -, -, hW⟩ := hf'
        exact .inl (List.prefix_of_prefix_length_le hW (List.prefix_append _ _)
          (Nat.not_lt.mp hlt'))
  by_cases hlt : (r.state t).written.length < W.length
  · exact Run.eventually_of_ranked hranked (fun _ => hfair) (hgapless.later (Nat.zero_le t))
      ⟨hreach t, hflows, hlt⟩
  · obtain ⟨id, sub, -, -, hW⟩ := hflows
    exact ⟨t, le_rfl, List.prefix_of_prefix_length_le hW (List.prefix_append _ _)
      (Nat.not_lt.mp hlt)⟩

theorem written_mono {u v : Nat} (huv : u ≤ v) : (r.state u).written <+: (r.state v).written :=
  Run.always_of_step (G := fun _ _ => True) (P := fun s => (r.state u).written <+: s.written)
    (fun _ _ _ _ => trivial) List.prefix_rfl (fun _ h _ hstep => h.trans (written_step hstep)) huv

theorem pushed_mono {u v : Nat} (huv : u ≤ v) : (r.state u).pushed <+: (r.state v).pushed :=
  Run.always_of_step (G := fun _ _ => True) (P := fun s => (r.state u).pushed <+: s.pushed)
    (fun _ _ _ _ => trivial) List.prefix_rfl (fun _ h _ hstep => h.trans (pushed_step hstep)) huv

end Progress

/-- With nothing in flight, what a streaming watcher asked for has been sent or waits. -/
theorem wanted_sublist (h : AtRest pre since s) :
    ∃ W, Flows W s ∧ (s.pushed.filter (wanted pre since)).Sublist W := by
  obtain ⟨id, sub, hw, hsub, -⟩ := h.streams
  refine ⟨s.written ++ sub.ch, ⟨id, sub, hw, hsub, List.prefix_rfl⟩, ?_⟩
  obtain ⟨k, m, hkm, hwritten⟩ := streaming_shape h.reach h.idle hw hsub
  rw [hwritten]
  -- the replay has the newer ones of the first `m` events, the channel those from `m` on
  conv_lhs => rw [← List.take_append_drop m s.pushed, List.filter_append]
  refine List.Sublist.append ?_ ?_
  · refine List.monotone_filter_right _ fun e he => ?_
    exact (Bool.and_eq_true_iff.mp he).1
  · refine (List.monotone_filter_right _ fun e he => (Bool.and_eq_true_iff.mp he).2).trans ?_
    refine List.Sublist.filter _ ?_
    obtain ⟨d, rfl⟩ := Nat.exists_eq_add_of_le hkm
    rw [← List.drop_drop]
    exact List.drop_sublist _ _

/-- The watcher is behind by a last part of `W`, and nothing is on its way. -/
structure Draining (pre : String) (since : Int) (W : List WatchEvent) (s : WatchStream) : Prop where
  reach : Reach pre since s
  idle : s.inFlight = none
  queue : ∃ id sub, s.watcher = .streaming id ∧ s.hub.watchSubs.lookup id = some sub ∧
    s.written ++ sub.ch = W

theorem Draining.step (h : Draining pre since W s) (hguard : Gapless since s a ∧ Quiet a)
    (hstep : (watchStream pre since).step s a = some s') : Draining pre since W s' := by
  obtain ⟨id, sub, hw, hsub, rfl⟩ := h.queue
  obtain ⟨sub', hw', hsub', -, hsame⟩ := stream_step (shape_of_reachable h.reach) hw hsub hstep
  exact ⟨h.reach.step hguard.1 hstep, (pushed_quiet hguard.2 hstep).2 h.idle, id, sub', hw', hsub',
    hsame h.idle⟩

section Copy

variable {β : Type} {codec : SnapshotCodec β} {log : List LogEntry} {i : Nat} {t u : KVService}
  {r : (watchStream pre t.currentRevision).Run} {τ : Nat}

end Copy

end WatchProgressLemmas

open WatchProgressLemmas MirrorLemmas

namespace WatchProgressLemmas

/-- A list of steps after which the watcher has nothing left to do, as a fair run. -/
theorem exists_fairRun (pre : String) (since : Int) (as : List WatchStep)
    (hrun : ((watchStream pre since).execWhen (Gapless since) (watchStream pre since).init
      as).isSome = true)
    (hdone : ((watchStream pre since).exec (watchStream pre since).init as).map
      (fun s => (s.watcher, s.inFlight, (s.hub.watchSubs.lookup 1).map fun sub => sub.ch)) =
      some (.streaming 1, none, some [])) :
    ∃ r : (watchStream pre since).Run, r.MeetsFrom 0 (Gapless since) ∧
      (∀ t, r.label t = as[t]?) ∧ (∀ a ∈ watcherSteps, r.Fair (· = a)) ∧
      ∀ t, (watchStream pre since).exec (watchStream pre since).init (as.take t) =
        some (r.state t) := by
  obtain ⟨r, hmeets, hlabel, hexec⟩ := exists_run (G := Gapless since) as hrun
  refine ⟨r, hmeets, hlabel, fun a ha => ?_, hexec⟩
  have hstops : ∀ u, as.length ≤ u → r.label u = none := fun u hu => by
    rw [hlabel]
    exact List.getElem?_eq_none hu
  rw [← List.take_length (l := as)] at hdone
  have hshown := Run.shows hexec as.length _ hdone
  simp only [Prod.mk.injEq] at hshown
  obtain ⟨hw, hidle, hch⟩ := hshown
  obtain ⟨sub, hsub, hempty⟩ := Option.map_eq_some_iff.mp hch
  refine Run.fair_of_stops hstops fun b hb => ?_
  subst hb
  simp only [watcherSteps, List.mem_cons, List.not_mem_nil, or_false] at ha
  rcases ha with rfl | rfl | rfl | rfl
  · simp [watchStream, hw]
  · simp [watchStream, hw]
  · simp [watchStream, hidle]
  · have hnone : sub.receive = none := by
      unfold WatchSub.receive
      split
      · rfl
      · next hcons =>
        rw [hempty] at hcons
        cases hcons
    simp [watchStream, hw, WatchHub.receive, hsub, hnone]

end WatchProgressLemmas

/-! ## Main results -/

/-- In every run that is fair to the watch and in which nothing is dropped, the events that
the watcher asked for are all written in the end, in the order in which they were pushed,
while more events keep coming. -/
theorem events_arrive {pre : String} {since : Int} {r : (watchStream pre since).Run}
    (hgapless : r.MeetsFrom 0 (Gapless since)) (hfair : ∀ a ∈ watcherSteps, r.Fair (· = a))
    (t : Nat) :
    ∃ u, ∀ v, u ≤ v →
      ((r.state t).pushed.filter (wanted pre since)).Sublist (r.state v).written := by
  obtain ⟨w, htw, hsettled⟩ := eventually_atRest hgapless hfair t
  obtain ⟨W, hflows, hwanted⟩ := wanted_sublist hsettled
  obtain ⟨u, -, hsent⟩ := eventually_sent hgapless (hfair .receive (by simp [watcherSteps])) hflows
  refine ⟨u, fun v huv => ?_⟩
  have hbefore := ((pushed_mono htw).sublist.filter (wanted pre since)).trans hwanted
  exact hbefore.trans (hsent.trans (written_mono huv)).sublist

/-- The events of `mirrorRun` after the first two. -/
theorem events_arrive_mirrorRun :
    ∃ r : (watchStream "a" 2).Run, (r.state 9).pushed = eventsOf .plain mirrorLog ∧
      ∃ u, ∀ v, u ≤ v →
        ((eventsOf .plain mirrorLog).filter (wanted "a" 2)).Sublist (r.state v).written := by
  obtain ⟨r, hmeets, -, hfair, hexec⟩ :=
    exists_fairRun "a" 2 mirrorRun (by decide) (by decide)
  have hpushed : (r.state 9).pushed = eventsOf .plain mirrorLog :=
    Run.shows hexec 9 (fun s => s.pushed) (by decide)
  have harrive := events_arrive hmeets hfair 9
  rw [hpushed] at harrive
  exact ⟨r, hpushed, harrive⟩

end Zodiac
