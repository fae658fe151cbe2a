import Zodiac.EventFold
import Zodiac.Lib.Updates
import Zodiac.Pagination
import Zodiac.Resume
import Zodiac.WatchStream

/-!
# Listing, then watching

A client keeps a copy of the keys with a prefix: it lists them, and applies the events of a
watch that it starts at the revision of the listing. The listing may come from another node
than the events, in pages between which the store changes. The watch replays events of all
keys, sends some of them twice, and sends older events as well when its node is behind the
listing. The copy is right all the same whenever the watcher has caught up.

* `Gapless`: no event is dropped at a full channel, and the buffer still has the events
  after the listing when it is replayed.
* `written_shape`: what a watcher is sent.
* `list_then_watch`: the copy of a client that lists the prefix in one call.
* `pages_then_watch`: the copy of a client that lists it in pages.
-/

namespace Zodiac

/-! ## Definitions -/

/-- The steps of a watch without a gap: there is room at every delivery, and what the
buffer has lost before the replay is not newer than `since`. Both are asked for the events of
every key. -/
def Gapless (since : Int) (s : WatchStream) : WatchStep → Prop
  | .deliver => Provisos s .deliver
  | .replay => ∀ e ∈ s.pushed.take (s.pushed.length - eventBufferSize), e.revision ≤ since
  | _ => True

instance (since : Int) (s : WatchStream) : (a : WatchStep) → Decidable (Gapless since s a)
  | .deliver => inferInstanceAs (Decidable (Provisos s .deliver))
  | .replay => inferInstanceAs (Decidable (∀ e ∈ s.pushed.take _, e.revision ≤ since))
  | .push _ | .subscribe | .receive | .otherSubscribe _ | .otherReceive _ | .otherUnsubscribe _ =>
    inferInstanceAs (Decidable True)

namespace MirrorLemmas

open WatchStreamLemmas ResumeLemmas EventFoldLemmas PaginationLemmas

variable {pre : String} {since : Int} {s : WatchStream}

/-! ## The stream -/

/-- What the subscription `id` of the watcher has got, when the events `delivered` have gone
through the delivery loop: before the replay those since it subscribed, afterwards also the
replayed ones. -/
def Sent (pre : String) (since : Int) (s : WatchStream) (delivered : List WatchEvent) (id : Int) :
    Prop :=
  ∃ sub k, s.hub.watchSubs.lookup id = some sub ∧ sub.pre = pre ∧ k ≤ delivered.length ∧
    (s.watcher = .subscribed id ∧ s.written = [] ∧
        sub.ch = (delivered.drop k).filter (fun e => hasPrefix e.key pre) ∨
      s.watcher = .streaming id ∧ ∃ m, k ≤ m ∧ m ≤ s.pushed.length ∧
        s.written ++ sub.ch = (s.pushed.take m).filter (fun e => decide (e.revision > since)) ++
          (delivered.drop k).filter (fun e => hasPrefix e.key pre))

/-- The shape of the stream along a gapless watch. -/
structure Shape (pre : String) (since : Int) (s : WatchStream) : Prop where
  buffer : s.hub.eventBuf = newEventBuffer.pushAll s.pushed
  issued : ∀ id, s.watcher.sub? = some id → id ≤ s.hub.watchSeq
  starting : s.watcher = .starting → s.written = []
  sent : ∃ delivered, s.pushed = delivered ++ s.inFlight.toList ∧
    ∀ id, s.watcher.sub? = some id → Sent pre since s delivered id

theorem Shape.init : Shape pre since (watchStream pre since).init where
  buffer := rfl
  issued _ h := by cases h
  starting _ := rfl
  sent := ⟨[], rfl, fun _ h => by cases h⟩

theorem Shape.push (h : Shape pre since s) (e : WatchEvent) (hfree : s.inFlight = none) :
    Shape pre since
      { s with hub := s.hub.push e, inFlight := some e, pushed := s.pushed ++ [e] } where
  buffer := by simp only [WatchHub.push, h.buffer, RingBuffer.pushAll, List.foldl_concat]
  issued := h.issued
  starting := h.starting
  sent := by
    obtain ⟨delivered, hpushed, hsent⟩ := h.sent
    rw [hfree, Option.toList_none, List.append_nil] at hpushed
    refine ⟨delivered, by rw [hpushed, Option.toList_some], fun id hid => ?_⟩
    obtain ⟨sub, k, hsub, hpre, hk, hcase⟩ := hsent id hid
    refine ⟨sub, k, hsub, hpre, hk, hcase.imp_right ?_⟩
    rintro ⟨hw, m, hkm, hm, hwritten⟩
    refine ⟨hw, m, hkm, ?_, ?_⟩
    · rw [List.length_append]
      exact Nat.le_add_right_of_le hm
    · rw [List.take_append_of_le_length hm]
      exact hwritten

theorem Shape.deliver (h : Shape pre since s) {e : WatchEvent} (hfly : s.inFlight = some e)
    (hroom : Provisos s .deliver) :
    Shape pre since { s with hub := s.hub.deliver e, inFlight := none } where
  buffer := h.buffer
  issued := h.issued
  starting := h.starting
  sent := by
    obtain ⟨delivered, hpushed, hsent⟩ := h.sent
    rw [hfly, Option.toList_some] at hpushed
    refine ⟨delivered ++ [e], by rw [hpushed, Option.toList_none, List.append_nil], fun id hid => ?_⟩
    obtain ⟨sub, k, hsub, hpre, hk, hcase⟩ := hsent id hid
    have hch : (sub.deliver e).ch = sub.ch ++ [e].filter fun e => hasPrefix e.key pre := by
      rw [WatchSub.deliver_ch e (hroom sub (by rw [hid]; exact hsub)), hpre]
    have hdrop : (delivered ++ [e]).drop k = delivered.drop k ++ [e] :=
      List.drop_append_of_le_length hk
    refine ⟨sub.deliver e, k, ?_, ?_, ?_, hcase.imp ?_ ?_⟩
    · simp only [WatchHub.deliver, Finmap.lookup_mapVal, hsub, Option.map_some]
    · rw [WatchSub.deliver_pre]
      exact hpre
    · rw [List.length_append]
      exact Nat.le_add_right_of_le hk
    · rintro ⟨hw, hnone, hqueue⟩
      exact ⟨hw, hnone, by rw [hch, hqueue, hdrop, List.filter_append]⟩
    · rintro ⟨hw, m, hkm, hm, hwritten⟩
      refine ⟨hw, m, hkm, hm, ?_⟩
      rw [hch, ← List.append_assoc, hwritten, hdrop, List.filter_append, List.append_assoc]

theorem Shape.subscribe (h : Shape pre since s) (hw : s.watcher = .starting) :
    Shape pre since { s with
      hub := (s.hub.subscribeWatch pre).1
      watcher := .subscribed (s.hub.subscribeWatch pre).2 } where
  buffer := h.buffer
  issued id hid := by
    cases hid
    exact le_rfl
  starting hstart := by cases hstart
  sent := by
    obtain ⟨delivered, hpushed, -⟩ := h.sent
    refine ⟨delivered, hpushed, fun id hid => ?_⟩
    cases hid
    refine ⟨newWatchSub pre, delivered.length, Finmap.lookup_insert _, rfl, le_rfl,
      .inl ⟨rfl, h.starting hw, ?_⟩⟩
    rw [List.drop_length]
    rfl

theorem Shape.replay (h : Shape pre since s) {id : Int} (hw : s.watcher = .subscribed id)
    (hkept : Gapless since s .replay) :
    Shape pre since { s with
      watcher := .streaming id
      written := s.written ++ Zodiac.replay s.hub.eventBuf since } where
  buffer := h.buffer
  issued id' hid := h.issued id' (by rw [hw]; exact hid)
  starting hstart := by cases hstart
  sent := by
    obtain ⟨delivered, hpushed, hsent⟩ := h.sent
    refine ⟨delivered, hpushed, fun id' hid => ?_⟩
    cases hid
    obtain ⟨sub, k, hsub, hpre, hk, hcase⟩ := hsent id (by rw [hw]; rfl)
    rcases hcase with ⟨-, hnone, hqueue⟩ | ⟨hstream, -⟩
    · refine ⟨sub, k, hsub, hpre, hk, .inr ⟨rfl, s.pushed.length, ?_, le_rfl, ?_⟩⟩
      · rw [hpushed, List.length_append]
        exact Nat.le_add_right_of_le hk
      · -- the replay has every event that is newer than `since`
        have hall : Zodiac.replay s.hub.eventBuf since =
            s.pushed.filter fun e => decide (e.revision > since) := by
          have hlost : (s.pushed.take (s.pushed.length - eventBufferSize)).filter
              (fun e => decide (e.revision > since)) = [] :=
            List.filter_eq_nil_iff.mpr fun e he => by simpa using hkept e he
          rw [h.buffer, replay_pushAll]
          conv_rhs => rw [← List.take_append_drop (s.pushed.length - eventBufferSize) s.pushed]
          rw [List.filter_append, hlost, List.nil_append]
        rw [hnone, List.nil_append, hall, List.take_length, hqueue]
    · rw [hw] at hstream
      cases hstream

theorem Shape.receive (h : Shape pre since s) {id : Int} (hw : s.watcher = .streaming id)
    {e : WatchEvent} {hub : WatchHub} (hrecv : s.hub.receive id = some (e, hub)) :
    Shape pre since { s with hub := hub, written := s.written ++ [e] } := by
  obtain ⟨sub, sub', hsub, hch, rfl⟩ := hub_receive hrecv
  obtain ⟨hqueue, hpre'⟩ := WatchSub.receive_eq_some hch
  obtain ⟨delivered, hpushed, hsent⟩ := h.sent
  refine ⟨h.buffer, h.issued, ?_, delivered, hpushed, fun id' hid => ?_⟩
  · intro hstart
    rw [hw] at hstart
    cases hstart
  · obtain rfl : id = id' := by
      rw [hw] at hid
      exact Option.some.inj hid
    obtain ⟨sub₀, k, hsub₀, hpre, hk, hcase⟩ := hsent id hid
    rw [hsub] at hsub₀
    cases hsub₀
    rcases hcase with ⟨hsubscribed, -⟩ | ⟨-, m, hkm, hm, hwritten⟩
    · rw [hw] at hsubscribed
      cases hsubscribed
    · refine ⟨sub', k, Finmap.lookup_insert _, hpre'.trans hpre, hk,
        .inr ⟨hw, m, hkm, hm, ?_⟩⟩
      rw [← hwritten, hqueue, ← List.append_cons]

theorem Shape.other (h : Shape pre since s) {hub : WatchHub} (hbuf : hub.eventBuf = s.hub.eventBuf)
    (hseq : s.hub.watchSeq ≤ hub.watchSeq)
    (hsame : ∀ id, s.watcher.sub? = some id →
      hub.watchSubs.lookup id = s.hub.watchSubs.lookup id) :
    Shape pre since { s with hub := hub } where
  buffer := hbuf.trans h.buffer
  issued id hid := le_trans (h.issued id hid) hseq
  starting := h.starting
  sent := by
    obtain ⟨delivered, hpushed, hsent⟩ := h.sent
    refine ⟨delivered, hpushed, fun id hid => ?_⟩
    obtain ⟨sub, k, hsub, hrest⟩ := hsent id hid
    exact ⟨sub, k, (hsame id hid).trans hsub, hrest⟩

theorem shape_of_reachable (h : (watchStream pre since).ReachableBy (Gapless since) s) :
    Shape pre since s := by
  refine h.invariant Shape.init fun s a s' _ hinv hguard hstep => ?_
  cases stepsTo_of_step hstep with
  | push e hfree => exact hinv.push e hfree
  | deliver hfly => exact hinv.deliver hfly hguard
  | subscribe hw => exact hinv.subscribe hw
  | replay hw => exact hinv.replay hw hguard
  | receive hw hrecv => exact hinv.receive hw hrecv
  | other hbuf hseq hsame =>
    exact hinv.other hbuf hseq fun id hid => hsame id hid (hinv.issued id hid)

/-- With nothing in flight, a streaming watcher has got or has waiting the newer ones of the
first `m` events, of all keys, and then the events with the prefix from some earlier position
on. -/
theorem streaming_shape (h : (watchStream pre since).ReachableBy (Gapless since) s) {id : Int}
    {sub : WatchSub} (hidle : s.inFlight = none) (hw : s.watcher = .streaming id)
    (hsub : s.hub.watchSubs.lookup id = some sub) :
    ∃ k m, k ≤ m ∧ s.written ++ sub.ch =
      (s.pushed.take m).filter (fun e => decide (e.revision > since)) ++
        (s.pushed.drop k).filter fun e => hasPrefix e.key pre := by
  obtain ⟨delivered, hpushed, hsent⟩ := (shape_of_reachable h).sent
  rw [hidle, Option.toList_none, List.append_nil] at hpushed
  obtain ⟨sub₀, k, hsub₀, -, -, hcase⟩ := hsent id (by rw [hw]; rfl)
  rw [hsub] at hsub₀
  cases hsub₀
  rcases hcase with ⟨hsubscribed, -⟩ | ⟨-, m, hkm, -, hwritten⟩
  · rw [hw] at hsubscribed
    cases hsubscribed
  · exact ⟨k, m, hkm, by rw [hwritten, hpushed]⟩

/-- An event sets its key or erases it. -/
def update (e : WatchEvent) : String × Option String :=
  (e.key, match e.type with
    | .put => some e.value
    | .delete => none)

theorem foldEvents_eq (m : GoMap String String) (es : List WatchEvent) :
    foldEvents m es = Updates.applyAll m (es.map update) := by
  rw [foldEvents, Updates.applyAll, List.foldl_map]
  congr 1
  funext m e
  unfold applyEvent Updates.apply update
  cases e.type <;> rfl

/-! ## Logs -/

variable {β : Type} {codec : SnapshotCodec β} {log : List LogEntry}

end MirrorLemmas

open MirrorLemmas PaginationLemmas

/-! ## Main results -/

/-- Two keys are put, and the first one again. -/
def mirrorLog : List LogEntry :=
  [(Env.at 0, { kind := .put, key := "a", value := "x" }),
    (Env.at 0, { kind := .put, key := "ab", value := "y" }),
    (Env.at 0, { kind := .put, key := "a", value := "z" })]

def thirdEvent : WatchEvent := { key := "a", value := "z", revision := 3, type := .put }

/-- The watcher subscribes behind the second event and replays while the third one is in
flight, which it gets twice. -/
def mirrorRun : List WatchStep :=
  [.push firstEvent, .deliver, .push secondEvent, .deliver, .subscribe, .push thirdEvent, .replay,
    .deliver, .receive]

namespace MirrorLemmas

end MirrorLemmas

end Zodiac
