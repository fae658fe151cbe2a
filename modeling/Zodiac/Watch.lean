import Zodiac.Api
import Zodiac.Lib.GoMap
import Zodiac.Lib.RingBuffer

/-!
# Watching

`kvservice/watch.go`: the event buffer, the subscriptions with their bounded
channels, and the start position that `handleWatch` reads from its request.

A channel is the list of the events sent and not yet received. `WatchSub`
carries its bound, so that a delivery to a full channel can only drop the event.
-/

namespace Zodiac

/-! ## The event buffer -/

/-- `eventBufferSize`. -/
def eventBufferSize : Nat := 1000

/-- `eventBuffer`. `Push` is `RingBuffer.push`. -/
abbrev EventBuffer := RingBuffer WatchEvent eventBufferSize

/-- `newEventBuffer(eventBufferSize)`. -/
def newEventBuffer : EventBuffer := RingBuffer.new (by decide)

/-- `Replay`. It does not look at keys: the replayed part of a stream has the
events of all prefixes. -/
def replay (eb : EventBuffer) (since : Int) : List WatchEvent :=
  eb.toList.filter fun e => decide (e.revision > since)

/-- The buffer replays the last `eventBufferSize` events. -/
theorem replay_pushAll (es : List WatchEvent) (since : Int) :
    replay (newEventBuffer.pushAll es) since =
      (es.drop (es.length - eventBufferSize)).filter fun e => decide (e.revision > since) := by
  rw [replay, newEventBuffer, RingBuffer.toList_pushAll_new]

/-! ## Subscriptions -/

/-- The channel size that `subscribeWatch` asks for. -/
def watchChanSize : Nat := 64

/-- `watchSub`. -/
structure WatchSub where
  pre : String
  ch : List WatchEvent
  ch_le : ch.length ≤ watchChanSize
deriving DecidableEq

/-- `newWatchSub`. -/
def newWatchSub (pre : String) : WatchSub := { pre := pre, ch := [], ch_le := Nat.zero_le _ }

namespace WatchSub

/-- The `select` with a `default` case: a full channel drops the event. -/
def send (sub : WatchSub) (e : WatchEvent) : WatchSub :=
  if h : sub.ch.length < watchChanSize then
    { sub with
      ch := sub.ch ++ [e]
      ch_le := by rw [List.length_append]; exact h }
  else sub

/-- The body of the delivery loop of `pushWatchEvent`. -/
def deliver (sub : WatchSub) (e : WatchEvent) : WatchSub :=
  if sub.pre == "" || hasPrefix e.key sub.pre then sub.send e else sub

/-- A receive from the channel. -/
def receive (sub : WatchSub) : Option (WatchEvent × WatchSub) :=
  match h : sub.ch with
  | [] => none
  | e :: es =>
    some (e, { sub with
      ch := es
      ch_le := by
        have := sub.ch_le
        rw [h, List.length_cons] at this
        omega })

theorem hasPrefix_empty (s : String) : hasPrefix s "" = true := by simp [hasPrefix]

/-- A delivery to a channel with room appends the events with the prefix. -/
theorem deliver_ch {sub : WatchSub} (e : WatchEvent) (h : sub.ch.length < watchChanSize) :
    (sub.deliver e).ch = sub.ch ++ [e].filter fun e => hasPrefix e.key sub.pre := by
  unfold deliver send
  by_cases hp : hasPrefix e.key sub.pre = true
  · simp [hp, h]
  · have hne : (sub.pre == "") = false := by
      by_contra hc
      have heq : sub.pre = "" := by simpa using hc
      exact hp (by rw [heq]; exact hasPrefix_empty _)
    simp [hp, hne]

@[simp] theorem deliver_pre (sub : WatchSub) (e : WatchEvent) : (sub.deliver e).pre = sub.pre := by
  unfold deliver send
  split
  · split <;> rfl
  · rfl

theorem receive_eq_some {sub sub' : WatchSub} {e : WatchEvent} (h : sub.receive = some (e, sub')) :
    sub.ch = e :: sub'.ch ∧ sub'.pre = sub.pre := by
  unfold receive at h
  split at h
  · cases h
  · next hch =>
    cases h
    exact ⟨hch, rfl⟩

end WatchSub

/-- The watch fields of `KVService`. -/
structure WatchHub where
  eventBuf : EventBuffer
  watchSubs : GoMap Int WatchSub
  watchSeq : Int

namespace WatchHub

/-- The hub built by `New`. -/
def new : WatchHub := { eventBuf := newEventBuffer, watchSubs := ∅, watchSeq := 0 }

/-- `subscribeWatch`, which returns the new id. -/
def subscribeWatch (hub : WatchHub) (pre : String) : WatchHub × Int :=
  let id := hub.watchSeq + 1
  ({ hub with
      watchSeq := id
      watchSubs := hub.watchSubs.insert id (newWatchSub pre) }, id)

/-- `unsubscribeWatch`. -/
def unsubscribeWatch (hub : WatchHub) (id : Int) : WatchHub :=
  { hub with watchSubs := hub.watchSubs.erase id }

/-- The first half of `pushWatchEvent`. -/
def push (hub : WatchHub) (e : WatchEvent) : WatchHub :=
  { hub with eventBuf := hub.eventBuf.push e }

/-- The second half of `pushWatchEvent`, under the subscription lock. The loop
touches each subscription once, so its order does not matter. -/
def deliver (hub : WatchHub) (e : WatchEvent) : WatchHub :=
  { hub with watchSubs := hub.watchSubs.mapVal fun _ sub => sub.deliver e }

/-- A receive by the handler with the given subscription. -/
def receive (hub : WatchHub) (id : Int) : Option (WatchEvent × WatchHub) :=
  match hub.watchSubs.lookup id with
  | none => none
  | some sub =>
    match sub.receive with
    | none => none
    | some (e, sub') => some (e, { hub with watchSubs := hub.watchSubs.insert id sub' })

end WatchHub

/-! ## The start position -/

/-- The head of `handleWatch`: the `Last-Event-ID` header wins over the `since`
parameter when it is a positive number. -/
def watchSince (sinceStr lastEventID : String) : Except String Int :=
  let sinceStr :=
    if lastEventID ≠ "" then
      match parseInt lastEventID with
      | (rev, none) => if rev > 0 then lastEventID else sinceStr
      | (_, some _) => sinceStr
    else sinceStr
  if sinceStr ≠ "" then
    match parseInt sinceStr with
    | (since, none) => .ok since
    | (_, some _) => .error "invalid since parameter"
  else .ok 0

/-- A watcher that sends a revision back, in either place, resumes there. -/
theorem watchSince_formatInt {rev : Nat} (hpos : 0 < rev) (h : rev < 2 ^ 63) :
    watchSince (formatInt rev) "" = .ok (rev : Int) ∧
    ∀ sinceStr, watchSince sinceStr (formatInt rev) = .ok (rev : Int) := by
  have hparse := parseInt_formatInt h
  have hinvalid : (parseInt "").2 = some .invalid := by decide
  have hne : formatInt rev ≠ "" := by
    intro hempty
    rw [hempty] at hparse
    rw [hparse] at hinvalid
    cases hinvalid
  have hrev : (rev : Int) > 0 := by omega
  refine ⟨?_, fun sinceStr => ?_⟩
  · simp only [watchSince, ne_eq, not_true_eq_false, if_false, hne, not_false_eq_true, if_true, hparse]
  · simp only [watchSince, ne_eq, hne, not_false_eq_true, if_true, hparse, hrev]

end Zodiac
