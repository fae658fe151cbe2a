import Zodiac.Watch

/-!
# The event buffer with Go's slices

`eventBuffer` of `kvservice/watch.go` for every size, with what the Go runtime checks:
an index out of range and a division by zero panic. The other modules use
`EventBuffer`, a `RingBuffer` of the size that the service asks for, which cannot panic.

* `push_ofRing`, `replay_ofRing`: `Push` and `Replay` do not panic on a ring, and do
  what `RingBuffer.push` and `RingBuffer.toList` say.
* `replay_refines`: the buffer of the service, as the other modules have it.
* `replay_of_pushes`: `Replay` gives the newest events that are newer than `since`.
-/

namespace Zodiac

namespace Indexed

/-! ## The buffer -/

/-- `eventBuffer`, without its mutex. -/
structure EventBuffer where
  events : List WatchEvent
  start : Nat
  count : Nat
  size : Nat

/-- `newEventBuffer`. -/
def newEventBuffer (size : Nat) : EventBuffer :=
  { events := [], start := 0, count := 0, size := size }

/-- `a % b`, which panics when `b` is 0. -/
def modulo (a b : Nat) : Option Nat := if b = 0 then none else some (a % b)

/-- `s[i] = e`, which panics when `i` is out of range. -/
def assign (s : List WatchEvent) (i : Nat) (e : WatchEvent) : Option (List WatchEvent) :=
  if i < s.length then some (s.set i e) else none

namespace EventBuffer

/-- `Push`, or none for a panic. -/
def push (eb : EventBuffer) (e : WatchEvent) : Option EventBuffer :=
  if eb.count = eb.size then do
    let events ← assign eb.events eb.start e
    let start ← modulo (eb.start + 1) eb.size
    return { eb with events := events, start := start }
  else do
    let idx ← modulo (eb.start + eb.count) eb.size
    let events ← if idx ≥ eb.events.length then some (eb.events ++ [e]) else assign eb.events idx e
    return { eb with events := events, count := eb.count + 1 }

/-- The body of the loop of `Replay`. -/
def replayStep (eb : EventBuffer) (since : Int) (result : List WatchEvent) (i : Nat) :
    Option (List WatchEvent) := do
  let idx ← modulo (eb.start + i) eb.size
  let e ← eb.events[idx]?
  return if e.revision > since then result ++ [e] else result

/-- `Replay`, or none for a panic. -/
def replay (eb : EventBuffer) (since : Int) : Option (List WatchEvent) :=
  (List.range eb.count).foldlM (eb.replayStep since) []

/-- The calls of `Push` for a list of events. -/
def pushAll (eb : EventBuffer) (es : List WatchEvent) : Option EventBuffer := es.foldlM push eb

/-! ## The ring -/

/-- The buffer that stores a ring. -/
def ofRing {size : Nat} (r : RingBuffer WatchEvent size) : EventBuffer :=
  { events := r.slots, start := r.start, count := r.count, size := size }

end EventBuffer

end Indexed

namespace EventBufferLemmas

open Indexed EventBuffer

variable {size : Nat}

theorem modulo_of_ring (r : RingBuffer WatchEvent size) (a : Nat) :
    modulo a size = some (a % size) :=
  if_neg (Nat.ne_of_gt (Nat.zero_lt_of_lt r.start_lt))

theorem push_ofRing (r : RingBuffer WatchEvent size) (e : WatchEvent) :
    (ofRing r).push e = some (ofRing (r.push e)) := by
  by_cases hfull : r.count = size
  · -- every slot is in use, the oldest one in particular
    have hstart : r.start < r.slots.length := by
      rw [r.slots_length, hfull]
      exact r.start_lt
    have hassign : assign r.slots r.start e = some (r.slots.set r.start e) := if_pos hstart
    simp only [EventBuffer.push, ofRing, if_pos hfull, hassign, modulo_of_ring r, RingBuffer.push,
      dif_pos hfull]
    rfl
  · -- the next slot is the first unused one, so the slice grows
    have hnext : (r.start + r.count) % size ≥ r.slots.length :=
      Nat.le_of_eq (r.next_slot hfull).symm
    simp only [EventBuffer.push, ofRing, if_neg hfull, modulo_of_ring r, RingBuffer.push,
      dif_neg hfull, if_pos hnext]
    show (if (r.start + r.count) % size ≥ r.slots.length then _ else _) = _
    rw [if_pos hnext]
    rfl

theorem pushAll_ofRing (r : RingBuffer WatchEvent size) (es : List WatchEvent) :
    (ofRing r).pushAll es = some (ofRing (r.pushAll es)) := by
  induction es generalizing r with
  | nil => rfl
  | cons e es ih =>
    rw [EventBuffer.pushAll, List.foldlM_cons, push_ofRing]
    exact ih (r.push e)

/-- Every slot that the loop of `Replay` reads is there. -/
theorem slot_of_lt (r : RingBuffer WatchEvent size) {i : Nat} (hi : i < r.count) :
    ∃ e, r.slots[(r.start + i) % size]? = some e := by
  suffices hlt : (r.start + i) % size < r.slots.length from ⟨_, List.getElem?_eq_getElem hlt⟩
  rw [r.slots_length]
  rcases Nat.lt_or_eq_of_le r.count_le with hlt | hfull
  · rw [r.start_zero hlt, Nat.zero_add, Nat.mod_eq_of_lt (Nat.lt_trans hi hlt)]
    exact hi
  · rw [hfull]
    exact Nat.mod_lt _ (Nat.zero_lt_of_lt r.start_lt)

/-- A round of the loop of `Replay` that finds `e`. -/
theorem replayStep_ofRing (r : RingBuffer WatchEvent size) (since : Int) (result : List WatchEvent)
    {i : Nat} {e : WatchEvent} (hslot : r.slots[(r.start + i) % size]? = some e) :
    (ofRing r).replayStep since result i =
      some (result ++ [e].filter fun e => decide (e.revision > since)) := by
  simp only [replayStep, ofRing, modulo_of_ring r, Option.bind_eq_bind, Option.bind_some, hslot]
  by_cases hnew : e.revision > since
  · simp [hnew]
  · simp [hnew]

/-- The first `n` rounds of the loop of `Replay`. -/
theorem replay_rounds (r : RingBuffer WatchEvent size) (since : Int) {n : Nat} (hn : n ≤ r.count) :
    (List.range n).foldlM ((ofRing r).replayStep since) [] =
      some (((List.range n).filterMap fun i => r.slots[(r.start + i) % size]?).filter
        fun e => decide (e.revision > since)) := by
  induction n with
  | zero => rfl
  | succ n ih =>
    obtain ⟨e, hslot⟩ := slot_of_lt r hn
    have hlast : [n].filterMap (fun i => r.slots[(r.start + i) % size]?) = [e] :=
      List.filterMap_cons_some hslot
    rw [List.range_succ, List.foldlM_append, ih (Nat.le_of_succ_le hn), List.filterMap_append,
      List.filter_append, hlast, Option.bind_eq_bind, Option.bind_some, List.foldlM_cons,
      replayStep_ofRing r since _ hslot]
    rfl

theorem replay_ofRing (r : RingBuffer WatchEvent size) (since : Int) :
    (ofRing r).replay since =
      some (r.toList.filter fun e => decide (e.revision > since)) :=
  replay_rounds r since le_rfl

/-- The buffer that the other modules use behaves as the source's. -/
theorem replay_refines (eb : Zodiac.EventBuffer) (since : Int) :
    (ofRing eb).replay since = some (Zodiac.replay eb since) :=
  replay_ofRing eb since

end EventBufferLemmas

open EventBufferLemmas

/-- For every size, no sequence of `Push` calls and no `Replay` after it panics, and
`Replay` returns those of the last `size` events whose revision exceeds `since`, in
push order. -/
theorem replay_of_pushes (size : Nat) (hsize : 1 ≤ size) (es : List WatchEvent) (since : Int) :
    ∃ eb, (Indexed.newEventBuffer size).pushAll es = some eb ∧
      eb.replay since = some ((es.drop (es.length - min es.length size)).filter
        fun e => decide (e.revision > since)) := by
  have hpushes := pushAll_ofRing (RingBuffer.new hsize) es
  have hlast : es.length - min es.length size = es.length - size := by omega
  refine ⟨_, hpushes, ?_⟩
  rw [replay_ofRing, RingBuffer.toList_pushAll_new, hlast]

/-- A write at a revision. -/
def writeAt (revision : Int) : WatchEvent :=
  { key := "a", value := "", revision := revision, type := .put }

/-- A buffer of two events that has dropped the first of three. -/
theorem replay_of_pushes_wrapped :
    1 ≤ 2 ∧ ∃ eb, (Indexed.newEventBuffer 2).pushAll [writeAt 1, writeAt 2, writeAt 3] = some eb ∧
      eb.replay 0 = some [writeAt 2, writeAt 3] :=
  ⟨by decide, replay_of_pushes 2 (by decide) [writeAt 1, writeAt 2, writeAt 3] 0⟩

end Zodiac
