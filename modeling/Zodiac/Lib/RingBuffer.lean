import Mathlib.Data.List.Rotate

/-!
# A ring buffer that overwrites its oldest element

`RingBuffer α size` stores the last `size` pushed elements in a slot list that grows
until it is full and is overwritten from then on. The structure carries the
layout invariant: the slots in use are all there are, and the oldest element is
in slot 0 until the ring is full.

* `toList_push`: pushing appends, and drops the oldest element of a full ring.
* `toList_pushAll_new`: a ring holds the last `size` elements pushed into it.
-/

universe u

/-- A ring of capacity `size`. -/
structure RingBuffer (α : Type u) (size : Nat) where
  slots : List α
  start : Nat
  count : Nat
  slots_length : slots.length = count
  count_le : count ≤ size
  start_lt : start < size
  start_zero : count < size → start = 0

namespace RingBuffer

variable {α : Type u} {size : Nat}

/-- The empty ring. -/
def new (h : 0 < size) : RingBuffer α size where
  slots := []
  start := 0
  count := 0
  slots_length := rfl
  count_le := Nat.zero_le size
  start_lt := h
  start_zero _ := rfl

/-- The slot that follows the elements of a ring that is not full is the first
unused one. -/
theorem next_slot (r : RingBuffer α size) (h : r.count ≠ size) :
    (r.start + r.count) % size = r.slots.length := by
  have hlt : r.count < size := Nat.lt_of_le_of_ne r.count_le h
  rw [r.start_zero hlt, Nat.zero_add, Nat.mod_eq_of_lt hlt, r.slots_length]

/-- Add an element. A full ring overwrites its oldest one. -/
def push (r : RingBuffer α size) (e : α) : RingBuffer α size :=
  if h : r.count = size then
    { slots := r.slots.set r.start e
      start := (r.start + 1) % size
      count := r.count
      slots_length := by rw [List.length_set, r.slots_length]
      count_le := r.count_le
      start_lt := Nat.mod_lt _ (Nat.zero_lt_of_lt r.start_lt)
      start_zero hlt := absurd h (Nat.ne_of_lt hlt) }
  else
    { slots :=
        if (r.start + r.count) % size ≥ r.slots.length then r.slots ++ [e]
        else r.slots.set ((r.start + r.count) % size) e
      start := r.start
      count := r.count + 1
      slots_length := by
        rw [if_pos (Nat.le_of_eq (r.next_slot h).symm), List.length_append, r.slots_length]
        rfl
      count_le := Nat.lt_of_le_of_ne r.count_le h
      start_lt := r.start_lt
      start_zero _ := r.start_zero (Nat.lt_of_le_of_ne r.count_le h) }

/-- The elements from the oldest to the newest. -/
def toList (r : RingBuffer α size) : List α :=
  (List.range r.count).filterMap fun i => r.slots[(r.start + i) % size]?

/-- Push the elements of a list in order. -/
def pushAll (r : RingBuffer α size) (es : List α) : RingBuffer α size := es.foldl push r

/-! ## Contents -/

theorem filterMap_range_getElem? (l : List α) :
    (List.range l.length).filterMap (fun i => l[i]?) = l := by
  induction l using List.reverseRecOn with
  | nil => rfl
  | append_singleton l e ih =>
    have hold : (List.range l.length).filterMap (fun i => (l ++ [e])[i]?) =
        (List.range l.length).filterMap (fun i => l[i]?) :=
      List.filterMap_congr fun i hi => List.getElem?_append_left (List.mem_range.mp hi)
    rw [List.length_append, List.length_singleton, List.range_succ, List.filterMap_append, hold, ih]
    simp

/-- The elements are the slots, rotated to begin with the oldest. -/
theorem toList_eq_rotate (r : RingBuffer α size) : r.toList = r.slots.rotate r.start := by
  have hslot : ∀ i ∈ List.range r.count,
      r.slots[(r.start + i) % size]? = (r.slots.rotate r.start)[i]? := by
    intro i hi
    have hlt := List.mem_range.mp hi
    rw [List.getElem?_rotate (by rw [r.slots_length]; exact hlt), r.slots_length, Nat.add_comm]
    rcases Nat.lt_or_eq_of_le r.count_le with hc | hc
    · rw [r.start_zero hc, Nat.add_zero, Nat.mod_eq_of_lt hlt, Nat.mod_eq_of_lt (by omega)]
    · rw [hc]
  rw [toList, List.filterMap_congr hslot]
  have hlen : (r.slots.rotate r.start).length = r.count := by
    rw [List.length_rotate, r.slots_length]
  rw [← hlen, filterMap_range_getElem?]

@[simp] theorem length_toList (r : RingBuffer α size) : r.toList.length = r.count := by
  rw [toList_eq_rotate, List.length_rotate, r.slots_length]

theorem toList_push_full (r : RingBuffer α size) (e : α) (h : r.count = size) :
    (r.push e).toList = r.toList.drop 1 ++ [e] := by
  have hstart : r.start < r.slots.length := by
    rw [r.slots_length, h]
    exact r.start_lt
  have hslots : (r.push e).slots = r.slots.take r.start ++ e :: r.slots.drop (r.start + 1) := by
    rw [push, dif_pos h]
    exact List.set_eq_take_append_cons_drop.trans (if_pos hstart)
  have hbegin : (r.push e).start = (r.start + 1) % size := by rw [push, dif_pos h]
  have hold : r.toList.drop 1 = r.slots.drop (r.start + 1) ++ r.slots.take r.start := by
    rw [toList_eq_rotate, List.rotate_eq_drop_append_take (Nat.le_of_lt hstart),
      List.drop_append_of_le_length (by rw [List.length_drop]; omega), List.drop_drop]
  have hrot : (r.push e).slots.rotate ((r.start + 1) % size) =
      (r.push e).slots.rotate (r.start + 1) := by
    have hlen : (r.push e).slots.length = size := by
      rw [(r.push e).slots_length, push, dif_pos h]
      exact h
    have hmod := (r.push e).slots.rotate_mod (r.start + 1)
    rwa [hlen] at hmod
  rw [toList_eq_rotate, hbegin, hold, hrot, hslots]
  -- the rotation brings the slots behind the new element to the front
  have hsplit : r.slots.take r.start ++ e :: r.slots.drop (r.start + 1) =
      (r.slots.take r.start ++ [e]) ++ r.slots.drop (r.start + 1) := by simp
  have hcut : (r.slots.take r.start ++ [e]).length = r.start + 1 := by
    rw [List.length_append, List.length_take, List.length_singleton]
    omega
  rw [hsplit, ← hcut, List.rotate_append_length_eq, List.append_assoc]

theorem toList_push_room (r : RingBuffer α size) (e : α) (h : r.count ≠ size) :
    (r.push e).toList = r.toList ++ [e] := by
  have hlt : r.count < size := Nat.lt_of_le_of_ne r.count_le h
  have hzero := r.start_zero hlt
  have hslots : (r.push e).slots = r.slots ++ [e] := by
    rw [push, dif_neg h]
    exact if_pos (Nat.le_of_eq (r.next_slot h).symm)
  have hbegin : (r.push e).start = 0 := by rw [push, dif_neg h]; exact hzero
  rw [toList_eq_rotate, toList_eq_rotate, hslots, hbegin, hzero, List.rotate_zero,
    List.rotate_zero]

/-- Pushing keeps the last `size` elements. -/
theorem toList_push (r : RingBuffer α size) (e : α) :
    (r.push e).toList = (r.toList ++ [e]).drop (r.toList.length + 1 - size) := by
  rw [length_toList]
  by_cases h : r.count = size
  · have hpos := Nat.zero_lt_of_lt r.start_lt
    rw [toList_push_full r e h, h, Nat.add_sub_cancel_left,
      List.drop_append_of_le_length (by rw [length_toList, h]; exact hpos)]
  · have hlt : r.count < size := Nat.lt_of_le_of_ne r.count_le h
    rw [toList_push_room r e h, Nat.sub_eq_zero_of_le hlt, List.drop_zero]

/-- A ring holds the last `size` elements pushed into it. -/
theorem toList_pushAll_new (h : 0 < size) (es : List α) :
    ((new h : RingBuffer α size).pushAll es).toList = es.drop (es.length - size) := by
  induction es using List.reverseRecOn with
  | nil => exact List.drop_nil.symm
  | append_singleton es e ih =>
    have hpush : (new h : RingBuffer α size).pushAll (es ++ [e]) = ((new h).pushAll es).push e :=
      List.foldl_concat push (new h) e es
    rw [hpush, toList_push, ih, List.length_drop, List.length_append, List.length_singleton,
      ← List.drop_append_of_le_length (Nat.sub_le _ _), List.drop_drop]
    congr 1
    omega

end RingBuffer
