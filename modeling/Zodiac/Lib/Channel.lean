import Mathlib.Data.List.Basic

/-!
# Buffered channels

A channel with a bounded buffer that can be closed. Sending on a closed channel and
closing it again panic; sending to a full buffer blocks, and so does receiving from an
empty one that is open. The structure carries the bound of the buffer.

* `send_of_room`, `close_of_open`: when a send and a close go through, and what they do.
* `receive_eq_done`: a receive takes the oldest element.
-/

universe u

/-- What an operation on a channel comes to. -/
inductive ChanResult (β : Type u)
  | done (b : β)
  | blocks
  | panics

/-- A channel of capacity `cap`. -/
structure Channel (α : Type u) (cap : Nat) where
  buf : List α
  closed : Bool
  buf_le : buf.length ≤ cap

namespace Channel

variable {α : Type u} {cap : Nat}

/-- A new channel. -/
def make : Channel α cap where
  buf := []
  closed := false
  buf_le := Nat.zero_le cap

/-- Send an element. -/
def send (c : Channel α cap) (a : α) : ChanResult (Channel α cap) :=
  if c.closed then .panics
  else if h : c.buf.length < cap then
    .done { c with
      buf := c.buf ++ [a]
      buf_le := by rw [List.length_append]; exact h }
  else .blocks

/-- Close the channel. -/
def close (c : Channel α cap) : ChanResult (Channel α cap) :=
  if c.closed then .panics else .done { c with closed := true }

/-- Receive an element, or none when the channel is closed and nothing is left. -/
def receive (c : Channel α cap) : ChanResult (Option α × Channel α cap) :=
  match h : c.buf with
  | a :: rest =>
    .done (some a, { c with
      buf := rest
      buf_le := by
        have hle := c.buf_le
        rw [h, List.length_cons] at hle
        exact Nat.le_of_succ_le hle })
  | [] => if c.closed then .done (none, c) else .blocks

theorem send_of_room {c : Channel α cap} (hopen : c.closed = false) (hroom : c.buf.length < cap)
    (a : α) : ∃ c', c.send a = .done c' ∧ c'.buf = c.buf ++ [a] ∧ c'.closed = false := by
  rw [send, if_neg (by rw [hopen]; exact Bool.false_ne_true), dif_pos hroom]
  exact ⟨_, rfl, rfl, hopen⟩

theorem close_of_open {c : Channel α cap} (hopen : c.closed = false) :
    ∃ c', c.close = .done c' ∧ c'.buf = c.buf ∧ c'.closed = true := by
  rw [close, if_neg (by rw [hopen]; exact Bool.false_ne_true)]
  exact ⟨_, rfl, rfl, rfl⟩

/-- A receive takes the first element, or finds the channel closed and empty. -/
theorem receive_eq_done {c c' : Channel α cap} {r : Option α} (h : c.receive = .done (r, c')) :
    c'.closed = c.closed ∧ c.buf = r.toList ++ c'.buf := by
  unfold receive at h
  split at h
  · next a rest hbuf =>
    cases h
    exact ⟨rfl, hbuf⟩
  · next hbuf =>
    split at h
    · cases h
      exact ⟨rfl, rfl⟩
    · cases h

end Channel
