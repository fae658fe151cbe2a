import Mathlib.Data.List.Infix
import Mathlib.Data.List.TakeWhile

/-!
# Streams of lines

A stream is a list of symbols, one of which ends a line. `lines` splits a stream
the way a line scanner does: a last line that is not ended counts, an empty one at
the very end does not.

* `lines_unlines`: splitting undoes ending each line.
* `induction_on`: induction by lines, with `length_le_of_mem_lines` and `mem_lines_append`
  for how long a line can be.
* `Torn L ls`: of the lines `L`, only `ls` are left: first some whole ones, then
  at most a first part of the next.
* `torn_lines_take`: the lines of a stream that is cut anywhere are torn.
* `Torn.takeWhile`: a reader that stops at some line sees torn lines.
-/

universe u

namespace Lines

variable {α : Type u} [DecidableEq α]

/-- The lines of a stream. -/
def lines (sep : α) : List α → List (List α)
  | [] => []
  | b :: bs =>
    if b = sep then [] :: lines sep bs
    else match lines sep bs with
      | [] => [[b]]
      | l :: ls => (b :: l) :: ls

/-- The stream of some lines, each of which is ended. -/
def unlines (sep : α) (L : List (List α)) : List α := L.flatMap fun l => l ++ [sep]

variable {sep : α}

omit [DecidableEq α] in
theorem unlines_cons (l : List α) (L : List (List α)) :
    unlines sep (l :: L) = l ++ sep :: unlines sep L := by
  simp only [unlines, List.flatMap_cons, List.append_assoc, List.singleton_append]

theorem lines_append {l : List α} (h : sep ∉ l) (bs : List α) :
    lines sep (l ++ sep :: bs) = l :: lines sep bs := by
  induction l with
  | nil => simp only [List.nil_append, lines, if_true]
  | cons b l ih =>
    rw [List.mem_cons, not_or] at h
    have hb : ¬ b = sep := fun heq => h.1 heq.symm
    simp only [List.cons_append, lines, if_neg hb, ih h.2]

/-- A last line that is not ended. -/
theorem lines_last {l : List α} (h : sep ∉ l) : lines sep l = if l = [] then [] else [l] := by
  induction l with
  | nil => rfl
  | cons b l ih =>
    rw [List.mem_cons, not_or] at h
    have hb : ¬ b = sep := fun heq => h.1 heq.symm
    simp only [lines, if_neg hb, ih h.2]
    cases l with
    | nil => rfl
    | cons c l => rfl

omit [DecidableEq α] in
/-- Induction by lines: a text is its first line, a separator and the rest, or has none. -/
theorem induction_on (sep : α) {motive : List α → Prop} (s : List α)
    (last : ∀ l, sep ∉ l → motive l)
    (line : ∀ l bs, sep ∉ l → motive bs → motive (l ++ sep :: bs)) : motive s := by
  induction hlen : s.length using Nat.strong_induction_on generalizing s with
  | _ n ih =>
    by_cases hmem : sep ∈ s
    · obtain ⟨l, bs, rfl, hl⟩ := List.eq_append_cons_of_mem hmem
      rw [List.length_append, List.length_cons] at hlen
      exact line l bs hl (ih bs.length (by omega) bs rfl)
    · exact last s hmem

theorem length_le_of_mem_lines {l s : List α} (h : l ∈ lines sep s) : l.length ≤ s.length := by
  induction s using induction_on sep with
  | last s hs =>
    rw [lines_last hs] at h
    split at h
    · cases h
    · rw [List.mem_singleton.mp h]
  | line s bs hs ih =>
    rw [lines_append hs, List.mem_cons] at h
    rw [List.length_append, List.length_cons]
    rcases h with rfl | h
    · omega
    · have := ih h
      omega

/-- A line of a text with a separator lies in front of it or behind it. -/
theorem mem_lines_append {l s bs : List α} (h : l ∈ lines sep (s ++ sep :: bs)) :
    l.length ≤ s.length ∨ l ∈ lines sep bs := by
  induction s using induction_on sep with
  | last s hs =>
    rw [lines_append hs, List.mem_cons] at h
    exact h.imp (fun heq => (congrArg List.length heq).le) id
  | line s rest hs ih =>
    rw [List.append_assoc, List.cons_append, lines_append hs, List.mem_cons] at h
    rw [List.length_append, List.length_cons]
    rcases h with rfl | h
    · exact .inl (by omega)
    · exact (ih h).imp (fun hle => by omega) id

theorem lines_unlines {L : List (List α)} (h : ∀ l ∈ L, sep ∉ l) :
    lines sep (unlines sep L) = L := by
  induction L with
  | nil => rfl
  | cons l L ih =>
    rw [unlines_cons, lines_append (h l List.mem_cons_self),
      ih fun l' hl' => h l' (List.mem_cons_of_mem _ hl')]

/-! ## Torn streams -/

/-- What is left of some lines when the stream breaks off. -/
inductive Torn : List (List α) → List (List α) → Prop
  | nil {L : List (List α)} : Torn L []
  | cut {l q : List α} {L : List (List α)} : q <+: l → Torn (l :: L) [q]
  | cons {l : List α} {L ls : List (List α)} : Torn L ls → Torn (l :: L) (l :: ls)

namespace Torn

omit [DecidableEq α]

variable {L ls : List (List α)}

/-- Each line that is left is a first part of one that was there. -/
theorem exists_prefix (h : Torn L ls) : ∀ q ∈ ls, ∃ l ∈ L, q <+: l := by
  induction h with
  | nil => exact fun q hq => absurd hq List.not_mem_nil
  | @cut l q L hql =>
    intro q' hq'
    rw [List.mem_singleton.mp hq']
    exact ⟨l, List.mem_cons_self, hql⟩
  | @cons l L ls _ ih =>
    intro q hq
    rcases List.mem_cons.mp hq with rfl | hq
    · exact ⟨q, List.mem_cons_self, List.prefix_rfl⟩
    · obtain ⟨l', hl', hql'⟩ := ih q hq
      exact ⟨l', List.mem_cons_of_mem _ hl', hql'⟩

theorem takeWhile (h : Torn L ls) (p : List α → Bool) : Torn L (ls.takeWhile p) := by
  induction h with
  | nil => exact .nil
  | @cut l q L hql =>
    rw [List.takeWhile_cons]
    split
    · exact .cut hql
    · exact .nil
  | @cons l L ls _ ih =>
    rw [List.takeWhile_cons]
    split
    · exact .cons ih
    · exact .nil

end Torn

/-- A stream of lines that is cut after any number of symbols. -/
theorem torn_lines_take {L : List (List α)} (h : ∀ l ∈ L, sep ∉ l) :
    ∀ n, Torn L (lines sep ((unlines sep L).take n)) := by
  induction L with
  | nil =>
    intro n
    rw [unlines, List.flatMap_nil, List.take_nil]
    exact .nil
  | cons l L ih =>
    intro n
    have hl : sep ∉ l := h l List.mem_cons_self
    rw [unlines_cons]
    rcases Nat.lt_or_ge l.length n with hn | hn
    · -- the cut is behind this line
      obtain ⟨m, rfl⟩ : ∃ m, n = l.length + (m + 1) := ⟨n - l.length - 1, by omega⟩
      rw [List.take_length_add_append, List.take_succ_cons, lines_append hl]
      exact .cons (ih (fun l' hl' => h l' (List.mem_cons_of_mem _ hl')) m)
    · rw [List.take_append_of_le_length hn, lines_last fun hmem => hl (List.mem_of_mem_take hmem)]
      split
      · exact .nil
      · exact .cut (List.take_prefix n l)

end Lines
