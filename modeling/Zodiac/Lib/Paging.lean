import Mathlib.Algebra.Order.Floor.Div
import Mathlib.Data.Finset.Sort

/-!
# Paging through a changing set

A page lists the first `limit` elements of a finite set from a cursor on, in
ascending order, and returns the element after them as the next cursor. The
least element `bot` serves both as the first cursor and as the end marker. The
set may be another one at every call.

* `mem_page`: a page is exactly what lies between its cursor and the next one.
* `page_lt_page`: later pages have larger elements.
* `exists_mem_page`: an element that is there at every call is on some page.
* `performed_of_const`, `completed_of_const`, `lastPage_succ`: the pages of a set
  that does not change.
-/

namespace Paging

variable {K : Type*} [LinearOrder K]

/-- The elements from the cursor on, in order. -/
def rest (s : Finset K) (c : K) : List K := (s.filter fun k => c ≤ k).sort

/-- One page and the next cursor. -/
def page (limit : Nat) (bot : K) (s : Finset K) (c : K) : List K × K :=
  ((rest s c).take limit, (rest s c)[limit]?.getD bot)

/-- The cursor of the `i`-th call, where `sets i` is the set at that call. -/
def cursor (limit : Nat) (bot : K) (sets : Nat → Finset K) : Nat → K
  | 0 => bot
  | i + 1 => (page limit bot (sets i) (cursor limit bot sets i)).2

/-- The calls up to the `n`-th are made: none of the pages before it was the
last. -/
def Performed (limit : Nat) (bot : K) (sets : Nat → Finset K) (n : Nat) : Prop :=
  ∀ i < n, cursor limit bot sets (i + 1) ≠ bot

/-! ## One page -/

theorem mem_rest {s : Finset K} {c k : K} : k ∈ rest s c ↔ k ∈ s ∧ c ≤ k := by
  rw [rest, Finset.mem_sort, Finset.mem_filter]

theorem rest_lt {s : Finset K} {c x y : K} {i j : Nat} (hi : (rest s c)[i]? = some x)
    (hj : (rest s c)[j]? = some y) (h : i < j) : x < y := by
  obtain ⟨hilt, rfl⟩ := List.getElem?_eq_some_iff.mp hi
  obtain ⟨hjlt, rfl⟩ := List.getElem?_eq_some_iff.mp hj
  exact (Finset.sortedLT_sort _).getElem_lt_getElem_of_lt h

section Page

variable {limit : Nat} (hlimit : 0 < limit) {bot : K} (hbot : ∀ k, bot ≤ k) {s : Finset K} {c : K}

include hlimit

/-- The element after a page lies beyond the cursor, since the page before it is
not empty. -/
theorem lt_of_getElem?_limit {x : K} (h : (rest s c)[limit]? = some x) : c < x := by
  have hpos : 0 < (rest s c).length :=
    lt_of_le_of_lt (Nat.zero_le _) (List.getElem?_eq_some_iff.mp h).1
  have hfirst : (rest s c)[0]? = some (rest s c)[0] := List.getElem?_eq_getElem hpos
  have hle : c ≤ (rest s c)[0] := (mem_rest.mp (List.getElem_mem hpos)).2
  exact lt_of_le_of_lt hle (rest_lt hfirst h hlimit)

include hbot

/-- The end marker is never the element after a page. -/
theorem next_eq_bot_iff : (page limit bot s c).2 = bot ↔ (rest s c)[limit]? = none := by
  unfold page
  cases h : (rest s c)[limit]? with
  | none => simp
  | some x =>
    have hlt : bot < x := lt_of_le_of_lt (hbot c) (lt_of_getElem?_limit hlimit h)
    simpa using ne_of_gt hlt

theorem cursor_lt_next (h : (page limit bot s c).2 ≠ bot) : c < (page limit bot s c).2 := by
  cases hx : (rest s c)[limit]? with
  | none => exact absurd ((next_eq_bot_iff hlimit hbot).mpr hx) h
  | some x =>
    simp only [page, hx, Option.getD_some]
    exact lt_of_getElem?_limit hlimit hx

/-- A page is what the set has between the cursor and the next one. -/
theorem mem_page {k : K} : k ∈ (page limit bot s c).1 ↔
    k ∈ s ∧ c ≤ k ∧ ((page limit bot s c).2 = bot ∨ k < (page limit bot s c).2) := by
  rw [next_eq_bot_iff hlimit hbot]
  constructor
  · intro h
    obtain ⟨j, hj⟩ := List.getElem?_of_mem h
    have hlt : j < limit := by
      by_contra hge
      rw [page, List.getElem?_take_eq_none (Nat.le_of_not_lt hge)] at hj
      cases hj
    rw [page, List.getElem?_take_of_lt hlt] at hj
    obtain ⟨hs, hc⟩ := mem_rest.mp (List.mem_of_getElem? hj)
    refine ⟨hs, hc, ?_⟩
    cases hx : (rest s c)[limit]? with
    | none => exact .inl rfl
    | some x =>
      simp only [page, hx, Option.getD_some]
      exact .inr (rest_lt hj hx hlt)
  · rintro ⟨hs, hc, hnext⟩
    obtain ⟨j, hj⟩ := List.getElem?_of_mem (mem_rest.mpr ⟨hs, hc⟩)
    have hlt : j < limit := by
      by_contra hge
      have hge : limit ≤ j := Nat.le_of_not_lt hge
      -- then the element after the page is at most `k`
      have hlen : limit < (rest s c).length :=
        lt_of_le_of_lt hge (List.getElem?_eq_some_iff.mp hj).1
      have hx := List.getElem?_eq_getElem hlen
      rcases hnext with hnone | hlt
      · rw [hx] at hnone
        cases hnone
      · simp only [page, hx, Option.getD_some] at hlt
        rcases Nat.eq_or_lt_of_le hge with rfl | hgt
        · rw [hj] at hx
          exact absurd hlt (Option.some.inj hx ▸ lt_irrefl _)
        · exact absurd hlt (not_lt_of_gt (rest_lt hx hj hgt))
    apply List.mem_of_getElem? (i := j)
    rw [page, List.getElem?_take_of_lt hlt]
    exact hj

end Page

/-! ## Whole iterations -/

section Iteration

variable {limit : Nat} (hlimit : 0 < limit) {bot : K} (hbot : ∀ k, bot ≤ k)
  {sets : Nat → Finset K} {n : Nat}

include hlimit hbot

theorem cursor_mono (hn : Performed limit bot sets n) {i j : Nat} (hij : i ≤ j) (hj : j ≤ n) :
    cursor limit bot sets i ≤ cursor limit bot sets j := by
  induction j, hij using Nat.le_induction with
  | base => exact le_rfl
  | succ j _ ih =>
    have hlt := cursor_lt_next hlimit hbot (hn j hj)
    exact le_trans (ih (Nat.le_of_succ_le hj)) (le_of_lt hlt)

theorem page_lt_page (hn : Performed limit bot sets n) {i j : Nat} (hij : i < j) (hj : j ≤ n)
    {k k' : K} (hk : k ∈ (page limit bot (sets i) (cursor limit bot sets i)).1)
    (hk' : k' ∈ (page limit bot (sets j) (cursor limit bot sets j)).1) : k < k' := by
  have hnext := (mem_page hlimit hbot).mp hk
  have hlt : k < cursor limit bot sets (i + 1) :=
    hnext.2.2.resolve_left (hn i (lt_of_lt_of_le hij hj))
  have hle : cursor limit bot sets j ≤ k' := ((mem_page hlimit hbot).mp hk').2.1
  exact lt_of_lt_of_le hlt (le_trans (cursor_mono hlimit hbot hn hij hj) hle)

/-- An element that is in the set at every call of a complete iteration is on one
of the pages: the first one whose next cursor is beyond it. -/
theorem exists_mem_page (hend : cursor limit bot sets (n + 1) = bot) {k : K}
    (hk : ∀ i ≤ n, k ∈ sets i) :
    ∃ i ≤ n, k ∈ (page limit bot (sets i) (cursor limit bot sets i)).1 := by
  by_contra hnone
  -- while it is on no page, the cursor does not pass it
  have hbelow : ∀ i ≤ n, cursor limit bot sets i ≤ k := by
    intro i hi
    induction i with
    | zero => exact hbot k
    | succ i ih =>
      by_contra hlt
      have hcur := ih (Nat.le_of_succ_le hi)
      have hpage := (mem_page hlimit hbot).mpr
        ⟨hk i (Nat.le_of_succ_le hi), hcur, .inr (not_le.mp hlt)⟩
      exact hnone ⟨i, Nat.le_of_succ_le hi, hpage⟩
  exact hnone ⟨n, le_rfl, (mem_page hlimit hbot).mpr ⟨hk n le_rfl, hbelow n le_rfl, .inl hend⟩⟩

end Iteration

/-! ## A set that does not change -/

theorem rest_eq_filter (s : Finset K) (c : K) : rest s c = s.sort.filter fun k => c ≤ k := by
  have hperm : (rest s c).Perm (s.sort.filter fun k => c ≤ k) := by
    refine (List.perm_ext_iff_of_nodup (Finset.sort_nodup _ _)
      ((Finset.sort_nodup _ _).filter _)).mpr fun k => ?_
    rw [← rest, mem_rest, List.mem_filter, Finset.mem_sort, decide_eq_true_eq]
  exact hperm.eq_of_pairwise' (Finset.pairwise_sort _ _) ((Finset.pairwise_sort s _).filter _)

/-- From its `a`-th element on, an ascending list is what is at least that
element. -/
theorem filter_le_eq_drop {l : List K} (hl : l.Pairwise (· < ·)) {c : K} {a : Nat}
    (h : l[a]? = some c) : (l.filter fun k => c ≤ k) = l.drop a := by
  have hdrop : l.drop a = c :: l.drop (a + 1) := by
    obtain ⟨hlt, rfl⟩ := List.getElem?_eq_some_iff.mp h
    exact List.drop_eq_getElem_cons hlt
  have hsplit := hl
  rw [← List.take_append_drop a l, List.pairwise_append, hdrop, List.pairwise_cons] at hsplit
  obtain ⟨_, ⟨habove, _⟩, hbelow⟩ := hsplit
  conv_lhs => rw [← List.take_append_drop a l]
  rw [List.filter_append, List.filter_eq_nil_iff.mpr, List.nil_append, List.filter_eq_self.mpr]
  · intro k hk
    rw [hdrop] at hk
    rcases List.mem_cons.mp hk with rfl | hk
    · exact decide_eq_true le_rfl
    · exact decide_eq_true (le_of_lt (habove k hk))
  · intro k hk
    rw [decide_eq_true_eq, not_le]
    exact hbelow k hk _ List.mem_cons_self

section Const

variable {limit : Nat} {bot : K} (hbot : ∀ k, bot ≤ k) {s : Finset K}

include hbot

/-- The `i`-th call sees what the first `i` full pages have left. -/
theorem rest_of_const {i : Nat} (hi : i = 0 ∨ i * limit < s.card) :
    rest s (cursor limit bot (fun _ => s) i) = s.sort.drop (i * limit) := by
  rw [rest_eq_filter]
  induction i with
  | zero =>
    rw [cursor, Nat.zero_mul, List.drop_zero, List.filter_eq_self.mpr]
    intro k _
    exact decide_eq_true (hbot k)
  | succ i ih =>
    have hlt : (i + 1) * limit < s.card := hi.resolve_left (Nat.succ_ne_zero i)
    have hrest := ih (.inr (lt_of_le_of_lt (Nat.mul_le_mul_right _ (Nat.le_succ i)) hlt))
    have hlen : (i + 1) * limit < s.sort.length := by rwa [Finset.length_sort]
    refine filter_le_eq_drop (Finset.sortedLT_sort s).pairwise ?_
    rw [cursor, page, rest_eq_filter, hrest, List.getElem?_drop, ← Nat.succ_mul,
      List.getElem?_eq_getElem hlen]
    rfl

variable (hlimit : 0 < limit)

include hlimit

theorem cursor_of_const {i : Nat} (hi : i = 0 ∨ i * limit < s.card) :
    cursor limit bot (fun _ => s) (i + 1) = bot ↔ s.card ≤ (i + 1) * limit := by
  have hnext := next_eq_bot_iff hlimit hbot (s := s) (c := cursor limit bot (fun _ => s) i)
  rw [cursor, hnext, rest_of_const hbot hi, List.getElem?_drop, ← Nat.succ_mul,
    List.getElem?_eq_none_iff, Finset.length_sort]

/-- Every call before the last finds a full page and more. -/
theorem performed_of_const : Performed limit bot (fun _ => s) ((s.card - 1) / limit) := by
  intro i hi
  have hpos : 0 < (s.card - 1) / limit := lt_of_le_of_lt (Nat.zero_le i) hi
  have hmul : (i + 1) * limit ≤ s.card - 1 := (Nat.le_div_iff_mul_le hlimit).mp hi
  have hcard : (i + 1) * limit < s.card := by
    have := Nat.pos_of_div_pos hpos
    omega
  have hbefore : i * limit < s.card :=
    lt_of_le_of_lt (Nat.mul_le_mul_right _ (Nat.le_succ i)) hcard
  rw [ne_eq, cursor_of_const hbot hlimit (.inr hbefore)]
  exact not_le.mpr hcard

theorem completed_of_const : cursor limit bot (fun _ => s) ((s.card - 1) / limit + 1) = bot := by
  have hover : s.card - 1 < ((s.card - 1) / limit + 1) * limit :=
    (Nat.div_lt_iff_lt_mul hlimit).mp (Nat.lt_succ_self _)
  have hlast : (s.card - 1) / limit * limit ≤ s.card - 1 := Nat.div_mul_le_self _ _
  refine (cursor_of_const hbot hlimit ?_).mpr (Nat.le_of_pred_lt hover)
  rcases Nat.eq_zero_or_pos s.card with h0 | hpos
  · exact .inl (by rw [h0, Nat.zero_sub, Nat.zero_div])
  · exact .inr (lt_of_le_of_lt hlast (Nat.sub_one_lt_of_lt hpos))

end Const

/-- The number of pages: one for an empty set, else the quotient rounded up. -/
theorem lastPage_succ (card : Nat) {limit : Nat} (hlimit : 0 < limit) :
    (card - 1) / limit + 1 = max 1 (card ⌈/⌉ limit) := by
  rw [Nat.ceilDiv_eq_add_pred_div]
  rcases Nat.eq_zero_or_pos card with rfl | hpos
  · rw [Nat.zero_add, Nat.div_eq_of_lt (Nat.sub_one_lt_of_lt hlimit), Nat.zero_sub, Nat.zero_div]
    rfl
  · have hshift : card + limit - 1 = card - 1 + limit := by omega
    rw [hshift, Nat.add_div_right _ hlimit, max_eq_right (Nat.le_add_left 1 _)]

end Paging
