import Zodiac.DataStore
import Zodiac.Lib.Paging

/-!
# Paged listings

A client lists a prefix page by page: it calls `ListPaged` with the empty cursor,
then with the `NextKey` of each page until that is empty. Other operations may
change the store between the calls.

* `listPaged_spec`: one call is one page of the keys with the prefix.
* `pagination_exact`: what the pages of an iteration add up to.
-/

namespace Zodiac

/-! ## Definitions -/

section

variable (pre : String) (limit : Int) (stores : Nat → DataStore)

/-- The result of the `i`-th call, where `stores i` is the store at that call. -/
def pageAt : Nat → GoMap String String × String
  | 0 => (stores 0).listPaged pre limit ""
  | i + 1 => (stores (i + 1)).listPaged pre limit (pageAt i).2

/-- The client makes the calls up to the `n`-th. -/
def Called (n : Nat) : Prop := ∀ i < n, (pageAt pre limit stores i).2 ≠ ""

/-- What the pages of an iteration of `n + 1` calls hold. -/
structure PagesExact (n : Nat) : Prop where
  /-- Later pages have larger keys. -/
  increasing : ∀ i j, i < j → j ≤ n → ∀ k ∈ (pageAt pre limit stores i).1,
    ∀ k' ∈ (pageAt pre limit stores j).1, k < k'
  /-- No page has more than `limit` keys. -/
  bounded : ∀ i ≤ n, ((pageAt pre limit stores i).1.keys.card : Int) ≤ limit
  /-- A page has keys with the prefix only, with their current values. -/
  current : ∀ i ≤ n, ∀ k v, (pageAt pre limit stores i).1.lookup k = some v →
    hasPrefix k pre = true ∧ (stores i).data.lookup k = some v
  /-- After the last page, a key that was there at every call is on exactly one. -/
  once : (pageAt pre limit stores n).2 = "" → ∀ k, hasPrefix k pre = true →
    (∀ i ≤ n, k ∈ (stores i).data) → ∃! i, i ≤ n ∧ k ∈ (pageAt pre limit stores i).1
  /-- Over a store that does not change, the iteration ends and lists the prefix. -/
  unchanged : (∀ i, stores i = stores 0) → ∃ last, Called pre limit stores last ∧
    (pageAt pre limit stores last).2 = "" ∧
    last + 1 = max 1 (((stores 0).list pre).keys.card ⌈/⌉ limit.toNat) ∧
    ∀ k v, ((stores 0).list pre).lookup k = some v ↔
      ∃ i ≤ last, (pageAt pre limit stores i).1.lookup k = some v

end

namespace PaginationLemmas

/-! ## One call -/

/-- The keys with the prefix. -/
def keysWith (ds : DataStore) (pre : String) : Finset String := (ds.list pre).keys

theorem lookup_list {ds : DataStore} {pre k v : String} :
    (ds.list pre).lookup k = some v ↔ hasPrefix k pre = true ∧ ds.data.lookup k = some v := by
  rw [DataStore.list, Finmap.lookup_filterKeys]
  split
  · next h => simp [h]
  · next h => simp [h]

theorem mem_keysWith {ds : DataStore} {pre k : String} :
    k ∈ keysWith ds pre ↔ hasPrefix k pre = true ∧ k ∈ ds.data := by
  simp only [keysWith, Finmap.mem_keys, Finmap.mem_iff, lookup_list, exists_and_left]

/-- The copy loop stops in front of the key at `limit`. -/
theorem listPage_spec (ds : DataStore) {limit : Int} (hlimit : 0 < limit) (ks : List String)
    {i : Int} (hi : i ≤ limit) (result : GoMap String String) :
    (ds.listPage limit ks i result).2 = (ks[(limit - i).toNat]?).getD "" ∧
    ∀ k, (ds.listPage limit ks i result).1.lookup k =
      if k ∈ ks.take (limit - i).toNat then some (ds.data.read "" k).1 else result.lookup k := by
  induction ks generalizing i result with
  | nil => simp [DataStore.listPage]
  | cons key ks ih =>
    rw [DataStore.listPage]
    split
    · next hstop =>
      have hzero : (limit - i).toNat = 0 := by omega
      rw [hzero]
      exact ⟨rfl, fun k => by simp⟩
    · next hgo =>
      have hsucc : (limit - i).toNat = (limit - (i + 1)).toNat + 1 := by omega
      have hle : i + 1 ≤ limit := by omega
      obtain ⟨hnext, hlookup⟩ := ih hle (result.insert key (ds.data.read "" key).1)
      rw [hsucc]
      refine ⟨hnext, fun k => ?_⟩
      rw [hlookup k, List.take_succ_cons, Finmap.lookup_insert_ite]
      by_cases hk : k = key
      · simp [hk]
      · simp [hk]

theorem empty_le (k : String) : "" ≤ k := by
  rw [String.le_iff_toList_le]
  exact not_lt.mp (List.not_lt_nil _)

/-- The loop of `ListPaged` runs over the keys with the prefix from the cursor on. -/
theorem listPaged_eq (ds : DataStore) (pre : String) (limit : Int) (keyAfter : String) :
    ds.listPaged pre limit keyAfter =
      ds.listPage limit (Paging.rest (keysWith ds pre) keyAfter) 0 ∅ := by
  rw [DataStore.listPaged, RangeOrder.ascending_keys, Paging.rest]
  congr 2
  ext k
  rw [Finset.mem_filter, mem_keysWith, Finmap.mem_keys, ← Finmap.lookup_isSome,
    ← Finmap.lookup_isSome, Finmap.lookup_filterKeys]
  split
  · next h => simp_all
  · next h => simp_all

/-- `ListPaged` is a page of the keys with the prefix, with the values that the
store has for them. -/
theorem listPaged_spec (ds : DataStore) (pre : String) {limit : Int} (hlimit : 0 < limit)
    (keyAfter : String) :
    (ds.listPaged pre limit keyAfter).2 =
      (Paging.page limit.toNat "" (keysWith ds pre) keyAfter).2 ∧
    ∀ k v, (ds.listPaged pre limit keyAfter).1.lookup k = some v ↔
      k ∈ (Paging.page limit.toNat "" (keysWith ds pre) keyAfter).1 ∧
        ds.data.lookup k = some v := by
  rw [listPaged_eq]
  obtain ⟨hnext, hlookup⟩ :=
    listPage_spec ds hlimit (Paging.rest (keysWith ds pre) keyAfter) (le_of_lt hlimit) ∅
  rw [Int.sub_zero] at hnext hlookup
  refine ⟨hnext, fun k v => ?_⟩
  rw [hlookup k, Paging.page]
  split
  · next hk =>
    -- a key on the page is in the store, so the read finds its value
    have hmem : k ∈ ds.data :=
      (mem_keysWith.mp (Paging.mem_rest.mp (List.mem_of_mem_take hk)).1).2
    obtain ⟨w, hw⟩ := Finmap.mem_iff.mp hmem
    rw [Finmap.read_of_some hw, hw]
    exact (and_iff_right hk).symm
  · next hk =>
    rw [Finmap.lookup_empty]
    exact iff_of_false (Option.some_ne_none v).symm fun h => hk h.1

/-! ## The iteration -/

section Iteration

variable {pre : String} {limit : Int} (hlimit : 0 < limit) {stores : Nat → DataStore}

include hlimit

theorem pageAt_eq (i : Nat) :
    pageAt pre limit stores i = (stores i).listPaged pre limit
      (Paging.cursor limit.toNat "" (fun i => keysWith (stores i) pre) i) := by
  induction i with
  | zero => rfl
  | succ i ih => rw [pageAt, Paging.cursor, ih, (listPaged_spec _ _ hlimit _).1]

theorem pageAt_next (i : Nat) :
    (pageAt pre limit stores i).2 =
      Paging.cursor limit.toNat "" (fun i => keysWith (stores i) pre) (i + 1) := by
  rw [pageAt_eq hlimit, (listPaged_spec _ _ hlimit _).1, Paging.cursor]

theorem called_iff (n : Nat) :
    Called pre limit stores n ↔
      Paging.Performed limit.toNat "" (fun i => keysWith (stores i) pre) n := by
  simp only [Called, Paging.Performed, pageAt_next hlimit]

theorem lookup_pageAt (i : Nat) (k v : String) :
    (pageAt pre limit stores i).1.lookup k = some v ↔
      k ∈ (Paging.page limit.toNat "" (keysWith (stores i) pre)
        (Paging.cursor limit.toNat "" (fun i => keysWith (stores i) pre) i)).1 ∧
      (stores i).data.lookup k = some v := by
  rw [pageAt_eq hlimit, (listPaged_spec _ _ hlimit _).2]

theorem mem_pageAt (i : Nat) (k : String) :
    k ∈ (pageAt pre limit stores i).1 ↔
      k ∈ (Paging.page limit.toNat "" (keysWith (stores i) pre)
        (Paging.cursor limit.toNat "" (fun i => keysWith (stores i) pre) i)).1 := by
  have hpos : 0 < limit.toNat := Int.lt_toNat.mpr hlimit
  rw [Finmap.mem_iff]
  constructor
  · rintro ⟨v, hv⟩
    exact ((lookup_pageAt hlimit i k v).mp hv).1
  · intro hk
    have hmem := (mem_keysWith.mp ((Paging.mem_page hpos empty_le).mp hk).1).2
    obtain ⟨v, hv⟩ := Finmap.mem_iff.mp hmem
    exact ⟨v, (lookup_pageAt hlimit i k v).mpr ⟨hk, hv⟩⟩

theorem card_pageAt (i : Nat) : ((pageAt pre limit stores i).1.keys.card : Int) ≤ limit := by
  have hsub : (pageAt pre limit stores i).1.keys ⊆ (Paging.page limit.toNat ""
      (keysWith (stores i) pre)
      (Paging.cursor limit.toNat "" (fun i => keysWith (stores i) pre) i)).1.toFinset := by
    intro k hk
    rw [List.mem_toFinset, ← mem_pageAt hlimit]
    exact Finmap.mem_keys.mp hk
  have hcard := le_trans (Finset.card_le_card hsub)
    (le_trans (List.toFinset_card_le _) (List.length_take_le _ _))
  omega

/-- A complete iteration has every key that was there at all of its calls. -/
theorem exists_pageAt {n : Nat} (hend : (pageAt pre limit stores n).2 = "") {k : String}
    (hpre : hasPrefix k pre = true) (hk : ∀ i ≤ n, k ∈ (stores i).data) :
    ∃ i ≤ n, k ∈ (pageAt pre limit stores i).1 := by
  have hpos : 0 < limit.toNat := Int.lt_toNat.mpr hlimit
  rw [pageAt_next hlimit] at hend
  obtain ⟨i, hi, hmem⟩ := Paging.exists_mem_page hpos empty_le hend
    fun i hi => mem_keysWith.mpr ⟨hpre, hk i hi⟩
  exact ⟨i, hi, (mem_pageAt hlimit i k).mpr hmem⟩

theorem pageAt_increasing {n : Nat} (hn : Called pre limit stores n) {i j : Nat} (hij : i < j)
    (hj : j ≤ n) {k k' : String} (hk : k ∈ (pageAt pre limit stores i).1)
    (hk' : k' ∈ (pageAt pre limit stores j).1) : k < k' :=
  Paging.page_lt_page (Int.lt_toNat.mpr hlimit) empty_le ((called_iff hlimit n).mp hn) hij hj
    ((mem_pageAt hlimit i k).mp hk) ((mem_pageAt hlimit j k').mp hk')

/-- The last call over an unchanged store is the one that the number of keys
says. -/
theorem pageAt_unchanged {ds : DataStore} (hds : ∀ i, stores i = ds) :
    Called pre limit stores (((keysWith ds pre).card - 1) / limit.toNat) ∧
    (pageAt pre limit stores (((keysWith ds pre).card - 1) / limit.toNat)).2 = "" := by
  have hpos : 0 < limit.toNat := Int.lt_toNat.mpr hlimit
  have hsets : (fun i => keysWith (stores i) pre) = fun _ => keysWith ds pre :=
    funext fun i => by rw [hds i]
  rw [called_iff hlimit, pageAt_next hlimit, hsets]
  exact ⟨Paging.performed_of_const empty_le hpos, Paging.completed_of_const empty_le hpos⟩

end Iteration

end PaginationLemmas

open PaginationLemmas

/-! ## Main result -/

/-- Paging through a prefix from the empty cursor returns every key once, whatever
happens to the store between the calls. -/
theorem pagination_exact (pre : String) (limit : Int) (hlimit : 1 ≤ limit)
    (stores : Nat → DataStore) (n : Nat) (hn : Called pre limit stores n) :
    PagesExact pre limit stores n where
  increasing i j hij hj k hk k' hk' := pageAt_increasing hlimit hn hij hj hk hk'
  bounded i _ := card_pageAt hlimit i
  current i _ k v hv := by
    obtain ⟨hpage, hdata⟩ := (lookup_pageAt hlimit i k v).mp hv
    have hkeys := ((Paging.mem_page (Int.lt_toNat.mpr hlimit) empty_le).mp hpage).1
    exact ⟨(mem_keysWith.mp hkeys).1, hdata⟩
  once hend k hpre hk := by
    obtain ⟨i, hi, hmem⟩ := exists_pageAt hlimit hend hpre hk
    refine ⟨i, ⟨hi, hmem⟩, ?_⟩
    rintro j ⟨hj, hmem'⟩
    -- on two pages it would be below itself
    rcases lt_trichotomy i j with hlt | heq | hgt
    · exact absurd (pageAt_increasing hlimit hn hlt hj hmem hmem') (lt_irrefl k)
    · exact heq.symm
    · exact absurd (pageAt_increasing hlimit hn hgt hi hmem' hmem) (lt_irrefl k)
  unchanged hsame := by
    obtain ⟨hcalled, hend⟩ : Called pre limit stores _ ∧ _ := pageAt_unchanged hlimit hsame
    refine ⟨_, hcalled, hend, Paging.lastPage_succ _ (Int.lt_toNat.mpr hlimit), fun k v => ?_⟩
    rw [lookup_list]
    constructor
    · rintro ⟨hpre, hv⟩
      have hall : ∀ i, (stores i).data.lookup k = some v := fun i => by rw [hsame i, hv]
      obtain ⟨i, hi, hmem⟩ := exists_pageAt hlimit hend hpre
        fun i _ => Finmap.mem_of_lookup_eq_some (hall i)
      exact ⟨i, hi, (lookup_pageAt hlimit i k v).mpr ⟨(mem_pageAt hlimit i k).mp hmem, hall i⟩⟩
    · rintro ⟨i, _, hv⟩
      obtain ⟨hpage, hdata⟩ := (lookup_pageAt hlimit i k v).mp hv
      have hkeys := ((Paging.mem_page (Int.lt_toNat.mpr hlimit) empty_le).mp hpage).1
      rw [hsame i] at hkeys hdata
      exact ⟨(mem_keysWith.mp hkeys).1, hdata⟩

/-- The cursor key `b` is deleted between two pages of one key, and `c` arrives. -/
def cursorDeleted : Nat → DataStore
  | 0 => ((DataStore.new.putLocked "a" "1" 0).1.putLocked "b" "2" 0).1
  | _ => ((DataStore.new.putLocked "a" "1" 0).1.putLocked "c" "3" 0).1

/-- The second page of that iteration is made and has `c`. -/
theorem pagination_cursor_deleted :
    (pageAt "" 1 cursorDeleted 0).2 = "b" ∧
    (pageAt "" 1 cursorDeleted 1).1.lookup "c" = some "3" ∧
    PagesExact "" 1 cursorDeleted 1 := by
  refine ⟨by decide, by decide, pagination_exact "" 1 (by decide) cursorDeleted 1 ?_⟩
  intro i hi
  obtain rfl : i = 0 := Nat.lt_one_iff.mp hi
  decide

end Zodiac
