import Mathlib.Data.Finmap
import Mathlib.Data.Finset.Sort
import Mathlib.Data.List.Sort

/-!
# Finite maps with a fixed value type

`GoMap K V` is `Finmap` at a constant family: the finite maps of a language
whose maps have one value type. Two maps are equal when they have the same
lookups. The order in which a loop ranges over a map is not part of the map;
a loop that can observe the order takes a `RangeOrder`.

* `lookup_insert_ite`, `lookup_erase_ite`: lookups after one write.
* `eraseAll`, `insertAll`, `filterKeys`, `mapVal`: the bulk operations, each
  with its lookup.
* `RangeOrder`: one enumeration of every finite key set, in any order.
-/

/-- A finite map from `K` to `V`. -/
abbrev GoMap (K V : Type) := Finmap fun _ : K => V

namespace Finmap

variable {K V W : Type} [DecidableEq K]

/-! ## Single reads and writes -/

theorem lookup_insert_ite (m : GoMap K V) (a b : K) (v : V) :
    (m.insert a v).lookup b = if b = a then some v else m.lookup b := by
  split
  · next h => subst h; exact lookup_insert m
  · next h => exact lookup_insert_of_ne m h

theorem lookup_erase_ite (m : GoMap K V) (a b : K) :
    (m.erase a).lookup b = if b = a then none else m.lookup b := by
  split
  · next h => subst h; exact lookup_erase b m
  · next h => exact lookup_erase_ne h

/-- The two-value read `v, ok := m[k]`, where a missing key reads as `zero`. -/
def read (m : GoMap K V) (zero : V) (k : K) : V × Bool :=
  match m.lookup k with
  | some v => (v, true)
  | none => (zero, false)

theorem read_of_some {m : GoMap K V} {zero v : V} {k : K} (h : m.lookup k = some v) :
    m.read zero k = (v, true) := by
  simp only [read, h]

/-! ## Bulk writes -/

/-- Erase every key of a list. -/
def eraseAll (m : GoMap K V) (ks : List K) : GoMap K V :=
  ks.foldl (fun m k => m.erase k) m

theorem lookup_eraseAll (m : GoMap K V) (ks : List K) (b : K) :
    (m.eraseAll ks).lookup b = if b ∈ ks then none else m.lookup b := by
  induction ks generalizing m with
  | nil => simp [eraseAll]
  | cons k ks ih =>
    have hstep : m.eraseAll (k :: ks) = (m.erase k).eraseAll ks := rfl
    rw [hstep, ih, lookup_erase_ite]
    by_cases hb : b ∈ ks
    · simp [hb]
    · by_cases hk : b = k <;> simp [hb, hk]

/-- A bulk erase depends only on which keys the list has. -/
theorem eraseAll_congr (m : GoMap K V) {ks ks' : List K} (h : ∀ k, k ∈ ks ↔ k ∈ ks') :
    m.eraseAll ks = m.eraseAll ks' :=
  ext_lookup fun b => by simp only [lookup_eraseAll, h b]

/-- Write one value under every key of a list. -/
def insertAll (m : GoMap K V) (ks : List K) (v : V) : GoMap K V :=
  ks.foldl (fun m k => m.insert k v) m

theorem lookup_insertAll (m : GoMap K V) (ks : List K) (v : V) (b : K) :
    (m.insertAll ks v).lookup b = if b ∈ ks then some v else m.lookup b := by
  induction ks generalizing m with
  | nil => simp [insertAll]
  | cons k ks ih =>
    have hstep : m.insertAll (k :: ks) v = (m.insert k v).insertAll ks v := rfl
    rw [hstep, ih, lookup_insert_ite]
    by_cases hb : b ∈ ks
    · simp [hb]
    · by_cases hk : b = k <;> simp [hb, hk]

/-- A bulk write depends only on which keys the list has. -/
theorem insertAll_congr (m : GoMap K V) {ks ks' : List K} (v : V)
    (h : ∀ k, k ∈ ks ↔ k ∈ ks') : m.insertAll ks v = m.insertAll ks' v :=
  ext_lookup fun b => by simp only [lookup_insertAll, h b]

theorem mem_insertAll {m : GoMap K V} {ks : List K} {v : V} {b : K} :
    b ∈ m.insertAll ks v ↔ b ∈ ks ∨ b ∈ m := by
  rw [← lookup_isSome, ← lookup_isSome, lookup_insertAll]
  by_cases hb : b ∈ ks <;> simp [hb]

/-! ## Filtering keys and mapping values -/

/-- The entries whose key satisfies `p`. -/
def filterKeys (p : K → Bool) (m : GoMap K V) : GoMap K V :=
  ⟨m.entries.filter fun e => p e.1, Multiset.nodup_keys.mp
    (Multiset.nodup_of_le (Multiset.map_le_map (Multiset.filter_le _ _)) m.nodupKeys.nodup_keys)⟩

theorem lookup_filterKeys (p : K → Bool) (m : GoMap K V) (k : K) :
    (m.filterKeys p).lookup k = if p k then m.lookup k else none := by
  apply Option.ext
  intro v
  rw [Option.mem_def.symm, mem_lookup_iff, filterKeys, Multiset.mem_filter]
  split
  · next h => rw [← mem_lookup_iff, Option.mem_def]; simp [h]
  · next h => simp [h]

/-- Apply a function to every value, which may look at the key. -/
def mapVal (f : K → V → W) (m : GoMap K V) : GoMap K W :=
  ⟨m.entries.map fun e => ⟨e.1, f e.1 e.2⟩, Multiset.nodup_keys.mp (by
    have hkeys : (m.entries.map fun e => (⟨e.1, f e.1 e.2⟩ : Sigma fun _ : K => W)).keys =
        m.entries.keys := by simp [Multiset.keys, Multiset.map_map]
    rw [hkeys]
    exact m.nodupKeys.nodup_keys)⟩

theorem lookup_mapVal (f : K → V → W) (m : GoMap K V) (k : K) :
    (m.mapVal f).lookup k = (m.lookup k).map (f k) := by
  apply Option.ext
  intro w
  rw [Option.mem_def.symm, mem_lookup_iff, mapVal, Multiset.mem_map, Option.map_eq_some_iff]
  constructor
  · rintro ⟨⟨k', v⟩, hmem, heq⟩
    cases heq
    exact ⟨v, mem_lookup_iff.mpr hmem, rfl⟩
  · rintro ⟨v, hv, rfl⟩
    exact ⟨⟨k, v⟩, mem_lookup_iff.mp hv, rfl⟩

theorem mapVal_insert (f : K → V → W) (m : GoMap K V) (k : K) (v : V) :
    (m.insert k v).mapVal f = (m.mapVal f).insert k (f k v) :=
  ext_lookup fun b => by
    rw [lookup_mapVal, lookup_insert_ite, lookup_insert_ite, lookup_mapVal]
    split
    · next h => subst h; rfl
    · rfl

theorem mapVal_erase (f : K → V → W) (m : GoMap K V) (k : K) :
    (m.erase k).mapVal f = (m.mapVal f).erase k :=
  ext_lookup fun b => by
    rw [lookup_mapVal, lookup_erase_ite, lookup_erase_ite, lookup_mapVal]
    split <;> rfl

end Finmap

/-! ## Ranging over a key set -/

/-- How one execution of a `range` loop enumerates the keys of each finite
set: every key once, in an order the program does not choose. -/
structure RangeOrder (K : Type) where
  keys : Finset K → List K
  nodup : ∀ s, (keys s).Nodup
  mem_keys : ∀ {s k}, k ∈ keys s ↔ k ∈ s

namespace RangeOrder

variable {K : Type}

@[simp] theorem keys_empty (o : RangeOrder K) : o.keys ∅ = [] := by
  rw [List.eq_nil_iff_forall_not_mem]
  intro k hk
  exact absurd (o.mem_keys.mp hk) (Finset.notMem_empty k)

theorem perm (o o' : RangeOrder K) (s : Finset K) : (o.keys s).Perm (o'.keys s) :=
  (List.perm_ext_iff_of_nodup (o.nodup s) (o'.nodup s)).mpr fun _ =>
    o.mem_keys.trans o'.mem_keys.symm

/-- Ascending order, computed by insertion so that it reduces in the kernel. -/
def ascending [LinearOrder K] : RangeOrder K where
  keys s := Quot.liftOn s.val (List.insertionSort (· ≤ ·)) fun _ _ h =>
    (((List.perm_insertionSort _ _).trans h).trans (List.perm_insertionSort _ _).symm).eq_of_pairwise'
      (List.pairwise_insertionSort _ _) (List.pairwise_insertionSort _ _)
  nodup := by
    rintro ⟨⟨l⟩, hl⟩
    exact (List.perm_insertionSort _ l).nodup_iff.mpr hl
  mem_keys := by
    rintro ⟨⟨l⟩, hl⟩ k
    exact List.mem_insertionSort _

theorem ascending_keys [LinearOrder K] (s : Finset K) : ascending.keys s = s.sort := by
  have hperm : (ascending.keys s).Perm s.sort :=
    (List.perm_ext_iff_of_nodup (ascending.nodup s) (Finset.sort_nodup s _)).mpr fun k => by
      rw [ascending.mem_keys, Finset.mem_sort]
  refine hperm.eq_of_pairwise' ?_ (Finset.pairwise_sort s _)
  obtain ⟨⟨l⟩, hl⟩ := s
  exact List.pairwise_insertionSort _ l

end RangeOrder
