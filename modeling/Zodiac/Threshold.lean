import Zodiac.DataStore
import Zodiac.Lib.MixedOrder

/-!
# The threshold conditions

`CompareGTE` and `CompareLTE` compare two strings as numbers when both parse as
64-bit integers and as strings otherwise: `MixedLE` with the parsed number as the
value.

* `evalCondition_gte`, `evalCondition_lte`: what the conditions test.
* `threshold_order`: a reflexive and total relation with `LTE` as its converse, which
  is transitive on three strings unless one that is no number lies between two numbers
  whose order as strings is not the one of their values.
* `threshold_not_transitive`: two numbers and a string in between.
-/

namespace Zodiac

/-- The number that a string stands for, if `strconv.ParseInt` accepts it. -/
def int64Value (s : String) : Option Int :=
  match parseInt s with
  | (n, none) => some n
  | (_, some _) => none

/-- `v` passes the threshold `c` from above. -/
def Gte (v c : String) : Prop := MixedLE int64Value c v

/-- `v` passes the threshold `c` from below. -/
def Lte (v c : String) : Prop := MixedLE int64Value v c

namespace ThresholdLemmas

theorem int64Value_eq_some {s : String} {n : Int} (h : parseInt s = (n, none)) :
    int64Value s = some n := by
  rw [int64Value, h]

theorem int64Value_eq_none {s : String} {n : Int} {e : NumError} (h : parseInt s = (n, some e)) :
    int64Value s = none := by
  rw [int64Value, h]

/-- The test of both conditions, for a comparison of numbers and one of strings that
say `≤` on the arguments in either order. -/
theorem compareThreshold_iff {v c : String} {num : Int → Int → Bool}
    {str : String → String → Bool} {R : Prop}
    (hnum : ∀ x y, int64Value v = some x → int64Value c = some y → (num x y = true ↔ R))
    (hstr : int64Value v = none ∨ int64Value c = none → (str v c = true ↔ R)) :
    DataStore.compareThreshold v c num str = true ↔ R := by
  unfold DataStore.compareThreshold
  rcases hv : parseInt v with ⟨x, _ | e⟩
  · rcases hc : parseInt c with ⟨y, _ | e⟩
    · exact hnum x y (int64Value_eq_some hv) (int64Value_eq_some hc)
    · exact hstr (.inr (int64Value_eq_none hc))
  · exact hstr (.inl (int64Value_eq_none hv))

theorem compareThreshold_gte (v c : String) :
    DataStore.compareThreshold v c (fun a b => decide (b ≤ a)) (fun a b => decide (b ≤ a)) = true ↔
      Gte v c := by
  refine compareThreshold_iff (fun x y hv hc => ?_) (fun h => ?_)
  · rw [decide_eq_true_iff, Gte, MixedLE.of_values hc hv]
  · rw [decide_eq_true_iff, Gte]
    rcases h with hv | hc
    · rw [MixedLE.of_right hv]
    · rw [MixedLE.of_left hc]

theorem compareThreshold_lte (v c : String) :
    DataStore.compareThreshold v c (fun a b => decide (a ≤ b)) (fun a b => decide (a ≤ b)) = true ↔
      Lte v c := by
  refine compareThreshold_iff (fun x y hv hc => ?_) (fun h => ?_)
  · rw [decide_eq_true_iff, Lte, MixedLE.of_values hv hc]
  · rw [decide_eq_true_iff, Lte]
    rcases h with hv | hc
    · rw [MixedLE.of_left hv]
    · rw [MixedLE.of_right hc]

end ThresholdLemmas

open ThresholdLemmas

/-- `CompareGTE` on a key that is present. -/
theorem evalCondition_gte {ds : DataStore} {key v : String} (h : ds.data.lookup key = some v)
    (c : String) :
    ds.evalCondition { key := key, compare := .gte, value := c } = true ↔ Gte v c := by
  rw [DataStore.evalCondition, Finmap.read_of_some h, Bool.and_eq_true, compareThreshold_gte]
  exact and_iff_right rfl

/-- `CompareLTE` on a key that is present. -/
theorem evalCondition_lte {ds : DataStore} {key v : String} (h : ds.data.lookup key = some v)
    (c : String) :
    ds.evalCondition { key := key, compare := .lte, value := c } = true ↔ Lte v c := by
  rw [DataStore.evalCondition, Finmap.read_of_some h, Bool.and_eq_true, compareThreshold_lte]
  exact and_iff_right rfl

/-! ## Main results -/

/-- `Gte` is reflexive and total and has `Lte` as its converse. A chain from `v` over `c`
to `c'` holds together exactly if no two of the three are numbers that are ordered one
way by value and the other way as strings, with the third, which is no number, between
them. On a key that has the value `v` the two conditions test `Gte` and `Lte`; so a
condition that holds for `c` holds for a lower threshold `c'` exactly under the same
condition. -/
theorem threshold_order (v c c' : String) :
    Gte v v ∧ (Gte v c ∨ Gte c v) ∧ (Gte v c ↔ Lte c v) ∧
    ((Gte v c → Gte c c' → Gte v c') ↔ ¬ MixedLE.Crossed int64Value c' c v) ∧
    ∀ (ds : DataStore) (key : String), ds.data.lookup key = some v →
      (ds.evalCondition { key := key, compare := .gte, value := c } = true ↔ Gte v c) ∧
      (ds.evalCondition { key := key, compare := .lte, value := c } = true ↔ Lte v c) ∧
      ((ds.evalCondition { key := key, compare := .gte, value := c } = true → Gte c c' →
          ds.evalCondition { key := key, compare := .gte, value := c' } = true) ↔
        ¬ MixedLE.Crossed int64Value c' c v) := by
  have htrans : (Gte v c → Gte c c' → Gte v c') ↔ ¬ MixedLE.Crossed int64Value c' c v := by
    rw [← MixedLE.trans_iff]
    exact ⟨fun h hcc' hvc => h hvc hcc', fun h hvc hcc' => h hcc' hvc⟩
  refine ⟨MixedLE.refl int64Value v, MixedLE.total int64Value c v, Iff.rfl, htrans,
    fun ds key h => ⟨evalCondition_gte h c, evalCondition_lte h c, ?_⟩⟩
  rw [evalCondition_gte h, evalCondition_gte h]
  exact htrans

/-- A store with one key. -/
def storeWith (key v : String) : DataStore :=
  { DataStore.new with data := Finmap.insert key v ∅ }

/-- Two numbers that are in the same order as strings, and a string between them. -/
theorem threshold_order_agreeing :
    (storeWith "k" "5").evalCondition { key := "k", compare := .gte, value := "3" } = true := by
  have hlookup : (storeWith "k" "5").data.lookup "k" = some "5" := by decide
  have hmixed : (storeWith "k" "4x").data.lookup "k" = some "4x" := by decide
  have hlower : Gte "4x" "3" := (evalCondition_gte hmixed "3").mp (by decide)
  have hkept := ((threshold_order "5" "4x" "3").2.2.2.2 _ "k" hlookup).2.2
  exact hkept.mpr (by decide) (by decide) hlower

/-- `"9" ≥ "1x"` and `"1x" ≥ "10"` as strings, but `9 < 10`: on a key with the value
`"9"` the condition `GTE "1x"` holds and the condition `GTE "10"` does not. -/
theorem threshold_not_transitive :
    Gte "9" "1x" ∧ Gte "1x" "10" ∧ ¬ Gte "9" "10" ∧
    (storeWith "k" "9").evalCondition { key := "k", compare := .gte, value := "1x" } = true ∧
    (storeWith "k" "1x").evalCondition { key := "k", compare := .gte, value := "10" } = true ∧
    (storeWith "k" "9").evalCondition { key := "k", compare := .gte, value := "10" } = false := by
  have hnine : (storeWith "k" "9").data.lookup "k" = some "9" := by decide
  have hmixed : (storeWith "k" "1x").data.lookup "k" = some "1x" := by decide
  rw [← evalCondition_gte hnine, ← evalCondition_gte hmixed, ← evalCondition_gte hnine]
  decide

end Zodiac
