import Mathlib.Order.Lattice

/-!
# Comparing by value where there is one

Some elements have a value, and two such elements are compared by their values; any
other pair is compared by the order of the elements themselves. The two orders need
not agree, so the relation is reflexive and total but not transitive in general:
`trans_iff` says for which three elements it is.
-/

universe u v

/-- `a ≤ b` by value if both have one, and directly otherwise. -/
def MixedLE {α : Type u} {β : Type v} [LE α] [LE β] (value : α → Option β) (a b : α) : Prop :=
  match value a, value b with
  | some x, some y => x ≤ y
  | _, _ => a ≤ b

namespace MixedLE

variable {α : Type u} {β : Type v}

section Cases

variable [LE α] [LE β] {value : α → Option β} {a b : α}

theorem of_values {x y : β} (ha : value a = some x) (hb : value b = some y) :
    MixedLE value a b ↔ x ≤ y := by
  rw [MixedLE, ha, hb]

theorem of_left (ha : value a = none) : MixedLE value a b ↔ a ≤ b := by
  rw [MixedLE, ha]

theorem of_right (hb : value b = none) : MixedLE value a b ↔ a ≤ b := by
  rw [MixedLE, hb]
  cases value a <;> rfl

end Cases

theorem refl [Preorder α] [Preorder β] (value : α → Option β) (a : α) : MixedLE value a a := by
  cases ha : value a with
  | none => exact (of_left ha).mpr le_rfl
  | some x => exact (of_values ha ha).mpr le_rfl

variable [LinearOrder α] [LinearOrder β] (value : α → Option β)

theorem total (a b : α) : MixedLE value a b ∨ MixedLE value b a := by
  cases ha : value a with
  | none =>
    rw [of_left ha, of_right ha]
    exact le_total a b
  | some x =>
    cases hb : value b with
    | none =>
      rw [of_left hb, of_right hb]
      exact le_total a b
    | some y =>
      rw [of_values ha hb, of_values hb ha]
      exact le_total x y

/-- The values of `p` and `q` are in one order and `p` and `q` themselves in the other,
and `r`, which has no value, lies between them. -/
def Inverted (p r q : α) : Prop :=
  (∃ x ∈ value p, ∃ y ∈ value q, x ≤ y) ∧ value r = none ∧ q ≤ r ∧ r ≤ p

/-- Two of the three are inverted around the third. Where the third is in the middle of
the chain, equal values do no harm. -/
def Crossed (a b c : α) : Prop :=
  (Inverted value c b a ∧ value a ≠ value c) ∨ Inverted value a c b ∨ Inverted value b a c

instance (p r q : α) : Decidable (Inverted value p r q) :=
  inferInstanceAs (Decidable (_ ∧ _))

instance (a b c : α) : Decidable (Crossed value a b c) :=
  inferInstanceAs (Decidable (_ ∨ _))

variable {value} {a b c : α}

theorem Inverted.lt_left {p r q : α} (h : Inverted value p r q) : r < p := by
  obtain ⟨⟨x, hx, -⟩, hr, -, hle⟩ := h
  refine lt_of_le_of_ne hle fun heq => ?_
  rw [heq, hx] at hr
  cases hr

theorem Inverted.lt_right {p r q : α} (h : Inverted value p r q) : q < r := by
  obtain ⟨⟨-, -, y, hy, -⟩, hr, hle, -⟩ := h
  refine lt_of_le_of_ne hle fun heq => ?_
  rw [← heq, hy] at hr
  cases hr

/-- A crossed chain breaks. -/
theorem not_trans_of_crossed (h : Crossed value a b c) :
    MixedLE value a b ∧ MixedLE value b c ∧ ¬ MixedLE value a c := by
  rcases h with ⟨hinv, hne⟩ | hinv | hinv
  · obtain ⟨⟨z, hz, x, hx, hle⟩, hb, hab, hbc⟩ := hinv
    refine ⟨(of_right hb).mpr hab, (of_left hb).mpr hbc, fun hac => hne ?_⟩
    rw [hx, hz, le_antisymm ((of_values hx hz).mp hac) hle]
  · have hlt := hinv.lt_left
    obtain ⟨⟨x, hx, y, hy, hle⟩, hc, hbc, -⟩ := hinv
    refine ⟨(of_values hx hy).mpr hle, (of_right hc).mpr hbc, fun hac => ?_⟩
    exact not_le_of_gt hlt ((of_right hc).mp hac)
  · have hlt := hinv.lt_right
    obtain ⟨⟨y, hy, z, hz, hle⟩, ha, -, hab⟩ := hinv
    refine ⟨(of_left ha).mpr hab, (of_values hy hz).mpr hle, fun hac => ?_⟩
    exact not_le_of_gt hlt ((of_left ha).mp hac)

/-- With three values all comparisons are by value, and with one or none no comparison
is; with two, a chain that breaks is crossed. -/
theorem crossed_of_not_trans (hab : MixedLE value a b) (hbc : MixedLE value b c)
    (hac : ¬ MixedLE value a c) : Crossed value a b c := by
  cases ha : value a with
  | none =>
    rw [of_left ha] at hab hac
    cases hb : value b with
    | none =>
      rw [of_left hb] at hbc
      exact absurd (le_trans hab hbc) hac
    | some y =>
      cases hc : value c with
      | none =>
        rw [of_right hc] at hbc
        exact absurd (le_trans hab hbc) hac
      | some z =>
        rw [of_values hb hc] at hbc
        exact .inr (.inr ⟨⟨y, hb, z, hc, hbc⟩, ha, le_of_not_ge hac, hab⟩)
  | some x =>
    cases hb : value b with
    | none =>
      rw [of_right hb] at hab
      rw [of_left hb] at hbc
      cases hc : value c with
      | none =>
        rw [of_right hc] at hac
        exact absurd (le_trans hab hbc) hac
      | some z =>
        rw [of_values ha hc] at hac
        refine .inl ⟨⟨⟨z, hc, x, ha, le_of_not_ge hac⟩, hb, hab, hbc⟩, fun heq => hac ?_⟩
        rw [ha, hc] at heq
        exact le_of_eq (Option.some.inj heq)
    | some y =>
      rw [of_values ha hb] at hab
      cases hc : value c with
      | none =>
        rw [of_right hc] at hbc hac
        exact .inr (.inl ⟨⟨x, ha, y, hb, hab⟩, hc, hbc, le_of_not_ge hac⟩)
      | some z =>
        rw [of_values hb hc] at hbc
        rw [of_values ha hc] at hac
        exact absurd (le_trans hab hbc) hac

/-- A chain of three holds together exactly if it is not crossed. -/
theorem trans_iff : (MixedLE value a b → MixedLE value b c → MixedLE value a c) ↔
    ¬ Crossed value a b c := by
  constructor
  · intro htrans hcrossed
    obtain ⟨hab, hbc, hac⟩ := not_trans_of_crossed hcrossed
    exact hac (htrans hab hbc)
  · intro hcrossed hab hbc
    by_contra hac
    exact hcrossed (crossed_of_not_trans hab hbc hac)

end MixedLE
