import Mathlib.Data.List.TakeWhile
import Zodiac.Lib.Lines

/-!
# Query strings of URLs

The query part of a URL as a list of bytes: pairs of a key and a value, separated by `&`
and cut at the first `=`, in which `+` is a space and `%XX` any byte. A parser skips
pairs that it cannot decode and pairs with a `;`.

* `queryUnescape_eq_self_iff`: decoding leaves a text alone exactly if it has no `%` and no `+`.
* `parsePair_append`: what is read from a key, `=` and any value.
* `exists_segment_of_getFirst`, `length_of_parsePair`: a value that is read was written between
  two `&`, and no shorter than it is.
-/

namespace UrlQuery

def percent : UInt8 := 37

def plus : UInt8 := 43

def space : UInt8 := 32

def ampersand : UInt8 := 38

def equals : UInt8 := 61

def semicolon : UInt8 := 59

def hash : UInt8 := 35

def question : UInt8 := 63

/-! ## Decoding -/

/-- The value of a hexadecimal digit. -/
def unhex (b : UInt8) : Option UInt8 :=
  if 48 ≤ b ∧ b ≤ 57 then some (b - 48)
  else if 97 ≤ b ∧ b ≤ 102 then some (b - 97 + 10)
  else if 65 ≤ b ∧ b ≤ 70 then some (b - 65 + 10)
  else none

/-- Decode a key or a value; none for a `%` that two hexadecimal digits do not follow. -/
def queryUnescape : List UInt8 → Option (List UInt8)
  | [] => some []
  | b :: bs =>
    if b = percent then
      match bs with
      | h :: l :: bs => do
        let high ← unhex h
        let low ← unhex l
        let rest ← queryUnescape bs
        return (high * 16 + low) :: rest
      | _ => none
    else (queryUnescape bs).map fun rest => (if b = plus then space else b) :: rest

theorem queryUnescape_cons {b : UInt8} (hb : b ≠ percent) (bs : List UInt8) :
    queryUnescape (b :: bs) =
      (queryUnescape bs).map fun rest => (if b = plus then space else b) :: rest := by
  rw [queryUnescape.eq_def]
  simp only [if_neg hb]

theorem queryUnescape_of_clean {s : List UInt8} (h : ∀ b ∈ s, b ≠ percent ∧ b ≠ plus) :
    queryUnescape s = some s := by
  induction s with
  | nil => rfl
  | cons b bs ih =>
    obtain ⟨⟨hpercent, hplus⟩, hbs⟩ := List.forall_mem_cons.mp h
    rw [queryUnescape_cons hpercent, ih hbs, if_neg hplus]
    rfl

/-- Decoding does not make a text longer, and a `%` makes it shorter. A text of the same
length has its `+` replaced. -/
theorem queryUnescape_length {s t : List UInt8} (h : queryUnescape s = some t) :
    t.length ≤ s.length ∧ (t.length = s.length →
      percent ∉ s ∧ t = s.map fun b => if b = plus then space else b) := by
  fun_induction queryUnescape s generalizing t with
  | case1 =>
    cases h
    exact ⟨le_rfl, fun _ => ⟨List.not_mem_nil, rfl⟩⟩
  | case2 h' l bs ih =>
    simp only [Option.bind_eq_bind, Option.bind_eq_some_iff] at h
    obtain ⟨high, -, low, -, rest, hrest, heq⟩ := h
    cases heq
    have hle := (ih hrest).1
    simp only [List.length_cons]
    exact ⟨by omega, fun hlen => by omega⟩
  | case3 => cases h
  | case4 b bs hb ih =>
    obtain ⟨rest, hrest, rfl⟩ := Option.map_eq_some_iff.mp h
    obtain ⟨hle, heq⟩ := ih hrest
    refine ⟨Nat.succ_le_succ hle, fun hlen => ?_⟩
    obtain ⟨hnone, hmap⟩ := heq (Nat.succ.inj hlen)
    refine ⟨fun hmem => ?_, by rw [List.map_cons, hmap]⟩
    rcases List.mem_cons.mp hmem with heq | hmem
    · exact hb heq.symm
    · exact hnone hmem

/-- Decoding leaves a text alone exactly if there is nothing to decode in it. -/
theorem queryUnescape_eq_self_iff (s : List UInt8) :
    queryUnescape s = some s ↔ ∀ b ∈ s, b ≠ percent ∧ b ≠ plus := by
  refine ⟨fun h b hb => ?_, queryUnescape_of_clean⟩
  obtain ⟨hnone, hmap⟩ := (queryUnescape_length h).2 rfl
  refine ⟨fun heq => hnone (heq ▸ hb), fun heq => ?_⟩
  -- a `+` would have become a space
  have hkept : (if b = plus then space else b) = b :=
    List.map_eq_map_iff.mp (hmap.symm.trans s.map_id.symm) b hb
  rw [if_pos heq, heq] at hkept
  exact absurd hkept (by decide)

/-! ## Pairs -/

/-- Cut at the first separator, which is dropped. -/
def cut (sep : UInt8) (s : List UInt8) : List UInt8 × List UInt8 :=
  (s.takeWhile (· ≠ sep), (s.dropWhile (· ≠ sep)).drop 1)

theorem cut_append {sep : UInt8} {a : List UInt8} (h : sep ∉ a) (b : List UInt8) :
    cut sep (a ++ sep :: b) = (a, b) := by
  have hne : ∀ x ∈ a, decide (x ≠ sep) = true := fun x hx =>
    decide_eq_true fun heq => h (heq ▸ hx)
  rw [cut, List.takeWhile_append_of_pos hne, List.dropWhile_append_of_pos hne]
  simp

theorem cut_of_notMem {sep : UInt8} {a : List UInt8} (h : sep ∉ a) : cut sep a = (a, []) := by
  have hne : ∀ x ∈ a, decide (x ≠ sep) = true := fun x hx =>
    decide_eq_true fun heq => h (heq ▸ hx)
  rw [cut, List.takeWhile_eq_self_iff.mpr hne, List.dropWhile_eq_nil_iff.mpr hne]
  rfl

theorem length_cut {sep : UInt8} {s : List UInt8} (h : sep ∈ s) :
    (cut sep s).1.length + (cut sep s).2.length + 1 = s.length := by
  obtain ⟨a, b, rfl, ha⟩ := List.eq_append_cons_of_mem h
  rw [cut_append ha, List.length_append, List.length_cons, Nat.add_assoc]

/-- The query of a URL, which ends at the fragment. -/
def rawQuery (url : List UInt8) : List UInt8 := (cut question (cut hash url).1).2

theorem rawQuery_append {path : List UInt8} (hhash : hash ∉ path) (hquestion : question ∉ path)
    (s : List UInt8) : rawQuery (path ++ question :: s) = (cut hash s).1 := by
  have hhead : hash ∉ path ++ [question] := by
    rw [List.mem_append, not_or]
    exact ⟨hhash, by decide⟩
  rw [rawQuery, List.append_cons]
  by_cases hmem : hash ∈ s
  · obtain ⟨a, b, rfl, ha⟩ := List.eq_append_cons_of_mem hmem
    have hall : hash ∉ path ++ [question] ++ a := by
      rw [List.mem_append, not_or]
      exact ⟨hhead, ha⟩
    rw [← List.append_assoc, cut_append hall, ← List.append_cons, cut_append hquestion,
      cut_append ha]
  · have hall : hash ∉ path ++ [question] ++ s := by
      rw [List.mem_append, not_or]
      exact ⟨hhead, hmem⟩
    rw [cut_of_notMem hall, ← List.append_cons, cut_append hquestion, cut_of_notMem hmem]

/-- A pair with its key and value, or none where the parser skips it. -/
def parsePair (seg : List UInt8) : Option (List UInt8 × List UInt8) :=
  if semicolon ∈ seg then none
  else if seg = [] then none
  else do
    let key ← queryUnescape (cut equals seg).1
    let value ← queryUnescape (cut equals seg).2
    return (key, value)

/-- The pairs of a query, in order. -/
def parseQuery (query : List UInt8) : List (List UInt8 × List UInt8) :=
  (Lines.lines ampersand query).filterMap parsePair

/-- The first value of a key, or an empty one. -/
def getFirst (pairs : List (List UInt8 × List UInt8)) (key : List UInt8) : List UInt8 :=
  ((pairs.find? fun pair => pair.1 = key).map Prod.snd).getD []

/-- A key that needs no decoding and ends where it should. -/
def PlainKey (key : List UInt8) : Prop :=
  ∀ b ∈ key, b ≠ percent ∧ b ≠ plus ∧ b ≠ equals ∧ b ≠ semicolon

-- by the elements of the list, not by all 256 bytes
instance (key : List UInt8) : Decidable (PlainKey key) :=
  List.decidableBAll (fun b => b ≠ percent ∧ b ≠ plus ∧ b ≠ equals ∧ b ≠ semicolon) key

theorem parsePair_append {key value : List UInt8} (hkey : PlainKey key) :
    parsePair (key ++ equals :: value) =
      if semicolon ∈ value then none else (queryUnescape value).map fun v => (key, v) := by
  have hcut : cut equals (key ++ equals :: value) = (key, value) :=
    cut_append (fun hmem => (hkey _ hmem).2.2.1 rfl) value
  have hsemicolon : semicolon ∈ key ++ equals :: value ↔ semicolon ∈ value := by
    rw [List.mem_append, List.mem_cons]
    refine ⟨?_, fun h => .inr (.inr h)⟩
    rintro (h | h | h)
    · exact absurd rfl (hkey _ h).2.2.2
    · exact absurd h (by decide)
    · exact h
  rw [parsePair, hcut, queryUnescape_of_clean fun b hb => ⟨(hkey b hb).1, (hkey b hb).2.1⟩]
  simp only [hsemicolon]
  split
  · rfl
  · rw [if_neg (by simp)]
    cases queryUnescape value <;> rfl

/-- A pair takes at least the bytes of its key, its value and the `=` between them. -/
theorem length_of_parsePair {seg key value : List UInt8} (h : parsePair seg = some (key, value))
    (hvalue : value ≠ []) : key.length + value.length < seg.length := by
  unfold parsePair at h
  split at h
  · cases h
  split at h
  · cases h
  simp only [Option.bind_eq_bind, Option.bind_eq_some_iff] at h
  obtain ⟨k, hk, v, hv, heq⟩ := h
  cases heq
  have hklen := (queryUnescape_length hk).1
  have hvlen := (queryUnescape_length hv).1
  by_cases hmem : equals ∈ seg
  · have hlen := length_cut hmem
    omega
  · rw [cut_of_notMem hmem] at hv
    cases hv
    exact absurd rfl hvalue

/-- A value that is there was written in one of the segments. -/
theorem exists_segment_of_getFirst {query key value : List UInt8}
    (h : getFirst (parseQuery query) key = value) (hvalue : value ≠ []) :
    ∃ seg ∈ Lines.lines ampersand query, parsePair seg = some (key, value) := by
  cases hfind : (parseQuery query).find? fun pair => pair.1 = key with
  | none =>
    rw [getFirst, hfind] at h
    exact absurd h.symm hvalue
  | some pair =>
    rw [getFirst, hfind] at h
    obtain ⟨seg, hseg, hpair⟩ := List.mem_filterMap.mp (List.mem_of_find?_eq_some hfind)
    have hfound := List.find?_some hfind
    have hkey : pair.1 = key := of_decide_eq_true hfound
    have hval : pair.2 = value := h
    rw [← hkey, ← hval]
    exact ⟨seg, hseg, hpair⟩

end UrlQuery
