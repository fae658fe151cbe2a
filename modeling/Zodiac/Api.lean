import Mathlib.Algebra.Ring.Int.Defs
import Mathlib.Data.String.Basic

/-!
# Wire types and string primitives

The types of `api/api.go` that the service reads and writes, and the two
standard-library functions on strings that its logic depends on: prefix tests
and decimal parsing of 64-bit integers.

Go strings that reach the service come out of a JSON decoder, so they are valid
UTF-8. On such strings Go's byte-wise order, prefix test and concatenation
agree with the ones on code points used here.
-/

namespace Zodiac

/-! ## Watch events -/

/-- `api.WatchEventType`, without the zero value `EventInvalid`, which the
service never emits. -/
inductive WatchEventType
  | put
  | delete
deriving DecidableEq, Repr

/-- `api.WatchEvent`. -/
structure WatchEvent where
  key : String
  value : String
  revision : Int
  type : WatchEventType
deriving DecidableEq, Repr

/-! ## Transactions -/

/-- `api.CompareOp`. The wire type is an integer and the decoder admits any
value; `unknown` holds the codes the service has no case for. -/
inductive CompareOp
  | eq
  | neq
  | gte
  | lte
  | exists
  | notExists
  | unknown (code : Int)
deriving DecidableEq, Repr

/-- `api.TxnOpType`, with the codes the store has no case for in `unknown`. -/
inductive TxnOpType
  | put
  | delete
  | cas
  | append
  | unknown (code : Int)
deriving DecidableEq, Repr

/-- `api.TxnCondition`. -/
structure TxnCondition where
  key : String
  compare : CompareOp
  value : String := ""
deriving DecidableEq, Repr

/-- `api.TxnOp`. -/
structure TxnOp where
  op : TxnOpType
  key : String
  value : String := ""
  compareValue : String := ""
  leaseID : Int := 0
deriving DecidableEq, Repr

/-- `api.TxnOpResult`. -/
structure TxnOpResult where
  key : String
  prevValue : String := ""
  keyFound : Bool := false
deriving DecidableEq, Repr

/-! ## Strings -/

/-- `strings.HasPrefix`. -/
def hasPrefix (s pre : String) : Bool := pre.toList.isPrefixOf s.toList

/-- The two kinds of `strconv.NumError`. -/
inductive NumError
  | invalid
  | outOfRange
deriving DecidableEq, Repr

/-- The value of a decimal digit. -/
def digitValue (c : Char) : Option Nat :=
  if '0' ≤ c ∧ c ≤ '9' then some (c.toNat - '0'.toNat) else none

/-- The digit loop of `strconv.ParseUint` at base 10 and 64 bits. It stops at
the first digit that leaves the range, before it looks at the rest. -/
def parseDigits : List Char → Nat → Except NumError Nat
  | [], n => .ok n
  | c :: cs, n =>
    match digitValue c with
    | none => .error .invalid
    | some d => if n * 10 + d < 2 ^ 64 then parseDigits cs (n * 10 + d) else .error .outOfRange

/-- `strconv.ParseUint(s, 10, 64)`: the value, which is clamped on overflow,
and the error. -/
def parseUint (cs : List Char) : Nat × Option NumError :=
  if cs.isEmpty then (0, some .invalid)
  else match parseDigits cs 0 with
    | .ok n => (n, none)
    | .error .invalid => (0, some .invalid)
    | .error .outOfRange => (2 ^ 64 - 1, some .outOfRange)

/-- `strconv.ParseInt(s, 10, 64)`: an optional sign, then digits only. The
value is `0` for malformed input and clamped to the range on overflow. -/
def parseInt (s : String) : Int × Option NumError :=
  let neg := s.toList.head? == some '-'
  let digits := match s.toList with
    | '+' :: cs => cs
    | '-' :: cs => cs
    | cs => cs
  match parseUint digits with
  | (_, some .invalid) => (0, some .invalid)
  | (un, _) =>
    if neg = false ∧ 2 ^ 63 ≤ un then (2 ^ 63 - 1, some .outOfRange)
    else if neg = true ∧ 2 ^ 63 < un then (-2 ^ 63, some .outOfRange)
    else (if neg then -(un : Int) else un, none)

/-- `strconv.FormatInt(i, 10)`. -/
def formatInt (i : Int) : String := toString i

/-! ## Decimal round trip -/

namespace ApiLemmas

theorem parseDigits_append (cs cs' : List Char) : ∀ n : Nat,
    parseDigits (cs ++ cs') n = match parseDigits cs n with
      | .ok m => parseDigits cs' m
      | .error e => .error e := by
  induction cs with
  | nil => exact fun _ => rfl
  | cons c cs ih =>
    intro n
    simp only [List.cons_append, parseDigits]
    cases digitValue c with
    | none => rfl
    | some d =>
      dsimp only
      split
      · exact ih _
      · rfl

theorem digitValue_digitChar {d : Nat} (h : d < 10) : digitValue d.digitChar = some d := by
  have hall : ∀ d < 10, digitValue d.digitChar = some d := by decide
  exact hall d h

theorem parseDigits_toDigits {n : Nat} (h : n < 2 ^ 64) :
    parseDigits (Nat.toDigits 10 n) 0 = .ok n := by
  induction n using Nat.strong_induction_on with
  | _ n ih =>
    rw [Nat.toDigits_eq_if (by decide)]
    split
    · next hlt => simp only [parseDigits, digitValue_digitChar hlt, Nat.zero_mul, Nat.zero_add, if_pos h]
    · next hge =>
      have hmod := digitValue_digitChar (Nat.mod_lt n (by decide : 0 < 10))
      have hback : n / 10 * 10 + n % 10 = n := by omega
      rw [parseDigits_append, ih (n / 10) (by omega) (by omega)]
      simp only [parseDigits, hmod, hback, if_pos h]

/-- No sign is printed in front of a natural number. -/
theorem toDigits_eq_cons (n : Nat) :
    ∃ d < 10, ∃ cs, Nat.toDigits 10 n = Nat.digitChar d :: cs := by
  induction n using Nat.strong_induction_on with
  | _ n ih =>
    rw [Nat.toDigits_eq_if (by decide)]
    split
    · next hlt => exact ⟨n, hlt, [], rfl⟩
    · next hge =>
      obtain ⟨d, hd, cs, hcs⟩ := ih (n / 10) (by omega)
      exact ⟨d, hd, cs ++ [(n % 10).digitChar], by rw [hcs]; rfl⟩

end ApiLemmas

open ApiLemmas

/-- Parsing undoes formatting on the nonnegative 64-bit integers. -/
theorem parseInt_formatInt {n : Nat} (h : n < 2 ^ 63) : parseInt (formatInt n) = ((n : Int), none) := by
  have hlist : (formatInt n).toList = Nat.toDigits 10 n := by
    show (Nat.repr n).toList = _
    rw [Nat.repr, String.toList_ofList]
  obtain ⟨d, hd, cs, hcs⟩ := toDigits_eq_cons n
  have hsign : ∀ d < 10, Nat.digitChar d ≠ '-' ∧ Nat.digitChar d ≠ '+' := by decide
  have hparse : parseUint (Nat.toDigits 10 n) = (n, none) := by
    rw [parseUint, parseDigits_toDigits (by omega), hcs]
    rfl
  have hdigits : (match Nat.toDigits 10 n with
      | '+' :: cs => cs
      | '-' :: cs => cs
      | cs => cs) = Nat.toDigits 10 n := by
    rw [hcs]
    split
    · next heq => exact absurd (List.cons.inj heq).1 (hsign d hd).2
    · next heq => exact absurd (List.cons.inj heq).1 (hsign d hd).1
    · rfl
  have hneg : ((Nat.toDigits 10 n).head? == some '-') = false := by
    rw [hcs]
    simp
  simp only [parseInt, hlist, hdigits, hparse, hneg]
  rw [if_neg (by omega), if_neg (by simp)]
  rfl

theorem parseInt_formatInt_neg {n : Nat} (hpos : 0 < n) (h : n ≤ 2 ^ 63) :
    parseInt (formatInt (-(n : Int))) = (-(n : Int), none) := by
  obtain ⟨m, rfl⟩ : ∃ m, n = m + 1 := ⟨n - 1, by omega⟩
  have hlist : (formatInt (-((m + 1 : Nat) : Int))).toList = '-' :: Nat.toDigits 10 (m + 1) := by
    show ("-" ++ Nat.repr (m + 1)).toList = _
    rw [String.toList_append, Nat.repr, String.toList_ofList, String.toList_ofList]
    rfl
  have hparse : parseUint (Nat.toDigits 10 (m + 1)) = (m + 1, none) := by
    obtain ⟨d, _, cs, hcs⟩ := toDigits_eq_cons (m + 1)
    rw [parseUint, parseDigits_toDigits (by omega), hcs]
    rfl
  have hneg : ('-' :: Nat.toDigits 10 (m + 1)).head? == some '-' := by simp
  simp only [parseInt, hlist, hparse, hneg]
  rw [if_neg (by simp), if_neg (by simp; omega)]
  rfl

/-- Parsing undoes formatting on all 64-bit integers. -/
theorem parseInt_formatInt_int64 {i : Int} (hlo : -2 ^ 63 ≤ i) (hhi : i < 2 ^ 63) :
    parseInt (formatInt i) = (i, none) := by
  rcases lt_or_ge i 0 with hneg | hnonneg
  · obtain ⟨n, rfl⟩ : ∃ n : Nat, i = -(n : Int) := ⟨i.natAbs, by omega⟩
    exact parseInt_formatInt_neg (by omega) (by omega)
  · obtain ⟨n, rfl⟩ := Int.eq_ofNat_of_zero_le hnonneg
    exact parseInt_formatInt (by omega)

example : parseInt "-42" = (-42, none) := by decide
example : parseInt "9223372036854775808" = (9223372036854775807, some .outOfRange) := by decide
example : parseInt "4x" = (0, some .invalid) := by decide

end Zodiac
