import Zodiac.EventJson
import Zodiac.Lib.TypedJson

/-!
# JSON values as text

`json.Marshal` without spaces, and a reader of one value, which skips white space and does not
look behind the value. Strings are written and read as in `EventJson`. Numbers with a fraction or
an exponent are refused here, since no field has a type that takes one.

* `readsBack`: the reader undoes the writer, whatever follows.
* `extends_all`: what the reader makes of a text that it reads to an end does not depend on what
  follows.
* `readFirst_part`: of a text that starts with an object, a first part is read if and only if it
  has the whole object.
-/

namespace Zodiac

namespace JsonText

open TypedJson

/-! ## The writer -/

def comma : UInt8 := 44

def colon : UInt8 := 58

def openBracket : UInt8 := 91

def closeBracket : UInt8 := 93

def openBrace : UInt8 := 123

/-- A string with its quotes. -/
def writeString (s : String) : Bytes := quote :: (escape (utf8 s) ++ [quote])

mutual

/-- `json.Marshal`. -/
def writeJson : Json → Bytes
  | .null => utf8 "null"
  | .bool true => utf8 "true"
  | .bool false => utf8 "false"
  | .number i => utf8 (formatInt i)
  | .text s => writeString s
  | .array [] => [openBracket, closeBracket]
  | .array (j :: js) => openBracket :: (writeJson j ++ writeItems js)
  | .object [] => [openBrace, closingBrace]
  | .object ((k, j) :: ms) =>
    openBrace :: (writeString k ++ colon :: (writeJson j ++ writeMembers ms))

/-- The elements of an array after the first one, and the bracket. -/
def writeItems : List Json → Bytes
  | [] => [closeBracket]
  | j :: js => comma :: (writeJson j ++ writeItems js)

/-- The members of an object after the first one, and the brace. -/
def writeMembers : List (String × Json) → Bytes
  | [] => [closingBrace]
  | (k, j) :: ms => comma :: (writeString k ++ colon :: (writeJson j ++ writeMembers ms))

end

/-! ## The reader -/

/-- Space, tab and the two line breaks. -/
def isSpace (b : UInt8) : Bool := b == 32 || b == 9 || b == newline || b == carriageReturn

def skipSpace (bs : Bytes) : Bytes := bs.dropWhile isSpace

/-- The bytes of numbers: from `-` to `9`, and those of exponents. The slash among them is in no
literal. -/
def isNumberByte (b : UInt8) : Bool := (45 ≤ b && b ≤ 57) || b == 43 || b == 101 || b == 69

/-- The value of a sign and digits. -/
def decimal : List Char → Int
  | '-' :: cs => -(Nat.ofDigitChars 10 cs 0 : Int)
  | cs => Nat.ofDigitChars 10 cs 0

/-- The integer with a given literal. The literals are those that are written, and `-0`. -/
def integer? (literal : String) : Option Int :=
  let i := decimal literal.toList
  if formatInt i = literal ∨ literal = "-0" then some i else none

/-- Read an integer up to the first byte that is not of a number. -/
def readNumber (bs : Bytes) : Option (Json × Bytes) :=
  (decodeText (bs.takeWhile isNumberByte)).bind fun literal =>
    (integer? literal).map fun i => (.number i, bs.dropWhile isNumberByte)

/-- Read one of the three words. -/
def readWord (bs : Bytes) : Option (Json × Bytes) :=
  match trimPrefix? "null" bs with
  | some bs => some (.null, bs)
  | none => match trimPrefix? "true" bs with
    | some bs => some (.bool true, bs)
    | none => (trimPrefix? "false" bs).map fun bs => (.bool false, bs)

/-- Read the given byte behind white space. -/
def expect (b : UInt8) (bs : Bytes) : Option Bytes :=
  match skipSpace bs with
  | c :: bs => if c = b then some bs else none
  | [] => none

/-- Read the name of a member, and the colon. -/
def readKey (bs : Bytes) : Option (String × Bytes) :=
  (expect quote bs).bind fun bs => (readText bs).bind fun k =>
    (expect colon k.2).map fun bs => (k.1, bs)

/-- After the first one of some things, read a comma and the others, or what closes them. -/
def readRest {α : Type} (close : UInt8) (more : Bytes → Option (List α × Bytes)) (x : α)
    (bs : Bytes) : Option (List α × Bytes) :=
  match expect comma bs with
  | some bs => (more bs).map fun rs => (x :: rs.1, rs.2)
  | none => (expect close bs).map fun bs => ([x], bs)

mutual

/-- Read a value. The first argument bounds the depth and the number of elements. -/
def readJson : Nat → Bytes → Option (Json × Bytes)
  | 0, _ => none
  | n + 1, bs =>
    match skipSpace bs with
    | [] => none
    | b :: bs =>
      if b = quote then (readText bs).map fun r => (.text r.1, r.2)
      else if b = openBracket then
        match expect closeBracket bs with
        | some bs => some (.array [], bs)
        | none => (readItems n bs).map fun r => (.array r.1, r.2)
      else if b = openBrace then
        match expect closingBrace bs with
        | some bs => some (.object [], bs)
        | none => (readMembers n bs).map fun r => (.object r.1, r.2)
      else if isNumberByte b then readNumber (b :: bs)
      else readWord (b :: bs)

/-- Read the elements of an array, and the bracket. -/
def readItems : Nat → Bytes → Option (List Json × Bytes)
  | 0, _ => none
  | n + 1, bs =>
    (readJson n bs).bind fun r => readRest closeBracket (fun bs => readItems n bs) r.1 r.2

/-- Read the members of an object, and the brace. -/
def readMembers : Nat → Bytes → Option (List (String × Json) × Bytes)
  | 0, _ => none
  | n + 1, bs =>
    (readKey bs).bind fun k => (readJson n k.2).bind fun r =>
      readRest closingBrace (fun bs => readMembers n bs) (k.1, r.1) r.2

end

/-- Read the first value of a text, as a `json.Decoder` does. -/
def readFirst (bs : Bytes) : Option Json := (readJson (bs.length + 1) bs).map Prod.fst

end JsonText

namespace JsonTextLemmas

open TypedJson JsonText SseLemmas EventJsonLemmas

/-! ## Numbers and words -/

/-- The text does not go on with a number. -/
def Stops (rest : Bytes) : Prop := ∀ b ∈ rest.head?, isNumberByte b = false

theorem decimal_formatInt (i : Int) : decimal (formatInt i).toList = i := by
  have hdigits : ∀ n : Nat, Nat.ofDigitChars 10 (Nat.repr n).toList 0 = n := by
    intro n
    rw [Nat.repr, String.toList_ofList, Nat.ofDigitChars_toDigits (by decide) (by decide)]
  cases i with
  | ofNat n =>
    have hsign : ∀ cs, (Nat.repr n).toList ≠ '-' :: cs := by
      intro cs hcs
      obtain ⟨d, hd, rest, hrest⟩ := ApiLemmas.toDigits_eq_cons n
      rw [Nat.repr, String.toList_ofList, hrest] at hcs
      have hall : ∀ d < 10, Nat.digitChar d ≠ '-' := by decide
      exact hall d hd (List.cons.inj hcs).1
    show decimal (Nat.repr n).toList = n
    unfold decimal
    split
    · next cs hcs => exact absurd hcs (hsign cs)
    · rw [hdigits]
  | negSucc n =>
    rw [toList_formatInt_negSucc, decimal, hdigits]
    rfl

theorem integer?_formatInt (i : Int) : integer? (formatInt i) = some i := by
  rw [integer?, decimal_formatInt]
  exact if_pos (.inl rfl)

theorem numberBytes_formatInt (i : Int) : ∀ b ∈ utf8 (formatInt i), isNumberByte b = true := by
  intro b hb
  rw [utf8_eq_flatMap] at hb
  obtain ⟨hlo, hhi⟩ := (utf8_decimal (formatInt_decimal i)).2 b hb
  simp [isNumberByte, hlo, hhi]

theorem formatInt_cons (i : Int) :
    ∃ b bs, utf8 (formatInt i) = b :: bs ∧ isNumberByte b = true := by
  cases hbytes : utf8 (formatInt i) with
  | nil =>
    have htext := decodeText_utf8 (formatInt i)
    rw [hbytes, show decodeText [] = some "" from decodeText_utf8 ""] at htext
    have hparse := integer?_formatInt i
    rw [← Option.some.inj htext, show integer? "" = none by decide] at hparse
    cases hparse
  | cons b bs =>
    exact ⟨b, bs, rfl, numberBytes_formatInt i b (hbytes ▸ List.mem_cons_self)⟩

theorem readNumber_formatInt (i : Int) {rest : Bytes} (h : Stops rest) :
    readNumber (utf8 (formatInt i) ++ rest) = some (.number i, rest) := by
  have htake : rest.takeWhile isNumberByte = [] ∧ rest.dropWhile isNumberByte = rest := by
    cases rest with
    | nil => exact ⟨rfl, rfl⟩
    | cons b bs =>
      have hb : isNumberByte b = false := h b rfl
      simp [hb]
  have hall := numberBytes_formatInt i
  rw [readNumber, List.takeWhile_append_of_pos hall, List.dropWhile_append_of_pos hall, htake.1,
    htake.2, List.append_nil, decodeText_utf8, Option.bind_some, integer?_formatInt]
  rfl

theorem readWord_null (rest : Bytes) : readWord (utf8 "null" ++ rest) = some (.null, rest) := by
  rw [readWord, trimPrefix?_append]

theorem readWord_true (rest : Bytes) :
    readWord (utf8 "true" ++ rest) = some (.bool true, rest) := by
  have hnull : trimPrefix? "null" (utf8 "true" ++ rest) = none := by
    refine if_neg fun hpre => ?_
    rw [show utf8 "null" = 110 :: utf8 "ull" by decide,
      show utf8 "true" = 116 :: utf8 "rue" by decide] at hpre
    simp [List.isPrefixOf] at hpre
  rw [readWord, hnull, trimPrefix?_append]

theorem readWord_false (rest : Bytes) :
    readWord (utf8 "false" ++ rest) = some (.bool false, rest) := by
  have hnull : trimPrefix? "null" (utf8 "false" ++ rest) = none := by
    refine if_neg fun hpre => ?_
    rw [show utf8 "null" = 110 :: utf8 "ull" by decide,
      show utf8 "false" = 102 :: utf8 "alse" by decide] at hpre
    simp [List.isPrefixOf] at hpre
  have htrue : trimPrefix? "true" (utf8 "false" ++ rest) = none := by
    refine if_neg fun hpre => ?_
    rw [show utf8 "true" = 116 :: utf8 "rue" by decide,
      show utf8 "false" = 102 :: utf8 "alse" by decide] at hpre
    simp [List.isPrefixOf] at hpre
  rw [readWord, hnull, htrue, trimPrefix?_append]
  rfl

/-! ## White space -/

theorem skipSpace_cons {b : UInt8} (h : isSpace b = false) (bs : Bytes) :
    skipSpace (b :: bs) = b :: bs := by
  rw [skipSpace, List.dropWhile_cons_of_neg (by rw [h]; exact Bool.false_ne_true)]

theorem expect_cons {b : UInt8} (h : isSpace b = false) (bs : Bytes) :
    expect b (b :: bs) = some bs := by
  rw [expect, skipSpace_cons h]
  exact if_pos rfl

theorem expect_other {b c : UInt8} (h : isSpace c = false) (hne : c ≠ b) (bs : Bytes) :
    expect b (c :: bs) = none := by
  rw [expect, skipSpace_cons h]
  exact if_neg hne

/-! ## Reading back -/

/-- Where a value may start. -/
def Starts (b : UInt8) : Prop := isSpace b = false ∧ b ≠ closeBracket ∧ b ≠ closingBrace

instance (b : UInt8) : Decidable (Starts b) := inferInstanceAs (Decidable (_ ∧ _))

theorem starts_of_number {b : UInt8} (h : isNumberByte b = true) : Starts b := by
  have hall : ∀ n < 256, isNumberByte n.toUInt8 = true → Starts n.toUInt8 := by decide +kernel
  have hb := hall b.toNat b.toNat_lt
  rw [Nat.toUInt8_eq, UInt8.ofNat_toNat] at hb
  exact hb h

theorem write_cons (j : Json) : ∃ b bs, writeJson j = b :: bs ∧ Starts b := by
  cases j with
  | null => exact ⟨110, utf8 "ull", by rw [writeJson]; decide, by decide⟩
  | bool b =>
    cases b with
    | false => exact ⟨102, utf8 "alse", by rw [writeJson]; decide, by decide⟩
    | true => exact ⟨116, utf8 "rue", by rw [writeJson]; decide, by decide⟩
  | number i =>
    obtain ⟨b, bs, hbytes, hb⟩ := formatInt_cons i
    exact ⟨b, bs, by rw [writeJson, hbytes], starts_of_number hb⟩
  | text s => exact ⟨quote, _, by rw [writeJson, writeString], by decide⟩
  | array items =>
    cases items with
    | nil => exact ⟨openBracket, _, by rw [writeJson], by decide⟩
    | cons j js => exact ⟨openBracket, _, by rw [writeJson], by decide⟩
  | object members =>
    cases members with
    | nil => exact ⟨openBrace, _, by rw [writeJson], by decide⟩
    | cons m ms => exact ⟨openBrace, _, by rw [writeJson], by decide⟩

theorem one_le_write (j : Json) : 1 ≤ (writeJson j).length := by
  obtain ⟨b, bs, hbytes, -⟩ := write_cons j
  rw [hbytes]
  exact Nat.le_add_left 1 _

theorem exists_succ {j : Json} {n : Nat} (hn : (writeJson j).length ≤ n) : ∃ m, n = m + 1 :=
  Nat.exists_eq_add_one_of_ne_zero (Nat.ne_of_gt ((one_le_write j).trans hn))

theorem read_word {b : UInt8} (hspace : isSpace b = false) (hquote : b ≠ quote)
    (hbracket : b ≠ openBracket) (hbrace : b ≠ openBrace) (hnumber : isNumberByte b = false)
    (n : Nat) (bs : Bytes) : readJson (n + 1) (b :: bs) = readWord (b :: bs) := by
  rw [readJson, skipSpace_cons hspace]
  simp only [if_neg hquote, if_neg hbracket, if_neg hbrace, hnumber]
  rfl

theorem read_number (n : Nat) (i : Int) {rest : Bytes} (h : Stops rest) :
    readJson (n + 1) (utf8 (formatInt i) ++ rest) = some (.number i, rest) := by
  obtain ⟨b, bs, hbytes, hb⟩ := formatInt_cons i
  have hread := readNumber_formatInt i h
  rw [hbytes, List.cons_append] at hread ⊢
  have hspecial : b ≠ quote ∧ b ≠ openBracket ∧ b ≠ openBrace := by
    refine ⟨?_, ?_, ?_⟩ <;> rintro rfl <;> exact absurd hb (by decide)
  rw [readJson, skipSpace_cons (starts_of_number hb).1]
  simp only [if_neg hspecial.1, if_neg hspecial.2.1, if_neg hspecial.2.2, if_pos hb, hread]

theorem read_string (n : Nat) (s : String) (rest : Bytes) :
    readJson (n + 1) (writeString s ++ rest) = some (.text s, rest) := by
  rw [writeString, List.cons_append, List.append_assoc, List.singleton_append, readJson,
    skipSpace_cons (by decide)]
  simp only [if_true, readText_escape]
  rfl

/-- Values that are written and read one inside the other. -/
def ReadsBack (j : Json) : Prop :=
  ∀ n rest, (writeJson j).length ≤ n → Stops rest →
    readJson n (writeJson j ++ rest) = some (j, rest)

theorem stops_cons {b : UInt8} (h : isNumberByte b = false) (bs : Bytes) : Stops (b :: bs) := by
  intro c hc
  cases hc
  exact h

theorem readRest_close {α : Type} {close : UInt8} (hspace : isSpace close = false)
    (hne : close ≠ comma) (more : Bytes → Option (List α × Bytes)) (x : α) (rest : Bytes) :
    readRest close more x (close :: rest) = some ([x], rest) := by
  rw [readRest, expect_other hspace hne, expect_cons hspace]
  rfl

theorem readRest_comma {α : Type} (close : UInt8) (more : Bytes → Option (List α × Bytes)) (x : α)
    (bs : Bytes) : readRest close more x (comma :: bs) =
      (more bs).map fun rs => (x :: rs.1, rs.2) := by
  rw [readRest, expect_cons (by decide)]

theorem readItems_write {js : List Json} : ∀ {j : Json}, ReadsBack j → (∀ j ∈ js, ReadsBack j) →
    ∀ (n : Nat) (rest : Bytes), (writeJson j ++ writeItems js).length ≤ n →
      readItems n (writeJson j ++ writeItems js ++ rest) = some (j :: js, rest) := by
  induction js with
  | nil =>
    intro j hj _ n rest hn
    have hone := one_le_write j
    simp only [writeItems, List.length_append, List.length_singleton] at hn
    obtain ⟨n, rfl⟩ := Nat.exists_eq_add_one_of_ne_zero (by omega : n ≠ 0)
    rw [readItems, writeItems, List.append_assoc, List.singleton_append,
      hj n _ (by omega) (stops_cons (by decide) rest), Option.bind_some,
      readRest_close (by decide) (by decide)]
  | cons j' js ih =>
    intro j hj hjs n rest hn
    rw [List.forall_mem_cons] at hjs
    have hone := one_le_write j
    simp only [writeItems, List.length_append, List.length_cons] at hn
    obtain ⟨n, rfl⟩ := Nat.exists_eq_add_one_of_ne_zero (by omega : n ≠ 0)
    have hrest := ih hjs.1 hjs.2 n rest (by rw [List.length_append]; omega)
    rw [readItems, writeItems, List.append_assoc, List.cons_append,
      hj n _ (by omega) (stops_cons (by decide) _), Option.bind_some, readRest_comma, hrest]
    rfl

theorem readKey_write (k : String) (bs : Bytes) :
    readKey (writeString k ++ colon :: bs) = some (k, bs) := by
  rw [readKey, writeString, List.cons_append, expect_cons (by decide), Option.bind_some,
    List.append_assoc, List.singleton_append, readText_escape, Option.bind_some,
    expect_cons (by decide)]
  rfl

theorem readMembers_write {ms : List (String × Json)} : ∀ {k : String} {j : Json}, ReadsBack j →
    (∀ m ∈ ms, ReadsBack m.2) → ∀ (n : Nat) (rest : Bytes),
      (writeString k ++ colon :: (writeJson j ++ writeMembers ms)).length ≤ n →
      readMembers n (writeString k ++ colon :: (writeJson j ++ writeMembers ms) ++ rest) =
        some ((k, j) :: ms, rest) := by
  induction ms with
  | nil =>
    intro k j hj _ n rest hn
    have hone := one_le_write j
    simp only [writeMembers, List.length_append, List.length_cons, List.length_nil] at hn
    obtain ⟨n, rfl⟩ := Nat.exists_eq_add_one_of_ne_zero (by omega : n ≠ 0)
    rw [readMembers, List.append_assoc, List.cons_append, readKey_write, Option.bind_some]
    rw [writeMembers, List.append_assoc, List.singleton_append,
      hj n _ (by omega) (stops_cons (by decide) rest), Option.bind_some,
      readRest_close (by decide) (by decide)]
  | cons m ms ih =>
    intro k j hj hms n rest hn
    rw [List.forall_mem_cons] at hms
    obtain ⟨k', j'⟩ := m
    have hone := one_le_write j
    simp only [writeMembers, List.length_append, List.length_cons] at hn
    obtain ⟨n, rfl⟩ := Nat.exists_eq_add_one_of_ne_zero (by omega : n ≠ 0)
    have hrest := ih (k := k') hms.1 hms.2 n rest
      (by simp only [List.length_append, List.length_cons]; omega)
    rw [readMembers, List.append_assoc, List.cons_append, readKey_write, Option.bind_some]
    rw [writeMembers, List.append_assoc, List.cons_append,
      hj n _ (by omega) (stops_cons (by decide) _), Option.bind_some, readRest_comma, hrest]
    rfl

theorem readsBack_null : ReadsBack .null := by
  intro n rest hn _
  obtain ⟨n, rfl⟩ := exists_succ hn
  rw [writeJson, show utf8 "null" = 110 :: utf8 "ull" by decide, List.cons_append,
    read_word (by decide) (by decide) (by decide) (by decide) (by decide), ← List.cons_append]
  exact readWord_null rest

theorem readsBack_bool (b : Bool) : ReadsBack (.bool b) := by
  intro n rest hn _
  obtain ⟨n, rfl⟩ := exists_succ hn
  cases b with
  | false =>
    rw [writeJson, show utf8 "false" = 102 :: utf8 "alse" by decide, List.cons_append,
      read_word (by decide) (by decide) (by decide) (by decide) (by decide), ← List.cons_append]
    exact readWord_false rest
  | true =>
    rw [writeJson, show utf8 "true" = 116 :: utf8 "rue" by decide, List.cons_append,
      read_word (by decide) (by decide) (by decide) (by decide) (by decide), ← List.cons_append]
    exact readWord_true rest

theorem readsBack_array {items : List Json} (h : ∀ j ∈ items, ReadsBack j) :
    ReadsBack (.array items) := by
  intro n rest hn _
  obtain ⟨n, rfl⟩ := exists_succ hn
  cases items with
  | nil =>
    rw [writeJson, List.cons_append, readJson, skipSpace_cons (by decide)]
    rfl
  | cons j js =>
    rw [List.forall_mem_cons] at h
    rw [writeJson] at hn ⊢
    rw [List.length_cons] at hn
    have hread := readItems_write h.1 h.2 n rest (Nat.le_of_succ_le_succ hn)
    have hfull : expect closeBracket (writeJson j ++ writeItems js ++ rest) = none := by
      obtain ⟨b, bs, hbytes, hspace, hbracket, -⟩ := write_cons j
      rw [hbytes, List.cons_append, List.cons_append, expect_other hspace hbracket]
    rw [List.cons_append, readJson, skipSpace_cons (by decide)]
    dsimp only
    rw [if_neg (by decide), if_pos rfl, hfull, hread]
    rfl

theorem readsBack_object {members : List (String × Json)} (h : ∀ m ∈ members, ReadsBack m.2) :
    ReadsBack (.object members) := by
  intro n rest hn _
  obtain ⟨n, rfl⟩ := exists_succ hn
  cases members with
  | nil =>
    rw [writeJson, List.cons_append, readJson, skipSpace_cons (by decide)]
    rfl
  | cons m ms =>
    rw [List.forall_mem_cons] at h
    obtain ⟨k, j⟩ := m
    rw [writeJson] at hn ⊢
    rw [List.length_cons] at hn
    have hread := readMembers_write (k := k) h.1 h.2 n rest (Nat.le_of_succ_le_succ hn)
    have hfull : expect closingBrace
        (writeString k ++ colon :: (writeJson j ++ writeMembers ms) ++ rest) = none := by
      rw [writeString, List.cons_append, List.cons_append, expect_other (by decide) (by decide)]
    rw [List.cons_append, readJson, skipSpace_cons (by decide)]
    dsimp only
    rw [if_neg (by decide), if_neg (by decide), if_pos rfl, hfull, hread]
    rfl

/-- The reader undoes the writer. -/
theorem readsBack : (j : Json) → ReadsBack j
  | .null => readsBack_null
  | .bool b => readsBack_bool b
  | .number i => by
    intro n rest hn hrest
    obtain ⟨n, rfl⟩ := exists_succ hn
    rw [writeJson]
    exact read_number n i hrest
  | .text s => by
    intro n rest hn _
    obtain ⟨n, rfl⟩ := exists_succ hn
    rw [writeJson]
    exact read_string n s rest
  | .array items => readsBack_array fun j _ => readsBack j
  | .object members => readsBack_object fun m _ => readsBack m.2
termination_by j => sizeOf j
decreasing_by
  · have hlt := List.sizeOf_lt_of_mem ‹j ∈ items›
    simp only [Json.array.sizeOf_spec]
    omega
  · have hlt := List.sizeOf_lt_of_mem ‹m ∈ members›
    obtain ⟨k, j⟩ := m
    simp only [Json.object.sizeOf_spec, Prod.mk.sizeOf_spec] at hlt ⊢
    omega

theorem readFirst_write (j : Json) {rest : Bytes} (h : Stops rest) :
    readFirst (writeJson j ++ rest) = some j := by
  rw [readFirst, readsBack j _ rest (by simp only [List.length_append]; omega) h]
  rfl

/-! ## Longer texts -/

theorem skipSpace_extend {bs r : Bytes} {b : UInt8} (h : skipSpace bs = b :: r) (s : Bytes) :
    skipSpace (bs ++ s) = b :: (r ++ s) := by
  unfold skipSpace at h ⊢
  rw [List.dropWhile_append, h]
  rfl

theorem expect_extend {b : UInt8} {bs r : Bytes} (h : expect b bs = some r) (s : Bytes) :
    expect b (bs ++ s) = some (r ++ s) := by
  unfold expect at h
  split at h
  · next c cs hskip =>
    rw [expect, skipSpace_extend hskip]
    split at h
    · next hc =>
      cases h
      exact if_pos hc
    · cases h
  · cases h

/-- A byte that is refused is refused, if there is one. -/
theorem expect_none_extend {b : UInt8} {bs : Bytes} (h : expect b bs = none)
    (hsome : skipSpace bs ≠ []) (s : Bytes) : expect b (bs ++ s) = none := by
  cases hskip : skipSpace bs with
  | nil => exact absurd hskip hsome
  | cons c cs =>
    rw [expect, hskip] at h
    rw [expect, skipSpace_extend hskip]
    dsimp only at h ⊢
    split at h
    · cases h
    · next hc => exact if_neg hc

theorem skipSpace_of_expect {b : UInt8} {bs r : Bytes} (h : expect b bs = some r) :
    skipSpace bs ≠ [] := by
  intro hskip
  rw [expect, hskip] at h
  cases h

theorem readNumber_extend {bs r : Bytes} {j : Json} (h : readNumber bs = some (j, r)) (hr : r ≠ [])
    (s : Bytes) : readNumber (bs ++ s) = some (j, r ++ s) := by
  obtain ⟨literal, htext, h⟩ := Option.bind_eq_some_iff.mp h
  obtain ⟨i, hi, heq⟩ := Option.map_eq_some_iff.mp h
  cases heq
  have hdrop : (bs ++ s).dropWhile isNumberByte = bs.dropWhile isNumberByte ++ s := by
    rw [List.dropWhile_append, if_neg (by simpa using hr)]
  have htake : (bs ++ s).takeWhile isNumberByte = bs.takeWhile isNumberByte := by
    have happend : (bs ++ s).takeWhile isNumberByte ++ (bs.dropWhile isNumberByte ++ s) =
        bs.takeWhile isNumberByte ++ (bs.dropWhile isNumberByte ++ s) := by
      rw [← hdrop, List.takeWhile_append_dropWhile, hdrop, ← List.append_assoc,
        List.takeWhile_append_dropWhile]
    exact List.append_cancel_right happend
  rw [readNumber, htake, htext, Option.bind_some, hi, hdrop]
  rfl

theorem readWord_extend {bs r : Bytes} {j : Json} (h : readWord bs = some (j, r)) (s : Bytes) :
    readWord (bs ++ s) = some (j, r ++ s) := by
  unfold readWord at h
  split at h
  · next hnull =>
    cases h
    rw [trimPrefix?_eq_some hnull, List.append_assoc, readWord_null]
  · split at h
    · next htrue =>
      cases h
      rw [trimPrefix?_eq_some htrue, List.append_assoc, readWord_true]
    · obtain ⟨bs', hfalse, heq⟩ := Option.map_eq_some_iff.mp h
      cases heq
      rw [trimPrefix?_eq_some hfalse, List.append_assoc, readWord_false]

theorem readKey_extend {bs r : Bytes} {k : String} (h : readKey bs = some (k, r)) (s : Bytes) :
    readKey (bs ++ s) = some (k, r ++ s) := by
  obtain ⟨bs', hquote, h⟩ := Option.bind_eq_some_iff.mp h
  obtain ⟨⟨k', r'⟩, htext, h⟩ := Option.bind_eq_some_iff.mp h
  obtain ⟨r'', hcolon, heq⟩ := Option.map_eq_some_iff.mp h
  cases heq
  rw [readKey, expect_extend hquote, Option.bind_some, readText_extend s htext, Option.bind_some,
    expect_extend hcolon]
  rfl

/-- What the three readers make of a text with `n` steps, they make of a longer one with more.
Only a number at the very end could go on. -/
structure Extends (s : Bytes) (n : Nat) : Prop where
  value : ∀ {bs j r}, readJson n bs = some (j, r) → (∀ i, j = .number i → r ≠ []) →
    ∀ m, n ≤ m → readJson m (bs ++ s) = some (j, r ++ s)
  items : ∀ {bs js r}, readItems n bs = some (js, r) →
    ∀ m, n ≤ m → readItems m (bs ++ s) = some (js, r ++ s)
  members : ∀ {bs ms r}, readMembers n bs = some (ms, r) →
    ∀ m, n ≤ m → readMembers m (bs ++ s) = some (ms, r ++ s)

theorem ne_nil_of_skipSpace {bs : Bytes} (h : skipSpace bs ≠ []) : bs ≠ [] := by
  rintro rfl
  exact h rfl

theorem skipSpace_of_readJson {n : Nat} {bs r : Bytes} {j : Json}
    (h : readJson n bs = some (j, r)) : skipSpace bs ≠ [] := by
  intro hskip
  cases n with
  | zero => rw [readJson] at h; cases h
  | succ n => rw [readJson, hskip] at h; cases h

theorem readRest_extend {α : Type} {close : UInt8} {more : Bytes → Option (List α × Bytes)} {x : α}
    {xs : List α} {s bs r : Bytes} (more' : Bytes → Option (List α × Bytes))
    (h : readRest close more x bs = some (xs, r))
    (hmore : ∀ {bs xs r}, more bs = some (xs, r) → more' (bs ++ s) = some (xs, r ++ s)) :
    skipSpace bs ≠ [] ∧ readRest close more' x (bs ++ s) = some (xs, r ++ s) := by
  unfold readRest at h
  cases hcomma : expect comma bs with
  | some bs' =>
    rw [hcomma] at h
    obtain ⟨⟨xs', r'⟩, hrest, heq⟩ := Option.map_eq_some_iff.mp h
    cases heq
    refine ⟨skipSpace_of_expect hcomma, ?_⟩
    rw [readRest, expect_extend hcomma]
    dsimp only
    rw [hmore hrest]
    rfl
  | none =>
    rw [hcomma] at h
    obtain ⟨r', hclose, heq⟩ := Option.map_eq_some_iff.mp h
    cases heq
    have hsome := skipSpace_of_expect hclose
    refine ⟨hsome, ?_⟩
    rw [readRest, expect_none_extend hcomma hsome]
    dsimp only
    rw [expect_extend hclose]
    rfl

section

variable {s bs r : Bytes} {n m : Nat} {j : Json}

theorem Extends.items_succ (ih : Extends s n) {js : List Json}
    (h : readItems (n + 1) bs = some (js, r)) (hm : n ≤ m) :
    readItems (m + 1) (bs ++ s) = some (js, r ++ s) := by
  rw [readItems] at h ⊢
  obtain ⟨⟨j, r'⟩, hvalue, hrest⟩ := Option.bind_eq_some_iff.mp h
  obtain ⟨hsome, hrest⟩ := readRest_extend (fun bs => readItems m bs) hrest
    fun hitems => ih.items hitems m hm
  rw [ih.value hvalue (fun _ _ => ne_nil_of_skipSpace hsome) m hm]
  exact hrest

theorem Extends.members_succ (ih : Extends s n) {ms : List (String × Json)}
    (h : readMembers (n + 1) bs = some (ms, r)) (hm : n ≤ m) :
    readMembers (m + 1) (bs ++ s) = some (ms, r ++ s) := by
  rw [readMembers] at h ⊢
  obtain ⟨⟨k, bs'⟩, hkey, h⟩ := Option.bind_eq_some_iff.mp h
  obtain ⟨⟨j, r'⟩, hvalue, hrest⟩ := Option.bind_eq_some_iff.mp h
  obtain ⟨hsome, hrest⟩ := readRest_extend (fun bs => readMembers m bs) hrest
    fun hmembers => ih.members hmembers m hm
  rw [readKey_extend hkey, Option.bind_some,
    ih.value hvalue (fun _ _ => ne_nil_of_skipSpace hsome) m hm]
  exact hrest

theorem skipSpace_of_readItems {js : List Json} (h : readItems n bs = some (js, r)) :
    skipSpace bs ≠ [] := by
  cases n with
  | zero => rw [readItems] at h; cases h
  | succ n =>
    rw [readItems] at h
    obtain ⟨_, hvalue, -⟩ := Option.bind_eq_some_iff.mp h
    exact skipSpace_of_readJson hvalue

theorem skipSpace_of_readMembers {ms : List (String × Json)} (h : readMembers n bs = some (ms, r)) :
    skipSpace bs ≠ [] := by
  cases n with
  | zero => rw [readMembers] at h; cases h
  | succ n =>
    rw [readMembers] at h
    obtain ⟨_, hkey, -⟩ := Option.bind_eq_some_iff.mp h
    obtain ⟨_, hquote, -⟩ := Option.bind_eq_some_iff.mp hkey
    exact skipSpace_of_expect hquote

theorem Extends.value_succ (ih : Extends s n) (h : readJson (n + 1) bs = some (j, r))
    (hnumber : ∀ i, j = .number i → r ≠ []) (hm : n ≤ m) :
    readJson (m + 1) (bs ++ s) = some (j, r ++ s) := by
  rw [readJson] at h ⊢
  cases hskip : skipSpace bs with
  | nil => rw [hskip] at h; cases h
  | cons b bs' =>
    rw [hskip] at h
    rw [skipSpace_extend hskip]
    dsimp only at h ⊢
    split_ifs at h ⊢ with hquote hbracket hbrace hdigit
    · obtain ⟨⟨text, r'⟩, htext, heq⟩ := Option.map_eq_some_iff.mp h
      cases heq
      rw [readText_extend s htext]
      rfl
    · cases hclose : expect closeBracket bs' with
      | some r' =>
        rw [hclose] at h
        cases h
        rw [expect_extend hclose]
      | none =>
        rw [hclose] at h
        obtain ⟨⟨js, r'⟩, hitems, heq⟩ := Option.map_eq_some_iff.mp h
        cases heq
        rw [expect_none_extend hclose (skipSpace_of_readItems hitems)]
        dsimp only
        rw [ih.items hitems m hm]
        rfl
    · cases hclose : expect closingBrace bs' with
      | some r' =>
        rw [hclose] at h
        cases h
        rw [expect_extend hclose]
      | none =>
        rw [hclose] at h
        obtain ⟨⟨ms, r'⟩, hmembers, heq⟩ := Option.map_eq_some_iff.mp h
        cases heq
        rw [expect_none_extend hclose (skipSpace_of_readMembers hmembers)]
        dsimp only
        rw [ih.members hmembers m hm]
        rfl
    · have hr : r ≠ [] := by
        obtain ⟨_, -, hi⟩ := Option.bind_eq_some_iff.mp h
        obtain ⟨i, -, heq⟩ := Option.map_eq_some_iff.mp hi
        exact hnumber i (congrArg Prod.fst heq).symm
      exact readNumber_extend h hr s
    · exact readWord_extend h s

/-- A reader that has come to an end does not look further. -/
theorem extends_all (s : Bytes) (n : Nat) : Extends s n := by
  induction n with
  | zero =>
    refine ⟨fun h => ?_, fun h => ?_, fun h => ?_⟩
    · rw [readJson] at h; cases h
    · rw [readItems] at h; cases h
    · rw [readMembers] at h; cases h
  | succ n ih =>
    refine ⟨fun h hnumber m hm => ?_, fun h m hm => ?_, fun h m hm => ?_⟩
    all_goals obtain ⟨m, rfl⟩ := Nat.exists_eq_add_one_of_ne_zero (by omega : m ≠ 0)
    · exact ih.value_succ h hnumber (Nat.le_of_succ_le_succ hm)
    · exact ih.items_succ h (Nat.le_of_succ_le_succ hm)
    · exact ih.members_succ h (Nat.le_of_succ_le_succ hm)

theorem object_of_readJson (h : readJson n (openBrace :: bs) = some (j, r)) :
    ∃ ms, j = .object ms := by
  cases n with
  | zero => rw [readJson] at h; cases h
  | succ n =>
    rw [readJson, skipSpace_cons (by decide)] at h
    dsimp only at h
    rw [if_neg (by decide), if_neg (by decide), if_pos rfl] at h
    split at h
    · cases h
      exact ⟨[], rfl⟩
    · obtain ⟨⟨ms, r'⟩, -, heq⟩ := Option.map_eq_some_iff.mp h
      cases heq
      exact ⟨ms, rfl⟩

/-- Of a text that starts with an object, a first part is read only if it has the whole object. -/
theorem readFirst_cut {ms : List (String × Json)} {p rest : Bytes} (hrest : Stops rest)
    (hp : p <+: writeJson (.object ms) ++ rest) (h : readFirst p = some j) :
    j = .object ms ∧ writeJson (.object ms) <+: p := by
  obtain ⟨⟨j', r⟩, hread, rfl⟩ := Option.map_eq_some_iff.mp h
  obtain ⟨s, hs⟩ := hp
  obtain ⟨bs, hbytes⟩ : ∃ bs, writeJson (.object ms) = openBrace :: bs := by
    cases ms with
    | nil => exact ⟨_, by rw [writeJson]⟩
    | cons m ms => exact ⟨_, by rw [writeJson]⟩
  have hsome : p ≠ [] := ne_nil_of_skipSpace (skipSpace_of_readJson hread)
  obtain ⟨c, p', rfl⟩ := List.exists_cons_of_ne_nil hsome
  obtain rfl : c = openBrace := by
    rw [hbytes] at hs
    exact (List.cons.inj hs).1
  obtain ⟨ms', rfl⟩ := object_of_readJson hread
  -- the whole text is read as the part is, and as the object that was written
  have hextend := (extends_all s _).value hread (fun _ heq => nomatch heq)
    ((openBrace :: p').length + 1 + (writeJson (.object ms)).length) (by omega)
  rw [hs, readsBack _ _ _ (by omega) hrest] at hextend
  obtain ⟨hsame, hr⟩ := Prod.mk.inj (Option.some.inj hextend)
  refine ⟨hsame.symm, ⟨r, ?_⟩⟩
  rw [hr, ← List.append_assoc] at hs
  exact (List.append_cancel_right hs).symm

theorem stops_take {rest : Bytes} (h : Stops rest) (k : Nat) : Stops (rest.take k) := by
  intro b hb
  rw [List.head?_take] at hb
  split at hb
  · cases hb
  · exact h b hb

theorem readFirst_part {ms : List (String × Json)} {p rest : Bytes} (hrest : Stops rest)
    (hp : p <+: writeJson (.object ms) ++ rest) : readFirst p =
      if (writeJson (.object ms)).length ≤ p.length then some (.object ms) else none := by
  split
  · next hlen =>
    have hwhole : p = writeJson (.object ms) ++
        rest.take (p.length - (writeJson (.object ms)).length) := by
      conv_lhs => rw [List.prefix_iff_eq_take.mp hp, List.take_append, List.take_of_length_le hlen]
    rw [hwhole]
    exact readFirst_write _ (stops_take hrest _)
  · next hlen =>
    rw [Option.eq_none_iff_forall_ne_some]
    intro j hj
    exact hlen (readFirst_cut hrest hp hj).2.length_le

end

end JsonTextLemmas

end Zodiac
