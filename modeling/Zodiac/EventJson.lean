import Zodiac.Sse

/-!
# Marshalled events

`json.Marshal` on `api.WatchEvent`: an object with the key, the value unless it is
empty, and the revision, with strings escaped as `encoding/json` escapes them. The
reader accepts the objects that the writer writes, and every string literal that
`encoding/json` accepts.

* `readEvent_marshal`: the reader undoes the writer.
* `readEvent_append`: the reader does not look behind the closing brace, so no
  proper first part of a marshalled event is one.
* `jsonCodec`: the codec, with the laws that the event stream needs.
-/

namespace Zodiac

/-! ## The writer -/

def quote : UInt8 := 34

def backslash : UInt8 := 92

def closingBrace : UInt8 := 125

/-- A hexadecimal digit in lower case. -/
def hexDigit (n : Nat) : UInt8 := if n < 10 then (48 + n).toUInt8 else (87 + n).toUInt8

/-- The letter after the backslash, for the bytes that have a short escape. -/
def shortEscape? (b : UInt8) : Option UInt8 :=
  if b = quote ∨ b = backslash then some b
  else if b = 8 then some 98
  else if b = 12 then some 102
  else if b = newline then some 110
  else if b = carriageReturn then some 114
  else if b = 9 then some 116
  else none

/-- The bytes written for one byte: control characters and the three that mean
something in HTML are written as `\u00xx`. -/
def escapeByte (b : UInt8) : Bytes :=
  match shortEscape? b with
  | some c => [backslash, c]
  | none =>
    if b < 32 ∨ b = 38 ∨ b = 60 ∨ b = 62 then
      [backslash, 117, 48, 48, hexDigit (b.toNat / 16), hexDigit (b.toNat % 16)]
    else [b]

/-- The bytes written for a string. The two line separators U+2028 and U+2029 are
escaped as well. -/
def escape : Bytes → Bytes
  | a :: b :: c :: bs =>
    if a = 226 ∧ b = 128 ∧ (c = 168 ∨ c = 169) then
      [backslash, 117, 50, 48, 50, hexDigit (c.toNat % 16)] ++ escape bs
    else escapeByte a ++ escape (b :: c :: bs)
  | a :: bs => escapeByte a ++ escape bs
  | [] => []

/-- The value field, which is left out when it is empty. -/
def marshalValue (value : String) : Bytes :=
  if value = "" then [] else utf8 ",\"value\":\"" ++ (escape (utf8 value) ++ [quote])

/-- `json.Marshal`. -/
def jsonMarshal (f : EventFields) : Bytes :=
  utf8 "\x7b\"key\":\"" ++ (escape (utf8 f.key) ++ [quote] ++
    (marshalValue f.value ++ (utf8 ",\"revision\":" ++ (utf8 (formatInt f.revision) ++ [closingBrace]))))

/-! ## The reader -/

/-- The value of a hexadecimal digit. -/
def hexValue? (b : UInt8) : Option Nat :=
  if 48 ≤ b ∧ b ≤ 57 then some (b.toNat - 48)
  else if 97 ≤ b ∧ b ≤ 102 then some (b.toNat - 87)
  else if 65 ≤ b ∧ b ≤ 70 then some (b.toNat - 55)
  else none

/-- The byte with the given letter in its short escape. A slash may have one too. -/
def unescapeShort? (c : UInt8) : Option UInt8 :=
  if c = quote ∨ c = backslash ∨ c = 47 then some c
  else if c = 98 then some 8
  else if c = 102 then some 12
  else if c = 110 then some newline
  else if c = 114 then some carriageReturn
  else if c = 116 then some 9
  else none

/-- Where the reader is in a string: between characters, behind a backslash, or
behind `\u` with `k` digits read, which have the value `v`. -/
inductive StringState
  | plain
  | escaped
  | hex (k v : Nat)

/-- What a string literal has between its quotes: a byte, or the number behind `\u`, which is
a code unit of UTF-16. -/
inductive Piece
  | byte (b : UInt8)
  | unit (n : Nat)

/-- Read a string up to its closing quote: its pieces, and what follows the quote. -/
def unescape : StringState → Bytes → Option (List Piece × Bytes)
  | _, [] => none
  | .plain, b :: bs =>
    if b = quote then some ([], bs)
    else if b = backslash then unescape .escaped bs
    else if b < 32 then none
    else (unescape .plain bs).map fun r => (.byte b :: r.1, r.2)
  | .escaped, c :: bs =>
    if c = 117 then unescape (.hex 0 0) bs
    else match unescapeShort? c with
      | none => none
      | some b => (unescape .plain bs).map fun r => (.byte b :: r.1, r.2)
  | .hex k v, d :: bs =>
    match hexValue? d with
    | none => none
    | some n =>
      if k = 3 then (unescape .plain bs).map fun r => (.unit (v * 16 + n) :: r.1, r.2)
      else unescape (.hex (k + 1) (v * 16 + n)) bs

/-- The bytes of the character with the number `n`, or those of U+FFFD if there is none. -/
def runeBytes (n : Nat) : Bytes :=
  String.utf8EncodeChar (if n.isValidChar then Char.ofNat n else '\ufffd')

/-- The bytes that are meant. Two units that are a pair of surrogates give one character. -/
def assemble : List Piece → Bytes
  | [] => []
  | .byte b :: ps => b :: assemble ps
  | .unit hi :: .unit lo :: ps =>
    if 0xd800 ≤ hi ∧ hi < 0xdc00 ∧ 0xdc00 ≤ lo ∧ lo < 0xe000 then
      runeBytes (0x10000 + (hi - 0xd800) * 0x400 + (lo - 0xdc00)) ++ assemble ps
    else runeBytes hi ++ assemble (.unit lo :: ps)
  | .unit n :: ps => runeBytes n ++ assemble ps

/-- The characters of some bytes. A byte that is not part of one is taken for U+FFFD. The first
argument bounds the number of characters. -/
def runes : Nat → Bytes → List Char
  | n + 1, b :: bs =>
    match (b :: bs).toByteArray.utf8DecodeChar? 0 with
    | some c => c :: runes n ((b :: bs).drop c.utf8Size)
    | none => '\ufffd' :: runes n bs
  | _, _ => []

/-- The string of some bytes, made well-formed. -/
def coerceText (bs : Bytes) : String := (decodeText bs).getD (String.ofList (runes bs.length bs))

/-- Read a string behind its opening quote. -/
def readText (bs : Bytes) : Option (String × Bytes) :=
  (unescape .plain bs).map fun r => (coerceText (assemble r.1), r.2)

/-- Read up to the closing brace. -/
def untilBrace : Bytes → Option (Bytes × Bytes)
  | [] => none
  | b :: bs =>
    if b = closingBrace then some ([], bs) else (untilBrace bs).map fun r => (b :: r.1, r.2)

/-- Read the revision and the closing brace. -/
def readRevision (bs : Bytes) : Option (Int × Bytes) :=
  (untilBrace bs).bind fun r => ((decodeText r.1).map parseInt).bind fun i =>
    if i.2 = none then some (i.1, r.2) else none

/-- Read the value field, if there is one, and the name of the revision field. -/
def readValue (bs : Bytes) : Option (String × Bytes) :=
  match trimPrefix? ",\"revision\":" bs with
  | some bs => some ("", bs)
  | none =>
    (trimPrefix? ",\"value\":\"" bs).bind fun bs => (readText bs).bind fun r =>
      (trimPrefix? ",\"revision\":" r.2).map fun bs => (r.1, bs)

/-- Read one event. -/
def readEvent (bs : Bytes) : Option (EventFields × Bytes) :=
  (trimPrefix? "\x7b\"key\":\"" bs).bind fun bs => (readText bs).bind fun k =>
    (readValue k.2).bind fun v => (readRevision v.2).map fun i =>
      ({ key := k.1, value := v.1, revision := i.1 }, i.2)

/-- `json.Unmarshal`, on what `json.Marshal` writes: one event and nothing behind it. -/
def jsonUnmarshal (bs : Bytes) : Option EventFields :=
  match readEvent bs with
  | some (f, []) => some f
  | _ => none

namespace EventJsonLemmas

open SseLemmas

/-! ## Reading back -/

theorem hexValue?_hexDigit {n : Nat} (h : n < 16) : hexValue? (hexDigit n) = some n := by
  have hall : ∀ n < 16, hexValue? (hexDigit n) = some n := by decide
  exact hall n h

theorem utf8EncodeChar_ofNat {n : Nat} (h : n < 128) :
    String.utf8EncodeChar (Char.ofNat n) = [n.toUInt8] := by
  have hall : ∀ n < 128, String.utf8EncodeChar (Char.ofNat n) = [n.toUInt8] := by decide
  exact hall n h

theorem unescapeShort?_shortEscape? {b c : UInt8} (h : shortEscape? b = some c) :
    unescapeShort? c = some b ∧ c ≠ 117 := by
  unfold shortEscape? at h
  split_ifs at h with h1 h2 h3 h4 h5 h6
  · cases h
    rcases h1 with rfl | rfl <;> decide
  all_goals
    cases h
    subst b
    decide

theorem ne_of_shortEscape?_none {b : UInt8} (h : shortEscape? b = none) :
    b ≠ quote ∧ b ≠ backslash := by
  unfold shortEscape? at h
  split at h
  · cases h
  · next hne => exact not_or.mp hne

theorem unescape_hex (a b c d : Nat) (ha : a < 16) (hb : b < 16) (hc : c < 16) (hd : d < 16)
    (bs : Bytes) :
    unescape .plain ([backslash, 117, hexDigit a, hexDigit b, hexDigit c, hexDigit d] ++ bs) =
      (unescape .plain bs).map fun r => (.unit (((a * 16 + b) * 16 + c) * 16 + d) :: r.1, r.2) := by
  have hq : ¬ backslash = quote := by decide
  simp only [List.cons_append, List.nil_append, unescape, if_neg hq, if_true, hexValue?_hexDigit ha,
    hexValue?_hexDigit hb, hexValue?_hexDigit hc, hexValue?_hexDigit hd]
  simp only [Nat.zero_mul, Nat.zero_add, Nat.reduceAdd, Nat.reduceEqDiff, if_false]

/-- A unit that is a character, whatever follows. -/
theorem assemble_unit {n : Nat} (h : n.isValidChar) (ps : List Piece) :
    assemble (.unit n :: ps) = String.utf8EncodeChar (Char.ofNat n) ++ assemble ps := by
  have hrune : runeBytes n = String.utf8EncodeChar (Char.ofNat n) := by rw [runeBytes, if_pos h]
  have hhigh (lo : Nat) : ¬ (0xd800 ≤ n ∧ n < 0xdc00 ∧ 0xdc00 ≤ lo ∧ lo < 0xe000) := by
    rcases h with h | h <;> omega
  match ps with
  | [] | .byte _ :: _ => exact congrArg (· ++ assemble _) hrune
  | .unit lo :: ps => rw [assemble, if_neg (hhigh lo), hrune]

/-- What is written for a byte is read as one piece, which stands for the byte. -/
theorem unescape_escapeByte (b : UInt8) : ∃ p, (∀ ps, assemble (p :: ps) = b :: assemble ps) ∧
    ∀ bs, unescape .plain (escapeByte b ++ bs) =
      (unescape .plain bs).map fun r => (p :: r.1, r.2) := by
  have hq : ¬ backslash = quote := by decide
  unfold escapeByte
  cases hshort : shortEscape? b with
  | some c =>
    obtain ⟨hback, hne⟩ := unescapeShort?_shortEscape? hshort
    refine ⟨.byte b, fun _ => rfl, fun bs => ?_⟩
    simp only [List.cons_append, List.nil_append, unescape, if_neg hq, if_true, if_neg hne, hback]
  | none =>
    obtain ⟨hquote, hslash⟩ := ne_of_shortEscape?_none hshort
    dsimp only
    split
    · next hspecial =>
      have hlt : b.toNat < 128 := by
        rcases hspecial with h | rfl | rfl | rfl
        · exact (UInt8.lt_iff_toNat_lt.mp h).trans (by decide)
        all_goals decide
      refine ⟨.unit b.toNat, fun ps => ?_, fun bs => ?_⟩
      · rw [assemble_unit (.inl (by omega)), utf8EncodeChar_ofNat hlt, Nat.toUInt8_eq,
          UInt8.ofNat_toNat, List.singleton_append]
      · have hzero : hexDigit 0 = 48 := by decide
        have hhex := unescape_hex 0 0 (b.toNat / 16) (b.toNat % 16) (by decide) (by decide)
          (by omega) (by omega) bs
        have hval : ((0 * 16 + 0) * 16 + b.toNat / 16) * 16 + b.toNat % 16 = b.toNat := by omega
        rw [hzero, hval] at hhex
        exact hhex
    · next hplain =>
      have hlt : ¬ b < 32 := fun h => hplain (.inl h)
      refine ⟨.byte b, fun _ => rfl, fun bs => ?_⟩
      simp only [List.cons_append, List.nil_append, unescape, if_neg hquote, if_neg hslash,
        if_neg hlt]

theorem unescape_escape (bs rest : Bytes) :
    ∃ ps, unescape .plain (escape bs ++ quote :: rest) = some (ps, rest) ∧ assemble ps = bs := by
  have hbyte {b : UInt8} {bs written : Bytes}
      (ih : ∃ ps, unescape .plain (written ++ quote :: rest) = some (ps, rest) ∧ assemble ps = bs) :
      ∃ ps, unescape .plain (escapeByte b ++ written ++ quote :: rest) = some (ps, rest) ∧
        assemble ps = b :: bs := by
    obtain ⟨ps, hread, rfl⟩ := ih
    obtain ⟨p, hp, hpiece⟩ := unescape_escapeByte b
    refine ⟨p :: ps, ?_, hp ps⟩
    rw [List.append_assoc, hpiece, hread]
    rfl
  fun_induction escape bs with
  | case1 a b c bs h ih =>
    obtain ⟨rfl, rfl, hc⟩ := h
    obtain ⟨ps, hread, rfl⟩ := ih
    have hhex := unescape_hex 2 0 2 (c.toNat % 16) (by decide) (by decide) (by decide) (by omega)
      (escape (assemble ps) ++ quote :: rest)
    rw [hread] at hhex
    refine ⟨_, hhex, ?_⟩
    dsimp only
    rw [assemble_unit (.inl (by omega))]
    rcases hc with rfl | rfl <;> rfl
  | case2 a b c bs h ih => exact hbyte ih
  | case3 a bs h ih => exact hbyte ih
  | case4 => exact ⟨[], by simp only [List.nil_append, unescape, if_true], rfl⟩

theorem readText_escape (s : String) (rest : Bytes) :
    readText (escape (utf8 s) ++ quote :: rest) = some (s, rest) := by
  obtain ⟨ps, hread, hps⟩ := unescape_escape (utf8 s) rest
  rw [readText, hread, Option.map_some, hps, coerceText, decodeText_utf8, Option.getD_some]

-- an escaped slash, upper-case digits, a pair of surrogates and one alone
example : (readText (utf8 "\\/\\u00E9\\ud83d\\ude00\\udc00\"")).map Prod.fst =
    some "/é😀\ufffd" := by decide

theorem untilBrace_append {bs : Bytes} (h : closingBrace ∉ bs) (rest : Bytes) :
    untilBrace (bs ++ closingBrace :: rest) = some (bs, rest) := by
  induction bs with
  | nil => simp only [List.nil_append, untilBrace, if_true]
  | cons b bs ih =>
    rw [List.mem_cons, not_or] at h
    have hb : ¬ b = closingBrace := fun heq => h.1 heq.symm
    simp only [List.cons_append, untilBrace, if_neg hb, ih h.2, Option.map_some]

theorem readRevision_formatInt {i : Int} (h : IsInt64 i) (rest : Bytes) :
    readRevision (utf8 (formatInt i) ++ closingBrace :: rest) = some (i, rest) := by
  have hbrace : closingBrace ∉ utf8 (formatInt i) := not_mem_utf8_formatInt i (by decide)
  rw [readRevision, untilBrace_append hbrace, Option.bind_some, decodeText_utf8, Option.map_some,
    Option.bind_some, parseInt_formatInt_int64 h.1 h.2, if_pos rfl]

/-- The names of the value field and of the revision field part at their first letter. -/
theorem revision_of_value (bs : Bytes) :
    trimPrefix? ",\"revision\":" (utf8 ",\"value\":\"" ++ bs) = none := by
  have hrev : utf8 ",\"revision\":" = 44 :: 34 :: 114 :: utf8 "evision\":" := by decide
  have hval : utf8 ",\"value\":\"" = 44 :: 34 :: 118 :: utf8 "alue\":\"" := by decide
  refine if_neg fun hpre => ?_
  rw [hrev, hval] at hpre
  simp [List.isPrefixOf] at hpre

theorem readValue_marshalValue (value : String) (rest : Bytes) :
    readValue (marshalValue value ++ (utf8 ",\"revision\":" ++ rest)) = some (value, rest) := by
  by_cases hempty : value = ""
  · rw [marshalValue, if_pos hempty, List.nil_append, readValue, trimPrefix?_append, hempty]
  · rw [marshalValue, if_neg hempty, List.append_assoc, List.append_assoc, readValue,
      revision_of_value]
    dsimp only
    rw [trimPrefix?_append, Option.bind_some, List.singleton_append, readText_escape,
      Option.bind_some, trimPrefix?_append]
    rfl

theorem readEvent_marshal {f : EventFields} (h : IsInt64 f.revision) :
    readEvent (jsonMarshal f) = some (f, []) := by
  rw [readEvent, jsonMarshal, trimPrefix?_append, Option.bind_some, List.append_assoc,
    List.singleton_append, readText_escape, Option.bind_some, readValue_marshalValue,
    Option.bind_some, readRevision_formatInt h]
  rfl

/-! ## Nothing behind the brace is read -/

theorem trimPrefix?_extend {text : String} {bs r : Bytes} (h : trimPrefix? text bs = some r)
    (s : Bytes) : trimPrefix? text (bs ++ s) = some (r ++ s) := by
  rw [trimPrefix?_eq_some h, List.append_assoc, trimPrefix?_append]

theorem unescape_extend (s : Bytes) {bs : Bytes} :
    ∀ {st : StringState} {a : List Piece} {r : Bytes},
      unescape st bs = some (a, r) → unescape st (bs ++ s) = some (a, r ++ s) := by
  induction bs with
  | nil =>
    intro st a r h
    cases st <;> cases h
  | cons b bs ih =>
    intro st a r h
    have hmap : ∀ {f : List Piece → List Piece},
        ((unescape .plain bs).map fun p => (f p.1, p.2)) = some (a, r) →
        ((unescape .plain (bs ++ s)).map fun p => (f p.1, p.2)) = some (a, r ++ s) := by
      intro f hf
      obtain ⟨⟨a', r'⟩, hrest, heq⟩ := Option.map_eq_some_iff.mp hf
      cases heq
      rw [ih hrest]
      rfl
    cases st with
    | plain =>
      simp only [List.cons_append, unescape] at h ⊢
      split_ifs at h ⊢ with hquote hslash hcontrol
      · cases h
        rfl
      · exact ih h
      · exact hmap h
    | escaped =>
      simp only [List.cons_append, unescape] at h ⊢
      split_ifs at h ⊢ with hu
      · exact ih h
      · split at h
        · cases h
        · exact hmap h
    | hex k v =>
      simp only [List.cons_append, unescape] at h ⊢
      split at h
      · cases h
      · split_ifs at h ⊢ with hk
        · exact hmap h
        · exact ih h

theorem readText_extend (s : Bytes) {bs r : Bytes} {a : String} (h : readText bs = some (a, r)) :
    readText (bs ++ s) = some (a, r ++ s) := by
  obtain ⟨⟨ps, r'⟩, hread, heq⟩ := Option.map_eq_some_iff.mp h
  cases heq
  rw [readText, unescape_extend s hread, Option.map_some]

theorem untilBrace_extend (s : Bytes) {bs : Bytes} : ∀ {a r : Bytes},
    untilBrace bs = some (a, r) → untilBrace (bs ++ s) = some (a, r ++ s) := by
  induction bs with
  | nil => intro a r h; cases h
  | cons b bs ih =>
    intro a r h
    simp only [List.cons_append, untilBrace] at h ⊢
    split_ifs at h ⊢ with hb
    · cases h
      rfl
    · obtain ⟨⟨a', r'⟩, hrest, heq⟩ := Option.map_eq_some_iff.mp h
      cases heq
      rw [ih hrest]
      rfl

theorem readRevision_extend (s : Bytes) {bs r : Bytes} {i : Int}
    (h : readRevision bs = some (i, r)) : readRevision (bs ++ s) = some (i, r ++ s) := by
  obtain ⟨⟨a, r'⟩, hread, h⟩ := Option.bind_eq_some_iff.mp h
  obtain ⟨p, hparse, h⟩ := Option.bind_eq_some_iff.mp h
  dsimp only at h
  split at h
  · next hok =>
    cases h
    rw [readRevision, untilBrace_extend s hread, Option.bind_some, hparse, Option.bind_some,
      if_pos hok]
  · cases h

theorem readValue_extend (s : Bytes) {bs r : Bytes} {a : String}
    (h : readValue bs = some (a, r)) : readValue (bs ++ s) = some (a, r ++ s) := by
  unfold readValue at h
  cases hrev : trimPrefix? ",\"revision\":" bs with
  | some bs' =>
    rw [hrev] at h
    cases h
    rw [readValue, trimPrefix?_extend hrev]
  | none =>
    rw [hrev] at h
    obtain ⟨bs', hval, h⟩ := Option.bind_eq_some_iff.mp h
    obtain ⟨⟨v, r'⟩, htext, h⟩ := Option.bind_eq_some_iff.mp h
    obtain ⟨r'', htag, heq⟩ := Option.map_eq_some_iff.mp h
    cases heq
    -- the value field is still no revision field
    have hrev' : trimPrefix? ",\"revision\":" (bs ++ s) = none := by
      rw [trimPrefix?_eq_some hval, List.append_assoc, revision_of_value]
    rw [readValue, hrev']
    dsimp only
    rw [trimPrefix?_extend hval, Option.bind_some, readText_extend s htext, Option.bind_some,
      trimPrefix?_extend htag]
    rfl

theorem readEvent_append (s : Bytes) {bs r : Bytes} {f : EventFields}
    (h : readEvent bs = some (f, r)) : readEvent (bs ++ s) = some (f, r ++ s) := by
  obtain ⟨bs', hkey, h⟩ := Option.bind_eq_some_iff.mp h
  obtain ⟨⟨key, r1⟩, htext, h⟩ := Option.bind_eq_some_iff.mp h
  obtain ⟨⟨value, r2⟩, hval, h⟩ := Option.bind_eq_some_iff.mp h
  obtain ⟨⟨revision, r3⟩, hrev, heq⟩ := Option.map_eq_some_iff.mp h
  cases heq
  rw [readEvent, trimPrefix?_extend hkey, Option.bind_some, readText_extend s htext,
    Option.bind_some, readValue_extend s hval, Option.bind_some, readRevision_extend s hrev]
  rfl

/-! ## No line breaks -/

theorem unbroken_hexDigit {n : Nat} (h : n < 16) : Unbroken [hexDigit n] := by
  have hall : ∀ n < 16, Unbroken [hexDigit n] := by decide
  exact hall n h

theorem unbroken_escapeByte (b : UInt8) : Unbroken (escapeByte b) := by
  unfold escapeByte
  cases hshort : shortEscape? b with
  | some c =>
    obtain ⟨hback, _⟩ := unescapeShort?_shortEscape? hshort
    refine Unbroken.append (l := [backslash]) (by decide) (List.forall_mem_singleton.mpr ⟨?_, ?_⟩)
    · rintro rfl
      cases hback
    · rintro rfl
      cases hback
  | none =>
    dsimp only
    split
    · exact Unbroken.append (l := [backslash, 117, 48, 48]) (by decide)
        ((unbroken_hexDigit (by have := b.toNat_lt; omega)).append (unbroken_hexDigit (by omega)))
    · next hplain =>
      refine List.forall_mem_singleton.mpr ⟨?_, ?_⟩
      · rintro rfl
        exact hplain (.inl (by decide))
      · rintro rfl
        exact hplain (.inl (by decide))

theorem unbroken_escape (bs : Bytes) : Unbroken (escape bs) := by
  fun_induction escape bs with
  | case1 a b c bs h ih =>
    exact (Unbroken.append (l := [backslash, 117, 50, 48, 50]) (by decide)
      (unbroken_hexDigit (by omega))).append ih
  | case2 a b c bs h ih => exact (unbroken_escapeByte a).append ih
  | case3 a bs h ih => exact (unbroken_escapeByte a).append ih
  | case4 => decide

theorem unbroken_marshal (f : EventFields) : Unbroken (jsonMarshal f) := by
  have hvalue : Unbroken (marshalValue f.value) := by
    unfold marshalValue
    split
    · decide
    · exact Unbroken.append (by decide) ((unbroken_escape _).append (by decide))
  have hrevision : Unbroken
      (utf8 ",\"revision\":" ++ (utf8 (formatInt f.revision) ++ [closingBrace])) :=
    Unbroken.append (by decide) ((unbroken_formatInt f.revision).append (by decide))
  exact Unbroken.append (by decide)
    (((unbroken_escape _).append (by decide)).append (hvalue.append hrevision))

/-! ## Length -/

theorem length_escapeByte (b : UInt8) : 1 ≤ (escapeByte b).length := by
  unfold escapeByte
  split
  · exact Nat.le_add_left 1 _
  · split
    · exact Nat.le_add_left 1 _
    · exact Nat.le_refl 1

/-- Escaping does not shorten a text. -/
theorem length_escape (bs : Bytes) : bs.length ≤ (escape bs).length := by
  fun_induction escape bs with
  | case1 a b c bs h ih =>
    simp only [List.length_append, List.length_cons, List.length_nil]
    omega
  | case2 a b c bs h ih =>
    have hone := length_escapeByte a
    rw [List.length_append, List.length_cons]
    omega
  | case3 a bs h ih =>
    have hone := length_escapeByte a
    rw [List.length_append, List.length_cons]
    omega
  | case4 => exact Nat.le_refl 0

theorem length_value_le_marshal (f : EventFields) (h : f.value ≠ "") :
    (utf8 f.value).length ≤ (jsonMarshal f).length := by
  have hescape := length_escape (utf8 f.value)
  rw [jsonMarshal, marshalValue, if_neg h]
  simp only [List.length_append]
  omega

end EventJsonLemmas

open EventJsonLemmas

/-! ## The codec -/

/-- Events as `encoding/json` writes and reads them. -/
def jsonCodec : EventCodec where
  marshal := jsonMarshal
  unmarshal := jsonUnmarshal
  unmarshal_marshal h := by
    rw [jsonUnmarshal, readEvent_marshal h]
  marshal_line := unbroken_marshal
  unmarshal_nil := rfl

theorem jsonCodec_prefixFree : jsonCodec.PrefixFree := by
  intro f p hint hp hne
  show jsonUnmarshal p = none
  unfold jsonUnmarshal
  split
  · next g hread =>
    -- a whole event in front of the rest would be the whole text
    obtain ⟨s, hs⟩ := hp
    have hwhole := readEvent_append s hread
    rw [hs] at hwhole
    have hmarshal := readEvent_marshal hint
    rw [show jsonCodec.marshal f = jsonMarshal f from rfl, hmarshal] at hwhole
    cases hwhole
    exact absurd (by rw [← hs, List.append_nil]) hne
  · rfl

example : jsonMarshal { key := "a<\n", value := "é", revision := 7 } =
    utf8 "\x7b\"key\":\"a\\u003c\\n\",\"value\":\"é\",\"revision\":7\x7d" := by decide

end Zodiac
