import Mathlib.Data.Nat.Digits.Defs
import Zodiac.Api
import Zodiac.Lib.Lines

/-!
# Watch events on the wire

`writeSSE` of `kvservice/watch.go` and `readSSE` of `kvclient/kvclient.go`. A
stream is a list of bytes. The reader's scanner gives it lines of fewer than
`maxScanTokenSize` bytes and ends at the first longer one; what the client sends
into its channel is the result of `readSSE`, for a context that is not cancelled.

`EventCodec` is what the two sides use of `encoding/json`.
-/

namespace Zodiac

/-! ## Bytes -/

abbrev Bytes := List UInt8

/-- The bytes of a string. -/
def utf8 (s : String) : Bytes := s.toUTF8.data.toList

/-- The string with the given bytes. -/
def decodeText (bs : Bytes) : Option String := String.fromUTF8? bs.toByteArray

def newline : UInt8 := 10

def carriageReturn : UInt8 := 13

/-- No line break among the bytes. -/
def Unbroken (line : Bytes) : Prop := ∀ b ∈ line, b ≠ newline ∧ b ≠ carriageReturn

-- by the elements of the list, not by all 256 bytes
instance (line : Bytes) : Decidable (Unbroken line) :=
  List.decidableBAll (fun b => b ≠ newline ∧ b ≠ carriageReturn) line

/-! ## The writer -/

/-- The fields of `api.WatchEvent` that are marshalled: all but the type. -/
structure EventFields where
  key : String
  value : String
  revision : Int
deriving DecidableEq

/-- The marshalled fields of an event. -/
def WatchEvent.fields (e : WatchEvent) : EventFields :=
  { key := e.key, value := e.value, revision := e.revision }

/-- The value is an `int64`. -/
def IsInt64 (i : Int) : Prop := -2 ^ 63 ≤ i ∧ i < 2 ^ 63

instance (i : Int) : Decidable (IsInt64 i) := inferInstanceAs (Decidable (_ ∧ _))

/-- What the two sides use of `encoding/json` on events: the round trip, no line
break in the output, and no event in an empty input. -/
structure EventCodec where
  marshal : EventFields → Bytes
  unmarshal : Bytes → Option EventFields
  unmarshal_marshal : ∀ {f}, IsInt64 f.revision → unmarshal (marshal f) = some f
  marshal_line : ∀ f, Unbroken (marshal f)
  unmarshal_nil : unmarshal [] = none

/-- No proper first part of a marshalled event unmarshals. -/
def EventCodec.PrefixFree (codec : EventCodec) : Prop :=
  ∀ f p, IsInt64 f.revision → p <+: codec.marshal f → p ≠ codec.marshal f →
    codec.unmarshal p = none

/-- `api.WatchEventName`. -/
def watchEventName : WatchEventType → String
  | .put => "put"
  | .delete => "delete"

def eventLine (e : WatchEvent) : Bytes := utf8 "event: " ++ utf8 (watchEventName e.type)

def idLine (e : WatchEvent) : Bytes := utf8 "id: " ++ utf8 (formatInt e.revision)

def dataLine (codec : EventCodec) (e : WatchEvent) : Bytes :=
  utf8 "data: " ++ codec.marshal e.fields

/-- `writeSSE`. -/
def writeSSE (codec : EventCodec) (e : WatchEvent) : Bytes :=
  eventLine e ++ [newline] ++ (idLine e ++ [newline]) ++ (dataLine codec e ++ [newline, newline])

/-- The stream that a server writes for some events. -/
def sseStream (codec : EventCodec) (es : List WatchEvent) : Bytes := es.flatMap (writeSSE codec)

/-! ## The reader -/

/-- The size of the scanner's buffer, which holds a line and its line break:
`bufio.MaxScanTokenSize`. -/
def maxScanTokenSize : Nat := 65536

/-- `bufio.ScanLines` drops one carriage return at the end of a line. -/
def dropCR (line : Bytes) : Bytes :=
  if line.getLast? = some carriageReturn then line.dropLast else line

/-- The lines that `scanner.Scan` gives before it returns false. -/
def scanLines (stream : Bytes) : List Bytes :=
  ((Lines.lines newline stream).takeWhile fun line =>
    decide (line.length < maxScanTokenSize)).map dropCR

/-- The variables of `readSSE`. -/
structure SseFields where
  eventType : Bytes := []
  eventID : Bytes := []
  eventData : Bytes := []

/-- `api.WatchEventTypeFromName`. -/
def watchEventTypeFromName (name : Bytes) : Option WatchEventType :=
  if name = utf8 "put" then some .put
  else if name = utf8 "delete" then some .delete
  else none

/-- The revision of a flushed event: the one of its id line if that is a positive
number, else the unmarshalled one. -/
def flushedRevision (eventID : Bytes) (unmarshalled : Int) : Int :=
  match (decodeText eventID).map parseInt with
  | some (rev, none) => if rev > 0 then rev else unmarshalled
  | _ => unmarshalled

/-- `flushEvent`, with the event it sends. -/
def flushEvent (codec : EventCodec) (f : SseFields) : Option WatchEvent :=
  if f.eventType = [] ∨ f.eventData = [] then none
  else match watchEventTypeFromName f.eventType, codec.unmarshal f.eventData with
    | some evType, some ev =>
      some { key := ev.key, value := ev.value, revision := flushedRevision f.eventID ev.revision,
             type := evType }
    | _, _ => none

/-- The rest of the line after the text, if the line starts with it. -/
def trimPrefix? (text : String) (line : Bytes) : Option Bytes :=
  if (utf8 text).isPrefixOf line then some (line.drop (utf8 text).length) else none

/-- The body of the loop, for a line that is not empty. -/
def SseFields.read (f : SseFields) (line : Bytes) : SseFields :=
  match trimPrefix? "event: " line with
  | some eventType => { f with eventType := eventType }
  | none =>
    match trimPrefix? "id: " line with
    | some eventID => { f with eventID := eventID }
    | none =>
      match trimPrefix? "data: " line with
      | some eventData => { f with eventData := eventData }
      | none => f

/-- The loop of `readSSE` and the flush after it. -/
def readLines (codec : EventCodec) : SseFields → List Bytes → List WatchEvent
  | f, [] => (flushEvent codec f).toList
  | f, line :: lines =>
    if line = [] then (flushEvent codec f).toList ++ readLines codec {} lines
    else readLines codec (f.read line) lines

/-- `readSSE`. -/
def readSSE (codec : EventCodec) (stream : Bytes) : List WatchEvent :=
  readLines codec {} (scanLines stream)

/-! ## Line breaks -/

theorem Unbroken.append {l l' : Bytes} (h : Unbroken l) (h' : Unbroken l') : Unbroken (l ++ l') :=
  List.forall_mem_append.mpr ⟨h, h'⟩

theorem Unbroken.of_pre {l q : Bytes} (h : Unbroken l) (hq : q <+: l) : Unbroken q :=
  fun b hb => h b (hq.subset hb)

theorem Unbroken.newline_notMem {l : Bytes} (h : Unbroken l) : newline ∉ l :=
  fun hmem => (h _ hmem).1 rfl

theorem Unbroken.dropCR {l : Bytes} (h : Unbroken l) : dropCR l = l :=
  if_neg fun hlast => (h _ (List.mem_of_getLast? hlast)).2 rfl

namespace SseLemmas

/-! ## Texts and their bytes -/

theorem decodeText_utf8 (s : String) : decodeText (utf8 s) = some s := by
  have hbytes : (utf8 s).toByteArray = s.toByteArray := by
    apply ByteArray.ext
    rw [List.data_toByteArray]
    exact Array.toArray_toList
  rw [decodeText, hbytes, String.fromUTF8?, dif_pos s.isValidUTF8]
  rfl

theorem utf8_eq_flatMap (s : String) : utf8 s = s.toList.flatMap String.utf8EncodeChar := by
  rw [utf8, String.toUTF8, ← String.utf8Encode_toList, List.utf8Encode,
    List.toList_data_toByteArray]

/-- A decimal digit or a sign is one byte. -/
theorem utf8EncodeChar_decimal {c : Char} (h : c.isDigit = true ∨ c = '-') :
    ∃ b, String.utf8EncodeChar c = [b] ∧ 45 ≤ b ∧ b ≤ 57 := by
  rcases h with h | rfl
  · have hall : ∀ n < 58, 48 ≤ n → String.utf8EncodeChar (Char.ofNat n) = [n.toUInt8] ∧
        45 ≤ n.toUInt8 ∧ n.toUInt8 ≤ 57 := by decide
    have hrange : 48 ≤ c.toNat ∧ c.toNat ≤ 57 := by
      simp only [Char.isDigit, Bool.and_eq_true, decide_eq_true_eq] at h
      exact ⟨UInt32.le_iff_toNat_le.mp h.1, UInt32.le_iff_toNat_le.mp h.2⟩
    have hc := hall c.toNat (by omega) hrange.1
    rw [Char.ofNat_toNat] at hc
    exact ⟨_, hc⟩
  · exact ⟨45, by decide, by decide, by decide⟩

theorem toList_formatInt_negSucc (n : Nat) :
    (formatInt (Int.negSucc n)).toList = '-' :: (Nat.repr (n + 1)).toList := by
  show ("-" ++ Nat.repr (n + 1)).toList = _
  rw [String.toList_append]
  rfl

theorem formatInt_decimal (i : Int) :
    ∀ c ∈ (formatInt i).toList, c.isDigit = true ∨ c = '-' := by
  have hdigits : ∀ (n : Nat), ∀ c ∈ (Nat.repr n).toList, c.isDigit = true := by
    intro n c hc
    rw [Nat.repr, String.toList_ofList] at hc
    exact Nat.isDigit_of_mem_toDigits (by decide) (by decide) hc
  intro c hc
  cases i with
  | ofNat n => exact .inl (hdigits n c hc)
  | negSucc n =>
    rw [toList_formatInt_negSucc] at hc
    rcases List.mem_cons.mp hc with rfl | hc
    · exact .inr rfl
    · exact .inl (hdigits _ c hc)

/-- The bytes of a decimal text, one for each character. -/
theorem utf8_decimal {cs : List Char} (h : ∀ c ∈ cs, c.isDigit = true ∨ c = '-') :
    (cs.flatMap String.utf8EncodeChar).length = cs.length ∧
    ∀ b ∈ cs.flatMap String.utf8EncodeChar, 45 ≤ b ∧ b ≤ 57 := by
  induction cs with
  | nil => simp
  | cons c cs ih =>
    obtain ⟨b, hb, hrange⟩ := utf8EncodeChar_decimal (h c List.mem_cons_self)
    obtain ⟨hlen, hall⟩ := ih fun c' hc' => h c' (List.mem_cons_of_mem _ hc')
    rw [List.flatMap_cons, hb, List.singleton_append]
    exact ⟨by rw [List.length_cons, hlen, List.length_cons],
      List.forall_mem_cons.mpr ⟨hrange, hall⟩⟩

theorem not_mem_utf8_formatInt (i : Int) {b : UInt8} (h : ¬ (45 ≤ b ∧ b ≤ 57)) :
    b ∉ utf8 (formatInt i) := by
  rw [utf8_eq_flatMap]
  exact fun hmem => h ((utf8_decimal (formatInt_decimal i)).2 b hmem)

theorem length_formatInt {i : Int} (h : IsInt64 i) : (formatInt i).length ≤ 20 := by
  obtain ⟨hlo, hhi⟩ := h
  cases i with
  | ofNat n =>
    have hn : (n : Int) < 2 ^ 63 := hhi
    exact (Nat.repr_length n 19 (by decide) (by omega)).trans (by decide)
  | negSucc n =>
    show ("-" ++ Nat.repr (n + 1)).length ≤ 20
    have hlen := Nat.repr_length (n + 1) 19 (by decide) (by omega)
    rw [String.length_append]
    exact Nat.add_le_add_left hlen 1

theorem unbroken_formatInt (i : Int) : Unbroken (utf8 (formatInt i)) := by
  intro b hb
  rw [utf8_eq_flatMap] at hb
  have hrange := (utf8_decimal (formatInt_decimal i)).2 b hb
  constructor
  · rintro rfl
    exact absurd hrange (by decide)
  · rintro rfl
    exact absurd hrange (by decide)

/-! ## Trimming -/

theorem trimPrefix?_append (text : String) (rest : Bytes) :
    trimPrefix? text (utf8 text ++ rest) = some rest := by
  rw [trimPrefix?, if_pos (List.isPrefixOf_iff_prefix.mpr (List.prefix_append _ _)),
    List.drop_left]

theorem trimPrefix?_eq_some {text : String} {line rest : Bytes}
    (h : trimPrefix? text line = some rest) : line = utf8 text ++ rest := by
  unfold trimPrefix? at h
  split at h
  · next hpre =>
    cases h
    obtain ⟨r, rfl⟩ := List.isPrefixOf_iff_prefix.mp hpre
    rw [List.drop_left]
  · cases h

/-- A line that starts with another byte does not start with the text. -/
theorem trimPrefix?_eq_none {text : String} {line : Bytes} (htext : utf8 text ≠ [])
    (h : line.head? ≠ (utf8 text).head?) : trimPrefix? text line = none := by
  refine if_neg fun hpre => h ?_
  obtain ⟨r, rfl⟩ := List.isPrefixOf_iff_prefix.mp hpre
  exact List.head?_append_of_ne_nil _ htext

end SseLemmas

end Zodiac
