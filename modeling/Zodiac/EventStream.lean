import Zodiac.EventJson

/-!
# The event stream between server and client

What the client reads of the stream that the server writes.

* `readSSE_stream`: of a whole stream the client gets the events before the first
  one whose data line is too long for its scanner.
* `sse_round_trip_iff`: it gets all of them exactly when no data line is.
* `readLines_torn`: the reader on what is left of the lines of some events.
* `sse_prefix_of_cut`: of a stream cut at any byte the client gets some first
  events.
-/

namespace Zodiac

namespace EventStreamLemmas

open SseLemmas

/-! ## The lines of an event -/

/-- The lines that `writeSSE` writes. -/
def sseLines (codec : EventCodec) (e : WatchEvent) : List Bytes :=
  [eventLine e, idLine e, dataLine codec e, []]

variable {codec : EventCodec} {e : WatchEvent}

theorem writeSSE_eq_unlines (codec : EventCodec) (e : WatchEvent) :
    writeSSE codec e = Lines.unlines newline (sseLines codec e) := by
  simp [writeSSE, sseLines, Lines.unlines]

theorem sseStream_eq_unlines (codec : EventCodec) (es : List WatchEvent) :
    sseStream codec es = Lines.unlines newline (es.flatMap (sseLines codec)) := by
  rw [Lines.unlines, List.flatMap_assoc]
  exact congrArg (fun write => es.flatMap write) (funext (writeSSE_eq_unlines codec))

theorem unbroken_eventLine (e : WatchEvent) : Unbroken (eventLine e) := by
  unfold eventLine
  cases e.type <;> decide

theorem unbroken_idLine (e : WatchEvent) : Unbroken (idLine e) :=
  Unbroken.append (by decide) (unbroken_formatInt e.revision)

theorem unbroken_dataLine (codec : EventCodec) (e : WatchEvent) : Unbroken (dataLine codec e) :=
  Unbroken.append (by decide) (codec.marshal_line e.fields)

theorem unbroken_sseLines {es : List WatchEvent} :
    ∀ l ∈ es.flatMap (sseLines codec), Unbroken l := by
  intro l hl
  obtain ⟨e, _, hl⟩ := List.mem_flatMap.mp hl
  simp only [sseLines, List.mem_cons, List.not_mem_nil, or_false] at hl
  rcases hl with rfl | rfl | rfl | rfl
  · exact unbroken_eventLine e
  · exact unbroken_idLine e
  · exact unbroken_dataLine codec e
  · exact fun b hb => absurd hb List.not_mem_nil

theorem length_eventLine (e : WatchEvent) : (eventLine e).length < maxScanTokenSize := by
  unfold eventLine
  cases e.type <;> decide

theorem length_idLine (h : IsInt64 e.revision) : (idLine e).length < maxScanTokenSize := by
  have hid : (utf8 "id: ").length = 4 := by decide
  have hdigits := (utf8_decimal (formatInt_decimal e.revision)).1
  have hlen := length_formatInt h
  rw [← utf8_eq_flatMap, String.length_toList] at hdigits
  rw [idLine, List.length_append, hid, hdigits, maxScanTokenSize]
  omega

/-! ## Reading one line -/

theorem read_eventLine (f : SseFields) (e : WatchEvent) :
    f.read (eventLine e) = { f with eventType := utf8 (watchEventName e.type) } := by
  simp only [SseFields.read, eventLine, trimPrefix?_append]

theorem read_idLine (f : SseFields) (e : WatchEvent) :
    f.read (idLine e) = { f with eventID := utf8 (formatInt e.revision) } := by
  have hevent : trimPrefix? "event: " (idLine e) = none :=
    trimPrefix?_eq_none (by decide)
      (by rw [idLine, List.head?_append_of_ne_nil _ (by decide)]; decide)
  simp only [SseFields.read, hevent]
  simp only [idLine, trimPrefix?_append]

/-- A line that starts as a data line does is read as one or ignored. -/
theorem read_of_data {line : Bytes} (h : line.head? = (utf8 "data: ").head?) (f : SseFields) :
    f.read line = ((trimPrefix? "data: " line).map fun eventData =>
      { f with eventData := eventData }).getD f := by
  have hevent : trimPrefix? "event: " line = none :=
    trimPrefix?_eq_none (by decide) (by rw [h]; decide)
  have hid : trimPrefix? "id: " line = none :=
    trimPrefix?_eq_none (by decide) (by rw [h]; decide)
  simp only [SseFields.read, hevent, hid]
  cases trimPrefix? "data: " line <;> rfl

theorem head?_dataLine (codec : EventCodec) (e : WatchEvent) :
    (dataLine codec e).head? = (utf8 "data: ").head? :=
  List.head?_append_of_ne_nil _ (by decide)

theorem read_dataLine (f : SseFields) :
    f.read (dataLine codec e) = { f with eventData := codec.marshal e.fields } := by
  rw [read_of_data (head?_dataLine codec e), dataLine, trimPrefix?_append]
  rfl

/-- A line that does not start as a data line does leaves the data. -/
theorem read_eventData {line : Bytes} (h : line.head? ≠ (utf8 "data: ").head?) (f : SseFields) :
    (f.read line).eventData = f.eventData := by
  have hdata : trimPrefix? "data: " line = none := trimPrefix?_eq_none (by decide) h
  simp only [SseFields.read, hdata]
  split
  · rfl
  · split <;> rfl

/-! ## Flushing -/

theorem flushEvent_of_noData {f : SseFields} (h : f.eventData = []) : flushEvent codec f = none :=
  if_pos (.inr h)

theorem flushEvent_of_not_unmarshal {f : SseFields} (h : codec.unmarshal f.eventData = none) :
    flushEvent codec f = none := by
  unfold flushEvent
  rw [h]
  split
  · rfl
  · cases watchEventTypeFromName f.eventType <;> rfl

theorem marshal_ne_nil (h : IsInt64 e.revision) : codec.marshal e.fields ≠ [] := by
  intro hnil
  have hback := codec.unmarshal_marshal (f := e.fields) h
  rw [hnil, codec.unmarshal_nil] at hback
  cases hback

theorem flushedRevision_formatInt {i : Int} (h : IsInt64 i) :
    flushedRevision (utf8 (formatInt i)) i = i := by
  simp only [flushedRevision, decodeText_utf8, Option.map_some, parseInt_formatInt_int64 h.1 h.2]
  split <;> rfl

theorem watchEventTypeFromName_name (t : WatchEventType) :
    watchEventTypeFromName (utf8 (watchEventName t)) = some t := by
  cases t <;> decide

/-- The variables after the event and id lines. -/
def headFields (e : WatchEvent) : SseFields :=
  { eventType := utf8 (watchEventName e.type), eventID := utf8 (formatInt e.revision) }

/-- The variables after the three lines of an event. -/
def readFields (codec : EventCodec) (e : WatchEvent) : SseFields :=
  { headFields e with eventData := codec.marshal e.fields }

theorem flushEvent_readFields (h : IsInt64 e.revision) :
    flushEvent codec (readFields codec e) = some e := by
  have htype : utf8 (watchEventName e.type) ≠ [] := by cases e.type <;> decide
  have hne : ¬ (utf8 (watchEventName e.type) = [] ∨ codec.marshal e.fields = []) :=
    not_or.mpr ⟨htype, marshal_ne_nil h⟩
  have hrev := flushedRevision_formatInt h
  simp only [flushEvent, readFields, headFields, if_neg hne, watchEventTypeFromName_name,
    codec.unmarshal_marshal (f := e.fields) h]
  simp only [WatchEvent.fields, hrev]

/-! ## Whole events -/

theorem eventLine_ne_nil (e : WatchEvent) : eventLine e ≠ [] :=
  List.append_ne_nil_of_left_ne_nil (by decide) _

theorem idLine_ne_nil (e : WatchEvent) : idLine e ≠ [] :=
  List.append_ne_nil_of_left_ne_nil (by decide) _

theorem dataLine_ne_nil (codec : EventCodec) (e : WatchEvent) : dataLine codec e ≠ [] :=
  List.append_ne_nil_of_left_ne_nil (by decide) _

theorem readLines_line {line : Bytes} (h : line ≠ []) (f : SseFields) (lines : List Bytes) :
    readLines codec f (line :: lines) = readLines codec (f.read line) lines := by
  rw [readLines, if_neg h]

theorem readLines_head (codec : EventCodec) (e : WatchEvent) (lines : List Bytes) :
    readLines codec {} (eventLine e :: idLine e :: lines) =
      readLines codec (headFields e) lines := by
  rw [readLines_line (eventLine_ne_nil e), read_eventLine, readLines_line (idLine_ne_nil e),
    read_idLine]
  rfl

theorem readLines_event (codec : EventCodec) (e : WatchEvent) (lines : List Bytes) :
    readLines codec {} (eventLine e :: idLine e :: dataLine codec e :: lines) =
      readLines codec (readFields codec e) lines := by
  rw [readLines_head, readLines_line (dataLine_ne_nil codec e), read_dataLine]
  rfl

theorem readLines_sseLines (h : IsInt64 e.revision) (lines : List Bytes) :
    readLines codec {} (sseLines codec e ++ lines) = e :: readLines codec {} lines := by
  simp only [sseLines, List.cons_append, List.nil_append]
  rw [readLines_event, readLines, if_pos rfl, flushEvent_readFields h]
  rfl

/-- The data line of the event fits the scanner's buffer. -/
def Fits (codec : EventCodec) (e : WatchEvent) : Prop :=
  (dataLine codec e).length < maxScanTokenSize

instance (codec : EventCodec) (e : WatchEvent) : Decidable (Fits codec e) :=
  inferInstanceAs (Decidable (_ < _))

/-- The scanner ends at the first data line that does not fit; the event and id
lines before it are flushed without data, which sends nothing. -/
theorem readLines_takeWhile {es : List WatchEvent} (h : ∀ e ∈ es, IsInt64 e.revision) :
    readLines codec {} ((es.flatMap (sseLines codec)).takeWhile fun line =>
      decide (line.length < maxScanTokenSize)) = es.takeWhile fun e => decide (Fits codec e) := by
  induction es with
  | nil => rfl
  | cons e es ih =>
    have he := h e List.mem_cons_self
    have hrest := ih fun e' he' => h e' (List.mem_cons_of_mem _ he')
    have hevent := length_eventLine e
    have hid := length_idLine he
    rw [List.flatMap_cons, List.takeWhile_cons]
    by_cases hfits : Fits codec e
    · have hall : ∀ line ∈ sseLines codec e, decide (line.length < maxScanTokenSize) = true := by
        simp only [sseLines, List.mem_cons, List.not_mem_nil, or_false, decide_eq_true_eq]
        rintro line (rfl | rfl | rfl | rfl)
        exacts [hevent, hid, hfits, by decide]
      rw [List.takeWhile_append_of_pos hall, readLines_sseLines he, hrest,
        if_pos (decide_eq_true hfits)]
    · have hlong : ¬ (dataLine codec e).length < maxScanTokenSize := hfits
      simp only [sseLines, List.cons_append, List.takeWhile_cons, hevent, hid, hlong, hfits,
        decide_true, decide_false, if_true, Bool.false_eq_true, if_false]
      rw [readLines_head, readLines, flushEvent_of_noData rfl]
      rfl

theorem map_dropCR {ls : List Bytes} (h : ∀ l ∈ ls, Unbroken l) : ls.map dropCR = ls :=
  (List.map_congr_left fun l hl => (h l hl).dropCR).trans (List.map_id' ls)

/-! ## Torn events -/

/-- A first part of a line starts as the line does. -/
theorem head?_of_pre {q l : Bytes} (h : q <+: l) (hq : q ≠ []) : q.head? = l.head? := by
  obtain ⟨r, rfl⟩ := h
  exact (List.head?_append_of_ne_nil _ hq).symm

theorem head?_eventLine (e : WatchEvent) : (eventLine e).head? = (utf8 "event: ").head? :=
  List.head?_append_of_ne_nil _ (by decide)

theorem head?_idLine (e : WatchEvent) : (idLine e).head? = (utf8 "id: ").head? :=
  List.head?_append_of_ne_nil _ (by decide)

theorem readLines_nil_of_noData {f : SseFields} (h : f.eventData = []) :
    readLines codec f [] = [] := by
  rw [readLines, flushEvent_of_noData h]
  rfl

/-- A last line without data sends nothing. -/
theorem readLines_cut {f : SseFields} {q : Bytes} (hf : f.eventData = [])
    (hq : q ≠ [] → (f.read q).eventData = []) : readLines codec f [q] = [] := by
  by_cases hnil : q = []
  · rw [readLines, if_pos hnil, flushEvent_of_noData hf, Option.toList_none, List.nil_append]
    exact readLines_nil_of_noData rfl
  · rw [readLines_line hnil]
    exact readLines_nil_of_noData (hq hnil)

/-- A first part of an event or id line holds no data. -/
theorem readLines_cut_head {f : SseFields} {l q : Bytes} (hf : f.eventData = [])
    (hl : l.head? ≠ (utf8 "data: ").head?) (hq : q <+: l) : readLines codec f [q] = [] :=
  readLines_cut hf fun hnil => by
    rw [read_eventData (by rw [head?_of_pre hq hnil]; exact hl), hf]

/-- A first part of a data line gives the event if it is the whole line, and
nothing if it is not. -/
theorem readLines_cut_data (hfree : codec.PrefixFree) (h : IsInt64 e.revision) {q : Bytes}
    (hq : q <+: dataLine codec e) :
    readLines codec (headFields e) [q] = [] ∨
    readLines codec (headFields e) [q] = [e] := by
  by_cases hnil : q = []
  · exact .inl (readLines_cut rfl fun hne => absurd hnil hne)
  have hdata := read_of_data ((head?_of_pre hq hnil).trans (head?_dataLine codec e))
    (headFields e)
  cases htrim : trimPrefix? "data: " q with
  | none =>
    rw [htrim] at hdata
    exact .inl (readLines_cut rfl fun _ => by rw [hdata]; rfl)
  | some p =>
    rw [htrim] at hdata
    have hp : p <+: codec.marshal e.fields := by
      rw [trimPrefix?_eq_some htrim, dataLine] at hq
      exact (List.prefix_append_right_inj _).mp hq
    rw [readLines_line hnil, hdata, readLines]
    by_cases hwhole : p = codec.marshal e.fields
    · right
      subst hwhole
      exact congrArg Option.toList (flushEvent_readFields h)
    · left
      rw [flushEvent_of_not_unmarshal (hfree e.fields p h hp hwhole)]
      rfl

/-- The reader on what is left of the lines of some events. -/
theorem readLines_torn (hfree : codec.PrefixFree) {es : List WatchEvent} :
    ∀ {ls : List Bytes}, (∀ e ∈ es, IsInt64 e.revision) →
      Lines.Torn (es.flatMap (sseLines codec)) ls → readLines codec {} ls <+: es := by
  induction es with
  | nil =>
    intro ls _ htorn
    cases htorn
    exact List.nil_prefix
  | cons e es ih =>
    intro ls h htorn
    have he := h e List.mem_cons_self
    have hone : [e] <+: e :: es := List.prefix_append [e] es
    simp only [List.flatMap_cons, sseLines, List.cons_append, List.nil_append] at htorn
    -- the four lines of the event, each of them whole, cut or missing
    cases htorn with
    | nil => exact List.nil_prefix
    | cut hq =>
      rw [readLines_cut_head rfl (by rw [head?_eventLine]; decide) hq]
      exact List.nil_prefix
    | cons htorn =>
      cases htorn with
      | nil =>
        rw [readLines_line (eventLine_ne_nil e), read_eventLine, readLines_nil_of_noData rfl]
        exact List.nil_prefix
      | cut hq =>
        rw [readLines_line (eventLine_ne_nil e), read_eventLine,
          readLines_cut_head rfl (by rw [head?_idLine]; decide) hq]
        exact List.nil_prefix
      | cons htorn =>
        rw [readLines_head]
        cases htorn with
        | nil =>
          rw [readLines_nil_of_noData rfl]
          exact List.nil_prefix
        | cut hq =>
          rcases readLines_cut_data hfree he hq with hcut | hcut
          · rw [hcut]
            exact List.nil_prefix
          · rw [hcut]
            exact hone
        | cons htorn =>
          rw [← readLines_head, readLines_event]
          cases htorn with
          | nil =>
            rw [readLines, flushEvent_readFields he]
            exact hone
          | cut hq =>
            rw [List.prefix_nil.mp hq, readLines, if_pos rfl, flushEvent_readFields he,
              readLines_nil_of_noData rfl]
            exact hone
          | cons htorn =>
            rw [readLines, if_pos rfl, flushEvent_readFields he]
            exact List.cons_prefix_cons.mpr
              ⟨rfl, ih (fun e' he' => h e' (List.mem_cons_of_mem _ he')) htorn⟩

end EventStreamLemmas

open SseLemmas EventJsonLemmas EventStreamLemmas

/-! ## Whole streams -/

/-- Of a whole stream the client gets the events before the first one whose data
line does not fit. -/
theorem readSSE_stream (codec : EventCodec) {es : List WatchEvent}
    (h : ∀ e ∈ es, IsInt64 e.revision) :
    readSSE codec (sseStream codec es) = es.takeWhile fun e => decide (Fits codec e) := by
  have hunbroken : ∀ l ∈ es.flatMap (sseLines codec), Unbroken l := unbroken_sseLines
  have hlines := Lines.lines_unlines fun l hl => (hunbroken l hl).newline_notMem
  have hscan : scanLines (sseStream codec es) = (es.flatMap (sseLines codec)).takeWhile fun line =>
      decide (line.length < maxScanTokenSize) := by
    rw [scanLines, sseStream_eq_unlines, hlines]
    exact map_dropCR fun l hl => hunbroken l ((List.takeWhile_prefix _).subset hl)
  rw [readSSE, hscan, readLines_takeWhile h]

/-- The client reads back exactly the events that were written, whatever they are
and however many, if and only if the data line of each fits the scanner's buffer. -/
theorem sse_round_trip_iff (codec : EventCodec) {es : List WatchEvent}
    (h : ∀ e ∈ es, 0 ≤ e.revision ∧ e.revision < 2 ^ 63) :
    readSSE codec (sseStream codec es) = es ↔
      ∀ e ∈ es, (dataLine codec e).length < maxScanTokenSize := by
  have hint : ∀ e ∈ es, IsInt64 e.revision := by
    intro e he
    obtain ⟨hlo, hhi⟩ := h e he
    exact ⟨by omega, hhi⟩
  rw [readSSE_stream codec hint, List.takeWhile_eq_self_iff]
  exact forall₂_congr fun _ _ => decide_eq_true_iff

/-- A put with a text that needs escapes, and a delete, whose value is empty. -/
def shortEvents : List WatchEvent :=
  [{ key := "a\n", value := "<é>", revision := 1, type := .put },
    { key := "b", value := "", revision := 2, type := .delete }]

theorem sse_round_trip_short :
    readSSE jsonCodec (sseStream jsonCodec shortEvents) = shortEvents :=
  (sse_round_trip_iff jsonCodec (by decide)).mpr (by decide)

namespace EventStreamLemmas

theorem length_utf8_replicate (n : Nat) :
    (utf8 (String.ofList (List.replicate n 'x'))).length = n := by
  have hchar : String.utf8EncodeChar 'x' = [120] := by decide
  rw [utf8_eq_flatMap, String.toList_ofList, List.flatMap_replicate, hchar]
  simp

/-- A value that fills the buffer makes the data line too long. -/
theorem not_fits_of_value {e : WatchEvent} (h : maxScanTokenSize ≤ (utf8 e.value).length) :
    ¬ Fits jsonCodec e := by
  have hne : e.fields.value ≠ "" := by
    intro hempty
    rw [show e.value = "" from hempty] at h
    exact absurd h (by decide)
  have hlen : (utf8 e.value).length ≤ (jsonMarshal e.fields).length :=
    length_value_le_marshal e.fields hne
  have hline : (dataLine jsonCodec e).length =
      (utf8 "data: ").length + (jsonMarshal e.fields).length := List.length_append
  unfold Fits
  omega

end EventStreamLemmas

/-- An event with a value of 64 KiB. -/
def longEvent : WatchEvent :=
  { key := "a", value := String.ofList (List.replicate maxScanTokenSize 'x'), revision := 1,
    type := .put }

/-- The client gets neither the long event nor those after it. -/
theorem long_event_lost :
    (∀ e ∈ longEvent :: shortEvents, 0 ≤ e.revision ∧ e.revision < 2 ^ 63) ∧
    readSSE jsonCodec (sseStream jsonCodec (longEvent :: shortEvents)) = [] := by
  have hlong : ¬ Fits jsonCodec longEvent := not_fits_of_value (length_utf8_replicate _).ge
  have hint : ∀ e ∈ longEvent :: shortEvents, IsInt64 e.revision :=
    List.forall_mem_cons.mpr ⟨by decide, by decide⟩
  refine ⟨List.forall_mem_cons.mpr ⟨by decide, by decide⟩, ?_⟩
  rw [readSSE_stream jsonCodec hint, List.takeWhile_cons,
    if_neg (by rw [decide_eq_true_iff]; exact hlong)]

/-! ## Cut streams -/

/-- Of a stream that is cut after any number of bytes the client gets a first part of
the events: none is altered, invented, repeated or moved. -/
theorem sse_prefix_of_cut {codec : EventCodec} (hfree : codec.PrefixFree) {es : List WatchEvent}
    (h : ∀ e ∈ es, IsInt64 e.revision) (n : Nat) :
    readSSE codec ((sseStream codec es).take n) <+: es := by
  have hunbroken : ∀ l ∈ es.flatMap (sseLines codec), Unbroken l := unbroken_sseLines
  have hcut := Lines.torn_lines_take (fun l hl => (hunbroken l hl).newline_notMem) n
  have htorn := hcut.takeWhile fun line => decide (line.length < maxScanTokenSize)
  rw [← sseStream_eq_unlines] at htorn
  have hscan : scanLines ((sseStream codec es).take n) = _ := map_dropCR fun q hq => by
    obtain ⟨l, hl, hql⟩ := htorn.exists_prefix q hq
    exact (hunbroken l hl).of_pre hql
  rw [readSSE, hscan]
  exact readLines_torn hfree h htorn

/-- A cut inside the data line of the second event. -/
theorem sse_prefix_of_cut_short :
    115 < (sseStream jsonCodec shortEvents).length ∧
    readSSE jsonCodec ((sseStream jsonCodec shortEvents).take 115) <+: shortEvents :=
  ⟨by decide +kernel, sse_prefix_of_cut jsonCodec_prefixFree (by decide) 115⟩

end Zodiac
