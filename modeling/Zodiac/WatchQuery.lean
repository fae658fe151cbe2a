import Zodiac.Lib.UrlQuery
import Zodiac.Sse
import Zodiac.Watch

/-!
# The URL of a watch

`Watch` of `kvclient/kvclient.go` writes the prefix into its URL as it is, and
`handleWatch` of `kvservice/watch.go` reads it back with `req.URL.Query()`. A prefix
is a list of bytes here, as every Go string is.

* `watch_query_roundtrip`: the prefix and the revision come back exactly if no byte of
  the prefix means something in a query.
* `watch_delivered_iff`: with the checks of the request on its way to the handler, the
  prefix must not have a space or a control character either.
-/

namespace Zodiac

open UrlQuery

/-! ## The two sides -/

/-- The URL of `Watch`, from the path on. -/
def watchPath (pre : Bytes) (since : Int) : Bytes :=
  utf8 "/watch/?prefix=" ++ pre ++ utf8 "&since=" ++ utf8 (formatInt since)

/-- The head of `handleWatch`: the prefix to subscribe and the revision to resume from. -/
def watchParams (query : Bytes) (lastEventID : String) : Bytes × Except String Int :=
  let sinceStr := getFirst (parseQuery query) (utf8 "since")
  -- bytes that are no text are no number either
  (getFirst (parseQuery query) (utf8 "prefix"),
    watchSince ((decodeText sinceStr).getD "?") lastEventID)

/-- The bytes with a meaning in a query: the end of the query, the two separators, the
escape and the space. -/
def queryMeta : Bytes := [hash, ampersand, semicolon, percent, plus]

/-- None of the bytes has a meaning in a query. -/
def Plain (pre : Bytes) : Prop := ∀ b ∈ pre, b ∉ queryMeta

-- by the elements of the list, not by all 256 bytes
instance (pre : Bytes) : Decidable (Plain pre) := List.decidableBAll (· ∉ queryMeta) pre

namespace WatchQueryLemmas

/-- The first pair of the query, as the client writes it. -/
def prefixPair (pre : Bytes) : Bytes := utf8 "prefix=" ++ pre

/-- The second pair. -/
def sincePair (since : Int) : Bytes := utf8 "since=" ++ utf8 (formatInt since)

theorem watchPath_eq (pre : Bytes) (since : Int) :
    watchPath pre since =
      utf8 "/watch/" ++ question :: (prefixPair pre ++ ampersand :: sincePair since) := by
  have hprefix : utf8 "/watch/?prefix=" = utf8 "/watch/" ++ question :: utf8 "prefix=" := by decide
  have hsince : utf8 "&since=" = ampersand :: utf8 "since=" := by decide
  rw [watchPath, hprefix, hsince, prefixPair, sincePair]
  simp only [List.append_assoc, List.cons_append]

theorem rawQuery_watchPath (pre : Bytes) (since : Int) :
    rawQuery (watchPath pre since) =
      (cut hash (prefixPair pre ++ ampersand :: sincePair since)).1 := by
  rw [watchPath_eq, rawQuery_append (by decide) (by decide)]

theorem notMem_prefixPair {b : UInt8} {pre : Bytes} (hkey : b ∉ utf8 "prefix=") (h : b ∉ pre) :
    b ∉ prefixPair pre := by
  rw [prefixPair, List.mem_append, not_or]
  exact ⟨hkey, h⟩

theorem notMem_sincePair {b : UInt8} (hkey : b ∉ utf8 "since=") (h : ¬ (45 ≤ b ∧ b ≤ 57))
    (since : Int) : b ∉ sincePair since := by
  rw [sincePair, List.mem_append, not_or]
  exact ⟨hkey, SseLemmas.not_mem_utf8_formatInt since h⟩

theorem hash_notMem_pairs {pre : Bytes} (h : hash ∉ pre) (since : Int) :
    hash ∉ prefixPair pre ++ ampersand :: sincePair since := by
  rw [List.mem_append, List.mem_cons, not_or, not_or]
  exact ⟨notMem_prefixPair (by decide) h, by decide,
    notMem_sincePair (by decide) (by decide) since⟩

theorem rawQuery_of_hash_notMem {pre : Bytes} (h : hash ∉ pre) (since : Int) :
    rawQuery (watchPath pre since) = prefixPair pre ++ ampersand :: sincePair since := by
  rw [rawQuery_watchPath, cut_of_notMem (hash_notMem_pairs h since)]

/-! ## What the parser makes of the two pairs -/

theorem parsePair_prefixPair (pre : Bytes) :
    parsePair (prefixPair pre) =
      if semicolon ∈ pre then none else (queryUnescape pre).map fun v => (utf8 "prefix", v) := by
  have hpair : prefixPair pre = utf8 "prefix" ++ equals :: pre := by
    rw [List.append_cons]
    exact congrArg (· ++ pre) (by decide)
  rw [hpair, parsePair_append (by decide)]

theorem parsePair_sincePair (since : Int) :
    parsePair (sincePair since) = some (utf8 "since", utf8 (formatInt since)) := by
  have hpair : sincePair since = utf8 "since" ++ equals :: utf8 (formatInt since) := by
    rw [List.append_cons]
    exact congrArg (· ++ utf8 (formatInt since)) (by decide)
  have hclean : ∀ b ∈ utf8 (formatInt since), b ≠ percent ∧ b ≠ plus := by
    refine fun b hb => ⟨?_, ?_⟩
    · rintro rfl
      exact SseLemmas.not_mem_utf8_formatInt since (by decide) hb
    · rintro rfl
      exact SseLemmas.not_mem_utf8_formatInt since (by decide) hb
  rw [hpair, parsePair_append (by decide), queryUnescape_of_clean hclean,
    if_neg (SseLemmas.not_mem_utf8_formatInt since (by decide))]
  rfl

theorem lines_sincePair (since : Int) :
    Lines.lines ampersand (sincePair since) = [sincePair since] := by
  have hne : sincePair since ≠ [] := by
    intro hnil
    have hpair := parsePair_sincePair since
    rw [hnil] at hpair
    cases hpair
  rw [Lines.lines_last (notMem_sincePair (by decide) (by decide) since), if_neg hne]

/-- The query behind a prefix that stays in its pair. -/
theorem parseQuery_watchPath {pre : Bytes} (hhash : hash ∉ pre) (hampersand : ampersand ∉ pre)
    (since : Int) :
    parseQuery (rawQuery (watchPath pre since)) =
      (parsePair (prefixPair pre)).toList ++ [(utf8 "since", utf8 (formatInt since))] := by
  rw [rawQuery_of_hash_notMem hhash, parseQuery,
    Lines.lines_append (notMem_prefixPair (by decide) hampersand), lines_sincePair]
  cases hpair : parsePair (prefixPair pre) with
  | none =>
    rw [List.filterMap_cons_none hpair, List.filterMap_cons_some (parsePair_sincePair since)]
    rfl
  | some pair =>
    rw [List.filterMap_cons_some hpair, List.filterMap_cons_some (parsePair_sincePair since)]
    rfl

/-! ## A prefix that comes back -/

variable {pre : Bytes} {since : Int}

/-- A prefix that comes back was read from a segment that is no shorter than its own pair. -/
theorem exists_segment (hne : pre ≠ [])
    (h : getFirst (parseQuery (rawQuery (watchPath pre since))) (utf8 "prefix") = pre) :
    ∃ seg ∈ Lines.lines ampersand (rawQuery (watchPath pre since)),
      parsePair seg = some (utf8 "prefix", pre) ∧ (prefixPair pre).length ≤ seg.length := by
  obtain ⟨seg, hseg, hpair⟩ := exists_segment_of_getFirst h hne
  refine ⟨seg, hseg, hpair, ?_⟩
  have hlen := length_of_parsePair hpair hne
  have hkey : (utf8 "prefix=").length = (utf8 "prefix").length + 1 := by decide
  rw [prefixPair, List.length_append, hkey]
  omega

/-- A `#` ends the query inside of the prefix. -/
theorem hash_notMem (hne : pre ≠ [])
    (h : getFirst (parseQuery (rawQuery (watchPath pre since))) (utf8 "prefix") = pre) :
    hash ∉ pre := by
  intro hmem
  obtain ⟨seg, hseg, -, hlong⟩ := exists_segment hne h
  obtain ⟨a, b, rfl, ha⟩ := List.eq_append_cons_of_mem hmem
  have hsplit : prefixPair (a ++ hash :: b) ++ ampersand :: sincePair since =
      prefixPair a ++ hash :: (b ++ ampersand :: sincePair since) := by
    simp only [prefixPair, List.append_assoc, List.cons_append]
  rw [rawQuery_watchPath, hsplit, cut_append (notMem_prefixPair (by decide) ha)] at hseg
  have hshort := Lines.length_le_of_mem_lines hseg
  simp only [prefixPair, List.length_append, List.length_cons] at hshort hlong
  omega

/-- An `&` tears the prefix apart, and no part of it is as long. -/
theorem ampersand_notMem (hne : pre ≠ []) (hhash : hash ∉ pre)
    (h : getFirst (parseQuery (rawQuery (watchPath pre since))) (utf8 "prefix") = pre) :
    ampersand ∉ pre := by
  intro hmem
  obtain ⟨seg, hseg, hpair, hlong⟩ := exists_segment hne h
  rw [rawQuery_of_hash_notMem hhash] at hseg
  obtain ⟨a, b, rfl, ha⟩ := List.eq_append_cons_of_mem hmem
  have hsplit : prefixPair (a ++ ampersand :: b) ++ ampersand :: sincePair since =
      prefixPair a ++ ampersand :: (b ++ ampersand :: sincePair since) := by
    simp only [prefixPair, List.append_assoc, List.cons_append]
  rw [hsplit, Lines.lines_append (notMem_prefixPair (by decide) ha), List.mem_cons] at hseg
  simp only [prefixPair, List.length_append, List.length_cons] at hlong
  rcases hseg with rfl | hseg
  · rw [prefixPair, List.length_append] at hlong
    omega
  rcases Lines.mem_lines_append hseg with hshort | hlast
  · omega
  · -- the last pair has another key
    rw [lines_sincePair, List.mem_singleton] at hlast
    rw [hlast, parsePair_sincePair] at hpair
    have hkey : utf8 "since" = utf8 "prefix" := congrArg Prod.fst (Option.some.inj hpair)
    exact absurd hkey (by decide)

/-- A prefix that stays in its pair comes back if decoding leaves it alone. -/
theorem getFirst_watchPath (hhash : hash ∉ pre) (hampersand : ampersand ∉ pre) :
    getFirst (parseQuery (rawQuery (watchPath pre since))) (utf8 "prefix") =
      if semicolon ∈ pre then [] else (queryUnescape pre).getD [] := by
  have hother : ¬ utf8 "since" = utf8 "prefix" := by decide
  rw [parseQuery_watchPath hhash hampersand, parsePair_prefixPair, getFirst]
  split
  · simp only [Option.toList_none, List.nil_append, List.find?_cons, decide_eq_false hother,
      List.find?_nil, Option.map_none, Option.getD_none]
  · cases queryUnescape pre with
    | none =>
      simp only [Option.map_none, Option.toList_none, List.nil_append, List.find?_cons,
        decide_eq_false hother, List.find?_nil, Option.getD_none]
    | some v =>
      simp only [Option.map_some, Option.toList_some, List.singleton_append, List.find?_cons,
        decide_true, Option.getD_some]

theorem plain_of_getFirst
    (h : getFirst (parseQuery (rawQuery (watchPath pre since))) (utf8 "prefix") = pre) :
    Plain pre := by
  rcases eq_or_ne pre [] with rfl | hne
  · exact fun b hb => absurd hb List.not_mem_nil
  have hhash := hash_notMem hne h
  have hampersand := ampersand_notMem hne hhash h
  rw [getFirst_watchPath hhash hampersand] at h
  split at h
  · exact absurd h.symm hne
  rename_i hsemicolon
  have hself : queryUnescape pre = some pre := by
    cases hdecoded : queryUnescape pre with
    | none =>
      rw [hdecoded] at h
      exact absurd h.symm hne
    | some v =>
      rw [hdecoded, Option.getD_some] at h
      rw [h]
  intro b hb
  obtain ⟨hpercent, hplus⟩ := (queryUnescape_eq_self_iff pre).mp hself b hb
  simp only [queryMeta, List.mem_cons, List.not_mem_nil, or_false, not_or]
  exact ⟨fun heq => hhash (heq ▸ hb), fun heq => hampersand (heq ▸ hb),
    fun heq => hsemicolon (heq ▸ hb), hpercent, hplus⟩

theorem plain_of_watchParams
    (h : watchParams (rawQuery (watchPath pre since)) "" = (pre, .ok since)) : Plain pre := by
  rw [watchParams, Prod.mk.injEq] at h
  exact plain_of_getFirst h.1

theorem watchSince_formatInt_int64 (h : IsInt64 since) :
    watchSince (formatInt since) "" = .ok since := by
  have hparse := parseInt_formatInt_int64 h.1 h.2
  have hne : formatInt since ≠ "" := by
    intro hempty
    rw [hempty] at hparse
    have hnone : (parseInt "").2 = none := congrArg Prod.snd hparse
    exact absurd hnone (by decide)
  simp only [watchSince, ne_eq, not_true_eq_false, if_false, hne, not_false_eq_true, if_true,
    hparse]

theorem watchParams_of_plain (hsince : IsInt64 since) (h : Plain pre) :
    watchParams (rawQuery (watchPath pre since)) "" = (pre, .ok since) := by
  have hmeta : ∀ b ∈ queryMeta, b ∉ pre := fun b hb hmem => h b hmem hb
  have hhash : hash ∉ pre := hmeta _ (by decide)
  have hampersand : ampersand ∉ pre := hmeta _ (by decide)
  have hsemicolon : semicolon ∉ pre := hmeta _ (by decide)
  have hself : queryUnescape pre = some pre := queryUnescape_of_clean fun b hb =>
    ⟨fun heq => h b hb (heq ▸ by decide), fun heq => h b hb (heq ▸ by decide)⟩
  have hprefix : getFirst (parseQuery (rawQuery (watchPath pre since))) (utf8 "prefix") = pre := by
    rw [getFirst_watchPath hhash hampersand, if_neg hsemicolon, hself]
    rfl
  have hget : getFirst (parseQuery (rawQuery (watchPath pre since))) (utf8 "since") =
      utf8 (formatInt since) := by
    have hother : ¬ utf8 "prefix" = utf8 "since" := by decide
    rw [parseQuery_watchPath hhash hampersand, parsePair_prefixPair, if_neg hsemicolon, hself,
      getFirst]
    simp only [Option.map_some, Option.toList_some, List.singleton_append, List.find?_cons,
      decide_eq_false hother, decide_true, Option.getD_some]
  rw [watchParams, hprefix, hget, SseLemmas.decodeText_utf8, Option.getD_some,
    watchSince_formatInt_int64 hsince]

end WatchQueryLemmas

open WatchQueryLemmas

/-- The prefix and the revision of a watch come back exactly if no byte of the prefix means
something in a query. -/
theorem watch_query_roundtrip (pre : Bytes) {since : Int} (hsince : IsInt64 since) :
    watchParams (rawQuery (watchPath pre since)) "" = (pre, .ok since) ↔ Plain pre :=
  ⟨plain_of_watchParams, watchParams_of_plain hsince⟩

theorem watch_query_roundtrip_plain :
    watchParams (rawQuery (watchPath (utf8 "jobs/=?é") (-3))) "" =
      (utf8 "jobs/=?é", .ok (-3)) :=
  (watch_query_roundtrip (utf8 "jobs/=?é") (by decide)).mpr (by decide)

/-- A second `since` in the prefix takes the place of the client's. -/
theorem watch_query_overridden :
    watchParams (rawQuery (watchPath (utf8 "a&since=5") 7)) "" = (utf8 "a", .ok 5) := by
  decide

/-! ## On the way to the handler -/

/-- `stringContainsCTLByte` of `net/url`, for one byte. -/
def isControl (b : UInt8) : Bool := decide (b < 32) || decide (b = 127)

/-- `http.NewRequestWithContext` parses the URL: it refuses control characters in front of
the fragment, and a fragment that it cannot decode. -/
def newRequest (url : Bytes) : Option Bytes :=
  if (cut hash url).1.any isControl then none
  else if queryUnescape (cut hash url).2 = none then none
  else some (rawQuery url)

/-- The first line of the request. -/
def requestLine (query : Bytes) : Bytes :=
  utf8 "GET" ++ space :: (utf8 "/watch/" ++ question :: query ++ space :: utf8 "HTTP/1.1")

/-- The server cuts the line at its first two spaces, and refuses it if what is left is no
version of the protocol. -/
def parseRequestLine (line : Bytes) : Option Bytes :=
  let rest := cut space (cut space line).2
  if rest.2 = utf8 "HTTP/1.1" then some (cut question rest.1).2 else none

/-- The query that the handler gets for a URL of the client. -/
def deliveredQuery (url : Bytes) : Option Bytes :=
  (newRequest url).bind fun query => parseRequestLine (requestLine query)

namespace WatchQueryLemmas

theorem parseRequestLine_requestLine (query : Bytes) :
    parseRequestLine (requestLine query) = if space ∈ query then none else some query := by
  have hhead : ∀ a, space ∉ a → space ∉ utf8 "/watch/" ++ question :: a := by
    intro a ha
    rw [List.mem_append, List.mem_cons, not_or, not_or]
    exact ⟨by decide, by decide, ha⟩
  rw [parseRequestLine, requestLine, cut_append (by decide)]
  by_cases hmem : space ∈ query
  · -- what is left behind the second space ends in the version and is longer
    obtain ⟨a, b, rfl, ha⟩ := List.eq_append_cons_of_mem hmem
    have hsplit : utf8 "/watch/" ++ question :: (a ++ space :: b) ++ space :: utf8 "HTTP/1.1" =
        utf8 "/watch/" ++ question :: a ++ space :: (b ++ space :: utf8 "HTTP/1.1") := by
      simp only [List.append_assoc, List.cons_append]
    have hne : ¬ b ++ space :: utf8 "HTTP/1.1" = utf8 "HTTP/1.1" := by
      intro heq
      have hlen := congrArg List.length heq
      rw [List.length_append, List.length_cons] at hlen
      omega
    rw [if_pos hmem, hsplit, cut_append (hhead a ha)]
    simp only [if_neg hne]
  · rw [if_neg hmem, cut_append (hhead query hmem)]
    simp only [if_true]
    rw [cut_append (by decide)]

theorem deliveredQuery_eq_some {url query : Bytes} :
    deliveredQuery url = some query ↔
      (cut hash url).1.any isControl = false ∧ queryUnescape (cut hash url).2 ≠ none ∧
      space ∉ rawQuery url ∧ query = rawQuery url := by
  rw [deliveredQuery, newRequest]
  cases (cut hash url).1.any isControl with
  | true => simp
  | false =>
    by_cases hfragment : queryUnescape (cut hash url).2 = none
    · simp [hfragment]
    · simp only [Bool.false_eq_true, if_false, hfragment, Option.bind_some,
        parseRequestLine_requestLine, ne_eq, not_false_eq_true, true_and]
      split
      · simp [*]
      · simp [*, eq_comm]

theorem any_isControl_formatInt (since : Int) :
    (utf8 (formatInt since)).any isControl = false := by
  refine List.any_eq_false.mpr fun b hb => ?_
  have hrange : 45 ≤ b ∧ b ≤ 57 :=
    by_contra fun hrange => SseLemmas.not_mem_utf8_formatInt since hrange hb
  rw [UInt8.le_iff_toNat_le, UInt8.le_iff_toNat_le] at hrange
  rw [Bool.not_eq_true, isControl, Bool.or_eq_false_iff, decide_eq_false_iff_not,
    decide_eq_false_iff_not, UInt8.lt_iff_toNat_lt, ← UInt8.toNat_inj]
  exact ⟨Nat.not_lt.mpr (Nat.le_trans (by decide) hrange.1),
    (Nat.lt_of_le_of_lt hrange.2 (by decide)).ne⟩

theorem any_isControl_watchPath (pre : Bytes) (since : Int) :
    (watchPath pre since).any isControl = pre.any isControl := by
  have hpath : (utf8 "/watch/?prefix=").any isControl = false := by decide
  have hsince : (utf8 "&since=").any isControl = false := by decide
  rw [watchPath, List.any_append, List.any_append, List.any_append, hpath, hsince,
    any_isControl_formatInt, Bool.false_or, Bool.or_false, Bool.or_false]

/-- Without a fragment, the request is lost for a space or a control character alone. -/
theorem deliveredQuery_watchPath {pre query : Bytes} (hhash : hash ∉ pre) (since : Int) :
    deliveredQuery (watchPath pre since) = some query ↔
      pre.any isControl = false ∧ space ∉ pre ∧ query = rawQuery (watchPath pre since) := by
  have hnone : hash ∉ watchPath pre since := by
    rw [watchPath_eq, List.mem_append, List.mem_cons, not_or, not_or]
    exact ⟨by decide, by decide, hash_notMem_pairs hhash since⟩
  have hspace : space ∉ rawQuery (watchPath pre since) ↔ space ∉ pre := by
    rw [rawQuery_of_hash_notMem hhash, List.mem_append, List.mem_cons, not_or, not_or, prefixPair,
      List.mem_append, not_or]
    exact ⟨fun h => h.1.2, fun h => ⟨⟨by decide, h⟩, by decide,
      notMem_sincePair (by decide) (by decide) since⟩⟩
  have hfragment : queryUnescape [] ≠ none := by decide
  rw [deliveredQuery_eq_some, cut_of_notMem hnone, hspace, any_isControl_watchPath]
  simp only [hfragment, ne_eq, not_false_eq_true, true_and]

end WatchQueryLemmas

/-- Over the wire, a space or a control character in the prefix loses the request. -/
theorem watch_delivered_iff (pre : Bytes) {since : Int} (hsince : IsInt64 since) :
    (deliveredQuery (watchPath pre since)).map (watchParams · "") = some (pre, .ok since) ↔
      Plain pre ∧ space ∉ pre ∧ pre.any isControl = false := by
  constructor
  · intro h
    obtain ⟨query, hdeliver, hparams⟩ := Option.map_eq_some_iff.mp h
    rw [(deliveredQuery_eq_some.mp hdeliver).2.2.2] at hparams
    have hplain := plain_of_watchParams hparams
    have hhash : hash ∉ pre := fun hmem => hplain _ hmem (by decide)
    obtain ⟨hcontrol, hspace, -⟩ := (deliveredQuery_watchPath hhash since).mp hdeliver
    exact ⟨hplain, hspace, hcontrol⟩
  · rintro ⟨hplain, hspace, hcontrol⟩
    have hhash : hash ∉ pre := fun hmem => hplain _ hmem (by decide)
    have hdeliver := (deliveredQuery_watchPath hhash since).mpr ⟨hcontrol, hspace, rfl⟩
    rw [hdeliver, Option.map_some, watchParams_of_plain hsince hplain]

example : deliveredQuery (watchPath (utf8 "my jobs/") 0) = none := by decide

end Zodiac
