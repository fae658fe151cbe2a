import Zodiac.Lib.Channel
import Zodiac.Lib.Machine
import Zodiac.Service

/-!
# The channels behind commit subscriptions

A commit subscription is a channel of capacity 1 in the map `commitSubs`. The apply loop
pops it under the lock and then, without the lock, sends the command and closes the
channel; a restored snapshot closes and deletes the subscriptions that it covers.
`CommitSubs` has the channels themselves, which panic on a send after a close and on a
second close.

The apply loop of the source does one thing at a time. Here any number of entries may be
between the pop and the close, and snapshots may be restored in between.

* `Stage`: where a subscription is in its life; every channel has one owner.
* `resolves_once`: every channel gets at most one command and one close, nothing is sent
  after the close, no operation panics, and the send of the apply loop never blocks.
-/

namespace Zodiac

/-! ## The machine -/

/-- What is done with channel `ch`. `cancelled` is the close by a restored snapshot. -/
inductive ChanOp
  | sent (ch : Nat) (cmd : CommitCmd)
  | closed (ch : Nat)
  | cancelled (ch : Nat)
  | received (ch : Nat) (r : Option CommitCmd)
deriving DecidableEq

/-- What the apply loop still has to do with a channel that it has popped. -/
inductive Handoff
  | send (ch : Nat) (cmd : CommitCmd)
  | close (ch : Nat)
deriving DecidableEq

/-- The subscriptions of a service. `chans` has all channels in the order in which they
were made, and `commitSubs` refers to them by their number. `requested` and `trace` record
the calls of `createCommitSubscription` and all that happened to the channels. -/
structure CommitSubs where
  chans : List (Channel CommitCmd 1)
  commitSubs : GoMap Int Nat
  handoffs : List Handoff
  panicked : Bool
  requested : List Int
  trace : List ChanOp

namespace CommitSubs

/-- `createCommitSubscription`. -/
def create (s : CommitSubs) (index : Int) : CommitSubs :=
  if index ∈ s.commitSubs then { s with panicked := true, requested := s.requested ++ [index] }
  else
    { s with
      chans := s.chans ++ [.make]
      commitSubs := s.commitSubs.insert index s.chans.length
      requested := s.requested ++ [index] }

/-- `popCommitSubscriptionLocked` in `handleCommand`. -/
def pop (s : CommitSubs) (index : Int) (cmd : CommitCmd) : CommitSubs :=
  { s with
    commitSubs := s.commitSubs.erase index
    handoffs := s.handoffs ++ ((s.commitSubs.lookup index).map (Handoff.send · cmd)).toList }

/-- `close(ch)`, recorded as `op`. -/
def closeChan (s : CommitSubs) (ch : Nat) (op : ChanOp) : CommitSubs :=
  match s.chans[ch]? with
  | none => s
  | some c =>
    match c.close with
    | .done c' => { s with chans := s.chans.set ch c', trace := s.trace ++ [op] }
    | .blocks => s
    | .panics => { s with panicked := true }

/-- The send, or none when it blocks or there is none to do. -/
def send (s : CommitSubs) (k : Nat) : Option CommitSubs :=
  match s.handoffs[k]? with
  | some (.send ch cmd) =>
    match s.chans[ch]? with
    | none => none
    | some c =>
      match c.send cmd with
      | .done c' => some
        { s with
          chans := s.chans.set ch c'
          handoffs := s.handoffs.set k (.close ch)
          trace := s.trace ++ [.sent ch cmd] }
      | .blocks => none
      | .panics => some { s with panicked := true }
  | _ => none

/-- The close after the send. -/
def close (s : CommitSubs) (k : Nat) : Option CommitSubs :=
  match s.handoffs[k]? with
  | some (.close ch) => some { s.closeChan ch (.closed ch) with handoffs := s.handoffs.eraseIdx k }
  | _ => none

/-- The body of the loop of `handleSnapshot` over the subscriptions. -/
def cancel (index : Int) (s : CommitSubs) (idx : Int) : CommitSubs :=
  if idx ≤ index then
    match s.commitSubs.lookup idx with
    | none => s
    | some ch => { s.closeChan ch (.cancelled ch) with commitSubs := s.commitSubs.erase idx }
  else s

/-- The loop of `handleSnapshot` over the subscriptions. -/
def restore (s : CommitSubs) (index : Int) (order : RangeOrder Int) : CommitSubs :=
  (order.keys s.commitSubs.keys).foldl (cancel index) s

/-- The receive of a handler, or none when it blocks. A receive does not panic. -/
def receive (s : CommitSubs) (ch : Nat) : Option CommitSubs :=
  match s.chans[ch]? with
  | none => none
  | some c =>
    match c.receive with
    | .done (r, c') => some
      { s with chans := s.chans.set ch c', trace := s.trace ++ [.received ch r] }
    | .blocks | .panics => none

end CommitSubs

/-- Atomic steps. -/
inductive SubStep
  | create (index : Int)
  /-- An entry is applied under the lock, up to the pop. -/
  | pop (index : Int) (cmd : CommitCmd)
  | send (k : Nat)
  | close (k : Nat)
  | restore (index : Int) (order : RangeOrder Int)
  | receive (ch : Nat)

/-- The subscriptions as a machine. -/
def commitChannels : Machine CommitSubs SubStep where
  init :=
    { chans := [], commitSubs := ∅, handoffs := [], panicked := false, requested := []
      trace := [] }
  step s
    | .create index => some (s.create index)
    | .pop index cmd => some (s.pop index cmd)
    | .send k => s.send k
    | .close k => s.close k
    | .restore index order => some (s.restore index order)
    | .receive ch => s.receive ch

/-- The calls of `createCommitSubscription` are on distinct indices. -/
def DistinctIndices (s : CommitSubs) : SubStep → Prop
  | .create index => index ∉ s.requested
  | _ => True

instance (s : CommitSubs) : (a : SubStep) → Decidable (DistinctIndices s a)
  | .create index => inferInstanceAs (Decidable (index ∉ s.requested))
  | .pop _ _ | .send _ | .close _ | .restore _ _ | .receive _ => inferInstanceAs (Decidable True)

/-- The operation sends a command on channel `ch`. -/
def ChanOp.sends (ch : Nat) : ChanOp → Bool
  | .sent ch' _ => ch' == ch
  | _ => false

/-- The operation closes channel `ch`. -/
def ChanOp.closes (ch : Nat) : ChanOp → Bool
  | .closed ch' | .cancelled ch' => ch' == ch
  | _ => false

/-- What is asked of the subscriptions. -/
structure ResolvesOnce (s : CommitSubs) : Prop where
  /-- No send on a closed channel, no second close and no second subscription. -/
  no_panic : s.panicked = false
  one_command : ∀ ch, s.trace.countP (ChanOp.sends ch) ≤ 1
  one_close : ∀ ch, s.trace.countP (ChanOp.closes ch) ≤ 1
  /-- Nothing is sent on a channel after its close. -/
  closed_silent : ∀ ch before op after, s.trace = before ++ op :: after → op.closes ch = true →
    ∀ op' ∈ after, op'.sends ch = false
  /-- The send of the apply loop goes through. -/
  send_ready : ∀ ch cmd, .send ch cmd ∈ s.handoffs → ∃ c c', s.chans[ch]? = some c ∧
    c.send cmd = .done c'
  /-- A channel closed by a snapshot never delivers a command. -/
  cancelled_empty : ∀ ch, .cancelled ch ∈ s.trace → ∀ cmd, .received ch (some cmd) ∉ s.trace

/-! ## The life of a subscription -/

/-- Where a subscription is. A channel has one owner: the map while it is `waiting`, the
apply loop while it is `sending` or `sent`, and nobody afterwards. -/
inductive Stage
  | waiting (index : Int)
  | sending (cmd : CommitCmd)
  | sent (cmd : CommitCmd)
  | resolved (cmd : CommitCmd)
  | cancelled

namespace Stage

/-- The channel is closed. -/
def closed : Stage → Bool
  | .resolved _ | .cancelled => true
  | .waiting _ | .sending _ | .sent _ => false

/-- The commands sent so far. -/
def commands : Stage → List CommitCmd
  | .sent cmd | .resolved cmd => [cmd]
  | .waiting _ | .sending _ | .cancelled => []

/-- The sends and closes on channel `ch` so far. -/
def ops (ch : Nat) : Stage → List ChanOp
  | .waiting _ | .sending _ => []
  | .sent cmd => [.sent ch cmd]
  | .resolved cmd => [.sent ch cmd, .closed ch]
  | .cancelled => [.cancelled ch]

/-- What the apply loop still has to do with channel `ch`. -/
def handoff (ch : Nat) : Stage → Option Handoff
  | .sending cmd => some (.send ch cmd)
  | .sent _ => some (.close ch)
  | .waiting _ | .resolved _ | .cancelled => none

end Stage

/-- The channel that is handed over. -/
def Handoff.chan : Handoff → Nat
  | .send ch _ | .close ch => ch

/-- The sends and closes on channel `ch`. -/
def opsOn (ch : Nat) (trace : List ChanOp) : List ChanOp :=
  trace.filter fun op => op.sends ch || op.closes ch

/-- The command that the operation receives from channel `ch`. -/
def ChanOp.receives (ch : Nat) : ChanOp → Option CommitCmd
  | .received ch' r => if ch' = ch then r else none
  | _ => none

/-- The commands received from channel `ch`. -/
def receivedOn (ch : Nat) (trace : List ChanOp) : List CommitCmd :=
  trace.filterMap (ChanOp.receives ch)

namespace CommitChannelLemmas

open History

/-- The channels are where the stages say. -/
structure Owned (s : CommitSubs) (stages : List Stage) : Prop where
  no_panic : s.panicked = false
  length : stages.length = s.chans.length
  requested : ∀ i ∈ s.commitSubs, i ∈ s.requested
  subs : ∀ (i : Int) (ch : Nat), s.commitSubs.lookup i = some ch ↔ stages[ch]? = some (.waiting i)
  handoffs : ∀ x, x ∈ s.handoffs ↔
    ∃ (ch : Nat) (g : Stage), stages[ch]? = some g ∧ g.handoff ch = some x
  nodup : s.handoffs.Nodup
  chan : ∀ {ch : Nat} {c : Channel CommitCmd 1} {g : Stage}, s.chans[ch]? = some c →
    stages[ch]? = some g → c.closed = g.closed ∧ receivedOn ch s.trace ++ c.buf = g.commands
  ops : ∀ {ch : Nat} {g : Stage}, stages[ch]? = some g → opsOn ch s.trace = g.ops ch
  unmade : ∀ {ch : Nat}, stages[ch]? = none → opsOn ch s.trace = [] ∧ receivedOn ch s.trace = []

variable {s s' : CommitSubs} {stages : List Stage} {ch : Nat} {g g' : Stage}
  {c c' : Channel CommitCmd 1}

/-! ## Traces -/

theorem handoff_chan {x : Handoff} (h : g.handoff ch = some x) : x.chan = ch := by
  cases g <;> cases h <;> rfl

/-- An operation on one channel is none on another. -/
theorem writes_other {op : ChanOp} {ch' : Nat} (h : (op.sends ch || op.closes ch) = true)
    (hne : ch' ≠ ch) : (op.sends ch' || op.closes ch') = false := by
  cases op with
  | sent k cmd | closed k | cancelled k =>
    simp only [ChanOp.sends, ChanOp.closes, Bool.or_false, Bool.false_or, beq_iff_eq] at h ⊢
    subst h
    exact beq_false_of_ne hne.symm
  | received k r => cases h

theorem receives_of_writes {op : ChanOp} (h : (op.sends ch || op.closes ch) = true) (ch' : Nat) :
    op.receives ch' = none := by
  cases op with
  | sent k cmd | closed k | cancelled k => rfl
  | received k r => cases h

theorem opsOn_append (ch : Nat) (trace more : List ChanOp) :
    opsOn ch (trace ++ more) = opsOn ch trace ++ opsOn ch more :=
  List.filter_append _ _

theorem receivedOn_append (ch : Nat) (trace more : List ChanOp) :
    receivedOn ch (trace ++ more) = receivedOn ch trace ++ receivedOn ch more :=
  List.filterMap_append

/-- Sends and closes on channel `ch` show on `ch` only. -/
theorem opsOn_of_writes {more : List ChanOp}
    (h : ∀ op ∈ more, (op.sends ch || op.closes ch) = true) (ch' : Nat) :
    opsOn ch' more = if ch' = ch then more else [] := by
  split
  · next heq =>
    subst heq
    exact List.filter_eq_self.mpr h
  · next hne =>
    refine List.filter_eq_nil_iff.mpr fun op hop => ?_
    rw [writes_other (h op hop) hne]
    exact Bool.false_ne_true

theorem receivedOn_of_writes {more : List ChanOp}
    (h : ∀ op ∈ more, (op.sends ch || op.closes ch) = true) (ch' : Nat) :
    receivedOn ch' more = [] :=
  List.filterMap_eq_nil_iff.mpr fun op hop => receives_of_writes (h op hop) ch'

/-! ## Moving a channel to its next stage -/

theorem Owned.chan_of_stage (h : Owned s stages) (hg : stages[ch]? = some g) :
    ∃ c, s.chans[ch]? = some c := by
  have hlt := (List.getElem?_eq_some_iff.mp hg).1
  rw [h.length] at hlt
  exact ⟨_, List.getElem?_eq_getElem hlt⟩

/-- What a step has to do for channel `ch` to go from stage `g` to `g'`. -/
structure Moves (s s' : CommitSubs) (ch : Nat) (g g' : Stage) (c' : Channel CommitCmd 1)
    (more : List ChanOp) : Prop where
  panicked : s'.panicked = s.panicked
  requested : s'.requested = s.requested
  chans : s'.chans = s.chans.set ch c'
  subs : ∀ (i : Int) (k : Nat),
    s'.commitSubs.lookup i = some k ↔ s.commitSubs.lookup i = some k ∧ k ≠ ch
  handoffs : ∀ x, x ∈ s'.handoffs ↔ x ∈ s.handoffs ∧ x.chan ≠ ch ∨ g'.handoff ch = some x
  nodup : s.handoffs.Nodup → s'.handoffs.Nodup
  trace : s'.trace = s.trace ++ more
  leaves : ∀ i, g' ≠ .waiting i
  chan : c'.closed = g'.closed ∧ receivedOn ch s.trace ++ c'.buf = g'.commands
  ops : g.ops ch ++ more = g'.ops ch
  writes : ∀ op ∈ more, (op.sends ch || op.closes ch) = true

theorem Owned.move (h : Owned s stages) (hg : stages[ch]? = some g) {more : List ChanOp}
    (hm : Moves s s' ch g g' c' more) : Owned s' (stages.set ch g') := by
  obtain ⟨c, hc⟩ := h.chan_of_stage hg
  have hstage := getElem?_set_of_some hg g'
  have hchan := getElem?_set_of_some hc c'
  have hreceived : ∀ k, receivedOn k s'.trace = receivedOn k s.trace := by
    intro k
    rw [hm.trace, receivedOn_append, receivedOn_of_writes hm.writes, List.append_nil]
  refine ⟨?_, ?_, ?_, ?_, ?_, hm.nodup h.nodup, ?_, ?_, ?_⟩
  · rw [hm.panicked, h.no_panic]
  · rw [hm.chans, List.length_set, List.length_set, h.length]
  · intro i hi
    obtain ⟨k, hk⟩ := Finmap.mem_iff.mp hi
    rw [hm.requested]
    exact h.requested i (Finmap.mem_of_lookup_eq_some ((hm.subs i k).mp hk).1)
  · intro i k
    rw [hm.subs, h.subs, hstage]
    split
    · next heq =>
      refine ⟨fun hk => absurd heq hk.2, fun heq' => ?_⟩
      exact absurd (Option.some.inj heq') (hm.leaves i)
    · next hne => exact ⟨fun hk => hk.1, fun hk => ⟨hk, hne⟩⟩
  · intro x
    rw [hm.handoffs, h.handoffs]
    constructor
    · rintro (⟨⟨k, gk, hk, hx⟩, hne⟩ | hx)
      · rw [handoff_chan hx] at hne
        exact ⟨k, gk, by rw [hstage, if_neg hne, hk], hx⟩
      · exact ⟨ch, g', by rw [hstage, if_pos rfl], hx⟩
    · rintro ⟨k, gk, hk, hx⟩
      rw [hstage] at hk
      split at hk
      · next heq =>
        subst heq
        cases hk
        exact .inr hx
      · next hne =>
        refine .inl ⟨⟨k, gk, hk, hx⟩, ?_⟩
        rw [handoff_chan hx]
        exact hne
  · intro k ck gk hck hgk
    rw [hm.chans, hchan] at hck
    rw [hstage] at hgk
    rw [hreceived]
    split at hck
    · next heq =>
      rw [if_pos heq] at hgk
      cases hck
      cases hgk
      rw [heq]
      exact hm.chan
    · next hne =>
      rw [if_neg hne] at hgk
      exact h.chan hck hgk
  · intro k gk hgk
    rw [hm.trace, opsOn_append, opsOn_of_writes hm.writes]
    rw [hstage] at hgk
    split at hgk
    · next heq =>
      subst heq
      cases hgk
      rw [if_pos rfl, h.ops hg, hm.ops]
    · next hne =>
      rw [if_neg hne, List.append_nil]
      exact h.ops hgk
  · intro k hk
    rw [hstage] at hk
    split at hk
    · cases hk
    · next hne =>
      rw [hreceived, hm.trace, opsOn_append, opsOn_of_writes hm.writes, if_neg hne, List.append_nil]
      exact h.unmade hk

/-! ## Steps -/

/-- The apply loop has at most one thing to do with a channel. -/
theorem Owned.handoff_of_chan (h : Owned s stages) (hg : stages[ch]? = some g) {x : Handoff}
    (hx : x ∈ s.handoffs) (hch : x.chan = ch) : g.handoff ch = some x := by
  obtain ⟨k, gk, hk, hgk⟩ := (h.handoffs x).mp hx
  obtain rfl : k = ch := (handoff_chan hgk).symm.trans hch
  obtain rfl := Option.some.inj (hg.symm.trans hk)
  exact hgk

/-- While the apply loop has `x` to do with a channel, its other work is on other
channels. -/
theorem Owned.other_handoff (h : Owned s stages) (hg : stages[ch]? = some g) {x y : Handoff}
    (hx : g.handoff ch = some x) (hy : y ∈ s.handoffs) : y ≠ x ↔ y.chan ≠ ch := by
  refine ⟨fun hne hch => ?_, fun hch heq => ?_⟩
  · exact hne (Option.some.inj ((h.handoff_of_chan hg hy hch).symm.trans hx))
  · subst heq
    exact hch (handoff_chan hx)

/-- A channel that is not waiting is not in the map. -/
theorem Owned.subs_of_left (h : Owned s stages) (hg : stages[ch]? = some g)
    (hleft : ∀ i, g ≠ .waiting i) (i : Int) (k : Nat) :
    s.commitSubs.lookup i = some k ↔ s.commitSubs.lookup i = some k ∧ k ≠ ch := by
  refine ⟨fun hk => ⟨hk, ?_⟩, fun hk => hk.1⟩
  rintro rfl
  exact hleft i (Option.some.inj (hg.symm.trans ((h.subs i k).mp hk)))

/-- Taking a waiting channel out of the map. -/
theorem Owned.subs_of_erase (h : Owned s stages) {i : Int}
    (hi : s.commitSubs.lookup i = some ch) (j : Int) (k : Nat) :
    (s.commitSubs.erase i).lookup j = some k ↔ s.commitSubs.lookup j = some k ∧ k ≠ ch := by
  rw [Finmap.lookup_erase_ite]
  split
  · next heq =>
    subst heq
    refine ⟨fun hk => ?_, fun hk => ?_⟩
    · cases hk
    · exact absurd (Option.some.inj (hk.1.symm.trans hi)) hk.2
  · next hne =>
    refine ⟨fun hk => ⟨hk, ?_⟩, fun hk => hk.1⟩
    rintro rfl
    have hsame := ((h.subs j k).mp hk).symm.trans ((h.subs i k).mp hi)
    cases hsame
    exact hne rfl

theorem Owned.create (h : Owned s stages) {i : Int} (hnew : i ∉ s.requested) :
    Owned (s.create i) (stages ++ [.waiting i]) := by
  have hfree : i ∉ s.commitSubs := fun hi => hnew (h.requested i hi)
  have hmade : (stages ++ [Stage.waiting i])[s.chans.length]? = some (.waiting i) := by
    rw [← h.length]
    exact List.getElem?_concat_length
  have hunmade : stages[s.chans.length]? = none := by
    rw [← h.length]
    exact List.getElem?_eq_none le_rfl
  rw [CommitSubs.create, if_neg hfree]
  refine ⟨h.no_panic, ?_, ?_, ?_, ?_, h.nodup, ?_, ?_, ?_⟩
  · simp only [List.length_append, List.length_singleton, h.length]
  · intro j hj
    rcases Finmap.mem_insert.mp hj with rfl | hj
    · exact List.mem_append_right _ (List.mem_singleton_self _)
    · exact List.mem_append_left _ (h.requested j hj)
  · intro j k
    rw [Finmap.lookup_insert_ite]
    split
    · next heq =>
      subst heq
      constructor
      · intro hk
        cases hk
        exact hmade
      · intro hk
        rcases getElem?_concat hk with hold | ⟨rfl, _⟩
        · exact absurd (Finmap.mem_of_lookup_eq_some ((h.subs j k).mpr hold)) hfree
        · rw [h.length]
    · next hne =>
      rw [h.subs]
      refine ⟨getElem?_append_of_some, fun hk => ?_⟩
      rcases getElem?_concat hk with hold | ⟨_, heq⟩
      · exact hold
      · cases heq
        exact absurd rfl hne
  · intro x
    rw [h.handoffs]
    refine ⟨fun ⟨k, gk, hk, hx⟩ => ⟨k, gk, getElem?_append_of_some hk, hx⟩, ?_⟩
    rintro ⟨k, gk, hk, hx⟩
    rcases getElem?_concat hk with hold | ⟨_, rfl⟩
    · exact ⟨k, gk, hold, hx⟩
    · cases hx
  · intro k ck gk hck hgk
    rcases getElem?_concat hck with hold | ⟨rfl, rfl⟩
    · rcases getElem?_concat hgk with hgold | ⟨heq, _⟩
      · exact h.chan hold hgold
      · have hlt := (List.getElem?_eq_some_iff.mp hold).1
        rw [heq, h.length] at hlt
        exact absurd hlt (Nat.lt_irrefl _)
    · cases hmade.symm.trans hgk
      refine ⟨rfl, ?_⟩
      rw [(h.unmade hunmade).2]
      rfl
  · intro k gk hgk
    rcases getElem?_concat hgk with hgold | ⟨rfl, rfl⟩
    · exact h.ops hgold
    · rw [h.length]
      exact (h.unmade hunmade).1
  · intro k hk
    refine h.unmade (List.getElem?_eq_none_iff.mpr ?_)
    have hge := List.getElem?_eq_none_iff.mp hk
    rw [List.length_append] at hge
    exact Nat.le_of_add_right_le hge

/-- The apply loop finds nobody who waits. -/
theorem pop_of_none {i : Int} (hi : s.commitSubs.lookup i = none) (cmd : CommitCmd) :
    s.pop i cmd = s := by
  have hsame : s.commitSubs.erase i = s.commitSubs := by
    refine Finmap.ext_lookup fun j => ?_
    rw [Finmap.lookup_erase_ite]
    split
    · next heq => rw [heq, hi]
    · rfl
  rw [CommitSubs.pop, hi, hsame]
  simp

theorem Owned.pop_some (h : Owned s stages) {i : Int} (hi : s.commitSubs.lookup i = some ch)
    (cmd : CommitCmd) : Owned (s.pop i cmd) (stages.set ch (.sending cmd)) := by
  have hg := (h.subs i ch).mp hi
  obtain ⟨c, hc⟩ := h.chan_of_stage hg
  obtain ⟨hopen, hcontent⟩ := h.chan hc hg
  -- nobody else has the channel
  have hother : ∀ x ∈ s.handoffs, x.chan ≠ ch := by
    intro x hx hch
    cases h.handoff_of_chan hg hx hch
  have hpopped : (s.pop i cmd).handoffs = s.handoffs ++ [.send ch cmd] := by
    simp [CommitSubs.pop, hi]
  have htrace : (s.pop i cmd).trace = s.trace ++ [] := (List.append_nil _).symm
  refine h.move hg ⟨rfl, rfl, (set_of_getElem? hc).symm, h.subs_of_erase hi, ?_, ?_, htrace,
    ?_, ⟨hopen, hcontent⟩, rfl, by simp⟩
  · intro x
    rw [hpopped, List.mem_append, List.mem_singleton]
    refine ⟨?_, ?_⟩
    · rintro (hx | rfl)
      · exact .inl ⟨hx, hother x hx⟩
      · exact .inr rfl
    · rintro (hx | hx)
      · exact .inl hx.1
      · exact .inr (Option.some.inj hx).symm
  · intro hnodup
    rw [hpopped, ← List.concat_eq_append, List.nodup_concat]
    exact ⟨fun hx => hother _ hx rfl, hnodup⟩
  · intro j heq
    cases heq

/-- The channel that the apply loop is about to send on is open and empty. -/
theorem Owned.send_done (h : Owned s stages) {cmd : CommitCmd}
    (hx : Handoff.send ch cmd ∈ s.handoffs) : stages[ch]? = some (.sending cmd) ∧
      ∃ c c', s.chans[ch]? = some c ∧ c.send cmd = .done c' ∧ c'.closed = false ∧
        receivedOn ch s.trace = [] ∧ c'.buf = [cmd] := by
  obtain ⟨k, g, hg, hhandoff⟩ := (h.handoffs _).mp hx
  obtain rfl : ch = k := handoff_chan hhandoff
  obtain rfl : g = .sending cmd := by cases g <;> cases hhandoff; rfl
  obtain ⟨c, hc⟩ := h.chan_of_stage hg
  obtain ⟨hopen, hcontent⟩ := h.chan hc hg
  obtain ⟨hreceived, hempty⟩ := List.append_eq_nil_iff.mp hcontent
  obtain ⟨c', hsend, hbuf, hopen'⟩ := Channel.send_of_room hopen (by simp [hempty]) cmd
  rw [hempty] at hbuf
  exact ⟨hg, c, c', hc, hsend, hopen', hreceived, hbuf⟩

theorem Owned.send (h : Owned s stages) {k : Nat} (hs : s.send k = some s') :
    ∃ stages', Owned s' stages' := by
  unfold CommitSubs.send at hs
  split at hs
  · next ch cmd hk =>
    obtain ⟨hg, c, c', hc, hsend, hopen, hreceived, hbuf⟩ := h.send_done (List.mem_of_getElem? hk)
    simp only [hc, hsend, Option.some.injEq] at hs
    subst hs
    refine ⟨stages.set ch (.sent cmd), h.move hg
      ⟨rfl, rfl, rfl, ?_, ?_, ?_, rfl, ?_, ?_, rfl, ?_⟩⟩
    · exact h.subs_of_left hg (by rintro i heq; cases heq)
    · intro x
      rw [mem_set_of_nodup h.nodup hk]
      refine or_congr (and_congr_right fun hx => h.other_handoff hg rfl hx) ?_
      exact (Option.some_inj).symm
    · intro hnodup
      refine hnodup.set fun hmem => ?_
      cases h.handoff_of_chan hg hmem rfl
    · rintro i heq
      cases heq
    · refine ⟨hopen, ?_⟩
      rw [hreceived, hbuf]
      rfl
    · intro op hop
      rw [List.mem_singleton.mp hop]
      simp [ChanOp.sends]
  · cases hs

/-- Closing an open channel. -/
theorem closeChan_of_open (hc : s.chans[ch]? = some c) (hopen : c.closed = false) (op : ChanOp) :
    ∃ c', c'.closed = true ∧ c'.buf = c.buf ∧
      s.closeChan ch op = { s with chans := s.chans.set ch c', trace := s.trace ++ [op] } := by
  obtain ⟨c', hclose, hbuf, hclosed⟩ := Channel.close_of_open hopen
  refine ⟨c', hclosed, hbuf, ?_⟩
  simp only [CommitSubs.closeChan, hc, hclose]

/-- The channel that the apply loop is about to close is open. -/
theorem Owned.close_done (h : Owned s stages) (hx : Handoff.close ch ∈ s.handoffs) :
    ∃ cmd, stages[ch]? = some (.sent cmd) ∧ ∃ c, s.chans[ch]? = some c ∧ c.closed = false ∧
      receivedOn ch s.trace ++ c.buf = [cmd] := by
  obtain ⟨k, g, hg, hhandoff⟩ := (h.handoffs _).mp hx
  obtain rfl : ch = k := handoff_chan hhandoff
  cases g with
  | sent cmd =>
    obtain ⟨c, hc⟩ := h.chan_of_stage hg
    exact ⟨cmd, hg, c, hc, h.chan hc hg⟩
  | waiting | sending | resolved | cancelled => cases hhandoff

theorem Owned.close (h : Owned s stages) {k : Nat} (hs : s.close k = some s') :
    ∃ stages', Owned s' stages' := by
  unfold CommitSubs.close at hs
  split at hs
  · next ch hk =>
    obtain ⟨cmd, hg, c, hc, hopen, hcontent⟩ := h.close_done (List.mem_of_getElem? hk)
    obtain ⟨c', hclosed, hbuf, hclose⟩ := closeChan_of_open hc hopen (.closed ch)
    rw [hclose, Option.some.injEq] at hs
    subst hs
    refine ⟨stages.set ch (.resolved cmd), h.move hg
      ⟨rfl, rfl, rfl, ?_, ?_, ?_, rfl, ?_, ?_, rfl, ?_⟩⟩
    · exact h.subs_of_left hg (by rintro i heq; cases heq)
    · intro x
      rw [mem_eraseIdx_of_nodup h.nodup hk]
      refine (and_congr_right fun hx => h.other_handoff hg rfl hx).trans ?_
      simp [Stage.handoff]
    · exact fun hnodup => hnodup.sublist (List.eraseIdx_sublist _ _)
    · rintro i heq
      cases heq
    · rw [hbuf]
      exact ⟨hclosed, hcontent⟩
    · intro op hop
      rw [List.mem_singleton.mp hop]
      simp [ChanOp.closes]
  · cases hs

theorem Owned.cancel (h : Owned s stages) (index idx : Int) :
    ∃ stages', Owned (s.cancel index idx) stages' := by
  unfold CommitSubs.cancel
  split
  · split
    · exact ⟨stages, h⟩
    · next ch hi =>
      have hg := (h.subs idx ch).mp hi
      obtain ⟨c, hc⟩ := h.chan_of_stage hg
      obtain ⟨hopen, hcontent⟩ := h.chan hc hg
      obtain ⟨c', hclosed, hbuf, hclose⟩ := closeChan_of_open hc hopen (.cancelled ch)
      rw [hclose]
      refine ⟨stages.set ch .cancelled, h.move hg
        ⟨rfl, rfl, rfl, h.subs_of_erase hi, ?_, id, rfl, ?_, ?_, rfl, ?_⟩⟩
      · intro x
        refine ⟨fun hx => .inl ⟨hx, fun hch => ?_⟩, ?_⟩
        · cases h.handoff_of_chan hg hx hch
        · rintro (hx | hx)
          · exact hx.1
          · cases hx
      · rintro i heq
        cases heq
      · rw [hbuf]
        exact ⟨hclosed, hcontent⟩
      · intro op hop
        rw [List.mem_singleton.mp hop]
        simp [ChanOp.closes]
  · exact ⟨stages, h⟩

theorem Owned.restore (h : Owned s stages) (index : Int) (order : RangeOrder Int) :
    ∃ stages', Owned (s.restore index order) stages' := by
  unfold CommitSubs.restore
  generalize order.keys s.commitSubs.keys = keys
  induction keys generalizing s stages with
  | nil => exact ⟨stages, h⟩
  | cons idx keys ih =>
    obtain ⟨stages', h'⟩ := h.cancel index idx
    exact ih h'

theorem Owned.receive (h : Owned s stages) (hs : s.receive ch = some s') : Owned s' stages := by
  unfold CommitSubs.receive at hs
  split at hs
  · cases hs
  · next c hc =>
    split at hs
    · next r c' hreceive =>
      cases hs
      obtain ⟨hclosed, hbuf⟩ := Channel.receive_eq_done hreceive
      have hops : ∀ k, opsOn k (s.trace ++ [.received ch r]) = opsOn k s.trace := by
        intro k
        rw [opsOn_append]
        exact List.append_nil _
      have hreceived : ∀ k, receivedOn k (s.trace ++ [.received ch r]) =
          receivedOn k s.trace ++ if k = ch then r.toList else [] := by
        intro k
        rw [receivedOn_append]
        congr 1
        by_cases hk : k = ch
        · subst hk
          cases r <;> simp [receivedOn, ChanOp.receives]
        · simp [receivedOn, ChanOp.receives, hk, Ne.symm hk]
      have hchan := getElem?_set_of_some hc c'
      refine ⟨h.no_panic, ?_, h.requested, h.subs, h.handoffs, h.nodup, ?_, ?_, ?_⟩
      · rw [List.length_set, h.length]
      · intro k ck gk hck hgk
        rw [hchan] at hck
        rw [hreceived]
        split at hck
        · next heq =>
          subst heq
          cases hck
          obtain ⟨hold, hcontent⟩ := h.chan hc hgk
          refine ⟨hclosed.trans hold, ?_⟩
          rw [if_pos rfl, List.append_assoc, ← hbuf, hcontent]
        · next hne =>
          rw [if_neg hne, List.append_nil]
          exact h.chan hck hgk
      · intro k gk hgk
        rw [hops]
        exact h.ops hgk
      · intro k hk
        have hne : k ≠ ch := by
          rintro rfl
          have hlt := (List.getElem?_eq_some_iff.mp hc).1
          rw [← h.length] at hlt
          exact absurd (List.getElem?_eq_none_iff.mp hk) (Nat.not_le.mpr hlt)
        rw [hops, hreceived, if_neg hne, List.append_nil]
        exact h.unmade hk
    · cases hs
    · cases hs

theorem owned_of_reachable (h : commitChannels.ReachableBy DistinctIndices s) :
    ∃ stages, Owned s stages := by
  refine h.invariant (I := fun s => ∃ stages, Owned s stages) ?_ ?_
  · refine ⟨[], rfl, rfl, ?_, ?_, ?_, List.nodup_nil, ?_, ?_, fun _ => ⟨rfl, rfl⟩⟩
    · exact fun i hi => absurd hi Finmap.notMem_empty
    · simp [commitChannels]
    · simp [commitChannels]
    · simp [commitChannels]
    · simp
  · rintro s a s' - ⟨stages, hown⟩ hguard hstep
    cases a with
    | create i =>
      cases hstep
      exact ⟨_, hown.create hguard⟩
    | pop i cmd =>
      cases hstep
      cases hi : s.commitSubs.lookup i with
      | none =>
        rw [pop_of_none hi]
        exact ⟨stages, hown⟩
      | some ch => exact ⟨_, hown.pop_some hi cmd⟩
    | send k => exact hown.send hstep
    | close k => exact hown.close hstep
    | restore index order =>
      cases hstep
      exact hown.restore index order
    | receive ch => exact ⟨_, hown.receive hstep⟩

/-! ## What the stages allow -/

/-- No operation follows the close. -/
theorem ops_after_close {before after : List ChanOp} {op : ChanOp}
    (hops : g.ops ch = before ++ op :: after) (hop : op.closes ch = true) : after = [] := by
  cases g with
  | waiting i | sending cmd => simp [Stage.ops] at hops
  | sent cmd | cancelled =>
    rw [Stage.ops] at hops
    rcases before with _ | ⟨_, before⟩
    · exact (List.cons.inj hops).2.symm
    · simp at hops
  | resolved cmd =>
    rw [Stage.ops] at hops
    rcases before with _ | ⟨_, _ | ⟨_, before⟩⟩
    · -- the first operation is the send
      cases (List.cons.inj hops).1
      cases hop
    · simp at hops
      exact hops.2.2
    · simp at hops

theorem countP_opsOn (ch : Nat) {p : ChanOp → Bool}
    (hp : ∀ op, p op = true → (op.sends ch || op.closes ch) = true) (trace : List ChanOp) :
    trace.countP p = (opsOn ch trace).countP p := by
  rw [opsOn, List.countP_filter]
  refine List.countP_congr fun op _ => ?_
  simp only [Bool.and_eq_true]
  exact ⟨fun h => ⟨h, hp op h⟩, fun h => h.1⟩

/-- What has happened to a channel is what has happened to it in some stage. -/
theorem Owned.history (h : Owned s stages) (ch : Nat) :
    ∃ g : Stage, opsOn ch s.trace = g.ops ch ∧ (g.commands = [] → receivedOn ch s.trace = []) := by
  cases hg : stages[ch]? with
  | none =>
    obtain ⟨hops, hreceived⟩ := h.unmade hg
    exact ⟨.waiting 0, hops, fun _ => hreceived⟩
  | some g =>
    obtain ⟨c, hc⟩ := h.chan_of_stage hg
    refine ⟨g, h.ops hg, fun hnone => ?_⟩
    exact (List.append_eq_nil_iff.mp ((h.chan hc hg).2.trans hnone)).1

end CommitChannelLemmas

open CommitChannelLemmas

/-! ## Main results -/

/-- In every interleaving of subscriptions on distinct indices, applied entries, restored
snapshots and receives, every subscription resolves at most once. -/
theorem resolves_once {s : CommitSubs} (h : commitChannels.ReachableBy DistinctIndices s) :
    ResolvesOnce s := by
  obtain ⟨stages, hown⟩ := owned_of_reachable h
  refine ⟨hown.no_panic, fun ch => ?_, fun ch => ?_, ?_, ?_, ?_⟩
  · obtain ⟨g, hops, _⟩ := hown.history ch
    rw [countP_opsOn ch (fun op hop => by rw [hop, Bool.true_or]), hops]
    cases g <;> simp [Stage.ops, ChanOp.sends]
  · obtain ⟨g, hops, _⟩ := hown.history ch
    rw [countP_opsOn ch (fun op hop => by rw [hop, Bool.or_true]), hops]
    cases g <;> simp [Stage.ops, ChanOp.closes]
  · intro ch before op after htrace hop op' hop'
    obtain ⟨g, hops, _⟩ := hown.history ch
    have hkept : opsOn ch (op :: after) = op :: opsOn ch after :=
      List.filter_cons_of_pos (by rw [hop, Bool.or_true])
    rw [htrace, opsOn_append, hkept] at hops
    have hnone := ops_after_close hops.symm hop
    have hfalse := List.filter_eq_nil_iff.mp hnone op' hop'
    rw [Bool.not_eq_true, Bool.or_eq_false_iff] at hfalse
    exact hfalse.1
  · intro ch cmd hx
    obtain ⟨_, c, c', hc, hsend, _⟩ := hown.send_done hx
    exact ⟨c, c', hc, hsend⟩
  · intro ch hcancelled cmd hreceived
    obtain ⟨g, hops, hempty⟩ := hown.history ch
    have hmem : .cancelled ch ∈ g.ops ch := by
      rw [← hops]
      exact List.mem_filter.mpr ⟨hcancelled, by simp [ChanOp.closes]⟩
    have hnone : g.commands = [] := by
      cases g with
      | cancelled | waiting | sending => rfl
      | sent c | resolved c => simp [Stage.ops] at hmem
    have hreceives := List.filterMap_eq_nil_iff.mp (hempty hnone) _ hreceived
    simp [ChanOp.receives] at hreceives

/-- A command for index 0. -/
def firstCommit : CommitCmd := { kind := .put, key := "a", value := "1" }

/-- Index 0 is applied and index 1 is covered by a snapshot, which is restored before the
apply loop has sent. -/
theorem resolves_once_both_ways : ∃ s, commitChannels.ReachableBy DistinctIndices s ∧
    ResolvesOnce s ∧ s.trace =
      [.cancelled 1, .sent 0 firstCommit, .received 0 (some firstCommit), .closed 0,
        .received 1 none] := by
  obtain ⟨s, hreach, hs⟩ := Machine.exists_reachableBy (M := commitChannels) (G := DistinctIndices)
    [.create 0, .create 1, .pop 0 firstCommit, .restore 1 .ascending, .send 0, .receive 0,
      .close 0, .receive 1]
    (fun s => decide (s.trace = [.cancelled 1, .sent 0 firstCommit,
      .received 0 (some firstCommit), .closed 0, .received 1 none]))
    (x := true) (by decide)
  exact ⟨s, hreach, resolves_once hreach, of_decide_eq_true hs⟩

end Zodiac
