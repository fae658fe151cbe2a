import Zodiac.Dedup
import Zodiac.Lib.Machine

/-!
# Which requests the dedup table keeps

The table holds one request id per client, so whether a request that is new to
the service is applied depends on the order in which the client's requests
reach the log.

* `Clients`: the clients of `kvclient.go`, whose calls draw request ids from an
  atomic counter and whose requests may land in the log at any later point, any
  number of times.
* `fresh_applied_iff_inOrder`: no fresh request is suppressed, and every request
  takes effect once, exactly when the requests of each client first land in the
  order of their ids.
* `later_call_lands_first`: two concurrent calls of one client that land the
  other way round lose the first.
* `sequential_inOrder`: clients that draw an id only after their earlier
  requests have landed stay in order.
-/

namespace Zodiac

/-! ## Definitions -/

/-- The ids of the client's distinct requests, in the order in which they first
enter the log. -/
def requestOrder (c : Int) (log : List Command) : List Int :=
  ((log.filter fun cmd => cmd.clientID = c).map fun cmd => cmd.requestID).eraseDups

/-- The distinct requests of every client first enter the log in increasing
order of their ids. -/
def InOrder (log : List Command) : Prop :=
  ∀ c, c ≠ 0 → (requestOrder c log).Pairwise (· < ·)

/-- The two commands carry the same request. -/
def SameRequest (cmd cmd' : Command) : Prop :=
  cmd.clientID = cmd'.clientID ∧ cmd.requestID = cmd'.requestID

section

variable {β : Type} (codec : SnapshotCodec β)

/-- The entry at position `i` carries the request of `cmd` and was applied. -/
def AppliedAt (log : List LogEntry) (cmd : Command) (i : Nat) : Prop :=
  ∃ a, (appliedBy codec log)[i]? = some a ∧ SameRequest a.cmd.toCommand cmd ∧
    a.cmd.isDuplicate = false

/-- A command is marked duplicate only after an entry with the same request was
applied. -/
def NoFreshSuppressed (log : List LogEntry) : Prop :=
  ∀ i a, (appliedBy codec log)[i]? = some a → a.cmd.isDuplicate = true →
    ∃ j < i, AppliedAt codec log a.cmd.toCommand j

/-- Every request in the log is applied exactly once. -/
def EachAppliedOnce (log : List LogEntry) : Prop :=
  ∀ e ∈ log, e.2.clientID ≠ 0 → ∃! i, AppliedAt codec log e.2 i

end

open History

namespace ClientOrderLemmas

/-! ## The order of first landings -/

theorem mem_requestOrder {c r : Int} {log : List Command} :
    r ∈ requestOrder c log ↔ r ∈ requestIDs c log := by
  simp only [requestOrder, requestIDs, List.mem_eraseDups, List.mem_map, List.mem_filter,
    decide_eq_true_eq, Set.mem_ofPred_eq]
  constructor
  · rintro ⟨e, ⟨he, hc⟩, hr⟩
    exact ⟨e, he, hc, hr⟩
  · rintro ⟨e, he, hc, hr⟩
    exact ⟨e, ⟨he, hc⟩, hr⟩

theorem requestOrder_other {c : Int} {log : List Command} {cmd : Command} (h : cmd.clientID ≠ c) :
    requestOrder c (log ++ [cmd]) = requestOrder c log := by
  simp [requestOrder, h]

theorem requestOrder_own {log : List Command} {cmd : Command} :
    requestOrder cmd.clientID (log ++ [cmd]) =
      if cmd.requestID ∈ requestOrder cmd.clientID log then requestOrder cmd.clientID log
      else requestOrder cmd.clientID log ++ [cmd.requestID] := by
  simp only [requestOrder, List.filter_append, List.map_append, List.eraseDups_append,
    List.mem_eraseDups]
  split
  · next h => simp [List.removeAll, h]
  · next h => simp [List.removeAll, h, List.eraseDups_cons]

theorem inOrder_concat {log : List Command} {cmd : Command} :
    InOrder (log ++ [cmd]) ↔
      InOrder log ∧ (Superseded log cmd → ∃ e ∈ log, SameRequest e cmd) := by
  have hsplit : InOrder (log ++ [cmd]) ↔ InOrder log ∧ (cmd.clientID ≠ 0 →
      cmd.requestID ∉ requestOrder cmd.clientID log →
      ∀ r ∈ requestOrder cmd.clientID log, r < cmd.requestID) := by
    constructor
    · intro h
      have hlog : InOrder log := by
        intro c hc
        have hp := h c hc
        by_cases hcc : cmd.clientID = c
        · subst hcc
          rw [requestOrder_own] at hp
          split at hp
          · exact hp
          · exact (List.pairwise_append.mp hp).1
        · rwa [requestOrder_other hcc] at hp
      refine ⟨hlog, fun hc hnew r hr => ?_⟩
      have hp := h _ hc
      rw [requestOrder_own, if_neg hnew] at hp
      exact (List.pairwise_append.mp hp).2.2 r hr _ (List.mem_singleton.mpr rfl)
    · rintro ⟨hlog, hcmd⟩ c hc
      by_cases hcc : cmd.clientID = c
      · subst hcc
        rw [requestOrder_own]
        split
        · exact hlog _ hc
        · next hnew =>
          refine List.pairwise_append.mpr ⟨hlog _ hc, List.pairwise_singleton _ _, ?_⟩
          intro r hr r' hr'
          rw [List.mem_singleton.mp hr']
          exact hcmd hc hnew r hr
      · rw [requestOrder_other hcc]
        exact hlog c hc
  simp only [hsplit, mem_requestOrder]
  refine and_congr_right fun _ => ⟨fun h hsup => ?_, fun h hc hnew r hr => ?_⟩
  · obtain ⟨hc, e, he, hec, hle⟩ := hsup
    by_contra hnone
    have hlt := h hc (fun ⟨e', he', hc', hr'⟩ => hnone ⟨e', he', hc', hr'⟩) e.requestID
      ⟨e, he, hec, rfl⟩
    omega
  · obtain ⟨e, he, hec, rfl⟩ := hr
    by_contra hle
    obtain ⟨e', he', hc', hr'⟩ := h ⟨hc, e, he, hec, by omega⟩
    exact hnew ⟨e', he', hc', hr'⟩

/-- Every superseded entry repeats an earlier request. -/
def RepeatsOnly (log : List Command) : Prop :=
  ∀ i cmd, log[i]? = some cmd → Superseded (log.take i) cmd →
    ∃ j < i, ∃ e, log[j]? = some e ∧ SameRequest e cmd

theorem repeatsOnly_concat {log : List Command} {cmd : Command} :
    RepeatsOnly (log ++ [cmd]) ↔
      RepeatsOnly log ∧ (Superseded log cmd → ∃ e ∈ log, SameRequest e cmd) := by
  have hold : ∀ {i : Nat}, i ≤ log.length → (log ++ [cmd]).take i = log.take i := fun hi =>
    List.take_append_of_le_length hi
  constructor
  · refine fun h => ⟨fun i c hi hsup => ?_, fun hsup => ?_⟩
    · have hlt := (List.getElem?_eq_some_iff.mp hi).1
      obtain ⟨j, hj, e, he, hsame⟩ := h i c (getElem?_append_of_some hi)
        (by rw [hold (by omega)]; exact hsup)
      rw [List.getElem?_append_left (by omega)] at he
      exact ⟨j, hj, e, he, hsame⟩
    · obtain ⟨j, hj, e, he, hsame⟩ := h log.length cmd (by simp) (by rw [hold (by omega)]; simpa)
      rw [List.getElem?_append_left hj] at he
      exact ⟨e, List.mem_of_getElem? he, hsame⟩
  · rintro ⟨hlog, hcmd⟩ i c hi hsup
    rcases getElem?_concat hi with hi | ⟨rfl, rfl⟩
    · have hlt := (List.getElem?_eq_some_iff.mp hi).1
      rw [hold (by omega)] at hsup
      obtain ⟨j, hj, e, he, hsame⟩ := hlog i c hi hsup
      exact ⟨j, hj, e, getElem?_append_of_some he, hsame⟩
    · rw [hold le_rfl, List.take_length] at hsup
      obtain ⟨e, he, hsame⟩ := hcmd hsup
      obtain ⟨j, hj⟩ := List.getElem?_of_mem he
      exact ⟨j, (List.getElem?_eq_some_iff.mp hj).1, e, getElem?_append_of_some hj, hsame⟩

theorem repeatsOnly_iff_inOrder (log : List Command) : RepeatsOnly log ↔ InOrder log := by
  induction log using List.reverseRecOn with
  | nil =>
    exact ⟨fun _ c _ => List.Pairwise.nil, fun _ i cmd hi => by simp at hi⟩
  | append_singleton log cmd ih => rw [repeatsOnly_concat, inOrder_concat, ih]

/-! ## Positions of applied entries -/

variable {β : Type} (codec : SnapshotCodec β)

/-- The result of the entry at position `i`: it carries the entry, and it is
marked duplicate exactly when the entry is superseded. -/
theorem appliedBy_spec {log : List LogEntry} {i : Nat} {a : Applied β}
    (h : (appliedBy codec log)[i]? = some a) :
    (log.map Prod.snd)[i]? = some a.cmd.toCommand ∧
    (a.cmd.isDuplicate = true ↔ Superseded ((log.map Prod.snd).take i) a.cmd.toCommand) := by
  have hi : i < log.length := by
    have := (List.getElem?_eq_some_iff.mp h).1
    rwa [appliedBy_length] at this
  obtain ⟨⟨env, cmd⟩, he⟩ : ∃ e, log[i]? = some e := ⟨_, List.getElem?_eq_getElem hi⟩
  rw [appliedBy_getElem codec he] at h
  cases h
  rw [KVService.handleCommand_cmd, KVService.applyCommand_toCommand,
    KVService.applyCommand_isDuplicate, ← List.map_take]
  exact ⟨by rw [List.getElem?_map, he]; rfl, isDuplicate_iff (tracks_stateAfter codec _) cmd⟩

theorem appliedAt_iff {log : List LogEntry} {cmd : Command} {i : Nat} :
    AppliedAt codec log cmd i ↔ ∃ e, (log.map Prod.snd)[i]? = some e ∧ SameRequest e cmd ∧
      ¬ Superseded ((log.map Prod.snd).take i) e := by
  constructor
  · rintro ⟨a, ha, hsame, hfresh⟩
    obtain ⟨he, hdup⟩ := appliedBy_spec codec ha
    exact ⟨_, he, hsame, fun hsup => by simp [hdup.mpr hsup] at hfresh⟩
  · rintro ⟨e, he, hsame, hsup⟩
    have hi : i < (appliedBy codec log).length := by
      have := (List.getElem?_eq_some_iff.mp he).1
      simpa using this
    have ha := List.getElem?_eq_getElem hi
    obtain ⟨he', hdup⟩ := appliedBy_spec codec ha
    rw [he] at he'
    cases he'
    exact ⟨_, ha, hsame, by simpa using mt hdup.mp hsup⟩

/-- The first entry of a request is applied when superseded entries repeat a
request. -/
theorem exists_appliedAt {log : List LogEntry} (h : RepeatsOnly (log.map Prod.snd)) (i : Nat) :
    ∀ cmd, (log.map Prod.snd)[i]? = some cmd → ∃ j ≤ i, AppliedAt codec log cmd j := by
  induction i using Nat.strong_induction_on with
  | _ i ih =>
    intro cmd hi
    by_cases hsup : Superseded ((log.map Prod.snd).take i) cmd
    · obtain ⟨j, hj, e, he, hsame⟩ := h i cmd hi hsup
      obtain ⟨k, hk, a, ha, hsame', hfresh⟩ := ih j hj e he
      exact ⟨k, by omega, a, ha, ⟨hsame'.1.trans hsame.1, hsame'.2.trans hsame.2⟩, hfresh⟩
    · exact ⟨i, le_rfl, (appliedAt_iff codec).mpr ⟨cmd, hi, ⟨rfl, rfl⟩, hsup⟩⟩

/-- An applied entry supersedes the later entries with its request. -/
theorem appliedAt_le {log : List LogEntry} {cmd : Command} (hc : cmd.clientID ≠ 0) {i j : Nat}
    (hi : AppliedAt codec log cmd i) (hj : AppliedAt codec log cmd j) : j ≤ i := by
  obtain ⟨e, he, hsame, _⟩ := (appliedAt_iff codec).mp hi
  obtain ⟨e', he', hsame', hsup⟩ := (appliedAt_iff codec).mp hj
  by_contra hlt
  refine hsup ⟨hsame'.1 ▸ hc, e, ?_, hsame.1.trans hsame'.1.symm, ?_⟩
  · apply List.mem_of_getElem? (i := i)
    rw [List.getElem?_take_of_lt (by omega)]
    exact he
  · rw [hsame.2, hsame'.2]

theorem fresh_applied_of_repeatsOnly {log : List LogEntry} (h : RepeatsOnly (log.map Prod.snd)) :
    NoFreshSuppressed codec log ∧ EachAppliedOnce codec log := by
  refine ⟨?_, ?_⟩
  · intro i a ha hdup
    obtain ⟨hcmd, hiff⟩ := appliedBy_spec codec ha
    obtain ⟨j, hj, e, he, hsame⟩ := h i _ hcmd (hiff.mp hdup)
    obtain ⟨k, hk, a', ha', hsame', hfresh⟩ := exists_appliedAt codec h j e he
    exact ⟨k, by omega, a', ha', ⟨hsame'.1.trans hsame.1, hsame'.2.trans hsame.2⟩, hfresh⟩
  · intro e he hc
    obtain ⟨i, hi⟩ := List.getElem?_of_mem (List.mem_map_of_mem he)
    obtain ⟨j, _, happ⟩ := exists_appliedAt codec h i _ hi
    exact ⟨j, happ, fun k hk => Nat.le_antisymm (appliedAt_le codec hc happ hk)
      (appliedAt_le codec hc hk happ)⟩

theorem repeatsOnly_of_noFreshSuppressed {log : List LogEntry}
    (h : NoFreshSuppressed codec log) : RepeatsOnly (log.map Prod.snd) := by
  intro i cmd hi hsup
  have hlen : i < (appliedBy codec log).length := by
    simpa using (List.getElem?_eq_some_iff.mp hi).1
  have ha := List.getElem?_eq_getElem hlen
  obtain ⟨hcmd, hdup⟩ := appliedBy_spec codec ha
  rw [hi] at hcmd
  cases hcmd
  obtain ⟨j, hj, happ⟩ := h i _ ha (hdup.mpr hsup)
  obtain ⟨e, he, hsame, _⟩ := (appliedAt_iff codec).mp happ
  exact ⟨j, hj, e, he, hsame⟩

end ClientOrderLemmas

open ClientOrderLemmas

/-- A log suppresses no fresh request, and applies every request in it exactly
once, if and only if the distinct requests of each client first enter it in
increasing order of their ids. -/
theorem fresh_applied_iff_inOrder {β : Type} (codec : SnapshotCodec β) (log : List LogEntry) :
    NoFreshSuppressed codec log ∧ EachAppliedOnce codec log ↔ InOrder (log.map Prod.snd) := by
  rw [← repeatsOnly_iff_inOrder]
  exact ⟨fun h => repeatsOnly_of_noFreshSuppressed codec h.1, fresh_applied_of_repeatsOnly codec⟩

/-! ## The clients -/

/-- The clients of one process and what reached the log. `clientCount` and the
`requestID` counters are the atomic counters of `kvclient.go`; `requests` holds
every request a call has built. -/
structure Clients where
  clientCount : Int
  requestID : GoMap Int Int
  requests : List Command
  log : List LogEntry

/-- Atomic steps. A request is sent again after each timeout, and a sent message
may be handled late, so it can land in the log any number of times and in any
order relative to other requests. -/
inductive ClientStep
  /-- `New`. -/
  | new
  /-- A call on the client: the counter is advanced and the request built. -/
  | call (client : Int) (cmd : Command)
  /-- The `k`-th request is committed, submitted by the given service. -/
  | land (k : Nat) (serviceID : Nat) (env : Env)
  /-- A lease-expiry entry of some service is committed. -/
  | expiry (leaseIDs : List Int) (env : Env)

/-- The clients and the log they fill. -/
def clients : Machine Clients ClientStep where
  init := { clientCount := 0, requestID := ∅, requests := [], log := [] }
  step s
    | .new =>
      some { s with
        clientCount := s.clientCount + 1
        requestID := s.requestID.insert (s.clientCount + 1) 0 }
    | .call client cmd =>
      match s.requestID.lookup client with
      | none => none
      | some n =>
        some { s with
          requestID := s.requestID.insert client (n + 1)
          requests := s.requests ++ [{ cmd with clientID := client, requestID := n + 1 }] }
    | .land k serviceID env =>
      match s.requests[k]? with
      | none => none
      | some cmd => some { s with log := s.log ++ [(env, { cmd with serviceID := serviceID })] }
    | .expiry leaseIDs env =>
      some { s with log := s.log ++ [(env, { kind := .leaseExpiry, leaseIDs := leaseIDs })] }

/-- Two concurrent calls of one client; the second one's request lands first. -/
def overtakingCalls : List ClientStep :=
  [.new, .call 1 { kind := .put, key := "a", value := "x" },
    .call 1 { kind := .put, key := "b", value := "y" },
    .land 1 0 (Env.at 0), .land 0 0 (Env.at 0)]

/-- The log that `overtakingCalls` leaves. -/
def overtakenLog : List LogEntry :=
  [(Env.at 0, { kind := .put, key := "b", value := "y", clientID := 1, requestID := 2 }),
    (Env.at 0, { kind := .put, key := "a", value := "x", clientID := 1, requestID := 1 })]

/-- The request that lands second is marked duplicate although no other entry
carries it, and its put is lost. -/
theorem later_call_lands_first :
    (∃ s, clients.Reachable s ∧ s.log = overtakenLog) ∧
    ¬ NoFreshSuppressed .plain overtakenLog ∧
    ((appliedBy .plain overtakenLog).map fun a => (a.cmd.requestID, a.cmd.isDuplicate)) =
      [(2, false), (1, true)] ∧
    (stateAfter .plain overtakenLog).ds.get "a" = ("", false) := by
  have hrun : clients.exec clients.init overtakingCalls = some _ := rfl
  refine ⟨⟨_, Machine.reachable_of_exec hrun, rfl⟩, fun h => ?_, by decide, by decide⟩
  obtain ⟨j, hj, a, ha, hsame, _⟩ := h 1 _ rfl (by decide)
  obtain rfl : j = 0 := by omega
  cases ha
  exact absurd hsame.2 (by decide)

/-- A client makes a call only when each of its earlier requests has landed. -/
def OneCallAtATime (s : Clients) : ClientStep → Prop
  | .call client _ => ∀ cmd ∈ s.requests, cmd.clientID = client →
      ∃ e ∈ s.log, SameRequest e.2 cmd
  | _ => True

namespace ClientOrderLemmas

/-- What holds while every client makes one call at a time. -/
structure Sequential (s : Clients) : Prop where
  counted : ∀ c n, s.requestID.lookup c = some n → c ≤ s.clientCount
  drawn : ∀ cmd ∈ s.requests, ∃ n, s.requestID.lookup cmd.clientID = some n ∧ cmd.requestID ≤ n
  landed : ∀ cmd ∈ s.requests, ∀ n, s.requestID.lookup cmd.clientID = some n →
    cmd.requestID < n → ∃ e ∈ s.log, SameRequest e.2 cmd
  sent : ∀ e ∈ s.log, e.2.clientID ≠ 0 → ∃ cmd ∈ s.requests, SameRequest e.2 cmd
  inOrder : InOrder (s.log.map Prod.snd)

theorem Sequential.new {s : Clients} (h : Sequential s) :
    Sequential { s with
      clientCount := s.clientCount + 1
      requestID := s.requestID.insert (s.clientCount + 1) 0 } := by
  -- a client with requests is one of the counted ones, so the new client has none
  have hne : ∀ cmd ∈ s.requests, cmd.clientID ≠ s.clientCount + 1 := by
    intro cmd hcmd heq
    obtain ⟨n, hn, _⟩ := h.drawn cmd hcmd
    have := h.counted _ n hn
    omega
  refine ⟨?_, ?_, ?_, h.sent, h.inOrder⟩
  · intro c n hn
    rw [Finmap.lookup_insert_ite] at hn
    split at hn
    · next heq => subst heq; exact le_rfl
    · have := h.counted c n hn
      show c ≤ s.clientCount + 1
      omega
  · intro cmd hcmd
    rw [Finmap.lookup_insert_of_ne _ (hne cmd hcmd)]
    exact h.drawn cmd hcmd
  · intro cmd hcmd n hn
    rw [Finmap.lookup_insert_of_ne _ (hne cmd hcmd)] at hn
    exact h.landed cmd hcmd n hn

theorem Sequential.call {s : Clients} (h : Sequential s) {client n : Int} {cmd : Command}
    (hn : s.requestID.lookup client = some n)
    (hguard : OneCallAtATime s (.call client cmd)) :
    Sequential { s with
      requestID := s.requestID.insert client (n + 1)
      requests := s.requests ++ [{ cmd with clientID := client, requestID := n + 1 }] } := by
  refine ⟨?_, ?_, ?_, ?_, h.inOrder⟩
  · intro c m hm
    rw [Finmap.lookup_insert_ite] at hm
    split at hm
    · next heq => subst heq; exact h.counted _ n hn
    · exact h.counted c m hm
  · intro e he
    rw [Finmap.lookup_insert_ite]
    rcases List.mem_append.mp he with he | he
    · obtain ⟨m, hm, hle⟩ := h.drawn e he
      split
      · next heq =>
        rw [heq, hn] at hm
        cases hm
        exact ⟨_, rfl, by omega⟩
      · exact ⟨m, hm, hle⟩
    · rw [List.mem_singleton.mp he]
      exact ⟨n + 1, if_pos rfl, le_rfl⟩
  · intro e he m hm hlt
    rw [Finmap.lookup_insert_ite] at hm
    rcases List.mem_append.mp he with he | he
    · split at hm
      · next heq => exact hguard e he heq
      · exact h.landed e he m hm hlt
    · rw [List.mem_singleton.mp he] at hm hlt
      rw [if_pos rfl] at hm
      cases hm
      exact absurd hlt (lt_irrefl _)
  · intro e he hc
    obtain ⟨e', he', hsame⟩ := h.sent e he hc
    exact ⟨e', List.mem_append_left _ he', hsame⟩

/-- The log grows by one entry, which a client has sent and which is not the first
landing of a request after a later one. -/
theorem Sequential.grow {s : Clients} (h : Sequential s) (env : Env) {e : Command}
    (hsent : e.clientID ≠ 0 → ∃ cmd ∈ s.requests, SameRequest e cmd)
    (hsup : Superseded (s.log.map Prod.snd) e → ∃ e' ∈ s.log.map Prod.snd, SameRequest e' e) :
    Sequential { s with log := s.log ++ [(env, e)] } := by
  refine ⟨h.counted, h.drawn, ?_, ?_, ?_⟩
  · intro cmd hcmd m hm hlt
    obtain ⟨e', he', hsame⟩ := h.landed cmd hcmd m hm hlt
    exact ⟨e', List.mem_append_left _ he', hsame⟩
  · intro e' he' hc
    rcases List.mem_append.mp he' with he' | he'
    · exact h.sent e' he' hc
    · rw [List.mem_singleton.mp he'] at hc ⊢
      exact hsent hc
  · rw [List.map_append]
    exact inOrder_concat.mpr ⟨h.inOrder, hsup⟩

theorem Sequential.land {s : Clients} (h : Sequential s) {cmd : Command} (hcmd : cmd ∈ s.requests)
    (serviceID : Nat) (env : Env) :
    Sequential { s with log := s.log ++ [(env, { cmd with serviceID := serviceID })] } := by
  refine h.grow env (fun _ => ⟨cmd, hcmd, rfl, rfl⟩) ?_
  rintro ⟨hc, e, he, hec, hle⟩
  -- a later request of the client is in the log, so this one has landed before
  obtain ⟨⟨env', e⟩, hmem, rfl⟩ := List.mem_map.mp he
  obtain ⟨cmd', hcmd', hsame⟩ := h.sent _ hmem (by rw [hec]; exact hc)
  obtain ⟨n, hn, hle'⟩ := h.drawn cmd' hcmd'
  have hclient : cmd'.clientID = cmd.clientID := hsame.1.symm.trans hec
  have hid : e.requestID = cmd'.requestID := hsame.2
  rcases lt_or_eq_of_le hle with hlt | heq
  · have hbelow : cmd.requestID < n := lt_of_lt_of_le hlt (hid ▸ hle')
    obtain ⟨e', he', hsame'⟩ := h.landed cmd hcmd n (hclient ▸ hn) hbelow
    exact ⟨e'.2, List.mem_map_of_mem he', hsame'⟩
  · exact ⟨e, List.mem_map_of_mem hmem, hec, heq.symm⟩

theorem Sequential.expiry {s : Clients} (h : Sequential s) (leaseIDs : List Int) (env : Env) :
    Sequential { s with
      log := s.log ++ [(env, { kind := .leaseExpiry, leaseIDs := leaseIDs })] } :=
  -- the command of the expiry loop has no client
  h.grow env (fun hc => absurd rfl hc) fun hsup => absurd rfl hsup.1

end ClientOrderLemmas

/-- Clients that make one call at a time fill the log in order. -/
theorem sequential_inOrder {s : Clients} (h : clients.ReachableBy OneCallAtATime s) :
    InOrder (s.log.map Prod.snd) := by
  refine Sequential.inOrder (h.invariant ?_ fun s a s' _ hinv hguard hstep => ?_)
  · exact ⟨fun c n hn => by simp [clients] at hn, fun _ he => absurd he List.not_mem_nil,
      fun _ he => absurd he List.not_mem_nil, fun _ he => absurd he List.not_mem_nil,
      fun _ _ => List.Pairwise.nil⟩
  · cases a with
    | new =>
      cases hstep
      exact hinv.new
    | call client cmd =>
      simp only [clients] at hstep
      split at hstep
      · cases hstep
      · next hn =>
        cases hstep
        exact hinv.call hn hguard
    | land k serviceID env =>
      simp only [clients] at hstep
      split at hstep
      · cases hstep
      · next hk =>
        cases hstep
        exact hinv.land (List.mem_of_getElem? hk) serviceID env
    | expiry leaseIDs env =>
      cases hstep
      exact hinv.expiry leaseIDs env

/-- For clients that make one call at a time, retries are all that is
suppressed. -/
theorem sequential_fresh_applied {β : Type} (codec : SnapshotCodec β) {s : Clients}
    (h : clients.ReachableBy OneCallAtATime s) :
    NoFreshSuppressed codec s.log ∧ EachAppliedOnce codec s.log :=
  fresh_applied_of_repeatsOnly codec ((repeatsOnly_iff_inOrder _).mpr (sequential_inOrder h))

end Zodiac
