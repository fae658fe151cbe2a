import Zodiac.Dedup
import Zodiac.Lib.Machine

/-!
# The apply loop

`runUpdater` merges two channels: committed entries and snapshots. A first
`select` takes a pending snapshot; when there is none, a second one takes
whichever comes. Entries carry their index, but the loop never compares it with
what a snapshot has already covered.

* `updater`: Raft handing over entries and snapshots, and the loop receiving
  them.
* `ReceivesInStep`: the condition on receives under which the merge is safe.
* `updater_in_step`: in every run that meets it, a drained updater is in the
  state of the entries handed over, each applied once.
* `expiry_applied_twice`: a lease-expiry entry that a snapshot overtakes.
-/

namespace Zodiac

variable {β : Type}

/-! ## The machine -/

/-- The updater and the channels it reads. Entries are given by their index in
the log. `next` is the next entry that Raft hands over; the entries below
`covered` have been handed over or are covered by a snapshot that has. `polled`
holds between the two selects of one round. -/
structure Updater (β : Type) where
  service : KVService
  commitChan : List Nat
  snapshotCh : List (Nat × β)
  next : Nat
  covered : Nat
  polled : Bool

/-- Atomic steps over a log of commands. -/
inductive UpdaterStep (codec : SnapshotCodec β) (log : List Command)
  /-- Raft hands over the next entry. -/
  | handEntry
  /-- Raft hands over a snapshot that some replica saved after the entries up to
  `index`. With `jump` it does not hand over the entries up to there any more. -/
  | handSnapshot (index : Nat) (t : KVService)
      (ht : (replicated codec).ReplicaAt log (index + 1) t) (env : Env) (jump : Bool)
  /-- The first select. -/
  | poll
  /-- The snapshot case of the second select. -/
  | receiveSnapshot
  /-- The entry case of the second select. -/
  | receiveEntry (env : Env)

/-- `handleSnapshot` on the head of the snapshot channel. -/
def Updater.restore (codec : SnapshotCodec β) (s : Updater β) : Option (Updater β) :=
  match s.snapshotCh with
  | [] => none
  | (index, data) :: rest =>
    some { s with
      service := s.service.handleSnapshot codec index data
      snapshotCh := rest
      polled := false }

/-- Raft and the apply loop. A snapshot at `index` is handed over before the
entry at `index + 1`. -/
def updater (codec : SnapshotCodec β) (log : List Command) :
    Machine (Updater β) (UpdaterStep codec log) where
  init := { service := .new, commitChan := [], snapshotCh := [], next := 0, covered := 0,
            polled := false }
  step s
    | .handEntry =>
      if s.next < log.length then
        some { s with
          commitChan := s.commitChan ++ [s.next]
          next := s.next + 1
          covered := max s.covered (s.next + 1) }
      else none
    | .handSnapshot index t _ env jump =>
      if s.next ≤ index + 1 then
        (t.encodeSnapshot codec env.snapshotKeys).map fun data =>
          { s with
            snapshotCh := s.snapshotCh ++ [(index, data)]
            next := if jump then index + 1 else s.next
            covered := max s.covered (index + 1) }
      else none
    | .poll =>
      match s.snapshotCh with
      | [] => some { s with polled := true }
      | _ :: _ => s.restore codec
    | .receiveSnapshot => if s.polled then s.restore codec else none
    | .receiveEntry env =>
      match s.polled, s.commitChan with
      | true, i :: rest =>
        match log[i]? with
        | none => none
        | some cmd =>
          some { s with
            service := (s.service.handleCommand codec env cmd i).1
            commitChan := rest
            polled := false }
      | _, _ => none

/-- Applying the command again to a state that already has its effect changes
nothing that is replicated: it is marked duplicate, or it writes nothing. -/
def Repeatable (cmd : Command) : Prop :=
  cmd.clientID ≠ 0 ∨ cmd.kind = .get ∨ cmd.kind = .list ∨ cmd.kind = .leaseKeepAlive

instance (cmd : Command) : Decidable (Repeatable cmd) := inferInstanceAs (Decidable (_ ∨ _))

/-- The condition on steps. Snapshots are handed over in index order. No entry is
received while a snapshot of entries before it is pending, and an entry that a
restored snapshot covers is received only if applying it again is harmless. -/
def ReceivesInStep {codec : SnapshotCodec β} {log : List Command} (s : Updater β) :
    UpdaterStep codec log → Prop
  | .handSnapshot index _ _ _ _ => s.covered ≤ index + 1
  | .receiveEntry _ => ∀ i ∈ s.commitChan.head?,
      (∀ snap ∈ s.snapshotCh, i ≤ snap.1) ∧
      (s.service.lastSnapshotIndex < i ∨ ∀ cmd ∈ log[i]?, Repeatable cmd)
  | _ => True

instance {codec : SnapshotCodec β} {log : List Command} (s : Updater β) :
    (a : UpdaterStep codec log) → Decidable (ReceivesInStep s a)
  | .handSnapshot _ _ _ _ _ => inferInstanceAs (Decidable (_ ≤ _))
  | .receiveEntry _ => inferInstanceAs (Decidable (∀ i ∈ s.commitChan.head?,
      (∀ snap ∈ s.snapshotCh, i ≤ snap.1) ∧
      (s.service.lastSnapshotIndex < i ∨ ∀ cmd ∈ log[i]?, Repeatable cmd)))
  | .handEntry | .poll | .receiveSnapshot => inferInstanceAs (Decidable True)

/-! ## Applying an entry again -/

namespace UpdaterLemmas

open ConvergenceLemmas DedupLemmas

variable (codec : SnapshotCodec β) {log : List Command}

theorem tracks_of_requests {s t : KVService} {before : List Command} (h : Tracks s before)
    (heq : t.lastRequestIDPerClient = s.lastRequestIDPerClient) : Tracks t before := by
  unfold Tracks
  rw [heq]
  exact h

theorem tracks_prefixState (e : Env) (n : Nat) :
    Tracks ((replicated codec).prefixState e log n) (log.take n) := by
  induction n with
  | zero => exact Tracks.new
  | succ n ih =>
    cases hn : log[n]? with
    | none =>
      have hlen := List.getElem?_eq_none_iff.mp hn
      have htake : log.take (n + 1) = log.take n := by
        rw [List.take_of_length_le hlen, List.take_of_length_le (by omega)]
      rw [ReplicatedMachine.prefixState, hn, htake]
      exact ih
    | some cmd =>
      rw [ReplicatedMachine.prefixState_succ hn, List.take_add_one, hn]
      exact ih.handleCommand codec e cmd n

theorem keepAliveLease_timeless (ds : DataStore) (now : Time) (id : Int) :
    (ds.keepAliveLease now id).1.timeless = ds.timeless := by
  unfold DataStore.keepAliveLease
  cases hl : ds.leases.lookup id with
  | none => rfl
  | some l =>
    have hleases : (ds.leases.insert id { l with expiresAt := now + durationOfSeconds l.ttl }).mapVal
        (fun _ l => l.timeless) = ds.leases.mapVal fun _ l => l.timeless := by
      refine Finmap.ext_lookup fun k => ?_
      rw [Finmap.lookup_mapVal, Finmap.lookup_mapVal, Finmap.lookup_insert_ite]
      split
      · next hk => rw [hk, hl]; rfl
      · rfl
    rw [DataStore.timeless, DataStore.timeless, hleases]

/-- An entry whose effect the state has changes nothing that is replicated, if it
is repeatable. -/
theorem applyCommand_again (env : Env) {s : KVService} {before : List Command} (h : Tracks s before)
    {cmd : Command} (hmem : cmd ∈ before) (hrep : Repeatable cmd) :
    Agree (s.applyCommand env cmd).1 s := by
  by_cases hc : cmd.clientID = 0
  · -- the request is not tracked, so the command must be one that writes nothing
    have hfresh : s.isDuplicate cmd = false := by
      have hiff := isDuplicate_iff h cmd
      cases hd : s.isDuplicate cmd with
      | false => rfl
      | true => exact absurd hc (hiff.mp hd).1
    have hreq : s.recordRequest cmd = s.lastRequestIDPerClient := by
      rw [KVService.recordRequest, if_neg (by simpa using hc)]
    rw [KVService.applyCommand_fresh hfresh]
    rcases hrep with hrep | hk | hk | hk
    · exact absurd hc hrep
    · exact ⟨by simp [KVService.execute, hk], hreq, by simp [KVService.nextRevision, hk, KVService.isMutation]⟩
    · exact ⟨by simp [KVService.execute, hk], hreq, by simp [KVService.nextRevision, hk, KVService.isMutation]⟩
    · exact ⟨by simp [KVService.execute, hk, keepAliveLease_timeless], hreq,
        by simp [KVService.nextRevision, hk, KVService.isMutation]⟩
  · have hdup := (isDuplicate_iff h cmd).mpr ⟨hc, cmd, hmem, rfl, le_rfl⟩
    rw [KVService.applyCommand_duplicate hdup]
    exact agree_equivalence.refl s

/-! ## The invariant -/

/-- The entry is pending or will be handed over. -/
def Upcoming (s : Updater β) (i : Nat) : Prop := i ∈ s.commitChan ∨ s.next ≤ i

/-- The snapshot restores the state after the entries up to its index. -/
def Restores (log : List Command) (e : Env) (snap : Nat × β) : Prop :=
  ∀ t : KVService, Agree (t.handleSnapshot codec snap.1 snap.2)
    ((replicated codec).prefixState e log (snap.1 + 1)) ∧
    (t.handleSnapshot codec snap.1 snap.2).lastSnapshotIndex = snap.1

/-- The service is in the state of the first `p` entries. What is missing is
upcoming, or was skipped because a pending snapshot covers it; what is upcoming
below `p` is covered by the last restored snapshot. -/
structure InStep (log : List Command) (e : Env) (s : Updater β) (p : Nat) : Prop where
  state : Agree s.service ((replicated codec).prefixState e log p)
  sorted : s.commitChan.Pairwise (· < ·)
  handed : ∀ i ∈ s.commitChan, i < s.next
  next_le : s.next ≤ s.covered
  le_covered : p ≤ s.covered
  snapsSorted : s.snapshotCh.Pairwise fun a b => a.1 ≤ b.1
  snaps : ∀ snap ∈ s.snapshotCh, p ≤ snap.1 + 1 ∧ snap.1 + 1 ≤ s.covered ∧ Restores codec log e snap
  missing : ∀ j, p ≤ j → Upcoming s j ∨
    ∃ snap ∈ s.snapshotCh, j ≤ snap.1 ∧ ∀ k, Upcoming s k → j < k → snap.1 < k
  ahead : ∀ j, p ≤ j → s.next ≤ j → j < s.covered → ∃ snap ∈ s.snapshotCh, j ≤ snap.1
  behind : ∀ i, Upcoming s i → i < p → i ≤ s.service.lastSnapshotIndex

variable {codec} {e : Env} {s : Updater β} {p : Nat}

theorem InStep.init : InStep codec log e (updater codec log).init 0 where
  state := agree_equivalence.refl _
  sorted := .nil
  handed _ h := absurd h List.not_mem_nil
  next_le := le_rfl
  le_covered := le_rfl
  snapsSorted := .nil
  snaps _ h := absurd h List.not_mem_nil
  missing j _ := .inl (.inr (Nat.zero_le j))
  ahead j _ _ h := absurd h (Nat.not_lt_zero j)
  behind i _ h := absurd h (Nat.not_lt_zero i)

theorem InStep.handEntry (h : InStep codec log e s p) :
    InStep codec log e { s with
      commitChan := s.commitChan ++ [s.next]
      next := s.next + 1
      covered := max s.covered (s.next + 1) } p := by
  -- the entry moves from the ones still to be handed over to the pending ones
  have hup : ∀ i, Upcoming { s with
      commitChan := s.commitChan ++ [s.next]
      next := s.next + 1
      covered := max s.covered (s.next + 1) } i ↔ Upcoming s i := by
    intro i
    simp only [Upcoming, List.mem_append, List.mem_singleton]
    constructor
    · rintro ((hi | rfl) | hi)
      · exact .inl hi
      · exact .inr le_rfl
      · exact .inr (Nat.le_of_succ_le hi)
    · rintro (hi | hi)
      · exact .inl (.inl hi)
      · rcases Nat.eq_or_lt_of_le hi with heq | hlt
        · exact .inl (.inr heq.symm)
        · exact .inr hlt
  refine ⟨h.state, ?_, ?_, le_max_right _ _, le_max_of_le_left h.le_covered, h.snapsSorted, ?_,
    ?_, ?_, ?_⟩
  · refine List.pairwise_append.mpr ⟨h.sorted, List.pairwise_singleton _ _, fun i hi j hj => ?_⟩
    rw [List.mem_singleton.mp hj]
    exact h.handed i hi
  · intro i hi
    rcases List.mem_append.mp hi with hi | hi
    · exact Nat.lt_succ_of_lt (h.handed i hi)
    · rw [List.mem_singleton.mp hi]
      exact Nat.lt_succ_self _
  · intro snap hsnap
    obtain ⟨hle, hcov, hres⟩ := h.snaps snap hsnap
    exact ⟨hle, le_max_of_le_left hcov, hres⟩
  · intro j hj
    simp only [hup]
    exact h.missing j hj
  · intro j hj hnext hcov
    have hnext : s.next + 1 ≤ j := hnext
    have hcov : j < max s.covered (s.next + 1) := hcov
    exact h.ahead j hj (by omega) (by omega)
  · intro i hi
    exact h.behind i ((hup i).mp hi)

theorem InStep.handSnapshot (h : InStep codec log e s p) {index : Nat} {data : β} (jump : Bool)
    (hnext : s.next ≤ index + 1) (hcov : s.covered ≤ index + 1)
    (hres : Restores codec log e (index, data)) :
    InStep codec log e { s with
      snapshotCh := s.snapshotCh ++ [(index, data)]
      next := if jump then index + 1 else s.next
      covered := max s.covered (index + 1) } p := by
  have hgrow : s.next ≤ if jump then index + 1 else s.next := by split <;> omega
  have hup : ∀ {i}, Upcoming { s with
      snapshotCh := s.snapshotCh ++ [(index, data)]
      next := if jump then index + 1 else s.next
      covered := max s.covered (index + 1) } i → Upcoming s i := fun hi =>
    hi.imp id fun hle => le_trans hgrow hle
  refine ⟨h.state, h.sorted, fun i hi => lt_of_lt_of_le (h.handed i hi) hgrow, ?_,
    le_max_of_le_left h.le_covered, ?_, ?_, ?_,
    fun j _ _ hlt => ⟨_, List.mem_append_right _ (List.mem_singleton.mpr rfl), ?_⟩,
    fun i hi => h.behind i (hup hi)⟩
  · show (if jump then index + 1 else s.next) ≤ max s.covered (index + 1)
    have := h.next_le
    split <;> omega
  · refine List.pairwise_append.mpr ⟨h.snapsSorted, List.pairwise_singleton _ _, fun a ha b hb => ?_⟩
    have := (h.snaps a ha).2.1
    rw [List.mem_singleton.mp hb]
    show a.1 ≤ index
    omega
  · intro snap hsnap
    rcases List.mem_append.mp hsnap with hsnap | hsnap
    · obtain ⟨hle, hcov, hres⟩ := h.snaps snap hsnap
      exact ⟨hle, le_max_of_le_left hcov, hres⟩
    · rw [List.mem_singleton.mp hsnap]
      exact ⟨le_trans h.le_covered hcov, le_max_right _ _, hres⟩
  · intro j hj
    rcases h.missing j hj with (hmem | hle) | ⟨snap, hsnap, hj, hlater⟩
    · exact .inl (.inl hmem)
    · -- not handed over yet: either it still will be, or this snapshot skips it
      by_cases hstill : (if jump then index + 1 else s.next) ≤ j
      · exact .inl (.inr hstill)
      · have hjump : jump = true := by
          by_contra hno
          rw [if_neg hno] at hstill
          exact hstill hle
        rw [if_pos hjump] at hstill
        refine .inr ⟨_, List.mem_append_right _ (List.mem_singleton.mpr rfl), by show j ≤ index; omega, ?_⟩
        rintro k (hk | hk) hjk
        · have := h.handed k hk
          omega
        · simp only [if_pos hjump] at hk
          exact hk
    · exact .inr ⟨snap, List.mem_append_left _ hsnap, hj, fun k hk => hlater k (hup hk)⟩
  · have hlt : j < max s.covered (index + 1) := hlt
    show j ≤ index
    omega

/-- Receiving a snapshot moves the position to behind its index. -/
theorem InStep.restore (h : InStep codec log e s p) {index : Nat} {data : β}
    {rest : List (Nat × β)} (hch : s.snapshotCh = (index, data) :: rest) :
    InStep codec log e { s with
      service := s.service.handleSnapshot codec index data
      snapshotCh := rest
      polled := false } (index + 1) := by
  have hsub : ∀ snap ∈ rest, snap ∈ s.snapshotCh := by
    intro snap hsnap
    rw [hch]
    exact List.mem_cons_of_mem _ hsnap
  obtain ⟨hp, hcov, hres⟩ := h.snaps (index, data) (by rw [hch]; exact List.mem_cons_self)
  have hsorted := h.snapsSorted
  rw [hch, List.pairwise_cons] at hsorted
  -- a pending snapshot that reaches beyond the index is not the received one
  have hlater : ∀ {j snap}, index + 1 ≤ j → snap ∈ s.snapshotCh → j ≤ snap.1 → snap ∈ rest := by
    intro j snap hj hsnap hle
    rw [hch] at hsnap
    rcases List.mem_cons.mp hsnap with rfl | hsnap
    · exact absurd (le_trans hj hle) (Nat.not_succ_le_self index)
    · exact hsnap
  refine ⟨(hres s.service).1, h.sorted, h.handed, h.next_le, hcov, hsorted.2, ?_, ?_, ?_, ?_⟩
  · intro snap hsnap
    obtain ⟨_, hcov', hres'⟩ := h.snaps snap (hsub snap hsnap)
    exact ⟨Nat.succ_le_succ (hsorted.1 snap hsnap), hcov', hres'⟩
  · intro j hj
    rcases h.missing j (le_trans hp hj) with hup | ⟨snap, hsnap, hle, hk⟩
    · exact .inl hup
    · exact .inr ⟨snap, hlater hj hsnap hle, hle, hk⟩
  · intro j hj hnext hlt
    obtain ⟨snap, hsnap, hle⟩ := h.ahead j (le_trans hp hj) hnext hlt
    exact ⟨snap, hlater hj hsnap hle, hle⟩
  · intro i _ hi
    show (i : Int) ≤ (s.service.handleSnapshot codec index data).lastSnapshotIndex
    rw [(hres s.service).2]
    exact Int.ofNat_le.mpr (Nat.le_of_lt_succ hi)

/-- The next entry is never beyond the position: a gap below it would be one that
a pending snapshot covers. -/
theorem InStep.head_le (h : InStep codec log e s p) {i : Nat} {rest : List Nat}
    (hch : s.commitChan = i :: rest) (hsnaps : ∀ snap ∈ s.snapshotCh, i ≤ snap.1) : i ≤ p := by
  by_contra hlt
  have hi : i < s.next := h.handed i (by rw [hch]; exact List.mem_cons_self)
  have hsorted := h.sorted
  rw [hch, List.pairwise_cons] at hsorted
  rcases h.missing p le_rfl with (hmem | hle) | ⟨snap, hsnap, _, hk⟩
  · rw [hch] at hmem
    rcases List.mem_cons.mp hmem with heq | hmem
    · omega
    · have := hsorted.1 p hmem
      omega
  · omega
  · have hbelow := hk i (.inl (by rw [hch]; exact List.mem_cons_self)) (by omega)
    have habove := hsnaps snap hsnap
    omega

/-- What taking the head off the entry channel leaves upcoming. -/
theorem upcoming_tail {i j : Nat} {rest : List Nat} (hch : s.commitChan = i :: rest) (hj : i < j) :
    Upcoming s j ↔ j ∈ rest ∨ s.next ≤ j := by
  unfold Upcoming
  rw [hch, List.mem_cons]
  refine or_congr_left ⟨fun hmem => hmem.resolve_left (Nat.ne_of_gt hj), .inr⟩

theorem handleCommand_covered (env : Env) (t : KVService) (cmd : Command) {index : Int}
    (h : index ≤ t.lastSnapshotIndex) :
    (t.handleCommand codec env cmd index).1.lastSnapshotIndex = t.lastSnapshotIndex := by
  have hlast := KVService.applyCommand_lastSnapshotIndex env t cmd
  simp only [KVService.handleCommand]
  split
  · rw [KVService.maybeSnapshot, if_pos (by rw [hlast]; unfold snapshotThreshold; omega)]
    exact hlast
  · exact hlast

/-- Receiving the entry `i` and going on in the state `t` of the first `q`
entries. -/
theorem InStep.pop (h : InStep codec log e s p) {i q : Nat} {rest : List Nat} {t : KVService}
    (hch : s.commitChan = i :: rest) (hp : p ≤ q) (hi : i < q) (hcov : q ≤ s.covered)
    (hstate : Agree t ((replicated codec).prefixState e log q))
    (hsnaps : ∀ snap ∈ s.snapshotCh, q ≤ snap.1 + 1)
    (hbehind : ∀ k, k ∈ rest ∨ s.next ≤ k → k < q → k ≤ t.lastSnapshotIndex) :
    InStep codec log e { s with service := t, commitChan := rest, polled := false } q := by
  have hsorted := h.sorted
  rw [hch, List.pairwise_cons] at hsorted
  refine ⟨hstate, hsorted.2,
    fun k hk => h.handed k (by rw [hch]; exact List.mem_cons_of_mem _ hk), h.next_le, hcov,
    h.snapsSorted, ?_, ?_, fun j hj => h.ahead j (le_trans hp hj), hbehind⟩
  · intro snap hsnap
    exact ⟨hsnaps snap hsnap, (h.snaps snap hsnap).2⟩
  · intro j hj
    have hij : i < j := lt_of_lt_of_le hi hj
    rcases h.missing j (le_trans hp hj) with hup | ⟨snap, hsnap, hle, hk⟩
    · exact .inl ((upcoming_tail hch hij).mp hup)
    · exact .inr ⟨snap, hsnap, hle, fun k hup hjk =>
        hk k ((upcoming_tail hch (lt_trans hij hjk)).mpr hup) hjk⟩

/-- Receiving an entry: it is the one at the position, or an old one whose effect
the state has. -/
theorem InStep.receiveEntry (h : InStep codec log e s p) {i : Nat} {rest : List Nat}
    (hch : s.commitChan = i :: rest) {cmd : Command} (hcmd : log[i]? = some cmd) (env : Env)
    (hsnaps : ∀ snap ∈ s.snapshotCh, i ≤ snap.1)
    (hrep : s.service.lastSnapshotIndex < i ∨ Repeatable cmd) :
    ∃ q, InStep codec log e { s with
      service := (s.service.handleCommand codec env cmd i).1
      commitChan := rest
      polled := false } q := by
  have hhead : i < s.next := h.handed i (by rw [hch]; exact List.mem_cons_self)
  have hagree := handleCommand_agree codec env s.service cmd i
  rcases Nat.eq_or_lt_of_le (h.head_le hch hsnaps) with rfl | hlt
  · refine ⟨i + 1, h.pop hch (Nat.le_succ i) (Nat.lt_succ_self i)
      (le_trans hhead h.next_le) ?_ (fun snap hsnap => Nat.succ_le_succ (hsnaps snap hsnap)) ?_⟩
    · rw [ReplicatedMachine.prefixState_succ hcmd]
      exact (deterministic_replicated codec).state env e i i cmd h.state
    · have hsorted := h.sorted
      rw [hch, List.pairwise_cons] at hsorted
      rintro k (hk | hk) hlt
      · have := hsorted.1 k hk
        omega
      · omega
  · have hbehind := h.behind i (.inl (by rw [hch]; exact List.mem_cons_self)) hlt
    have htracks : Tracks s.service (log.take p) :=
      tracks_of_requests (tracks_prefixState codec e p) h.state.requests
    have hmem : cmd ∈ log.take p := by
      apply List.mem_of_getElem? (i := i)
      rw [List.getElem?_take_of_lt hlt]
      exact hcmd
    have hsame := applyCommand_again env htracks hmem (hrep.resolve_left (by omega))
    refine ⟨p, h.pop hch le_rfl hlt h.le_covered ?_ (fun snap hsnap => (h.snaps snap hsnap).1) ?_⟩
    · exact agree_equivalence.trans hagree (agree_equivalence.trans hsame h.state)
    · intro k hk hkp
      rw [handleCommand_covered env s.service cmd hbehind]
      exact h.behind k (hk.imp_left fun hk => by rw [hch]; exact List.mem_cons_of_mem _ hk) hkp

theorem InStep.restore_step (h : InStep codec log e s p) {s' : Updater β}
    (hstep : s.restore codec = some s') : ∃ q, InStep codec log e s' q := by
  unfold Updater.restore at hstep
  split at hstep
  · cases hstep
  · next index data rest hch =>
    cases hstep
    exact ⟨index + 1, h.restore hch⟩

theorem InStep.step (h : InStep codec log e s p) {a : UpdaterStep codec log} {s' : Updater β}
    (hguard : ReceivesInStep s a) (hstep : (updater codec log).step s a = some s') :
    ∃ q, InStep codec log e s' q := by
  cases a with
  | handEntry =>
    simp only [updater] at hstep
    split at hstep
    · cases hstep
      exact ⟨p, h.handEntry⟩
    · cases hstep
  | handSnapshot index t ht env jump =>
    simp only [updater] at hstep
    split at hstep
    · next hnext =>
      obtain ⟨data, hdata, rfl⟩ := Option.map_eq_some_iff.mp hstep
      refine ⟨p, h.handSnapshot jump hnext hguard fun r => ⟨?_, ?_⟩⟩
      · exact agree_equivalence.trans (handleSnapshot_agree codec r index hdata)
          (ht.agree_prefixState (deterministic_replicated codec) e)
      · unfold KVService.handleSnapshot
        rw [codec.decode_encode hdata]
    · cases hstep
  | poll =>
    simp only [updater] at hstep
    split at hstep
    · cases hstep
      exact ⟨p, ⟨h.state, h.sorted, h.handed, h.next_le, h.le_covered, h.snapsSorted, h.snaps,
        h.missing, h.ahead, h.behind⟩⟩
    · exact h.restore_step hstep
  | receiveSnapshot =>
    simp only [updater] at hstep
    split at hstep
    · exact h.restore_step hstep
    · cases hstep
  | receiveEntry env =>
    simp only [updater] at hstep
    split at hstep
    · next i rest _ hch =>
      split at hstep
      · cases hstep
      · next cmd hcmd =>
        cases hstep
        obtain ⟨hsnaps, hrep⟩ := hguard i (by rw [hch]; rfl)
        exact h.receiveEntry hch hcmd env hsnaps (hrep.imp_right fun hr => hr cmd hcmd)
    · cases hstep

end UpdaterLemmas

open UpdaterLemmas

/-- In every run of the apply loop that meets the condition on receives, an
updater that has received everything handed over agrees with a replica that
applies the entries handed over or covered so far once each in order: on the
data, the leases up to expiry times, the dedup table and the revision. -/
theorem updater_in_step (codec : SnapshotCodec β) (log : List Command) {s : Updater β}
    (h : (updater codec log).ReachableBy ReceivesInStep s) (hentries : s.commitChan = [])
    (hsnaps : s.snapshotCh = []) (e : Env) :
    Agree s.service ((replicated codec).prefixState e log s.covered) := by
  obtain ⟨p, hinv⟩ : ∃ p, InStep codec log e s p :=
    h.invariant (I := fun s => ∃ p, InStep codec log e s p) ⟨0, InStep.init⟩
      fun _ _ _ _ ⟨_, hinv⟩ hguard hstep => hinv.step hguard hstep
  have hnone : ∀ {snap}, snap ∉ s.snapshotCh := by
    intro snap hsnap
    rw [hsnaps] at hsnap
    cases hsnap
  -- nothing is pending, so nothing below `covered` is missing
  have hall : p = s.covered := by
    refine Nat.le_antisymm hinv.le_covered (Nat.le_of_not_lt fun hlt => ?_)
    rcases hinv.missing p le_rfl with (hmem | hle) | ⟨snap, hsnap, _⟩
    · rw [hentries] at hmem
      cases hmem
    · obtain ⟨snap, hsnap, _⟩ := hinv.ahead p le_rfl hle hlt
      exact hnone hsnap
    · exact hnone hsnap
  exact hall ▸ hinv.state

/-- The snapshot of a replica that has applied one entry. -/
theorem replicaAt_one (cmd : Command) (rest : List Command) :
    (replicated .plain).ReplicaAt (cmd :: rest) 1
      (KVService.new.handleCommand .plain (Env.at 0) cmd 0).1 :=
  ReplicatedMachine.ReplicaAt.init.apply (Env.at 0) rfl

/-- Entry 0 and the snapshot after it are handed over; the loop takes the
snapshot first and then the entry. -/
def overtakenEntry (cmd : Command) (rest : List Command) :
    List (UpdaterStep .plain (cmd :: rest)) :=
  [.handEntry, .handSnapshot 0 _ (replicaAt_one cmd rest) (Env.at 0) true, .poll, .poll,
    .receiveEntry (Env.at 0)]

def firstPut : Command := { kind := .put, key := "a", value := "x", clientID := 1, requestID := 1 }

def secondPut : Command := { kind := .put, key := "a", value := "y", clientID := 1, requestID := 2 }

/-- A snapshot overtakes the first put, which the dedup table then suppresses. -/
theorem updater_in_step_overtaken :
    ∃ s, (updater .plain [firstPut, secondPut]).ReachableBy ReceivesInStep s ∧ s.covered = 2 ∧
      Agree s.service ((replicated .plain).prefixState (Env.at 0) [firstPut, secondPut] 2) := by
  obtain ⟨s, hreach, hs⟩ := Machine.exists_reachableBy (M := updater .plain [firstPut, secondPut])
    (G := ReceivesInStep)
    (overtakenEntry firstPut [secondPut] ++ [.handEntry, .poll, .receiveEntry (Env.at 0)])
    (fun s => (s.commitChan, s.snapshotCh.length, s.covered)) (x := ([], 0, 2)) (by decide)
  simp only [Prod.mk.injEq, List.length_eq_zero_iff] at hs
  obtain ⟨hentries, hsnaps, hcovered⟩ := hs
  have hagree := updater_in_step .plain [firstPut, secondPut] hreach hentries hsnaps (Env.at 0)
  rw [hcovered] at hagree
  exact ⟨s, hreach, hcovered, hagree⟩

/-- A lease-expiry command, as the expiry loop submits it. -/
def expiryCommand : Command := { kind := .leaseExpiry, leaseIDs := [1] }

/-- A lease-expiry entry has no client id, so the dedup table does not stop it: an
updater that takes the snapshot first applies the entry twice and ends with
revision 2, where the entry applied once gives revision 1. -/
theorem expiry_applied_twice :
    (∃ s, (updater .plain [expiryCommand]).Reachable s ∧ s.commitChan = [] ∧ s.snapshotCh = [] ∧
      s.covered = 1 ∧ s.service.currentRevision = 2) ∧
    ((replicated .plain).prefixState (Env.at 0) [expiryCommand] 1).currentRevision = 1 := by
  obtain ⟨s, hreach, hs⟩ := Machine.exists_reachableBy (M := updater .plain [expiryCommand])
    (G := fun _ _ => True) (overtakenEntry expiryCommand [])
    (fun s => (s.commitChan, s.snapshotCh.length, s.covered, s.service.currentRevision))
    (x := ([], 0, 1, 2)) (by decide)
  simp only [Prod.mk.injEq, List.length_eq_zero_iff] at hs
  exact ⟨⟨s, hreach, hs⟩, by decide⟩

end Zodiac
