import Zodiac.ClientGuarantees
import Zodiac.ClusterReplicas
import Zodiac.LeaseTime
import Zodiac.Origin
import Zodiac.SpecRefinement

/-!
# Why a lease was expired

Deadlines are not replicated: every node computes its own when it applies a grant or a
keepalive, on its own clock, and a snapshot brings along those of another node. The loop of
`startLeaseExpiryLoop` runs on every node, and its entry may be committed long after the tick,
by another leader. Here the run is watched: who applied which entry when, and who ticked when.

* `RenewedAt`, `TermAt`: the last entry that gave a lease its term, among those a node has applied.
* `leaseNotes_of_reachable`: every deadline on every node is a TTL after some node applied that
  entry, wherever the deadline was restored from.
* `expiry_justified`: whatever an expiry loop had committed, the node that ticked had applied
  no renewal of the lease for longer than the TTL, if a `time.Duration` has room for the TTL.
-/

namespace Zodiac

open ClientGuaranteeLemmas LeaseExpiryLemmas SpecRefinementLemmas SpecRunLemmas

/-! ## Definitions -/

/-- What is noted of a run, with the time on the clock of node `n`. -/
inductive LeaseEvent
  /-- Node `n` applies entry `i`. -/
  | applied (n i : Nat) (now : Time)
  /-- The expiry loop of node `n` ticks, when the node has applied `a` entries. -/
  | ticked (n a : Nat) (now : Time)
deriving DecidableEq

/-- What a step adds to the notes. -/
def leaseSeen (s : Cluster) : ClusterStep → List LeaseEvent
  | .apply n env => [.applied n (s.nodes n).applied env.now]
  | .expire n now _ => [.ticked n (s.nodes n).applied now]
  | _ => []

/-- The cluster with the notes of its run. -/
def timedCluster {β : Type} (codec : SnapshotCodec β) :
    Machine (Cluster × List LeaseEvent) ClusterStep :=
  (cluster codec).observed leaseSeen

/-- The command gives lease `id` a new term: it grants the lease or keeps it alive, and it is
no repetition. -/
def KVSpec.Renews (sp : KVSpec) (cmd : Command) (id : Int) : Prop :=
  sp.repeats cmd = false ∧ (cmd.kind = .leaseGrant ∧ sp.store.issued + 1 = id ∨
    cmd.kind = .leaseKeepAlive ∧ cmd.leaseID = id)

/-- Entry `i` of the log gives lease `id` a new term. -/
def RenewedAt (log : List LogItem) (id : Int) (i : Nat) : Prop :=
  ∃ e, log[i]? = some (.command e) ∧ (KVSpec.after (commandsOf (log.take i))).Renews e.cmd id

/-- Entry `i` of the log grants lease `id` for `ttl` seconds. -/
def GrantedFor (log : List LogItem) (id ttl : Int) (i : Nat) : Prop :=
  ∃ e, log[i]? = some (.command e) ∧
    (KVSpec.after (commandsOf (log.take i))).Renews e.cmd id ∧
    e.cmd.kind = .leaseGrant ∧ e.cmd.leaseTTL = ttl

/-- Of the first `a` entries, `j` is the last one that gives lease `id` a new term, the lease
was granted for `ttl` seconds, and some node has applied entry `j` at time `t`. -/
structure TermAt (log : List LogItem) (H : List LeaseEvent) (a : Nat) (id ttl : Int) (j : Nat)
    (t : Time) : Prop where
  granted : ∃ g ≤ j, GrantedFor log id ttl g
  renews : RenewedAt log id j
  lt : j < a
  last : ∀ {k}, j < k → k < a → ¬ RenewedAt log id k
  applied : ∃ m, .applied m j t ∈ H

/-- For a node that has applied the first `a` entries, more than the TTL has passed at time
`now` since the lease got its last term. -/
def Over (log : List LogItem) (H : List LeaseEvent) (a : Nat) (now : Time) (id : Int) : Prop :=
  ∃ ttl j t, TermAt log H a id ttl j t ∧ t + ttl * 1000000000 < now

namespace LeaseSafetyLemmas

variable {β : Type} {codec : SnapshotCodec β} {s s' : Cluster} {b : ClusterStep}
  {H H' : List LeaseEvent} {log log' : List LogItem} {id ttl : Int} {a i j : Nat} {t : Time}

/-! ## Longer logs and more notes -/

theorem renewedAt_mono (h : log <+: log') (hi : i < log.length) :
    RenewedAt log' id i ↔ RenewedAt log id i := by
  obtain ⟨rest, rfl⟩ := h
  rw [RenewedAt, RenewedAt, List.getElem?_append_left hi,
    List.take_append_of_le_length (Nat.le_of_lt hi)]

theorem grantedFor_mono (h : log <+: log') (hi : GrantedFor log id ttl i) :
    GrantedFor log' id ttl i := by
  obtain ⟨e, he, hrest⟩ := hi
  have hlt := (List.getElem?_eq_some_iff.mp he).1
  obtain ⟨rest, rfl⟩ := h
  rw [GrantedFor, List.getElem?_append_left hlt, List.take_append_of_le_length (Nat.le_of_lt hlt)]
  exact ⟨e, he, hrest⟩

theorem termAt_mono (h : TermAt log H a id ttl j t) (hlog : log <+: log') (ha : a ≤ log.length)
    (hH : H ⊆ H') : TermAt log' H' a id ttl j t where
  granted := by
    obtain ⟨g, hg, hgrants⟩ := h.granted
    exact ⟨g, hg, grantedFor_mono hlog hgrants⟩
  renews := (renewedAt_mono hlog (lt_of_lt_of_le h.lt ha)).mpr h.renews
  lt := h.lt
  last hjk hka := by
    rw [renewedAt_mono hlog (lt_of_lt_of_le hka ha)]
    exact h.last hjk hka
  applied := by
    obtain ⟨m, hm⟩ := h.applied
    exact ⟨m, hH hm⟩

/-- The deadline of the lease is past, as the node reckons it. -/
def PastDeadline (log : List LogItem) (H : List LeaseEvent) (a : Nat) (now : Time) (id : Int) :
    Prop :=
  ∃ ttl j t, TermAt log H a id ttl j t ∧ t + durationOfSeconds ttl < now

theorem pastDeadline_mono {now : Time} (h : PastDeadline log H a now id) (hlog : log <+: log')
    (ha : a ≤ log.length) : PastDeadline log' H a now id := by
  obtain ⟨ttl, j, t, hterm, hlt⟩ := h
  exact ⟨ttl, j, t, termAt_mono hterm hlog ha (List.Subset.refl H), hlt⟩

/-- Only the deadline of a TTL that overflows comes before the end of the term. -/
theorem over_of_pastDeadline {now : Time} (h : PastDeadline log H a now id)
    (hfits : ∀ ttl g, GrantedFor log id ttl g → ttl * 1000000000 ≤ maxDuration) :
    Over log H a now id := by
  obtain ⟨ttl, j, t, hterm, hlt⟩ := h
  obtain ⟨g, -, hgranted⟩ := hterm.granted
  refine ⟨ttl, j, t, hterm, lt_of_le_of_lt ?_ hlt⟩
  exact Int.add_le_add_left (le_durationOfSeconds (hfits ttl g hgranted)) t

/-! ## The terms after one command -/

/-- How a lease that is there after a command came to its term. -/
inductive TermStep (env : Env) (s : KVService) (cmd : Command) (id : Int) (l' : Lease) : Prop
  | kept (l : Lease) (hl : s.ds.leases.lookup id = some l) (httl : l'.ttl = l.ttl)
      (hexp : l'.expiresAt = l.expiresAt) (hnot : ¬ s.spec.Renews cmd id)
  | granted (hrenews : s.spec.Renews cmd id) (hkind : cmd.kind = .leaseGrant)
      (httl : l'.ttl = cmd.leaseTTL) (hexp : l'.expiresAt = env.now + durationOfSeconds l'.ttl)
  | renewed (l : Lease) (hl : s.ds.leases.lookup id = some l) (httl : l'.ttl = l.ttl)
      (hrenews : s.spec.Renews cmd id) (hexp : l'.expiresAt = env.now + durationOfSeconds l'.ttl)

/-- Commands that neither grant leases nor keep them alive. -/
theorem termsKept_execute (env : Env) (ds : DataStore) {cmd : Command}
    (hgrant : cmd.kind ≠ .leaseGrant) (hkeep : cmd.kind ≠ .leaseKeepAlive) :
    TermsKept ds (KVService.execute env ds cmd).1 :=
  KVService.execute_ds_of (fun _ _ hmoves => .moves hmoves) (fun h => absurd h hgrant)
    (fun h => absurd h hkeep) (fun _ => .revoke ds _ _) fun _ => .expireLeases _ _ ds _

theorem termStep_grant (env : Env) (s : KVService) {cmd : Command} {l' : Lease}
    (hkind : cmd.kind = .leaseGrant) (hfresh : s.spec.repeats cmd = false)
    (hl' : (s.ds.grantLease env.now cmd.leaseTTL).1.leases.lookup id = some l') :
    TermStep env s cmd id l' := by
  simp only [DataStore.grantLease, Finmap.lookup_insert_ite] at hl'
  split at hl'
  · next hid =>
    cases hl'
    exact .granted ⟨hfresh, .inl ⟨hkind, hid.symm⟩⟩ hkind rfl rfl
  · next hid =>
    refine .kept l' hl' rfl rfl ?_
    rintro ⟨-, ⟨-, hid'⟩ | ⟨hkind', -⟩⟩
    · exact hid hid'.symm
    · exact absurd (hkind.symm.trans hkind') (by decide)

theorem termStep_keepAlive (env : Env) (s : KVService) {cmd : Command} {l' : Lease}
    (hkind : cmd.kind = .leaseKeepAlive) (hfresh : s.spec.repeats cmd = false)
    (hl' : (s.ds.keepAliveLease env.now cmd.leaseID).1.leases.lookup id = some l') :
    TermStep env s cmd id l' := by
  have hother : id ≠ cmd.leaseID → ¬ s.spec.Renews cmd id := by
    rintro hne ⟨-, ⟨hkind', -⟩ | ⟨-, hid⟩⟩
    · exact absurd (hkind.symm.trans hkind') (by decide)
    · exact hne hid.symm
  unfold DataStore.keepAliveLease at hl'
  cases hl : s.ds.leases.lookup cmd.leaseID with
  | none =>
    rw [hl] at hl'
    refine .kept l' hl' rfl rfl (hother ?_)
    rintro rfl
    exact Option.some_ne_none l' (hl'.symm.trans hl)
  | some l =>
    simp only [hl, Finmap.lookup_insert_ite] at hl'
    split at hl'
    · next hid =>
      cases hl'
      subst hid
      exact .renewed l hl rfl ⟨hfresh, .inr ⟨hkind, rfl⟩⟩ rfl
    · next hid => exact .kept l' hl' rfl rfl (hother hid)

theorem termStep_execute (env : Env) (s : KVService) {cmd : Command} {l' : Lease}
    (hfresh : s.spec.repeats cmd = false)
    (hl' : (KVService.execute env s.ds cmd).1.leases.lookup id = some l') :
    TermStep env s cmd id l' := by
  by_cases hgrant : cmd.kind = .leaseGrant
  · rw [KVService.execute, hgrant] at hl'
    exact termStep_grant env s hgrant hfresh hl'
  by_cases hkeep : cmd.kind = .leaseKeepAlive
  · rw [KVService.execute, hkeep] at hl'
    exact termStep_keepAlive env s hkeep hfresh hl'
  obtain ⟨l, hl, httl, hexp⟩ := (termsKept_execute env s.ds hgrant hkeep).lease id l' hl'
  refine .kept l hl httl hexp ?_
  rintro ⟨-, ⟨hkind, -⟩ | ⟨hkind, -⟩⟩
  · exact hgrant hkind
  · exact hkeep hkind

theorem termStep_applyCommand (env : Env) (s : KVService) (cmd : Command) {l' : Lease}
    (hl' : (s.applyCommand env cmd).1.ds.leases.lookup id = some l') :
    TermStep env s cmd id l' := by
  cases hdup : s.isDuplicate cmd with
  | true =>
    rw [KVService.applyCommand_duplicate hdup] at hl'
    refine .kept l' hl' rfl rfl fun hrenews => ?_
    rw [KVSpec.Renews, repeats_spec, hdup] at hrenews
    exact absurd hrenews.1 (by simp)
  | false =>
    rw [KVService.applyCommand_fresh hdup] at hl'
    exact termStep_execute env s ((repeats_spec s cmd).trans hdup) hl'

/-! ## The terms of a node -/

/-- The node has the deadlines of the entries that it has come past. -/
def Timed (log : List LogItem) (H : List LeaseEvent) (node : Node) : Prop :=
  ∀ id l, node.service.ds.leases.lookup id = some l →
    ∃ j t, TermAt log H node.applied id l.ttl j t ∧ l.expiresAt = t + durationOfSeconds l.ttl

theorem timed_mono {node : Node} (h : Timed log H node) (hlog : log <+: log')
    (ha : node.applied ≤ log.length) (hH : H ⊆ H') : Timed log' H' node := by
  intro id l hl
  obtain ⟨j, t, hterm, hexp⟩ := h _ _ hl
  exact ⟨j, t, termAt_mono hterm hlog ha hH, hexp⟩

/-- One more entry that does not renew the lease. -/
theorem termAt_succ (h : TermAt log H a id ttl j t) (hnot : ¬ RenewedAt log id a) :
    TermAt log H (a + 1) id ttl j t :=
  { h with
    lt := Nat.lt_succ_of_lt h.lt
    last := fun hjk hka => by
      rcases Nat.lt_succ_iff_lt_or_eq.mp hka with hlt | rfl
      · exact h.last hjk hlt
      · exact hnot }

/-- One more entry that renews the lease. -/
theorem termAt_renewed {n g : Nat} (hg : g ≤ a) (hgranted : GrantedFor log id ttl g)
    (hrenews : RenewedAt log id a) (hseen : .applied n a t ∈ H) :
    TermAt log H (a + 1) id ttl a t where
  granted := ⟨g, hg, hgranted⟩
  renews := hrenews
  lt := Nat.lt_succ_self a
  last hak hka := absurd hak (Nat.not_lt.mpr (Nat.le_of_lt_succ hka))
  applied := ⟨n, hseen⟩

theorem timed_apply {n : Nat} {node : Node} {e : Entry} (h : Timed log H node) (env : Env)
    (hspec : node.service.spec = .after (commandsOf (log.take node.applied)))
    (he : log[node.applied]? = some (.command e)) :
    Timed log (H ++ [.applied n node.applied env.now]) (node.apply codec env e) := by
  intro id l' hl'
  have hseen : .applied n node.applied env.now ∈ H ++ [.applied n node.applied env.now] :=
    List.mem_append_right H (List.mem_singleton_self _)
  have hold {ttl j t} (hterm : TermAt log H node.applied id ttl j t) :
      TermAt log (H ++ [.applied n node.applied env.now]) node.applied id ttl j t :=
    { hterm with applied := hterm.applied.imp fun m hm => List.mem_append_left _ hm }
  have hrenewed : RenewedAt log id node.applied ↔ node.service.spec.Renews e.cmd id := by
    rw [RenewedAt, he, hspec]
    simp
  simp only [Node.apply, KVService.handleCommand_ds] at hl'
  cases termStep_applyCommand env node.service e.cmd hl' with
  | kept l hl httl hexp hnot =>
    obtain ⟨j, t, hterm, hdeadline⟩ := h _ _ hl
    rw [httl, hexp]
    exact ⟨j, t, termAt_succ (hold hterm) (fun hr => hnot (hrenewed.mp hr)), hdeadline⟩
  | granted hrenews hkind httl hexp =>
    have hgranted : GrantedFor log id l'.ttl node.applied :=
      ⟨e, he, hspec ▸ hrenews, hkind, httl.symm⟩
    exact ⟨_, _, termAt_renewed le_rfl hgranted (hrenewed.mpr hrenews) hseen, hexp⟩
  | renewed l hl httl hrenews hexp =>
    obtain ⟨j, t, hterm, -⟩ := h _ _ hl
    obtain ⟨g, hg, hgranted⟩ := hterm.granted
    rw [← httl] at hgranted
    exact ⟨_, _, termAt_renewed (le_trans hg (Nat.le_of_lt hterm.lt)) hgranted
      (hrenewed.mpr hrenews) hseen, hexp⟩

/-- A configuration change renews no lease. -/
theorem timed_pass {node : Node} {cc : ConfigChangeEntry} (h : Timed log H node)
    (hcc : log[node.applied]? = some (.configChange cc)) :
    Timed log H node.passConfigChange := by
  intro id l hl
  obtain ⟨j, t, hterm, hexp⟩ := h id l hl
  refine ⟨j, t, termAt_succ hterm ?_, hexp⟩
  rintro ⟨e, he, -⟩
  rw [hcc] at he
  cases he

/-- A snapshot brings the deadlines of the node that it was taken on. -/
theorem timed_restore {node other : Node} (h : Timed log H other) {env : Env} {data : β}
    {committed : List LogItem} (hahead : 0 < other.applied)
    (hsave : other.service.encodeSnapshot codec env.snapshotKeys = some data) :
    Timed log H (node.restore codec (other.applied - 1) data committed) := by
  intro id l hl
  have happlied : other.applied - 1 + 1 = other.applied := Nat.sub_add_cancel hahead
  have hds : (node.service.handleSnapshot codec ((other.applied - 1 : Nat) : Int) data).ds =
      other.service.ds := by
    unfold KVService.handleSnapshot
    rw [codec.decode_encode hsave]
    exact DataStore.restore_copies node.service.ds other.service.ds env.snapshotKeys
  simp only [Node.restore, hds, happlied] at hl ⊢
  exact h _ _ hl

/-! ## Entries of the expiry loops -/

/-- If the command `e` at index `p` comes from an expiry loop, the deadlines of its leases were
past for the node whose loop it was. -/
def Noted (log : List LogItem) (H : List LeaseEvent) (p : Nat) (e : Entry) : Prop :=
  e.origin = none → e.cmd.kind = .leaseExpiry ∧ ∃ H₀ n a now, H₀ ++ [.ticked n a now] <+: H ∧
    a ≤ p ∧ a ≤ log.length ∧ ∀ id ∈ e.cmd.leaseIDs, PastDeadline log H₀ a now id

theorem noted_mono {p : Nat} {e : Entry} (h : Noted log H p e) (hlog : log <+: log')
    (hH : H <+: H') : Noted log' H' p e := by
  intro horigin
  obtain ⟨hkind, H₀, n, a, now, hticked, hap, ha, hpast⟩ := h horigin
  exact ⟨hkind, H₀, n, a, now, hticked.trans hH, hap, le_trans ha hlog.length_le,
    fun id hid => pastDeadline_mono (hpast id hid) hlog ha⟩

/-- Where the commands of a node's log are from after a step of the node. -/
theorem entry_nodeStep {n p : Nat} {node' : Node} {e : Entry} (horigins : OriginLemmas.Origins s)
    (hnode : NodeStep codec s n b node') (he : node'.log[p]? = some (.command e)) :
    (∃ m, (s.nodes m).log[p]? = some (.command e)) ∨ s.committed[p]? = some (.command e) ∨
      e.origin ≠ none ∨ p = (s.nodes n).log.length ∧ ∃ now order, b = .expire n now order := by
  cases hnode with
  | accept handler hl =>
    rcases History.getElem?_concat he with he | ⟨rfl, heq⟩
    · exact .inl ⟨n, he⟩
    · cases heq
      exact .inr (.inr (.inl (Option.some_ne_none _)))
  | expire ids hl =>
    rcases History.getElem?_concat he with he | ⟨rfl, heq⟩
    · exact .inl ⟨n, he⟩
    · exact .inr (.inr (.inr ⟨rfl, _, _, rfl⟩))
  | changeConfig cc hl =>
    rcases History.getElem?_concat he with he | ⟨rfl, heq⟩
    · exact .inl ⟨n, he⟩
    · cases heq
  | replace m len happlied hkeep =>
    rcases OriginLemmas.getElem?_take_append hkeep he with he | ⟨hge, htaken⟩
    · exact .inl ⟨n, he⟩
    · rw [List.getElem?_take] at htaken
      split at htaken
      · rw [List.getElem?_drop, Nat.add_sub_cancel' hge] at htaken
        exact .inl ⟨m, htaken⟩
      · cases htaken
  | restore m env data hidle hbehind =>
    have hlen : (s.nodes m).applied - 1 + 1 ≤ s.committed.length := by
      have := horigins.applied_le m
      omega
    rcases OriginLemmas.getElem?_take_append hlen he with hcovered | ⟨hge, hrest⟩
    · exact .inr (.inl hcovered)
    · rw [List.getElem?_drop, Nat.add_sub_cancel' hge] at hrest
      exact .inl ⟨n, hrest⟩
  | _ => exact .inl ⟨n, he⟩

theorem lease_of_expired {ds : DataStore} {now : Time} {order : RangeOrder Int}
    (h : id ∈ ds.checkExpiredLeases now order) :
    ∃ l, ds.leases.lookup id = some l ∧ l.expiresAt < now := by
  have hmem := h
  rw [DataStore.checkExpiredLeases, List.mem_filter, order.mem_keys, Finmap.mem_keys] at hmem
  obtain ⟨l, hl⟩ := Finmap.mem_iff.mp hmem.1
  exact ⟨l, hl, (LeaseTimeLemmas.mem_checkExpiredLeases hl now order).mp h⟩

/-- The entry that a tick adds. -/
theorem noted_tick {n : Nat} {node node' : Node} {e : Entry} {now : Time} {order : RangeOrder Int}
    (h : Timed log H node) (hlog : node.applied ≤ log.length)
    (happlied : node.applied ≤ node.log.length) (hexpire : node.expire now order = some node')
    (he : node'.log[node.log.length]? = some (.command e)) :
    Noted log (H ++ [.ticked n node.applied now]) node.log.length e := by
  intro _
  unfold Node.expire at hexpire
  split at hexpire
  · cases hexpire
  · cases hexpire
    unfold Node.submit at he
    split at he
    · -- the node is the leader, and the entry has the leases that it found expired
      rw [List.getElem?_concat_length] at he
      cases he
      refine ⟨rfl, H, n, node.applied, now, List.prefix_rfl, happlied, hlog, fun id hid => ?_⟩
      obtain ⟨l, hl, hexpired⟩ := lease_of_expired hid
      obtain ⟨j, t, hterm, hdeadline⟩ := h _ _ hl
      exact ⟨l.ttl, j, t, hterm, hdeadline ▸ hexpired⟩
    · exact absurd he (by simp)

/-! ## Runs -/

/-- What the notes tell about the deadlines and about the entries of the expiry loops. -/
structure LeaseNotes (s : Cluster) (H : List LeaseEvent) : Prop where
  timed : ∀ n, Timed s.committed H (s.nodes n)
  logged : ∀ {n p e}, (s.nodes n).log[p]? = some (.command e) → Noted s.committed H p e
  committed : ∀ {p e}, s.committed[p]? = some (.command e) → Noted s.committed H p e

theorem leaseNotes_init (codec : SnapshotCodec β) : LeaseNotes (cluster codec).init [] where
  timed n id l hl := by simp [cluster, Node.new, KVService.new, DataStore.new] at hl
  logged he := by simp [cluster, Node.new] at he
  committed he := by simp [cluster] at he

/-- The deadlines of a node after a step of it. -/
theorem timed_nodeStep {n : Nat} {node' : Node} (h : LeaseNotes s H)
    (hreplica : NodeReplica codec s.committed (s.nodes n))
    (happlied : ∀ n, (s.nodes n).applied ≤ s.committed.length)
    (hstep : (cluster codec).step s b = some (s.setNode n node'))
    (hnode : NodeStep codec s n b node') : Timed s.committed (H ++ leaseSeen s b) node' := by
  have hmore (m : Nat) : Timed s.committed (H ++ leaseSeen s b) (s.nodes m) :=
    timed_mono (h.timed m) List.prefix_rfl (happlied m) (List.subset_append_left _ _)
  cases hnode with
  | apply env hidle hlog hcommitted =>
    exact timed_apply (h.timed n) env hreplica.spec hcommitted
  | pass env hidle hlog hcommitted => exact timed_pass (hmore n) hcommitted
  | restore m env data hidle hbehind =>
    -- the data is what node `m` has saved
    simp only [cluster, hidle, hbehind, and_self, if_true] at hstep
    obtain ⟨data', hsave, heq⟩ := Option.map_eq_some_iff.mp hstep
    have hsame := congrArg (fun s => s.nodes n) heq
    simp only [Cluster.setNode_nodes_self] at hsame
    rw [← hsame]
    exact timed_restore (hmore m) (Nat.zero_lt_of_lt hbehind) hsave
  | _ => exact hmore n

/-- The log of a node after a step of it. -/
theorem noted_nodeStep {n p : Nat} {node' : Node} {e : Entry} (h : LeaseNotes s H)
    (horigins : OriginLemmas.Origins s)
    (hstep : (cluster codec).step s b = some (s.setNode n node'))
    (hnode : NodeStep codec s n b node') (he : node'.log[p]? = some (.command e)) :
    Noted s.committed (H ++ leaseSeen s b) p e := by
  have hH : H <+: H ++ leaseSeen s b := List.prefix_append _ _
  rcases entry_nodeStep horigins hnode he with
    ⟨m, he⟩ | he | horigin | ⟨rfl, now, order, rfl⟩
  · exact noted_mono (h.logged he) List.prefix_rfl hH
  · exact noted_mono (h.committed he) List.prefix_rfl hH
  · exact fun hnone => absurd hnone horigin
  · obtain ⟨node'', hexpire, heq⟩ := Option.map_eq_some_iff.mp hstep
    have hsame := congrArg (fun s => s.nodes n) heq
    simp only [Cluster.setNode_nodes_self] at hsame
    subst hsame
    exact noted_tick (h.timed n) (horigins.applied_le n) (horigins.applied_le_log n) hexpire he

theorem leaseNotes_step (h : LeaseNotes s H) (horigins : OriginLemmas.Origins s)
    (hreplica : ∀ n, NodeReplica codec s.committed (s.nodes n))
    (hstep : (cluster codec).step s b = some s') : LeaseNotes s' (H ++ leaseSeen s b) := by
  have hH : H <+: H ++ leaseSeen s b := List.prefix_append _ _
  have happlied := horigins.applied_le
  have hlog := committed_mono hstep
  rcases cluster_step_cases hstep with ⟨n, item, rfl, he, rfl⟩ | ⟨n, node', hnode, rfl⟩
  · refine ⟨fun m => timed_mono (h.timed m) hlog (happlied m) hH.subset,
      fun he' => noted_mono (h.logged he') hlog hH, fun he' => ?_⟩
    rcases History.getElem?_concat he' with hold | ⟨rfl, rfl⟩
    · exact noted_mono (h.committed hold) hlog hH
    · exact noted_mono (h.logged he) hlog hH
  · refine ⟨s.setNode_forall (P := fun _ node => Timed s.committed (H ++ leaseSeen s b) node)
        (fun m => timed_mono (h.timed m) hlog (happlied m) hH.subset)
        (timed_nodeStep h (hreplica n) happlied hstep hnode),
      fun {m p e} he => ?_, fun he => noted_mono (h.committed he) hlog hH⟩
    exact s.setNode_forall (P := fun _ node => ∀ e, node.log[p]? = some (.command e) →
        Noted s.committed (H ++ leaseSeen s b) p e)
      (fun m e he => noted_mono (h.logged he) hlog hH)
      (fun e he => noted_nodeStep h horigins hstep hnode he) m e he

theorem leaseNotes_of_reachable {G : Cluster → ClusterStep → Prop}
    (h : (timedCluster codec).ReachableBy (fun s => G s.1) (s, H)) : LeaseNotes s H := by
  refine h.invariant (I := fun s => LeaseNotes s.1 s.2) (leaseNotes_init codec) ?_
  rintro ⟨s, H⟩ b ⟨s', H'⟩ hreach hnotes - hstep
  obtain ⟨hstep, rfl⟩ := Machine.observed_step hstep
  have hreach := hreach.of_observed
  exact leaseNotes_step hnotes (OriginLemmas.origins_of_reachable hreach)
    (nodeReplica_of_reachable hreach) hstep

end LeaseSafetyLemmas

open LeaseSafetyLemmas

/-! ## Main result -/

/-- In every run, whoever leads, whatever the clocks show and whichever snapshots are restored:
an entry that an expiry loop had committed was submitted at a tick of a node which had applied
`a` entries, and every lease that it names was then over for that node, if its TTL does not
overflow. The last of those entries that granted the lease or kept it alive was applied, by
this node or by the one that its snapshot comes from, longer than the TTL of the grant ago. -/
theorem expiry_justified {β : Type} (codec : SnapshotCodec β) {s : Cluster} {H : List LeaseEvent}
    (h : (timedCluster codec).ReachableBy (fun _ _ => True) (s, H)) {i : Nat} {e : Entry}
    (he : s.committed[i]? = some (.command e)) (hloop : e.origin = none) :
    e.cmd.kind = .leaseExpiry ∧ ∃ H₀ n a now, H₀ ++ [.ticked n a now] <+: H ∧ a ≤ i ∧
      ∀ id ∈ e.cmd.leaseIDs,
        (∀ ttl g, GrantedFor s.committed id ttl g → ttl * 1000000000 ≤ maxDuration) →
        Over s.committed H₀ a now id := by
  have hnotes := leaseNotes_of_reachable (G := fun _ _ => True) h
  obtain ⟨hkind, H₀, n, a, now, hticked, hai, -, hpast⟩ := hnotes.committed he hloop
  exact ⟨hkind, H₀, n, a, now, hticked, hai, fun id hid => over_of_pastDeadline (hpast id hid)⟩

/-- A lease is granted on node 1 for five seconds. Node 2 gets its deadline in a snapshot,
becomes the leader, and finds it over after six. -/
def expiryElsewhere : List ClusterStep :=
  [.lead 1 true, .submit 1 aGrant, .commit 1, .apply 1 (.at 0), .restore 2 1 (.at 0), .lead 2 true,
    .expire 2 6000000000 .ascending, .commit 2]

theorem expiry_justified_elsewhere :
    ∃ s H, (timedCluster .plain).ReachableBy (fun _ _ => True) (s, H) ∧
      s.committed = [.command { cmd := aGrant.command 1, origin := some (1, 0) },
        .command { cmd := { kind := .leaseExpiry, leaseIDs := [1] }, origin := none }] ∧
      ∃ H₀ n a now, H₀ ++ [.ticked n a now] <+: H ∧ a ≤ 1 ∧ Over s.committed H₀ a now 1 := by
  obtain ⟨⟨s, H⟩, hreach, hcommitted⟩ := Machine.exists_reachableBy (M := timedCluster .plain)
    (G := fun _ _ => True) expiryElsewhere (fun s => s.1.committed)
    (x := [.command ⟨aGrant.command 1, some (1, 0)⟩,
      .command ⟨{ kind := .leaseExpiry, leaseIDs := [1] }, none⟩]) (by rfl)
  obtain ⟨-, H₀, n, a, now, hticked, ha, hover⟩ :=
    expiry_justified .plain hreach (i := 1) (by rw [hcommitted]; rfl) rfl
  refine ⟨s, H, hreach, hcommitted, H₀, n, a, now, hticked, ha,
    hover 1 (List.mem_singleton_self _) ?_⟩
  -- the grant is the first entry
  rintro ttl g ⟨e, he, -, hkind, rfl⟩
  rw [hcommitted] at he
  match g with
  | 0 =>
    cases he
    decide
  | 1 =>
    cases he
    cases hkind
  | g + 2 => cases he

end Zodiac
