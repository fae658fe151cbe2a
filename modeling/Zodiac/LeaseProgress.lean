import Zodiac.ClusterReplicas
import Zodiac.LeaseTime
import Zodiac.Progress
import Zodiac.SpecRefinement
import Zodiac.SpecRuns

/-!
# Leases that are not renewed go

In a fair run in which the leader stays the leader, the lease-expiry loop finds every lease that
is not renewed, submits its expiry, and the entry removes the lease.

* `Overdue`, `Submitted`: before and after the tick that finds it.
* `expired_leases_go`: the lease is removed with its keys, for ever.
-/

namespace Zodiac

open Machine NodeStepLemmas SpecRunLemmas ProgressLemmas

/-! ## Definitions -/

/-- Node `n` does not lose the leadership. -/
def StaysLeader (n : Nat) : ClusterStep → Prop
  | .lead m isLeader => m = n → isLeader = true
  | _ => True

instance (n : Nat) : (a : ClusterStep) → Decidable (StaysLeader n a)
  | .lead m isLeader => inferInstanceAs (Decidable (m = n → isLeader = true))
  | .submit _ _ | .subscribe _ _ | .receive _ _ | .disconnect _ _ | .expire _ _ _
  | .changeConfig _ _ | .replace _ _ _ _ | .commit _ | .apply _ _ | .send _ | .restore _ _ _ =>
    inferInstanceAs (Decidable True)

/-- The ticks of the lease-expiry loop of node `n` from time `T` on. -/
def TicksFrom (n : Nat) (T : Time) : ClusterStep → Prop
  | .expire m now _ => m = n ∧ T ≤ now
  | _ => False

namespace LeaseProgressLemmas

variable {β : Type} {codec : SnapshotCodec β} {s s' : Cluster} {n : Nat} {a : ClusterStep}

/-! ## Leases -/

variable {id : Int} {T : Time} {r : (cluster codec).Run} {t : Nat}

/-- The entry that a tick submits. -/
def expiryEntry (ids : List Int) : Entry :=
  { cmd := { kind := .leaseExpiry, leaseIDs := ids }, origin := none }

/-- The node leads, and its lease `id` is there with an expiry time before `T`. -/
structure Overdue (n : Nat) (id : Int) (T : Time) (s : Cluster) : Prop extends UpToDate n s where
  leads : (s.nodes n).isLeader = true
  expired : ∃ l, (s.nodes n).service.ds.leases.lookup id = some l ∧ l.expiresAt < T

/-- The node has submitted the expiry of the lease. -/
def Submitted (n : Nat) (id : Int) (s : Cluster) : Prop :=
  ∃ j ids, Holds n j (.command (expiryEntry ids)) s ∧ id ∈ ids ∧ (s.nodes n).applied ≤ j

theorem isLeader_step (hstays : StaysLeader n a) (hstep : (cluster codec).step s a = some s')
    (hleads : (s.nodes n).isLeader = true) : (s'.nodes n).isLeader = true := by
  rcases cluster_step_cases hstep with ⟨m, e', rfl, he', rfl⟩ | ⟨m, node', hnode, rfl⟩
  · exact hleads
  · by_cases hm : n = m
    · subst hm
      rw [Cluster.setNode_nodes_self]
      cases hnode with
      | lead b => exact hstays rfl
      | _ => exact hleads
    · rw [Cluster.setNode_nodes_of_ne s node' hm]
      exact hleads

/-- What a tick submits, if a lease has expired. -/
theorem expire_step (codec : SnapshotCodec β) {now : Time} (order : RangeOrder Int) {l : Lease}
    (hleads : (s.nodes n).isLeader = true)
    (hl : (s.nodes n).service.ds.leases.lookup id = some l) (hexpired : l.expiresAt < now) :
    ∃ ids, id ∈ ids ∧ (cluster codec).step s (.expire n now order) =
      some (s.setNode n
        { s.nodes n with log := (s.nodes n).log ++ [.command (expiryEntry ids)] }) := by
  have hmem := (LeaseTimeLemmas.mem_checkExpiredLeases hl now order).mpr hexpired
  refine ⟨(s.nodes n).service.ds.checkExpiredLeases now order, hmem, ?_⟩
  have hsome : (s.nodes n).expire now order = some
      ((s.nodes n).submit (expiryEntry ((s.nodes n).service.ds.checkExpiredLeases now order))).1 := by
    unfold Node.expire
    cases hids : (s.nodes n).service.ds.checkExpiredLeases now order with
    | nil =>
      rw [hids] at hmem
      cases hmem
    | cons j ids => rfl
  simp only [cluster, hsome, Option.map_some, Node.submit, hleads, if_true]

theorem submitted_of_tick {now : Time} {order : RangeOrder Int} (hover : Overdue n id T s)
    (hkept : KeepsLog n s (.expire n now order)) (hT : T ≤ now)
    (hstep : (cluster codec).step s (.expire n now order) = some s') : Submitted n id s' := by
  obtain ⟨hup, hleads, l, hl, hexpired⟩ := hover
  have hup' := hup.step hkept hstep
  obtain ⟨ids, hid, hstep'⟩ := expire_step codec order hleads hl (lt_of_lt_of_le hexpired hT)
  obtain rfl := Option.some.inj (hstep'.symm.trans hstep)
  refine ⟨(s.nodes n).log.length, ids, ⟨hup', ?_⟩, hid, ?_⟩
  · simp
  · rw [Cluster.setNode_nodes_self]
    exact le_trans hup.applied hup.committed.length_le

/-- In a fair run the expiry of an overdue lease is submitted, unless something else ends the
lease before. -/
theorem eventually_submitted
    (hmeets : r.MeetsFrom t fun s a => KeepsLog n s a ∧ StaysLeader n a)
    (hticks : r.Fair (TicksFrom n T)) (hover : Overdue n id T (r.state t)) :
    ∃ u, t ≤ u ∧ (Submitted n id (r.state u) ∨
      ∀ l, ((r.state u).nodes n).service.ds.leases.lookup id = some l → T ≤ l.expiresAt) := by
  refine Run.eventually_of_fair (P := Overdue n id T) (Q := fun s => Submitted n id s ∨
    ∀ l, (s.nodes n).service.ds.leases.lookup id = some l → T ≤ l.expiresAt)
    hticks ?_ ?_ hmeets hover
  · rintro s ⟨-, hleads, l, hl, hexpired⟩
    obtain ⟨ids, -, hstep⟩ := expire_step codec .ascending hleads hl hexpired
    refine ⟨.expire n T .ascending, ⟨rfl, le_rfl⟩, ?_⟩
    rw [hstep]
    exact Option.some_ne_none _
  · rintro s a s' hover ⟨hkept, hstays⟩ hstep
    by_cases htick : TicksFrom n T a
    · cases a with
      | expire m now order =>
        obtain ⟨rfl, hT⟩ := htick
        exact .inl (.inl (submitted_of_tick hover hkept hT hstep))
      | _ => cases htick
    · by_cases hleft : ∃ l, (s'.nodes n).service.ds.leases.lookup id = some l ∧ l.expiresAt < T
      · exact .inr ⟨⟨hover.toUpToDate.step hkept hstep, isLeader_step hstays hstep hover.leads,
          hleft⟩, htick⟩
      · refine .inl (.inr fun l hl => ?_)
        by_contra hlt
        exact hleft ⟨l, hl, not_le.mp hlt⟩

/-- An expiry removes its leases. -/
theorem notMem_leases_expiry {service : KVService} (hinv : LeaseInv service.ds) (env : Env)
    {ids : List Int} (hid : id ∈ ids) (index : Int) :
    id ∉ (service.handleCommand codec env (expiryEntry ids).cmd index).1.ds.leases := by
  have hspec : (service.handleCommand codec env (expiryEntry ids).cmd index).1.spec = _ :=
    SpecRefinementLemmas.spec_handleCommand hinv env (expiryEntry ids).cmd index
  rw [apply_fresh rfl] at hspec
  have hstore : (service.handleCommand codec env (expiryEntry ids).cmd index).1.ds.itemStore =
      service.ds.itemStore.release ids := congrArg KVSpec.store hspec
  rw [← SpecRefinementLemmas.mem_live, hstore]
  simp [ItemStore.release, hid]

/-- In a fair run a submitted expiry is applied, and then the lease is gone. -/
theorem eventually_removed (hmeets : r.MeetsFrom t (KeepsLog n))
    (hwork : ∀ w : Work, r.Fair (w.doneBy n)) (hsub : Submitted n id (r.state t)) :
    ∃ u, t ≤ u ∧ id ∉ ((r.state u).nodes n).service.ds.leases := by
  obtain ⟨j, ids, hholds, hid, hle⟩ := hsub
  obtain ⟨u, htu, happlied⟩ := Run.eventually_of_ranked (ranked_applied codec n j _) hwork hmeets
    ⟨hholds, hle⟩
  have hreach : ∀ u, (cluster codec).Reachable (r.state u) :=
    Run.reachableBy fun _ _ _ _ => trivial
  refine Run.eventually_of_unless (G := KeepsLog n)
    (P := fun s => (cluster codec).Reachable s ∧ Holds n j (.command (expiryEntry ids)) s ∧
      (s.nodes n).applied ≤ j) (Q := fun s => id ∉ (s.nodes n).service.ds.leases)
    hmeets ⟨hreach t, hholds, hle⟩ ?_
    ⟨u, htu, fun hP => Nat.not_le_of_lt happlied hP.2.2⟩
  rintro s a s' ⟨hreach, hholds, hle⟩ hkept hstep
  have hnext := Nat.lt_or_eq_of_le hle
  have hreach' : (cluster codec).Reachable s' := hreach.step trivial hstep
  have hholds' := hholds.step hkept hstep
  cases advance_step hkept hstep with
  | commits ha hlen hnode => exact .inr ⟨hreach', hholds', hnode ▸ hle⟩
  | @applies env e hidle hlog hnode hcommitted =>
    rcases hnext with hlt | rfl
    · refine .inr ⟨hreach', hholds', ?_⟩
      rw [hnode]
      exact hlt
    · refine .inl ?_
      have hentry := hlog.symm.trans hholds.entry
      cases hentry
      rw [hnode]
      exact notMem_leases_expiry (nodeReplica_of_reachable hreach n).leaseInv env hid _
  | passes hidle hlog hnode hcommitted =>
    rcases hnext with hlt | rfl
    · refine .inr ⟨hreach', hholds', ?_⟩
      rw [hnode]
      exact hlt
    · have hentry := hlog.symm.trans hholds.entry
      cases hentry
  | serves ha hbusy hidle happlied hservice hcommitted =>
    exact .inr ⟨hreach', hholds', happlied ▸ hle⟩
  | rests ha hsending happlied hservice hcommitted =>
    exact .inr ⟨hreach', hholds', happlied ▸ hle⟩

/-- What every command keeps, the node keeps. -/
theorem service_step {P : KVService → Prop}
    (hP : ∀ service env cmd index, P service → P (service.handleCommand codec env cmd index).1)
    (hkept : KeepsLog n s a) (hstep : (cluster codec).step s a = some s')
    (h : P (s.nodes n).service) : P (s'.nodes n).service := by
  cases advance_step hkept hstep with
  | commits ha hlen hnode => exact hnode ▸ h
  | applies hidle hlog hnode hcommitted =>
    rw [hnode]
    exact hP _ _ _ _ h
  | passes hidle hlog hnode hcommitted =>
    rw [hnode]
    exact h
  | serves ha hbusy hidle happlied hservice hcommitted => exact hservice ▸ h
  | rests ha hsending happlied hservice hcommitted => exact hservice ▸ h

end LeaseProgressLemmas

open LeaseProgressLemmas

/-! ## Main result -/

/-- In a fair run, node `n` stays the leader and keeps its log. A lease that it has at some
time and that expires before `T` is renewed to `T` or later, or it is removed with all its
keys, for ever. -/
theorem expired_leases_go {β : Type} (codec : SnapshotCodec β) {r : (cluster codec).Run}
    {t n : Nat} {id : Int} {T : Time} {l : Lease}
    (hkept : r.MeetsFrom t fun s a => KeepsLog n s a ∧ StaysLeader n a)
    (hwork : ∀ w : Work, r.Fair (w.doneBy n)) (hticks : r.Fair (TicksFrom n T))
    (hleads : ((r.state t).nodes n).isLeader = true)
    (hcommitted : (r.state t).committed <+: ((r.state t).nodes n).log)
    (hl : ((r.state t).nodes n).service.ds.leases.lookup id = some l) (hexpires : l.expiresAt < T) :
    (∃ u, t ≤ u ∧ ∃ l', ((r.state u).nodes n).service.ds.leases.lookup id = some l' ∧
      T ≤ l'.expiresAt) ∨
    ∃ u, t ≤ u ∧ ∀ v, u ≤ v → id ∉ ((r.state v).nodes n).service.ds.leases ∧
      ∀ key, ((r.state v).nodes n).service.ds.keyLease.lookup key ≠ some id := by
  have hreach : ∀ u, (cluster codec).Reachable (r.state u) :=
    Run.reachableBy fun _ _ _ _ => trivial
  have hinv : ∀ u, LeaseInv ((r.state u).nodes n).service.ds := fun u =>
    (nodeReplica_of_reachable (hreach u) n).leaseInv
  have hlogs : r.MeetsFrom t (KeepsLog n) := hkept.imp fun hguard => hguard.1
  by_cases hrenewed : ∃ u, t ≤ u ∧ ∃ l',
      ((r.state u).nodes n).service.ds.leases.lookup id = some l' ∧ T ≤ l'.expiresAt
  · exact .inl hrenewed
  refine .inr ?_
  -- at some time it is gone
  obtain ⟨u, htu, hgone⟩ : ∃ u, t ≤ u ∧ id ∉ ((r.state u).nodes n).service.ds.leases := by
    have hover : Overdue n id T (r.state t) :=
      ⟨⟨hcommitted, (OriginLemmas.origins_of_reachable (hreach t)).applied_le n⟩, hleads, l, hl,
        hexpires⟩
    obtain ⟨u, htu, hsub | hnone⟩ := eventually_submitted hkept hticks hover
    · obtain ⟨v, huv, hgone⟩ := eventually_removed (hlogs.later htu) hwork hsub
      exact ⟨v, Nat.le_trans htu huv, hgone⟩
    · refine ⟨u, htu, fun hmem => hrenewed ?_⟩
      obtain ⟨l', hl'⟩ := Finmap.mem_iff.mp hmem
      exact ⟨u, htu, l', hl', hnone l' hl'⟩
  -- and its id is not given out again
  have hissued : id ≤ ((r.state u).nodes n).service.ds.leaseIDSeq := by
    refine Run.always_of_step (P := fun s => id ≤ (s.nodes n).service.ds.leaseIDSeq) hlogs
      ((hinv t).stored id l hl).2.2 (fun _ hle hguard hstep => ?_) htu
    exact service_step (P := fun service => id ≤ service.ds.leaseIDSeq)
      (fun _ env cmd index hle => le_trans hle (LeaseRemovalLemmas.seq_handleCommand env _ cmd index))
      hguard hstep hle
  refine ⟨u, htu, fun v huv => ?_⟩
  have hretired : Retired id ((r.state v).nodes n).service :=
    Run.always_of_step (P := fun s => Retired id (s.nodes n).service) (hlogs.later htu)
      ⟨hissued, hgone⟩ (fun _ hret hguard hstep => service_step (P := Retired id)
        (fun _ env cmd index hret => LeaseRemovalLemmas.Retired.handleCommand hret env cmd index)
        hguard hstep hret) huv
  exact ⟨hretired.2, LeaseRemovalLemmas.not_attached (hinv v) hretired.2⟩

/-- Lease 1 of one second, from its grant to its expiry. -/
def oneExpiry : List ClusterStep :=
  [.lead 1 true, .submit 1 (handleLeaseGrant { ttl := 1, clientID := 1, requestID := 1 }), .commit 1,
    .apply 1 (Env.at 0), .expire 1 2000000000 .ascending, .commit 1, .apply 1 (Env.at 0)]

/-- It expires after one second, and the loop ticks after two. -/
theorem expired_leases_go_one :
    ∃ (r : (cluster .plain).Run) (l : Lease),
      ((r.state 4).nodes 1).service.ds.leases.lookup 1 = some l ∧ l.expiresAt < 2000000000 ∧
      ((∃ u, 4 ≤ u ∧ ∃ l', ((r.state u).nodes 1).service.ds.leases.lookup 1 = some l' ∧
        2000000000 ≤ l'.expiresAt) ∨
      ∃ u, 4 ≤ u ∧ ∀ v, u ≤ v → 1 ∉ ((r.state v).nodes 1).service.ds.leases ∧
        ∀ key, ((r.state v).nodes 1).service.ds.keyLease.lookup key ≠ some 1) := by
  obtain ⟨r, hmeets, hlabel, hexec⟩ := exists_run (M := cluster .plain)
    (G := fun s a => KeepsLog 1 s a ∧ StaysLeader 1 a) oneExpiry rfl
  have hstops : ∀ u, 7 ≤ u → r.label u = none := fun u hu => by
    rw [hlabel]
    exact List.getElem?_eq_none hu
  have hlease : ((r.state 4).nodes 1).service.ds.leases.lookup 1 =
      some { id := 1, ttl := 1, expiresAt := 1000000000, keys := ∅ } :=
    Run.shows hexec 4 (fun s => (s.nodes 1).service.ds.leases.lookup 1) (by decide)
  have hleads : ((r.state 4).nodes 1).isLeader = true :=
    Run.shows hexec 4 (fun s => (s.nodes 1).isLeader) rfl
  have hlogs : (r.state 4).committed = ((r.state 4).nodes 1).log :=
    of_decide_eq_true (Run.shows hexec 4 (fun s => decide (s.committed = (s.nodes 1).log)) (by decide))
  have hend : ((r.state 7).nodes 1).log.length = 2 ∧ (r.state 7).committed.length = 2 ∧
      ((r.state 7).nodes 1).applied = 2 ∧ ((r.state 7).nodes 1).sending = none := by
    have hshown := Run.shows hexec 7 (x := (2, 2, 2, none)) (fun s => ((s.nodes 1).log.length,
      s.committed.length, (s.nodes 1).applied, (s.nodes 1).sending)) (by decide)
    simpa using hshown
  have hnone : ((r.state 7).nodes 1).service.ds.leases = ∅ :=
    Run.shows hexec 7 (fun s => (s.nodes 1).service.ds.leases) (by decide)
  refine ⟨r, _, hlease, by decide, expired_leases_go .plain (hmeets.later (Nat.zero_le 4))
    (fun w => ?_) ?_ hleads (by rw [hlogs]) hlease (by decide)⟩
  · obtain ⟨hlog, hcommitted, happlied, hidle⟩ := hend
    exact Run.fair_of_stops hstops (no_work .plain (by omega) (by omega) hidle w)
  · refine Run.fair_of_stops hstops fun a ha => ?_
    cases a with
    | expire m now order =>
      obtain ⟨rfl, -⟩ := ha
      have hquiet : ((r.state 7).nodes 1).service.ds.checkExpiredLeases now order = [] := by
        refine List.eq_nil_iff_forall_not_mem.mpr fun id hid => ?_
        rw [DataStore.checkExpiredLeases, hnone, List.mem_filter, order.mem_keys] at hid
        exact Finmap.notMem_empty (Finmap.mem_keys.mp hid.1)
      simp [cluster, Node.expire, hquiet]
    | _ => cases ha

end Zodiac
