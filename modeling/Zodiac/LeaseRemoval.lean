import Zodiac.Convergence
import Zodiac.LeaseExpiry

/-!
# Removing a lease is final

Lease ids come from a counter that only grows, and a snapshot carries the counter
along. So an id that the counter has passed and that is not live stays that way, on
every replica, and a repeated removal finds nothing to do. The expiry loop relies on
this: its commands carry no client id, so the dedup table never stops a repetition.

* `Retired`: the id has been issued and is not live.
* `lease_removal_final`: ids are issued once, removed leases stay removed, and
  removing them again changes nothing.
-/

namespace Zodiac

variable {β : Type}

/-! ## Definitions -/

/-- The leases that an entry asks to remove. -/
def Command.removals (cmd : Command) : List Int :=
  match cmd.kind with
  | .leaseRevoke => [cmd.leaseID]
  | .leaseExpiry => cmd.leaseIDs
  | _ => []

/-- On some replica of the log, entry `i` is a grant for which `GrantLease` returns
`id`. -/
def GrantedAt (codec : SnapshotCodec β) (log : List Command) (i : Nat) (id : Int) : Prop :=
  ∃ (s : KVService) (env : Env) (cmd : Command), (replicated codec).ReplicaAt log i s ∧
    log[i]? = some cmd ∧ cmd.kind = .leaseGrant ∧ s.isDuplicate cmd = false ∧
    (s.ds.grantLease env.now cmd.leaseTTL).2 = id

/-- On some replica of the log, entry `i` is a revoke or an expiry that removes the
live lease `id`. -/
def RemovedAt (codec : SnapshotCodec β) (log : List Command) (i : Nat) (id : Int) : Prop :=
  ∃ (s : KVService) (env : Env) (cmd : Command), (replicated codec).ReplicaAt log i s ∧
    log[i]? = some cmd ∧ (cmd.kind = .leaseRevoke ∨ cmd.kind = .leaseExpiry) ∧
    id ∈ s.ds.leases ∧ id ∉ (s.handleCommand codec env cmd i).1.ds.leases

/-- The counter has passed the id, and it is not live. -/
def Retired (id : Int) (s : KVService) : Prop := id ≤ s.ds.leaseIDSeq ∧ id ∉ s.ds.leases

/-- The number of grants in a log. -/
def grants (log : List Command) : Nat := log.countP fun c => c.kind = .leaseGrant

namespace LeaseRemovalLemmas

open LeaseExpiryLemmas ConvergenceLemmas

/-! ## The invariant on replicas -/

/-- The invariant does not see the deadlines. -/
theorem leaseInv_timeless (ds : DataStore) : LeaseInv ds.timeless ↔ LeaseInv ds := by
  have hlookup : ∀ id, ds.timeless.leases.lookup id = (ds.leases.lookup id).map Lease.timeless :=
    timeless_lookup ds
  constructor
  · intro h
    refine ⟨fun k id => ?_, h.present, fun id l hl => ?_, h.seq⟩
    · rw [← timeless_keyLease, h.attached k id, hlookup]
      cases ds.leases.lookup id <;> simp [Lease.timeless]
    · exact h.stored id l.timeless (by rw [hlookup, hl]; rfl)
  · intro h
    refine ⟨fun k id => ?_, h.present, fun id l hl => ?_, h.seq⟩
    · rw [hlookup, timeless_keyLease, h.attached k id]
      cases ds.leases.lookup id <;> simp [Lease.timeless]
    · rw [hlookup] at hl
      obtain ⟨l', hl', rfl⟩ := Option.map_eq_some_iff.mp hl
      exact h.stored id l' hl'

variable {codec : SnapshotCodec β} {log : List Command} {n : Nat} {s : KVService}

theorem leaseInv_replica (h : (replicated codec).ReplicaAt log n s) : LeaseInv s.ds := by
  refine h.invariant (deterministic_replicated codec) (I := fun _ s => LeaseInv s.ds) .new ?_ ?_
  · intro _ s env n cmd hinv
    exact (KVService.handleCommand_ds codec env s cmd n) ▸ leaseInv_applyCommand hinv env cmd
  · intro _ s t hagree hinv
    rw [← leaseInv_timeless, hagree.store, leaseInv_timeless]
    exact hinv

/-! ## The counter -/

theorem grants_concat (log : List Command) (cmd : Command) :
    grants (log ++ [cmd]) = grants log + if cmd.kind = .leaseGrant then 1 else 0 := by
  rw [grants, List.countP_append, ← grants, List.countP_singleton]
  simp

/-- Only a grant moves the counter. -/
theorem leaseIDSeq_execute (env : Env) (ds : DataStore) (cmd : Command) :
    (KVService.execute env ds cmd).1.leaseIDSeq =
      ds.leaseIDSeq + if cmd.kind = .leaseGrant then 1 else 0 := by
  have hkept {ds' : DataStore} (hkind : cmd.kind ≠ .leaseGrant)
      (h : ds'.leaseIDSeq = ds.leaseIDSeq) :
      ds'.leaseIDSeq = ds.leaseIDSeq + if cmd.kind = .leaseGrant then 1 else 0 := by
    rw [if_neg hkind, Int.add_zero, h]
  refine KVService.execute_ds_of
    (P := fun ds' => ds'.leaseIDSeq = ds.leaseIDSeq + if cmd.kind = .leaseGrant then 1 else 0)
    (fun hkind _ hmoves => hkept hkind (TermsKept.moves hmoves).seq) (fun hkind => ?_)
    (fun hkind => hkept (by rw [hkind]; decide) ?_)
    (fun hkind => hkept (by rw [hkind]; decide) (TermsKept.revoke ds _ _).seq)
    fun hkind => hkept (by rw [hkind]; decide) (TermsKept.expireLeases _ _ ds _).seq
  · rw [if_pos hkind]
    rfl
  · unfold DataStore.keepAliveLease
    split <;> rfl

/-- The counter is at most the number of grants. -/
theorem leaseIDSeq_replica (h : (replicated codec).ReplicaAt log n s) :
    s.ds.leaseIDSeq ≤ grants (log.take n) := by
  refine h.invariant (deterministic_replicated codec)
    (I := fun before s => s.ds.leaseIDSeq ≤ grants before) le_rfl ?_ ?_
  · intro before s env n cmd hle
    rw [replicated, KVService.handleCommand_ds, grants_concat]
    refine KVService.applyCommand_ds_of (P := fun ds => ds.leaseIDSeq ≤ _) ?_ ?_
    · exact le_trans hle (Int.ofNat_le.mpr (Nat.le_add_right _ _))
    · rw [leaseIDSeq_execute]
      split
      · exact Int.add_le_add_right hle 1
      · simpa using hle
  · intro before s t hagree hle
    rw [hagree.leaseIDSeq]
    exact hle

/-- A fresh grant returns the counter it leaves behind. -/
theorem granted_seq (codec : SnapshotCodec β) (env : Env) {cmd : Command} (index : Int)
    (hkind : cmd.kind = .leaseGrant) (hfresh : s.isDuplicate cmd = false) :
    (s.handleCommand codec env cmd index).1.ds.leaseIDSeq =
      (s.ds.grantLease env.now cmd.leaseTTL).2 := by
  rw [KVService.handleCommand_ds, KVService.applyCommand_fresh hfresh, leaseIDSeq_execute,
    if_pos hkind, DataStore.grantLease]

theorem seq_handleCommand (env : Env) (s : KVService) (cmd : Command) (index : Int) :
    s.ds.leaseIDSeq ≤ (s.handleCommand codec env cmd index).1.ds.leaseIDSeq := by
  rw [KVService.handleCommand_ds]
  exact (termsAfter_applyCommand env s cmd).seq

/-- The counter never falls behind an id that it has reached. -/
theorem seq_later {m : Nat} {t : KVService} {id : Int}
    (hs : (replicated codec).ReplicaAt log n s) (hid : id ≤ s.ds.leaseIDSeq) (hnm : n ≤ m)
    (ht : (replicated codec).ReplicaAt log m t) : id ≤ t.ds.leaseIDSeq := by
  refine hs.later (deterministic_replicated codec) (P := fun s => id ≤ s.ds.leaseIDSeq) ?_ ?_
    hid hnm ht
  · exact fun env n cmd h => le_trans h (seq_handleCommand env _ cmd n)
  · exact fun hagree h => hagree.leaseIDSeq ▸ h

/-- A later grant returns a larger id. -/
theorem granted_lt {i j : Nat} {id id' : Int} (hi : GrantedAt codec log i id)
    (hj : GrantedAt codec log j id') (hij : i < j) : id < id' := by
  obtain ⟨s, env, cmd, hs, hcmd, hkind, hfresh, rfl⟩ := hi
  obtain ⟨t, env', cmd', ht, -, -, -, rfl⟩ := hj
  have hnext := hs.apply env hcmd
  have hseq := granted_seq codec env i hkind hfresh
  exact Int.lt_add_one_of_le (seq_later hnext (le_of_eq hseq.symm) hij ht)

theorem granted_le {i : Nat} {id : Int} (hi : GrantedAt codec log i id) : id ≤ grants log := by
  obtain ⟨s, env, cmd, hs, hcmd, hkind, hfresh, rfl⟩ := hi
  have hnext := leaseIDSeq_replica (hs.apply env hcmd)
  rw [← granted_seq codec env i hkind hfresh]
  refine le_trans hnext (Int.ofNat_le.mpr ?_)
  exact (List.take_sublist (i + 1) log).countP_le

/-! ## Retired leases -/

theorem Retired.handleCommand {id : Int} (h : Retired id s) (env : Env) (cmd : Command)
    (index : Int) : Retired id (s.handleCommand codec env cmd index).1 := by
  refine ⟨le_trans h.1 (seq_handleCommand env s cmd index), fun hmem => ?_⟩
  rw [KVService.handleCommand_ds] at hmem
  obtain ⟨l', hl'⟩ := Finmap.mem_iff.mp hmem
  rcases (termsAfter_applyCommand env s cmd).lease id l' hl' with hnew | ⟨l, hl, -⟩
  · exact absurd h.1 (not_le.mpr hnew)
  · exact h.2 (Finmap.mem_of_lookup_eq_some hl)

theorem Retired.agree {id : Int} {t : KVService} (hagree : Agree s t) (h : Retired id t) :
    Retired id s :=
  ⟨hagree.leaseIDSeq ▸ h.1, fun hmem => h.2 ((hagree.mem_leases id).mp hmem)⟩

/-- Once removed, retired on every replica further on. -/
theorem retired_of_removedAt {i : Nat} {id : Int} (hr : RemovedAt codec log i id) (hin : i < n)
    (hs : (replicated codec).ReplicaAt log n s) : Retired id s := by
  obtain ⟨t, env, cmd, ht, hcmd, -, hlive, hdead⟩ := hr
  obtain ⟨l, hl⟩ := Finmap.mem_iff.mp hlive
  have hissued : id ≤ t.ds.leaseIDSeq := ((leaseInv_replica ht).stored id l hl).2.2
  have hretired : Retired id (t.handleCommand codec env cmd i).1 :=
    ⟨le_trans hissued (seq_handleCommand env t cmd i), hdead⟩
  exact (ht.apply env hcmd).later (deterministic_replicated codec) (P := Retired id)
    (fun env n cmd h => Retired.handleCommand h env cmd n) Retired.agree hretired hin hs

/-- No key is attached to a lease that is not live. -/
theorem not_attached {ds : DataStore} (hinv : LeaseInv ds) {id : Int} (hdead : id ∉ ds.leases)
    (k : String) : ds.keyLease.lookup k ≠ some id := by
  intro hk
  obtain ⟨l, hl, -⟩ := (hinv.attached k id).mp hk
  exact hdead (Finmap.mem_of_lookup_eq_some hl)

/-! ## Repeated removals -/

theorem revokeLease_dead {ds : DataStore} {id : Int} (h : id ∉ ds.leases)
    (order : RangeOrder String) : ds.revokeLease order id = (ds, []) := by
  rw [DataStore.revokeLease, Finmap.lookup_eq_none.mpr h]

theorem expireLeases_dead {ds : DataStore} (leaseKeys : Int → RangeOrder String)
    (pairs : GoMap String String) {ids : List Int} (h : ∀ id ∈ ids, id ∉ ds.leases) :
    KVService.expireLeases leaseKeys ds ids pairs = (ds, pairs) := by
  induction ids with
  | nil => rfl
  | cons id ids ih =>
    rw [KVService.expireLeases, revokeLease_dead (h id List.mem_cons_self)]
    exact ih fun id' hmem => h id' (List.mem_cons_of_mem _ hmem)

/-- Removing leases that are not live gives the store back and an empty result map. -/
theorem execute_removal_dead (env : Env) {ds : DataStore} {cmd : Command}
    (hkind : cmd.kind = .leaseRevoke ∨ cmd.kind = .leaseExpiry)
    (hdead : ∀ id ∈ cmd.removals, id ∉ ds.leases) :
    KVService.execute env ds cmd = (ds, { cmd with }) := by
  unfold KVService.execute
  unfold Command.removals at hdead
  rcases hkind with hkind | hkind
  · simp only [hkind] at hdead ⊢
    rw [revokeLease_dead (hdead cmd.leaseID List.mem_cons_self)]
    rfl
  · simp only [hkind] at hdead ⊢
    rw [expireLeases_dead env.leaseKeys ∅ hdead]

/-- Such a removal changes nothing in the store and pushes no event. -/
theorem handleCommand_removal_dead (codec : SnapshotCodec β) (env : Env) {cmd : Command}
    (index : Int)
    (hkind : cmd.kind = .leaseRevoke ∨ cmd.kind = .leaseExpiry)
    (hdead : ∀ id ∈ cmd.removals, id ∉ s.ds.leases) :
    (s.handleCommand codec env cmd index).1.ds = s.ds ∧
      (s.handleCommand codec env cmd index).2.events = [] := by
  rw [KVService.handleCommand_ds, KVService.handleCommand_events]
  cases hd : s.isDuplicate cmd with
  | true =>
    rw [KVService.applyCommand_duplicate hd]
    exact ⟨rfl, rfl⟩
  | false =>
    have hexec := execute_removal_dead env hkind hdead
    rw [KVService.applyCommand_fresh hd, hexec]
    refine ⟨rfl, ?_⟩
    have hnone : KVService.deleteEvents env.pairs ∅ (s.nextRevision cmd) = [] := by
      rw [KVService.deleteEvents, Finmap.keys_empty, RangeOrder.keys_empty]
      rfl
    rcases hkind with hkind | hkind <;> simp only [KVService.watchEvents, hkind] <;> exact hnone

end LeaseRemovalLemmas

open LeaseRemovalLemmas

/-! ## Main result -/

/-- On all replicas of a log, restored or not, with fewer than `2 ^ 63` grants: two
grants never return the same id, and the ids fit in an `int64`; a lease that an entry
has removed is live on no replica further on, and no key is attached to it there; and
a revoke or expiry that names only removed leases leaves the store as it is and pushes
no event. -/
theorem lease_removal_final (codec : SnapshotCodec β) {log : List Command}
    (hgrants : grants log < 2 ^ 63) :
    (∀ i id, GrantedAt codec log i id → id < 2 ^ 63 ∧
      ∀ j id', GrantedAt codec log j id' → i ≠ j → id ≠ id') ∧
    (∀ i id, RemovedAt codec log i id → ∀ n s, i < n → (replicated codec).ReplicaAt log n s →
      id ∉ s.ds.leases ∧ ∀ k, s.ds.keyLease.lookup k ≠ some id) ∧
    (∀ n s env cmd, (replicated codec).ReplicaAt log n s → log[n]? = some cmd →
      cmd.kind = .leaseRevoke ∨ cmd.kind = .leaseExpiry →
      (∀ id ∈ cmd.removals, ∃ i < n, RemovedAt codec log i id) →
      let r := s.handleCommand codec env cmd n
      r.1.ds.data = s.ds.data ∧ r.1.ds.keyLease = s.ds.keyLease ∧ r.1.ds.leases = s.ds.leases ∧
        r.2.events = []) := by
  refine ⟨fun i id hi => ⟨?_, fun j id' hj hij => ?_⟩, fun i id hr n s hin hs => ?_,
    fun n s env cmd hs _ hkind hremoved => ?_⟩
  · exact lt_of_le_of_lt (granted_le hi) (Int.ofNat_lt.mpr hgrants)
  · rcases Nat.lt_or_gt_of_ne hij with hlt | hgt
    · exact ne_of_lt (granted_lt hi hj hlt)
    · exact ne_of_gt (granted_lt hj hi hgt)
  · have hretired := retired_of_removedAt hr hin hs
    exact ⟨hretired.2, not_attached (leaseInv_replica hs) hretired.2⟩
  · have hdead : ∀ id ∈ cmd.removals, id ∉ s.ds.leases := by
      intro id hid
      obtain ⟨i, hin, hr⟩ := hremoved id hid
      exact (retired_of_removedAt hr hin hs).2
    obtain ⟨hds, hevents⟩ := handleCommand_removal_dead codec env n hkind hdead
    intro r
    rw [hds]
    exact ⟨rfl, rfl, rfl, hevents⟩

/-- The lease of a key is revoked, the expiry loop lists it once more, and the key is
put again under the id. -/
def repeatedRemovalLog : List Command :=
  [{ kind := .leaseGrant, leaseTTL := 1 }, { kind := .put, key := "a", leaseID := 1 },
    { kind := .leaseRevoke, leaseID := 1 }, { kind := .leaseExpiry, leaseIDs := [1] },
    { kind := .put, key := "a", leaseID := 1 }, { kind := .leaseGrant, leaseTTL := 1 }]

/-- Entry 2 of `repeatedRemovalLog` removes the lease, and no replica has it after
that. -/
theorem lease_removal_final_repeated :
    RemovedAt .plain repeatedRemovalLog 2 1 ∧
    ∀ n s, 2 < n → (replicated .plain).ReplicaAt repeatedRemovalLog n s →
      1 ∉ s.ds.leases ∧ ∀ k, s.ds.keyLease.lookup k ≠ some 1 := by
  have hremoved : RemovedAt .plain repeatedRemovalLog 2 1 :=
    ⟨_, .at 0, repeatedRemovalLog[2], (ReplicatedMachine.ReplicaAt.init.apply (.at 0) rfl).apply
      (.at 0) rfl, rfl, .inl rfl, by decide, by decide⟩
  exact ⟨hremoved, (lease_removal_final .plain (by decide)).2.1 2 1 hremoved⟩

end Zodiac
