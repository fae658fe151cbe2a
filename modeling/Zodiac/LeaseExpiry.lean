import Zodiac.LeaseInvariant
import Zodiac.Lib.Machine
import Zodiac.Service

/-!
# Renewed leases and the expiry loop

`startLeaseExpiryLoop` and the apply loop of one node with one clock. The loop
lists the leases whose time is over, and submits their ids later; the entry is
applied later still. `KeepAlive` entries may be applied in between.

* `TermsKept`: an operation leaves the duration and the deadline of every lease.
* `ExpiryInv`: what a renewal says about the lease, and a list of expired leases
  about the renewals before it, at any later time.
* `renewed_lease_kept`: an expiry does not remove a renewed lease early when no
  lease of its list has been renewed since it was listed.
* `renewed_lease_expired`, `overflowing_lease_expired`: it does when one has, and
  when the TTL overflows.
-/

namespace Zodiac

/-! ## The node -/

/-- A `KeepAlive` entry that found its lease: when, and the TTL in seconds. -/
structure Renewal where
  id : Int
  time : Time
  ttl : Int
deriving DecidableEq

/-- The time that a renewal promises, at least. -/
def Renewal.deadline (r : Renewal) : Time := r.time + r.ttl * 1000000000

/-- A log entry. For an expiry, the ghost `seen` is the number of renewals that had
been applied when its leases were listed. -/
structure LeaseEntry where
  cmd : Command
  seen : Nat

/-- A node: its clock, its state, the list that the expiry loop has made and not
submitted yet, its log and how much of it is applied, and the renewals so far. -/
structure LeaseNode where
  now : Time
  service : KVService
  checked : Option (List Int × Nat)
  log : List LeaseEntry
  applied : Nat
  renewals : List Renewal

/-- Atomic steps. -/
inductive LeaseStep
  /-- Time passes. -/
  | advance (d : Nat)
  /-- A tick of the expiry loop, up to `CheckExpiredLeases`. -/
  | tick (order : RangeOrder Int)
  /-- The `Submit` of the loop, which a node that is not the leader drops. -/
  | submit (isLeader : Bool)
  /-- Any other entry gets into the log. Expiries of other nodes are left out: the node sees no
  expiry but its own. -/
  | append (cmd : Command)
  /-- The next entry is applied. -/
  | apply (env : Env)

namespace LeaseNode

/-- What the entry adds to the renewals. -/
def renewalOf (s : LeaseNode) (cmd : Command) : List Renewal :=
  if cmd.kind = .leaseKeepAlive ∧ s.service.isDuplicate cmd = false then
    ((s.service.ds.leases.lookup cmd.leaseID).map fun l =>
      { id := cmd.leaseID, time := s.now, ttl := l.ttl }).toList
  else []

/-- Apply an entry, by the node's clock. -/
def apply {β : Type} (codec : SnapshotCodec β) (s : LeaseNode) (env : Env) (e : LeaseEntry) :
    LeaseNode :=
  { s with
    service := (s.service.handleCommand codec { env with now := s.now } e.cmd s.applied).1
    applied := s.applied + 1
    renewals := s.renewals ++ s.renewalOf e.cmd }

end LeaseNode

/-- The node as a machine. -/
def leaseNode {β : Type} (codec : SnapshotCodec β) : Machine LeaseNode LeaseStep where
  init := { now := 0, service := .new, checked := none, log := [], applied := 0, renewals := [] }
  step s
    | .advance d => some { s with now := s.now + d }
    | .tick order =>
      match s.checked, s.service.ds.checkExpiredLeases s.now order with
      | some _, _ => none
      | none, [] => some s
      | none, ids => some { s with checked := some (ids, s.renewals.length) }
    | .submit isLeader =>
      s.checked.map fun c =>
        { s with
          checked := none
          log := if isLeader then
              s.log ++ [{ cmd := { kind := .leaseExpiry, leaseIDs := c.1 }, seen := c.2 }]
            else s.log }
    | .append cmd =>
      -- an expiry of another node
      if cmd.kind = .leaseExpiry then none else some { s with log := s.log ++ [⟨cmd, 0⟩] }
    | .apply env => (s.log[s.applied]?).map (s.apply codec env)

/-- The largest `time.Duration`. -/
def maxDuration : Int := 9223372036854775807

/-- No lease of an expiry is renewed between the check that lists it and the
application of the entry, and the TTL of a renewed lease does not overflow. -/
def NoRenewalBetween (s : LeaseNode) : LeaseStep → Prop
  | .apply _ => ∀ e ∈ s.log[s.applied]?,
    (e.cmd.kind = .leaseExpiry → ∀ r ∈ s.renewals.drop e.seen, r.id ∉ e.cmd.leaseIDs) ∧
    (e.cmd.kind = .leaseKeepAlive → ∀ l ∈ s.service.ds.leases.lookup e.cmd.leaseID,
      l.ttl * 1000000000 ≤ maxDuration)
  | .advance _ | .tick _ | .submit _ | .append _ => True

instance (s : LeaseNode) : (a : LeaseStep) → Decidable (NoRenewalBetween s a)
  | .apply _ => inferInstanceAs (Decidable (∀ e ∈ s.log[s.applied]?,
      (e.cmd.kind = .leaseExpiry → ∀ r ∈ s.renewals.drop e.seen, r.id ∉ e.cmd.leaseIDs) ∧
      (e.cmd.kind = .leaseKeepAlive → ∀ l ∈ s.service.ds.leases.lookup e.cmd.leaseID,
        l.ttl * 1000000000 ≤ maxDuration)))
  | .advance _ | .tick _ | .submit _ | .append _ => inferInstanceAs (Decidable True)

/-- Every live lease with a renewal whose time is not over stays, and so do its keys
and their values. -/
def RenewedKept (s s' : LeaseNode) : Prop :=
  ∀ r ∈ s.renewals, s.now < r.deadline → ∀ l, s.service.ds.leases.lookup r.id = some l →
    s'.service.ds.leases.lookup r.id = some l ∧
    ∀ k ∈ l.keys, s'.service.ds.data.lookup k = s.service.ds.data.lookup k

namespace LeaseExpiryLemmas

/-! ## The store under the commands -/

theorem leaseInv_expireLeases (leaseKeys : Int → RangeOrder String) (ids : List Int) :
    ∀ {ds : DataStore} (pairs : GoMap String String), LeaseInv ds →
      LeaseInv (KVService.expireLeases leaseKeys ds ids pairs).1 := by
  induction ids with
  | nil => exact fun _ h => h
  | cons id ids ih => exact fun _ h => ih _ (h.revokeLease _ id)

theorem leaseInv_execute {ds : DataStore} (h : LeaseInv ds) (env : Env) (cmd : Command) :
    LeaseInv (KVService.execute env ds cmd).1 :=
  KVService.execute_ds_of (fun _ _ hmoves => h.moves hmoves) (fun _ => h.grantLease _ _)
    (fun _ => h.keepAliveLease _ _) (fun _ => h.revokeLease _ _)
    fun _ => leaseInv_expireLeases _ _ _ h

theorem leaseInv_applyCommand {s : KVService} (h : LeaseInv s.ds) (env : Env) (cmd : Command) :
    LeaseInv (s.applyCommand env cmd).1.ds :=
  KVService.applyCommand_ds_of h (leaseInv_execute h env cmd)

/-- Every lease of `ds'` is one of `ds`, with the same duration and deadline. -/
structure TermsKept (ds ds' : DataStore) : Prop where
  seq : ds'.leaseIDSeq = ds.leaseIDSeq
  lease : ∀ id l', ds'.leases.lookup id = some l' →
    ∃ l, ds.leases.lookup id = some l ∧ l'.ttl = l.ttl ∧ l'.expiresAt = l.expiresAt

namespace TermsKept

variable {ds ds' ds'' : DataStore}

theorem refl (ds : DataStore) : TermsKept ds ds := ⟨rfl, fun _ l' hl' => ⟨l', hl', rfl, rfl⟩⟩

theorem trans (h : TermsKept ds ds') (h' : TermsKept ds' ds'') : TermsKept ds ds'' := by
  refine ⟨h'.seq.trans h.seq, fun id l'' hl'' => ?_⟩
  obtain ⟨l', hl', httl', hexp'⟩ := h'.lease id l'' hl''
  obtain ⟨l, hl, httl, hexp⟩ := h.lease id l' hl'
  exact ⟨l, hl, httl'.trans httl, hexp'.trans hexp⟩

theorem detach (ds : DataStore) (key : String) : TermsKept ds (ds.detachKeyFromLease key) := by
  refine ⟨DataStore.detachKeyFromLease_leaseIDSeq ds key, fun id l' hl' => ?_⟩
  rw [DataStore.detachKeyFromLease_leases] at hl'
  split at hl'
  · obtain ⟨l, hl, rfl⟩ := Option.map_eq_some_iff.mp hl'
    exact ⟨l, hl, rfl, rfl⟩
  · exact ⟨l', hl', rfl, rfl⟩

theorem link {key : String} {id : Int} {l : Lease} (hl : ds.leases.lookup id = some l) :
    TermsKept ds { ds with
      leases := ds.leases.insert id { l with keys := insert key l.keys }
      keyLease := ds.keyLease.insert key id } := by
  refine ⟨rfl, fun id' l' hl' => ?_⟩
  rw [Finmap.lookup_insert_ite] at hl'
  split at hl'
  · next heq =>
    cases hl'
    exact ⟨l, by rw [heq]; exact hl, rfl, rfl⟩
  · exact ⟨l', hl', rfl, rfl⟩

theorem move (hmove : ds.Move ds') : TermsKept ds ds' := by
  cases hmove with
  | detach key => exact detach ds key
  | setData _ _ | eraseData _ => exact ⟨rfl, (refl ds).lease⟩
  | link _ _ hl => exact link hl

theorem moves (hmoves : ds.Moves ds') : TermsKept ds ds' := by
  induction hmoves with
  | refl => exact refl ds
  | tail _ hmove ih => exact ih.trans (move hmove)

theorem revoke (ds : DataStore) (order : RangeOrder String) (id : Int) :
    TermsKept ds (ds.revokeLease order id).1 := by
  unfold DataStore.revokeLease
  split
  · exact refl ds
  · refine ⟨rfl, fun id' l' hl' => ?_⟩
    rw [Finmap.lookup_erase_ite] at hl'
    split at hl'
    · cases hl'
    · exact ⟨l', hl', rfl, rfl⟩

theorem expireLeases (leaseKeys : Int → RangeOrder String) (ids : List Int) :
    ∀ (ds : DataStore) (pairs : GoMap String String),
      TermsKept ds (KVService.expireLeases leaseKeys ds ids pairs).1 := by
  induction ids with
  | nil => exact fun ds _ => refl ds
  | cons id ids ih => exact fun ds _ => (revoke ds _ id).trans (ih _ _)

end TermsKept

/-- What a command may do to the terms of the leases: a lease gets a new deadline
only as a renewal, and new ids lie above the counter. -/
structure TermsAfter (env : Env) (cmd : Command) (ds ds' : DataStore) : Prop where
  seq : ds.leaseIDSeq ≤ ds'.leaseIDSeq
  lease : ∀ id l', ds'.leases.lookup id = some l' →
    ds.leaseIDSeq < id ∨ ∃ l, ds.leases.lookup id = some l ∧ l'.ttl = l.ttl ∧
      (l'.expiresAt = l.expiresAt ∨ cmd.kind = .leaseKeepAlive ∧ cmd.leaseID = id ∧
        l'.expiresAt = env.now + durationOfSeconds l.ttl)

theorem TermsKept.after {env : Env} {cmd : Command} {ds ds' : DataStore} (h : TermsKept ds ds') :
    TermsAfter env cmd ds ds' := by
  refine ⟨le_of_eq h.seq.symm, fun id l' hl' => ?_⟩
  obtain ⟨l, hl, httl, hexp⟩ := h.lease id l' hl'
  exact .inr ⟨l, hl, httl, .inl hexp⟩

theorem termsAfter_execute (env : Env) (ds : DataStore) (cmd : Command) :
    TermsAfter env cmd ds (KVService.execute env ds cmd).1 := by
  refine KVService.execute_ds_of (fun _ _ hmoves => (TermsKept.moves hmoves).after) (fun _ => ?_)
    (fun hkind => ?_) (fun _ => (TermsKept.revoke ds _ _).after)
    fun _ => (TermsKept.expireLeases _ _ ds _).after
  · -- a grant
    refine ⟨Int.le_add_one le_rfl, fun id l' hl' => ?_⟩
    simp only [DataStore.grantLease, Finmap.lookup_insert_ite] at hl'
    split at hl'
    · next hid => exact .inl (by omega)
    · exact .inr ⟨l', hl', rfl, .inl rfl⟩
  · -- a renewal
    unfold DataStore.keepAliveLease
    cases hl : ds.leases.lookup cmd.leaseID with
    | none => exact (TermsKept.refl ds).after
    | some l =>
      refine ⟨le_rfl, fun id l' hl' => .inr ?_⟩
      simp only [Finmap.lookup_insert_ite] at hl'
      split at hl'
      · next hid =>
        cases hl'
        subst hid
        exact ⟨l, hl, rfl, .inr ⟨hkind, rfl, rfl⟩⟩
      · exact ⟨l', hl', rfl, .inl rfl⟩

theorem termsAfter_applyCommand (env : Env) (s : KVService) (cmd : Command) :
    TermsAfter env cmd s.ds (s.applyCommand env cmd).1.ds :=
  KVService.applyCommand_ds_of (TermsKept.refl s.ds).after (termsAfter_execute env s.ds cmd)

/-! ## Leases that an expiry does not list -/

theorem revokeLease_other {ds : DataStore} (hinv : LeaseInv ds) (order : RangeOrder String)
    {id id' : Int} (hne : id ≠ id') {l : Lease} (hl : ds.leases.lookup id = some l) :
    (ds.revokeLease order id').1.leases.lookup id = some l ∧
    ∀ k ∈ l.keys, (ds.revokeLease order id').1.data.lookup k = ds.data.lookup k := by
  unfold DataStore.revokeLease
  split
  · exact ⟨hl, fun _ _ => rfl⟩
  · next l' hl' =>
    refine ⟨by rw [Finmap.lookup_erase_ite, if_neg hne, hl], fun k hk => ?_⟩
    -- no key is in the key sets of both leases
    have hfree : k ∉ order.keys l'.keys := fun hk' =>
      hne (hinv.lease_unique hl hk hl' (order.mem_keys.mp hk'))
    rw [Finmap.lookup_eraseAll, if_neg hfree]

theorem expireLeases_other (leaseKeys : Int → RangeOrder String) {id : Int} {l : Lease}
    {ids : List Int} (hid : id ∉ ids) : ∀ {ds : DataStore} (pairs : GoMap String String),
    LeaseInv ds → ds.leases.lookup id = some l →
    (KVService.expireLeases leaseKeys ds ids pairs).1.leases.lookup id = some l ∧
    ∀ k ∈ l.keys, (KVService.expireLeases leaseKeys ds ids pairs).1.data.lookup k =
      ds.data.lookup k := by
  induction ids with
  | nil => exact fun _ _ hl => ⟨hl, fun _ _ => rfl⟩
  | cons id' ids ih =>
    intro ds pairs hinv hl
    rw [List.mem_cons, not_or] at hid
    obtain ⟨hkept, hdata⟩ := revokeLease_other hinv (leaseKeys id') hid.1 hl
    obtain ⟨hrest, hrestdata⟩ := ih hid.2 _ (hinv.revokeLease (leaseKeys id') id') hkept
    exact ⟨hrest, fun k hk => (hrestdata k hk).trans (hdata k hk)⟩

/-! ## The invariant -/

theorem le_durationOfSeconds {ttl : Int} (h : ttl * 1000000000 ≤ maxDuration) :
    ttl * 1000000000 ≤ durationOfSeconds ttl := by
  unfold durationOfSeconds Int.bmod
  unfold maxDuration at h
  dsimp only
  split
  · omega
  · omega

/-- The renewals before a check of the leases `ids` have run out by `now`. -/
structure RanOut (renewals : List Renewal) (now : Time) (ids : List Int) (seen : Nat) : Prop where
  seen_le : seen ≤ renewals.length
  ranOut : ∀ r ∈ renewals.take seen, r.id ∈ ids → r.deadline < now

theorem RanOut.mono {renewals : List Renewal} {now now' : Time} {ids : List Int} {seen : Nat}
    (h : RanOut renewals now ids seen) (new : List Renewal) (hnow : now ≤ now') :
    RanOut (renewals ++ new) now' ids seen := by
  refine ⟨?_, fun r hr hid => ?_⟩
  · rw [List.length_append]
    exact le_trans h.seen_le (Nat.le_add_right _ _)
  · rw [List.take_append_of_le_length h.seen_le] at hr
    exact lt_of_lt_of_le (h.ranOut r hr hid) hnow

/-- A renewal is of an id that has been issued, and a lease lasts as long as each of
its renewals says. -/
structure Promised (s : LeaseNode) (r : Renewal) : Prop where
  issued : r.id ≤ s.service.ds.leaseIDSeq
  past : r.time ≤ s.now
  kept : ∀ l, s.service.ds.leases.lookup r.id = some l → l.ttl = r.ttl ∧ r.deadline ≤ l.expiresAt

structure ExpiryInv (s : LeaseNode) : Prop where
  store : LeaseInv s.service.ds
  promised : ∀ r ∈ s.renewals, Promised s r
  checked : ∀ c ∈ s.checked, RanOut s.renewals s.now c.1 c.2
  logged : ∀ e ∈ s.log, e.cmd.kind = .leaseExpiry →
    RanOut s.renewals s.now e.cmd.leaseIDs e.seen

/-- A check lists leases whose renewals have run out. -/
theorem listed_check {s : LeaseNode} (h : ExpiryInv s) (order : RangeOrder Int) :
    RanOut s.renewals s.now (s.service.ds.checkExpiredLeases s.now order) s.renewals.length := by
  refine ⟨le_rfl, fun r hr hid => ?_⟩
  obtain ⟨_, hexp⟩ := List.mem_filter.mp hid
  cases hl : s.service.ds.leases.lookup r.id with
  | none => simp [hl] at hexp
  | some l =>
    simp only [hl, decide_eq_true_eq] at hexp
    rw [List.take_length] at hr
    exact lt_of_le_of_lt ((h.promised r hr).kept l hl).2 hexp

variable {β : Type} {codec : SnapshotCodec β}

theorem apply_ds (codec : SnapshotCodec β) (s : LeaseNode) (env : Env) (e : LeaseEntry) :
    (s.apply codec env e).service.ds =
      (s.service.applyCommand { env with now := s.now } e.cmd).1.ds :=
  KVService.handleCommand_ds codec _ _ _ _

/-- The promise of the renewal that is being applied. -/
theorem promised_renewal {s : LeaseNode} (h : LeaseInv s.service.ds) {env : Env} {e : LeaseEntry}
    (httl : e.cmd.kind = .leaseKeepAlive → ∀ l ∈ s.service.ds.leases.lookup e.cmd.leaseID,
      l.ttl * 1000000000 ≤ maxDuration)
    {r : Renewal} (hr : r ∈ s.renewalOf e.cmd) : Promised (s.apply codec env e) r := by
  unfold LeaseNode.renewalOf at hr
  split at hr
  · next hkeep =>
    obtain ⟨hkind, hfresh⟩ := hkeep
    obtain ⟨l, hl, rfl⟩ := Option.map_eq_some_iff.mp (Option.mem_toList.mp hr)
    have hover := le_durationOfSeconds (httl hkind l hl)
    have hds : (s.apply codec env e).service.ds =
        (s.service.ds.keepAliveLease s.now e.cmd.leaseID).1 := by
      rw [apply_ds, KVService.applyCommand_fresh hfresh, KVService.execute, hkind]
    simp only [DataStore.keepAliveLease, hl] at hds
    refine ⟨?_, le_rfl, fun l' hl' => ?_⟩
    · rw [hds]
      exact (h.stored _ l hl).2.2
    · rw [hds, Finmap.lookup_insert_ite, if_pos rfl] at hl'
      cases hl'
      exact ⟨rfl, Int.add_le_add_left hover _⟩
  · cases hr

/-- Applying an entry keeps the promises made before. -/
theorem Promised.apply {s : LeaseNode} {r : Renewal} (h : Promised s r) {env : Env}
    {e : LeaseEntry}
    (httl : e.cmd.kind = .leaseKeepAlive → ∀ l ∈ s.service.ds.leases.lookup e.cmd.leaseID,
      l.ttl * 1000000000 ≤ maxDuration) : Promised (s.apply codec env e) r := by
  have hterms := termsAfter_applyCommand { env with now := s.now } s.service e.cmd
  rw [← apply_ds codec] at hterms
  refine ⟨le_trans h.issued hterms.seq, h.past, fun l' hl' => ?_⟩
  rcases hterms.lease r.id l' hl' with hnew | ⟨l, hl, hsame, hexp⟩
  · exact absurd h.issued (not_le.mpr hnew)
  · obtain ⟨hrttl, hdeadline⟩ := h.kept l hl
    refine ⟨hsame.trans hrttl, ?_⟩
    rcases hexp with hexp | ⟨hkind, hid, hexp⟩
    · rw [hexp]
      exact hdeadline
    · -- renewed again, later and for the same duration
      have hover := le_durationOfSeconds (httl hkind l (by rw [hid]; exact hl))
      have hpast := h.past
      rw [hexp, Renewal.deadline, ← hrttl]
      exact Int.add_le_add hpast hover

theorem expiryInv_init : ExpiryInv (leaseNode codec).init where
  store := .new
  promised _ hr := absurd hr List.not_mem_nil
  checked _ hc := nomatch hc
  logged _ he := absurd he List.not_mem_nil

/-- A step that leaves the store and the renewals alone. -/
theorem ExpiryInv.frame {s s' : LeaseNode} (h : ExpiryInv s) (hservice : s'.service = s.service)
    (hren : s'.renewals = s.renewals) (hnow : s.now ≤ s'.now)
    (hchecked : ∀ c ∈ s'.checked, RanOut s.renewals s.now c.1 c.2)
    (hlog : ∀ e ∈ s'.log, e.cmd.kind = .leaseExpiry →
      RanOut s.renewals s.now e.cmd.leaseIDs e.seen) : ExpiryInv s' := by
  have hlisted : ∀ {ids seen}, RanOut s.renewals s.now ids seen →
      RanOut s'.renewals s'.now ids seen := by
    intro ids seen hl
    have hl := hl.mono [] hnow
    rwa [List.append_nil, ← hren] at hl
  refine ⟨by rw [hservice]; exact h.store, fun r hr => ?_, fun c hc => hlisted (hchecked c hc),
    fun e he hkind => hlisted (hlog e he hkind)⟩
  rw [hren] at hr
  obtain ⟨hissued, hpast, hkept⟩ := h.promised r hr
  refine ⟨?_, le_trans hpast hnow, ?_⟩
  · rw [hservice]
    exact hissued
  · rw [hservice]
    exact hkept

theorem ExpiryInv.step {s s' : LeaseNode} {a : LeaseStep} (h : ExpiryInv s)
    (hg : NoRenewalBetween s a) (hs : (leaseNode codec).step s a = some s') : ExpiryInv s' := by
  cases a with
  | advance d =>
    cases hs
    exact h.frame rfl rfl (Int.le_add_of_nonneg_right (Int.natCast_nonneg d)) h.checked h.logged
  | tick order =>
    simp only [leaseNode] at hs
    split at hs
    · cases hs
    · cases hs
      exact h
    · cases hs
      refine h.frame rfl rfl le_rfl ?_ h.logged
      rintro c ⟨⟩
      exact listed_check h order
  | submit isLeader =>
    obtain ⟨c, hc, rfl⟩ := Option.map_eq_some_iff.mp hs
    refine h.frame rfl rfl le_rfl nofun fun e he hkind => ?_
    dsimp only at he
    split at he
    · rcases List.mem_append.mp he with hold | hnew
      · exact h.logged e hold hkind
      · obtain rfl := List.mem_singleton.mp hnew
        exact h.checked c hc
    · exact h.logged e he hkind
  | append cmd =>
    simp only [leaseNode] at hs
    split at hs
    · cases hs
    · next hother =>
      cases hs
      refine h.frame rfl rfl le_rfl h.checked fun e he hkind => ?_
      rcases List.mem_append.mp he with hold | hnew
      · exact h.logged e hold hkind
      · obtain rfl := List.mem_singleton.mp hnew
        exact absurd hkind hother
  | apply env =>
    obtain ⟨e, he, rfl⟩ := Option.map_eq_some_iff.mp hs
    have httl := (hg e he).2
    refine ⟨?_, fun r hr => ?_, fun c hc => (h.checked c hc).mono _ le_rfl,
      fun e' he' hkind => (h.logged e' he' hkind).mono _ le_rfl⟩
    · rw [apply_ds]
      exact leaseInv_applyCommand h.store _ _
    · rcases List.mem_append.mp hr with hold | hnew
      · exact (h.promised r hold).apply httl
      · exact promised_renewal h.store httl hnew

theorem expiryInv_of_reachable {s : LeaseNode}
    (h : (leaseNode codec).ReachableBy NoRenewalBetween s) : ExpiryInv s :=
  h.invariant expiryInv_init fun _ _ _ _ hinv hg hs => hinv.step hg hs

end LeaseExpiryLemmas

open LeaseExpiryLemmas

/-! ## Main results -/

/-- In every run without renewals between a check and its expiry, no expiry removes
a lease, or a key of it, before the time that a renewal of the lease promises. -/
theorem renewed_lease_kept {β : Type} (codec : SnapshotCodec β) {s s' : LeaseNode} {env : Env}
    {e : LeaseEntry} (hreach : (leaseNode codec).ReachableBy NoRenewalBetween s)
    (hg : NoRenewalBetween s (.apply env)) (he : s.log[s.applied]? = some e)
    (hkind : e.cmd.kind = .leaseExpiry) (hs : (leaseNode codec).step s (.apply env) = some s') :
    RenewedKept s s' := by
  intro r hr hearly l hl
  have hinv := expiryInv_of_reachable hreach
  -- the renewal is older than the check and would have run out, so its lease is not listed
  have hlisted := hinv.logged e (List.mem_of_getElem? he) hkind
  have hid : r.id ∉ e.cmd.leaseIDs := by
    intro hid
    rw [← List.take_append_drop e.seen s.renewals] at hr
    rcases List.mem_append.mp hr with hbefore | hafter
    · exact absurd (hlisted.ranOut r hbefore hid) (not_lt_of_gt hearly)
    · exact (hg e he).1 hkind r hafter hid
  simp only [leaseNode, he, Option.map_some, Option.some.injEq] at hs
  subst hs
  have hkeep := expireLeases_other env.leaseKeys hid ∅ hinv.store hl
  cases hd : s.service.isDuplicate e.cmd with
  | true =>
    rw [apply_ds, KVService.applyCommand_duplicate hd]
    exact ⟨hl, fun _ _ => rfl⟩
  | false =>
    rw [apply_ds, KVService.applyCommand_fresh hd, KVService.execute, hkind]
    exact hkeep

/-- Two seconds: a lease of one second is over, one of five is not. -/
def twoSeconds : Nat := 2000000000

/-- Lease 2 is renewed and keeps `b`; lease 1 is listed and its expiry is the next
entry. -/
def staleLeaseListed : List LeaseStep :=
  [.append { kind := .leaseGrant, leaseTTL := 1 }, .append { kind := .leaseGrant, leaseTTL := 5 },
    .append { kind := .put, key := "a", value := "x", leaseID := 1 },
    .append { kind := .put, key := "b", value := "y", leaseID := 2 },
    .append { kind := .leaseKeepAlive, leaseID := 2 },
    .apply (Env.at 0), .apply (Env.at 0), .apply (Env.at 0), .apply (Env.at 0), .apply (Env.at 0),
    .advance twoSeconds, .tick .ascending, .submit true]

theorem renewed_lease_kept_other :
    ∃ s s', (leaseNode .plain).ReachableBy NoRenewalBetween s ∧
      (leaseNode .plain).step s (.apply (Env.at 0)) = some s' ∧
      s.renewals = [{ id := 2, time := 0, ttl := 5 }] ∧ s'.service.ds.data.keys = {"b"} ∧
      RenewedKept s s' := by
  obtain ⟨s, hreach, hs⟩ := Machine.exists_reachableBy (M := leaseNode .plain)
    (G := NoRenewalBetween) staleLeaseListed
    (fun s => (decide (NoRenewalBetween s (.apply (Env.at 0))), s.log[s.applied]?.map (·.cmd.kind),
      ((leaseNode .plain).step s (.apply (Env.at 0))).map fun s' => s'.service.ds.data.keys,
      s.renewals))
    (x := (true, some .leaseExpiry, some {"b"}, [{ id := 2, time := 0, ttl := 5 }])) (by decide)
  simp only [Prod.mk.injEq, Option.map_eq_some_iff, decide_eq_true_eq] at hs
  obtain ⟨hg, ⟨e, he, hkind⟩, ⟨s', hstep, hkeys⟩, hren⟩ := hs
  exact ⟨s, s', hreach, hstep, hren, hkeys, renewed_lease_kept .plain hreach hg he hkind hstep⟩

/-! ## Early expiries -/

namespace LeaseExpiryLemmas

theorem not_renewedKept {s s' : LeaseNode} {r : Renewal} (hren : s.renewals = [r])
    (hearly : s.now < r.deadline) (hlive : s.service.ds.leases.keys = {r.id})
    (hgone : s'.service.ds.leases.keys = ∅) : ¬ RenewedKept s s' := by
  intro hkept
  obtain ⟨l, hl⟩ := Finmap.mem_iff.mp (Finmap.mem_keys.mp (hlive ▸ Finset.mem_singleton_self r.id))
  have hstill := (hkept r (hren ▸ List.mem_singleton_self r) hearly l hl).1
  have hmem := Finmap.mem_keys.mpr (Finmap.mem_of_lookup_eq_some hstill)
  rw [hgone] at hmem
  exact absurd hmem (Finset.notMem_empty _)

end LeaseExpiryLemmas

/-- Lease 1 is listed when its second is over. The renewal is applied before the
expiry gets into the log. -/
def renewedAfterCheck : List LeaseStep :=
  [.append { kind := .leaseGrant, leaseTTL := 1 },
    .append { kind := .put, key := "a", value := "x", leaseID := 1 },
    .apply (Env.at 0), .apply (Env.at 0),
    .advance twoSeconds, .tick .ascending,
    .append { kind := .leaseKeepAlive, leaseID := 1 }, .apply (Env.at 0), .submit true]

/-- The expiry is applied at the very time of the renewal, and removes the lease
with its key. -/
theorem renewed_lease_expired :
    ∃ s s', (leaseNode .plain).Reachable s ∧
      s.log[s.applied]?.map LeaseEntry.cmd = some { kind := .leaseExpiry, leaseIDs := [1] } ∧
      (leaseNode .plain).step s (.apply (Env.at 0)) = some s' ∧
      ¬ RenewedKept s s' ∧
      s.renewals = [{ id := 1, time := twoSeconds, ttl := 1 }] ∧ s.now = twoSeconds ∧
      s.service.ds.leases.keys = {1} ∧ s'.service.ds.leases.keys = ∅ ∧
      s'.service.ds.data.keys = ∅ := by
  obtain ⟨s, hreach, hs⟩ := Machine.exists_reachableBy (M := leaseNode .plain)
    (G := fun _ _ => True) renewedAfterCheck
    (fun s => decide (s.log[s.applied]?.map LeaseEntry.cmd =
        some { kind := .leaseExpiry, leaseIDs := [1] } ∧
      s.renewals = [{ id := 1, time := twoSeconds, ttl := 1 }] ∧ s.now = twoSeconds ∧
      s.service.ds.leases.keys = {1} ∧
      (((leaseNode .plain).step s (.apply (Env.at 0))).map fun s' : LeaseNode =>
        (s'.service.ds.leases.keys, s'.service.ds.data.keys)) = some (∅, ∅)))
    (x := true) (by decide)
  obtain ⟨hcmd, hren, hnow, hlive, hafter⟩ := of_decide_eq_true hs
  obtain ⟨s', hstep, hempty⟩ := Option.map_eq_some_iff.mp hafter
  obtain ⟨hgone, hkeys⟩ := Prod.mk.inj hempty
  exact ⟨s, s', hreach, hcmd, hstep,
    not_renewedKept hren (by rw [hnow]; decide) hlive hgone, hren, hnow, hlive, hgone, hkeys⟩

/-- A TTL of more seconds than a `time.Duration` has room for. -/
def overflowingTTL : List LeaseStep :=
  [.append { kind := .leaseGrant, leaseTTL := 9223372037 },
    .append { kind := .leaseKeepAlive, leaseID := 1 },
    .apply (Env.at 0), .apply (Env.at 0), .tick .ascending, .submit true]

/-- The deadline of the renewed lease lies in the past, and the next tick lists it. -/
theorem overflowing_lease_expired :
    ∃ s s', (leaseNode .plain).Reachable s ∧
      (leaseNode .plain).step s (.apply (Env.at 0)) = some s' ∧ ¬ RenewedKept s s' := by
  obtain ⟨s, hreach, hs⟩ := Machine.exists_reachableBy (M := leaseNode .plain)
    (G := fun _ _ => True) overflowingTTL
    (fun s => decide (s.renewals = [{ id := 1, time := 0, ttl := 9223372037 }] ∧ s.now = 0 ∧
      s.service.ds.leases.keys = {1} ∧
      (((leaseNode .plain).step s (.apply (Env.at 0))).map fun s' : LeaseNode =>
        s'.service.ds.leases.keys) = some ∅))
    (x := true) (by decide)
  obtain ⟨hren, hnow, hlive, hafter⟩ := of_decide_eq_true hs
  obtain ⟨s', hstep, hgone⟩ := Option.map_eq_some_iff.mp hafter
  exact ⟨s, s', hreach, hstep, not_renewedKept hren (by rw [hnow]; decide) hlive hgone⟩

end Zodiac
