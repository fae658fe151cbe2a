import Zodiac.LeaseExpiry
import Zodiac.Revocation

/-!
# When a lease is reported as expired

`GrantLease` and `KeepAliveLease` compute a deadline in 64-bit nanoseconds, snapshots
carry it, and `CheckExpiredLeases` compares it with the clock. The terms of a lease,
which are the time of its last grant or keepalive and the TTL of the grant, are a
matter of the history.

* `dated_run`: the deadline of every lease is the one of its terms, after any
  operations, with snapshots restored on the way.
* `reported_iff`: a lease is reported exactly after its TTL has passed, if and only if
  the TTL fits in a `time.Duration`.
* `overflowing_lease_reported`: a TTL of 292 years and a bit is over at once.
-/

namespace Zodiac

/-! ## Terms -/

/-- When the lease was last granted or kept alive, and for how many seconds. -/
structure Term where
  renewedAt : Time
  ttl : Int
deriving DecidableEq

/-- A run with the terms of the leases so far and those of the saved copies. -/
structure TimedRun where
  run : StoreRun
  terms : GoMap Int Term
  savedTerms : List (GoMap Int Term)

namespace TimedRun

/-- A new store without leases. -/
def new : TimedRun := { run := .new, terms := ∅, savedTerms := [] }

/-- One operation. A grant sets the terms of its lease, a keepalive starts them anew,
and a restored snapshot brings its own terms back. -/
def step (h : TimedRun) (op : StoreOp) : TimedRun :=
  { run := h.run.step op
    terms := match op with
      | .grantLease now ttl =>
        h.terms.insert (h.run.ds.grantLease now ttl).2 { renewedAt := now, ttl := ttl }
      | .keepAliveLease now id =>
        match h.terms.lookup id with
        | some term => h.terms.insert id { term with renewedAt := now }
        | none => h.terms
      | .restore n => (h.savedTerms[n]?).getD h.terms
      | _ => h.terms
    savedTerms := match op with
      | .snapshot _ => h.savedTerms ++ [h.terms]
      | _ => h.savedTerms }

end TimedRun

/-- The terms of the leases after a sequence of operations. -/
def termsOf (ops : List StoreOp) : GoMap Int Term := (ops.foldl TimedRun.step .new).terms

namespace LeaseTimeLemmas

open LeaseExpiryLemmas RevocationLemmas

/-! ## Deadlines -/

/-- Every lease has terms, and its deadline is computed from them. -/
def Dated (terms : GoMap Int Term) (leases : GoMap Int Lease) : Prop :=
  ∀ id l, leases.lookup id = some l → ∃ term, terms.lookup id = some term ∧
    l.ttl = term.ttl ∧ l.expiresAt = term.renewedAt + durationOfSeconds term.ttl

variable {ds : DataStore} {terms : GoMap Int Term}

theorem Dated.kept {ds' : DataStore} (h : Dated terms ds.leases) (hkept : TermsKept ds ds') :
    Dated terms ds'.leases := by
  intro id l' hl'
  obtain ⟨l, hl, httl, hexp⟩ := hkept.lease id l' hl'
  obtain ⟨term, hterm, httl', hexp'⟩ := h id l hl
  exact ⟨term, hterm, httl.trans httl', hexp.trans hexp'⟩

theorem Dated.grant (h : Dated terms ds.leases) (now : Time) (ttl : Int) :
    Dated (terms.insert (ds.grantLease now ttl).2 { renewedAt := now, ttl := ttl })
      (ds.grantLease now ttl).1.leases := by
  intro id l hl
  simp only [DataStore.grantLease, Finmap.lookup_insert_ite] at hl ⊢
  split at hl
  · next hid =>
    cases hl
    exact ⟨_, if_pos hid, rfl, rfl⟩
  · next hid =>
    rw [if_neg hid]
    exact h id l hl

theorem Dated.keepAlive (h : Dated terms ds.leases) (now : Time) (id : Int) :
    Dated (match terms.lookup id with
      | some term => terms.insert id { term with renewedAt := now }
      | none => terms) (ds.keepAliveLease now id).1.leases := by
  unfold DataStore.keepAliveLease
  cases hl : ds.leases.lookup id with
  | none =>
    -- terms of a lease that is gone may change, no lease looks at them
    intro id' l' hl'
    have hne : id' ≠ id := by
      rintro rfl
      rw [hl] at hl'
      cases hl'
    obtain ⟨term, hterm, hrest⟩ := h id' l' hl'
    refine ⟨term, ?_, hrest⟩
    cases terms.lookup id with
    | none => exact hterm
    | some term' => rwa [Finmap.lookup_insert_of_ne _ hne]
  | some l =>
    obtain ⟨term, hterm, httl, -⟩ := h id l hl
    rw [hterm]
    intro id' l' hl'
    simp only [Finmap.lookup_insert_ite] at hl' ⊢
    split at hl'
    · next hid =>
      cases hl'
      exact ⟨_, if_pos hid, httl, by rw [httl]⟩
    · next hid =>
      rw [if_neg hid]
      exact h id' l' hl'

/-! ## Runs -/

/-- The store that a copy restores, over any other one. -/
def StoreCopy.restored (c : StoreCopy) (base : DataStore) : DataStore :=
  (base.restoreAll c.data).restoreFromLeaseSnapshot c.leases c.keyLease c.nextID

/-- The deadlines of the store and of the saved copies come from their terms. -/
structure DatedRun (h : TimedRun) : Prop where
  store : Dated h.terms h.run.ds.leases
  saved : List.Forall₂ (fun c terms => ∀ base, Dated terms (StoreCopy.restored c base).leases)
    h.run.saved h.savedTerms

theorem DatedRun.new : DatedRun .new where
  store id l hl := by simp [TimedRun.new, StoreRun.new, DataStore.new] at hl
  saved := .nil

theorem DatedRun.step {h : TimedRun} (hd : DatedRun h) (op : StoreOp) : DatedRun (h.step op) := by
  cases op with
  | put => exact ⟨hd.store.kept (.moves (.put _ _ _ _)), hd.saved⟩
  | append => exact ⟨hd.store.kept (.moves (.append _ _ _)), hd.saved⟩
  | cas => exact ⟨hd.store.kept (.moves (.cas _ _ _ _)), hd.saved⟩
  | delete => exact ⟨hd.store.kept (.moves (.delete _ _)), hd.saved⟩
  | txn => exact ⟨hd.store.kept (.moves (.txnOps _)), hd.saved⟩
  | grantLease now ttl => exact ⟨hd.store.grant now ttl, hd.saved⟩
  | keepAliveLease now id => exact ⟨hd.store.keepAlive now id, hd.saved⟩
  | revokeLease order id => exact ⟨hd.store.kept (.revoke _ order id), hd.saved⟩
  | snapshot order =>
    refine ⟨hd.store, List.rel_append hd.saved (.cons (fun base => ?_) .nil)⟩
    unfold StoreCopy.restored
    rw [DataStore.restore_copies]
    exact hd.store
  | restore n =>
    obtain ⟨hstore, hsaved⟩ := restore_record (Q := fun ds terms => Dated terms ds.leases)
      hd.store hd.saved (fun _ _ hdated => hdated h.run.ds) n
    exact ⟨hstore, hsaved⟩

/-- After any operations, the deadline of a lease is the one of its terms. -/
theorem dated_run (ops : List StoreOp) :
    Dated (termsOf ops) (StoreRun.run ops).ds.leases := by
  suffices hrun : (ops.foldl TimedRun.step .new).run = StoreRun.run ops ∧
      DatedRun (ops.foldl TimedRun.step .new) by
    have hstore := hrun.2.store
    rw [hrun.1] at hstore
    exact hstore
  induction ops using List.reverseRecOn with
  | nil => exact ⟨rfl, .new⟩
  | append_singleton ops op ih =>
    rw [List.foldl_concat, StoreRun.run, List.foldl_concat, ← StoreRun.run]
    exact ⟨congrArg (StoreRun.step · op) ih.1, ih.2.step op⟩

/-! ## The multiplication -/

theorem durationOfSeconds_eq {ttl : Int} (h0 : 0 ≤ ttl) (h : ttl * 1000000000 ≤ maxDuration) :
    durationOfSeconds ttl = ttl * 1000000000 := by
  unfold maxDuration at h
  unfold durationOfSeconds
  rw [Int.bmod_eq_of_le (by omega) (by omega)]

/-- A duration that overflows comes out smaller. -/
theorem durationOfSeconds_lt {ttl : Int} (h : maxDuration < ttl * 1000000000) :
    durationOfSeconds ttl < ttl * 1000000000 := by
  have hlt : durationOfSeconds ttl < (2 ^ 64 + 1) / 2 := Int.bmod_lt (by decide)
  unfold maxDuration at h
  omega

theorem mem_checkExpiredLeases {id : Int} {l : Lease} (hl : ds.leases.lookup id = some l)
    (now : Time) (order : RangeOrder Int) :
    id ∈ ds.checkExpiredLeases now order ↔ l.expiresAt < now := by
  rw [DataStore.checkExpiredLeases, List.mem_filter, order.mem_keys, Finmap.mem_keys]
  simp [hl, Finmap.mem_of_lookup_eq_some hl]

end LeaseTimeLemmas

open LeaseTimeLemmas

/-! ## Main results -/

/-- After any history of store operations, snapshots restored on the way, every live
lease has terms. With a TTL that is not negative, the lease is reported at the times
after its last grant or keepalive plus the TTL, and at no other time, if and only if
the TTL in nanoseconds does not exceed the largest `time.Duration`. -/
theorem reported_iff (ops : List StoreOp) (id : Int)
    (hlive : id ∈ (StoreRun.run ops).ds.leases) :
    ∃ term, (termsOf ops).lookup id = some term ∧ (0 ≤ term.ttl →
      ((∀ now order, id ∈ (StoreRun.run ops).ds.checkExpiredLeases now order ↔
          term.renewedAt + term.ttl * 1000000000 < now) ↔
        term.ttl * 1000000000 ≤ maxDuration)) := by
  obtain ⟨l, hl⟩ := Finmap.mem_iff.mp hlive
  obtain ⟨term, hterm, -, hexp⟩ := dated_run ops id l hl
  refine ⟨term, hterm, fun h0 => ?_⟩
  simp only [mem_checkExpiredLeases hl, hexp]
  constructor
  · intro h
    -- at the very end of the term an overflown deadline has passed
    by_contra hover
    have hlt := durationOfSeconds_lt (not_le.mp hover)
    have hend := (h (term.renewedAt + term.ttl * 1000000000) .ascending).mp
      (Int.add_lt_add_left hlt _)
    exact absurd hend (lt_irrefl _)
  · intro hfits now order
    rw [durationOfSeconds_eq h0 hfits]

/-- A lease of ten seconds, kept alive and carried over by a snapshot. -/
def keptLease : List StoreOp :=
  [.grantLease 0 10, .keepAliveLease 5 1, .snapshot fun _ => .ascending, .put "a" "x" 1,
    .restore 0]

/-- It is not reported at the end of its ten seconds, and it is one nanosecond later. -/
theorem reported_iff_kept :
    1 ∉ (StoreRun.run keptLease).ds.checkExpiredLeases 10000000005 .ascending ∧
    1 ∈ (StoreRun.run keptLease).ds.checkExpiredLeases 10000000006 .ascending := by
  obtain ⟨term, hterm, hreported⟩ := reported_iff keptLease 1 (by decide)
  have hfive : (termsOf keptLease).lookup 1 = some { renewedAt := 5, ttl := 10 } := by decide
  rw [hfive] at hterm
  cases hterm
  have hafter := (hreported (by decide)).mpr (by decide)
  exact ⟨fun hmem => absurd ((hafter _ _).mp hmem) (by decide), (hafter _ _).mpr (by decide)⟩

/-- A lease of 9223372037 seconds, granted at time zero, is reported from the start. -/
theorem overflowing_lease_reported :
    (termsOf [.grantLease 0 9223372037]).lookup 1 =
      some { renewedAt := 0, ttl := 9223372037 } ∧
    (1 : Int) ∈ (StoreRun.run [.grantLease 0 9223372037]).ds.checkExpiredLeases 0 .ascending := by
  decide

end Zodiac
