import Zodiac.LeaseInvariant

/-!
# What a revocation deletes

Which keys a lease has at hand is a matter of the whole history: a `Put` attaches
a key or frees it, a `Delete` and a revocation free it, everything else leaves it
as it is. The history of a run records those operations, and a restored snapshot
brings its own history back.

* `Explains`: a history accounts for the attachments of a store.
* `revokeLease_exact`: a revocation deletes the keys that the history attaches to
  the lease, and nothing else.
-/

namespace Zodiac

/-! ## Histories -/

/-- An operation that settles the attachment of a key: a `Put`, also inside a
transaction, with the lease it names and whether that lease was live; a `Delete`;
a revocation that deleted the key. -/
inductive Touch
  | put (key : String) (leaseID : Int) (live : Bool)
  | delete (key : String)
  | revoked (key : String)
deriving DecidableEq

namespace Touch

/-- The key. -/
def key : Touch → String
  | put k _ _ | delete k | revoked k => k

/-- The lease that the key is attached to from here on. -/
def lease : Touch → Option Int
  | put _ id live => if live then some id else none
  | delete _ | revoked _ => none

end Touch

/-- The most recent operation on a key. -/
def lastTouch (k : String) (past : List Touch) : Option Touch :=
  past.reverse.find? fun t => t.key = k

namespace DataStore

/-- What a `Put` adds to the history. -/
def putTouches (ds : DataStore) (key : String) (leaseID : Int) : List Touch :=
  [.put key leaseID (decide (leaseID ∈ ds.leases))]

/-- What one operation of a transaction adds to the history. -/
def txnOpTouches (ds : DataStore) (op : TxnOp) : List Touch :=
  match op.op with
  | .put => ds.putTouches op.key op.leaseID
  | .delete => [.delete op.key]
  | .cas | .append | .unknown _ => []

/-- What a branch of a transaction adds, each operation seen from the store that
the ones before it have left. -/
def txnOpsTouches : DataStore → List TxnOp → List Touch
  | _, [] => []
  | ds, op :: ops => ds.txnOpTouches op ++ txnOpsTouches (ds.txnOp op).1 ops

/-- What an operation adds to the history. A revocation has deleted the keys that
are in the data before and not after. -/
def touches (ds : DataStore) : StoreOp → List Touch
  | .put key _ leaseID => ds.putTouches key leaseID
  | .delete key => [.delete key]
  | .txn conds success failure =>
    ds.txnOpsTouches (if conds.all ds.evalCondition then success else failure)
  | .revokeLease order id =>
    (RangeOrder.ascending.keys (ds.data.keys \ (ds.revokeLease order id).1.data.keys)).map .revoked
  | .append .. | .cas .. | .grantLease .. | .keepAliveLease .. | .snapshot _ | .restore _ => []

end DataStore

/-- A run with its history and the histories of the saved copies. -/
structure HistoryRun where
  run : StoreRun
  past : List Touch
  savedPasts : List (List Touch)

namespace HistoryRun

/-- A new store without a history. -/
def new : HistoryRun := { run := .new, past := [], savedPasts := [] }

/-- One operation. A snapshot saves the history, a restore brings it back. -/
def step (h : HistoryRun) (op : StoreOp) : HistoryRun :=
  { run := h.run.step op
    past := match op with
      | .restore n => (h.savedPasts[n]?).getD h.past
      | op => h.past ++ h.run.ds.touches op
    savedPasts := match op with
      | .snapshot _ => h.savedPasts ++ [h.past]
      | _ => h.savedPasts }

end HistoryRun

/-- The history of a sequence of operations. -/
def history (ops : List StoreOp) : List Touch := (ops.foldl HistoryRun.step .new).past

namespace RevocationLemmas

/-! ## Histories that explain attachments -/

theorem lastTouch_append (k : String) (past ts : List Touch) :
    lastTouch k (past ++ ts) = (lastTouch k ts).or (lastTouch k past) := by
  rw [lastTouch, List.reverse_append, List.find?_append]
  rfl

@[simp]
theorem lastTouch_singleton (k : String) (t : Touch) :
    lastTouch k [t] = if t.key = k then some t else none := by
  simp [lastTouch]

theorem lastTouch_revoked (k : String) (ks : List String) :
    lastTouch k (ks.map .revoked) = if k ∈ ks then some (.revoked k) else none := by
  induction ks with
  | nil => rfl
  | cons key ks ih =>
    rw [List.map_cons, ← List.singleton_append, lastTouch_append, ih, lastTouch_singleton]
    by_cases hmem : k ∈ ks
    · simp [hmem]
    · by_cases hk : k = key
      · subst hk
        simp [hmem, Touch.key]
      · have hne : ¬ key = k := fun h => hk h.symm
        simp [hmem, hk, hne, Touch.key]

/-- The operations `ts` turn the attachments `kl` into `kl'`: a key is attached as
the last operation on it says, and as before when there is none. -/
def Explains (kl : GoMap String Int) (ts : List Touch) (kl' : GoMap String Int) : Prop :=
  ∀ k, kl'.lookup k = ((lastTouch k ts).map Touch.lease).getD (kl.lookup k)

theorem Explains.refl (kl : GoMap String Int) : Explains kl [] kl := fun _ => rfl

theorem Explains.trans {kl kl' kl'' : GoMap String Int} {ts ts' : List Touch}
    (h : Explains kl ts kl') (h' : Explains kl' ts' kl'') : Explains kl (ts ++ ts') kl'' := by
  intro k
  rw [h' k, h k, lastTouch_append]
  cases lastTouch k ts' <;> rfl

/-! ## One operation -/

variable {ds : DataStore}

theorem explains_put (hinv : LeaseInv ds) (key value : String) (id : Int) :
    Explains ds.keyLease (ds.putTouches key id) (ds.putLocked key value id).1.keyLease := by
  intro k
  -- the zero id is never live
  have hzero : (0 : Int) ∉ ds.leases := by
    intro hmem
    obtain ⟨l, hl⟩ := Finmap.mem_iff.mp hmem
    have hone := (hinv.stored 0 l hl).2.1
    omega
  rw [DataStore.putLocked_keyLease, DataStore.putTouches, lastTouch_singleton]
  by_cases hk : k = key
  · subst hk
    by_cases hid : id = 0
    · subst hid
      simp [Touch.key, Touch.lease, hzero]
    · simp [Touch.key, Touch.lease, hid]
  · have hne : ¬ key = k := fun h => hk h.symm
    simp [Touch.key, hk, hne]

theorem explains_delete (key : String) :
    Explains ds.keyLease [.delete key] (ds.deleteLocked key).1.keyLease := by
  intro k
  have hdetach : (ds.deleteLocked key).1.keyLease = (ds.detachKeyFromLease key).keyLease := rfl
  rw [hdetach, DataStore.detachKeyFromLease_keyLease, lastTouch_singleton]
  by_cases hk : k = key
  · simp [hk, Touch.key, Touch.lease]
  · have hne : ¬ key = k := fun h => hk h.symm
    simp [hk, hne, Touch.key]

theorem explains_cas (key compare value : String) :
    Explains ds.keyLease [] (ds.casLocked key compare value).1.keyLease := by
  unfold DataStore.casLocked
  dsimp only
  split
  · exact .refl _
  · exact .refl _

theorem explains_txnOp (hinv : LeaseInv ds) (op : TxnOp) :
    Explains ds.keyLease (ds.txnOpTouches op) (ds.txnOp op).1.keyLease := by
  unfold DataStore.txnOp DataStore.txnOpTouches
  cases op.op with
  | put => exact explains_put hinv _ _ _
  | delete => exact explains_delete _
  | cas => exact explains_cas _ _ _
  | append => exact .refl _
  | unknown _ => exact .refl _

theorem explains_txnOps {ops : List TxnOp} : ∀ {ds : DataStore}, LeaseInv ds →
    Explains ds.keyLease (ds.txnOpsTouches ops) (ds.txnOps ops).1.keyLease := by
  induction ops with
  | nil => exact fun _ => .refl _
  | cons op ops ih => exact fun h => (explains_txnOp h op).trans (ih (h.moves (.txnOp _ op)))

theorem explains_keepAlive (now : Time) (id : Int) :
    Explains ds.keyLease [] (ds.keepAliveLease now id).1.keyLease := by
  unfold DataStore.keepAliveLease
  split
  · exact .refl _
  · exact .refl _

/-- The keys that a revocation removes from the data are the keys it returns. -/
theorem mem_revoked_iff (hinv : LeaseInv ds) (order : RangeOrder String) (id : Int) (k : String) :
    k ∈ RangeOrder.ascending.keys (ds.data.keys \ (ds.revokeLease order id).1.data.keys) ↔
      k ∈ (ds.revokeLease order id).2 := by
  rw [RangeOrder.mem_keys, Finset.mem_sdiff, Finmap.mem_keys, Finmap.mem_keys]
  cases hl : ds.leases.lookup id with
  | none => simp [DataStore.revokeLease, hl]
  | some l =>
    simp only [DataStore.revokeLease, hl, ← Finmap.lookup_isSome, Finmap.lookup_eraseAll]
    by_cases hk : k ∈ order.keys l.keys
    · have hattached := (hinv.attached k id).mpr ⟨l, hl, order.mem_keys.mp hk⟩
      obtain ⟨v, hv⟩ := hinv.present k id hattached
      simp [hk, hv]
    · rw [if_neg hk]
      exact iff_of_false (fun h => h.2 h.1) hk

theorem explains_revoke (hinv : LeaseInv ds) (order : RangeOrder String) (id : Int) :
    Explains ds.keyLease (ds.touches (.revokeLease order id))
      (ds.revokeLease order id).1.keyLease := by
  intro k
  rw [DataStore.touches, lastTouch_revoked]
  simp only [mem_revoked_iff hinv]
  cases hl : ds.leases.lookup id with
  | none => simp [DataStore.revokeLease, hl]
  | some l =>
    simp only [DataStore.revokeLease, hl, Finmap.lookup_eraseAll]
    by_cases hk : k ∈ order.keys l.keys <;> simp [hk, Touch.lease]

/-! ## Whole runs -/

/-- The history of a run explains the attachments of the store, and the saved
histories those of the saved copies. -/
structure Traced (h : HistoryRun) : Prop where
  store : Explains ∅ h.past h.run.ds.keyLease
  saved : List.Forall₂ (fun c past => Explains ∅ past c.keyLease) h.run.saved h.savedPasts

theorem Traced.new : Traced .new where
  store := .refl _
  saved := .nil

theorem forall₂_getElem? {α β : Type} {R : α → β → Prop} {l : List α} {l' : List β}
    (h : List.Forall₂ R l l') (n : Nat) : Option.Rel R l[n]? l'[n]? := by
  induction h generalizing n with
  | nil => exact .none
  | cons hab _ ih =>
    cases n with
    | zero => exact .some hab
    | succ n => exact ih n

/-- Restoring the `n`-th copy together with what was saved beside it. What holds of the
store and its record, and of every copy and the record saved with it, holds afterwards. -/
theorem restore_record {γ : Type} {Q : DataStore → γ → Prop} {R : StoreCopy → γ → Prop}
    {r : StoreRun} {record : γ} {saved : List γ} (hstore : Q r.ds record)
    (hsaved : List.Forall₂ R r.saved saved)
    (hcopy : ∀ c record, R c record →
      Q ((r.ds.restoreAll c.data).restoreFromLeaseSnapshot c.leases c.keyLease c.nextID) record)
    (n : Nat) :
    Q (r.step (.restore n)).ds ((saved[n]?).getD record) ∧
      List.Forall₂ R (r.step (.restore n)).saved saved := by
  have hrel := forall₂_getElem? hsaved n
  simp only [StoreRun.step]
  generalize r.saved[n]? = c, saved[n]? = record' at hrel ⊢
  cases hrel with
  | none => exact ⟨hstore, hsaved⟩
  | some h => exact ⟨hcopy _ _ h, hsaved⟩

theorem Traced.step {h : HistoryRun} (ht : Traced h) (hinv : LeaseInv h.run.ds) (op : StoreOp) :
    Traced (h.step op) := by
  cases op with
  | put key value id => exact ⟨ht.store.trans (explains_put hinv key value id), ht.saved⟩
  | append key value => exact ⟨ht.store.trans (.refl _), ht.saved⟩
  | cas key compare value => exact ⟨ht.store.trans (explains_cas key compare value), ht.saved⟩
  | delete key => exact ⟨ht.store.trans (explains_delete key), ht.saved⟩
  | txn conds success failure => exact ⟨ht.store.trans (explains_txnOps hinv), ht.saved⟩
  | grantLease now ttl => exact ⟨ht.store.trans (.refl _), ht.saved⟩
  | keepAliveLease now id => exact ⟨ht.store.trans (explains_keepAlive now id), ht.saved⟩
  | revokeLease order id => exact ⟨ht.store.trans (explains_revoke hinv order id), ht.saved⟩
  | snapshot order =>
    exact ⟨ht.store.trans (.refl _), List.rel_append ht.saved (.cons ht.store .nil)⟩
  | restore n =>
    obtain ⟨hstore, hsaved⟩ := restore_record (Q := fun ds past => Explains ∅ past ds.keyLease)
      ht.store ht.saved (fun _ _ hexp => hexp) n
    exact ⟨hstore, hsaved⟩

theorem traced_run (ops : List StoreOp) :
    Explains ∅ (history ops) (StoreRun.run ops).ds.keyLease := by
  suffices hrun : (ops.foldl HistoryRun.step .new).run = StoreRun.run ops ∧
      Traced (ops.foldl HistoryRun.step .new) by
    have hstore := hrun.2.store
    rw [hrun.1] at hstore
    exact hstore
  induction ops using List.reverseRecOn with
  | nil => exact ⟨rfl, .new⟩
  | append_singleton ops op ih =>
    obtain ⟨hrun, htraced⟩ := ih
    rw [List.foldl_concat, StoreRun.run, List.foldl_concat, ← StoreRun.run]
    have hinv : LeaseInv (ops.foldl HistoryRun.step .new).run.ds := by
      rw [hrun]
      exact (StoreRun.consistent_run ops).store
    exact ⟨congrArg (StoreRun.step · op) hrun, htraced.step hinv op⟩

/-- Only a put that names the live lease `id` attaches a key to it. -/
theorem attached_iff_lastTouch {past : List Touch} {kl : GoMap String Int}
    (h : Explains ∅ past kl) (k : String) (id : Int) :
    kl.lookup k = some id ↔ lastTouch k past = some (.put k id true) := by
  rw [h k, Finmap.lookup_empty]
  cases ht : lastTouch k past with
  | none => simp
  | some t =>
    have hkey : t.key = k := by simpa using List.find?_some ht
    subst hkey
    cases t with
    | put key leaseID live => cases live <;> simp [Touch.lease, Touch.key]
    | delete key => simp [Touch.lease]
    | revoked key => simp [Touch.lease]

end RevocationLemmas

open RevocationLemmas

/-! ## Main result -/

/-- After any history of operations, revoking a live lease returns and deletes
exactly the keys whose last `Put`, `Delete` or deleting revocation was a `Put`
under that lease while it was live. Every other key keeps its value and its lease.
Revoking any other id changes nothing. -/
theorem revokeLease_exact (ops : List StoreOp) (order : RangeOrder String) (id : Int) :
    let ds := (StoreRun.run ops).ds
    let r := ds.revokeLease order id
    (id ∈ ds.leases →
      (∀ k, k ∈ r.2 ↔ lastTouch k (history ops) = some (.put k id true)) ∧
      r.2.Nodup ∧
      (∀ k ∈ r.2, k ∈ ds.data) ∧
      (∀ k, r.1.data.lookup k = if k ∈ r.2 then none else ds.data.lookup k) ∧
      (∀ k, r.1.keyLease.lookup k = if k ∈ r.2 then none else ds.keyLease.lookup k) ∧
      (∀ id', r.1.leases.lookup id' = if id' = id then none else ds.leases.lookup id')) ∧
    (id ∉ ds.leases → r = (ds, [])) := by
  intro ds r
  have hinv : LeaseInv ds := (StoreRun.consistent_run ops).store
  constructor
  · intro hlive
    obtain ⟨l, hl⟩ := Finmap.mem_iff.mp hlive
    have hr : r = ({ ds with
        leases := ds.leases.erase id
        data := ds.data.eraseAll (order.keys l.keys)
        keyLease := ds.keyLease.eraseAll (order.keys l.keys) }, order.keys l.keys) := by
      simp only [r, DataStore.revokeLease, hl]
    rw [hr]
    have hkeys : ∀ k, k ∈ order.keys l.keys ↔ ds.keyLease.lookup k = some id := by
      intro k
      rw [order.mem_keys, hinv.attached k id]
      simp [hl]
    refine ⟨?_, order.nodup _, ?_, ?_, ?_, ?_⟩
    · intro k
      rw [hkeys k, attached_iff_lastTouch (traced_run ops) k id]
    · intro k hk
      obtain ⟨v, hv⟩ := hinv.present k id ((hkeys k).mp hk)
      exact Finmap.mem_of_lookup_eq_some hv
    · exact Finmap.lookup_eraseAll _ _
    · exact Finmap.lookup_eraseAll _ _
    · exact Finmap.lookup_erase_ite _ _
  · intro hdead
    have hnone : ds.leases.lookup id = none := Finmap.lookup_eq_none.mpr hdead
    simp only [r, DataStore.revokeLease, hnone]

/-- `a` stays attached through an append; `b` moves to the second lease; `c` is put
under no lease and `d` under one that is gone. -/
def mixedPuts : List StoreOp :=
  [.grantLease 0 10, .grantLease 0 10, .grantLease 0 10, .revokeLease .ascending 3,
    .put "a" "1" 1, .put "b" "1" 1, .put "c" "1" 1, .put "d" "1" 1,
    .append "a" "2", .put "b" "2" 2, .put "c" "2" 0, .put "d" "2" 3]

example : ((StoreRun.run mixedPuts).ds.revokeLease .ascending 1).2 = ["a"] := by decide

end Zodiac
