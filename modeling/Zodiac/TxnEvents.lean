import Zodiac.EventFold

/-!
# The events of a transaction, operation by operation

The events of a transaction are derived when the whole branch has run. A put event
then takes its value from the operation, but the event of a swap or an append reads
it from the final store, and an operation that the store ignores pushes a put event
all the same.

* `TxnOp.Kept`: the later operations on the key leave it with what the event says.
* `txn_events_truthful`: the events are truthful exactly when this holds for every
  operation, and it does when no key of a swap or an append is named again.
* `txn_event_ahead`: two appends to one key, and an unknown operation.
-/

namespace Zodiac

/-! ## Definitions -/

/-- What a watcher takes from the event is true of the store. -/
def WatchEvent.Truthful (e : WatchEvent) (ds : DataStore) : Prop :=
  match e.type with
  | .put => ds.data.lookup e.key = some e.value
  | .delete => e.key ∉ ds.data

instance (e : WatchEvent) (ds : DataStore) : Decidable (e.Truthful ds) := by
  unfold WatchEvent.Truthful
  split <;> infer_instance

/-- The store when the first `n` operations of a branch have run. -/
def DataStore.afterOps (ds : DataStore) (branch : List TxnOp) (n : Nat) : DataStore :=
  (ds.txnOps (branch.take n)).1

/-- What the operation makes of the value of its key. -/
def TxnOp.rewrite (op : TxnOp) (v : Option String) : Option String :=
  match op.op with
  | .put => some op.value
  | .delete => none
  | .cas => if v = some op.compareValue then some op.value else v
  | .append => some (v.getD "" ++ op.value)
  | .unknown _ => v

/-- What the operations that name the key make of its value `v`. -/
def valueAfter (key : String) (ops : List TxnOp) (v : Option String) : Option String :=
  (ops.filter fun op => op.key = key).foldl (fun v op => op.rewrite v) v

/-- `v` is the value of the key before the operation and `later` what follows it in the
branch. What a swap or an append has written reads the same when the later operations
on the key have run, and an unknown operation finds the value it names. A key that is
absent reads as `""`. -/
def TxnOp.Kept (op : TxnOp) (v : Option String) (later : List TxnOp) : Prop :=
  match op.op with
  | .put | .delete => True
  | .cas => v = some op.compareValue →
      (valueAfter op.key later (some op.value)).getD "" = op.value
  | .append => (valueAfter op.key later (some (v.getD "" ++ op.value))).getD "" =
      v.getD "" ++ op.value
  | .unknown _ => v = some op.value

/-- All operations are known, and the key of a swap or an append is not named again. -/
def LastOnKey (branch : List TxnOp) : Prop :=
  (∀ op ∈ branch, op.Known) ∧
    branch.Pairwise fun op op' => op.op = .cas ∨ op.op = .append → op'.key ≠ op.key

instance (branch : List TxnOp) : Decidable (LastOnKey branch) :=
  inferInstanceAs (Decidable (_ ∧ _))

namespace TxnEventsLemmas

open EventFoldLemmas

/-! ## One operation -/

theorem read_eq_iff {m : GoMap String String} {key v : String} :
    (m.read "" key).2 = true ∧ (m.read "" key).1 = v ↔ m.lookup key = some v := by
  unfold Finmap.read
  cases m.lookup key <;> simp

theorem get_fst (ds : DataStore) (key : String) :
    (ds.get key).1 = (ds.data.lookup key).getD "" := by
  unfold DataStore.get Finmap.read
  cases ds.data.lookup key <;> rfl

/-- An operation rewrites its key and leaves the others alone. -/
theorem txnOp_data (ds : DataStore) (op : TxnOp) (k : String) :
    (ds.txnOp op).1.data.lookup k =
      if op.key = k then op.rewrite (ds.data.lookup k) else ds.data.lookup k := by
  unfold TxnOp.rewrite
  by_cases hkey : op.key = k
  · subst hkey
    cases hk : op.op with
    | put => simp [DataStore.txnOp, hk, DataStore.putLocked_data]
    | delete => simp [DataStore.txnOp, hk, DataStore.deleteLocked_data]
    | cas =>
      simp only [DataStore.txnOp, hk, DataStore.casLocked, read_eq_iff]
      by_cases hmatch : ds.data.lookup op.key = some op.compareValue <;> simp [hmatch]
    | append =>
      have hget := get_fst ds op.key
      rw [DataStore.get] at hget
      simp [DataStore.txnOp, hk, DataStore.appendLocked, hget]
    | unknown code => simp [DataStore.txnOp, hk]
  · have hne : k ≠ op.key := fun heq => hkey heq.symm
    rw [if_neg hkey]
    cases hk : op.op with
    | put => simp [DataStore.txnOp, hk, DataStore.putLocked_data, hne]
    | delete => simp [DataStore.txnOp, hk, DataStore.deleteLocked_data, hne]
    | cas =>
      simp only [DataStore.txnOp, hk, DataStore.casLocked]
      split
      · exact Finmap.lookup_insert_of_ne _ hne
      · rfl
    | append => simp [DataStore.txnOp, hk, DataStore.appendLocked, hne]
    | unknown code => simp [DataStore.txnOp, hk]

/-! ## A branch -/

theorem txnOps_append (ops ops' : List TxnOp) : ∀ ds : DataStore,
    ds.txnOps (ops ++ ops') =
      (((ds.txnOps ops).1.txnOps ops').1,
        (ds.txnOps ops).2 ++ ((ds.txnOps ops).1.txnOps ops').2) := by
  induction ops with
  | nil => exact fun _ => rfl
  | cons op ops ih =>
    intro ds
    simp only [List.cons_append, DataStore.txnOps, ih]

@[simp] theorem txnOps_length (ops : List TxnOp) : ∀ ds : DataStore,
    (ds.txnOps ops).2.length = ops.length := by
  induction ops with
  | nil => exact fun _ => rfl
  | cons op ops ih => exact fun ds => congrArg (· + 1) (ih (ds.txnOp op).1)

/-- Each key sees only the operations that name it. -/
theorem txnOps_data (k : String) (ops : List TxnOp) : ∀ ds : DataStore,
    (ds.txnOps ops).1.data.lookup k = valueAfter k ops (ds.data.lookup k) := by
  induction ops with
  | nil => exact fun _ => rfl
  | cons op ops ih =>
    intro ds
    have hrest := ih (ds.txnOp op).1
    rw [txnOp_data] at hrest
    rw [DataStore.txnOps, hrest, valueAfter, valueAfter]
    by_cases hkey : op.key = k <;> simp [hkey]

theorem valueAfter_unnamed {k : String} {ops : List TxnOp} (h : ∀ op ∈ ops, op.key ≠ k)
    (v : Option String) : valueAfter k ops v = v := by
  have hnone : ops.filter (fun op => op.key = k) = [] :=
    List.filter_eq_nil_iff.mpr fun op hop => by simpa using h op hop
  rw [valueAfter, hnone, List.foldl_nil]

/-- The events that an operation pushes at the end of the branch are true of the store
it leaves exactly when the later operations keep them true. -/
theorem truthful_iff_kept (ds : DataStore) (rev : Int) (op : TxnOp) (later : List TxnOp) :
    (∀ e ∈ KVService.txnOpEvent ((ds.txnOp op).1.txnOps later).1 rev op (ds.txnOp op).2,
      e.Truthful (ds.txnOp op).1) ↔ op.Kept (ds.data.lookup op.key) later := by
  have hafter := txnOp_data ds op op.key
  have hfinal := get_fst ((ds.txnOp op).1.txnOps later).1 op.key
  rw [if_pos rfl] at hafter
  rw [txnOps_data, hafter] at hfinal
  -- an event reads the value at the end from `hfinal`, and `hafter` is what it should be
  unfold TxnOp.Kept
  unfold TxnOp.rewrite at hafter hfinal
  cases hk : op.op with
  | put =>
    simp [KVService.txnOpEvent, DataStore.txnOp, hk, WatchEvent.Truthful,
      DataStore.putLocked_data]
  | delete =>
    simp [KVService.txnOpEvent, DataStore.txnOp, hk, WatchEvent.Truthful,
      DataStore.deleteLocked_data]
  | cas =>
    -- the event is pushed under the test that made the store change
    simp only [hk] at hafter hfinal
    have hresult : (ds.txnOp op).2.keyFound = true ∧ (ds.txnOp op).2.prevValue = op.compareValue ↔
        ds.data.lookup op.key = some op.compareValue := by
      simp only [DataStore.txnOp, hk, DataStore.casLocked, read_eq_iff]
    by_cases hmatch : ds.data.lookup op.key = some op.compareValue
    · rw [if_pos hmatch] at hafter hfinal
      refine Iff.trans ?_ (imp_iff_right hmatch).symm
      refine Iff.trans ?_ eq_comm
      simp [KVService.txnOpEvent, hk, hresult, hmatch, WatchEvent.Truthful, hafter, hfinal]
    · simp [KVService.txnOpEvent, hk, hresult, hmatch]
  | append =>
    simp only [hk] at hafter hfinal
    refine Iff.trans ?_ eq_comm
    simp [KVService.txnOpEvent, hk, WatchEvent.Truthful, hafter, hfinal]
  | unknown code =>
    simp only [hk] at hafter
    simp [KVService.txnOpEvent, hk, WatchEvent.Truthful, hafter]

variable {ds : DataStore} {branch : List TxnOp} {i : Nat} {op : TxnOp}

theorem afterOps_succ (h : branch[i]? = some op) :
    ds.afterOps branch (i + 1) = ((ds.afterOps branch i).txnOp op).1 := by
  rw [DataStore.afterOps, List.take_add_one, h, Option.toList_some, txnOps_append]
  rfl

/-- The store at the end, seen from the middle of the branch. -/
theorem txnOps_eq_drop (h : branch[i]? = some op) :
    (ds.txnOps branch).1 =
      (((ds.afterOps branch i).txnOp op).1.txnOps (branch.drop (i + 1))).1 := by
  rw [← afterOps_succ h]
  conv_lhs => rw [← List.take_append_drop (i + 1) branch, txnOps_append]
  rfl

/-- Result `i` is the one of operation `i`, run on what the operations before it left. -/
theorem getElem?_results (h : branch[i]? = some op) :
    (ds.txnOps branch).2[i]? = some ((ds.afterOps branch i).txnOp op).2 := by
  obtain ⟨hi, rfl⟩ := List.getElem?_eq_some_iff.mp h
  have hlen : (ds.txnOps (branch.take i)).2.length = i := by
    rw [txnOps_length, List.length_take_of_le (Nat.le_of_lt hi)]
  conv_lhs => rw [← List.take_append_drop i branch, txnOps_append]
  rw [List.getElem?_append_right (le_of_eq hlen), hlen, Nat.sub_self,
    List.drop_eq_getElem_cons hi]
  rfl

/-- Where no later operation names the key of a swap or an append, it keeps what they
wrote. -/
theorem kept_of_lastOnKey (h : LastOnKey branch) (hop : branch[i]? = some op)
    (v : Option String) : op.Kept v (branch.drop (i + 1)) := by
  obtain ⟨hi, rfl⟩ := List.getElem?_eq_some_iff.mp hop
  have hpair := (List.drop_eq_getElem_cons hi) ▸ h.2.drop (i := i)
  have hlater := (List.pairwise_cons.mp hpair).1
  unfold TxnOp.Kept
  cases hk : branch[i].op with
  | put => trivial
  | delete => trivial
  | cas =>
    intro _
    rw [valueAfter_unnamed fun op' hop' => hlater op' hop' (.inl hk), Option.getD_some]
  | append =>
    dsimp only
    rw [valueAfter_unnamed fun op' hop' => hlater op' hop' (.inr hk), Option.getD_some]
  | unknown code =>
    have hknown := h.1 branch[i] (List.getElem_mem hi)
    simp [TxnOp.Known, hk] at hknown

theorem getElem?_zip_results {p : TxnOp × TxnOpResult} :
    (branch.zip (ds.txnOps branch).2)[i]? = some p ↔
      ∃ op, branch[i]? = some op ∧ p = (op, ((ds.afterOps branch i).txnOp op).2) := by
  rw [List.getElem?_zip_eq_some]
  constructor
  · rintro ⟨hop, hres⟩
    rw [getElem?_results hop] at hres
    exact ⟨p.1, hop, Prod.ext rfl (Option.some.inj hres).symm⟩
  · rintro ⟨op, hop, rfl⟩
    exact ⟨hop, getElem?_results hop⟩

/-- A branch has truthful events exactly when its operations keep them true. -/
theorem branch_truthful_iff (ds : DataStore) (branch : List TxnOp) (rev : Int) :
    (∀ (i : Nat) (p : TxnOp × TxnOpResult), (branch.zip (ds.txnOps branch).2)[i]? = some p →
      ∀ e ∈ KVService.txnOpEvent (ds.txnOps branch).1 rev p.1 p.2,
        e.Truthful (ds.afterOps branch (i + 1))) ↔
    ∀ (i : Nat) (op : TxnOp), branch[i]? = some op →
      op.Kept (valueAfter op.key (branch.take i) (ds.data.lookup op.key))
        (branch.drop (i + 1)) := by
  have hop_iff {i : Nat} {op : TxnOp} (hop : branch[i]? = some op) :
      (∀ e ∈ KVService.txnOpEvent (ds.txnOps branch).1 rev op ((ds.afterOps branch i).txnOp op).2,
        e.Truthful (ds.afterOps branch (i + 1))) ↔
      op.Kept (valueAfter op.key (branch.take i) (ds.data.lookup op.key))
        (branch.drop (i + 1)) := by
    rw [txnOps_eq_drop hop, afterOps_succ hop, truthful_iff_kept, DataStore.afterOps, txnOps_data]
  constructor
  · intro h i op hop
    exact (hop_iff hop).mp (h i _ (getElem?_zip_results.mpr ⟨op, hop, rfl⟩))
  · intro h i p hp
    obtain ⟨op, hop, rfl⟩ := getElem?_zip_results.mp hp
    exact (hop_iff hop).mpr (h i op hop)

end TxnEventsLemmas

open TxnEventsLemmas

/-! ## Main results -/

/-- The events of a transaction are those of its operations in order, read off the
final store. Each is true of the store right after its operation if and only if, for
every operation of the branch, the later ones on its key keep the event true; and each
is true when the operations are known and no key of a swap or an append is named again
later in the branch. -/
theorem txn_events_truthful {β : Type} (codec : SnapshotCodec β) (env : Env) (s : KVService)
    (cmd : Command) (index : Int) (hkind : cmd.kind = .txn) (hfresh : s.isDuplicate cmd = false) :
    let r := s.handleCommand codec env cmd index
    let branch := if cmd.txn.conditions.all s.ds.evalCondition then cmd.txn.success
      else cmd.txn.failure
    let pushed := branch.zip (s.ds.txnOps branch).2
    let opEvents := fun p : TxnOp × TxnOpResult =>
      KVService.txnOpEvent r.1.ds r.2.cmd.revision p.1 p.2
    r.2.events = pushed.flatMap opEvents ∧
    ((∀ (i : Nat) (p : TxnOp × TxnOpResult), pushed[i]? = some p →
        ∀ e ∈ opEvents p, e.Truthful (s.ds.afterOps branch (i + 1))) ↔
      ∀ (i : Nat) (op : TxnOp), branch[i]? = some op →
        op.Kept (valueAfter op.key (branch.take i) (s.ds.data.lookup op.key))
          (branch.drop (i + 1))) ∧
    (LastOnKey branch → ∀ (i : Nat) (p : TxnOp × TxnOpResult), pushed[i]? = some p →
      ∀ e ∈ opEvents p, e.Truthful (s.ds.afterOps branch (i + 1))) := by
  intro r branch pushed opEvents
  have happly : s.applyCommand env cmd =
      ({ s with
          ds := (s.ds.txnOps branch).1
          lastRequestIDPerClient := s.recordRequest cmd
          currentRevision := s.nextRevision cmd },
        { cmd with
          txnResult := some
            { succeeded := cmd.txn.conditions.all s.ds.evalCondition,
              results := (s.ds.txnOps branch).2 }
          revision := s.nextRevision cmd }) := by
    rw [KVService.applyCommand_fresh hfresh, KVService.execute, hkind]
    rfl
  have hds : r.1.ds = (s.ds.txnOps branch).1 := by
    rw [KVService.handleCommand_ds, happly]
  have hiff : (∀ (i : Nat) (p : TxnOp × TxnOpResult), pushed[i]? = some p →
        ∀ e ∈ opEvents p, e.Truthful (s.ds.afterOps branch (i + 1))) ↔
      ∀ (i : Nat) (op : TxnOp), branch[i]? = some op →
        op.Kept (valueAfter op.key (branch.take i) (s.ds.data.lookup op.key))
          (branch.drop (i + 1)) := by
    simp only [opEvents, hds]
    exact branch_truthful_iff s.ds branch _
  refine ⟨?_, hiff, fun hlast => hiff.mpr fun i op hop => kept_of_lastOnKey hlast hop _⟩
  simp only [r, opEvents, KVService.handleCommand_events, KVService.handleCommand_cmd,
    KVService.handleCommand_ds, happly, KVService.watchEvents, hkind]
  rfl

/-- A put, a swap of another key and an append to a third. -/
def separateTxn : Command :=
  { kind := .txn, txn := { success :=
      [{ op := .put, key := "a", value := "x" },
        { op := .cas, key := "b", compareValue := "1", value := "2" },
        { op := .append, key := "c", value := "y" }] } }

/-- The event of the append is true of the store after the third operation. -/
theorem txn_events_truthful_separate :
    WatchEvent.Truthful { key := "c", value := "y", revision := 1, type := .put }
      (DataStore.new.afterOps separateTxn.txn.success 3) :=
  (txn_events_truthful .plain (.at 0) .new separateTxn 0 rfl rfl).2.2 (by decide) 2
    ({ op := .append, key := "c", value := "y" }, { key := "c" }) (by decide) _ (by decide)

/-- Two appends to one key. -/
def appendTwice : List TxnOp :=
  [{ op := .append, key := "a", value := "x" }, { op := .append, key := "a", value := "y" }]

/-- One operation with a code that the store does not know. -/
def unknownOp : List TxnOp := [{ op := .unknown 7, key := "a", value := "x" }]

/-- The event of the first append already has the value after the second one, which
the key does not have at that point; and the unknown operation announces a value for a
key that is never written. -/
theorem txn_event_ahead :
    (KVService.new.handleCommand .plain (.at 0)
        { kind := .txn, txn := { success := appendTwice } } 0).2.events =
      [{ key := "a", value := "xy", revision := 1, type := .put },
        { key := "a", value := "xy", revision := 1, type := .put }] ∧
    (DataStore.new.afterOps appendTwice 1).data.lookup "a" = some "x" ∧
    (KVService.new.handleCommand .plain (.at 0)
        { kind := .txn, txn := { success := unknownOp } } 0).2.events =
      [{ key := "a", value := "x", revision := 1, type := .put }] ∧
    "a" ∉ (DataStore.new.afterOps unknownOp 1).data := by
  decide

end Zodiac
