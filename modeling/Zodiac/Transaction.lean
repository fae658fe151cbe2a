import Zodiac.EventFold
import Zodiac.Threshold

/-!
# Transactions as sequences of calls

`Txn` runs its branch in a loop of its own, and `handleCommand` has a second piece of
code for the events of a transaction. Both are compared here with the standalone
operations.

* `TxnCondition.Holds`: what each condition says about the data.
* `DataStore.calls`: the standalone `Put`, `Delete`, `CAS` and `Append`, one after
  another.
* `txn_sequential`: a transaction is the calls of the branch that the conditions
  select, and a transaction of one operation is the standalone command.
-/

namespace Zodiac

/-! ## Definitions -/

/-- The condition holds of the data. An unknown comparison never does. -/
def TxnCondition.Holds (data : GoMap String String) (c : TxnCondition) : Prop :=
  match c.compare with
  | .eq => data.lookup c.key = some c.value
  | .neq => data.lookup c.key ≠ some c.value
  | .gte => ∃ v, data.lookup c.key = some v ∧ Gte v c.value
  | .lte => ∃ v, data.lookup c.key = some v ∧ Lte v c.value
  | .exists => c.key ∈ data
  | .notExists => c.key ∉ data
  | .unknown _ => False

namespace DataStore

/-- The standalone call for an operation of a transaction. -/
def call (ds : DataStore) (op : TxnOp) : Option (DataStore × String × Bool) :=
  match op.op with
  | .put => some (ds.put op.key op.value op.leaseID)
  | .delete => some (ds.delete op.key)
  | .cas => some (ds.cas op.key op.compareValue op.value)
  | .append => some (ds.append op.key op.value)
  | .unknown _ => none

/-- One call after another, with the previous value and the found flag of each. -/
def calls : DataStore → List TxnOp → Option (DataStore × List (String × Bool))
  | ds, [] => some (ds, [])
  | ds, op :: ops => do
    let r ← ds.call op
    let rest ← calls r.1 ops
    some (rest.1, r.2 :: rest.2)

end DataStore

/-- The previous value and the found flag of a result. -/
def TxnOpResult.outcome (r : TxnOpResult) : String × Bool := (r.prevValue, r.keyFound)

namespace Command

/-- The operation of a transaction that asks for the same as a standalone write. -/
def toOp (cmd : Command) : Option TxnOp :=
  match cmd.kind with
  | .put => some { op := .put, key := cmd.key, value := cmd.value, leaseID := cmd.leaseID }
  | .cas =>
    some { op := .cas, key := cmd.key, value := cmd.value, compareValue := cmd.compareValue }
  | .append => some { op := .append, key := cmd.key, value := cmd.value }
  | _ => none

/-- The transaction without conditions that consists of one operation, sent with the
same ids. -/
def singleTxn (cmd : Command) (op : TxnOp) (failure : List TxnOp) : Command :=
  { kind := .txn, txn := { conditions := [], success := [op], failure := failure },
    serviceID := cmd.serviceID, clientID := cmd.clientID, requestID := cmd.requestID }

end Command

namespace TransactionLemmas

/-! ## Conditions -/

theorem evalCondition_iff (ds : DataStore) (c : TxnCondition) :
    ds.evalCondition c = true ↔ c.Holds ds.data := by
  obtain ⟨key, compare, value⟩ := c
  unfold TxnCondition.Holds
  cases hl : ds.data.lookup key with
  | none =>
    have habsent : key ∉ ds.data := Finmap.lookup_eq_none.mp hl
    have hread : ds.data.read "" key = ("", false) := by rw [Finmap.read, hl]
    unfold DataStore.evalCondition
    rw [hread]
    cases compare <;> simp [habsent]
  | some v =>
    have hpresent : key ∈ ds.data := Finmap.mem_of_lookup_eq_some hl
    cases compare with
    | gte =>
      rw [evalCondition_gte hl]
      simp
    | lte =>
      rw [evalCondition_lte hl]
      simp
    | eq | neq | «exists» | notExists | unknown _ =>
      simp [DataStore.evalCondition, Finmap.read_of_some hl, hpresent]

/-! ## The loop of a transaction -/

/-- One operation of a branch is the standalone call. -/
theorem call_eq (ds : DataStore) {op : TxnOp} (h : op.Known) :
    ds.call op = some ((ds.txnOp op).1, (ds.txnOp op).2.outcome) ∧
      (ds.txnOp op).2.key = op.key := by
  unfold DataStore.call DataStore.txnOp
  cases hk : op.op with
  | put => exact ⟨rfl, rfl⟩
  | delete => exact ⟨rfl, rfl⟩
  | cas => exact ⟨rfl, rfl⟩
  | append => exact ⟨rfl, rfl⟩
  | unknown code => simp [TxnOp.Known, hk] at h

theorem calls_eq (ops : List TxnOp) : ∀ ds : DataStore, (∀ op ∈ ops, op.Known) →
    ds.calls ops = some ((ds.txnOps ops).1, (ds.txnOps ops).2.map TxnOpResult.outcome) ∧
      (ds.txnOps ops).2.map TxnOpResult.key = ops.map TxnOp.key := by
  induction ops with
  | nil => exact fun _ _ => ⟨rfl, rfl⟩
  | cons op ops ih =>
    intro ds hops
    obtain ⟨hcall, hkey⟩ := call_eq ds (hops op List.mem_cons_self)
    obtain ⟨hcalls, hkeys⟩ := ih (ds.txnOp op).1 fun op' hop' =>
      hops op' (List.mem_cons_of_mem _ hop')
    refine ⟨?_, ?_⟩
    · rw [DataStore.calls, hcall, Option.bind_eq_bind, Option.bind_some, hcalls]
      rfl
    · rw [DataStore.txnOps, List.map_cons, List.map_cons, hkey, hkeys]

/-! ## Through `handleCommand` -/

theorem isDuplicate_singleTxn (s : KVService) (cmd : Command) (op : TxnOp)
    (failure : List TxnOp) : s.isDuplicate (cmd.singleTxn op failure) = s.isDuplicate cmd := rfl

/-- The store and the result of the transaction are those of the standalone write. -/
theorem execute_singleTxn (env : Env) (ds : DataStore) {cmd : Command} {op : TxnOp}
    (hop : cmd.toOp = some op) (failure : List TxnOp) :
    let r := KVService.execute env ds cmd
    KVService.execute env ds (cmd.singleTxn op failure) =
      (r.1, { cmd.singleTxn op failure with
        txnResult := some { succeeded := true, results :=
          [{ key := cmd.key, prevValue := r.2.resultValue, keyFound := r.2.resultFound }] } }) := by
  unfold Command.toOp at hop
  cases hkind : cmd.kind <;> simp only [hkind] at hop <;> cases hop <;>
    simp only [KVService.execute, hkind] <;> rfl

/-- The two pieces of event code push the same for one operation. -/
theorem watchEvents_singleTxn (env : Env) (ds ds' : DataStore) {cmd : Command} {op : TxnOp}
    (hop : cmd.toOp = some op) (failure : List TxnOp) (rev : Int) :
    let r := KVService.execute env ds cmd
    KVService.watchEvents env ds' { cmd.singleTxn op failure with
        txnResult := some { succeeded := true, results :=
          [{ key := cmd.key, prevValue := r.2.resultValue, keyFound := r.2.resultFound }] }
        revision := rev } =
      KVService.watchEvents env ds' { r.2 with revision := rev } := by
  unfold Command.toOp at hop
  cases hkind : cmd.kind <;> simp only [hkind] at hop <;> cases hop <;>
    simp [KVService.execute, hkind, KVService.watchEvents, KVService.txnOpEvent,
      Command.singleTxn]

theorem nextRevision_singleTxn (s : KVService) {cmd : Command} {op : TxnOp}
    (hop : cmd.toOp = some op) (failure : List TxnOp) :
    s.nextRevision (cmd.singleTxn op failure) = s.nextRevision cmd := by
  have hmut : KVService.isMutation cmd.kind = true := by
    unfold Command.toOp at hop
    cases hkind : cmd.kind <;> simp [hkind, KVService.isMutation] at hop ⊢
  rw [KVService.nextRevision, KVService.nextRevision, hmut]
  rfl

variable (env : Env) (s : KVService) {cmd : Command} {op : TxnOp} (hop : cmd.toOp = some op)
  (failure : List TxnOp)

include hop

/-- The transaction leaves the same state. Its result has the same revision and
duplicate mark as that of the standalone write and, unless it is a duplicate, one
operation result with the same previous value and found flag. -/
theorem applyCommand_singleTxn :
    let r := s.applyCommand env cmd
    s.applyCommand env (cmd.singleTxn op failure) =
      (r.1, { cmd.singleTxn op failure with
        txnResult := if s.isDuplicate cmd then none else some { succeeded := true, results :=
          [{ key := cmd.key, prevValue := r.2.resultValue, keyFound := r.2.resultFound }] }
        revision := r.2.revision
        isDuplicate := s.isDuplicate cmd }) := by
  have hdup := isDuplicate_singleTxn s cmd op failure
  cases hd : s.isDuplicate cmd with
  | true =>
    rw [KVService.applyCommand_duplicate hd, KVService.applyCommand_duplicate (hdup ▸ hd)]
    rfl
  | false =>
    rw [KVService.applyCommand_fresh hd, KVService.applyCommand_fresh (hdup ▸ hd),
      execute_singleTxn env s.ds hop failure, nextRevision_singleTxn s hop failure]
    rfl

/-- The events are the same too, read off the same store. -/
theorem events_singleTxn (ds : DataStore) :
    KVService.watchEvents env ds (s.applyCommand env (cmd.singleTxn op failure)).2 =
      KVService.watchEvents env ds (s.applyCommand env cmd).2 := by
  rw [applyCommand_singleTxn env s hop failure]
  cases hd : s.isDuplicate cmd with
  | true =>
    rw [KVService.applyCommand_duplicate hd]
    rfl
  | false =>
    rw [KVService.applyCommand_fresh hd]
    exact watchEvents_singleTxn env s.ds ds hop failure (s.nextRevision cmd)

end TransactionLemmas

open TransactionLemmas

/-! ## Main result -/

/-- A transaction over the four known operations returns true exactly when all its
conditions hold of the store before it. Its final store and its results are those of
the standalone calls for the operations of the selected branch, in order, with one
result for each operation. And through `handleCommand`, a transaction without
conditions and with a single Put, CAS or Append does what the standalone command
does: same state, same snapshot, same revision, same events, and a result that
carries the same previous value and found flag. -/
theorem txn_sequential {β : Type} (codec : SnapshotCodec β) (ds : DataStore)
    (conds : List TxnCondition) (success failure : List TxnOp)
    (hsuccess : ∀ op ∈ success, op.Known) (hfailure : ∀ op ∈ failure, op.Known) :
    (let r := ds.txn conds success failure
     let branch := if r.2.1 then success else failure
     (r.2.1 = true ↔ ∀ c ∈ conds, c.Holds ds.data) ∧
     ds.calls branch = some (r.1, r.2.2.map TxnOpResult.outcome) ∧
     r.2.2.map TxnOpResult.key = branch.map TxnOp.key) ∧
    (∀ (s : KVService) (env : Env) (index : Int) (cmd : Command) (op : TxnOp),
      cmd.toOp = some op →
      let r := s.handleCommand codec env cmd index
      let r' := s.handleCommand codec env (cmd.singleTxn op failure) index
      r'.1 = r.1 ∧ r'.2.installed = r.2.installed ∧ r'.2.events = r.2.events ∧
      r'.2.cmd.revision = r.2.cmd.revision ∧ r'.2.cmd.isDuplicate = r.2.cmd.isDuplicate ∧
      (s.isDuplicate cmd = false → r'.2.cmd.txnResult = some { succeeded := true, results :=
        [{ key := cmd.key, prevValue := r.2.cmd.resultValue,
           keyFound := r.2.cmd.resultFound }] })) := by
  refine ⟨?_, fun s env index cmd op hop => ?_⟩
  · intro r branch
    have hbranch : ∀ op ∈ branch, op.Known := by
      intro op hmem
      simp only [branch] at hmem
      split at hmem
      · exact hsuccess op hmem
      · exact hfailure op hmem
    refine ⟨?_, calls_eq branch ds hbranch⟩
    exact List.all_eq_true.trans (forall₂_congr fun c _ => evalCondition_iff ds c)
  · intro r r'
    have happly := applyCommand_singleTxn env s hop failure
    have hstate := congrArg Prod.fst happly
    have hevents := events_singleTxn env s hop failure (s.applyCommand env cmd).1.ds
    refine ⟨?_, ?_, ?_, ?_, ?_, fun hfresh => ?_⟩
    · simp only [r, r', KVService.handleCommand, hstate]
    · simp only [r, r', KVService.handleCommand, hstate]
    · simp only [r, r', KVService.handleCommand_events, hstate, hevents]
    · simp only [r, r', KVService.handleCommand_cmd, happly]
    · simp only [r, r', KVService.handleCommand_cmd, happly, KVService.applyCommand_isDuplicate]
    · simp [r, r', KVService.handleCommand_cmd, happly, hfresh]

/-- A swap that finds what the put before it wrote, then an append to the result. -/
def chainedBranch : List TxnOp :=
  [{ op := .put, key := "a", value := "x" },
    { op := .cas, key := "a", compareValue := "x", value := "y" },
    { op := .append, key := "a", value := "z" }, { op := .delete, key := "b" }]

theorem txn_sequential_chained :
    DataStore.new.calls chainedBranch =
      some ((DataStore.new.txn [] chainedBranch []).1,
        [("", false), ("x", true), ("y", true), ("", false)]) :=
  (txn_sequential .plain .new [] chainedBranch [] (by decide) (by decide)).1.2.1

end Zodiac
