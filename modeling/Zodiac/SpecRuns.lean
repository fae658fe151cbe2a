import Zodiac.Spec

/-!
# Runs of the specification

What one command does to the version, the lease counter, the request table and the keys of
a `KVSpec`, and from that what a log does.

* `Since`: a later state has a version at least as large, and an equal one means equal
  values.
* `Settled`: a client has made a request. It stays that way.
* `ItemStore.Removes`: a command removes a key; nothing else does.
* `exists_step`: where a log gains or loses a property, one of its commands does it.
-/

namespace Zodiac

/-! ## Definitions -/

/-- The command, executed in this store, removes the key: its transaction deletes it, or it
ends the lease of the key. -/
def ItemStore.Removes (st : ItemStore) (cmd : Command) (key : String) : Prop :=
  match cmd.kind with
  | .txn =>
    ∃ op ∈ (if cmd.txn.conditions.all st.holds then cmd.txn.success else cmd.txn.failure),
      op.op = .delete ∧ op.key = key
  | .leaseRevoke => st.heldBy [cmd.leaseID] key
  | .leaseExpiry => st.heldBy cmd.leaseIDs key
  | _ => False

/-- Client `c` has made request `r` or a later one. -/
def KVSpec.Settled (sp : KVSpec) (c r : Int) : Prop :=
  ∃ r' ∈ sp.requests.lookup c, r ≤ r'

/-- `sp'` comes from `sp`, as far as versions tell. -/
structure KVSpec.Since (sp sp' : KVSpec) : Prop where
  revision : sp.revision ≤ sp'.revision
  values : sp'.revision = sp.revision → sp'.store.values = sp.store.values

namespace SpecRunLemmas

variable {sp sp' : KVSpec} {cmd : Command} {log : List Command}

/-! ## One command -/

theorem apply_repeats (h : sp.repeats cmd = true) :
    sp.apply cmd = (sp, { sp.again cmd with isDuplicate := true, revision := sp.revision }) :=
  if_pos h

theorem apply_fresh (h : sp.repeats cmd = false) :
    sp.apply cmd =
      ({ store := (sp.store.execute cmd).1
         requests := if cmd.clientID = 0 then sp.requests
           else sp.requests.insert cmd.clientID cmd.requestID
         revision := sp.next cmd },
        { (sp.store.execute cmd).2 with revision := sp.next cmd }) :=
  if_neg (by rw [h]; exact Bool.false_ne_true)

theorem execute_isDuplicate (st : ItemStore) (cmd : Command) :
    (st.execute cmd).2.isDuplicate = false := by
  unfold ItemStore.execute
  cases cmd.kind <;> rfl

theorem apply_isDuplicate (sp : KVSpec) (cmd : Command) :
    (sp.apply cmd).2.isDuplicate = sp.repeats cmd := by
  cases h : sp.repeats cmd with
  | true => rw [apply_repeats h]
  | false =>
    rw [apply_fresh h]
    exact execute_isDuplicate sp.store cmd

/-- The reply carries the version after the command. -/
theorem apply_revision (sp : KVSpec) (cmd : Command) :
    (sp.apply cmd).2.revision = (sp.apply cmd).1.revision := by
  cases h : sp.repeats cmd with
  | true => rw [apply_repeats h]
  | false => rw [apply_fresh h]

theorem revision_next (sp : KVSpec) (cmd : Command) :
    sp.next cmd = sp.revision + if KVService.isMutation cmd.kind then 1 else 0 := by
  unfold KVSpec.next
  split
  · rfl
  · rw [Int.add_zero]

/-- A kind that does not count as a mutation keeps the values. -/
theorem values_execute (st : ItemStore) (h : KVService.isMutation cmd.kind = false) :
    (st.execute cmd).1.values = st.values := by
  unfold ItemStore.execute
  cases hkind : cmd.kind with
  | get | list | leaseGrant | leaseKeepAlive => rfl
  | put | append | cas | txn | leaseRevoke | leaseExpiry =>
    rw [hkind] at h
    cases h

theorem issued_txnOps : ∀ (ops : List TxnOp) (st : ItemStore),
    (st.txnOps ops).1.issued = st.issued := by
  intro ops
  induction ops with
  | nil => exact fun _ => rfl
  | cons op ops ih =>
    intro st
    rw [ItemStore.txnOps, ih]
    unfold ItemStore.txnOp ItemStore.cas
    cases op.op with
    | cas => dsimp only; split <;> rfl
    | put | append | delete | unknown _ => rfl

/-- Only a grant moves the counter. -/
theorem issued_execute (st : ItemStore) (cmd : Command) :
    (st.execute cmd).1.issued = st.issued + if cmd.kind = .leaseGrant then 1 else 0 := by
  unfold ItemStore.execute
  cases cmd.kind with
  | get | list | leaseKeepAlive | put | append | leaseRevoke | leaseExpiry =>
    exact (Int.add_zero _).symm
  | cas =>
    dsimp only [ItemStore.cas]
    split <;> exact (Int.add_zero _).symm
  | txn => exact (issued_txnOps _ st).trans (Int.add_zero _).symm
  | leaseGrant => rfl

/-! ## Keys that go -/

/-- An operation keeps a key, or deletes it. -/
theorem mem_txnOp {st : ItemStore} {key : String} (h : key ∈ st.items) (op : TxnOp) :
    key ∈ (st.txnOp op).items ∨ op.op = .delete ∧ op.key = key := by
  have hset (k v : String) (l : Option Int) : key ∈ (st.set k v l).items :=
    Finmap.mem_insert.mpr (.inr h)
  unfold ItemStore.txnOp
  cases hop : op.op with
  | put => exact .inl (hset _ _ _)
  | append => exact .inl (hset _ _ _)
  | cas =>
    dsimp only [ItemStore.cas]
    split
    · exact .inl (hset _ _ _)
    · exact .inl h
  | delete =>
    by_cases hkey : op.key = key
    · exact .inr ⟨rfl, hkey⟩
    · exact .inl (Finmap.mem_erase.mpr ⟨fun heq => hkey heq.symm, h⟩)
  | unknown _ => exact .inl h

theorem txnOps_delete {key : String} (ops : List TxnOp) : ∀ {st : ItemStore}, key ∈ st.items →
    key ∉ (st.txnOps ops).1.items → ∃ op ∈ ops, op.op = .delete ∧ op.key = key := by
  induction ops with
  | nil => exact fun h hgone => absurd h hgone
  | cons op ops ih =>
    intro st h hgone
    rcases mem_txnOp h op with hkept | hdelete
    · obtain ⟨op', hop', hdelete⟩ := ih hkept hgone
      exact ⟨op', List.mem_cons_of_mem op hop', hdelete⟩
    · exact ⟨op, List.mem_cons_self, hdelete⟩

theorem heldBy_of_released {st : ItemStore} {ids : List Int} {key : String} (h : key ∈ st.items)
    (hgone : key ∉ (st.release ids).items) : st.heldBy ids key = true := by
  obtain ⟨item, hitem⟩ := Finmap.mem_iff.mp h
  cases hheld : st.heldBy ids key with
  | true => rfl
  | false =>
    refine absurd (Finmap.mem_iff.mpr ⟨item, ?_⟩) hgone
    rw [ItemStore.release, Finmap.lookup_filterKeys, hheld]
    exact hitem

/-- A key goes only when a command removes it. -/
theorem removes_of_gone {st : ItemStore} {key : String} (h : key ∈ st.items)
    (hgone : key ∉ (st.execute cmd).1.items) : st.Removes cmd key := by
  have hset (k v : String) (l : Option Int) : key ∈ (st.set k v l).items :=
    Finmap.mem_insert.mpr (.inr h)
  unfold ItemStore.execute at hgone
  unfold ItemStore.Removes
  cases hkind : cmd.kind with
  | get | list | leaseGrant | leaseKeepAlive =>
    rw [hkind] at hgone
    exact hgone h
  | put | append =>
    rw [hkind] at hgone
    exact hgone (hset _ _ _)
  | cas =>
    rw [hkind] at hgone
    dsimp only [ItemStore.cas] at hgone
    split at hgone
    · exact hgone (hset _ _ _)
    · exact hgone h
  | txn =>
    rw [hkind] at hgone
    exact txnOps_delete _ h hgone
  | leaseRevoke | leaseExpiry =>
    rw [hkind] at hgone
    exact heldBy_of_released h hgone

/-! ## Logs -/

theorem after_take_succ {i : Nat} (h : log[i]? = some cmd) :
    KVSpec.after (log.take (i + 1)) = ((KVSpec.after (log.take i)).apply cmd).1 := by
  rw [List.take_add_one, h, Option.toList_some, KVSpec.after_concat]

/-- Where a property is lost between two positions, one command loses it. -/
theorem exists_step (log : List Command) {P : KVSpec → Prop} {i j : Nat} (hij : i ≤ j)
    (hj : j ≤ log.length) (hold : P (.after (log.take i)))
    (hlost : ¬ P (.after (log.take j))) :
    ∃ k cmd, i ≤ k ∧ k < j ∧ log[k]? = some cmd ∧ P (.after (log.take k)) ∧
      ¬ P ((KVSpec.after (log.take k)).apply cmd).1 := by
  induction j, hij using Nat.le_induction with
  | base => exact absurd hold hlost
  | succ j hij ih =>
    have hlt : j < log.length := hj
    have hcmd : log[j]? = some log[j] := List.getElem?_eq_getElem hlt
    by_cases hP : P (.after (log.take j))
    · rw [after_take_succ hcmd] at hlost
      exact ⟨j, log[j], hij, Nat.lt_succ_self j, hcmd, hP, hlost⟩
    · obtain ⟨k, cmd, hik, hkj, hrest⟩ := ih (Nat.le_of_lt hlt) hP
      exact ⟨k, cmd, hik, Nat.lt_succ_of_lt hkj, hrest⟩

/-- What every command keeps, from one position of a log to a later one. -/
theorem after_induction {P : KVSpec → Prop} (hstep : ∀ sp cmd, P sp → P (sp.apply cmd).1) {i j : Nat}
    (hij : i ≤ j) (h : P (.after (log.take i))) : P (.after (log.take j)) := by
  induction j, hij using Nat.le_induction with
  | base => exact h
  | succ j _ ih =>
    rw [List.take_add_one]
    cases log[j]? with
    | none => simpa using ih
    | some cmd =>
      rw [Option.toList_some, KVSpec.after_concat]
      exact hstep _ cmd ih

/-! ## Versions -/

theorem since_refl (sp : KVSpec) : sp.Since sp := ⟨le_rfl, fun _ => rfl⟩

theorem since_apply (h : sp.Since sp') (cmd : Command) : sp.Since (sp'.apply cmd).1 := by
  cases hrep : sp'.repeats cmd with
  | true =>
    rw [apply_repeats hrep]
    exact h
  | false =>
    rw [apply_fresh hrep]
    have hle := h.revision
    cases hmut : KVService.isMutation cmd.kind with
    | true =>
      have hnext : sp'.next cmd = sp'.revision + 1 := by rw [revision_next, if_pos hmut]
      exact ⟨by dsimp only; omega, fun heq => by dsimp only at heq; omega⟩
    | false =>
      have hnext : sp'.next cmd = sp'.revision := by
        rw [revision_next, hmut, if_neg Bool.false_ne_true, Int.add_zero]
      refine ⟨by dsimp only; omega, fun heq => ?_⟩
      exact (values_execute sp'.store hmut).trans (h.values (hnext ▸ heq))

theorem since_after {i j : Nat} (hij : i ≤ j) :
    (KVSpec.after (log.take i)).Since (.after (log.take j)) :=
  after_induction (P := fun sp => (KVSpec.after (log.take i)).Since sp)
    (fun _ cmd h => since_apply h cmd) hij (since_refl _)

/-! ## Lease ids -/

theorem issued_apply (sp : KVSpec) (cmd : Command) :
    sp.store.issued ≤ (sp.apply cmd).1.store.issued ∧
      (sp.apply cmd).1.store.issued ≤ sp.store.issued + 1 := by
  cases hrep : sp.repeats cmd with
  | true =>
    rw [apply_repeats hrep]
    exact ⟨le_rfl, by dsimp only; omega⟩
  | false =>
    rw [apply_fresh hrep, issued_execute]
    split <;> constructor <;> omega

theorem issued_mono (log : List Command) {i j : Nat} (hij : i ≤ j) :
    (KVSpec.after (log.take i)).store.issued ≤ (KVSpec.after (log.take j)).store.issued :=
  after_induction (P := fun sp => (KVSpec.after (log.take i)).store.issued ≤ sp.store.issued)
    (fun sp cmd h => le_trans h (issued_apply sp cmd).1) hij le_rfl

/-- No more leases than commands. -/
theorem issued_le : ∀ log : List Command,
    0 ≤ (KVSpec.after log).store.issued ∧ (KVSpec.after log).store.issued ≤ log.length := by
  intro log
  induction log using List.reverseRecOn with
  | nil => exact ⟨le_rfl, le_rfl⟩
  | append_singleton log cmd ih =>
    obtain ⟨hlo, hhi⟩ := issued_apply (.after log) cmd
    rw [KVSpec.after_concat, List.length_append, List.length_singleton]
    omega

/-! ## Requests -/

theorem repeats_iff (sp : KVSpec) (cmd : Command) :
    sp.repeats cmd = true ↔ cmd.clientID ≠ 0 ∧ sp.Settled cmd.clientID cmd.requestID := by
  simp only [KVSpec.repeats, KVSpec.Settled, Bool.and_eq_true, decide_eq_true_eq, Option.any_eq_true,
    Option.mem_def]

/-- A table only gets larger: the entry of a client is replaced by a larger one. -/
theorem settled_kept {c r : Int} (h : sp.Settled c r) (cmd : Command) :
    (sp.apply cmd).1.Settled c r := by
  cases hrep : sp.repeats cmd with
  | true =>
    rw [apply_repeats hrep]
    exact h
  | false =>
    rw [apply_fresh hrep]
    unfold KVSpec.Settled at h ⊢
    dsimp only
    by_cases hzero : cmd.clientID = 0
    · rw [if_pos hzero]
      exact h
    · rw [if_neg hzero, Finmap.lookup_insert_ite]
      by_cases hc : c = cmd.clientID
      · obtain ⟨r', hr', hle⟩ := h
        rw [if_pos hc]
        refine ⟨cmd.requestID, rfl, ?_⟩
        -- a request that is no repetition is above the table
        have hnot : ¬ cmd.requestID ≤ r' := fun hge => by
          have hsettled := (repeats_iff sp cmd).mpr ⟨hzero, r', hc ▸ hr', hge⟩
          rw [hrep] at hsettled
          cases hsettled
        omega
      · rw [if_neg hc]
        exact h

/-- A request that has been executed or found repeated is settled. -/
theorem settled_apply (sp : KVSpec) (hclient : cmd.clientID ≠ 0) :
    (sp.apply cmd).1.Settled cmd.clientID cmd.requestID := by
  cases hrep : sp.repeats cmd with
  | true =>
    rw [apply_repeats hrep]
    exact ((repeats_iff sp cmd).mp hrep).2
  | false =>
    rw [apply_fresh hrep]
    refine ⟨cmd.requestID, ?_, le_rfl⟩
    dsimp only
    rw [if_neg hclient, Finmap.lookup_insert_ite, if_pos rfl]
    rfl

theorem settled_mono {c r : Int} {i j : Nat} (hij : i ≤ j)
    (h : (KVSpec.after (log.take i)).Settled c r) : (KVSpec.after (log.take j)).Settled c r :=
  after_induction (P := fun sp => sp.Settled c r) (fun _ cmd h => settled_kept h cmd) hij h

/-- The command that settles a request has it or a later one of the same client, and is no
repetition. -/
theorem settled_by {c r : Int} (hopen : ¬ sp.Settled c r) (h : (sp.apply cmd).1.Settled c r) :
    cmd.clientID = c ∧ c ≠ 0 ∧ r ≤ cmd.requestID ∧ sp.repeats cmd = false := by
  cases hrep : sp.repeats cmd with
  | true =>
    rw [apply_repeats hrep] at h
    exact absurd h hopen
  | false =>
    rw [apply_fresh hrep] at h
    obtain ⟨r', hr', hle⟩ := h
    dsimp only at hr'
    by_cases hzero : cmd.clientID = 0
    · rw [if_pos hzero] at hr'
      exact absurd ⟨r', hr', hle⟩ hopen
    · rw [if_neg hzero, Finmap.lookup_insert_ite] at hr'
      split at hr'
      · next hc =>
        cases hr'
        exact ⟨hc.symm, hc ▸ hzero, hle, rfl⟩
      · exact absurd ⟨r', hr', hle⟩ hopen

end SpecRunLemmas

end Zodiac
