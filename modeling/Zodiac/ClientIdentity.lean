import Mathlib.Logic.Function.Basic
import Zodiac.ClientOrder

/-!
# Request identities across processes

`New` numbers the clients of its own process. Two processes, such as two runs of
`zodiac-client`, both have a client 1, and the dedup table cannot tell them apart.

* `ClientSystem`: any number of processes that use `kvclient` against one cluster.
* `uniqueIdentities_iff`: no two operations carry the same pair of ids exactly when
  no client id is used by two processes.
* `requests_unique`: under that condition an operation is only ever suppressed by an
  operation of its own client.
* `second_process_suppressed`: the first operation of a second process is lost.
-/

namespace Zodiac

/-! ## Processes -/

/-- The state of the package `kvclient` in one process: the counter behind the
client ids, and the request counter of each client. -/
structure ClientProcess where
  clientCount : Int
  requestID : GoMap Int Int

/-- A call of a client method, with the process that made it and the request that
was built for it. -/
structure Operation where
  process : Nat
  cmd : Command

/-- The two operations were made through the same `KVClient`. -/
def Operation.SameClient (o o' : Operation) : Prop :=
  o.process = o'.process ∧ o.cmd.clientID = o'.cmd.clientID

/-- All processes, the operations they have made, and the log of the cluster, in
which each entry has the number of the operation that it carries. -/
structure ClientSystem where
  processes : Nat → ClientProcess
  operations : List Operation
  log : List (Option Nat × LogEntry)

/-- Atomic steps. -/
inductive SystemStep
  /-- `New` in process `p`. -/
  | new (p : Nat)
  /-- A call on a client of process `p`. -/
  | call (p : Nat) (client : Int) (cmd : Command)
  /-- The request of the `k`-th operation is committed, perhaps once more. -/
  | land (k : Nat) (serviceID : Nat) (env : Env)
  /-- A lease-expiry entry of some service is committed. -/
  | expiry (leaseIDs : List Int) (env : Env)

namespace ClientSystem

/-- `New`. -/
def newClient (s : ClientSystem) (p : Nat) : ClientSystem :=
  let id := (s.processes p).clientCount + 1
  let process : ClientProcess :=
    { clientCount := id, requestID := (s.processes p).requestID.insert id 0 }
  { s with processes := Function.update s.processes p process }

/-- The start of a client method: `n` is the request counter before it. -/
def call (s : ClientSystem) (p : Nat) (client n : Int) (cmd : Command) : ClientSystem :=
  let process : ClientProcess :=
    { s.processes p with requestID := (s.processes p).requestID.insert client (n + 1) }
  { s with
    processes := Function.update s.processes p process
    operations := s.operations ++
      [{ process := p, cmd := { cmd with clientID := client, requestID := n + 1 } }] }

/-- The entries of the log as the services see them. -/
def entries (s : ClientSystem) : List LogEntry := s.log.map Prod.snd

/-- The operation that the entry at position `i` carries. -/
def operationAt (s : ClientSystem) (i : Nat) : Option Operation :=
  (s.log[i]?).bind fun e => e.1.bind fun k => s.operations[k]?

end ClientSystem

/-- The processes and the log as a machine. -/
def clientSystem : Machine ClientSystem SystemStep where
  init := { processes := fun _ => { clientCount := 0, requestID := ∅ }, operations := [], log := [] }
  step s
    | .new p => some (s.newClient p)
    | .call p client cmd =>
      match (s.processes p).requestID.lookup client with
      | none => none
      | some n => some (s.call p client n cmd)
    | .land k serviceID env =>
      match s.operations[k]? with
      | none => none
      | some o =>
        some { s with log := s.log ++ [(some k, env, { o.cmd with serviceID := serviceID })] }
    | .expiry leaseIDs env =>
      some { s with
        log := s.log ++ [(none, env, { kind := .leaseExpiry, leaseIDs := leaseIDs })] }

/-! ## Properties -/

/-- Two different operations never carry the same client id and request id. -/
def UniqueIdentities (s : ClientSystem) : Prop :=
  ∀ (k k' : Nat) (o o' : Operation), s.operations[k]? = some o → s.operations[k']? = some o' →
    SameRequest o.cmd o'.cmd → k = k'

/-- The entry at `j` makes the service take the entry at `i` for a duplicate. -/
def Covers (log : List LogEntry) (j i : Nat) : Prop :=
  j < i ∧ ∃ e e', log[j]? = some e ∧ log[i]? = some e' ∧
    e.2.clientID = e'.2.clientID ∧ e'.2.requestID ≤ e.2.requestID

/-- An entry that is marked duplicate is covered by an earlier one, and all entries
that cover it come from the client it comes from. -/
def OwnSuppressionOnly {β : Type} (codec : SnapshotCodec β) (s : ClientSystem) : Prop :=
  ∀ i a, (appliedBy codec s.entries)[i]? = some a → a.cmd.isDuplicate = true →
    (∃ j, Covers s.entries j i) ∧
    ∀ j, Covers s.entries j i →
      ∃ o o', s.operationAt i = some o ∧ s.operationAt j = some o' ∧ o.SameClient o'

/-- No client id is in use in two processes. -/
def OneProcessPerID (s : ClientSystem) : Prop :=
  ∀ o ∈ s.operations, ∀ o' ∈ s.operations, o.cmd.clientID = o'.cmd.clientID →
    o.process = o'.process

/-- A call is made only on a client whose id no other process has made a call
under. -/
def OwnClientID (s : ClientSystem) : SystemStep → Prop
  | .call p client _ => ∀ o ∈ s.operations, o.cmd.clientID = client → o.process = p
  | _ => True

instance (s : ClientSystem) (a : SystemStep) : Decidable (OwnClientID s a) := by
  unfold OwnClientID
  split <;> infer_instance

open History ClientOrderLemmas

namespace ClientIdentityLemmas

/-! ## The counters -/

/-- The request counter of the client with the given id in process `p`. -/
def counter (s : ClientSystem) (p : Nat) (c : Int) : Option Int :=
  (s.processes p).requestID.lookup c

theorem newClient_processes (s : ClientSystem) (p q : Nat) :
    (s.newClient p).processes q = if q = p then
      { clientCount := (s.processes p).clientCount + 1,
        requestID := (s.processes p).requestID.insert ((s.processes p).clientCount + 1) 0 }
    else s.processes q :=
  Function.update_apply _ _ _ _

theorem call_processes (s : ClientSystem) (p q : Nat) (client n : Int) (cmd : Command) :
    (s.call p client n cmd).processes q = if q = p then
      { s.processes p with requestID := (s.processes p).requestID.insert client (n + 1) }
    else s.processes q :=
  Function.update_apply _ _ _ _

theorem counter_newClient (s : ClientSystem) (p q : Nat) (c : Int) :
    counter (s.newClient p) q c =
      if q = p ∧ c = (s.processes p).clientCount + 1 then some 0 else counter s q c := by
  unfold counter
  rw [newClient_processes]
  split
  · next heq =>
    subst heq
    simp only [Finmap.lookup_insert_ite, true_and]
  · next hne => simp only [hne, false_and, if_false]

theorem counter_call (s : ClientSystem) (p q : Nat) (client n c : Int) (cmd : Command) :
    counter (s.call p client n cmd) q c =
      if q = p ∧ c = client then some (n + 1) else counter s q c := by
  unfold counter
  rw [call_processes]
  split
  · next heq =>
    subst heq
    simp only [Finmap.lookup_insert_ite, true_and]
  · next hne => simp only [hne, false_and, if_false]

/-- What the counters guarantee inside each process, and where entries come
from. -/
structure Counted (s : ClientSystem) : Prop where
  known : ∀ p c n, counter s p c = some n → c ≤ (s.processes p).clientCount
  drawn : ∀ o ∈ s.operations, ∃ n, counter s o.process o.cmd.clientID = some n ∧
    0 < o.cmd.requestID ∧ o.cmd.requestID ≤ n
  -- a client that has made calls has made one with request id 1
  opened : ∀ p c n, counter s p c = some n → n = 0 ∨ 0 < n ∧ ∃ o ∈ s.operations,
    o.process = p ∧ o.cmd.clientID = c ∧ o.cmd.requestID = 1
  distinct : ∀ (k k' : Nat) (o o' : Operation), s.operations[k]? = some o → s.operations[k']? = some o' →
    o.process = o'.process → SameRequest o.cmd o'.cmd → k = k'
  carried : ∀ i e, s.log[i]? = some e → e.2.2.clientID ≠ 0 →
    ∃ o ∈ s.operations, s.operationAt i = some o ∧ o.cmd.clientID = e.2.2.clientID

theorem Counted.newClient {s : ClientSystem} (h : Counted s) (p : Nat) :
    Counted (s.newClient p) := by
  -- the new id is above the counter, so no operation has it yet
  have hnew : ∀ o ∈ s.operations,
      ¬ (o.process = p ∧ o.cmd.clientID = (s.processes p).clientCount + 1) := by
    rintro o ho ⟨hp, hc⟩
    obtain ⟨n, hn, _⟩ := h.drawn o ho
    have hle := h.known _ _ n hn
    rw [hp] at hle
    omega
  have hcount : ∀ q, (s.processes q).clientCount ≤ ((s.newClient p).processes q).clientCount := by
    intro q
    rw [newClient_processes]
    split
    · next heq =>
      subst heq
      exact le_of_lt (Int.lt_succ _)
    · exact le_rfl
  refine ⟨?_, ?_, ?_, h.distinct, h.carried⟩
  · intro q c n hn
    rw [counter_newClient] at hn
    split at hn
    · next heq =>
      obtain ⟨rfl, rfl⟩ := heq
      rw [newClient_processes, if_pos rfl]
    · exact le_trans (h.known q c n hn) (hcount q)
  · intro o ho
    rw [counter_newClient, if_neg (hnew o ho)]
    exact h.drawn o ho
  · intro q c n hn
    rw [counter_newClient] at hn
    split at hn
    · cases hn
      exact .inl rfl
    · exact h.opened q c n hn

theorem operationAt_call {s : ClientSystem} {p : Nat} {client n : Int} {cmd : Command} {i : Nat}
    {o : Operation} (h : s.operationAt i = some o) :
    (s.call p client n cmd).operationAt i = some o := by
  obtain ⟨e, he, hk⟩ := Option.bind_eq_some_iff.mp h
  obtain ⟨k, hek, hko⟩ := Option.bind_eq_some_iff.mp hk
  refine Option.bind_eq_some_iff.mpr ⟨e, he, Option.bind_eq_some_iff.mpr ⟨k, hek, ?_⟩⟩
  exact getElem?_append_of_some hko

section Call

variable {s : ClientSystem} {p : Nat} {client n : Int}

theorem clientCount_call (s : ClientSystem) (p q : Nat) (client n : Int) (cmd : Command) :
    ((s.call p client n cmd).processes q).clientCount = (s.processes q).clientCount := by
  rw [call_processes]
  split
  · next heq => rw [heq]
  · rfl

theorem Counted.drawn_call (h : Counted s) (cmd : Command) (hn : counter s p client = some n) :
    ∀ o ∈ (s.call p client n cmd).operations, ∃ m,
      counter (s.call p client n cmd) o.process o.cmd.clientID = some m ∧
      0 < o.cmd.requestID ∧ o.cmd.requestID ≤ m := by
  intro o ho
  rw [counter_call]
  rcases List.mem_append.mp ho with ho | ho
  · obtain ⟨m, hm, hpos, hle⟩ := h.drawn o ho
    split
    · next heq =>
      rw [heq.1, heq.2] at hm
      obtain rfl : n = m := Option.some.inj (hn.symm.trans hm)
      exact ⟨_, rfl, hpos, by omega⟩
    · exact ⟨m, hm, hpos, hle⟩
  · rw [List.mem_singleton.mp ho]
    refine ⟨_, if_pos ⟨rfl, rfl⟩, ?_, le_rfl⟩
    show 0 < n + 1
    rcases h.opened _ _ n hn with rfl | ⟨hpos, _⟩ <;> omega

theorem Counted.opened_call (h : Counted s) (cmd : Command) (hn : counter s p client = some n)
    (q : Nat) (c m : Int) (hm : counter (s.call p client n cmd) q c = some m) :
    m = 0 ∨ 0 < m ∧ ∃ o ∈ (s.call p client n cmd).operations,
      o.process = q ∧ o.cmd.clientID = c ∧ o.cmd.requestID = 1 := by
  have hmem : ∀ {o : Operation}, o ∈ s.operations → o ∈ (s.call p client n cmd).operations :=
    fun ho => List.mem_append_left _ ho
  rw [counter_call] at hm
  split at hm
  · next heq =>
    obtain ⟨rfl, rfl⟩ := heq
    cases hm
    -- the call is the client's first, or there was a first one
    rcases h.opened _ _ n hn with rfl | ⟨hpos, o, ho, hfirst⟩
    · exact .inr ⟨by omega, _, List.mem_append_right _ (List.mem_singleton.mpr rfl), rfl, rfl, rfl⟩
    · exact .inr ⟨by omega, o, hmem ho, hfirst⟩
  · rcases h.opened q c m hm with rfl | ⟨hpos, o, ho, hfirst⟩
    · exact .inl rfl
    · exact .inr ⟨hpos, o, hmem ho, hfirst⟩

/-- The new request id is above those that its client has drawn. -/
theorem Counted.not_sameRequest (h : Counted s) {cmd : Command}
    (hn : counter s p client = some n) {k : Nat} {o o' : Operation}
    (hk : s.operations[k]? = some o)
    (ho' : o' = ⟨p, { cmd with clientID := client, requestID := n + 1 }⟩)
    (hp : o.process = o'.process) : ¬ SameRequest o.cmd o'.cmd := by
  rintro ⟨hc, hr⟩
  subst ho'
  obtain ⟨m, hm, _, hle⟩ := h.drawn o (List.mem_of_getElem? hk)
  rw [hp, hc] at hm
  obtain rfl : n = m := Option.some.inj (hn.symm.trans hm)
  simp only at hr
  omega

theorem Counted.distinct_call (h : Counted s) (cmd : Command) (hn : counter s p client = some n)
    (k k' : Nat) (o o' : Operation) (hk : (s.call p client n cmd).operations[k]? = some o)
    (hk' : (s.call p client n cmd).operations[k']? = some o') (hp : o.process = o'.process)
    (hsame : SameRequest o.cmd o'.cmd) : k = k' := by
  rcases getElem?_concat hk with hk | ⟨rfl, ho⟩
  · rcases getElem?_concat hk' with hk' | ⟨rfl, ho'⟩
    · exact h.distinct k k' o o' hk hk' hp hsame
    · exact absurd hsame (h.not_sameRequest hn hk ho' hp)
  · rcases getElem?_concat hk' with hk' | ⟨rfl, _⟩
    · exact absurd ⟨hsame.1.symm, hsame.2.symm⟩ (h.not_sameRequest hn hk' ho hp.symm)
    · rfl

theorem Counted.call (h : Counted s) (cmd : Command) (hn : counter s p client = some n) :
    Counted (s.call p client n cmd) where
  known q c m hm := by
    rw [counter_call] at hm
    rw [clientCount_call]
    split at hm
    · next heq =>
      obtain ⟨rfl, rfl⟩ := heq
      exact h.known _ _ n hn
    · exact h.known q c m hm
  drawn := h.drawn_call cmd hn
  opened := h.opened_call cmd hn
  distinct := h.distinct_call cmd hn
  carried i e he hc := by
    obtain ⟨o, ho, hat, hclient⟩ := h.carried i e he hc
    exact ⟨o, List.mem_append_left _ ho, operationAt_call hat, hclient⟩

end Call

/-- The log grows by an entry that carries an operation or has no client. -/
theorem Counted.grow {s : ClientSystem} (h : Counted s) (k : Option Nat) (env : Env) (cmd : Command)
    (hcmd : cmd.clientID ≠ 0 → ∃ o, k.bind (s.operations[·]?) = some o ∧
      o.cmd.clientID = cmd.clientID) :
    Counted { s with log := s.log ++ [(k, env, cmd)] } := by
  refine ⟨h.known, h.drawn, h.opened, h.distinct, ?_⟩
  intro i e he hc
  rcases getElem?_concat he with hold | ⟨_, rfl⟩
  · obtain ⟨o, ho, hat, hclient⟩ := h.carried i e hold hc
    refine ⟨o, ho, ?_, hclient⟩
    rw [ClientSystem.operationAt, hold] at hat
    rw [ClientSystem.operationAt, he]
    exact hat
  · obtain ⟨o, ho, hclient⟩ := hcmd hc
    obtain ⟨k, rfl, hk⟩ := Option.bind_eq_some_iff.mp ho
    refine ⟨o, List.mem_of_getElem? hk, ?_, hclient⟩
    rw [ClientSystem.operationAt, he]
    exact ho

theorem counted_of_reachable {G : ClientSystem → SystemStep → Prop} {s : ClientSystem}
    (h : clientSystem.ReachableBy G s) : Counted s := by
  refine h.invariant ?_ fun s a s' _ hinv _ hstep => ?_
  · exact ⟨fun p c n hn => by simp [clientSystem, counter] at hn,
      fun _ ho => absurd ho List.not_mem_nil,
      fun p c n hn => by simp [clientSystem, counter] at hn,
      fun _ _ _ _ hk => by simp [clientSystem] at hk,
      fun _ _ he => by simp [clientSystem] at he⟩
  · cases a with
    | new p =>
      cases hstep
      exact hinv.newClient p
    | call p client cmd =>
      simp only [clientSystem] at hstep
      split at hstep
      · cases hstep
      · next hn =>
        cases hstep
        exact hinv.call cmd hn
    | land k serviceID env =>
      simp only [clientSystem] at hstep
      split at hstep
      · cases hstep
      · next o hk =>
        cases hstep
        exact hinv.grow (some k) env _ fun _ => ⟨o, hk, rfl⟩
    | expiry leaseIDs env =>
      cases hstep
      exact hinv.grow none env _ fun hc => absurd rfl hc

/-! ## From identities to suppression -/

/-- Every client that has made a call has made one with request id 1. -/
theorem Counted.exists_first {s : ClientSystem} (h : Counted s) {o : Operation}
    (ho : o ∈ s.operations) :
    ∃ o' ∈ s.operations, o'.SameClient o ∧ o'.cmd.requestID = 1 := by
  obtain ⟨n, hn, hpos, hle⟩ := h.drawn o ho
  rcases h.opened _ _ n hn with rfl | ⟨_, o', ho', hp, hc, hr⟩
  · omega
  · exact ⟨o', ho', ⟨hp, hc⟩, hr⟩

theorem Counted.unique_iff {s : ClientSystem} (h : Counted s) :
    UniqueIdentities s ↔ OneProcessPerID s := by
  constructor
  · intro huniq o ho o' ho' hc
    -- both clients started with request id 1, so the two first operations are one
    obtain ⟨f, hf, ⟨hfp, hfc⟩, hfr⟩ := h.exists_first ho
    obtain ⟨f', hf', ⟨hfp', hfc'⟩, hfr'⟩ := h.exists_first ho'
    obtain ⟨k, hk⟩ := List.getElem?_of_mem hf
    obtain ⟨k', hk'⟩ := List.getElem?_of_mem hf'
    have hsame : SameRequest f.cmd f'.cmd :=
      ⟨(hfc.trans hc).trans hfc'.symm, hfr.trans hfr'.symm⟩
    obtain rfl := huniq k k' f f' hk hk' hsame
    obtain rfl : f = f' := Option.some.inj (hk.symm.trans hk')
    exact hfp.symm.trans hfp'
  · intro hone k k' o o' hk hk' hsame
    exact h.distinct k k' o o' hk hk'
      (hone o (List.mem_of_getElem? hk) o' (List.mem_of_getElem? hk') hsame.1) hsame

/-- A superseded entry is covered by an earlier one. -/
theorem exists_covers {log : List LogEntry} {i : Nat} {e : LogEntry} (hi : log[i]? = some e)
    (h : Superseded ((log.map Prod.snd).take i) e.2) : ∃ j, Covers log j i := by
  obtain ⟨_, cmd, hcmd, hc, hle⟩ := h
  obtain ⟨j, hj⟩ := List.getElem?_of_mem hcmd
  rw [List.getElem?_take] at hj
  split at hj
  · next hji =>
    rw [List.getElem?_map] at hj
    obtain ⟨e', he', rfl⟩ := Option.map_eq_some_iff.mp hj
    exact ⟨j, hji, e', e, he', hi, hc, hle⟩
  · cases hj

theorem Counted.sameClient_of_covers {s : ClientSystem} (h : Counted s) (hone : OneProcessPerID s)
    {j i : Nat} (hcov : Covers s.entries j i) {e : LogEntry} (hi : s.entries[i]? = some e)
    (hc : e.2.clientID ≠ 0) :
    ∃ o o', s.operationAt i = some o ∧ s.operationAt j = some o' ∧ o.SameClient o' := by
  obtain ⟨_, e', e₁, hj, hi', hsame, _⟩ := hcov
  obtain rfl : e = e₁ := Option.some.inj (hi.symm.trans hi')
  rw [ClientSystem.entries, List.getElem?_map] at hi hj
  obtain ⟨x, hx, rfl⟩ := Option.map_eq_some_iff.mp hi
  obtain ⟨y, hy, rfl⟩ := Option.map_eq_some_iff.mp hj
  obtain ⟨o, ho, hat, hclient⟩ := h.carried i x hx hc
  obtain ⟨o', ho', hat', hclient'⟩ := h.carried j y hy (hsame ▸ hc)
  have heq : o.cmd.clientID = o'.cmd.clientID := by rw [hclient, hclient', hsame]
  exact ⟨o, o', hat, hat', hone o ho o' ho' heq, heq⟩

theorem Counted.ownSuppressionOnly {β : Type} (codec : SnapshotCodec β) {s : ClientSystem}
    (h : Counted s) (hone : OneProcessPerID s) : OwnSuppressionOnly codec s := by
  intro i a ha hdup
  obtain ⟨hi, hiff⟩ := appliedBy_spec codec ha
  have hsup := hiff.mp hdup
  rw [List.getElem?_map] at hi
  obtain ⟨e, he, hcmd⟩ := Option.map_eq_some_iff.mp hi
  rw [← hcmd] at hsup
  exact ⟨exists_covers he hsup, fun j hcov => h.sameClient_of_covers hone hcov he hsup.1⟩

/-- The one process of a client id stays the one. -/
theorem oneProcessPerID_step {s s' : ClientSystem} {a : SystemStep} (h : OneProcessPerID s)
    (hg : OwnClientID s a) (hstep : clientSystem.step s a = some s') : OneProcessPerID s' := by
  cases a with
  | new p =>
    cases hstep
    exact h
  | call p client cmd =>
    simp only [clientSystem] at hstep
    split at hstep
    · cases hstep
    · cases hstep
      intro o ho o' ho' hc
      rcases List.mem_append.mp ho with ho | ho
      · rcases List.mem_append.mp ho' with ho' | ho'
        · exact h o ho o' ho' hc
        · rw [List.mem_singleton.mp ho'] at hc ⊢
          exact hg o ho hc
      · rw [List.mem_singleton.mp ho] at hc ⊢
        rcases List.mem_append.mp ho' with ho' | ho'
        · exact (hg o' ho' hc.symm).symm
        · rw [List.mem_singleton.mp ho']
  | land k serviceID env =>
    simp only [clientSystem] at hstep
    split at hstep
    · cases hstep
    · cases hstep
      exact h
  | expiry leaseIDs env =>
    cases hstep
    exact h

end ClientIdentityLemmas

open ClientIdentityLemmas

/-- In every run, no two operations carry the same pair of ids if and only if no client
id is in use in two processes. -/
theorem uniqueIdentities_iff {s : ClientSystem} (h : clientSystem.Reachable s) :
    UniqueIdentities s ↔ OneProcessPerID s :=
  (counted_of_reachable h).unique_iff

/-- In a run in which no call is made under a client id that another process has used,
different operations carry different ids, and an operation is suppressed only by an
operation of its own client. -/
theorem requests_unique {β : Type} (codec : SnapshotCodec β) {s : ClientSystem}
    (h : clientSystem.ReachableBy OwnClientID s) :
    UniqueIdentities s ∧ OwnSuppressionOnly codec s := by
  have hcounted := counted_of_reachable h
  have hone : OneProcessPerID s := h.invariant (I := OneProcessPerID)
    (fun _ ho => absurd ho List.not_mem_nil) fun s a s' _ hinv hg hstep =>
      oneProcessPerID_step hinv hg hstep
  exact ⟨hcounted.unique_iff.mpr hone, hcounted.ownSuppressionOnly codec hone⟩

/-- Process 0 puts `"a"` through its client 1, and the request lands twice. Process 1
puts `"b"` through one of its two clients. -/
def twoProcesses (client : Int) : List SystemStep :=
  [.new 0, .call 0 1 { kind := .put, key := "a", value := "x" }, .land 0 0 (Env.at 0),
    .land 0 0 (Env.at 0), .new 1, .new 1,
    .call 1 client { kind := .put, key := "b", value := "y" }, .land 1 0 (Env.at 0)]

/-- The marks that the entries of the log get, and the value of `"b"` in the end. -/
def outcome (s : ClientSystem) : List Bool × String × Bool :=
  ((appliedBy .plain s.entries).map fun a => a.cmd.isDuplicate,
    (stateAfter .plain s.entries).ds.get "b")

/-- Through its client 2 the put takes effect, and only the retry is suppressed. -/
theorem requests_unique_second_client : ∃ s, clientSystem.ReachableBy OwnClientID s ∧
    outcome s = ([false, true, false], "y", true) ∧
    UniqueIdentities s ∧ OwnSuppressionOnly .plain s := by
  obtain ⟨s, hs, hout⟩ := Machine.exists_reachableBy (M := clientSystem) (G := OwnClientID)
    (twoProcesses 2) outcome (x := ([false, true, false], "y", true)) (by decide)
  exact ⟨s, hs, hout, requests_unique .plain hs⟩

/-- Through its client 1 the put carries the ids of the first one. It is marked
duplicate, and `"b"` is never written. -/
theorem second_process_suppressed : ∃ s, clientSystem.Reachable s ∧
    outcome s = ([false, true, true], "", false) ∧
    ¬ UniqueIdentities s ∧ ¬ OwnSuppressionOnly .plain s := by
  have hrun : clientSystem.exec clientSystem.init (twoProcesses 1) = some _ := rfl
  refine ⟨_, Machine.reachable_of_exec hrun, by decide, fun h => ?_, fun h => ?_⟩
  · exact absurd (h 0 1 _ _ rfl rfl ⟨rfl, rfl⟩) (by decide)
  · obtain ⟨_, hown⟩ := h 2 _ rfl (by decide)
    obtain ⟨o, o', ho, ho', hsame⟩ := hown 0 ⟨by decide, _, _, rfl, rfl, rfl, le_rfl⟩
    cases ho
    cases ho'
    exact absurd hsame.1 (by decide)

end Zodiac
