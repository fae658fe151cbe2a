import Zodiac.Handlers
import Zodiac.LeaseRemoval
import Zodiac.Log

/-!
# What a successful keepalive means

`KVClient.LeaseKeepAlive` sends its request to one node after the other until one gives
a final answer. What the answer says has come a long way: `KeepAliveLease` says whether
it found the lease, the command carries that as its result, the handler turns the result
into a response and the client turns the response into an error or nil.

* `LiveAt`: the lease has been granted and not removed, by the entries of the log.
* `liveAt_iff`: which leases a replica has is a matter of the log.
* `keepAlive_ok_iff`: a nil result belongs to an entry that was applied once, and that
  entry has renewed the lease exactly if the lease was live.
* `keepAlive_of_revoked`: nil for a lease that has been revoked.
-/

namespace Zodiac

variable {β : Type}

/-! ## The client -/

/-- A round of the loop of `send`: a response, or an error together with whether the
context of the call is done and whether the deadline of the round has passed. -/
inductive Attempt
  | failed (err : String) (done deadlineExceeded : Bool)
  | answered (resp : Response)

/-- `KVClient`. -/
structure KVClient where
  addrs : List String
  assumedLeader : Nat
  clientID : Int
  requestID : Int

namespace KVClient

/-- The next address. -/
def rotate (c : KVClient) : KVClient :=
  { c with assumedLeader := (c.assumedLeader + 1) % c.addrs.length }

/-- `send`: the error, or none for nil. The loop goes on after the last round. -/
def send : KVClient → List Attempt → Option (KVClient × Option String)
  | _, [] => none
  | c, .failed err done deadlineExceeded :: attempts =>
    if done then some (c, some err)
    else if deadlineExceeded then send c.rotate attempts
    else some (c, some err)
  | c, .answered resp :: attempts =>
    match resp.status with
    | .notLeader => send c.rotate attempts
    | .ok => some (c, none)
    | .failedCommit => some (c, some "commit failed; please retry")
    | .duplicateRequest => some (c, some "this request was already completed")

/-- The request of the next `LeaseKeepAlive`. -/
def keepAliveRequest (c : KVClient) (id : Int) : LeaseRequest :=
  { id := id, clientID := c.clientID, requestID := c.requestID + 1 }

/-- `LeaseKeepAlive`. `rounds` is what comes of a request, round by round. -/
def leaseKeepAlive (c : KVClient) (id : Int) (rounds : LeaseRequest → List Attempt) :
    Option (KVClient × Option String) :=
  send { c with requestID := c.requestID + 1 } (rounds (c.keepAliveRequest id))

end KVClient

/-! ## Definitions -/

/-- The responses of a handler for the entries of a log: its node does not lead, its
subscription was closed by a snapshot, or an entry was applied at its index. An entry
with the id of its node is the one that it submitted. -/
inductive Answered (codec : SnapshotCodec β) (log : List Command) (h : Handler) : Response → Prop
  | notLeader : Answered codec log h .notLeader
  | closed {n : Nat} {resp : Response} : h.respond n none = some resp → Answered codec log h resp
  | applied {n i : Nat} {s : KVService} {env : Env} {cmd : Command} {resp : Response} :
      (replicated codec).ReplicaAt log i s → log[i]? = some cmd →
      (cmd.serviceID = n → cmd = h.command n) →
      h.respond n (some (s.handleCommand codec env cmd i).2.cmd) = some resp →
      Answered codec log h resp

/-- Before entry `n`, the lease has been granted and not removed since. -/
def LiveAt (codec : SnapshotCodec β) (log : List Command) (n : Nat) (id : Int) : Prop :=
  ∃ j < n, GrantedAt codec log j id ∧ ∀ k, j < k → k < n → ¬ RemovedAt codec log k id

/-- Applied in state `s`, entry `i` finds the lease live and gives it a new deadline. -/
def Renews (codec : SnapshotCodec β) (env : Env) (s : KVService) (cmd : Command) (i : Nat)
    (id : Int) : Prop :=
  ∃ l, s.ds.leases.lookup id = some l ∧
    (s.handleCommand codec env cmd i).1.ds.leases.lookup id =
      some { l with expiresAt := env.now + durationOfSeconds l.ttl }

namespace KeepAliveLemmas

open LeaseRemovalLemmas LeaseExpiryLemmas

/-! ## Operations that keep leases -/

/-- Every lease of `ds` is one of `ds'`. -/
def LeasesKept (ds ds' : DataStore) : Prop := ∀ id ∈ ds.leases, id ∈ ds'.leases

theorem LeasesKept.refl (ds : DataStore) : LeasesKept ds ds := fun _ h => h

theorem LeasesKept.trans {ds ds' ds'' : DataStore} (h : LeasesKept ds ds')
    (h' : LeasesKept ds' ds'') : LeasesKept ds ds'' := fun id hid => h' id (h id hid)

theorem LeasesKept.move {ds ds' : DataStore} (hmove : ds.Move ds') : LeasesKept ds ds' := by
  cases hmove with
  | detach key => exact fun id hid => (DataStore.mem_detachKeyFromLease_leases ..).mpr hid
  | setData _ _ | eraseData _ => exact .refl ds
  | link _ _ _ => exact fun id hid => Finmap.mem_insert.mpr (.inr hid)

theorem LeasesKept.moves {ds ds' : DataStore} (hmoves : ds.Moves ds') : LeasesKept ds ds' := by
  induction hmoves with
  | refl => exact .refl ds
  | tail _ hmove ih => exact ih.trans (.move hmove)

/-- Only a revoke or an expiry removes a lease. -/
theorem leasesKept_execute (env : Env) (ds : DataStore) {cmd : Command}
    (hkind : ¬ (cmd.kind = .leaseRevoke ∨ cmd.kind = .leaseExpiry)) :
    LeasesKept ds (KVService.execute env ds cmd).1 := by
  refine KVService.execute_ds_of (fun _ _ hmoves => .moves hmoves)
    (fun _ id hid => Finmap.mem_insert.mpr (.inr hid)) (fun _ => ?_)
    (fun h => absurd (.inl h) hkind) fun h => absurd (.inr h) hkind
  unfold DataStore.keepAliveLease
  split
  · exact .refl ds
  · exact fun id hid => Finmap.mem_insert.mpr (.inr hid)

variable {codec : SnapshotCodec β} {log : List Command} {n : Nat} {s t : KVService} {id : Int}
  {cmd : Command}

theorem removal_of_gone (env : Env) (hlive : id ∈ s.ds.leases)
    (hgone : id ∉ (s.handleCommand codec env cmd n).1.ds.leases) :
    cmd.kind = .leaseRevoke ∨ cmd.kind = .leaseExpiry := by
  by_contra hkind
  rw [KVService.handleCommand_ds] at hgone
  refine hgone (KVService.applyCommand_ds_of (P := fun ds => id ∈ ds.leases) hlive ?_)
  exact leasesKept_execute env s.ds hkind id hlive

/-- A lease that appears has been granted. -/
theorem grant_of_new (env : Env) (hinv : LeaseInv s.ds) (hdead : id ∉ s.ds.leases)
    (hlive : id ∈ (s.handleCommand codec env cmd n).1.ds.leases) :
    cmd.kind = .leaseGrant ∧ s.isDuplicate cmd = false ∧
      (s.ds.grantLease env.now cmd.leaseTTL).2 = id := by
  rw [KVService.handleCommand_ds] at hlive
  cases hdup : s.isDuplicate cmd with
  | true =>
    rw [KVService.applyCommand_duplicate hdup] at hlive
    exact absurd hlive hdead
  | false =>
    obtain ⟨l, hl⟩ := Finmap.mem_iff.mp hlive
    have hissued := ((leaseInv_applyCommand hinv env cmd).stored id l hl).2.2
    rw [KVService.applyCommand_fresh hdup, leaseIDSeq_execute] at hissued
    rcases (termsAfter_applyCommand env s cmd).lease id l hl with hnew | ⟨l', hl', -⟩
    · split at hissued
      · next hkind =>
        refine ⟨hkind, rfl, ?_⟩
        rw [DataStore.grantLease]
        omega
      · omega
    · exact absurd (Finmap.mem_of_lookup_eq_some hl') hdead

theorem live_of_grant (env : Env) (hkind : cmd.kind = .leaseGrant)
    (hfresh : s.isDuplicate cmd = false) (hid : (s.ds.grantLease env.now cmd.leaseTTL).2 = id) :
    id ∈ (s.handleCommand codec env cmd n).1.ds.leases := by
  subst hid
  rw [KVService.handleCommand_ds, KVService.applyCommand_fresh hfresh]
  simp only [KVService.execute, hkind]
  exact Finmap.mem_insert.mpr (.inl rfl)

/-! ## Live leases -/

/-- Replicas at the same position have the same leases, and they do after any entry. -/
theorem mem_leases_after (hs : (replicated codec).ReplicaAt log n s)
    (ht : (replicated codec).ReplicaAt log n t) (env env' : Env) (cmd : Command) (id : Int) :
    id ∈ (s.handleCommand codec env cmd n).1.ds.leases ↔
      id ∈ (t.handleCommand codec env' cmd n).1.ds.leases :=
  have hdet := deterministic_replicated codec
  (hdet.state env env' n n cmd (hs.agree hdet ht)).mem_leases id

/-- A lease is live on the replicas at a position if the log says so. -/
theorem liveAt_iff (hs : (replicated codec).ReplicaAt log n s) (id : Int) :
    id ∈ s.ds.leases ↔ LiveAt codec log n id := by
  induction hs with
  | init =>
    refine ⟨fun hid => absurd hid Finmap.notMem_empty, ?_⟩
    rintro ⟨j, hj, -⟩
    exact absurd hj (Nat.not_lt_zero j)
  | @apply n s cmd env hs hcmd ih =>
    constructor
    · intro hlive
      by_cases hold : id ∈ s.ds.leases
      · obtain ⟨j, hj, hgranted, hkept⟩ := ih.mp hold
        refine ⟨j, Nat.lt_succ_of_lt hj, hgranted, fun k hjk hk => ?_⟩
        rcases Nat.lt_succ_iff_lt_or_eq.mp hk with hk | rfl
        · exact hkept k hjk hk
        · -- no replica loses at this entry what this one keeps
          rintro ⟨t, env', cmd', ht, hcmd', -, -, hgone⟩
          obtain rfl := Option.some.inj (hcmd.symm.trans hcmd')
          exact hgone ((mem_leases_after hs ht env env' cmd id).mp hlive)
      · obtain ⟨hkind, hfresh, hid⟩ := grant_of_new env (leaseInv_replica hs) hold hlive
        refine ⟨n, Nat.lt_succ_self n, ⟨s, env, cmd, hs, hcmd, hkind, hfresh, hid⟩, ?_⟩
        exact fun k hnk hk => absurd hnk (Nat.not_lt.mpr (Nat.le_of_lt_succ hk))
    · rintro ⟨j, hj, hgranted, hkept⟩
      rcases Nat.lt_succ_iff_lt_or_eq.mp hj with hj | rfl
      · have hold := ih.mpr ⟨j, hj, hgranted, fun k hjk hk => hkept k hjk (Nat.lt_succ_of_lt hk)⟩
        by_contra hgone
        refine hkept n hj (Nat.lt_succ_self n) ⟨s, env, cmd, hs, hcmd, ?_, hold, hgone⟩
        exact removal_of_gone env hold hgone
      · obtain ⟨t, env', cmd', ht, hcmd', hkind, hfresh, hid⟩ := hgranted
        obtain rfl := Option.some.inj (hcmd.symm.trans hcmd')
        exact (mem_leases_after hs ht env env' cmd id).mpr (live_of_grant env' hkind hfresh hid)
  | @restore m k s t d env _ _ hsave _ ih =>
    rw [((deterministic_replicated codec).restored env k s hsave).mem_leases id]
    exact ih

/-- A keepalive that is not a duplicate renews its lease exactly if it is there. -/
theorem renews_iff (env : Env) (hkind : cmd.kind = .leaseKeepAlive)
    (hfresh : s.isDuplicate cmd = false) (i : Nat) :
    Renews codec env s cmd i cmd.leaseID ↔ cmd.leaseID ∈ s.ds.leases := by
  unfold Renews
  rw [KVService.handleCommand_ds, KVService.applyCommand_fresh hfresh]
  simp only [KVService.execute, hkind, DataStore.keepAliveLease]
  cases hl : s.ds.leases.lookup cmd.leaseID with
  | none =>
    constructor
    · rintro ⟨l, hl', -⟩
      cases hl'
    · exact fun hmem => absurd hmem (Finmap.lookup_eq_none.mp hl)
  | some l =>
    refine ⟨fun _ => Finmap.mem_of_lookup_eq_some hl, fun _ => ⟨l, rfl, ?_⟩⟩
    exact Finmap.lookup_insert _

/-- On no replica is the entry a duplicate if it is none on one of them. -/
theorem renews_iff_liveAt {i : Nat} (hkind : cmd.kind = .leaseKeepAlive)
    (ht : (replicated codec).ReplicaAt log i t) (hfresh : t.isDuplicate cmd = false)
    (hs : (replicated codec).ReplicaAt log i s) (env : Env) :
    Renews codec env s cmd i cmd.leaseID ↔ LiveAt codec log i cmd.leaseID := by
  have hagree := hs.agree (deterministic_replicated codec) ht
  have hfresh' : s.isDuplicate cmd = false := by
    rw [← hfresh, KVService.isDuplicate, KVService.isDuplicate, hagree.requests]
  rw [← liveAt_iff hs]
  exact renews_iff env hkind hfresh' i

/-! ## The way back to the client -/

/-- `send` returns nil for an OK response only. -/
theorem answered_of_nil {attempts : List Attempt} : ∀ {c c' : KVClient},
    c.send attempts = some (c', none) → ∃ body, .answered (.ok body) ∈ attempts := by
  induction attempts with
  | nil =>
    intro c c' h
    cases h
  | cons a attempts ih =>
    intro c c' h
    have hrest {c : KVClient} (h : c.send attempts = some (c', none)) :
        ∃ body, .answered (.ok body) ∈ a :: attempts := by
      obtain ⟨body, hbody⟩ := ih h
      exact ⟨body, List.mem_cons_of_mem a hbody⟩
    cases a with
    | failed err done deadlineExceeded =>
      cases done with
      | true => cases h
      | false =>
        cases deadlineExceeded with
        | true => exact hrest h
        | false => cases h
    | answered resp =>
      cases resp with
      | ok body => exact ⟨body, List.mem_cons_self⟩
      | notLeader => exact hrest h
      | failedCommit | duplicateRequest => cases h

/-- A handler that answers OK has not rejected the command. -/
theorem rejects_of_ok {h : Handler} {n : Nat} {c : CommitCmd} {body : Body}
    (hresp : h.respond n (some c) = some (.ok body)) : h.rejects c = false := by
  simp only [Handler.respond] at hresp
  split at hresp
  · split at hresp
    · cases hresp
    · next hfresh => exact Bool.eq_false_iff.mpr hfresh
  · cases hresp

/-- An OK response is about the handler's own entry, which was not a duplicate. -/
theorem entry_of_ok {req : LeaseRequest} {body : Body}
    (h : Answered codec log (handleLeaseKeepAlive req) (.ok body)) :
    ∃ n i t, log[i]? = some ((handleLeaseKeepAlive req).command n) ∧
      (replicated codec).ReplicaAt log i t ∧
      t.isDuplicate ((handleLeaseKeepAlive req).command n) = false := by
  cases h with
  | closed hresp => cases hresp
  | @applied n i t env cmd _ ht hcmd hown hresp =>
    obtain ⟨commitCmd, heq, hid, -⟩ := Handler.respond_eq_ok hresp
    have hfresh := rejects_of_ok hresp
    cases heq
    rw [KVService.handleCommand_cmd] at hid hfresh
    obtain rfl := hown (by rw [← hid, KVService.applyCommand_toCommand])
    refine ⟨n, i, t, hcmd, ht, ?_⟩
    rw [← KVService.applyCommand_isDuplicate env t]
    exact hfresh

end KeepAliveLemmas

open KeepAliveLemmas

/-! ## Main results -/

/-- For every log and all replicas of it: when `LeaseKeepAlive` returns nil, its entry is
in the log, and no replica took it for a duplicate. There it renewed the lease exactly if
the lease had been granted and not been removed before. -/
theorem keepAlive_ok_iff (codec : SnapshotCodec β) {log : List Command} {c c' : KVClient}
    {id : Int} {rounds : LeaseRequest → List Attempt}
    (hserved : ∀ resp, .answered resp ∈ rounds (c.keepAliveRequest id) →
      Answered codec log (handleLeaseKeepAlive (c.keepAliveRequest id)) resp)
    (hnil : c.leaseKeepAlive id rounds = some (c', none)) :
    ∃ n i, log[i]? = some ((handleLeaseKeepAlive (c.keepAliveRequest id)).command n) ∧
      ∀ s env, (replicated codec).ReplicaAt log i s →
        (Renews codec env s ((handleLeaseKeepAlive (c.keepAliveRequest id)).command n) i id ↔
          LiveAt codec log i id) := by
  obtain ⟨body, hbody⟩ := answered_of_nil hnil
  obtain ⟨n, i, t, hentry, ht, hfresh⟩ := entry_of_ok (hserved _ hbody)
  exact ⟨n, i, hentry, fun s env hs => renews_iff_liveAt rfl ht hfresh hs env⟩

/-- A client of one node. -/
def soloClient : KVClient := { addrs := ["a:1"], assumedLeader := 0, clientID := 7, requestID := 0 }

/-- Its request is answered by OK. -/
def answeredOK (req : LeaseRequest) : List Attempt := [.answered (.ok (.kept req.id))]

/-- A lease is granted, revoked or not, and kept alive by the client through node 0. -/
def keepAliveLog (revoked : Bool) : List LogEntry :=
  [(.at 0, { kind := .leaseGrant, leaseTTL := 10 }),
    (.at 1, if revoked then { kind := .leaseRevoke, leaseID := 1 } else { kind := .get }),
    (.at 2, (handleLeaseKeepAlive (soloClient.keepAliveRequest 1)).command 0)]

/-- The node that applies the log answers OK in both cases. -/
theorem answered_keepAliveLog (revoked : Bool) (resp : Response)
    (hresp : .answered resp ∈ answeredOK (soloClient.keepAliveRequest 1)) :
    Answered .plain ((keepAliveLog revoked).map Prod.snd)
      (handleLeaseKeepAlive (soloClient.keepAliveRequest 1)) resp := by
  obtain rfl : resp = .ok (.kept 1) := by simpa [answeredOK, KVClient.keepAliveRequest] using hresp
  have hlen : 2 ≤ (keepAliveLog revoked).length := Nat.le_succ 2
  have hanswer : (handleLeaseKeepAlive (soloClient.keepAliveRequest 1)).respond 0
      (some ((stateAfter .plain ((keepAliveLog revoked).take 2)).handleCommand .plain (.at 2)
        ((handleLeaseKeepAlive (soloClient.keepAliveRequest 1)).command 0) 2).2.cmd) =
      some (.ok (.kept 1)) := by
    cases revoked <;> decide
  exact .applied (replicaAt_stateAfter .plain hlen) rfl (fun _ => rfl) hanswer

/-- A live lease is renewed. -/
theorem keepAlive_ok_renewed :
    soloClient.leaseKeepAlive 1 answeredOK = some ({ soloClient with requestID := 1 }, none) ∧
    LiveAt .plain ((keepAliveLog false).map Prod.snd) 2 1 ∧
    ∃ n i, ((keepAliveLog false).map Prod.snd)[i]? =
        some ((handleLeaseKeepAlive (soloClient.keepAliveRequest 1)).command n) ∧
      ∀ s env, (replicated .plain).ReplicaAt ((keepAliveLog false).map Prod.snd) i s →
        (Renews .plain env s ((handleLeaseKeepAlive (soloClient.keepAliveRequest 1)).command n) i 1
          ↔ LiveAt .plain ((keepAliveLog false).map Prod.snd) i 1) := by
  refine ⟨rfl, ?_, keepAlive_ok_iff .plain (answered_keepAliveLog false) rfl⟩
  exact (liveAt_iff (replicaAt_stateAfter .plain (n := 2) (by decide)) 1).mp (by decide)

/-- The lease has been revoked, and `LeaseKeepAlive` returns nil all the same. -/
theorem keepAlive_of_revoked :
    soloClient.leaseKeepAlive 1 answeredOK = some ({ soloClient with requestID := 1 }, none) ∧
    (∀ resp, .answered resp ∈ answeredOK (soloClient.keepAliveRequest 1) →
      Answered .plain ((keepAliveLog true).map Prod.snd)
        (handleLeaseKeepAlive (soloClient.keepAliveRequest 1)) resp) ∧
    ∀ s, (replicated .plain).ReplicaAt ((keepAliveLog true).map Prod.snd) 2 s →
      1 ∉ s.ds.leases := by
  refine ⟨rfl, answered_keepAliveLog true, fun s hs => ?_⟩
  rw [liveAt_iff hs, ← liveAt_iff (replicaAt_stateAfter .plain (n := 2) (by decide)) 1]
  decide

end Zodiac
