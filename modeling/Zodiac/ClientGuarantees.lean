import Zodiac.Linearizable
import Zodiac.Revision
import Zodiac.SpecRuns

/-!
# What clients can rely on

Consequences of linearizability that need only the history: the requests, the answers and
their order in real time, whichever nodes answered and however often the leader changed.

* `revisions_realTime`: versions in answers never go back in real time, and a mutation is
  above everything answered before it was sent.
* `get_after_put`: a `Get` after an acknowledged `Put` has its value, or a later entry has
  replaced it and the version shows it.
* `grants_distinct`: no two acknowledged grants have the same lease id.
* `exactly_once`: an acknowledged request of a client with an id was executed exactly once.
* `lock_exclusive`: between two successful acquisitions of a lock the key was removed.
-/

namespace Zodiac

open Linearizability LinearizableLemmas SpecRunLemmas

/-! ## Definitions -/

/-- The state in which committed command `i` is executed. -/
def Cluster.specAt (s : Cluster) (i : Nat) : KVSpec := .after (s.commands.take i)

/-- Committed command `i` is the call `id`, and `resp` is the answer to its result
there. -/
structure AnsweredAt (s : Cluster) (i : Nat) (id : CallID) (h : Handler) (resp : Response) : Prop where
  entry : s.order[i]? = some (some id, h.command id.1)
  reply : h.respond id.1 (some ((s.specAt i).apply (h.command id.1)).2) = some resp

/-- Committed command `i` has the request `r` of client `c` and is no repetition. -/
def Executed (s : Cluster) (c r : Int) (i : Nat) : Prop :=
  ∃ cmd, s.commands[i]? = some cmd ∧ cmd.clientID = c ∧ cmd.requestID = r ∧
    (s.specAt i).repeats cmd = false

/-- Position `k` of the committed commands is after the call `id` and before the call `id'`. -/
def Cluster.Between (s : Cluster) (id id' : CallID) (k : Nat) : Prop :=
  ∃ i j cmd cmd', s.order[i]? = some (some id, cmd) ∧ s.order[j]? = some (some id', cmd') ∧
    i < k ∧ k < j

/-- The answer tells that the request is done: OK, or done before. -/
def Response.concluded : Response → Bool
  | .ok _ | .duplicateRequest => true
  | .notLeader | .failedCommit => false

/-- Client `c` sends a request only after it was told that its earlier ones are done. -/
def OneAtATime (H : List ClientEvent) (c : Int) : Prop :=
  ∀ {j : Nat} {id id' : CallID} {h h' : Handler}, .invoke id h ∈ H →
    H[j]? = some (.invoke id' h') → (h.command id.1).clientID = c →
    (h'.command id'.1).clientID = c →
    (h.command id.1).requestID < (h'.command id'.1).requestID →
    ∃ i < j, ∃ id₀ resp, .invoke id₀ h ∈ H ∧ H[i]? = some (.respond id₀ resp) ∧
      resp.concluded = true

/-- The request does not only read. -/
def KVRequest.writes : KVRequest → Bool
  | get _ | list _ => false
  | _ => true

/-- Take a lock: the key, if nobody has it. -/
def acquireLock (key owner : String) (leaseID clientID requestID : Int) : TxnRequest where
  conditions := [{ key := key, compare := .notExists }]
  success := [{ op := .put, key := key, value := owner, leaseID := leaseID }]
  failure := []
  clientID := clientID
  requestID := requestID

namespace ClientGuaranteeLemmas

variable {β : Type} {codec : SnapshotCodec β} {s : Cluster} {H : List ClientEvent} {id id' : CallID}
  {i j : Nat} {h : Handler} {resp : Response}

/-! ## Positions -/

theorem getElem?_commands {origin : Option CallID} {cmd : Command}
    (hi : s.order[i]? = some (origin, cmd)) : s.commands[i]? = some cmd := by
  rw [← order_commands, List.getElem?_map, hi, Option.map_some]

theorem specAt_succ {cmd : Command} (hi : s.commands[i]? = some cmd) :
    s.specAt (i + 1) = ((s.specAt i).apply cmd).1 := after_take_succ hi

theorem committed_mono {s' : Cluster} {b : ClusterStep}
    (h : (cluster codec).step s b = some s') : s.committed <+: s'.committed := by
  rcases cluster_step_cases h with ⟨n, e, rfl, he, rfl⟩ | ⟨n, node', hnode, rfl⟩
  · exact List.prefix_append _ _
  · exact List.prefix_rfl

theorem commands_mono {s' : Cluster} (h : s.committed <+: s'.committed) :
    s.commands <+: s'.commands := (h.filterMap LogItem.entry).map Entry.cmd

theorem specAt_mono {s' : Cluster} (h : s.committed <+: s'.committed)
    (hi : i ≤ s.commands.length) :
    s'.specAt i = s.specAt i := by
  obtain ⟨rest, hrest⟩ := commands_mono h
  rw [Cluster.specAt, Cluster.specAt, ← hrest, List.take_append_of_le_length hi]

/-- Every answer but `StatusNotLeader` and `StatusFailedCommit` comes from the entry of the
call. -/
theorem answeredAt (hlin : Linearized s H) (hreq : .invoke id h ∈ H) (hresp : .respond id resp ∈ H)
    (hdone : resp.concluded = true) : ∃ i, AnsweredAt s i id h resp := by
  obtain ⟨h', hreq', hexplained⟩ := hlin.order.explained hresp
  obtain rfl := hlin.wellFormed.invoke_unique hreq hreq'
  rcases hexplained with ⟨i, c, ⟨cmd, hi, rfl⟩, hreply | rfl⟩ | ⟨-, rfl | rfl⟩
  · obtain ⟨h', hreq', hcmd⟩ := hlin.order.asked hi
    obtain rfl := hlin.wellFormed.invoke_unique hreq hreq'
    subst hcmd
    rw [List.map_take, order_commands] at hreply
    exact ⟨i, hi, hreply⟩
  · cases hdone
  · cases hdone
  · cases hdone

/-- Calls one after the other in real time are in this order in the log. -/
theorem lt_of_precedes (hlin : Linearized s H) {h' : Handler} {resp' : Response}
    (hbefore : Precedes H id id') (hi : AnsweredAt s i id h resp)
    (hj : AnsweredAt s j id' h' resp') : i < j :=
  hlin.order.realTime hbefore hi.entry hj.entry

theorem call_unique {h' : Handler} {resp' : Response} (hi : AnsweredAt s i id h resp)
    (hj : AnsweredAt s i id' h' resp') : id = id' :=
  Option.some.inj (congrArg Prod.fst (Option.some.inj (hi.entry.symm.trans hj.entry)))

/-- A write that is answered OK is no repetition. -/
theorem fresh_of_ok (req : KVRequest) {body : Body} (hwrites : req.writes = true)
    (hi : AnsweredAt s i id req.handler (.ok body)) :
    (s.specAt i).repeats (req.handler.command id.1) = false := by
  rw [← apply_isDuplicate]
  have hkept := KeepAliveLemmas.rejects_of_ok hi.reply
  cases req with
  | get gr | list lr => cases hwrites
  | put pr | append ar | cas cr | txn tr | leaseGrant lr | leaseKeepAlive lkr
  | leaseRevoke lrr => exact hkept

theorem writes_of_mutates {req : KVRequest} {n : Nat} (h : (req.handler.command n).Mutates) :
    req.writes = true := by
  cases req with
  | get gr | list lr => revert h; simp [Command.Mutates, KVRequest.handler, handleGet, handleList]
  | _ => rfl

/-! ## Versions -/

/-- The version in an OK answer is the one after the entry. -/
theorem revision_answeredAt (req : KVRequest) {body : Body} {rev : Int}
    (hi : AnsweredAt s i id req.handler (.ok body)) (hrev : body.revision = some rev) :
    rev = (s.specAt (i + 1)).revision := by
  rw [specAt_succ (getElem?_commands hi.entry), ← apply_revision]
  exact RevisionLemmas.revision_reply hi.reply hrev

theorem since_specAt (hij : i ≤ j) : (s.specAt i).Since (s.specAt j) := since_after hij

/-- The versions in answers grow with the log. -/
theorem revisions_of_lt (hij : i < j) (req req' : KVRequest) {body body' : Body} {rev rev' : Int}
    (hi : AnsweredAt s i id req.handler (.ok body))
    (hj : AnsweredAt s j id' req'.handler (.ok body')) (hrev : body.revision = some rev)
    (hrev' : body'.revision = some rev') :
    rev ≤ rev' ∧ ((req'.handler.command id'.1).Mutates → rev < rev') := by
  rw [revision_answeredAt req hi hrev, revision_answeredAt req' hj hrev']
  refine ⟨(since_specAt (Nat.succ_le_succ (Nat.le_of_lt hij))).revision, fun hmut => ?_⟩
  have hle := (since_specAt (s := s) (i := i + 1) hij).revision
  have hfresh := fresh_of_ok req' (writes_of_mutates hmut) hj
  have hnext : (s.specAt (j + 1)).revision = (s.specAt j).revision + 1 := by
    rw [specAt_succ (getElem?_commands hj.entry), apply_fresh hfresh, revision_next,
      if_pos ((RevisionLemmas.isMutation_iff _).mpr hmut)]
  omega

/-! ## Puts and gets -/

/-- A read shows nothing but the values. -/
theorem get_of_values {st st' : ItemStore} (h : st.values = st'.values) (key : String) :
    st.get key = st'.get key := by
  have hlookup := congrArg (Finmap.lookup key) h
  rw [ItemStore.values, ItemStore.values, Finmap.lookup_mapVal, Finmap.lookup_mapVal] at hlookup
  unfold ItemStore.get
  cases hitem : st.items.lookup key <;> cases hitem' : st'.items.lookup key <;>
    simp_all

theorem get_specAt_put {pr : PutRequest} {body : Body}
    (hi : AnsweredAt s i id (handlePut pr) (.ok body)) :
    (s.specAt (i + 1)).store.get pr.key = (pr.value, true) := by
  have hfresh : (s.specAt i).repeats ((handlePut pr).command id.1) = false :=
    fresh_of_ok (.put pr) rfl hi
  rw [specAt_succ (getElem?_commands hi.entry), apply_fresh hfresh]
  simp [ItemStore.execute, handlePut, ItemStore.put, ItemStore.set, ItemStore.get]

/-- A get reads the state before it, repeated or not. -/
theorem get_reply {gr : GetRequest} {found : Bool} {value : String} {rev : Int}
    (hj : AnsweredAt s j id (handleGet gr) (.ok (.value found value rev))) :
    (s.specAt j).store.get gr.key = (value, found) ∧ rev = (s.specAt j).revision := by
  obtain ⟨c, heq, -, hbody⟩ := Handler.respond_eq_ok hj.reply
  cases heq
  simp only [handleGet, Option.some.injEq, Body.value.injEq] at hbody
  obtain ⟨hfound, hvalue, hrev⟩ := hbody
  cases hrep : (s.specAt j).repeats ((handleGet gr).command id.1) with
  | true =>
    rw [handleGet] at hrep
    rw [apply_repeats hrep] at hfound hvalue hrev
    exact ⟨Prod.ext hvalue hfound, hrev.symm⟩
  | false =>
    rw [handleGet] at hrep
    rw [apply_fresh hrep] at hfound hvalue hrev
    exact ⟨Prod.ext hvalue hfound, hrev.symm⟩

/-! ## Grants -/

theorem granted_reply {lr : LeaseGrantRequest} {g ttl : Int}
    (hlen : s.commands.length < 2 ^ 63)
    (hi : AnsweredAt s i id (handleLeaseGrant lr) (.ok (.granted g ttl))) :
    g = (s.specAt i).store.issued + 1 ∧ (s.specAt (i + 1)).store.issued = g ∧ 0 < g := by
  have hfresh : (s.specAt i).repeats ((handleLeaseGrant lr).command id.1) = false :=
    fresh_of_ok (.leaseGrant lr) rfl hi
  have hcmd := getElem?_commands hi.entry
  obtain ⟨c, heq, -, hbody⟩ := Handler.respond_eq_ok hi.reply
  cases heq
  obtain ⟨hlo, hhi⟩ := issued_le (s.commands.take i)
  have hlt : i < s.commands.length := (List.getElem?_eq_some_iff.mp hcmd).1
  rw [List.length_take] at hhi
  have hnext : (s.specAt (i + 1)).store.issued = (s.specAt i).store.issued + 1 := by
    have hkind : ((handleLeaseGrant lr).command id.1).kind = .leaseGrant := rfl
    rw [specAt_succ hcmd, apply_fresh hfresh, issued_execute, if_pos hkind]
  have hvalue : ((s.specAt i).apply ((handleLeaseGrant lr).command id.1)).2.resultValue =
      formatInt ((s.specAt i).store.issued + 1) := by
    rw [apply_fresh hfresh]
    rfl
  have hg : g = (s.specAt i).store.issued + 1 := by
    rw [← (Body.granted.inj (Option.some.inj hbody)).1, hvalue, parseInt_formatInt_int64]
    · exact le_trans (by decide) (Int.add_nonneg hlo Int.one_nonneg)
    · rw [Cluster.specAt]
      omega
  exact ⟨hg, hnext.trans hg.symm, by rw [hg]; exact Int.lt_add_one_of_le hlo⟩

/-! ## Requests with an identity -/

/-- The client and the number of a request do not depend on the node. -/
theorem identity_handler (req : KVRequest) (n m : Nat) :
    (req.handler.command n).clientID = (req.handler.command m).clientID ∧
      (req.handler.command n).requestID = (req.handler.command m).requestID := by
  cases req <;> exact ⟨rfl, rfl⟩

/-- A later execution is that of a later request: the earlier one has settled all requests
up to its own. -/
theorem requestID_lt {c r r' : Int} (hc : c ≠ 0) (hi : Executed s c r i) (hj : Executed s c r' j)
    (hij : i < j) : r < r' := by
  obtain ⟨cmd, hcmd, rfl, rfl, -⟩ := hi
  obtain ⟨cmd', -, hc', rfl, hfresh⟩ := hj
  by_contra hle
  have hsettled : (s.specAt j).Settled cmd.clientID cmd.requestID := by
    refine settled_mono hij ?_
    rw [after_take_succ hcmd]
    exact settled_apply _ hc
  obtain ⟨r, hr, hge⟩ := hsettled
  have hrep := (repeats_iff (s.specAt j) cmd').mpr
    ⟨hc'.symm ▸ hc, r, hc'.symm ▸ hr, le_trans (Int.not_lt.mp hle) hge⟩
  rw [hfresh] at hrep
  cases hrep

/-- Requests are executed at most once, and in their order. -/
theorem executed_order {c r r' : Int} (hc : c ≠ 0) (hi : Executed s c r i)
    (hj : Executed s c r' j) : (r = r' → i = j) ∧ (r < r' → i < j) := by
  have hlt := requestID_lt hc hi hj
  have hgt := requestID_lt hc hj hi
  rcases Nat.lt_trichotomy i j with hij | rfl | hji
  · have := hlt hij
    exact ⟨fun heq => by omega, fun _ => hij⟩
  · obtain ⟨cmd, hcmd, -, rfl, -⟩ := hi
    obtain ⟨cmd', hcmd', -, rfl, -⟩ := hj
    obtain rfl := Option.some.inj (hcmd.symm.trans hcmd')
    exact ⟨fun _ => rfl, fun hself => absurd hself (lt_irrefl _)⟩
  · have := hgt hji
    exact ⟨fun heq => by omega, fun hr => by omega⟩

theorem executed_of_ok {req : KVRequest} {body : Body} (hwrites : req.writes = true)
    (hi : AnsweredAt s i id req.handler (.ok body)) :
    Executed s (req.handler.command id.1).clientID (req.handler.command id.1).requestID i :=
  ⟨_, getElem?_commands hi.entry, rfl, rfl, fresh_of_ok req hwrites hi⟩

/-- A repetition comes after the execution of this request or a later one of its client. -/
theorem exists_executed {cmd : Command} (hi : i ≤ s.commands.length)
    (hrep : (s.specAt i).repeats cmd = true) :
    ∃ k < i, ∃ cmd', s.commands[k]? = some cmd' ∧ cmd'.clientID = cmd.clientID ∧
      cmd.requestID ≤ cmd'.requestID ∧ (s.specAt k).repeats cmd' = false := by
  obtain ⟨-, hsettled⟩ := (repeats_iff _ _).mp hrep
  have hnew : ¬ (KVSpec.after (s.commands.take 0)).Settled cmd.clientID cmd.requestID := by
    rintro ⟨r, hr, -⟩
    cases hr
  obtain ⟨k, cmd', -, hk, hcmd', hopen, hclosed⟩ := exists_step s.commands
    (P := fun sp => ¬ sp.Settled cmd.clientID cmd.requestID) (Nat.zero_le i) hi hnew
    (not_not_intro hsettled)
  obtain ⟨hclient, -, hle, hfresh⟩ := settled_by hopen (not_not.mp hclosed)
  exact ⟨k, hk, cmd', hcmd', hclient, hle, hfresh⟩

/-- A committed request was executed, or before it this request or a later one of its client. -/
theorem executed_or_before {cmd : Command} (hi : s.commands[i]? = some cmd) :
    Executed s cmd.clientID cmd.requestID i ∨
      ∃ k < i, ∃ r, cmd.requestID ≤ r ∧ Executed s cmd.clientID r k := by
  cases hrep : (s.specAt i).repeats cmd with
  | false => exact .inl ⟨cmd, hi, rfl, rfl, hrep⟩
  | true =>
    have hle : i ≤ s.commands.length := Nat.le_of_lt (List.getElem?_eq_some_iff.mp hi).1
    obtain ⟨k, hk, cmd', hcmd', hclient, hle', hfresh⟩ := exists_executed hle hrep
    exact .inr ⟨k, hk, cmd'.requestID, hle', cmd', hcmd', hclient, rfl, hfresh⟩

/-- An entry of a client with an id is one of its calls. -/
theorem call_of_entry (hlin : Linearized s H) {cmd : Command} (hi : s.commands[i]? = some cmd)
    (hclient : cmd.clientID ≠ 0) :
    ∃ id h, s.order[i]? = some (some id, cmd) ∧ .invoke id h ∈ H ∧ cmd = h.command id.1 := by
  rw [← order_commands, List.getElem?_map, Option.map_eq_some_iff] at hi
  obtain ⟨⟨origin, cmd'⟩, horder, rfl⟩ := hi
  cases origin with
  | none =>
    obtain ⟨ids, rfl⟩ := hlin.order.own horder
    exact absurd rfl hclient
  | some id =>
    obtain ⟨h, hreq, hcmd⟩ := hlin.order.asked horder
    exact ⟨id, h, horder, hreq, hcmd⟩

/-- If its client works in order, a request that is done was executed, also if the answer
was that it had been done before. By induction on the time of the answer. -/
theorem executed_of_concluded (hlin : Linearized s H) {req : KVRequest} {c r : Int} (hc : c ≠ 0)
    (hwaits : OneAtATime H c) (τ : Nat) :
    ∀ {id : CallID} {resp : Response}, .invoke id req.handler ∈ H →
      (req.handler.command id.1).clientID = c → (req.handler.command id.1).requestID = r →
      H[τ]? = some (.respond id resp) → resp.concluded = true → ∃ i, Executed s c r i := by
  induction τ using Nat.strong_induction_on with
  | h τ ih =>
    intro id resp hreq hclient hrequest hτ hdone
    obtain ⟨i, hi⟩ := answeredAt hlin hreq (List.mem_of_getElem? hτ) hdone
    have hexecuted := executed_or_before (getElem?_commands hi.entry)
    rw [hclient, hrequest] at hexecuted
    rcases hexecuted with hexecuted | ⟨k, hki, r', hle, hexecuted⟩
    · exact ⟨i, hexecuted⟩
    · rcases Int.lt_or_eq_of_le hle with hlt | rfl
      · -- a later request: it was sent after this one was done, at an earlier time
        obtain ⟨cmd', hcmd', hclient', rfl, -⟩ := hexecuted
        obtain ⟨id', h', horder', hreq', rfl⟩ := call_of_entry hlin hcmd' (hclient'.symm ▸ hc)
        obtain ⟨τ', hτ'⟩ := List.getElem?_of_mem hreq'
        obtain ⟨τ₀, hτ₀, id₀, resp₀, hreq₀, hat₀, hdone₀⟩ :=
          hwaits hreq hτ' hclient hclient' (hrequest.symm ▸ hlt)
        obtain ⟨hsame, hsame'⟩ := identity_handler req id₀.1 id.1
        refine ih τ₀ ?_ hreq₀ (hsame.trans hclient) (hsame'.trans hrequest) hat₀ hdone₀
        by_contra hge
        have hbefore : Precedes H id id' :=
          ⟨τ, τ', resp, h', lt_of_le_of_lt (Nat.not_lt.mp hge) hτ₀, hτ, hτ'⟩
        exact absurd (hlin.order.realTime hbefore hi.entry horder') (Nat.lt_asymm hki)
      · exact ⟨k, hexecuted⟩

/-! ## Locks -/

theorem holds_notExists {st : ItemStore} {key : String}
    (h : st.holds { key := key, compare := .notExists } = true) : key ∉ st.items := by
  intro hmem
  obtain ⟨item, hitem⟩ := Finmap.mem_iff.mp hmem
  rw [ItemStore.holds, ItemStore.values, Finmap.lookup_mapVal, hitem] at h
  cases h

/-- A successful acquisition finds the key absent and leaves it present. -/
theorem acquired {key owner : String} {leaseID c r rev : Int} {results : List TxnOpResult}
    (hi : AnsweredAt s i id (handleTxn (acquireLock key owner leaseID c r))
      (.ok (.txn true results rev))) :
    key ∉ (s.specAt i).store.items ∧ key ∈ (s.specAt (i + 1)).store.items := by
  have hfresh : (s.specAt i).repeats
      ((handleTxn (acquireLock key owner leaseID c r)).command id.1) = false :=
    fresh_of_ok (.txn (acquireLock key owner leaseID c r)) rfl hi
  obtain ⟨_, heq, -, hbody⟩ := Handler.respond_eq_ok hi.reply
  cases heq
  obtain ⟨result, hresult, hshown⟩ := Option.map_eq_some_iff.mp hbody
  rw [apply_fresh hfresh] at hresult
  cases hresult
  have hholds := (Body.txn.inj hshown).1
  have habsent : (s.specAt i).store.holds { key := key, compare := .notExists } = true := by
    simpa [handleTxn, acquireLock] using hholds
  refine ⟨holds_notExists habsent, ?_⟩
  rw [specAt_succ (getElem?_commands hi.entry), apply_fresh hfresh]
  simp [ItemStore.execute, handleTxn, acquireLock, habsent, ItemStore.txnOps, ItemStore.txnOp,
    ItemStore.put, ItemStore.set]

/-- Between two acquisitions an entry removes the key. -/
theorem removed_between {key owner owner' : String} {l l' c c' r r' rev rev' : Int}
    {results results' : List TxnOpResult}
    (hi : AnsweredAt s i id (handleTxn (acquireLock key owner l c r)) (.ok (.txn true results rev)))
    (hj : AnsweredAt s j id' (handleTxn (acquireLock key owner' l' c' r'))
      (.ok (.txn true results' rev'))) (hij : i < j) :
    ∃ k cmd, i < k ∧ k < j ∧ s.commands[k]? = some cmd ∧ (s.specAt k).repeats cmd = false ∧
      (s.specAt k).store.Removes cmd key := by
  obtain ⟨k, cmd, hik, hkj, hcmd, hheld, hgone⟩ := exists_step s.commands
    (P := fun sp => key ∈ sp.store.items) (Nat.succ_le_of_lt hij)
    (Nat.le_of_lt (List.getElem?_eq_some_iff.mp (getElem?_commands hj.entry)).1)
    (acquired hi).2 (acquired hj).1
  cases hrep : (s.specAt k).repeats cmd with
  | true =>
    rw [Cluster.specAt] at hrep
    rw [apply_repeats hrep] at hgone
    exact absurd hheld hgone
  | false =>
    refine ⟨k, cmd, hik, hkj, hcmd, hrep, removes_of_gone hheld ?_⟩
    rw [Cluster.specAt] at hrep
    rw [apply_fresh hrep] at hgone
    exact hgone

end ClientGuaranteeLemmas

open ClientGuaranteeLemmas

/-! ## Runs -/

def aGet : Handler := handleGet { key := "a", clientID := 3, requestID := 1 }

/-- Node 1 answers a put and hands over to node 2. There the key is put again and read, and
the first put is repeated. -/
def handover : List ClusterStep :=
  [.lead 1 true, .submit 1 aPut, .subscribe 1 0, .commit 1, .apply 1 (Env.at 0), .send 1,
    .receive 1 0, .replace 2 1 0 1, .apply 2 (Env.at 3), .lead 1 false, .lead 2 true,
    .submit 2 lostPut, .subscribe 2 0, .commit 2, .apply 2 (Env.at 3), .send 2, .receive 2 0,
    .submit 2 aGet, .subscribe 2 1, .commit 2, .apply 2 (Env.at 3), .send 2, .receive 2 1,
    .submit 2 aPut, .subscribe 2 2, .commit 2, .apply 2 (Env.at 3), .send 2, .receive 2 2]

def handoverHistory : List ClientEvent :=
  [.invoke (1, 0) aPut, .respond (1, 0) (.ok (.prev false "" 1)),
    .invoke (2, 0) lostPut, .respond (2, 0) (.ok (.prev true "x" 2)),
    .invoke (2, 1) aGet, .respond (2, 1) (.ok (.value true "y" 2)),
    .invoke (2, 2) aPut, .respond (2, 2) .duplicateRequest]

def aGrant : Handler := handleLeaseGrant { ttl := 5, clientID := 1, requestID := 1 }

def otherGrant : Handler := handleLeaseGrant { ttl := 5, clientID := 2, requestID := 1 }

/-- A grant at node 1 and one at node 2, which has caught up. -/
def twoGrants : List ClusterStep :=
  [.lead 1 true, .submit 1 aGrant, .subscribe 1 0, .commit 1, .apply 1 (Env.at 0), .send 1,
    .receive 1 0, .replace 2 1 0 1, .apply 2 (Env.at 3), .lead 1 false, .lead 2 true,
    .submit 2 otherGrant, .subscribe 2 0, .commit 2, .apply 2 (Env.at 3), .send 2, .receive 2 0]

def twoGrantsHistory : List ClientEvent :=
  [.invoke (1, 0) aGrant, .respond (1, 0) (.ok (.granted 1 5)),
    .invoke (2, 0) otherGrant, .respond (2, 0) (.ok (.granted 2 5))]

def firstLock : Handler := handleTxn (acquireLock "lock" "first" 1 2 1)

def secondLock : Handler := handleTxn (acquireLock "lock" "second" 0 3 1)

def endLease : Handler := handleLeaseRevoke { id := 1, clientID := 4, requestID := 1 }

/-- A lock is taken under a lease, the lease is revoked, and the lock is taken again. -/
def lockTwice : List ClusterStep :=
  [.lead 1 true, .submit 1 aGrant, .subscribe 1 0, .commit 1, .apply 1 (Env.at 0), .send 1,
    .receive 1 0, .submit 1 firstLock, .subscribe 1 1, .commit 1, .apply 1 (Env.at 0), .send 1,
    .receive 1 1, .submit 1 endLease, .subscribe 1 2, .commit 1, .apply 1 (Env.at 0), .send 1,
    .receive 1 2, .submit 1 secondLock, .subscribe 1 3, .commit 1, .apply 1 (Env.at 0), .send 1,
    .receive 1 3]

def lockTwiceHistory : List ClientEvent :=
  [.invoke (1, 0) aGrant, .respond (1, 0) (.ok (.granted 1 5)), .invoke (1, 1) firstLock,
    .respond (1, 1) (.ok (.txn true [{ key := "lock" }] 1)), .invoke (1, 2) endLease,
    .respond (1, 2) (.ok .revoked), .invoke (1, 3) secondLock,
    .respond (1, 3) (.ok (.txn true [{ key := "lock" }] 3))]

namespace ClientGuaranteeLemmas

/-- A run that is executed, with its history and the number of its committed commands. -/
theorem exists_history (as : List ClusterStep) {H : List ClientEvent} {n : Nat}
    (hrun : ((recorded .plain).execWhen (fun s a => IndexUnshared s.1 a) (recorded .plain).init
      as).map (fun s => (s.2, s.1.commands.length)) = some (H, n)) :
    ∃ s, (recorded .plain).ReachableBy (fun s => IndexUnshared s.1) (s, H) ∧
      s.commands.length = n := by
  obtain ⟨⟨s, H'⟩, hreach, hshown⟩ := Machine.exists_reachableBy as _ hrun
  obtain ⟨rfl, hlen⟩ := Prod.mk.inj hshown
  exact ⟨s, hreach, hlen⟩

end ClientGuaranteeLemmas

/-! ## Main results -/

variable {β : Type} (codec : SnapshotCodec β) {s : Cluster} {H : List ClientEvent} {id id' : CallID}

/-- Across nodes and leaders, the versions in OK answers never go back in real time: if a
request was sent after another one was answered, its version is not smaller, and larger if
it is a mutation. -/
theorem revisions_realTime (h : (recorded codec).ReachableBy (fun s => IndexUnshared s.1) (s, H))
    {req req' : KVRequest} {body body' : Body} {rev rev' : Int}
    (hreq : .invoke id req.handler ∈ H) (hok : .respond id (.ok body) ∈ H)
    (hreq' : .invoke id' req'.handler ∈ H) (hok' : .respond id' (.ok body') ∈ H)
    (hrev : body.revision = some rev) (hrev' : body'.revision = some rev')
    (hbefore : Precedes H id id') :
    rev ≤ rev' ∧ ((req'.handler.command id'.1).Mutates → rev < rev') := by
  have hlin : Linearized s H := linearized_of_reachable h
  obtain ⟨i, hi⟩ := answeredAt hlin hreq hok rfl
  obtain ⟨j, hj⟩ := answeredAt hlin hreq' hok' rfl
  exact revisions_of_lt (lt_of_precedes hlin hbefore hi hj) req req' hi hj hrev hrev'

/-- The second put of `handover`. -/
theorem revisions_realTime_handover :
    ∃ s, (recorded .plain).ReachableBy (fun s => IndexUnshared s.1) (s, handoverHistory) ∧
      (1 : Int) ≤ 2 ∧ ((lostPut.command 2).Mutates → (1 : Int) < 2) := by
  obtain ⟨s, hreach, -⟩ := exists_history handover (H := handoverHistory) (n := 4) rfl
  have hreq : .invoke (1, 0) (KVRequest.put
      { key := "a", value := "x", clientID := 1, requestID := 1 }).handler ∈ handoverHistory :=
    List.mem_of_getElem? (i := 0) rfl
  have hreq' : .invoke (2, 0) (KVRequest.put
      { key := "a", value := "y", clientID := 2, requestID := 1 }).handler ∈ handoverHistory :=
    List.mem_of_getElem? (i := 2) rfl
  have hok : .respond (1, 0) (.ok (.prev false "" 1)) ∈ handoverHistory :=
    List.mem_of_getElem? (i := 1) rfl
  have hok' : .respond (2, 0) (.ok (.prev true "x" 2)) ∈ handoverHistory :=
    List.mem_of_getElem? (i := 3) rfl
  exact ⟨s, hreach, revisions_realTime .plain hreach hreq hok hreq' hok' rfl rfl
    ⟨1, 2, _, _, by decide, rfl, rfl⟩⟩

/-- A `Get` that was sent after a `Put` of the key was acknowledged, to any node, returns
the value that was put, or an entry between the two has replaced it, and then the version
is larger. -/
theorem get_after_put (h : (recorded codec).ReachableBy (fun s => IndexUnshared s.1) (s, H))
    {pr : PutRequest} {gr : GetRequest} {prevFound found : Bool} {prev value : String}
    {rev rev' : Int} (hkey : gr.key = pr.key)
    (hput : .invoke id (handlePut pr) ∈ H) (hputOk : .respond id (.ok (.prev prevFound prev rev)) ∈ H)
    (hget : .invoke id' (handleGet gr) ∈ H)
    (hgetOk : .respond id' (.ok (.value found value rev')) ∈ H) (hbefore : Precedes H id id') :
    found = true ∧ value = pr.value ∧ rev ≤ rev' ∨
    rev < rev' ∧ ∃ k, s.Between id id' k ∧ (s.specAt k).store.get pr.key = (pr.value, true) ∧
      (s.specAt (k + 1)).store.get pr.key ≠ (pr.value, true) := by
  have hlin : Linearized s H := linearized_of_reachable h
  obtain ⟨i, hi⟩ := answeredAt hlin hput hputOk rfl
  obtain ⟨j, hj⟩ := answeredAt hlin hget hgetOk rfl
  have hij := lt_of_precedes hlin hbefore hi hj
  have hwritten := get_specAt_put hi
  obtain ⟨hread, hrev'⟩ := get_reply hj
  have hrev : rev = (s.specAt (i + 1)).revision := revision_answeredAt (.put pr) hi rfl
  have hsince := since_specAt (s := s) (i := i + 1) hij
  have hle : rev ≤ rev' := by
    rw [hrev, hrev']
    exact hsince.revision
  rw [hkey] at hread
  by_cases hsame : (s.specAt j).store.get pr.key = (pr.value, true)
  · rw [hread] at hsame
    exact .inl ⟨(Prod.mk.inj hsame).2, (Prod.mk.inj hsame).1, hle⟩
  · refine .inr ⟨lt_of_le_of_ne hle fun heq => hsame ?_, ?_⟩
    · rw [hrev, hrev'] at heq
      rw [get_of_values (hsince.values heq.symm), hwritten]
    · obtain ⟨k, cmd, hik, hkj, hcmd, hold, hlost⟩ := exists_step s.commands
        (P := fun sp => sp.store.get pr.key = (pr.value, true)) (Nat.succ_le_of_lt hij)
        (Nat.le_of_lt (List.getElem?_eq_some_iff.mp (getElem?_commands hj.entry)).1) hwritten hsame
      refine ⟨k, ⟨i, j, _, _, hi.entry, hj.entry, hik, hkj⟩, hold, ?_⟩
      rw [specAt_succ hcmd]
      exact hlost

/-- The read of `handover` finds the second put, which is between. -/
theorem get_after_put_handover :
    ∃ s, (recorded .plain).ReachableBy (fun s => IndexUnshared s.1) (s, handoverHistory) ∧
      ∃ k, s.Between (1, 0) (2, 1) k := by
  obtain ⟨s, hreach, -⟩ := exists_history handover (H := handoverHistory) (n := 4) rfl
  have hput : .invoke (1, 0) (handlePut { key := "a", value := "x", clientID := 1, requestID := 1 }) ∈
      handoverHistory := List.mem_of_getElem? (i := 0) rfl
  have hputOk : .respond (1, 0) (.ok (.prev false "" 1)) ∈ handoverHistory :=
    List.mem_of_getElem? (i := 1) rfl
  have hget : .invoke (2, 1) (handleGet { key := "a", clientID := 3, requestID := 1 }) ∈
      handoverHistory := List.mem_of_getElem? (i := 4) rfl
  have hgetOk : .respond (2, 1) (.ok (.value true "y" 2)) ∈ handoverHistory :=
    List.mem_of_getElem? (i := 5) rfl
  rcases get_after_put .plain hreach rfl hput hputOk hget hgetOk
    ⟨1, 4, _, _, by decide, rfl, rfl⟩ with ⟨-, hvalue, -⟩ | ⟨-, k, hk, -⟩
  · exact absurd hvalue (by decide)
  · exact ⟨s, hreach, k, hk⟩

/-- No two acknowledged grants give out the same lease, and later grants give out larger
ids. -/
theorem grants_distinct (h : (recorded codec).ReachableBy (fun s => IndexUnshared s.1) (s, H))
    {lr lr' : LeaseGrantRequest} {g g' ttl ttl' : Int} (hlen : s.commands.length < 2 ^ 63)
    (hreq : .invoke id (handleLeaseGrant lr) ∈ H)
    (hok : .respond id (.ok (.granted g ttl)) ∈ H)
    (hreq' : .invoke id' (handleLeaseGrant lr') ∈ H)
    (hok' : .respond id' (.ok (.granted g' ttl')) ∈ H) (hne : id ≠ id') :
    0 < g ∧ g ≠ g' ∧ (Precedes H id id' → g < g') := by
  have hlin : Linearized s H := linearized_of_reachable h
  obtain ⟨i, hi⟩ := answeredAt hlin hreq hok rfl
  obtain ⟨j, hj⟩ := answeredAt hlin hreq' hok' rfl
  obtain ⟨hg, hgi, hpos⟩ := granted_reply hlen hi
  obtain ⟨hg', hgj, -⟩ := granted_reply hlen hj
  have hlt : i < j → g < g' := fun hij => by
    have := issued_mono s.commands (i := i + 1) hij
    unfold Cluster.specAt at hgi hg'
    omega
  have hgt : j < i → g' < g := fun hji => by
    have := issued_mono s.commands (i := j + 1) hji
    unfold Cluster.specAt at hgj hg
    omega
  refine ⟨hpos, ?_, fun hbefore => hlt (lt_of_precedes hlin hbefore hi hj)⟩
  rcases Nat.lt_trichotomy i j with hij | rfl | hji
  · exact ne_of_lt (hlt hij)
  · exact absurd (call_unique hi hj) hne
  · exact ne_of_gt (hgt hji)

/-- The two grants of `twoGrants`. -/
theorem grants_distinct_two :
    ∃ s, (recorded .plain).ReachableBy (fun s => IndexUnshared s.1) (s, twoGrantsHistory) ∧
      (0 : Int) < 1 ∧ (1 : Int) ≠ 2 ∧ (Precedes twoGrantsHistory (1, 0) (2, 0) → (1 : Int) < 2) := by
  obtain ⟨s, hreach, hlen⟩ := exists_history twoGrants (H := twoGrantsHistory) (n := 2) rfl
  have hreq : .invoke (1, 0) (handleLeaseGrant { ttl := 5, clientID := 1, requestID := 1 }) ∈
      twoGrantsHistory := List.mem_of_getElem? (i := 0) rfl
  have hok : .respond (1, 0) (.ok (.granted 1 5)) ∈ twoGrantsHistory :=
    List.mem_of_getElem? (i := 1) rfl
  have hreq' : .invoke (2, 0) (handleLeaseGrant { ttl := 5, clientID := 2, requestID := 1 }) ∈
      twoGrantsHistory := List.mem_of_getElem? (i := 2) rfl
  have hok' : .respond (2, 0) (.ok (.granted 2 5)) ∈ twoGrantsHistory :=
    List.mem_of_getElem? (i := 3) rfl
  exact ⟨s, hreach, grants_distinct .plain hreach (by rw [hlen]; decide) hreq hok hreq' hok'
    (by decide)⟩

/-- The requests of a client with an id are executed at most once and in their order,
whichever nodes they were sent to. If one does not only read and is answered OK, it was
executed, by the call that was answered. If its client waits for each request to be done
before it sends the next one, it was also executed if the answer is that it had been done
before. -/
theorem exactly_once (h : (recorded codec).ReachableBy (fun s => IndexUnshared s.1) (s, H))
    {req : KVRequest} {c r : Int} (hc : c ≠ 0) (hreq : .invoke id req.handler ∈ H)
    (hclient : (req.handler.command id.1).clientID = c)
    (hrequest : (req.handler.command id.1).requestID = r) :
    (∀ r' i j, Executed s c r i → Executed s c r' j → (r = r' → i = j) ∧ (r < r' → i < j)) ∧
    (req.writes = true → ∀ body, .respond id (.ok body) ∈ H → ∃ i, Executed s c r i ∧
      s.order[i]? = some (some id, req.handler.command id.1)) ∧
    (OneAtATime H c → ∀ resp, .respond id resp ∈ H → resp.concluded = true →
      ∃ i, Executed s c r i) := by
  have hlin : Linearized s H := linearized_of_reachable h
  refine ⟨fun r' i j => executed_order hc, fun hwrites body hok => ?_,
    fun hwaits resp hresp hdone => ?_⟩
  · obtain ⟨i, hi⟩ := answeredAt hlin hreq hok rfl
    exact ⟨i, hclient ▸ hrequest ▸ executed_of_ok hwrites hi, hi.entry⟩
  · obtain ⟨τ, hτ⟩ := List.getElem?_of_mem hresp
    exact executed_of_concluded hlin hc hwaits τ hreq hclient hrequest hτ hdone

/-- The put that `handover` repeats. -/
theorem exactly_once_handover :
    ∃ s, (recorded .plain).ReachableBy (fun s => IndexUnshared s.1) (s, handoverHistory) ∧
      ∃ i, Executed s 1 1 i ∧ s.order[i]? = some (some (1, 0), aPut.command 1) := by
  obtain ⟨s, hreach, -⟩ := exists_history handover (H := handoverHistory) (n := 4) rfl
  have hreq : .invoke (1, 0) (KVRequest.put
      { key := "a", value := "x", clientID := 1, requestID := 1 }).handler ∈ handoverHistory :=
    List.mem_of_getElem? (i := 0) rfl
  exact ⟨s, hreach, (exactly_once .plain hreach (by decide) hreq rfl rfl).2.1 rfl _
    (List.mem_of_getElem? (i := 1) rfl)⟩

/-- Mutual exclusion: of two transactions that both took the lock, one had lost it before
the other got it. An entry between them in the log, which is no repetition, deleted the key
or ended its lease. -/
theorem lock_exclusive (h : (recorded codec).ReachableBy (fun s => IndexUnshared s.1) (s, H))
    {key owner owner' : String} {l l' c c' r r' rev rev' : Int}
    {results results' : List TxnOpResult} (hne : id ≠ id')
    (hreq : .invoke id (handleTxn (acquireLock key owner l c r)) ∈ H)
    (hok : .respond id (.ok (.txn true results rev)) ∈ H)
    (hreq' : .invoke id' (handleTxn (acquireLock key owner' l' c' r')) ∈ H)
    (hok' : .respond id' (.ok (.txn true results' rev')) ∈ H) :
    ∃ k cmd, (s.Between id id' k ∨ s.Between id' id k) ∧ s.commands[k]? = some cmd ∧
      (s.specAt k).repeats cmd = false ∧ (s.specAt k).store.Removes cmd key := by
  have hlin : Linearized s H := linearized_of_reachable h
  obtain ⟨i, hi⟩ := answeredAt hlin hreq hok rfl
  obtain ⟨j, hj⟩ := answeredAt hlin hreq' hok' rfl
  rcases Nat.lt_trichotomy i j with hij | rfl | hji
  · obtain ⟨k, cmd, hik, hkj, hremoved⟩ := removed_between hi hj hij
    exact ⟨k, cmd, .inl ⟨i, j, _, _, hi.entry, hj.entry, hik, hkj⟩, hremoved⟩
  · exact absurd (call_unique hi hj) hne
  · obtain ⟨k, cmd, hjk, hki, hremoved⟩ := removed_between hj hi hji
    exact ⟨k, cmd, .inr ⟨j, i, _, _, hj.entry, hi.entry, hjk, hki⟩, hremoved⟩

/-- The two owners of `lockTwice`. -/
theorem lock_exclusive_twice :
    ∃ s, (recorded .plain).ReachableBy (fun s => IndexUnshared s.1) (s, lockTwiceHistory) ∧
      ∃ k cmd, (s.Between (1, 1) (1, 3) k ∨ s.Between (1, 3) (1, 1) k) ∧
        s.commands[k]? = some cmd ∧ (s.specAt k).repeats cmd = false ∧
        (s.specAt k).store.Removes cmd "lock" := by
  obtain ⟨s, hreach, -⟩ := exists_history lockTwice (H := lockTwiceHistory) (n := 4) rfl
  exact ⟨s, hreach, lock_exclusive .plain hreach (by decide) (List.mem_of_getElem? (i := 2) rfl)
    (List.mem_of_getElem? (i := 3) rfl) (List.mem_of_getElem? (i := 6) rfl)
    (List.mem_of_getElem? (i := 7) rfl)⟩

end Zodiac
