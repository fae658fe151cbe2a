import Zodiac.Locking

/-!
# Joining at start-up

`joinCluster` of `cmd/zodiacServer/main.go`, which a node that is not an initial member
calls when it starts: for each seed it looks for the leader and sends it a join request,
until one is accepted. What the network and the context do is an arbitrary `World`.

* `World.LeadsTo`, `World.Accepts`: what a seed leads to, and whether that node accepts.
* `joinCluster_reports`: when a join is accepted and when nil is returned. A nil result
  means an accepted join, unless no seed leads to one and the context never expires.
* `join_reported_without_leader`: the result is nil although no join request was sent.
-/

namespace Zodiac

/-! ## Configuration and responses -/

/-- `config.PeerConfig`. -/
structure PeerConfig where
  id : Int
  httpAddr : String
  raftAddr : String

/-- The fields of `config.Config` that `joinCluster` uses. -/
structure Config where
  nodeID : Int
  httpPort : Int
  initialCluster : List PeerConfig

/-- `Config.HTTPAddr`. -/
def Config.httpAddr (cfg : Config) : String :=
  match cfg.initialCluster.find? fun p => p.id = cfg.nodeID with
  | some p => p.httpAddr
  | none => "localhost:" ++ formatInt cfg.httpPort

/-- `StatusOK` as a number. The decoder of a response admits any number. -/
def statusOK : Int := 1

/-- `responseName`. -/
def responseName : Int → String
  | 0 => "invalid"
  | 1 => "OK"
  | 2 => "NotLeader"
  | 3 => "FailedCommit"
  | 4 => "DuplicateRequest"
  | _ => ""

/-- The fields of `api.StatusResponse` that `findLeader` uses. -/
structure StatusResponse where
  respStatus : Int
  isLeader : Bool

/-- `api.PeerInfo`. -/
structure MemberInfo where
  id : Int
  httpAddr : String

/-- `api.MembersResponse`. -/
structure MembersResponse where
  respStatus : Int
  members : List MemberInfo

/-- The status probes of one call of `findLeader`: that of the seed, and then that of the
address at each position of a list. -/
inductive ProbePlace
  | seed
  | listed (i : Nat)

/-- What the outside does, in the round of each seed. A request gives a decoded response
or the text of an error. No request is made twice at the same place, so every pattern of
outcomes is one of these. `ctxErr` is what `ctx.Err()` returns when the round begins, and
for the number of seeds what it returns after the last one. -/
structure World where
  status : Nat → ProbePlace → String → Except String StatusResponse
  members : Nat → String → Except String MembersResponse
  join : Nat → String → JoinRequest → Except String Int
  ctxErr : Nat → Option String

/-! ## Looking for the leader -/

/-- The closure `probe` of `findLeader`. -/
def probe (w : World) (round : Nat) (place : ProbePlace) (addr : String) : Except String Bool :=
  (w.status round place addr).map fun status => status.isLeader && status.respStatus == statusOK

/-- The loops of `findLeader` over addresses, from position `i` on, and the error that
follows them. -/
def probeAll (w : World) (round : Nat) (err : String) : Nat → List String → Except String String
  | _, [] => .error err
  | i, addr :: addrs =>
    match probe w round (.listed i) addr with
    | .ok true => .ok addr
    | _ => probeAll w round err (i + 1) addrs

/-- `fetchMembers`. -/
def fetchMembers (w : World) (round : Nat) (addr : String) : Except String (List MemberInfo) :=
  match w.members round addr with
  | .error err => .error err
  | .ok mr =>
    if mr.respStatus ≠ statusOK then
      .error ("members response status " ++ responseName mr.respStatus)
    else .ok mr.members

/-- The addresses of the members that have one. -/
def memberAddrs (members : List MemberInfo) : List String :=
  (members.map (·.httpAddr)).filter (· ≠ "")

/-- `findLeader`. -/
def findLeader (w : World) (round : Nat) (seedAddr : String) (allSeeds : List String) :
    Except String String :=
  match probe w round .seed seedAddr with
  | .ok true => .ok seedAddr
  | _ =>
    match fetchMembers w round seedAddr with
    | .error _ => probeAll w round "leader not found" 0 allSeeds
    | .ok members => probeAll w round "leader not found among members" 0 (memberAddrs members)

/-! ## Joining -/

/-- A join request that was sent, and its outcome. -/
structure JoinAttempt where
  leaderAddr : String
  req : JoinRequest
  answer : Except String Int

/-- `sendJoin`, after the request has been answered or has failed. -/
def JoinAttempt.result (a : JoinAttempt) : Except String Unit :=
  match a.answer with
  | .error err => .error err
  | .ok status =>
    if status ≠ statusOK then .error ("join rejected: " ++ responseName status) else .ok ()

/-- What `joinCluster` returns (none for nil), and the join requests that it sent. -/
structure JoinRun where
  err : Option String
  attempts : List JoinAttempt

/-- The loop of `joinCluster` over the seeds. -/
def joinSeeds (w : World) (jr : JoinRequest) (allSeeds : List String) : Nat → List String → JoinRun
  | round, [] => { err := w.ctxErr round, attempts := [] }
  | round, seed :: seeds =>
    match w.ctxErr round with
    | some err => { err := some err, attempts := [] }
    | none =>
      match findLeader w round seed allSeeds with
      | .error _ => joinSeeds w jr allSeeds (round + 1) seeds
      | .ok leader =>
        let attempt : JoinAttempt :=
          { leaderAddr := leader, req := jr, answer := w.join round leader jr }
        match attempt.result with
        | .error _ =>
          let rest := joinSeeds w jr allSeeds (round + 1) seeds
          { rest with attempts := attempt :: rest.attempts }
        | .ok () => { err := none, attempts := [attempt] }

/-- The seeds of a configuration. -/
def Config.seeds (cfg : Config) : List String := cfg.initialCluster.map (·.httpAddr)

/-- The request that `sendJoin` makes for the node. -/
def Config.joinRequest (cfg : Config) (raftAddr : String) : JoinRequest :=
  { id := cfg.nodeID, raftAddr := raftAddr, httpAddr := cfg.httpAddr }

/-- `joinCluster`. -/
def joinCluster (w : World) (raftAddr : String) (cfg : Config) : JoinRun :=
  match cfg.seeds with
  | [] => { err := none, attempts := [] }
  | seeds => joinSeeds w (cfg.joinRequest raftAddr) seeds 0 seeds

/-- Some node answered one of the join requests with `StatusOK`. -/
def JoinRun.Joined (r : JoinRun) : Prop := ∃ a ∈ r.attempts, a.answer = .ok statusOK

/-! ## What the outside offers -/

namespace World

/-- The node at the address answers this probe as the leader. -/
def Leads (w : World) (round : Nat) (place : ProbePlace) (addr : String) : Prop :=
  ∃ status, w.status round place addr = .ok status ∧ status.isLeader = true ∧
    status.respStatus = statusOK

/-- The first of the addresses that answers as the leader. -/
def FirstLeader (w : World) (round : Nat) (addrs : List String) (leader : String) : Prop :=
  ∃ i, addrs[i]? = some leader ∧ w.Leads round (.listed i) leader ∧
    ∀ j < i, ∀ addr ∈ addrs[j]?, ¬ w.Leads round (.listed j) addr

/-- The leader that is found by way of a seed: the seed itself; else one of the members it
names; or, where it names none, one of the seeds. -/
inductive LeadsTo (w : World) (round : Nat) (seeds : List String) (seed : String) : String → Prop
  | itself : w.Leads round .seed seed → LeadsTo w round seeds seed seed
  | member {mr : MembersResponse} {leader : String} : ¬ w.Leads round .seed seed →
      w.members round seed = .ok mr → mr.respStatus = statusOK →
      w.FirstLeader round (memberAddrs mr.members) leader → LeadsTo w round seeds seed leader
  | otherSeed {leader : String} : ¬ w.Leads round .seed seed →
      (∀ mr, w.members round seed = .ok mr → mr.respStatus ≠ statusOK) →
      w.FirstLeader round seeds leader → LeadsTo w round seeds seed leader

/-- In its round the seed leads to a node that accepts the join request. -/
def Accepts (w : World) (seeds : List String) (jr : JoinRequest) (round : Nat) (seed : String) :
    Prop :=
  ∃ leader, w.LeadsTo round seeds seed leader ∧ w.join round leader jr = .ok statusOK

end World

namespace JoinClusterLemmas

variable {w : World} {round : Nat}

/-- Position `k` of the rest of a list, counted in the list. -/
theorem next_add (i k : Nat) : i + 1 + k = i + (k + 1) := Nat.add_right_comm i 1 k

/-! ## One seed -/

theorem probe_eq_true {place : ProbePlace} {addr : String} :
    probe w round place addr = .ok true ↔ w.Leads round place addr := by
  unfold probe World.Leads
  cases w.status round place addr <;> simp [Except.map]

theorem fetchMembers_eq_ok {addr : String} {members : List MemberInfo} :
    fetchMembers w round addr = .ok members ↔
      ∃ mr, w.members round addr = .ok mr ∧ mr.respStatus = statusOK ∧ mr.members = members := by
  unfold fetchMembers
  cases w.members round addr with
  | error err => simp
  | ok mr => by_cases h : mr.respStatus = statusOK <;> simp [h]

/-- The loop over addresses, from any position on. -/
theorem probeAll_eq_ok {err leader : String} (addrs : List String) : ∀ i : Nat,
    probeAll w round err i addrs = .ok leader ↔
      ∃ k, addrs[k]? = some leader ∧ w.Leads round (.listed (i + k)) leader ∧
        ∀ j < k, ∀ addr ∈ addrs[j]?, ¬ w.Leads round (.listed (i + j)) addr := by
  induction addrs with
  | nil => intro i; simp [probeAll]
  | cons addr addrs ih =>
    intro i
    rw [probeAll]
    split
    · next hprobe =>
      have hleads := probe_eq_true.mp hprobe
      constructor
      · rintro ⟨⟩
        exact ⟨0, rfl, hleads, fun j hj => absurd hj (Nat.not_lt_zero j)⟩
      · rintro ⟨_ | k, hk, -, hfirst⟩
        · exact congrArg Except.ok (Option.some.inj hk)
        · exact absurd hleads (hfirst 0 (Nat.succ_pos k) addr rfl)
    · next hprobe =>
      -- the first address is passed over, and every position moves by one
      have hpassed : ¬ w.Leads round (.listed i) addr := fun h => hprobe (probe_eq_true.mpr h)
      rw [ih (i + 1)]
      constructor
      · rintro ⟨k, hk, hlead, hfirst⟩
        rw [next_add] at hlead
        refine ⟨k + 1, hk, hlead, fun j hj addr' haddr' => ?_⟩
        cases j with
        | zero =>
          cases haddr'
          exact hpassed
        | succ j =>
          rw [← next_add]
          exact hfirst j (Nat.lt_of_succ_lt_succ hj) addr' haddr'
      · rintro ⟨_ | k, hk, hlead, hfirst⟩
        · cases hk
          exact absurd hlead hpassed
        · rw [← next_add] at hlead
          refine ⟨k, hk, hlead, fun j hj addr' haddr' => ?_⟩
          rw [next_add]
          exact hfirst (j + 1) (Nat.succ_lt_succ hj) addr' haddr'

theorem probeAll_iff_firstLeader {err leader : String} {addrs : List String} :
    probeAll w round err 0 addrs = .ok leader ↔ w.FirstLeader round addrs leader := by
  simp only [probeAll_eq_ok, Nat.zero_add]
  exact Iff.rfl

/-- `findLeader` finds what the seed leads to. -/
theorem findLeader_eq_ok {seed leader : String} {seeds : List String} :
    findLeader w round seed seeds = .ok leader ↔ w.LeadsTo round seeds seed leader := by
  unfold findLeader
  split
  · next hprobe =>
    have hseed := probe_eq_true.mp hprobe
    constructor
    · rintro ⟨⟩
      exact .itself hseed
    · rintro (_ | ⟨hnot, _, _, _⟩ | ⟨hnot, _, _⟩)
      · rfl
      · exact absurd hseed hnot
      · exact absurd hseed hnot
  · next hprobe =>
    have hseed : ¬ w.Leads round .seed seed := fun h => hprobe (probe_eq_true.mpr h)
    split
    · next err hfetch =>
      have hrefused (mr : MembersResponse) (hmr : w.members round seed = .ok mr) :
          mr.respStatus ≠ statusOK := by
        intro hok
        rw [fetchMembers_eq_ok.mpr ⟨mr, hmr, hok, rfl⟩] at hfetch
        cases hfetch
      rw [probeAll_iff_firstLeader]
      constructor
      · exact .otherSeed hseed hrefused
      · rintro (hleads | ⟨_, hmr, hok, _⟩ | ⟨_, _, hfirst⟩)
        · exact absurd hleads hseed
        · exact absurd hok (hrefused _ hmr)
        · exact hfirst
    · next members hfetch =>
      obtain ⟨mr, hmr, hok, rfl⟩ := fetchMembers_eq_ok.mp hfetch
      rw [probeAll_iff_firstLeader]
      constructor
      · exact .member hseed hmr hok
      · rintro (hleads | ⟨_, hmr', _, hfirst⟩ | ⟨_, hrefused, _⟩)
        · exact absurd hleads hseed
        · rw [hmr] at hmr'
          cases hmr'
          exact hfirst
        · exact absurd hok (hrefused mr hmr)

theorem result_eq_ok {a : JoinAttempt} : a.result = .ok () ↔ a.answer = .ok statusOK := by
  unfold JoinAttempt.result
  cases a.answer with
  | error err => simp
  | ok status => by_cases h : status = statusOK <;> simp [h]

theorem answer_of_rejected {a : JoinAttempt} {err : String} (h : a.result = .error err) :
    a.answer ≠ .ok statusOK := by
  intro hok
  rw [result_eq_ok.mpr hok] at h
  cases h

/-! ## The loop -/

/-- A rejected request changes nothing. -/
theorem joined_cons {a : JoinAttempt} {err : String} (h : a.result = .error err) (r : JoinRun) :
    JoinRun.Joined { r with attempts := a :: r.attempts } ↔ r.Joined := by
  simp [JoinRun.Joined, answer_of_rejected h]

/-- The looks at the context from a round on, up to the one of seed `k`. -/
def Unexpired (w : World) (round k : Nat) : Prop := ∀ j ≤ k, w.ctxErr (round + j) = none

theorem unexpired_succ {k : Nat} :
    Unexpired w round (k + 1) ↔ w.ctxErr round = none ∧ Unexpired w (round + 1) k := by
  constructor
  · intro h
    exact ⟨h 0 (Nat.zero_le _), fun j hj => next_add round j ▸ h (j + 1) (Nat.succ_le_succ hj)⟩
  · rintro ⟨hfirst, hrest⟩ (_ | j) hj
    · exact hfirst
    · exact next_add round j ▸ hrest j (Nat.le_of_succ_le_succ hj)

/-- A seed of the rest of the list is accepted before the context expires. -/
def AcceptedFrom (w : World) (allSeeds : List String) (jr : JoinRequest) (round : Nat)
    (seeds : List String) : Prop :=
  ∃ k, ∃ seed ∈ seeds[k]?, w.Accepts allSeeds jr (round + k) seed ∧ Unexpired w round k

variable {jr : JoinRequest} {allSeeds : List String}

theorem acceptedFrom_cons {seed : String} {seeds : List String} :
    AcceptedFrom w allSeeds jr round (seed :: seeds) ↔ w.ctxErr round = none ∧
      (w.Accepts allSeeds jr round seed ∨ AcceptedFrom w allSeeds jr (round + 1) seeds) := by
  constructor
  · rintro ⟨_ | k, seed', hseed', haccepts, hctx⟩
    · cases hseed'
      exact ⟨hctx 0 le_rfl, .inl haccepts⟩
    · obtain ⟨hfirst, hrest⟩ := unexpired_succ.mp hctx
      rw [← next_add] at haccepts
      exact ⟨hfirst, .inr ⟨k, seed', hseed', haccepts, hrest⟩⟩
  · rintro ⟨hfirst, haccepts | ⟨k, seed', hseed', haccepts, hrest⟩⟩
    · refine ⟨0, seed, rfl, haccepts, fun j hj => ?_⟩
      rw [Nat.le_zero.mp hj]
      exact hfirst
    · rw [next_add] at haccepts
      exact ⟨k + 1, seed', hseed', haccepts, unexpired_succ.mpr ⟨hfirst, hrest⟩⟩

/-- The loop joins through the first seed that is accepted, if the context lives so long. -/
theorem joinSeeds_joined (w : World) (jr : JoinRequest) (allSeeds : List String) (round : Nat)
    (seeds : List String) :
    (joinSeeds w jr allSeeds round seeds).Joined ↔ AcceptedFrom w allSeeds jr round seeds := by
  fun_induction joinSeeds w jr allSeeds round seeds with
  | case1 round => simp [JoinRun.Joined, AcceptedFrom]
  | case2 round seed seeds err herr => simp [JoinRun.Joined, acceptedFrom_cons, herr]
  | case3 round seed seeds hctx err hleader ih =>
    have hnot : ¬ w.Accepts allSeeds jr round seed := by
      rintro ⟨leader, hleads, -⟩
      rw [findLeader_eq_ok.mpr hleads] at hleader
      cases hleader
    rw [ih, acceptedFrom_cons]
    simp [hctx, hnot]
  | case4 round seed seeds hctx leader hleader attempt err hrejected rest ih =>
    have hnot : ¬ w.Accepts allSeeds jr round seed := by
      rintro ⟨leader', hleads, haccepted⟩
      rw [findLeader_eq_ok.mpr hleads] at hleader
      cases hleader
      exact answer_of_rejected hrejected haccepted
    rw [joined_cons hrejected, ih, acceptedFrom_cons]
    simp [hctx, hnot]
  | case5 round seed seeds hctx leader hleader attempt haccepted =>
    have hok := result_eq_ok.mp haccepted
    have haccepts : w.Accepts allSeeds jr round seed := ⟨leader, findLeader_eq_ok.mp hleader, hok⟩
    simp [JoinRun.Joined, acceptedFrom_cons, hctx, haccepts, hok]

/-- The loop returns nil after an accepted join, and when it has run out of seeds before
the context expired. -/
theorem joinSeeds_err (w : World) (jr : JoinRequest) (allSeeds : List String) (round : Nat)
    (seeds : List String) :
    (joinSeeds w jr allSeeds round seeds).err = none ↔
      (joinSeeds w jr allSeeds round seeds).Joined ∨ Unexpired w round seeds.length := by
  fun_induction joinSeeds w jr allSeeds round seeds with
  | case1 round => simp [JoinRun.Joined, Unexpired]
  | case2 round seed seeds err herr => simp [JoinRun.Joined, unexpired_succ, herr]
  | case3 round seed seeds hctx err hleader ih => simp [ih, unexpired_succ, hctx]
  | case4 round seed seeds hctx leader hleader attempt err hrejected rest ih =>
    rw [joined_cons hrejected, List.length_cons, unexpired_succ, and_iff_right hctx]
    exact ih
  | case5 round seed seeds hctx leader hleader attempt haccepted =>
    simp [JoinRun.Joined, result_eq_ok.mp haccepted]

theorem joinCluster_eq {cfg : Config} (hseeds : cfg.initialCluster ≠ []) (raftAddr : String) :
    joinCluster w raftAddr cfg =
      joinSeeds w (cfg.joinRequest raftAddr) cfg.seeds 0 cfg.seeds := by
  obtain ⟨p, ps, hcfg⟩ := List.exists_cons_of_ne_nil hseeds
  simp only [joinCluster, Config.seeds, hcfg, List.map_cons]

end JoinClusterLemmas

open JoinClusterLemmas

/-! ## Main results -/

/-- With a non-empty `initial_cluster`, whatever the requests and the context do: a join is
accepted exactly if a seed leads to a node that accepts it and the context lives until the
round of that seed; nil is returned exactly after an accepted join and when the context
outlives all seeds. So nil means an accepted join exactly if some seed leads to one, or
the context expires on the way. -/
theorem joinCluster_reports (w : World) (raftAddr : String) (cfg : Config)
    (hseeds : cfg.initialCluster ≠ []) :
    let r := joinCluster w raftAddr cfg
    let accepts := fun round => ∃ seed ∈ cfg.seeds[round]?,
      w.Accepts cfg.seeds (cfg.joinRequest raftAddr) round seed
    (r.Joined ↔ ∃ round, accepts round ∧ ∀ j ≤ round, w.ctxErr j = none) ∧
    (r.err = none ↔ r.Joined ∨ ∀ j ≤ cfg.seeds.length, w.ctxErr j = none) ∧
    ((r.err = none → r.Joined) ↔
      (∃ round, accepts round) ∨ ∃ j ≤ cfg.seeds.length, w.ctxErr j ≠ none) := by
  intro r accepts
  have hr : r = joinSeeds w (cfg.joinRequest raftAddr) cfg.seeds 0 cfg.seeds :=
    joinCluster_eq hseeds raftAddr
  have hjoined : r.Joined ↔ ∃ round, accepts round ∧ ∀ j ≤ round, w.ctxErr j = none := by
    rw [hr, joinSeeds_joined]
    simp only [AcceptedFrom, Unexpired, Nat.zero_add]
    exact exists_congr fun round => ⟨fun ⟨seed, hseed, hacc, hctx⟩ => ⟨⟨seed, hseed, hacc⟩, hctx⟩,
      fun ⟨⟨seed, hseed, hacc⟩, hctx⟩ => ⟨seed, hseed, hacc, hctx⟩⟩
  have herr : r.err = none ↔ r.Joined ∨ ∀ j ≤ cfg.seeds.length, w.ctxErr j = none := by
    rw [hr, joinSeeds_err]
    simp only [Unexpired, Nat.zero_add]
  refine ⟨hjoined, herr, fun himp => ?_, ?_⟩
  · -- with a context that never expires, nil is returned and the join has to be there
    by_cases hctx : ∀ j ≤ cfg.seeds.length, w.ctxErr j = none
    · obtain ⟨round, haccepts, -⟩ := hjoined.mp (himp (herr.mpr (.inr hctx)))
      exact .inl ⟨round, haccepts⟩
    · obtain ⟨j, hj⟩ := not_forall.mp hctx
      obtain ⟨hle, hexpired⟩ := Classical.not_imp.mp hj
      exact .inr ⟨j, hle, hexpired⟩
  · rintro hcond hnil
    rcases herr.mp hnil with hjoin | hctx
    · exact hjoin
    rcases hcond with ⟨round, seed, hseed, haccepts⟩ | ⟨j, hj, hexpired⟩
    · have hround := (List.getElem?_eq_some_iff.mp hseed).1
      exact hjoined.mpr ⟨round, ⟨seed, hseed, haccepts⟩, fun j hj => hctx j (hj.trans hround.le)⟩
    · exact absurd (hctx j hj) hexpired

/-- Node 4, and a cluster with one seed. -/
def lateNode : Config :=
  { nodeID := 4, httpPort := 8004,
    initialCluster := [{ id := 1, httpAddr := "a:1", raftAddr := "a:2" }] }

/-- The seed does not answer, and the context has expired when the loop is over or never
expires. -/
def silentSeed (expires : Bool) : World where
  status _ _ _ := .error "connection refused"
  members _ _ := .error "connection refused"
  join _ _ _ := .error "connection refused"
  ctxErr round := if expires && decide (round > 0) then some "context deadline exceeded" else none

/-- A failure is reported once the context has expired. -/
theorem joinCluster_reports_expiry :
    lateNode.initialCluster ≠ [] ∧
    (joinCluster (silentSeed true) "d:2" lateNode).err = some "context deadline exceeded" ∧
    ((joinCluster (silentSeed true) "d:2" lateNode).err = none →
      (joinCluster (silentSeed true) "d:2" lateNode).Joined) := by
  have hseeds : lateNode.initialCluster ≠ [] := by simp [lateNode]
  refine ⟨hseeds, by decide, ?_⟩
  exact (joinCluster_reports (silentSeed true) "d:2" lateNode hseeds).2.2.mpr
    (.inr ⟨1, by decide, by decide⟩)

/-- The only seed does not answer. The result is nil, and no join request was sent. -/
theorem join_reported_without_leader :
    lateNode.initialCluster ≠ [] ∧ (joinCluster (silentSeed false) "d:2" lateNode).err = none ∧
    (joinCluster (silentSeed false) "d:2" lateNode).attempts = [] ∧
    ¬ (joinCluster (silentSeed false) "d:2" lateNode).Joined := by
  have hnone : (joinCluster (silentSeed false) "d:2" lateNode).attempts = [] := rfl
  refine ⟨by simp [lateNode], rfl, hnone, ?_⟩
  rintro ⟨a, ha, -⟩
  rw [hnone] at ha
  cases ha

end Zodiac
