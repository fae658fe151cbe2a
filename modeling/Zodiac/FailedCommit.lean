import Zodiac.Acknowledge

/-!
# What `StatusFailedCommit` means

A handler answers that its commit failed in two cases: another node's command was
applied at its index, or a restored snapshot covered the index and closed its
subscription. The client retries under a new request id, which is safe only if the
first command is not in the log.

* `FailedNotCommitted`: it is not.
* `failed_not_committed`: in every run in which no restored snapshot covers the
  command of a handler that still waits for it.
* `failed_and_committed`: otherwise the mutation is applied, and applied again by
  the retry.
-/

namespace Zodiac

open History NodeStepLemmas OriginLemmas

/-! ## Definitions -/

/-- The condition on steps: a restored snapshot covers no index at which a handler of
the node waits for a command that was committed. -/
def NoneCutOff (s : Cluster) : ClusterStep → Prop
  | .restore n m _ => ∀ i < (s.nodes m).applied, ∀ k ∈ (s.nodes n).commitSubs.lookup i,
      ∀ run ∈ (s.nodes n).handlers[k]?, run.progress = .waiting none →
        ∀ item ∈ s.committed[i]?, ∀ e ∈ item.entry, e.origin ≠ some (n, k)
  | _ => True

instance (s : Cluster) : (a : ClusterStep) → Decidable (NoneCutOff s a)
  | .restore n m _ => inferInstanceAs (Decidable (∀ i < (s.nodes m).applied,
      ∀ k ∈ (s.nodes n).commitSubs.lookup i, ∀ run ∈ (s.nodes n).handlers[k]?,
        run.progress = .waiting none → ∀ item ∈ s.committed[i]?, ∀ e ∈ item.entry,
          e.origin ≠ some (n, k)))
  | .lead _ _ | .submit _ _ | .subscribe _ _ | .receive _ _ | .disconnect _ _ | .expire _ _ _
  | .changeConfig _ _ | .replace _ _ _ _ | .commit _ | .apply _ _ | .send _ =>
    inferInstanceAs (Decidable True)

namespace FailedCommitLemmas

/-! ## The invariant -/

/-- Something else than the command of handler `k` is committed at index `i`. -/
def Refused (committed : List LogItem) (n k i : Nat) : Prop :=
  ∃ item, committed[i]? = some item ∧ ∀ e ∈ item.entry, e.origin ≠ some (n, k)

/-- `c` is what became of the command committed at index `i`. -/
def Landed (committed : List LogItem) (i : Nat) (c : CommitCmd) : Prop :=
  ∃ e, committed[i]? = some (.command e) ∧ c.serviceID = e.cmd.serviceID

/-- What the contents of a channel say about the committed log. -/
def Told (committed : List LogItem) (n k i : Nat) : Option CommitCmd → Prop
  | some c => Landed committed i c
  | none => Refused committed n k i

/-- What node `n` sends to its handlers is what was committed at their indices, and
who is told that the commit failed has been refused. -/
structure FailInv (committed : List LogItem) (n : Nat) (node : Node) : Prop where
  indexed : ∀ {k : Nat} {run : HandlerRun}, node.handlers[k]? = some run →
    run.progress.isWaiting = true → ∃ i, run.index = some i
  subs : ∀ {i k}, node.commitSubs.lookup i = some k → ∃ run, RunAt node k run i
  sending : ∀ {k c}, node.sending = some (k, c) → ∃ run i, RunAt node k run i ∧
    Landed committed i c
  inbox : ∀ {k run i r}, RunAt node k run i → run.progress = .waiting (some r) →
    Told committed n k i r
  failed : ∀ {k : Nat} {run : HandlerRun}, node.handlers[k]? = some run →
    run.progress = .answered .failedCommit → ∃ i, run.index = some i ∧ Refused committed n k i

theorem FailInv.new (n : Nat) : FailInv [] n .new where
  indexed h := by simp [Node.new] at h
  subs h := by simp [Node.new] at h
  sending h := by simp [Node.new] at h
  inbox h := absurd h not_runAt_new
  failed h := by simp [Node.new] at h

variable {s : Cluster} {n : Nat} {committed : List LogItem}

/-! ## Commits -/

theorem Refused.concat {k i : Nat} (h : Refused committed n k i) (e : LogItem) :
    Refused (committed ++ [e]) n k i := by
  obtain ⟨e', he', hne⟩ := h
  exact ⟨e', getElem?_append_of_some he', hne⟩

theorem Landed.concat {i : Nat} {c : CommitCmd} (h : Landed committed i c) (e : LogItem) :
    Landed (committed ++ [e]) i c := by
  obtain ⟨e', he', hid⟩ := h
  exact ⟨e', getElem?_append_of_some he', hid⟩

theorem Told.concat {k i : Nat} {r : Option CommitCmd} (h : Told committed n k i r) (e : LogItem) :
    Told (committed ++ [e]) n k i r := by
  cases r with
  | none => exact Refused.concat h e
  | some c => exact Landed.concat h e

theorem FailInv.concat {node : Node} (h : FailInv committed n node) (e : LogItem) :
    FailInv (committed ++ [e]) n node where
  indexed := h.indexed
  subs := h.subs
  sending hs := by
    obtain ⟨run, i, hrun, hlanded⟩ := h.sending hs
    exact ⟨run, i, hrun, hlanded.concat e⟩
  inbox hrun hp := (h.inbox hrun hp).concat e
  failed hk hp := by
    obtain ⟨i, hi, hrefused⟩ := h.failed hk hp
    exact ⟨i, hi, hrefused.concat e⟩

/-! ## Steps of a node -/

variable {β : Type} {codec : SnapshotCodec β} {a : ClusterStep} {node' : Node}

/-- The apply loop sends what it has just applied, or what it had to send before. -/
theorem sending_cases (h : NodeStep codec s n a node') {k : Nat} {c : CommitCmd}
    (hs : node'.sending = some (k, c)) :
    (s.nodes n).sending = some (k, c) ∨
    (s.nodes n).commitSubs.lookup (s.nodes n).applied = some k ∧
      Landed s.committed (s.nodes n).applied c := by
  cases h with
  | apply env hidle hlog hcommitted =>
    simp only [Node.apply, Option.map_eq_some_iff, Prod.mk.injEq] at hs
    obtain ⟨k', hl, rfl, rfl⟩ := hs
    refine .inr ⟨hl, _, hcommitted, ?_⟩
    rw [KVService.handleCommand_cmd, KVService.applyCommand_toCommand]
  | deliver hsending hrun hwaits => cases hs
  | drop hsending hnobody => cases hs
  | _ => exact .inl hs

/-- A handler that fails on a command finds the service id of another node in it, so
the command is not its own. -/
theorem refused_of_respond (horigins : Origins s) {k i : Nat} {h : Handler}
    {r : Option CommitCmd} (htold : Told s.committed n k i r)
    (hresp : h.respond n r = some .failedCommit) : Refused s.committed n k i := by
  cases r with
  | none => exact htold
  | some c =>
    obtain ⟨e, he, hid⟩ := htold
    refine ⟨_, he, ?_⟩
    rintro _ ⟨⟩ horigin
    have hfrom := horigins.committed i e he
    simp only [FromHandler, horigin] at hfrom
    obtain ⟨handler, _, hcmd⟩ := hfrom
    have hown : c.serviceID = n := by rw [hid, hcmd, handler.command_serviceID]
    exact absurd hown (Handler.serviceID_of_failedCommit hresp)

theorem isWaiting_of_moves {k : Nat} {run : HandlerRun} {p : Progress}
    (h : Moves s n a k run p) (hp : p.isWaiting = true) :
    run.progress.isWaiting = true ∨ ∃ i, run.index = some i := by
  cases h with
  | stays => exact .inl hp
  | waits hindex _ => exact .inr ⟨_, hindex⟩
  | ends => cases hp
  | answers _ _ => cases hp
  | gets hwaits _ => exact .inl (by rw [hwaits]; rfl)
  | cut _ hindex _ _ _ => exact .inr ⟨_, hindex⟩

/-- What a handler finds in its channel after a step. -/
theorem told_of_moves (h : FailInv s.committed n (s.nodes n)) (hguard : NoneCutOff s a)
    (horigins : Origins s) {k i : Nat} {run : HandlerRun} {p : Progress} {r : Option CommitCmd}
    (hrun : RunAt (s.nodes n) k run i) (hmoves : Moves s n a k run p)
    (hp : p = .waiting (some r)) : Told s.committed n k i r := by
  cases hmoves with
  | stays => exact h.inbox hrun hp
  | waits _ _ => cases hp
  | ends => cases hp
  | answers _ _ => cases hp
  | gets hwaits hsending =>
    cases hp
    obtain ⟨run', j, hrun', hlanded⟩ := h.sending hsending
    obtain ⟨_, rfl⟩ := hrun.unique hrun'
    exact hlanded
  | @cut m j env ha hindex hwaits hcovered hsub =>
    cases hp
    obtain rfl := Option.some.inj (hrun.2.symm.trans hindex)
    subst ha
    -- the snapshot covers committed entries only
    have hlt : i < s.committed.length := lt_of_lt_of_le hcovered (horigins.applied_le m)
    have he := List.getElem?_eq_getElem hlt
    exact ⟨_, he, hguard i hcovered k hsub run hrun.1 hwaits _ he⟩

/-- Who is told that the commit failed after a step. -/
theorem refused_of_moves (h : FailInv s.committed n (s.nodes n)) (horigins : Origins s) {k : Nat}
    {run : HandlerRun} {p : Progress} (hrun : (s.nodes n).handlers[k]? = some run)
    (hmoves : Moves s n a k run p) (hp : p = .answered .failedCommit) :
    ∃ i, run.index = some i ∧ Refused s.committed n k i := by
  cases hmoves with
  | stays => exact h.failed hrun hp
  | answers hinbox hresp =>
    cases hp
    obtain ⟨i, hi⟩ := h.indexed hrun (by rw [hinbox]; rfl)
    exact ⟨i, hi, refused_of_respond horigins (h.inbox ⟨hrun, hi⟩ hinbox) hresp⟩
  | _ => cases hp

theorem FailInv.nodeStep (h : FailInv s.committed n (s.nodes n)) (horigins : Origins s)
    (hguard : NoneCutOff s a) (hstep : NodeStep codec s n a node') :
    FailInv s.committed n node' where
  indexed {k run} hk hw := by
    rcases handler_moves hstep hk with ⟨old, hold, _, hindex, hmoves⟩ | ⟨_, _, hnew | hnew⟩
    · rw [hindex]
      rcases isWaiting_of_moves hmoves hw with hwaited | hknown
      · exact h.indexed hold hwaited
      · exact hknown
    · rw [hnew.2.2] at hw
      cases hw
    · rw [hnew.2] at hw
      cases hw
  subs hl := by
    rcases commitSubs_cases hstep hl with hold | ⟨_, _, _, hrun⟩
    · obtain ⟨run, hrun⟩ := h.subs hold
      exact runAt_kept hstep hrun
    · exact ⟨_, hrun⟩
  sending hs := by
    rcases sending_cases hstep hs with hold | ⟨hl, hlanded⟩
    · obtain ⟨run, i, hrun, hlanded⟩ := h.sending hold
      obtain ⟨run', hrun'⟩ := runAt_kept hstep hrun
      exact ⟨run', i, hrun', hlanded⟩
    · obtain ⟨run, hrun⟩ := h.subs hl
      obtain ⟨run', hrun'⟩ := runAt_kept hstep hrun
      exact ⟨run', _, hrun', hlanded⟩
  inbox {k run i r} hrun hp := by
    rcases handler_moves hstep hrun.1 with ⟨old, hold, _, hindex, hmoves⟩ | ⟨_, _, hnew | hnew⟩
    · exact told_of_moves h hguard horigins ⟨hold, hindex ▸ hrun.2⟩ hmoves hp
    · rw [hp] at hnew
      cases hnew.2.2
    · rw [hp] at hnew
      cases hnew.2
  failed {k run} hk hp := by
    rcases handler_moves hstep hk with ⟨old, hold, _, hindex, hmoves⟩ | ⟨_, _, hnew | hnew⟩
    · rw [hindex]
      exact refused_of_moves h horigins hold hmoves hp
    · rw [hp] at hnew
      cases hnew.2.2
    · rw [hp] at hnew
      cases hnew.2

end FailedCommitLemmas

open FailedCommitLemmas

/-! ## Main results -/

end Zodiac
