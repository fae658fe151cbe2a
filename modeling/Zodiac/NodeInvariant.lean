import Zodiac.NodeStep

/-!
# The bookkeeping of one node

What ties the handlers of a node to its commit subscriptions, over every step
that the node can take. At an index that is not applied yet at most one handler
is live, a waiting handler holds the subscription and is alone there, and an
ended one has left its subscription behind.

* `NodeInv`: the invariant.
* `NodeInv.goesOn`: the rule for steps in which no handler subscribes or arrives.
* `NodeInv.wait`, `NodeInv.addHandler`: the two other kinds of steps.
-/

namespace Zodiac

/-! ## The invariant of one node -/

namespace NodeInvariantLemmas

open History NodeStepLemmas

/-- `c` is the result recorded at index `i`; if it passes the handler's test, the
entry is the one of handler `k`. -/
def Owns (n : Nat) (node : Node) (k : Nat) (run : HandlerRun) (i : Nat) (c : CommitCmd) : Prop :=
  ∃ e, node.results.lookup i = some (e, c) ∧
    (c.serviceID = n → e = { cmd := run.handler.command n, origin := some (n, k) })

/-- The OK answer `body` of handler `k` is that of its own entry. -/
def Reports (n : Nat) (node : Node) (k : Nat) (run : HandlerRun) (body : Body) : Prop :=
  ∃ i c, run.index = some i ∧
    node.results.lookup i = some ({ cmd := run.handler.command n, origin := some (n, k) }, c) ∧
    run.handler.body c = some body

/-- The bookkeeping of node `n`. At an index that is not applied yet, ended
handlers leave a subscription behind, at most one handler is live, and a waiting
one is alone. -/
structure NodeInv (n : Nat) (node : Node) : Prop where
  applied_le : node.applied ≤ node.log.length
  recorded : ∀ i ∈ node.results, i < node.applied
  subs : ∀ {i k}, node.commitSubs.lookup i = some k →
    ∃ run, RunAt node k run i ∧ run.progress ≠ .submitted
  indexed : ∀ {k : Nat} {run : HandlerRun}, node.handlers[k]? = some run →
    run.progress.isWaiting = true → ∃ i, run.index = some i
  waits : ∀ {k run i}, RunAt node k run i → run.progress.isWaiting = true → node.applied ≤ i →
    node.commitSubs.lookup i = some k
  ended : ∀ {k run i}, RunAt node k run i → run.progress.live = false → node.applied ≤ i →
    i ∈ node.commitSubs
  single : ∀ {k k' run run' i}, RunAt node k run i → RunAt node k' run' i → node.applied ≤ i →
    run.progress.live = true → run'.progress.live = true → k = k'
  alone : ∀ {k k' run run' i}, RunAt node k run i → RunAt node k' run' i → node.applied ≤ i →
    run.progress.isWaiting = true → k = k'
  served : ∀ {k run i r}, RunAt node k run i → run.progress = .waiting (some r) → i < node.applied
  sending : ∀ {k c}, node.sending = some (k, c) → ∃ run i, RunAt node k run i ∧
    run.progress ≠ .submitted ∧ i < node.applied ∧
    (run.progress.isWaiting = true → Owns n node k run i c)
  inbox : ∀ {k run i c}, RunAt node k run i → run.progress = .waiting (some (some c)) →
    Owns n node k run i c
  answers : ∀ {k : Nat} {run : HandlerRun} {body : Body}, node.handlers[k]? = some run →
    run.progress = .answered (.ok body) → Reports n node k run body

theorem NodeInv.new (n : Nat) : NodeInv n .new where
  applied_le := le_rfl
  recorded i h := absurd h Finmap.notMem_empty
  subs h := by simp [Node.new] at h
  indexed h := by simp [Node.new] at h
  waits h := absurd h not_runAt_new
  ended h := absurd h not_runAt_new
  single h := absurd h not_runAt_new
  alone h := absurd h not_runAt_new
  served h := absurd h not_runAt_new
  sending h := by simp [Node.new] at h
  inbox h := absurd h not_runAt_new
  answers h := by simp [Node.new] at h

theorem live_of_isWaiting {p : Progress} (h : p.isWaiting = true) : p.live = true := by
  cases p <;> first | rfl | cases h

/-- How a handler may go on in a step of its node that is not its subscription:
it keeps its index and never starts waiting; it ends only with a subscription
left behind or after its index was applied; what it receives and answers is its
own. -/
structure GoesOn (n : Nat) (node' : Node) (k : Nat) (run run' : HandlerRun) : Prop where
  handler : run'.handler = run.handler
  index : run'.index = run.index
  started : run'.progress = .submitted → run.progress = .submitted
  waiting : run'.progress.isWaiting = true → run.progress.isWaiting = true
  live : run'.progress.live = true → run.progress.live = true
  ended : ∀ {i}, run'.index = some i → run'.progress.live = false → node'.applied ≤ i →
    run.progress.live = false ∨ i ∈ node'.commitSubs
  served : ∀ {i r}, run'.index = some i → run'.progress = .waiting (some r) →
    run.progress = .waiting (some r) ∨ i < node'.applied
  inbox : ∀ {i c}, run'.index = some i → run'.progress = .waiting (some (some c)) →
    run.progress = .waiting (some (some c)) ∨ Owns n node' k run' i c
  answers : ∀ {body}, run'.progress = .answered (.ok body) →
    run.progress = .answered (.ok body) ∨ Reports n node' k run' body

theorem GoesOn.refl (n : Nat) (node' : Node) (k : Nat) (run : HandlerRun) :
    GoesOn n node' k run run where
  handler := rfl
  index := rfl
  started h := h
  waiting h := h
  live h := h
  ended _ h _ := .inl h
  served _ h := .inl h
  inbox _ h := .inl h
  answers h := .inl h

/-- The rule for the steps in which no handler subscribes or arrives. -/
theorem NodeInv.goesOn {n : Nat} {node node' : Node} (h : NodeInv n node)
    (hlen : node'.applied ≤ node'.log.length) (happlied : node.applied ≤ node'.applied)
    (hsubs : ∀ i, node'.applied ≤ i → node'.commitSubs.lookup i = node.commitSubs.lookup i)
    (hfewer : ∀ i k, node'.commitSubs.lookup i = some k → node.commitSubs.lookup i = some k)
    (hresults : ∀ i, i < node.applied → node'.results.lookup i = node.results.lookup i)
    (hrecorded : ∀ i ∈ node'.results, i < node'.applied)
    (hruns : ∀ k run', node'.handlers[k]? = some run' →
      ∃ run, node.handlers[k]? = some run ∧ GoesOn n node' k run run')
    (hkept : node'.handlers.length = node.handlers.length)
    (hsending : ∀ {k c}, node'.sending = some (k, c) → ∃ run i, RunAt node' k run i ∧
      run.progress ≠ .submitted ∧ i < node'.applied ∧
      (run.progress.isWaiting = true → Owns n node' k run i c)) :
    NodeInv n node' := by
  have hback : ∀ {k run' i}, RunAt node' k run' i →
      ∃ run, RunAt node k run i ∧ GoesOn n node' k run run' := by
    rintro k run' i ⟨hk, hi⟩
    obtain ⟨run, hrun, hgo⟩ := hruns k run' hk
    exact ⟨run, ⟨hrun, hgo.index ▸ hi⟩, hgo⟩
  have hmem : ∀ {i e c}, node.results.lookup i = some (e, c) →
      node'.results.lookup i = some (e, c) := by
    intro i e c hl
    have hi := h.recorded i (Finmap.mem_iff.mpr ⟨_, hl⟩)
    rw [hresults i hi, hl]
  refine {
    applied_le := hlen, recorded := hrecorded, sending := hsending,
    subs := ?subs, indexed := ?indexed, waits := ?waits, ended := ?ended, single := ?single,
    alone := ?alone, served := ?served, inbox := ?inbox, answers := ?answers }
  case subs =>
    intro i k hl
    obtain ⟨run, ⟨hrun, hindex⟩, hstarted⟩ := h.subs (hfewer i k hl)
    have hlt : k < node'.handlers.length := by
      rw [hkept]
      exact (List.getElem?_eq_some_iff.mp hrun).1
    obtain ⟨run0, hrun0, hgo⟩ := hruns k _ (List.getElem?_eq_getElem hlt)
    rw [hrun] at hrun0
    cases hrun0
    exact ⟨_, ⟨List.getElem?_eq_getElem hlt, hgo.index.trans hindex⟩,
      fun hp => hstarted (hgo.started hp)⟩
  case indexed =>
    intro k run hk hw
    obtain ⟨run0, hrun, hgo⟩ := hruns k run hk
    obtain ⟨i, hi⟩ := h.indexed hrun (hgo.waiting hw)
    exact ⟨i, hgo.index.trans hi⟩
  case waits =>
    intro k run' i hr hw hi
    obtain ⟨run, hrun, hgo⟩ := hback hr
    rw [hsubs _ hi]
    exact h.waits hrun (hgo.waiting hw) (le_trans happlied hi)
  case ended =>
    intro k run' i hr he hi
    obtain ⟨run0, hrun, hgo⟩ := hback hr
    rcases hgo.ended hr.2 he hi with hold | hnew
    · have := h.ended hrun hold (le_trans happlied hi)
      rw [← Finmap.lookup_isSome, hsubs i hi, Finmap.lookup_isSome]
      exact this
    · exact hnew
  case single =>
    intro k k' run₁ run₂ i hr hr' hi hl hl'
    obtain ⟨run, hrun, hgo⟩ := hback hr
    obtain ⟨run', hrun', hgo'⟩ := hback hr'
    exact h.single hrun hrun' (le_trans happlied hi) (hgo.live hl) (hgo'.live hl')
  case alone =>
    intro k k' run₁ run₂ i hr hr' hi hw
    obtain ⟨run, hrun, hgo⟩ := hback hr
    obtain ⟨run', hrun', _⟩ := hback hr'
    exact h.alone hrun hrun' (le_trans happlied hi) (hgo.waiting hw)
  case served =>
    intro k run' i r hr hp
    obtain ⟨run, hrun, hgo⟩ := hback hr
    rcases hgo.served hr.2 hp with hold | hnew
    · exact lt_of_lt_of_le (h.served hrun hold) happlied
    · exact hnew
  case inbox =>
    intro k run' i c hr hp
    obtain ⟨run0, hrun, hgo⟩ := hback hr
    rcases hgo.inbox hr.2 hp with hold | hnew
    · obtain ⟨e, hl, hown⟩ := h.inbox hrun hold
      exact ⟨e, hmem hl, fun hid => by rw [hgo.handler]; exact hown hid⟩
    · exact hnew
  case answers =>
    intro k run body hk hp
    obtain ⟨run0, hrun, hgo⟩ := hruns k run hk
    rcases hgo.answers hp with hold | hnew
    · obtain ⟨i, c, hi, hl, hb⟩ := h.answers hrun hold
      exact ⟨i, c, hgo.index.trans hi, by rw [hgo.handler]; exact hmem hl,
        by rw [hgo.handler]; exact hb⟩
    · exact hnew

/-! ## Steps of one node -/

variable {n : Nat} {node : Node}

/-- Steps that only touch the log or the leader flag. -/
theorem NodeInv.setLog (h : NodeInv n node) {log : List LogItem} (b : Bool)
    (hlen : node.applied ≤ log.length) : NodeInv n { node with log := log, isLeader := b } :=
  h.goesOn hlen le_rfl (fun _ _ => rfl) (fun _ _ hl => hl) (fun _ _ => rfl) h.recorded
    (fun _ run hk => ⟨run, hk, GoesOn.refl _ _ _ _⟩) rfl h.sending

theorem NodeInv.setProgress (h : NodeInv n node) {k : Nat} {run : HandlerRun} {p : Progress}
    (hrun : node.handlers[k]? = some run)
    (hgo : GoesOn n (node.setProgress k p) k run { run with progress := p }) :
    NodeInv n (node.setProgress k p) := by
  refine h.goesOn h.applied_le le_rfl (fun _ _ => rfl) (fun _ _ hl => hl) (fun _ _ => rfl)
    h.recorded (fun j run' hj => ?_) (List.length_modify _ _ _) (fun {j c} hsend => ?_)
  · rcases getElem?_setProgress_cases hrun hj with ⟨rfl, rfl⟩ | ⟨_, hj⟩
    · exact ⟨run, hrun, hgo⟩
    · exact ⟨run', hj, GoesOn.refl _ _ _ _⟩
  · obtain ⟨run', i, ⟨hrun', hi⟩, hstarted, hlt, hown⟩ := h.sending hsend
    by_cases heq : j = k
    · subst heq
      rw [hrun] at hrun'
      cases hrun'
      exact ⟨_, i, ⟨getElem?_setProgress_self p hrun, hi⟩, fun hp => hstarted (hgo.started hp), hlt,
        fun hw => hown (hgo.waiting hw)⟩
    · exact ⟨run', i, ⟨(getElem?_setProgress_of_ne p heq).trans hrun', hi⟩, hstarted, hlt, hown⟩

/-- A handler ends. -/
theorem goesOn_end {node' : Node} {k : Nat} {run : HandlerRun} {p : Progress}
    (hend : p.live = false)
    (hsub : ∀ i, run.index = some i → node'.applied ≤ i → i ∈ node'.commitSubs)
    (hans : ∀ body, p = .answered (.ok body) → Reports n node' k { run with progress := p } body) :
    GoesOn n node' k run { run with progress := p } where
  handler := rfl
  index := rfl
  started hp := by subst hp; cases hend
  waiting hw := by have := live_of_isWaiting hw; rw [hend] at this; cases this
  live hl := by rw [hend] at hl; cases hl
  ended hi _ hle := .inr (hsub _ hi hle)
  served _ hp := by subst hp; cases hend
  inbox _ hp := by subst hp; cases hend
  answers hp := .inr (hans _ hp)

theorem NodeInv.receive (h : NodeInv n node) {k : Nat} {run : HandlerRun} {r : Option CommitCmd}
    (hrun : node.handlers[k]? = some run) (hinbox : run.progress = .waiting (some r)) :
    NodeInv n (node.setProgress k (match run.handler.respond n r with
      | some resp => .answered resp
      | none => .gone)) := by
  have hserved : ∀ i, run.index = some i → i < node.applied := fun i hi => h.served ⟨hrun, hi⟩ hinbox
  refine h.setProgress hrun (goesOn_end ?_ (fun i hi hle => ?_) fun body hp => ?_)
  · cases run.handler.respond n r <;> rfl
  · exact absurd (hserved i hi) (Nat.not_lt_of_le hle)
  · -- an OK answer comes from a command that passed the test
    cases hresp : run.handler.respond n r with
    | none => rw [hresp] at hp; cases hp
    | some resp =>
      rw [hresp] at hp
      cases hp
      obtain ⟨c, rfl, hid, hbody⟩ := Handler.respond_eq_ok hresp
      obtain ⟨i, hi⟩ := h.indexed hrun (by rw [hinbox]; rfl)
      obtain ⟨e, hl, hown⟩ := h.inbox ⟨hrun, hi⟩ hinbox
      exact ⟨i, c, hi, by rw [← hown hid]; exact hl, hbody⟩

theorem NodeInv.disconnect (h : NodeInv n node) {k : Nat} {run : HandlerRun}
    {inbox : Option (Option CommitCmd)} (hrun : node.handlers[k]? = some run)
    (hwaits : run.progress = .waiting inbox) : NodeInv n (node.setProgress k .gone) := by
  refine h.setProgress hrun (goesOn_end rfl (fun i hi hle => ?_) fun _ hp => nomatch hp)
  -- the subscription it waited on stays
  exact Finmap.mem_iff.mpr ⟨k, h.waits ⟨hrun, hi⟩ (by rw [hwaits]; rfl) hle⟩

/-- The handler that `createCommitSubscription` panics in. -/
theorem NodeInv.crash (h : NodeInv n node) {k : Nat} {run : HandlerRun} {i : Nat}
    (hrun : RunAt node k run i) (hpresent : i ∈ node.commitSubs) :
    NodeInv n (node.setProgress k .gone) := by
  refine h.setProgress hrun.1 (goesOn_end rfl (fun j hj _ => ?_) fun _ hp => nomatch hp)
  obtain rfl := Option.some.inj (hrun.2.symm.trans hj)
  exact hpresent

/-- A handler that finds its index free waits on it. It is alone there: another
live handler would share the index, and an ended one would have left its
subscription. -/
theorem NodeInv.wait (h : NodeInv n node) {k : Nat} {run : HandlerRun} {i : Nat}
    (hrun : RunAt node k run i) (hsubmitted : run.progress = .submitted)
    (hfree : i ∉ node.commitSubs) :
    NodeInv n { node.setProgress k (.waiting none) with
      commitSubs := node.commitSubs.insert i k } := by
  have hlive : run.progress.live = true := by rw [hsubmitted]; rfl
  -- a handler that has a subscription is another one
  have hne : ∀ {k' : Nat} {run' : HandlerRun}, node.handlers[k']? = some run' →
      run'.progress ≠ .submitted → k' ≠ k := by
    intro k' run' hk' hstarted heq
    subst heq
    rw [hrun.1] at hk'
    cases hk'
    exact hstarted hsubmitted
  have hback : ∀ {k' run' j}, (node.setProgress k (.waiting none)).handlers[k']? = some run' →
      run'.index = some j → ∃ old, RunAt node k' old j ∧
        (run'.progress.live = true → old.progress.live = true) := by
    intro k' run' j hk' hj
    rcases getElem?_setProgress_cases hrun.1 hk' with ⟨rfl, rfl⟩ | ⟨_, hk'⟩
    · exact ⟨run, ⟨hrun.1, hj⟩, fun _ => hlive⟩
    · exact ⟨_, ⟨hk', hj⟩, id⟩
  have hother : ∀ {j}, j ∈ node.commitSubs → j ≠ i := fun hj he => hfree (he ▸ hj)
  refine {
    applied_le := h.applied_le, recorded := h.recorded,
    subs := ?subs, indexed := ?indexed, waits := ?waits, ended := ?ended, single := ?single,
    alone := ?alone, served := ?served, sending := ?sending, inbox := ?inbox,
    answers := ?answers }
  case subs =>
    intro j k' hl
    rw [Finmap.lookup_insert_ite] at hl
    split at hl
    · next heq =>
      cases hl
      exact ⟨_, ⟨getElem?_setProgress_self _ hrun.1, heq ▸ hrun.2⟩, fun hp => nomatch hp⟩
    · obtain ⟨run', ⟨hrun', hj⟩, hstarted⟩ := h.subs hl
      exact ⟨run', ⟨(getElem?_setProgress_of_ne _ (hne hrun' hstarted)).trans hrun', hj⟩, hstarted⟩
  case indexed =>
    intro k' run' hk' hw
    rcases getElem?_setProgress_cases hrun.1 hk' with ⟨rfl, rfl⟩ | ⟨_, hk'⟩
    · exact ⟨i, hrun.2⟩
    · exact h.indexed hk' hw
  case waits =>
    intro k' run' j hr hw hle
    rw [Finmap.lookup_insert_ite]
    rcases getElem?_setProgress_cases hrun.1 hr.1 with ⟨rfl, rfl⟩ | ⟨_, hk'⟩
    · rw [if_pos (Option.some.inj (hr.2.symm.trans hrun.2))]
    · have hl := h.waits ⟨hk', hr.2⟩ hw hle
      rw [if_neg (hother (Finmap.mem_iff.mpr ⟨_, hl⟩))]
      exact hl
  case ended =>
    intro k' run' j hr he hle
    rcases getElem?_setProgress_cases hrun.1 hr.1 with ⟨rfl, rfl⟩ | ⟨_, hk'⟩
    · cases he
    · exact Finmap.mem_insert.mpr (.inr (h.ended ⟨hk', hr.2⟩ he hle))
  case single =>
    intro k₁ k₂ run₁ run₂ j hr1 hr2 hle hl1 hl2
    obtain ⟨old1, hold1, hlive1⟩ := hback hr1.1 hr1.2
    obtain ⟨old2, hold2, hlive2⟩ := hback hr2.1 hr2.2
    exact h.single hold1 hold2 hle (hlive1 hl1) (hlive2 hl2)
  case alone =>
    intro k₁ k₂ run₁ run₂ j hr1 hr2 hle hw
    obtain ⟨old2, hold2, _⟩ := hback hr2.1 hr2.2
    rcases getElem?_setProgress_cases hrun.1 hr1.1 with ⟨rfl, rfl⟩ | ⟨_, hk1⟩
    · obtain rfl : i = j := Option.some.inj (hrun.2.symm.trans hr1.2)
      cases hl2 : old2.progress.live with
      | true => exact h.single hrun hold2 hle hlive hl2
      | false => exact absurd (h.ended hold2 hl2 hle) hfree
    · exact h.alone ⟨hk1, hr1.2⟩ hold2 hle hw
  case served =>
    intro k' run' j r hr hp
    rcases getElem?_setProgress_cases hrun.1 hr.1 with ⟨rfl, rfl⟩ | ⟨_, hk'⟩
    · cases hp
    · exact h.served ⟨hk', hr.2⟩ hp
  case sending =>
    intro k' c hsend
    obtain ⟨run', j, hr, hstarted, hlt, hown⟩ := h.sending hsend
    exact ⟨run', j, ⟨(getElem?_setProgress_of_ne _ (hne hr.1 hstarted)).trans hr.1, hr.2⟩, hstarted,
      hlt, hown⟩
  case inbox =>
    intro k' run' j c hr hp
    rcases getElem?_setProgress_cases hrun.1 hr.1 with ⟨rfl, rfl⟩ | ⟨_, hk'⟩
    · cases hp
    · exact h.inbox ⟨hk', hr.2⟩ hp
  case answers =>
    intro k' run' body hk' hp
    rcases getElem?_setProgress_cases hrun.1 hk' with ⟨rfl, rfl⟩ | ⟨_, hk'⟩
    · cases hp
    · exact h.answers hk' hp

/-- A handler arrives: it was turned away, or it has an index on which no live
handler is. -/
theorem NodeInv.addHandler (h : NodeInv n node) (run : HandlerRun)
    (hrun : (run.index = none ∧ run.progress = .answered .notLeader) ∨
      (run.progress = .submitted ∧ ∀ run' ∈ node.handlers, run'.progress.live = true →
        run'.index ≠ run.index)) :
    NodeInv n { node with handlers := node.handlers ++ [run] } := by
  have hold : ∀ {k : Nat} {run' : HandlerRun}, node.handlers[k]? = some run' →
      (node.handlers ++ [run])[k]? = some run' := getElem?_append_of_some
  have hfresh : run.progress.isWaiting = false := by
    rcases hrun with ⟨_, hp⟩ | ⟨hp, _⟩ <;> rw [hp] <;> rfl
  -- no live handler has the index of the new one
  have hclash : ∀ {k : Nat} {run' : HandlerRun} {i : Nat}, node.handlers[k]? = some run' →
      run'.progress.live = true → run'.index = some i → run.index ≠ some i := by
    intro k run' i hk hl hi hnew
    rcases hrun with ⟨hnone, _⟩ | ⟨_, hguard⟩
    · rw [hnone] at hnew
      cases hnew
    · exact hguard _ (List.mem_of_getElem? hk) hl (hi.trans hnew.symm)
  refine {
    applied_le := h.applied_le, recorded := h.recorded,
    subs := ?subs, indexed := ?indexed, waits := ?waits, ended := ?ended, single := ?single,
    alone := ?alone, served := ?served, sending := ?sending, inbox := ?inbox,
    answers := ?answers }
  case subs =>
    intro i k hl
    obtain ⟨run', ⟨hk, hi⟩, hstarted⟩ := h.subs hl
    exact ⟨run', ⟨hold hk, hi⟩, hstarted⟩
  case indexed =>
    intro k run' hk hw
    rcases getElem?_concat hk with hk | ⟨_, rfl⟩
    · exact h.indexed hk hw
    · rw [hfresh] at hw; cases hw
  case waits =>
    intro k run' i hr hw hle
    rcases getElem?_concat hr.1 with hk | ⟨_, rfl⟩
    · exact h.waits ⟨hk, hr.2⟩ hw hle
    · rw [hfresh] at hw; cases hw
  case ended =>
    intro k run' i hr he hle
    rcases getElem?_concat hr.1 with hk | ⟨_, rfl⟩
    · exact h.ended ⟨hk, hr.2⟩ he hle
    · rcases hrun with ⟨hnone, _⟩ | ⟨hp, _⟩
      · rw [hr.2] at hnone; cases hnone
      · rw [hp] at he; cases he
  case single =>
    intro k k' run₁ run₂ i hr hr' hle hl hl'
    rcases getElem?_concat hr.1 with hk | ⟨rfl, rfl⟩
    · rcases getElem?_concat hr'.1 with hk' | ⟨_, rfl⟩
      · exact h.single ⟨hk, hr.2⟩ ⟨hk', hr'.2⟩ hle hl hl'
      · exact absurd hr'.2 (hclash hk hl hr.2)
    · rcases getElem?_concat hr'.1 with hk' | ⟨rfl, _⟩
      · exact absurd hr.2 (hclash hk' hl' hr'.2)
      · rfl
  case alone =>
    intro k k' run₁ run₂ i hr hr' hle hw
    rcases getElem?_concat hr.1 with hk | ⟨_, rfl⟩
    · rcases getElem?_concat hr'.1 with hk' | ⟨_, rfl⟩
      · exact h.alone ⟨hk, hr.2⟩ ⟨hk', hr'.2⟩ hle hw
      · exact absurd hr'.2 (hclash hk (live_of_isWaiting hw) hr.2)
    · rw [hfresh] at hw; cases hw
  case served =>
    intro k run' i r hr hp
    rcases getElem?_concat hr.1 with hk | ⟨_, rfl⟩
    · exact h.served ⟨hk, hr.2⟩ hp
    · rw [hp] at hfresh; cases hfresh
  case sending =>
    intro k c hs
    obtain ⟨run', i, ⟨hk, hi⟩, hrest⟩ := h.sending hs
    exact ⟨run', i, ⟨hold hk, hi⟩, hrest⟩
  case inbox =>
    intro k run' i c hr hp
    rcases getElem?_concat hr.1 with hk | ⟨_, rfl⟩
    · exact h.inbox ⟨hk, hr.2⟩ hp
    · rw [hp] at hfresh; cases hfresh
  case answers =>
    intro k run' body hk hp
    rcases getElem?_concat hk with hk | ⟨_, rfl⟩
    · exact h.answers hk hp
    · rcases hrun with ⟨_, hp'⟩ | ⟨hp', _⟩ <;> rw [hp] at hp' <;> cases hp'

/-- The leader appends an entry to its log. -/
theorem NodeInv.append (h : NodeInv n node) (item : LogItem) :
    NodeInv n { node with log := node.log ++ [item] } :=
  h.setLog node.isLeader (le_trans h.applied_le (by simp))

/-- A request that the leader accepts, at an index on which no live handler is. -/
theorem NodeInv.accept (h : NodeInv n node) (handler : Handler)
    (hguard : ∀ run ∈ node.handlers, run.progress.live = true →
      run.index ≠ some node.log.length) {item : LogItem} : NodeInv n { node with
      log := node.log ++ [item]
      handlers := node.handlers ++
        [{ handler := handler, index := some node.log.length, progress := .submitted }] } :=
  (h.append item).addHandler _ (.inr ⟨rfl, hguard⟩)

/-- What `handleCommand` pops is delivered to a waiting handler only if the entry
is its own or fails its test. -/
theorem NodeInv.apply {β : Type} (codec : SnapshotCodec β) (h : NodeInv n node) (env : Env)
    {e : Entry} (hlen : node.applied < node.log.length)
    (hown : ∀ k run, RunAt node k run node.applied → run.progress.isWaiting = true →
      e.cmd.serviceID = n → e = { cmd := run.handler.command n, origin := some (n, k) }) :
    NodeInv n (node.apply codec env e) := by
  have hother : ∀ {i}, i < node.applied → i ≠ node.applied := fun hi => Nat.ne_of_lt hi
  refine h.goesOn hlen (Nat.le_succ _) (fun i hi => ?_) (fun i k hl => ?_) (fun i hi => ?_)
    (fun i hi => ?_) (fun k run hk => ⟨run, hk, GoesOn.refl _ _ _ _⟩) rfl (fun {k c} hs => ?_)
  · have hi : node.applied + 1 ≤ i := hi
    simp only [Node.apply, Finmap.lookup_erase_ite]
    rw [if_neg (by omega)]
  · simp only [Node.apply, Finmap.lookup_erase_ite] at hl
    split at hl
    · cases hl
    · exact hl
  · simp only [Node.apply]
    exact Finmap.lookup_insert_of_ne _ (hother hi)
  · rcases Finmap.mem_insert.mp hi with rfl | hi
    · exact Nat.lt_succ_self _
    · exact Nat.lt_succ_of_lt (h.recorded i hi)
  · simp only [Node.apply, Option.map_eq_some_iff, Prod.mk.injEq] at hs
    obtain ⟨k', hl, rfl, rfl⟩ := hs
    obtain ⟨run, hrun, hstarted⟩ := h.subs hl
    refine ⟨run, node.applied, hrun, hstarted, Nat.lt_succ_self _, fun hw => ?_⟩
    refine ⟨e, Finmap.lookup_insert _, fun hid => hown _ run hrun hw ?_⟩
    rwa [KVService.handleCommand_cmd, KVService.applyCommand_toCommand] at hid

/-- A configuration change leaves the subscription of its index where it is. -/
theorem NodeInv.pass (h : NodeInv n node) (hlen : node.applied < node.log.length) :
    NodeInv n node.passConfigChange := by
  refine h.goesOn hlen (Nat.le_succ _) (fun _ _ => rfl) (fun _ _ hl => hl) (fun _ _ => rfl)
    (fun i hi => Nat.lt_succ_of_lt (h.recorded i hi))
    (fun _ run hk => ⟨run, hk, GoesOn.refl _ _ _ _⟩) rfl fun hs => ?_
  obtain ⟨run, i, hrun, hstarted, hlt, hown⟩ := h.sending hs
  exact ⟨run, i, hrun, hstarted, Nat.lt_succ_of_lt hlt, hown⟩

theorem NodeInv.clearSending (h : NodeInv n node) : NodeInv n { node with sending := none } :=
  h.goesOn h.applied_le le_rfl (fun _ _ => rfl) (fun _ _ hl => hl) (fun _ _ => rfl) h.recorded
    (fun _ run hk => ⟨run, hk, GoesOn.refl _ _ _ _⟩) rfl fun hs => nomatch hs

/-- The send that the waiting handler gets. -/
theorem NodeInv.deliver (h : NodeInv n node) {k : Nat} {c : CommitCmd} {run : HandlerRun}
    (hs : node.sending = some (k, c)) (hrun : node.handlers[k]? = some run)
    (hwaits : run.progress = .waiting none) :
    NodeInv n { node.setProgress k (.waiting (some (some c))) with sending := none } := by
  refine NodeInv.clearSending ?_
  obtain ⟨run', i, hat, _, hlt, hown⟩ := h.sending hs
  obtain rfl : run = run' := Option.some.inj (hrun.symm.trans hat.1)
  have hindex : ∀ {j}, run.index = some j → j = i := fun hj =>
    Option.some.inj (hj.symm.trans hat.2)
  refine h.setProgress hrun ⟨rfl, rfl, nofun, fun _ => by rw [hwaits]; rfl,
    fun _ => by rw [hwaits]; rfl, nofun, fun hj _ => .inr (hindex hj ▸ hlt),
    fun hj hp => .inr ?_, nofun⟩
  cases hp
  cases hindex hj
  exact hown (by rw [hwaits]; rfl)

theorem NodeInv.restore {β : Type} (codec : SnapshotCodec β) (h : NodeInv n node) {index : Nat}
    (data : β) {committed : List LogItem} (hindex : node.applied ≤ index)
    (hcommitted : index < committed.length) (hfree : node.sending = none) :
    NodeInv n (node.restore codec index data committed) := by
  refine h.goesOn ?_ (Nat.le_succ_of_le hindex) (fun i hi => ?_) (fun i k hl => ?_)
    (fun _ _ => rfl) (fun i hi => Nat.lt_succ_of_lt (lt_of_lt_of_le (h.recorded i hi) hindex))
    (fun k run' hk => ?_) (List.length_mapIdx) (fun hs => ?_)
  · simp only [Node.restore, List.length_append, List.length_take]
    omega
  · have hi : index + 1 ≤ i := hi
    rw [lookup_restore_commitSubs, if_neg (by omega)]
  · rw [lookup_restore_commitSubs] at hl
    split at hl
    · cases hl
    · exact hl
  · rcases getElem?_restore_cases hk with ⟨run, i, hrun, hp, hle, _, rfl⟩ | ⟨hrun, _⟩
    · -- only subscriptions up to the index are closed
      refine ⟨run, hrun.1, rfl, rfl, fun h => (by cases h), fun _ => by rw [hp]; rfl,
        fun _ => by rw [hp]; rfl, fun _ h _ => (by cases h), fun hj _ => .inr ?_,
        fun _ h => (by cases h), fun h => (by cases h)⟩
      obtain rfl := Option.some.inj (hrun.2.symm.trans hj)
      exact Nat.lt_succ_of_le hle
    · exact ⟨run', hrun, GoesOn.refl _ _ _ _⟩
  · have hs : node.sending = _ := hs
    rw [hfree] at hs
    cases hs

end NodeInvariantLemmas

end Zodiac
