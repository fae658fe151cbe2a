import Zodiac.WatchStream

/-!
# The prefix of a watch

The delivery loop of `pushWatchEvent` compares each key with the prefix of the
subscription, but `Replay` returns the events of all keys and `handleWatch` writes
them as they come.

* `Filtered`: the queued and the written events have the prefix.
* `written_prefix_iff`: they have in the end, if and only if at the replay every
  event in the buffer past `since` has it.
* `replayed_other_key`: a watch of `a` that starts with an event of `b`.
-/

namespace Zodiac

/-- At the replay, all events past `since` that the buffer holds have the prefix. -/
def ReplayMatches (pre : String) (since : Int) (s : WatchStream) : WatchStep → Prop
  | .replay => ∀ e ∈ replay s.hub.eventBuf since, hasPrefix e.key pre = true
  | _ => True

instance (pre : String) (since : Int) (s : WatchStream) :
    (a : WatchStep) → Decidable (ReplayMatches pre since s a)
  | .replay => inferInstanceAs (Decidable (∀ e ∈ replay s.hub.eventBuf since, _ = true))
  | .push _ | .deliver | .subscribe | .receive | .otherSubscribe _ | .otherReceive _
  | .otherUnsubscribe _ => inferInstanceAs (Decidable True)

namespace WatchPrefixLemmas

open WatchStreamLemmas

/-- What a delivery puts into the channel has the prefix. A full channel drops it. -/
theorem mem_deliver_ch {sub : WatchSub} {e e' : WatchEvent} (h : e' ∈ (sub.deliver e).ch) :
    e' ∈ sub.ch ∨ hasPrefix e'.key sub.pre = true := by
  by_cases hroom : sub.ch.length < watchChanSize
  · rw [WatchSub.deliver_ch e hroom] at h
    rcases List.mem_append.mp h with h | h
    · exact .inl h
    · exact .inr (List.mem_filter.mp h).2
  · have hdrop : sub.deliver e = sub := by
      unfold WatchSub.deliver WatchSub.send
      rw [dif_neg hroom, ite_self]
    exact .inl (hdrop ▸ h)

/-- The subscription asks for the prefix, and all queued and written events have it. -/
structure Filtered (pre : String) (s : WatchStream) : Prop where
  queued : ∀ id, s.watcher.sub? = some id → id ≤ s.hub.watchSeq ∧
    ∃ sub, s.hub.watchSubs.lookup id = some sub ∧ sub.pre = pre ∧
      ∀ e ∈ sub.ch, hasPrefix e.key pre = true
  written : ∀ e ∈ s.written, hasPrefix e.key pre = true

variable {pre : String} {since : Int} {s : WatchStream}

theorem Filtered.init : Filtered pre (watchStream pre since).init where
  queued _ h := nomatch h
  written _ h := nomatch h

theorem Filtered.deliver (h : Filtered pre s) (e : WatchEvent) :
    Filtered pre { s with hub := s.hub.deliver e, inFlight := none } where
  queued id hid := by
    obtain ⟨hle, sub, hsub, hpre, hch⟩ := h.queued id hid
    refine ⟨hle, sub.deliver e, ?_, by rw [WatchSub.deliver_pre]; exact hpre, fun e' he' => ?_⟩
    · simp only [WatchHub.deliver, Finmap.lookup_mapVal, hsub, Option.map_some]
    · rcases mem_deliver_ch he' with hold | hnew
      · exact hch e' hold
      · exact hpre ▸ hnew
  written := h.written

theorem Filtered.receive (h : Filtered pre s) {id : Int} (hw : s.watcher = .streaming id)
    {e : WatchEvent} {hub : WatchHub} (hrecv : s.hub.receive id = some (e, hub)) :
    Filtered pre { s with hub := hub, written := s.written ++ [e] } := by
  obtain ⟨sub, sub', hsub, hch, rfl⟩ := hub_receive hrecv
  obtain ⟨hqueue, hpre'⟩ := WatchSub.receive_eq_some hch
  obtain ⟨hle, _, hsub', hpre, hall⟩ := h.queued id (by rw [hw]; rfl)
  rw [hsub] at hsub'
  cases hsub'
  rw [hqueue] at hall
  refine ⟨fun id' hid => ?_, fun e' he' => ?_⟩
  · obtain rfl : id = id' := by rw [hw] at hid; exact Option.some.inj hid
    exact ⟨hle, sub', Finmap.lookup_insert _, hpre'.trans hpre,
      fun e' he' => hall e' (List.mem_cons_of_mem _ he')⟩
  · rcases List.mem_append.mp he' with hold | hnew
    · exact h.written e' hold
    · rw [List.mem_singleton.mp hnew]
      exact hall e List.mem_cons_self

/-- Steps of other watchers leave this subscription alone. -/
theorem Filtered.other (h : Filtered pre s) {hub : WatchHub}
    (hseq : s.hub.watchSeq ≤ hub.watchSeq)
    (hsame : ∀ id, s.watcher.sub? = some id →
      hub.watchSubs.lookup id = s.hub.watchSubs.lookup id) :
    Filtered pre { s with hub := hub } where
  queued id hid := by
    obtain ⟨hle, hsub⟩ := h.queued id hid
    exact ⟨le_trans hle hseq, by rw [hsame id hid]; exact hsub⟩
  written := h.written

theorem Filtered.replay (h : Filtered pre s) {id : Int} (hw : s.watcher = .subscribed id)
    (hmatch : ReplayMatches pre since s .replay) :
    Filtered pre { s with
      watcher := .streaming id
      written := s.written ++ Zodiac.replay s.hub.eventBuf since } where
  queued id' hid := h.queued id' (by rw [hw]; exact hid)
  written e he := by
    rcases List.mem_append.mp he with hold | hnew
    · exact h.written e hold
    · exact hmatch e hnew

/-- Every step keeps the prefix, the replay under its condition. -/
theorem Filtered.step (h : Filtered pre s) {a : WatchStep} {s' : WatchStream}
    (hmatch : ReplayMatches pre since s a)
    (hstep : (watchStream pre since).step s a = some s') : Filtered pre s' := by
  cases stepsTo_of_step hstep with
  | push e _ => exact ⟨h.queued, h.written⟩
  | deliver _ => exact h.deliver _
  | subscribe _ =>
    refine ⟨fun id hid => ?_, h.written⟩
    cases hid
    exact ⟨le_rfl, newWatchSub pre, Finmap.lookup_insert _, rfl,
      fun _ he => absurd he List.not_mem_nil⟩
  | replay hw => exact h.replay hw hmatch
  | receive hw hrecv => exact h.receive hw hrecv
  | other _ hseq hsame => exact h.other hseq fun id hid => hsame id hid (h.queued id hid).1

/-- What is written stays written. -/
theorem written_mono {a : WatchStep} {s' : WatchStream} {e : WatchEvent} (he : e ∈ s.written)
    (hstep : (watchStream pre since).step s a = some s') : e ∈ s'.written := by
  cases stepsTo_of_step hstep with
  | push | deliver | subscribe | other => exact he
  | replay => exact List.mem_append_left _ he
  | receive => exact List.mem_append_left _ he

/-- A replay that does not match writes an event without the prefix. -/
theorem exists_written {a : WatchStep} {s' : WatchStream} (hno : ¬ ReplayMatches pre since s a)
    (hstep : (watchStream pre since).step s a = some s') :
    ∃ e ∈ s'.written, hasPrefix e.key pre ≠ true := by
  cases a with
  | replay =>
    simp only [ReplayMatches, not_forall] at hno
    obtain ⟨e, he, hkey⟩ := hno
    simp only [watchStream] at hstep
    split at hstep
    · cases hstep
      exact ⟨e, List.mem_append_right _ he, hkey⟩
    · cases hstep
  | _ => exact absurd trivial hno

/-- From any state where the prefix has been kept so far. -/
theorem written_iff_execWhen {as : List WatchStep} : ∀ {s s' : WatchStream}, Filtered pre s →
    (watchStream pre since).exec s as = some s' →
    ((∀ e ∈ s'.written, hasPrefix e.key pre = true) ↔
      (watchStream pre since).execWhen (ReplayMatches pre since) s as = some s') := by
  induction as with
  | nil => exact fun h hrun => iff_of_true (Option.some.inj hrun ▸ h.written) hrun
  | cons a as ih =>
    intro s s' h hrun
    rw [Machine.exec_cons] at hrun
    obtain ⟨s1, hstep, hrest⟩ := Option.bind_eq_some_iff.mp hrun
    rw [Machine.execWhen_cons _ _ as hstep]
    by_cases hmatch : ReplayMatches pre since s a
    · rw [if_pos hmatch]
      exact ih (h.step hmatch hstep) hrest
    · -- the event without the prefix is still there in the end
      obtain ⟨e, he, hkey⟩ := exists_written hmatch hstep
      have hlast : e ∈ s'.written := Machine.exec_invariant (P := fun s => e ∈ s.written)
        (fun _ _ _ hold hs => written_mono hold hs) he hrest
      rw [if_neg hmatch]
      exact iff_of_false (fun hall => hkey (hall e hlast)) (by simp)

end WatchPrefixLemmas

open WatchPrefixLemmas

/-! ## Main results -/

/-- For every run of one watcher, the apply loop and other watchers, in any
interleaving: all events written to the watcher have its prefix if and only if, when it
replayed the buffer, every event past `since` in there had it. The live part of the
stream needs no condition. -/
theorem written_prefix_iff (pre : String) (since : Int) (as : List WatchStep) {s : WatchStream}
    (hrun : (watchStream pre since).exec (watchStream pre since).init as = some s) :
    (∀ e ∈ s.written, hasPrefix e.key pre = true) ↔
      (watchStream pre since).execWhen (ReplayMatches pre since) (watchStream pre since).init as =
        some s :=
  written_iff_execWhen .init hrun

/-- An event of a key that does not start with `a`. -/
def otherKeyEvent : WatchEvent := { key := "b", value := "x", revision := 3, type := .put }

/-- In `overlappingRun`, continued with an event of another key, the watcher of `a` gets
events of `a` and `ab` only. -/
theorem written_prefix_overlapping :
    ∃ s, (watchStream "a" 0).exec (watchStream "a" 0).init
        (overlappingRun ++ [.push otherKeyEvent, .deliver]) = some s ∧
      s.written = [firstEvent, secondEvent, firstEvent] ∧
      ∀ e ∈ s.written, hasPrefix e.key "a" = true := by
  have hwritten : ((watchStream "a" 0).execWhen (ReplayMatches "a" 0) (watchStream "a" 0).init
      (overlappingRun ++ [.push otherKeyEvent, .deliver])).map (fun s => s.written) =
        some [firstEvent, secondEvent, firstEvent] := by decide
  obtain ⟨s, hguarded, hs⟩ := Option.map_eq_some_iff.mp hwritten
  have hrun := Machine.exec_of_execWhen hguarded
  exact ⟨s, hrun, hs, (written_prefix_iff "a" 0 _ hrun).mpr hguarded⟩

/-- A put of `b` is in the buffer when a watch of `a` starts from the beginning, and
the replay writes it. -/
theorem replayed_other_key :
    ∃ s, (watchStream "a" 0).Reachable s ∧ s.written = [otherKeyEvent] ∧
      hasPrefix otherKeyEvent.key "a" = false := by
  obtain ⟨s, hreach, hs⟩ := Machine.exists_reachableBy (M := watchStream "a" 0)
    (G := fun _ _ => True) [.push otherKeyEvent, .deliver, .subscribe, .replay]
    (fun s => s.written) (x := [otherKeyEvent]) (by decide)
  exact ⟨s, hreach, hs, by decide⟩

end Zodiac
