import Freehold.Discovery.History

/-!
# How old an entry can be (`discovery.cpp`)

`prune_loop` sleeps `prune_interval` seconds before each sweep and wakes up late, if it does, by
at most `slack`. What the registry then says of a pair at any time is what was announced of it
last, and that is not long ago.

## Main results

* `exists_sweep` — a sweep comes soon after any time.
* `registry_of_pruneLoop` — what is listed, and what is resolved.
-/

namespace Freehold.Discovery

variable {nodeTtl : ℤ} {interval slack start now t : ℚ} {calls : List Call} {sweeps : List ℚ}
  {p q : ℤ}

/-! ## `prune_loop` -/

/-- When the sweep takes place. -/
def Call.sweep? : Call → Option ℚ
  | .pruneStale now => some now
  | _ => none

/-- The loop has slept once before each sweep, and is not late for the next one. -/
inductive Sleeps (interval slack now : ℚ) : ℚ → List ℚ → Prop where
  | asleep {last} (hdue : now < last + (interval + slack)) : Sleeps interval slack now last []
  | sweep {last u sweeps} (hsleep : last + interval ≤ u) (hwake : u ≤ last + (interval + slack))
      (hrest : Sleeps interval slack now u sweeps) : Sleeps interval slack now last (u :: sweeps)

/-- What the server has done from `start` to `now`, while `prune_loop` is running. -/
structure PruneLoop (interval slack start now : ℚ) (calls : List Call) : Prop where
  clocked : Clocked calls
  started : ∀ c ∈ calls, ∀ u ∈ c.now?, start ≤ u
  past : ∀ c ∈ calls, ∀ u ∈ c.now?, u ≤ now
  sleeps : Sleeps interval slack now start (calls.filterMap Call.sweep?)

theorem mem_sweeps {u : ℚ} : u ∈ calls.filterMap Call.sweep? ↔ .pruneStale u ∈ calls := by
  rw [List.mem_filterMap]
  constructor
  · rintro ⟨c, hc, hu⟩
    cases c with
    | registerNode => cases hu
    | updateRelayStatus => cases hu
    | pruneStale v =>
      cases hu
      exact hc
  · exact fun h => ⟨_, h, rfl⟩

/-- After a time at which it is too early to be now, the next sweep has taken place. -/
theorem Sleeps.exists_sweep {last : ℚ} (h : Sleeps interval slack now last sweeps)
    (hlast : last ≤ t) (hnow : t + (interval + slack) ≤ now) :
    ∃ u ∈ sweeps, t < u ∧ u ≤ t + (interval + slack) := by
  induction h with
  | asleep hdue => linarith
  | @sweep last u sweeps _ hwake _ ih =>
    by_cases hu : t < u
    · exact ⟨u, List.mem_cons_self, hu, by linarith⟩
    · obtain ⟨v, hv, hlt, hle⟩ := ih (not_lt.mp hu)
      exact ⟨v, List.mem_cons_of_mem _ hv, hlt, hle⟩

/-! ## The last announcement -/

/-- What was announced of the pair last: hostname, status and time. -/
def lastAnnounced (p q : ℤ) (calls : List Call) : Option (List Char × List Char × ℚ) :=
  (calls.filterMap (Call.registration p q)).getLast?

theorem lastAnnounced_of_entry {n : NodeInfo}
    (h : (registry nodeTtl calls)[nodeKey p q]? = some n) :
    lastAnnounced p q calls = some (n.hostname, n.status, n.lastSeen) := by
  obtain ⟨before, joining, since, rfl, hrecorded⟩ := exists_recorded h
  exact hrecorded.announced

/-- The call that announced it, with none for the pair behind it. -/
theorem exists_of_lastAnnounced {hostname status : List Char}
    (h : lastAnnounced p q calls = some (hostname, status, t)) :
    ∃ before after, calls = before ++ .registerNode p q hostname status t :: after ∧
      ∀ c ∈ after, c.registration p q = none := by
  induction calls using List.reverseRecOn with
  | nil => cases h
  | append_singleton calls c ih =>
    rw [lastAnnounced, getLast?_filterMap_snoc] at h
    cases hc : c.registration p q with
    | some r =>
      rw [hc] at h
      cases h
      obtain ⟨hostname', status', now', rfl⟩ :=
        registration_isSome_iff.mp (Option.isSome_iff_exists.mpr ⟨_, hc⟩)
      rw [Call.registration, if_pos ⟨rfl, rfl⟩] at hc
      cases hc
      exact ⟨calls, [], rfl, by simp⟩
    | none =>
      rw [hc, Option.none_or] at h
      obtain ⟨before, after, rfl, hafter⟩ := ih h
      refine ⟨before, after ++ [c], by simp, fun d hd => ?_⟩
      rcases List.mem_append.mp hd with hd | hd
      · exact hafter d hd
      · rw [List.mem_singleton.mp hd, hc]

/-- A pair that is not announced again and is not there stays away. -/
theorem getElem?_registry_append_of_none {before after : List Call}
    (habsent : (registry nodeTtl before)[nodeKey p q]? = none)
    (hafter : ∀ c ∈ after, c.registration p q = none) :
    (registry nodeTtl (before ++ after))[nodeKey p q]? = none := by
  induction after using List.reverseRecOn with
  | nil => rwa [List.append_nil]
  | append_singleton after c ih =>
    rw [← List.append_assoc, getElem?_registry_snoc,
      ih fun d hd => hafter d (List.mem_append_left _ hd)]
    have hc := hafter c (by simp)
    cases c with
    | registerNode p' q' hostname status u =>
      have hpair : ¬(p' = p ∧ q' = q) := by
        intro hpair
        rw [Call.registration, if_pos hpair] at hc
        cases hc
      rw [Call.step, if_neg hpair]
    | updateRelayStatus p' q' registered fqdn => simp [Call.step]
    | pruneStale u => rfl

/-- A sweep that comes more than `nodeTtl` after the last announcement leaves nothing. -/
theorem getElem?_registry_of_sweep {hostname status : List Char} (httl : 0 ≤ nodeTtl) {u : ℚ}
    (hclock : Clocked calls) (hlast : lastAnnounced p q calls = some (hostname, status, t))
    (hsweep : .pruneStale u ∈ calls) (hstale : nodeTtl < u - t) :
    (registry nodeTtl calls)[nodeKey p q]? = none := by
  obtain ⟨before, after, rfl, hafter⟩ := exists_of_lastAnnounced hlast
  have hzero : (0 : ℚ) ≤ nodeTtl := by exact_mod_cast httl
  -- the clock does not go back, so the sweep stands behind the announcement
  have hbehind : .pruneStale u ∈ after := by
    rcases List.mem_append.mp hsweep with hmem | hmem
    · obtain ⟨x, y, rfl⟩ := List.append_of_mem hmem
      have hsplit : Clocked (x ++ Call.pruneStale u ::
          (y ++ Call.registerNode p q hostname status t :: after)) := by
        simpa using hclock
      have hle : u ≤ t := hsplit.le rfl (List.mem_append_right y List.mem_cons_self) rfl
      linarith
    · rcases List.mem_cons.mp hmem with heq | hmem
      · cases heq
      · exact hmem
  obtain ⟨x, y, rfl⟩ := List.append_of_mem hbehind
  have hassoc : before ++ Call.registerNode p q hostname status t ::
      (x ++ Call.pruneStale u :: y) =
      ((before ++ Call.registerNode p q hostname status t :: x) ++ [Call.pruneStale u]) ++ y := by
    simp
  rw [hassoc]
  refine getElem?_registry_append_of_none ?_ fun c hc =>
    hafter c (List.mem_append_right x (List.mem_cons_of_mem _ hc))
  rw [getElem?_registry_snoc]
  cases hentry : (registry nodeTtl
      (before ++ Call.registerNode p q hostname status t :: x))[nodeKey p q]? with
  | none => rfl
  | some n =>
    have hseen : n.lastSeen = t := by
      obtain ⟨before', joining, since, hcalls, hrecorded⟩ := exists_recorded hentry
      have hannounced := hrecorded.announced
      have hnone : x.filterMap (Call.registration p q) = [] :=
        List.filterMap_eq_nil_iff.mpr fun c hc => hafter c (List.mem_append_left _ hc)
      rw [← hcalls, List.filterMap_append, List.filterMap_cons, hnone, Call.registration,
        if_pos ⟨rfl, rfl⟩, List.getLast?_concat] at hannounced
      cases hannounced
      rfl
    rw [Call.step, Option.filter_some, if_neg]
    rw [hseen, decide_eq_true_eq, not_le]
    exact hstale

/-! ## What the registry says -/

/-- The last announcement of a pair stands for `nodeTtl` seconds at least. -/
theorem PruneLoop.exists_entry {hostname status : List Char}
    (h : PruneLoop interval slack start now calls)
    (hlast : lastAnnounced p q calls = some (hostname, status, t)) (hfresh : now - t ≤ nodeTtl) :
    ∃ n, (registry nodeTtl calls)[nodeKey p q]? = some n ∧ n.hostname = hostname ∧
      n.status = status := by
  obtain ⟨before, after, hcalls, -⟩ := exists_of_lastAnnounced hlast
  obtain ⟨n, hn, -⟩ := exists_of_recent (hcalls ▸ h.clocked) fun u hu => by
    have hle := h.past (.pruneStale u)
      (hcalls ▸ List.mem_append_right _ (List.mem_cons_of_mem _ hu)) u rfl
    show u - t ≤ (nodeTtl : ℚ)
    linarith
  rw [← hcalls] at hn
  have hsays := lastAnnounced_of_entry hn
  rw [hlast] at hsays
  cases hsays
  exact ⟨n, hn, rfl, rfl⟩

/-- An entry is younger than `nodeTtl` and one turn of the loop. -/
theorem PruneLoop.age_lt {n : NodeInfo} (h : PruneLoop interval slack start now calls)
    (httl : 0 ≤ nodeTtl) (hn : (registry nodeTtl calls)[nodeKey p q]? = some n) :
    now - n.lastSeen < nodeTtl + (interval + slack) := by
  by_contra! hold
  have hlast := lastAnnounced_of_entry hn
  have hzero : (0 : ℚ) ≤ nodeTtl := by exact_mod_cast httl
  obtain ⟨before, after, hcalls, -⟩ := exists_of_lastAnnounced hlast
  have hstart := h.started (.registerNode p q n.hostname n.status n.lastSeen)
    (hcalls ▸ List.mem_append_right _ List.mem_cons_self) n.lastSeen rfl
  obtain ⟨u, hu, hlt, -⟩ := h.sleeps.exists_sweep (t := n.lastSeen + nodeTtl) (by linarith)
    (by linarith)
  have hgone := getElem?_registry_of_sweep httl h.clocked hlast (mem_sweeps.mp hu) (by linarith)
  rw [hn] at hgone
  cases hgone

/-- While `prune_loop` is running, at any time: the last announcement of a pair stands for
`nodeTtl` seconds; host name, status and time of an entry are those of the last announcement of
its pair, which is younger than `nodeTtl` and a turn of the loop; and a party is resolved if one of
its pairs was last announced online, within `nodeTtl`, and only to a pair that was last announced
online, within `nodeTtl` and a turn of the loop. -/
theorem registry_of_pruneLoop {nodeTtl : ℤ} (httl : 0 ≤ nodeTtl)
    (h : PruneLoop interval slack start now calls) :
    (∀ p q hostname status t, lastAnnounced p q calls = some (hostname, status, t) →
      now - t ≤ nodeTtl → ∃ n, (registry nodeTtl calls)[nodeKey p q]? = some n ∧
        n.hostname = hostname ∧ n.status = status) ∧
    (∀ p q n, (registry nodeTtl calls)[nodeKey p q]? = some n →
      lastAnnounced p q calls = some (n.hostname, n.status, n.lastSeen) ∧
        now - n.lastSeen < nodeTtl + (interval + slack)) ∧
    ∀ p, (∀ q hostname t, lastAnnounced p q calls = some (hostname, "online".toList, t) →
        now - t ≤ nodeTtl → (resolveParty (registry nodeTtl calls) p).isSome) ∧
      ∀ hostname q, resolveParty (registry nodeTtl calls) p = some (hostname, q) →
        ∃ t, lastAnnounced p q calls = some (hostname, "online".toList, t) ∧
          now - t < nodeTtl + (interval + slack) := by
  refine ⟨fun p q hostname status t => h.exists_entry,
    fun p q n hn => ⟨lastAnnounced_of_entry hn, h.age_lt httl hn⟩, fun p => ⟨?_, ?_⟩⟩
  · intro q hostname t hlast hfresh
    obtain ⟨n, hn, -, hstatus⟩ := h.exists_entry hlast hfresh
    have hsaid := exists_recorded hn
    obtain ⟨before, joining, since, -, hrecorded⟩ := hsaid
    exact resolveParty_isSome_iff.mpr ⟨_, n, hn, hrecorded.partyId, hstatus⟩
  · intro hostname q hanswer
    obtain ⟨k, n, hn, hparty, hstatus, heq⟩ := exists_of_resolveParty hanswer
    cases heq
    have hkey := eq_nodeKey_of_registry hn
    rw [hkey, hparty] at hn
    refine ⟨n.lastSeen, ?_, h.age_lt httl hn⟩
    rw [← hstatus]
    exact lastAnnounced_of_entry hn

/-- A node that announces itself once is there 31 seconds later, and gone with the next sweep. -/
def lateCalls : List Call :=
  [.registerNode 1 8080 "alice".toList "online".toList 1, .pruneStale 10, .pruneStale 20,
    .pruneStale 31]

theorem registry_of_pruneLoop_demo :
    ∃ t, lastAnnounced 1 8080 lateCalls = some ("alice".toList, "online".toList, t) ∧
      32 - t < (30 : ℤ) + ((10 : ℚ) + 1) := by
  have hloop : PruneLoop 10 1 0 32 lateCalls := by
    refine ⟨by decide +kernel, by decide +kernel, by decide +kernel, ?_⟩
    refine .sweep ?_ ?_ (.sweep ?_ ?_ (.sweep ?_ ?_ (.asleep ?_))) <;> norm_num
  exact ((registry_of_pruneLoop (by decide) hloop).2.2 1).2 _ _ (by decide +kernel)

end Freehold.Discovery
