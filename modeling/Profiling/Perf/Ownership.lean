import Profiling.Perf.Init

/-!
# Profiling.Perf.Ownership

What `perf_event_init_with_config` owns while it runs: the descriptors, the
mappings and the manager.

A log is replayed on a `Holding`, which faults at a call on something that is
not owned.  `createEvents` keeps the slots it has filled, or gives all of them
back; what goes wrong is that the fallback then works on with the manager that
`cleanup_events` has freed (`owned_iff_no_fallback`).
-/

namespace Profiling

/-! ## Replaying a log -/

/-- What is owned at a point of a log. -/
structure Holding where
  fds : Multiset Int
  pages : Multiset Nat
  manager : Bool
  deriving DecidableEq

namespace Holding

/-- Nothing is owned. -/
def released : Holding := ⟨0, 0, false⟩

/-- One call; `none` if it is on something that is not owned. -/
def call (h : Holding) : PerfCall → Option Holding
  | .opened fd _ => some { h with fds := (fd : Int) ::ₘ h.fds }
  | .mapped page => some { h with pages := page ::ₘ h.pages }
  | .closed fd => if fd ∈ h.fds then some { h with fds := h.fds.erase fd } else none
  | .unmapped page => if page ∈ h.pages then some { h with pages := h.pages.erase page } else none
  | .freedManager => if h.manager then some { h with manager := false } else none
  | .usedManager => if h.manager then some h else none

/-- The calls of a log, one after another. -/
def replay (h : Holding) (log : List PerfCall) : Option Holding := log.foldlM call h

@[simp] theorem replay_nil (h : Holding) : h.replay [] = some h := rfl

@[simp] theorem replay_cons (h : Holding) (c : PerfCall) (log : List PerfCall) :
    h.replay (c :: log) = (h.call c).bind fun h => h.replay log := List.foldlM_cons

theorem replay_append (h : Holding) (log log' : List PerfCall) :
    h.replay (log ++ log') = (h.replay log).bind fun h => h.replay log' := List.foldlM_append

end Holding

/-- The manager is owned from the moment that it is allocated. -/
def PerfEnv.atStart (env : PerfEnv) : Holding :=
  ⟨0, 0, decide (0 ≤ env.nprocs) && env.callocManager⟩

/-- The descriptors in these slots. -/
def slotFds (events : Nat → EventSlot) (slots : List Nat) : Multiset Int :=
  slots.map fun i => (events i).fd

/-- The mappings in these slots. -/
def slotPages (events : Nat → EventSlot) (slots : List Nat) : Multiset Nat :=
  slots.filterMap fun i => (events i).mmapPage

/-- A manager owns its slots and nothing else: all its events are open and
mapped, and were opened with the same attributes. -/
structure PerfEventManager.Owns (m : PerfEventManager) (h : Holding) : Prop where
  fds : h.fds = slotFds m.events (List.range m.numEvents)
  pages : h.pages = slotPages m.events (List.range m.numEvents)
  manager : h.manager = true
  attr : ∃ pe, ∀ i < m.numEvents, (m.events i).attr = some pe
  mapped : ∀ i < m.numEvents, ((m.events i).mmapPage).isSome

/-- No call is on something that has been given back, and at the end a manager
owns what is left; without a manager nothing is left. -/
def Owned (env : PerfEnv) (result : Option PerfEventManager × List PerfCall) : Prop :=
  ∃ h, env.atStart.replay result.2 = some h ∧
    match result.1 with
    | some m => m.Owns h
    | none => h = Holding.released

/-! ## The loop over the CPUs -/

/-- All calls for a CPU succeed. -/
def PerfEnv.Creates (env : PerfEnv) (attempt cpu : Nat) : Prop :=
  (∃ fd, env.perfEventOpen attempt cpu = .ok fd) ∧ 0 ≤ env.pagesize attempt cpu ∧
    (env.mmap attempt cpu).isSome ∧ 0 ≤ env.pagesizeAgain attempt cpu

/-- The event is refused with an error that LBR may be the cause of. -/
def PerfEnv.Refuses (env : PerfEnv) (attempt cpu : Nat) : Prop :=
  ∃ errno, env.perfEventOpen attempt cpu = .error errno ∧ (errno = eInval ∨ errno = eOpNotSupp)

/-- The slots below `k` are filled, and they are what is owned. -/
structure PerfState.Filled (st : PerfState) (start : Holding) (pe : PerfEventAttr) (k : Nat) :
    Prop where
  replay : start.replay st.log =
    some ⟨slotFds st.events (List.range k), slotPages st.events (List.range k), true⟩
  fd : ∀ i < k, 0 ≤ (st.events i).fd
  attr : ∀ i < k, (st.events i).attr = some pe
  mapped : ∀ i < k, ((st.events i).mmapPage).isSome

section

variable {events : Nat → EventSlot} {st : PerfState} {start : Holding}
  {pe : PerfEventAttr} {k : Nat}

theorem slotFds_update {slots : List Nat} {cpu : Nat} (hcpu : cpu ∉ slots) (slot : EventSlot) :
    slotFds (Function.update events cpu slot) slots = slotFds events slots := by
  refine congrArg _ (List.map_congr_left fun i hi => ?_)
  rw [Function.update_of_ne (ne_of_mem_of_not_mem hi hcpu)]

theorem slotPages_update {slots : List Nat} {cpu : Nat} (hcpu : cpu ∉ slots) (slot : EventSlot) :
    slotPages (Function.update events cpu slot) slots = slotPages events slots := by
  refine congrArg _ (List.filterMap_congr fun i hi => ?_)
  rw [Function.update_of_ne (ne_of_mem_of_not_mem hi hcpu)]

/-- The calls of `cleanup_events` on some slots give back what is in them. -/
theorem replay_release (events : Nat → EventSlot) (slots : List Nat)
    (hfd : ∀ i ∈ slots, 0 ≤ (events i).fd) :
    Holding.replay ⟨slotFds events slots, slotPages events slots, true⟩
      (slots.flatMap fun i =>
        (if 0 ≤ (events i).fd then [.closed (events i).fd] else [])
          ++ (events i).mmapPage.toList.map .unmapped) = some ⟨0, 0, true⟩ := by
  induction slots with
  | nil => rfl
  | cons i slots ih =>
      have hfds : slotFds events (i :: slots) = (events i).fd ::ₘ slotFds events slots := rfl
      rw [List.flatMap_cons, Holding.replay_append, if_pos (hfd i List.mem_cons_self), hfds]
      have ih := ih fun j hj => hfd j (List.mem_cons_of_mem i hj)
      cases hpage : (events i).mmapPage with
      | none =>
          have hpages : slotPages events (i :: slots) = slotPages events slots := by
            simp [slotPages, hpage]
          simpa [Holding.call, hpages] using ih
      | some page =>
          have hpages : slotPages events (i :: slots) = page ::ₘ slotPages events slots := by
            simp [slotPages, hpage]
          simpa [Holding.call, hpages] using ih

/-- After `cleanup_events` nothing is owned. -/
theorem replay_cleanupEvents {last : Nat}
    (hlog : start.replay st.log =
      some ⟨slotFds st.events (List.range last), slotPages st.events (List.range last), true⟩)
    (hfd : ∀ i < last, 0 ≤ (st.events i).fd) :
    start.replay (st.cleanupEvents last).log = some Holding.released := by
  have hrelease := replay_release st.events (List.range last)
    fun i hi => hfd i (List.mem_range.mp hi)
  rw [PerfState.cleanupEvents, PerfState.logged, Holding.replay_append, hlog, Option.bind_some,
    Holding.replay_cons, Holding.call, if_pos rfl, Option.bind_some, Holding.replay_append,
    hrelease]
  rfl

/-- A slot that is written while its descriptor, and maybe its mapping, are
owned. -/
theorem PerfState.Filled.replay_writeSlot (h : st.Filled start pe k) (fd : Nat) (slot : EventSlot)
    (hfd : slot.fd = fd) :
    start.replay (((st.logged (.opened fd pe :: slot.mmapPage.toList.map .mapped)).writeSlot k
        slot).log) =
      some ⟨slotFds (Function.update st.events k slot) (List.range (k + 1)),
        slotPages (Function.update st.events k slot) (List.range (k + 1)), true⟩ := by
  have hk : k ∉ List.range k := by simp
  have hfds : slotFds (Function.update st.events k slot) (List.range (k + 1)) =
      (fd : Int) ::ₘ slotFds st.events (List.range k) := by
    rw [← slotFds_update hk slot, ← hfd, List.range_succ]
    simp [slotFds, ← Multiset.coe_add, add_comm, Multiset.singleton_add]
  have hpages : slotPages (Function.update st.events k slot) (List.range (k + 1)) =
      slot.mmapPage.toList + slotPages st.events (List.range k) := by
    rw [← slotPages_update hk slot, List.range_succ]
    cases hpage : slot.mmapPage <;>
      simp [slotPages, hpage, ← Multiset.coe_add, add_comm]
  rw [hfds, hpages, PerfState.writeSlot, PerfState.logged, Holding.replay_append,
    Holding.replay_append, h.replay]
  cases slot.mmapPage <;> simp [Holding.call]

end

section

variable {env : PerfEnv} {attempt : Nat} {pe : PerfEventAttr} {lbrEnabled : Bool}
  {start : Holding} {st st' : PerfState}

/-- The slot of the next CPU is filled. -/
theorem PerfState.Filled.write {k : Nat} (h : st.Filled start pe k) (fd : Nat) (slot : EventSlot)
    (hfd : slot.fd = fd) (hattr : slot.attr = some pe) (hpage : slot.mmapPage.isSome) :
    ((st.logged (.opened fd pe :: slot.mmapPage.toList.map .mapped)).writeSlot k slot).Filled
      start pe (k + 1) := by
  have hslots : ∀ (P : EventSlot → Prop), P slot → (∀ i < k, P (st.events i)) →
      ∀ i < k + 1, P (Function.update st.events k slot i) := by
    intro P hslot hold i hi
    by_cases hik : i = k
    · rw [hik, Function.update_self]
      exact hslot
    · rw [Function.update_of_ne hik]
      exact hold i (by omega)
  exact ⟨h.replay_writeSlot fd slot hfd, hslots (0 ≤ ·.fd) (by simp [hfd]) h.fd,
    hslots (·.attr = some pe) hattr h.attr, hslots (·.mmapPage.isSome) hpage h.mapped⟩

/-- The slot of a CPU whose event cannot be mapped or used goes back with the others. -/
theorem PerfState.Filled.discard {k : Nat} (h : st.Filled start pe k) (fd : Nat) (slot : EventSlot)
    (hfd : slot.fd = fd) :
    start.replay ((((st.logged (.opened fd pe :: slot.mmapPage.toList.map .mapped)).writeSlot k
      slot).cleanupEvents (k + 1)).log) = some Holding.released := by
  refine replay_cleanupEvents (h.replay_writeSlot fd slot hfd) fun i hi => ?_
  by_cases hik : i = k
  · simp [PerfState.writeSlot, hik, hfd]
  · simpa [PerfState.writeSlot, PerfState.logged, hik] using h.fd i (by omega)

/-- **What the loop owns.**  It fills the slots of all its CPUs, or it gives
everything back. -/
theorem createEvents_owned {k m : Nat} {how : LoopEnd} (h : st.Filled start pe k)
    (hloop : createEvents env attempt pe lbrEnabled (List.range' k m) st = (st', how)) :
    (how = .done → st'.Filled start pe (k + m)) ∧
      (how ≠ .done → start.replay st'.log = some Holding.released) := by
  induction m generalizing k st with
  | zero =>
      obtain ⟨rfl, rfl⟩ := Prod.mk.inj hloop
      exact ⟨fun _ => h, fun hne => absurd rfl hne⟩
  | succ m ih =>
      rw [List.range'_succ, createEvents] at hloop
      cases hopen : env.perfEventOpen attempt k with
      | error errno =>
          have hrel := replay_cleanupEvents h.replay h.fd
          simp only [hopen] at hloop
          split at hloop <;>
            · obtain ⟨rfl, rfl⟩ := Prod.mk.inj hloop
              exact ⟨by simp, fun _ => hrel⟩
      | ok fd =>
          simp only [hopen] at hloop
          split at hloop
          · obtain ⟨rfl, rfl⟩ := Prod.mk.inj hloop
            exact ⟨by simp, fun _ => h.discard fd _ rfl⟩
          · cases hmap : env.mmap attempt k with
            | none =>
                simp only [hmap] at hloop
                obtain ⟨rfl, rfl⟩ := Prod.mk.inj hloop
                exact ⟨by simp, fun _ => h.discard fd _ rfl⟩
            | some page =>
                simp only [hmap] at hloop
                split at hloop
                · obtain ⟨rfl, rfl⟩ := Prod.mk.inj hloop
                  refine ⟨by simp, fun _ => ?_⟩
                  simpa [PerfState.logged] using h.discard fd
                    ⟨fd, some pe, k, -1, some page, 1 * 1024 * 1024 + env.pagesize attempt k,
                      (st.events k).pagesize⟩ rfl
                · have hfilled := h.write fd
                    ⟨fd, some pe, k, -1, some page, 1 * 1024 * 1024 + env.pagesize attempt k,
                      env.pagesizeAgain attempt k⟩ rfl rfl rfl
                  rw [show k + (m + 1) = k + 1 + m by omega]
                  exact ih (by simpa [PerfState.logged] using hfilled) hloop

/-- The first one for which `Q` holds is at the head, or behind it if `P` holds there. -/
theorem exists_split_cons {P Q : Nat → Prop} {k : Nat} {cpus : List Nat} :
    (∃ before cpu rest, k :: cpus = before ++ cpu :: rest ∧ (∀ c ∈ before, P c) ∧ Q cpu) ↔
      Q k ∨ P k ∧ ∃ before cpu rest, cpus = before ++ cpu :: rest ∧ (∀ c ∈ before, P c) ∧ Q cpu := by
  constructor
  · rintro ⟨before, cpu, rest, heq, hbefore, hcpu⟩
    cases before with
    | nil =>
        obtain ⟨rfl, -⟩ := List.cons.inj heq
        exact .inl hcpu
    | cons b before =>
        obtain ⟨rfl, rfl⟩ := List.cons.inj heq
        exact .inr ⟨hbefore k List.mem_cons_self, before, cpu, rest, rfl,
          fun c hc => hbefore c (List.mem_cons_of_mem k hc), hcpu⟩
  · rintro (hk | ⟨hk, before, cpu, rest, rfl, hbefore, hcpu⟩)
    · exact ⟨[], k, cpus, rfl, by simp, hk⟩
    · exact ⟨k :: before, cpu, rest, rfl, by simpa [hk] using hbefore, hcpu⟩

/-- The loop asks for a retry when all calls succeed up to a CPU whose event is
refused. -/
theorem createEvents_retry_iff {cpus : List Nat} :
    (createEvents env attempt pe lbrEnabled cpus st).2 = .retry ↔
      lbrEnabled = true ∧ ∃ before cpu rest, cpus = before ++ cpu :: rest ∧
        (∀ c ∈ before, env.Creates attempt c) ∧ env.Refuses attempt cpu := by
  induction cpus generalizing st with
  | nil => simp [createEvents]
  | cons k cpus ih =>
      rw [exists_split_cons, createEvents]
      cases hopen : env.perfEventOpen attempt k with
      | error errno =>
          have hno : ¬env.Creates attempt k := by simp [PerfEnv.Creates, hopen]
          have hrefuses : env.Refuses attempt k ↔ errno = eInval ∨ errno = eOpNotSupp := by
            simp [PerfEnv.Refuses, hopen]
          simp only [hrefuses, hno, false_and, or_false]
          split
          · next hlbr => exact iff_of_true rfl hlbr
          · next hlbr => exact iff_of_false (by simp) hlbr
      | ok fd =>
          have hno : ¬env.Refuses attempt k := by simp [PerfEnv.Refuses, hopen]
          have hcreates : env.Creates attempt k ↔ 0 ≤ env.pagesize attempt k ∧
              (env.mmap attempt k).isSome ∧ 0 ≤ env.pagesizeAgain attempt k := by
            simp [PerfEnv.Creates, hopen]
          simp only [hcreates, hno, false_or]
          split
          · next hneg => exact iff_of_false (by simp) fun h => absurd h.2.1.1 (not_le.mpr hneg)
          · next hpos =>
            cases hmap : env.mmap attempt k with
            | none => simp
            | some page =>
                dsimp only
                split
                · next hneg =>
                  exact iff_of_false (by simp) fun h => absurd h.2.1.2.2 (not_le.mpr hneg)
                · next hpos' => simpa [not_lt.mp hpos, not_lt.mp hpos'] using ih

/-- A log that has faulted stays so. -/
theorem createEvents_fault {cpus : List Nat} (h : start.replay st.log = none) :
    start.replay (createEvents env attempt pe lbrEnabled cpus st).1.log = none := by
  have happend : ∀ calls, start.replay (st.log ++ calls) = none := fun calls => by
    rw [Holding.replay_append, h, Option.bind_none]
  induction cpus generalizing st with
  | nil => exact h
  | cons k cpus ih =>
      rw [createEvents]
      cases env.perfEventOpen attempt k with
      | error errno =>
          dsimp only
          split <;> exact happend _
      | ok fd =>
          dsimp only
          split
          · simpa [PerfState.cleanupEvents, PerfState.writeSlot, PerfState.logged] using happend _
          · cases env.mmap attempt k with
            | none =>
                simpa [PerfState.cleanupEvents, PerfState.writeSlot, PerfState.logged]
                  using happend _
            | some page =>
                dsimp only
                split
                · simpa [PerfState.cleanupEvents, PerfState.writeSlot, PerfState.logged]
                    using happend _
                · refine ih ?_ fun calls => ?_ <;>
                    simpa [PerfState.writeSlot, PerfState.logged] using happend _

/-- Whatever the loop does first, it uses the manager. -/
theorem createEvents_released {k : Nat} {cpus : List Nat}
    (h : start.replay st.log = some Holding.released) :
    start.replay (createEvents env attempt pe lbrEnabled (k :: cpus) st).1.log = none := by
  have hused : ∀ calls, start.replay (st.log ++ .usedManager :: calls) = none := fun calls => by
    rw [Holding.replay_append, h]
    rfl
  have hopened : ∀ fd calls,
      start.replay (st.log ++ .opened fd pe :: .usedManager :: calls) = none := fun fd calls => by
    rw [Holding.replay_append, h]
    rfl
  have hmapped : ∀ fd page calls,
      start.replay (st.log ++ .opened fd pe :: .mapped page :: .usedManager :: calls) = none :=
    fun fd page calls => by
      rw [Holding.replay_append, h]
      rfl
  rw [createEvents]
  cases env.perfEventOpen attempt k with
  | error errno =>
      dsimp only
      split <;> exact hused _
  | ok fd =>
      dsimp only
      split
      · simpa [PerfState.cleanupEvents, PerfState.writeSlot, PerfState.logged] using hopened fd _
      · cases env.mmap attempt k with
        | none =>
            simpa [PerfState.cleanupEvents, PerfState.writeSlot, PerfState.logged]
              using hopened fd _
        | some page =>
            dsimp only
            split
            · simpa [PerfState.cleanupEvents, PerfState.writeSlot, PerfState.logged]
                using hmapped fd page _
            · exact createEvents_fault (by
                simpa [PerfState.writeSlot, PerfState.logged] using hmapped fd page [])

end

/-! ## The whole function -/

/-- The fallback is taken: the events can be created up to one that is refused
with LBR on. -/
def Fallback (config : ProfilingConfig) (env : PerfEnv) : Prop :=
  0 ≤ env.nprocs ∧ env.callocManager = true ∧ env.callocEvents = true ∧ config.useLbr = true ∧
    ∃ cpu < env.nprocs.toNat, env.Refuses 0 cpu ∧ ∀ c < cpu, env.Creates 0 c

/-- A split of the CPUs at one of them. -/
theorem range_split_iff {n : Nat} {P Q : Nat → Prop} :
    (∃ before cpu rest, List.range n = before ++ cpu :: rest ∧ (∀ c ∈ before, P c) ∧ Q cpu) ↔
      ∃ cpu < n, Q cpu ∧ ∀ c < cpu, P c := by
  constructor
  · rintro ⟨before, cpu, rest, heq, hbefore, hcpu⟩
    have hlen := congrArg List.length heq
    rw [List.length_range, List.length_append, List.length_cons] at hlen
    have hget : (List.range n)[before.length]? = some cpu := by simp [heq]
    rw [List.getElem?_range (by omega)] at hget
    obtain rfl := Option.some.inj hget
    refine ⟨before.length, by omega, hcpu, fun c hc => hbefore c ?_⟩
    have hget : (List.range n)[c]? = before[c]? := by
      rw [heq, List.getElem?_append_left hc]
    rw [List.getElem?_range (by omega)] at hget
    exact List.mem_of_getElem? hget.symm
  · rintro ⟨cpu, hlt, hcpu, hbefore⟩
    refine ⟨List.range cpu, cpu, List.range' (cpu + 1) (n - cpu - 1), ?_,
      fun c hc => hbefore c (List.mem_range.mp hc), hcpu⟩
    have : n = cpu + (n - cpu - 1 + 1) := by omega
    rw [← List.range'_succ, List.range_eq_range', List.range_eq_range']
    nth_rewrite 1 [this]
    rw [← List.range'_append_1, Nat.zero_add]

/-- A second attempt works on what the first one has given back. -/
theorem retryCreate_fault (config : ProfilingConfig) {env : PerfEnv} {st : PerfState} {cpu n : Nat}
    (h : env.atStart.replay st.log = some Holding.released) (hcpu : cpu < n) :
    env.atStart.replay (retryCreate env config n 1 false st).1.log = none := by
  obtain ⟨n, rfl⟩ := Nat.exists_eq_succ_of_ne_zero (Nat.ne_zero_of_lt hcpu)
  rw [retryCreate, List.range_succ_eq_map]
  exact createEvents_released h

/-- **When nothing is lost.**  Every call that `perf_event_init_with_config`
makes is on something it owns, and it returns all that it owns or nothing, if
and only if the fallback is not taken. -/
theorem owned_iff_no_fallback (config : ProfilingConfig) (env : PerfEnv) :
    Owned env (perfEventInitWithConfig config env) ↔ ¬Fallback config env := by
  unfold perfEventInitWithConfig
  by_cases hnprocs : env.nprocs < 0
  · rw [if_pos hnprocs]
    refine iff_of_true ⟨_, rfl, ?_⟩ fun hf => absurd hf.1 (not_le.mpr hnprocs)
    simp [PerfEnv.atStart, Holding.released, hnprocs]
  rw [if_neg hnprocs]
  cases hmanager : env.callocManager with
  | false =>
      rw [if_pos rfl]
      refine iff_of_true ⟨_, rfl, ?_⟩ fun hf =>
        absurd hf.2.1 (by simp [hmanager])
      simp [PerfEnv.atStart, Holding.released, hmanager]
  | true =>
  have hstart : env.atStart = ⟨0, 0, true⟩ := by
    simp [PerfEnv.atStart, hmanager, not_lt.mp hnprocs]
  cases hevents : env.callocEvents with
  | false =>
      rw [if_neg (by decide), if_pos rfl]
      refine iff_of_true ⟨Holding.released, ?_, rfl⟩ fun hf =>
        absurd hf.2.2.1 (by simp [hevents])
      rw [hstart]
      rfl
  | true =>
  rw [if_neg (by decide), if_neg (by decide)]
  have hfallback : Fallback config env ↔ (retryCreate env config env.nprocs.toNat 0 config.useLbr
      ⟨fun _ => EventSlot.zero, []⟩).2 = .retry := by
    rw [retryCreate, createEvents_retry_iff, range_split_iff]
    simp [Fallback, not_lt.mp hnprocs, hmanager, hevents]
  have hempty : ∀ pe, PerfState.Filled ⟨fun _ => EventSlot.zero, []⟩ env.atStart pe 0 :=
    fun pe => ⟨by rw [hstart]; rfl, by simp, by simp, by simp⟩
  rw [hfallback]
  cases hfirst : retryCreate env config env.nprocs.toNat 0 config.useLbr
      ⟨fun _ => EventSlot.zero, []⟩ with
  | mk st how =>
      rw [retryCreate, List.range_eq_range'] at hfirst
      obtain ⟨hdone, hreleased⟩ := createEvents_owned (hempty _) hfirst
      rw [Nat.zero_add] at hdone
      cases how with
      | done =>
          have hfilled := hdone rfl
          exact iff_of_true ⟨_, hfilled.replay, rfl, rfl, rfl, ⟨_, hfilled.attr⟩, hfilled.mapped⟩
            (by simp)
      | failed => exact iff_of_true ⟨_, hreleased (by simp), rfl⟩ (by simp)
      | retry =>
          refine iff_of_false ?_ (by simp)
          -- there is a CPU, so the second attempt does something
          obtain ⟨-, -, -, -, cpu, hcpu, -⟩ := hfallback.mpr (by
            rw [retryCreate, List.range_eq_range', hfirst])
          have hfault := retryCreate_fault config (hreleased (by simp)) hcpu
          rintro ⟨h, hreplay, -⟩
          simp only [if_true] at hreplay
          split at hreplay <;> simp [hfault] at hreplay

/-- The kernel without branch stacks: the first event is refused, and the
second attempt fills the array that has been freed. -/
theorem fallback_uses_freed_manager :
    (∃ m log, perfEventInitWithConfig lbrConfig noLbrEnv = (some m, log) ∧
      noLbrEnv.atStart.replay log = none) ∧
    ¬∀ config env, Owned env (perfEventInitWithConfig config env) := by
  have hlog : noLbrEnv.atStart.replay (perfEventInitWithConfig lbrConfig noLbrEnv).2 = none := rfl
  refine ⟨⟨_, _, rfl, hlog⟩, fun hall => ?_⟩
  obtain ⟨h, hreplay, -⟩ := hall lbrConfig noLbrEnv
  rw [hlog] at hreplay
  cases hreplay

end Profiling
