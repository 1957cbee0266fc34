import QueueRate.Locks.Tidex

/-!
# The Tidex lock without `pthread_self()`: `lockrate_tidex_nps`

`tidex_nps_mutex.h` takes the thread's id from the thread-local
`tlThreadIndex`, which the first call of `lock` takes from the global
`globalThreadIndex` by a fetch-and-add; the global starts at `1`. So the ids
handed out are `1, 2, 3, …`, each to one thread: the ids taken are positive,
distinct and below `globalThreadIndex`, and a thread in a call has taken
one (`NpsInv`). That is `IdsOk` for the ids `tlThreadIndex`, and the chain
argument of `CoreInv` gives mutual exclusion with no assumption on the
threads (`tidex_nps_mutual_exclusion`).

The globals are process-wide: `lockrate` has one lock per queue, and a
thread's first call of any of them hands out its id (`State.takeId`). A
thread outside this lock taking its id keeps `NpsInv` (`NpsInv.takeId`), so
the results hold from any state that keeps it, not only from the first
lock's start.
-/

namespace QueueRate
namespace Tidex

variable {T : Type*} {s : State T}

/-- What every reachable state of the Tidex-NPS lock keeps: the chain
invariant for the ids `tlThreadIndex`, and how those ids were handed out. -/
structure NpsInv (s : State T) : Prop where
  core : CoreInv s.tlThreadIndex s
  globalPos : 0 < s.globalThreadIndex
  range : ∀ u, s.tlThreadIndex u ≠ invalidTid →
    0 < s.tlThreadIndex u ∧ s.tlThreadIndex u < s.globalThreadIndex
  inj : ∀ u v, u ≠ v → s.tlThreadIndex u ≠ invalidTid → s.tlThreadIndex v ≠ s.tlThreadIndex u
  taken : ∀ u, s.pc u ≠ .idle → s.tlThreadIndex u ≠ invalidTid

/-- Ids handed out once each from `1` up are distinct, non-zero, and never
the negation of one another. -/
theorem NpsInv.idsOk (h : NpsInv s) : IdsOk s.tlThreadIndex s := by
  intro u hu
  have hu0 := h.taken u hu
  have hpos := (h.range u hu0).1
  refine ⟨hu0, fun v hvu hv => ⟨h.inj u v (Ne.symm hvu) hu0, ?_⟩⟩
  have := (h.range v (h.taken v hv)).1
  omega

theorem npsInv_tidexMutexInit : NpsInv (tidexMutexInit : State T) where
  core := coreInv_tidexMutexInit
  globalPos := Int.one_pos
  range _ h := absurd rfl h
  inj _ _ _ h := absurd rfl h
  taken _ h := absurd rfl h

theorem NpsInv.of_core (h : NpsInv s) {s' : State T} (hcore : CoreInv s.tlThreadIndex s')
    (htl : s'.tlThreadIndex = s.tlThreadIndex) (hg : s'.globalThreadIndex = s.globalThreadIndex)
    (hidle : ∀ u, s.pc u = .idle → s'.pc u = .idle) : NpsInv s' := by
  refine ⟨htl ▸ hcore, hg ▸ h.globalPos, htl ▸ hg ▸ h.range, htl ▸ h.inj, fun u hu => ?_⟩
  rw [htl]
  exact h.taken u fun hi => hu (hidle u hi)

theorem CoreInv.of_ids {idOf idOf' : T → ℤ} (h : CoreInv idOf s) {s' : State T} (hpc : s'.pc = s.pc)
    (hing : s'.ingress = s.ingress) (heg : s'.egress = s.egress) (hne : s'.nextEgress = s.nextEgress)
    (hid : ∀ u, s.pc u ≠ .idle → idOf' u = idOf u) : CoreInv idOf' s' := by
  have hprev : prevTok s' = prevTok s := funext fun u => by
    unfold prevTok
    rw [hpc, heg]
  have hmy : myTok s' = myTok s := funext fun u => by
    unfold myTok
    rw [hpc, hne]
  obtain ⟨l, hnd, hmem, hlink, hhead⟩ := h.chain
  refine ⟨⟨l, hnd, fun u => ?_, ?_, fun u hu => hhead u ?_⟩, fun u hu => ?_, fun u hu => ?_⟩
  · rw [hpc]
    exact hmem u
  · rw [hprev, hmy, heg, hing]
    exact hlink
  · exact Holds.of_pc_eq (congrFun hpc u) hu
  · rw [hpc] at hu
    rw [hmy, heg]
    exact h.fresh u hu
  · rw [hpc] at hu
    rw [hmy, hid u hu]
    exact h.ident u hu

variable [DecidableEq T] {t : T}

/-- `tlThreadIndex = atomic_fetch_add(&globalThreadIndex, 1)`: thread `t`
takes the next id. In `lockrate`, whose `nconsumers` locks share these
globals, the first call of any of them does this. -/
def State.takeId (s : State T) (t : T) : State T :=
  { s with tlThreadIndex := Function.update s.tlThreadIndex t s.globalThreadIndex,
           globalThreadIndex := s.globalThreadIndex + 1 }

/-- **A thread outside this lock takes its id**, in a call of this lock or of
another that shares the globals: the ids stay as handed out. -/
theorem NpsInv.takeId (h : NpsInv s) (hidle : s.pc t = .idle) (hnew : s.tlThreadIndex t = invalidTid) :
    NpsInv (s.takeId t) := by
  have htl : ∀ u, u ≠ t → (s.takeId t).tlThreadIndex u = s.tlThreadIndex u :=
    fun u hu => Function.update_of_ne hu _ _
  have htl_t : (s.takeId t).tlThreadIndex t = s.globalThreadIndex := Function.update_self _ _ _
  have hne_t : ∀ u, s.pc u ≠ .idle → u ≠ t := fun u hu hut => hu (hut ▸ hidle)
  have hg := h.globalPos
  -- the new id is above every id taken before
  have hfresh : ∀ v, s.tlThreadIndex v ≠ s.globalThreadIndex := fun v hv => by
    by_cases hv0 : s.tlThreadIndex v = invalidTid
    · rw [hv0] at hv
      unfold invalidTid at hv
      omega
    · have := h.range v hv0
      omega
  refine ⟨h.core.of_ids rfl rfl rfl rfl fun u hu => htl u (hne_t u hu), by simp [State.takeId]; omega,
    fun u hu => ?_, fun u v huv hu => ?_, fun u hu => ?_⟩
  · show 0 < (s.takeId t).tlThreadIndex u ∧ (s.takeId t).tlThreadIndex u < s.globalThreadIndex + 1
    rcases eq_or_ne u t with rfl | hut
    · rw [htl_t]
      omega
    · rw [htl u hut] at hu ⊢
      have := h.range u hu
      omega
  · rcases eq_or_ne u t with rfl | hut
    · rw [htl_t, htl v (Ne.symm huv)]
      exact hfresh v
    · rw [htl u hut] at hu ⊢
      rcases eq_or_ne v t with rfl | hvt
      · rw [htl_t]
        exact (hfresh u).symm
      · rw [htl v hvt]
        exact h.inj u v huv hu
  · rw [htl u (hne_t u hu)]
    exact h.taken u hu

/-- **The call of `tidex_nps_mutex_lock`**: a thread without an id takes the
next one from `globalThreadIndex`. -/
theorem NpsInv.lock (h : NpsInv s) (hpc : s.pc t = .idle) : NpsInv (tidexNpsLock s t) := by
  unfold tidexNpsLock
  split_ifs with hnew
  · -- the first call takes its id, then `mytid = tlThreadIndex`
    have ht := h.takeId hpc hnew
    refine ⟨ht.core.lockCall hpc (by simp [State.setPc, State.takeId]) (fun _ _ => rfl) rfl rfl rfl,
      ht.globalPos, ht.range, ht.inj,
      fun u hu => ?_⟩
    rcases eq_or_ne u t with rfl | hut
    · show Function.update s.tlThreadIndex u s.globalThreadIndex u ≠ invalidTid
      rw [Function.update_self]
      have := h.globalPos
      unfold invalidTid
      omega
    · exact ht.taken u (by rwa [State.setPc_pc_of_ne _ _ hut] at hu)
  · -- a later call: `mytid = tlThreadIndex`
    refine ⟨h.core.lockCall hpc rfl (fun _ _ => rfl) rfl rfl rfl, h.globalPos, h.range, h.inj, fun u hu => ?_⟩
    rcases eq_or_ne u t with rfl | hut
    · exact hnew
    · exact h.taken u (by rwa [State.setPc_pc_of_ne _ _ hut] at hu)

/-- **Every step keeps the invariant.** -/
theorem NpsInv.of_step (h : NpsInv s) {a : Act T} {s' : State T} (hs : step tidexNpsLock s a = some s') :
    NpsInv s' := by
  cases a with
  | lock t =>
    cases hpc : s.pc t with
    | idle =>
      simp only [step, hpc, Option.some.injEq] at hs
      exact hs ▸ h.lock hpc
    | _ => simp [step, hpc] at hs
  | unlock t =>
    obtain ⟨htl, hg, hidle⟩ := step_frame (fun _ ha => by cases ha) hs
    exact h.of_core (h.core.of_unlock hs) htl hg hidle
  | next t =>
    obtain ⟨htl, hg, hidle⟩ := step_frame (fun _ ha => by cases ha) hs
    exact h.of_core (h.core.of_next h.idsOk hs) htl hg hidle

/-- **The Tidex-NPS lock is a mutual exclusion lock**: in every run from a
state that keeps the invariant, at most one thread holds it. The start may
be a lock fresh from `tidex_nps_mutex_init` in a process whose other locks
have already handed out ids (`NpsInv.takeId`). -/
theorem tidex_nps_mutual_exclusion {s0 : State T} (h0 : NpsInv s0) {acts : List (Act T)} {s : State T}
    (hrun : Machine.runSteps (step tidexNpsLock) s0 acts = some s) {u v : T}
    (hu : Holds s u) (hv : Holds s v) : u = v :=
  (Machine.runSteps_inv _ (G := fun _ => True) (fun _ _ _ h _ hs => h.of_step hs)
    (fun _ _ => trivial) h0 hrun).core.holds_eq hu hv

/-- Thread `true` took id `1` in a call of another lock; here thread `false`
takes id `2` and the lock, and thread `true` spins. -/
theorem tidex_nps_mutual_exclusion_twoThreads :
    NpsInv ((tidexMutexInit : State Bool).takeId true) ∧
      ∃ s, Machine.runSteps (step tidexNpsLock) ((tidexMutexInit : State Bool).takeId true)
          [.lock false, .next false, .next false, .lock true, .next true, .next true, .next true, .next false] =
          some s ∧ Holds s false ∧ ∀ u, Holds s u → u = false := by
  have h0 : NpsInv ((tidexMutexInit : State Bool).takeId true) := npsInv_tidexMutexInit.takeId rfl rfl
  obtain ⟨s, hrun, hheld⟩ : ∃ s, Machine.runSteps (step tidexNpsLock) ((tidexMutexInit : State Bool).takeId true)
        [.lock false, .next false, .next false, .lock true, .next true, .next true, .next true, .next false] =
        some s ∧ Holds s false := ⟨_, rfl, rfl⟩
  exact ⟨h0, s, hrun, hheld, fun _ hu => tidex_nps_mutual_exclusion h0 hrun hu hheld⟩

/-- The Tidex-NPS lock of one queue of `lockrate`, from the state `s0`
in which the other locks left the shared ids. -/
def npsLockModel (s0 : State T) : Critical.LockModel T (State T) (Act T) :=
  { lockModel tidexNpsLock with init := s0 }

/-- The Tidex lock without `pthread_self()` gives what `Critical` asks of a
lock, from any start that keeps the invariant. -/
theorem npsLockModel_good {s0 : State T} (h0 : NpsInv s0) : (npsLockModel s0).Good NpsInv :=
  { lockModel_good tidexNpsLock_pc_of_ne npsInv_tidexMutexInit (fun _ _ _ h hs => h.of_step hs)
      fun _ h _ _ => h.core.holds_eq with init := h0 }

end Tidex
end QueueRate
