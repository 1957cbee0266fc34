import QueueRate.Locks.TidexNps

/-!
# `tidex_mutex_trylock` and `tidex_nps_mutex_trylock`

`trylock` loads `egress` into `localE`, then `ingress` into `localI`, and
returns `EBUSY` if they differ. Otherwise it takes the thread's id
(`pthread_self()`, or `tlThreadIndex`, taken first from `globalThreadIndex`),
negated if it equals `localE`, and tries to swap it into `ingress` by a
compare-and-swap from `localI`; on success it stores the id in `nextEgress`
and returns holding the lock. `tryStep` adds these steps to those of `lock`
and `unlock` (`step`).

The two loads are not one snapshot of the lock. Between them a thread `b`
can release the lock, take it again and release it, and take it a third
time: the id `b` swaps in alternates between its own and the negation, so
`ingress` comes back to the `egress` the first load saw, while `egress` has
moved on and `b` holds the lock. `trylock` finds the two loads equal, its
compare-and-swap succeeds, and two threads hold the lock
(`tidex_trylock_not_exclusive`, `tidex_nps_trylock_not_exclusive`), from
the start of the program and for any two threads.

Key definitions: `TryPc`, `TryState`, `TryAct`, `tryStep`.
-/

namespace QueueRate
namespace Tidex

/-- Where a thread is in `trylock`. -/
inductive TryPc
  /-- not in `trylock` -/
  | out
  /-- `localE` loaded from `egress`, next: `localI = atomic_load(&self->ingress)` -/
  | loadIngress (localE : ℤ)
  /-- `localE == localI`, next: `mytid` from the thread's id -/
  | takeId (localI : ℤ)
  /-- next: `atomic_compare_exchange_strong(&self->ingress, &localI, mytid)` -/
  | cas (localI mytid : ℤ)
  deriving DecidableEq, Repr

/-- The lock, and where each thread is in `trylock`. -/
structure TryState (T : Type*) where
  lock : State T
  tryPc : T → TryPc

/-- An action of a thread: one of `lock` and `unlock` (`act`), whose `next`
also takes the thread's next step in `trylock`, or its call of `trylock`. -/
inductive TryAct (T : Type*)
  | act (a : Act T)
  | trylock (t : T)

variable {T : Type*}

/-- The program's start: the lock from `tidex_mutex_init`, no thread in `trylock`. -/
def tryInit : TryState T := ⟨tidexMutexInit, fun _ => .out⟩

/-- The id of `tidex_mutex_trylock`: `pthread_self()`. -/
def pthreadTryId (pthreadSelf : T → ℤ) (s : State T) (t : T) : State T × ℤ := (s, pthreadSelf t)

/-- A call of `lock` by `b` run to its end, with no other thread moving. -/
def lockActs (b : T) : List (Act T) := [.lock b, .next b, .next b, .next b, .next b]

/-- A call of `unlock` by `b` run to its end. -/
def unlockActs (b : T) : List (Act T) := [.unlock b, .next b]

theorem thread_of_mem_lockActs {b : T} {a : Act T} (ha : a ∈ lockActs b) : a.thread = b := by
  simp only [lockActs, List.mem_cons, List.not_mem_nil, or_false] at ha
  rcases ha with rfl | rfl | rfl | rfl | rfl <;> rfl

theorem thread_of_mem_unlockActs {b : T} {a : Act T} (ha : a ∈ unlockActs b) : a.thread = b := by
  simp only [unlockActs, List.mem_cons, List.not_mem_nil, or_false] at ha
  rcases ha with rfl | rfl <;> rfl

variable [DecidableEq T]

/-- The id of `tidex_nps_mutex_trylock`: `tlThreadIndex`, taken first by
`tlThreadIndex = atomic_fetch_add(&globalThreadIndex, 1)`. -/
def npsTryId (s : State T) (t : T) : State T × ℤ :=
  if s.tlThreadIndex t = invalidTid then
    ({ s with tlThreadIndex := Function.update s.tlThreadIndex t s.globalThreadIndex,
              globalThreadIndex := s.globalThreadIndex + 1 }, s.globalThreadIndex)
  else (s, s.tlThreadIndex t)

theorem npsTryId_ingress (s : State T) (t : T) : (npsTryId s t).1.ingress = s.ingress := by
  unfold npsTryId
  split_ifs <;> rfl

theorem npsTryId_pc (s : State T) (t : T) : (npsTryId s t).1.pc = s.pc := by
  unfold npsTryId
  split_ifs <;> rfl

/-- Thread `t` moves to `pc` in `trylock`. -/
def TryState.setTry (s : TryState T) (t : T) (pc : TryPc) : TryState T :=
  { s with tryPc := Function.update s.tryPc t pc }

/-- The step an action takes, for the lock whose `lock` takes its id by
`lockCall` and whose `trylock` by `tryId`; `none` when the thread cannot take it. -/
def tryStep (lockCall : State T → T → State T) (tryId : State T → T → State T × ℤ) (s : TryState T) :
    TryAct T → Option (TryState T)
  | .trylock t =>
    -- `localE = atomic_load(&self->egress)`
    if s.lock.pc t = .idle ∧ s.tryPc t = .out then some (s.setTry t (.loadIngress s.lock.egress))
    else none
  | .act a =>
    match s.tryPc a.thread, a with
    | .out, a => (step lockCall s.lock a).map fun l => { s with lock := l }
    -- `if (localE != localI) return EBUSY;`
    | .loadIngress localE, .next t =>
      some (s.setTry t (if localE = s.lock.ingress then .takeId s.lock.ingress else .out))
    -- `if (localE == mytid) mytid = -mytid;`, with `localE == localI`
    | .takeId localI, .next t =>
      some ⟨(tryId s.lock t).1, Function.update s.tryPc t
        (.cas localI (if localI = (tryId s.lock t).2 then -(tryId s.lock t).2 else (tryId s.lock t).2))⟩
    -- on success, `self->nextEgress = mytid` is next
    | .cas localI mytid, .next t =>
      if s.lock.ingress = localI then
        some ⟨{ s.lock with ingress := mytid }.setPc t (.setNext mytid), Function.update s.tryPc t .out⟩
      else some (s.setTry t .out)
    -- a thread in `trylock` calls nothing else
    | _, _ => none

/-! ### Runs of `lock`, `unlock` and `trylock` -/

section Runs

variable {lockCall : State T → T → State T} {tryId : State T → T → State T × ℤ}

/-- **`lock` on a free lock** (`egress == ingress`): `b` takes the id `id`,
negated if it is `egress`, swaps it into `ingress`, finds its predecessor
released, and stores the id in `nextEgress`. -/
theorem runSteps_lockActs {s s1 : State T} {b : T} {id : ℤ} (hpc : s.pc b = .idle)
    (hcall : lockCall s b = s1.setPc b (.check id)) (hfree : s1.egress = s1.ingress) :
    Machine.runSteps (step lockCall) s (lockActs b) =
      some ({ s1 with ingress := if s1.egress = id then -id else id,
                      nextEgress := if s1.egress = id then -id else id }.setPc b .held) := by
  simp [lockActs, Machine.runSteps_cons, step, hpc, hcall, hfree, State.setPc, Function.update_idem]

/-- **`unlock`** stores `nextEgress` into `egress`. -/
theorem runSteps_unlockActs {s : State T} {b : T} (hpc : s.pc b = .held) :
    Machine.runSteps (step lockCall) s (unlockActs b) = some ({ s with egress := s.nextEgress }.setPc b .idle) := by
  simp [unlockActs, Machine.runSteps_cons, step, hpc, State.setPc, Function.update_idem]

@[simp] theorem TryState.setTry_lock (s : TryState T) (t : T) (pc : TryPc) : (s.setTry t pc).lock = s.lock := rfl

@[simp] theorem TryState.setTry_tryPc_self (s : TryState T) (t : T) (pc : TryPc) :
    (s.setTry t pc).tryPc t = pc := by
  simp [TryState.setTry]

theorem tryStep_out {s : TryState T} {a : Act T} (h : s.tryPc a.thread = .out) :
    tryStep lockCall tryId s (.act a) = (step lockCall s.lock a).map fun l => { s with lock := l } := by
  simp only [tryStep, h]

theorem tryStep_loadIngress {s : TryState T} {t : T} {e : ℤ} (h : s.tryPc t = .loadIngress e) :
    tryStep lockCall tryId s (.act (.next t)) =
      some (s.setTry t (if e = s.lock.ingress then .takeId s.lock.ingress else .out)) := by
  simp only [tryStep, Act.thread, h]

theorem tryStep_takeId {s : TryState T} {t : T} {i : ℤ} (h : s.tryPc t = .takeId i) :
    tryStep lockCall tryId s (.act (.next t)) =
      some ⟨(tryId s.lock t).1, Function.update s.tryPc t
        (.cas i (if i = (tryId s.lock t).2 then -(tryId s.lock t).2 else (tryId s.lock t).2))⟩ := by
  simp only [tryStep, Act.thread, h]

theorem tryStep_cas {s : TryState T} {t : T} {i m : ℤ} (h : s.tryPc t = .cas i m) :
    tryStep lockCall tryId s (.act (.next t)) =
      if s.lock.ingress = i then
        some ⟨{ s.lock with ingress := m }.setPc t (.setNext m), Function.update s.tryPc t .out⟩
      else some (s.setTry t .out) := by
  simp only [tryStep, Act.thread, h]

theorem runSteps_act {s : TryState T} {acts : List (Act T)} (hout : ∀ a ∈ acts, s.tryPc a.thread = .out) :
    Machine.runSteps (tryStep lockCall tryId) s (acts.map .act) =
      (Machine.runSteps (step lockCall) s.lock acts).map fun l => { s with lock := l } := by
  induction acts generalizing s with
  | nil => rfl
  | cons a acts ih =>
    rw [List.map_cons, Machine.runSteps_cons, tryStep_out (hout a List.mem_cons_self), Machine.runSteps_cons]
    cases step lockCall s.lock a with
    | none => rfl
    | some l => exact ih (s := { s with lock := l }) fun a' ha' => hout a' (List.mem_cons_of_mem a ha')

/-- **`trylock` wins** when its first load saw the `ingress` that is there
now: its second load finds the two equal, its compare-and-swap succeeds,
and it stores its id in `nextEgress`. -/
theorem runSteps_trylock_wins {s : TryState T} {t : T} (htry : s.tryPc t = .loadIngress s.lock.ingress)
    (hid : (tryId s.lock t).1.ingress = s.lock.ingress) (hidpc : (tryId s.lock t).1.pc = s.lock.pc) :
    ∃ s', Machine.runSteps (tryStep lockCall tryId) s (List.replicate 4 (.act (.next t))) = some s' ∧
      s'.lock.pc = Function.update s.lock.pc t .held := by
  obtain ⟨m, hm⟩ : ∃ m, m = if s.lock.ingress = (tryId s.lock t).2 then -(tryId s.lock t).2 else (tryId s.lock t).2 :=
    ⟨_, rfl⟩
  have h1 : tryStep lockCall tryId s (.act (.next t)) = some (s.setTry t (.takeId s.lock.ingress)) := by
    rw [tryStep_loadIngress htry, if_pos rfl]
  have h2 : tryStep lockCall tryId (s.setTry t (.takeId s.lock.ingress)) (.act (.next t)) =
      some ⟨(tryId s.lock t).1, Function.update (s.setTry t (.takeId s.lock.ingress)).tryPc t (.cas s.lock.ingress m)⟩ := by
    rw [tryStep_takeId (TryState.setTry_tryPc_self _ _ _), TryState.setTry_lock, hm]
  have h3 : tryStep lockCall tryId ⟨(tryId s.lock t).1,
      Function.update (s.setTry t (.takeId s.lock.ingress)).tryPc t (.cas s.lock.ingress m)⟩ (.act (.next t)) =
      some ⟨{ (tryId s.lock t).1 with ingress := m }.setPc t (.setNext m),
        Function.update (Function.update (s.setTry t (.takeId s.lock.ingress)).tryPc t (.cas s.lock.ingress m)) t .out⟩ := by
    rw [tryStep_cas (Function.update_self ..), if_pos hid]
  have h4 : tryStep lockCall tryId ⟨{ (tryId s.lock t).1 with ingress := m }.setPc t (.setNext m),
        Function.update (Function.update (s.setTry t (.takeId s.lock.ingress)).tryPc t (.cas s.lock.ingress m)) t .out⟩
      (.act (.next t)) = some ⟨{ ({ (tryId s.lock t).1 with ingress := m }.setPc t (.setNext m)) with nextEgress := m }.setPc t .held,
        Function.update (Function.update (s.setTry t (.takeId s.lock.ingress)).tryPc t (.cas s.lock.ingress m)) t .out⟩ := by
    rw [tryStep_out (Function.update_self ..)]
    simp [step]
  simp only [List.replicate, Machine.runSteps_cons, h1, h2, h3, h4, Option.bind_some, Machine.runSteps_nil,
    Option.some.injEq, exists_eq_left']
  simp [State.setPc, hidpc, Function.update_idem]

/-- **A call of `lock` and one of `unlock` on a free lock**: `egress` and
`ingress` both move to the id `b` used. -/
theorem runSteps_cycle {s s1 : State T} {b : T} {id : ℤ} (hpc : s.pc b = .idle)
    (hcall : lockCall s b = s1.setPc b (.check id)) (hfree : s1.egress = s1.ingress) :
    Machine.runSteps (step lockCall) s (lockActs b ++ unlockActs b) =
      some ({ s1 with ingress := if s1.egress = id then -id else id,
                      egress := if s1.egress = id then -id else id,
                      nextEgress := if s1.egress = id then -id else id }.setPc b .idle) := by
  rw [Machine.runSteps_append, runSteps_lockActs hpc hcall hfree, Option.bind_some,
    runSteps_unlockActs (State.setPc_pc_self _ _ _)]
  simp [State.setPc, Function.update_idem]

/-- **`b` takes the lock, releases it and takes it again**, with the id
`E` each call of `lock` gives it, from a free lock at `egress == E`: the
first swap uses `-E`, which the release puts in `egress`, so the second
uses `E` again, and `ingress` is back at `E` with `b` holding the lock. -/
theorem runSteps_relock {s : State T} {b : T} {E : ℤ} (hE : E ≠ 0) (hpc : s.pc b = .idle)
    (heg : s.egress = E) (hin : s.ingress = E)
    (hcall : ∀ s' : State T, s'.tlThreadIndex = s.tlThreadIndex → lockCall s' b = s'.setPc b (.check E)) :
    ∃ s', Machine.runSteps (step lockCall) s (lockActs b ++ unlockActs b ++ lockActs b) = some s' ∧
      s'.pc = Function.update s.pc b .held ∧ s'.ingress = E ∧ s'.tlThreadIndex = s.tlThreadIndex := by
  have hneg : -E ≠ E := fun h => hE (by omega)
  rw [Machine.runSteps_append, runSteps_cycle hpc (hcall s rfl) (heg.trans hin.symm), Option.bind_some,
    runSteps_lockActs (State.setPc_pc_self _ _ _) (hcall _ ?_) rfl]
  · simp only [heg, if_pos, Option.some.injEq, exists_eq_left']
    simp [State.setPc, Function.update_idem, hneg]
  · rfl

/-- **`trylock` overtakes `b`**: from a free lock at `egress == E` with
`b` and `t` outside it, `t` loads `egress`; `b` takes the lock, releases it
and takes it again, with the id `E` from each call of `lock`; `t` finds
`ingress` back at `E` and wins. Both are then at `held`. -/
theorem runSteps_overtake {s : TryState T} {b t : T} {E : ℤ} (hbt : b ≠ t) (hE : E ≠ 0)
    (hb : s.lock.pc b = .idle) (ht : s.lock.pc t = .idle) (hbo : s.tryPc b = .out) (hto : s.tryPc t = .out)
    (heg : s.lock.egress = E) (hin : s.lock.ingress = E)
    (hcall : ∀ l : State T, l.tlThreadIndex = s.lock.tlThreadIndex → lockCall l b = l.setPc b (.check E))
    (hid : ∀ l, (tryId l t).1.ingress = l.ingress) (hidpc : ∀ l, (tryId l t).1.pc = l.pc) :
    ∃ s', Machine.runSteps (tryStep lockCall tryId) s
        (.trylock t :: (lockActs b ++ unlockActs b ++ lockActs b).map .act ++ List.replicate 4 (.act (.next t))) =
          some s' ∧ s'.lock.pc b = .held ∧ s'.lock.pc t = .held := by
  have h1 : tryStep lockCall tryId s (.trylock t) = some (s.setTry t (.loadIngress E)) := by
    simp [tryStep, ht, hto, heg]
  obtain ⟨l, hl, hlpc, hlin, -⟩ := runSteps_relock hE hb heg hin hcall
  have hout : ∀ a ∈ lockActs b ++ unlockActs b ++ lockActs b, (s.setTry t (.loadIngress E)).tryPc a.thread = .out := by
    intro a ha
    have hab : a.thread = b := by
      simp only [List.mem_append] at ha
      rcases ha with (ha | ha) | ha
      · exact thread_of_mem_lockActs ha
      · exact thread_of_mem_unlockActs ha
      · exact thread_of_mem_lockActs ha
    rw [hab]
    simp [TryState.setTry, hbt, hbo]
  -- `b`'s calls leave `t` between its loads, with `ingress` back at `E`
  obtain ⟨s', h3, hpc'⟩ : ∃ s', Machine.runSteps (tryStep lockCall tryId) { s.setTry t (.loadIngress E) with lock := l }
      (List.replicate 4 (.act (.next t))) = some s' ∧ s'.lock.pc = Function.update l.pc t .held :=
    runSteps_trylock_wins (by simp [hlin]) (hid l) (hidpc l)
  refine ⟨s', ?_, ?_, ?_⟩
  · rw [Machine.runSteps_append, Machine.runSteps_cons, h1, Option.bind_some, runSteps_act hout,
      TryState.setTry_lock, hl, Option.map_some, Option.bind_some, h3]
  · rw [hpc', Function.update_of_ne hbt, hlpc, Function.update_self]
  · rw [hpc', Function.update_self]

end Runs

/-! ### Two threads at `held` -/

/-- **`trylock` breaks mutual exclusion**, in both locks. For any two
threads `b` and `t` (with `pthread_self()` giving `b` a non-zero id, as
for every thread), some run from the program's start brings both to
`held`: `b` takes and releases the lock; `t` calls `trylock` and loads
`egress`; `b` takes, releases and takes the lock again; `t` loads
`ingress`, finds it equal to what it loaded from `egress`, and wins. -/
theorem tidex_trylock_not_exclusive {pthreadSelf : T → ℤ} {b t : T} (hb : pthreadSelf b ≠ 0) (hbt : b ≠ t) :
    (∃ s, Machine.runSteps (tryStep (tidexLock pthreadSelf) (pthreadTryId pthreadSelf)) tryInit
        ((lockActs b ++ unlockActs b).map .act ++
          (.trylock t :: (lockActs b ++ unlockActs b ++ lockActs b).map .act ++ List.replicate 4 (.act (.next t)))) =
        some s ∧ s.lock.pc b = .held ∧ s.lock.pc t = .held) ∧
    (∃ s, Machine.runSteps (tryStep tidexNpsLock npsTryId) tryInit
        ((lockActs b ++ unlockActs b).map .act ++
          (.trylock t :: (lockActs b ++ unlockActs b ++ lockActs b).map .act ++ List.replicate 4 (.act (.next t)))) =
        some s ∧ s.lock.pc b = .held ∧ s.lock.pc t = .held) := by
  constructor
  · -- `b` takes the free lock with the id `pthread_self()` and releases it
    have h1 : Machine.runSteps (step (tidexLock pthreadSelf)) tidexMutexInit (lockActs b ++ unlockActs b) = some _ :=
      runSteps_cycle rfl rfl rfl
    have hm : ¬ (tidexMutexInit : State T).egress = pthreadSelf b := fun h => hb h.symm
    simp only [hm, if_false] at h1
    rw [Machine.runSteps_append, runSteps_act (fun _ _ => rfl), show (tryInit : TryState T).lock = tidexMutexInit from rfl,
      h1, Option.map_some, Option.bind_some]
    exact runSteps_overtake hbt hb (State.setPc_pc_self _ _ _) (State.setPc_pc_of_ne _ _ hbt.symm) rfl rfl rfl rfl
      (fun _ _ => rfl) (fun _ => rfl) (fun _ => rfl)
  · -- `b` takes the free lock with the id `1` from `globalThreadIndex`, and releases it
    have h1 : Machine.runSteps (step tidexNpsLock) tidexMutexInit (lockActs b ++ unlockActs b) = some _ :=
      runSteps_cycle rfl (if_pos rfl) rfl
    have hm : ¬ (tidexMutexInit : State T).egress = (tidexMutexInit : State T).globalThreadIndex := by
      simp [tidexMutexInit, invalidTid]
    simp only [hm, if_false] at h1
    rw [Machine.runSteps_append, runSteps_act (fun _ _ => rfl), show (tryInit : TryState T).lock = tidexMutexInit from rfl,
      h1, Option.map_some, Option.bind_some]
    refine runSteps_overtake (E := 1) hbt Int.one_ne_zero (State.setPc_pc_self _ _ _) (State.setPc_pc_of_ne _ _ hbt.symm)
      rfl rfl rfl rfl (fun l hl => ?_) (npsTryId_ingress · t) (npsTryId_pc · t)
    -- the later calls of `lock` take the id `b` keeps in `tlThreadIndex`
    have htl : l.tlThreadIndex b = (tidexMutexInit : State T).globalThreadIndex := by
      rw [hl]
      simp [State.setPc]
    unfold tidexNpsLock
    rw [if_neg (by rw [htl]; simp [tidexMutexInit, invalidTid]), htl]
    rfl

/-- Threads `false` and `true`, with `pthread_self()` giving them `1` and `2`. -/
theorem tidex_trylock_not_exclusive_twoThreads :
    (if false then 2 else 1 : ℤ) ≠ 0 ∧ false ≠ true ∧
    ((∃ s, Machine.runSteps (tryStep (tidexLock fun u : Bool => if u then 2 else 1)
          (pthreadTryId fun u : Bool => if u then 2 else 1)) tryInit
        ((lockActs false ++ unlockActs false).map .act ++ (.trylock true ::
          (lockActs false ++ unlockActs false ++ lockActs false).map .act ++ List.replicate 4 (.act (.next true)))) =
        some s ∧ s.lock.pc false = .held ∧ s.lock.pc true = .held) ∧
      (∃ s, Machine.runSteps (tryStep tidexNpsLock npsTryId) tryInit
        ((lockActs false ++ unlockActs false).map .act ++ (.trylock true ::
          (lockActs false ++ unlockActs false ++ lockActs false).map .act ++ List.replicate 4 (.act (.next true)))) =
        some s ∧ s.lock.pc false = .held ∧ s.lock.pc true = .held)) :=
  ⟨by decide, by decide, tidex_trylock_not_exclusive (by decide) (by decide)⟩

end Tidex
end QueueRate
