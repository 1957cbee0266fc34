import QueueRate.Lockrate.Bodies
import QueueRate.Locks.Ticket
import QueueRate.Locks.TidexNps
import QueueRate.Locks.Mpsc
import QueueRate.Locks.Clh

/-!
# `q_push` and `q_pop` under the locks of `lockrate.c`

`lockrate.c` is built once for each of its locks (`LOCK_METHOD`); in every
build `q_push` and `q_pop` call `lock`, access the `q_t` one field at a
time, and call `unlock`. Here the threads' steps in the lock, the accesses
of the bodies (`qBody`) and the calls of `unlock` interleave in any order
(`Critical.Sys`). Under a lock that keeps at most one thread at `held`, whose
steps move no other thread, and whose holder can only call `unlock`
(`Critical.LockModel.Good`), no two bodies ever run at once, each `q_pop`
returns what the FIFO returns for the calls in the order they completed,
and between calls the `q_t` holds the FIFO's nodes
(`lockrate_fifo_of_good`). The ticket, Tidex, Tidex without `pthread_self`,
MPSC and CLH locks are all such locks (`lockrate_locks_good`).
-/

namespace QueueRate
namespace Lockrate

open Critical

section AnyLock

variable {α T σ A : Type*} [DecidableEq α] [DecidableEq T] {L : LockModel T σ A} {I : σ → Prop}

/-- **`q_push` and `q_pop` under a mutual exclusion lock make a FIFO.** In
every run from `q_create`, whatever the interleaving of the threads' steps
in the lock and accesses in the bodies, as long as each node is pushed when
it is not queued (taking the calls in the order they completed): at most
one thread is inside a body; the `q_pop`s returned what the FIFO returns
for the completed calls in that order; and with no call under way, the
`q_t` holds the FIFO's nodes, oldest first from `tail`. -/
theorem lockrate_fifo_of_good (hL : L.Good I) (next : α → Option α)
    {acts : List (Sys.Act T A (Fifo.Call α))} {s : Sys.State T σ (QT α) (Fifo.Call α) (Option α) (BodyPc α)}
    (hrun : Machine.runSteps (Sys.step L qBody) (Sys.init L (qCreate next)) acts = some s)
    (hfresh : Fifo.PushesFresh [] (s.log.map fun e => e.2.1)) :
    (∀ t u, (s.body t).isSome = true → (s.body u).isSome = true → t = u) ∧
      popResults s.log = (Fifo.run [] (s.log.map fun e => e.2.1)).2 ∧
      ((∀ t, s.body t = none) → Represents s.data (Fifo.run [] (s.log.map fun e => e.2.1)).1) := by
  have h := Sys.inv_of_run hL qBody_correct hrun
  -- the completed calls, applied one at a time in the order they completed, are the FIFO's
  obtain ⟨hrepr, hres⟩ := run_represents _ (represents_qCreate next) hfresh
  refine ⟨fun t u ht hu => hL.excl _ _ _ h.lock (h.held t ht) (h.held u hu), ?_, fun hidle => ?_⟩
  · rw [popResults_eq_run h.logOk, hres]
  · rw [h.idle hidle, replay_eq_run]
    exact hrepr

end AnyLock

/-- Thread `false` pushes node `1` under the ticket lock while thread `true`
waits for the lock; then thread `true` pops it. -/
theorem lockrate_fifo_of_good_ticket :
    ∃ s, Machine.runSteps (Sys.step Ticket.lockModel qBody) (Sys.init Ticket.lockModel (qCreate fun _ : ℕ => none))
        [.lock (.lock false), .lock (.next false), .lock (.lock true), .call false (.push 1), .next false,
          .next false, .next false, .next false, .lock (.unlock false), .lock (.next false),
          .lock (.next true), .call true .pop, .next true, .next true, .next true, .next true, .next true,
          .lock (.unlock true), .lock (.next true)] = some s ∧
      s.log.map (fun e => e.2.1) = [.push 1, .pop] ∧ popResults s.log = [some 1] ∧ Represents s.data [] := by
  obtain ⟨s, hrun, hlog, hidle⟩ : ∃ s, Machine.runSteps (Sys.step Ticket.lockModel qBody)
      (Sys.init Ticket.lockModel (qCreate fun _ : ℕ => none))
        [.lock (.lock false), .lock (.next false), .lock (.lock true), .call false (.push 1), .next false,
          .next false, .next false, .next false, .lock (.unlock false), .lock (.next false),
          .lock (.next true), .call true .pop, .next true, .next true, .next true, .next true, .next true,
          .lock (.unlock true), .lock (.next true)] = some s ∧
      s.log = [(false, .push 1, none), (true, .pop, some 1)] ∧ ∀ t, s.body t = none :=
    ⟨_, rfl, rfl, fun t => by cases t <;> rfl⟩
  have hfresh : Fifo.PushesFresh [] (s.log.map fun e => e.2.1) := by
    rw [hlog]
    decide
  obtain ⟨-, hres, hrepr⟩ := lockrate_fifo_of_good Ticket.lockModel_good _ hrun hfresh
  refine ⟨s, hrun, by rw [hlog]; rfl, ?_, ?_⟩
  · rw [hres, hlog]
    rfl
  · have := hrepr hidle
    rwa [hlog] at this

section Locks

variable {T : Type*} [DecidableEq T]

/-- **Each lock of `lockrate.c` gives what `Critical` asks of a lock**: in
every reachable state of the ticket, Tidex (with `pthread_self()` giving
distinct threads distinct positive ids), Tidex without `pthread_self`, MPSC
and CLH locks (whatever block `malloc` gave the first node), at most one
thread is at `held`; a step moves no thread but its own; and a thread at
`held` can take no step but its call of `unlock`. -/
theorem lockrate_locks_good {pthreadSelf : T → ℤ} (hpos : ∀ u, 0 < pthreadSelf u)
    (hinj : Function.Injective pthreadSelf) (node : ℕ) :
    (Ticket.lockModel (T := T)).Good Ticket.Inv ∧
      (Tidex.lockModel (Tidex.tidexLock pthreadSelf)).Good (Tidex.CoreInv pthreadSelf) ∧
      (Tidex.lockModel (T := T) Tidex.tidexNpsLock).Good Tidex.NpsInv ∧
      (Mpsc.lockModel (T := T) node).Good Mpsc.Inv ∧ (Clh.lockModel (T := T) node).Good Clh.Inv :=
  ⟨Ticket.lockModel_good, Tidex.tidexLockModel_good hpos hinj,
    Tidex.npsLockModel_good Tidex.npsInv_tidexMutexInit, Mpsc.lockModel_good node, Clh.lockModel_good node⟩

end Locks

/-- Two threads, with `pthread_self()` giving them ids `1` and `2`, and the
first node at block `0`. -/
theorem lockrate_locks_good_twoThreads :
    (∀ u : Bool, 0 < (if u then 2 else 1 : ℤ)) ∧ Function.Injective (fun u : Bool => (if u then 2 else 1 : ℤ)) ∧
      (Ticket.lockModel (T := Bool)).Good Ticket.Inv ∧
      (Tidex.lockModel (Tidex.tidexLock fun u : Bool => (if u then 2 else 1 : ℤ))).Good
        (Tidex.CoreInv fun u : Bool => (if u then 2 else 1 : ℤ)) ∧
      (Tidex.lockModel (T := Bool) Tidex.tidexNpsLock).Good Tidex.NpsInv ∧
      (Mpsc.lockModel (T := Bool) 0).Good Mpsc.Inv ∧ (Clh.lockModel (T := Bool) 0).Good Clh.Inv := by
  have hpos : ∀ u : Bool, 0 < (if u then 2 else 1 : ℤ) := by decide
  have hinj : Function.Injective fun u : Bool => (if u then 2 else 1 : ℤ) := fun a b => by
    cases a <;> cases b <;> decide
  exact ⟨hpos, hinj, lockrate_locks_good hpos hinj 0⟩

end Lockrate
end QueueRate
