import Mathlib.Logic.Function.Basic
import Mathlib.Data.Nat.Bitwise
import QueueRate.Lib.Machine

/-!
# The Natsys ring buffer, step by step

`natsysq.h`: a `LockFreeQueue<T, ThrId, Q_SIZE>` hands out positions with a
fetch-and-add on `head_` (push) and `tail_` (pop); the slot of a position is
`pos & Q_MASK`, with `Q_MASK = Q_SIZE - 1`. Each thread publishes the
position it works on in `thr_p_[ThrId()]`, `ULONG_MAX` when it has none; a
producer waits while its position is `Q_SIZE` or more past `last_tail_`,
and a consumer while its position is not below `last_head_`, both
recomputing the bound by a scan of the other side's published positions.

`step` takes one thread one step: the first store to `thr_pos()`, the
fetch-and-add, the second store, the loop test, each read of the scan, the
store of `last_tail_` or `last_head_`, the re-test, the slot write or read
and the reset to `ULONG_MAX`. Every use of `thr_pos()` reads the shared
`thr_p_[ThrId()]` again, as the source does. The counters are unbounded
naturals. A step moves each by at most one (`head_tail_le_length`), so in a
run of fewer than `ULONG_MAX` steps no position reaches `ULONG_MAX`, the
value a thread publishes when it has none, and no `unsigned long` wraps.

Besides the queue, the state records each push's position and pointer, and
each pop's position and result, with the position its fetch-and-add returned
(`reserved`).

Key definitions: `Config`, `Pc`, `State`, `lockFreeQueue`, `step`, `run`,
`harnessConfig`.
-/

namespace QueueRate
namespace Natsys

/-- `ULONG_MAX`: the position a thread publishes when it has none. -/
def ulongMax : ℕ := 2 ^ 64 - 1

/-- An entry of `thr_p_`. -/
structure ThrPos where
  head : ℕ
  tail : ℕ
  deriving DecidableEq, Repr

/-- The template arguments and the constructor's arguments of a queue, over
the threads `T`. -/
structure Config (T : Type*) where
  qSize : ℕ
  nProducers : ℕ
  nConsumers : ℕ
  thrId : T → ℕ

/-- `Q_MASK = Q_SIZE - 1`. -/
def Config.qMask {T : Type*} (c : Config T) : ℕ := c.qSize - 1

/-- Where a thread is in `push(ptr)` or `pop()`, with its locals. -/
inductive Pc (α : Type*)
  | idle
  /-- next, the fetch-and-add on `head_` -/
  | pushFaa (ptr : α)
  /-- next, `thr_pos().head = pos` -/
  | pushStorePos (ptr : α) (pos : ℕ)
  /-- next, the test `thr_pos().head >= last_tail_ + Q_SIZE` -/
  | pushCheck (ptr : α)
  /-- next, `min = tail_` -/
  | pushScanStart (ptr : α)
  /-- in the scan of the consumers' tails, at `i` -/
  | pushScan (ptr : α) (i min : ℕ)
  /-- next, `if (thr_pos().head < last_tail_ + Q_SIZE) break;` -/
  | pushRecheck (ptr : α)
  /-- next, `ptr_array_[thr_pos().head & Q_MASK] = ptr` -/
  | pushWrite (ptr : α)
  /-- next, `thr_pos().head = ULONG_MAX` -/
  | pushReset
  /-- next, the fetch-and-add on `tail_` -/
  | popFaa
  /-- next, `thr_pos().tail = pos` -/
  | popStorePos (pos : ℕ)
  /-- next, the test `thr_pos().tail >= last_head_` -/
  | popCheck
  /-- next, `min = head_` -/
  | popScanStart
  /-- in the scan of the producers' heads, at `i` -/
  | popScan (i min : ℕ)
  /-- next, `if (thr_pos().tail < last_head_) break;` -/
  | popRecheck
  /-- next, `ret = ptr_array_[thr_pos().tail & Q_MASK]` -/
  | popRead
  /-- next, `thr_pos().tail = ULONG_MAX; return ret;` -/
  | popReset (ret : Option α)
  deriving DecidableEq, Repr

/-- The queue, the threads and the history. -/
structure State (α T : Type*) where
  head : ℕ
  tail : ℕ
  lastHead : ℕ
  lastTail : ℕ
  thrP : ℕ → ThrPos
  /-- the slots; `none` for one never written -/
  ptrArray : ℕ → Option α
  pc : T → Pc α
  /-- the position each thread's last fetch-and-add returned -/
  reserved : T → ℕ
  /-- each push: its thread, its position and its pointer -/
  pushed : List (T × ℕ × α)
  /-- each pop: its thread, its position and what it returned -/
  popped : List (T × ℕ × Option α)

/-- A call a thread starts, or its next step. -/
inductive Act (α T : Type*)
  | push (t : T) (ptr : α)
  | pop (t : T)
  | next (t : T)

variable {α T : Type*} [DecidableEq T]

/-- The constructor: counters at 0, every `thr_p_` entry `ULONG_MAX`. -/
def lockFreeQueue : State α T where
  head := 0
  tail := 0
  lastHead := 0
  lastTail := 0
  thrP := fun _ => ⟨ulongMax, ulongMax⟩
  ptrArray := fun _ => none
  pc := fun _ => .idle
  reserved := fun _ => 0
  pushed := []
  popped := []

/-- `thr_p_[i].head = v` -/
def State.setHead (s : State α T) (i v : ℕ) : State α T :=
  { s with thrP := Function.update s.thrP i { s.thrP i with head := v } }

/-- `thr_p_[i].tail = v` -/
def State.setTail (s : State α T) (i v : ℕ) : State α T :=
  { s with thrP := Function.update s.thrP i { s.thrP i with tail := v } }

/-- Thread `t` moves to `pc`. -/
def State.setPc (s : State α T) (t : T) (pc : Pc α) : State α T :=
  { s with pc := Function.update s.pc t pc }

/-- One step of `push` by thread `t`, from `pc`; `id` is `ThrId()`. -/
def stepPush (c : Config T) (s : State α T) (t : T) (id : ℕ) : Pc α → State α T
  | .pushFaa ptr =>
    { s with head := s.head + 1, reserved := Function.update s.reserved t s.head,
             pushed := s.pushed ++ [(t, s.head, ptr)] }.setPc t (.pushStorePos ptr s.head)
  | .pushStorePos ptr pos => (s.setHead id pos).setPc t (.pushCheck ptr)
  | .pushCheck ptr =>
    s.setPc t (if s.lastTail + c.qSize ≤ (s.thrP id).head then .pushScanStart ptr else .pushWrite ptr)
  | .pushScanStart ptr => s.setPc t (.pushScan ptr 0 s.tail)
  | .pushScan ptr i min =>
    if i < c.nConsumers then
      s.setPc t (.pushScan ptr (i + 1) (if (s.thrP i).tail < min then (s.thrP i).tail else min))
    else { s with lastTail := min }.setPc t (.pushRecheck ptr)
  | .pushRecheck ptr =>
    s.setPc t (if (s.thrP id).head < s.lastTail + c.qSize then .pushWrite ptr else .pushCheck ptr)
  | .pushWrite ptr =>
    { s with ptrArray := Function.update s.ptrArray ((s.thrP id).head &&& c.qMask) (some ptr) }.setPc
      t .pushReset
  | .pushReset => (s.setHead id ulongMax).setPc t .idle
  | _ => s

/-- One step of `pop` by thread `t`, from `pc`; `id` is `ThrId()`. -/
def stepPop (c : Config T) (s : State α T) (t : T) (id : ℕ) : Pc α → State α T
  | .popFaa =>
    { s with tail := s.tail + 1, reserved := Function.update s.reserved t s.tail }.setPc t
      (.popStorePos s.tail)
  | .popStorePos pos => (s.setTail id pos).setPc t .popCheck
  | .popCheck => s.setPc t (if s.lastHead ≤ (s.thrP id).tail then .popScanStart else .popRead)
  | .popScanStart => s.setPc t (.popScan 0 s.head)
  | .popScan i min =>
    if i < c.nProducers then
      s.setPc t (.popScan (i + 1) (if (s.thrP i).head < min then (s.thrP i).head else min))
    else { s with lastHead := min }.setPc t .popRecheck
  | .popRecheck => s.setPc t (if (s.thrP id).tail < s.lastHead then .popRead else .popCheck)
  | .popRead => s.setPc t (.popReset (s.ptrArray ((s.thrP id).tail &&& c.qMask)))
  | .popReset ret =>
    { s.setTail id ulongMax with popped := s.popped ++ [(t, s.reserved t, ret)] }.setPc t .idle
  | _ => s

/-- The step an action takes; `none` when the thread cannot take it. -/
def step (c : Config T) (s : State α T) : Act α T → Option (State α T)
  | .push t ptr =>
    match s.pc t with
    | .idle => some ((s.setHead (c.thrId t) s.head).setPc t (.pushFaa ptr))
    | _ => none
  | .pop t =>
    match s.pc t with
    | .idle => some ((s.setTail (c.thrId t) s.tail).setPc t .popFaa)
    | _ => none
  | .next t =>
    match s.pc t with
    | .idle => none
    | .pushFaa ptr => some (stepPush c s t (c.thrId t) (.pushFaa ptr))
    | .pushStorePos ptr pos => some (stepPush c s t (c.thrId t) (.pushStorePos ptr pos))
    | .pushCheck ptr => some (stepPush c s t (c.thrId t) (.pushCheck ptr))
    | .pushScanStart ptr => some (stepPush c s t (c.thrId t) (.pushScanStart ptr))
    | .pushScan ptr i min => some (stepPush c s t (c.thrId t) (.pushScan ptr i min))
    | .pushRecheck ptr => some (stepPush c s t (c.thrId t) (.pushRecheck ptr))
    | .pushWrite ptr => some (stepPush c s t (c.thrId t) (.pushWrite ptr))
    | .pushReset => some (stepPush c s t (c.thrId t) .pushReset)
    | pc => some (stepPop c s t (c.thrId t) pc)

/-- A run of actions, one after another; `none` if one cannot be taken. -/
def run (c : Config T) : State α T → List (Act α T) → Option (State α T)
  | s, [] => some s
  | s, a :: as => (step c s a).bind fun s' => run c s' as

theorem run_eq_runSteps (c : Config T) (s : State α T) (acts : List (Act α T)) :
    run c s acts = Machine.runSteps (step c) s acts := by
  induction acts generalizing s with
  | nil => rfl
  | cons a acts ih =>
    rw [run, Machine.runSteps_cons]
    exact congrArg _ (funext ih)

theorem stepPush_counters (c : Config T) (s : State α T) (t : T) (id : ℕ) (pc : Pc α) :
    (stepPush c s t id pc).head ≤ s.head + 1 ∧ (stepPush c s t id pc).tail = s.tail := by
  cases pc <;> simp only [stepPush, State.setPc, State.setHead] <;> (try split_ifs) <;> simp

theorem stepPop_counters (c : Config T) (s : State α T) (t : T) (id : ℕ) (pc : Pc α) :
    (stepPop c s t id pc).head = s.head ∧ (stepPop c s t id pc).tail ≤ s.tail + 1 := by
  cases pc <;> simp only [stepPop, State.setPc, State.setTail] <;> (try split_ifs) <;> simp

theorem step_counters (c : Config T) {s s' : State α T} {a : Act α T} (hs : step c s a = some s') :
    s'.head ≤ s.head + 1 ∧ s'.tail ≤ s.tail + 1 := by
  cases a with
  | push t ptr =>
    cases hpc : s.pc t <;> simp only [step, hpc, reduceCtorEq, Option.some.injEq] at hs
    subst hs
    simp [State.setPc, State.setHead]
  | pop t =>
    cases hpc : s.pc t <;> simp only [step, hpc, reduceCtorEq, Option.some.injEq] at hs
    subst hs
    simp [State.setPc, State.setTail]
  | next t =>
    cases hpc : s.pc t with
    | idle => simp [step, hpc] at hs
    | pushFaa | pushStorePos | pushCheck | pushScanStart | pushScan | pushRecheck | pushWrite
    | pushReset =>
      simp only [step, hpc, Option.some.injEq] at hs
      subst hs
      have := stepPush_counters c s t (c.thrId t) (s.pc t)
      rw [hpc] at this
      omega
    | popFaa | popStorePos | popCheck | popScanStart | popScan | popRecheck | popRead | popReset =>
      simp only [step, hpc, Option.some.injEq] at hs
      subst hs
      have := stepPop_counters c s t (c.thrId t) (s.pc t)
      rw [hpc] at this
      omega

/-- **The counters stay within the run.** After a run from the constructor,
`head_` and `tail_` are at most its number of steps. -/
theorem head_tail_le_length (c : Config T) {acts : List (Act α T)} {s : State α T}
    (hrun : run c lockFreeQueue acts = some s) : s.head ≤ acts.length ∧ s.tail ≤ acts.length := by
  rw [run_eq_runSteps] at hrun
  have hh := Machine.runSteps_le_add_length (step c) State.head (fun _ _ _ hs => (step_counters c hs).1) hrun
  have ht := Machine.runSteps_le_add_length (step c) State.tail (fun _ _ _ hs => (step_counters c hs).2) hrun
  exact ⟨by simpa [lockFreeQueue] using hh, by simpa [lockFreeQueue] using ht⟩

/-- The queue as `natsys_q.h` builds it: `LockFreeQueue<work_node_t, thr_id,
10000000>` constructed with `(nproducers, nconsumers)`. No thread calls
`set_thr_id`, so `thr_id()` is `0` in every thread. -/
def harnessConfig (nproducers nconsumers : ℕ) : Config T where
  qSize := 10000000
  nProducers := nproducers
  nConsumers := nconsumers
  thrId := fun _ => 0

end Natsys
end QueueRate
