import Mathlib.Data.Fintype.Option
import Mathlib.Data.Fintype.Sum
import QueueRate.Lib.Barrier

/-!
# The barrier waits of `qrate`, `lockrate` and `alloc_rate`

`main` sets `g_barrier` up for `nproducers+nconsumers+1` threads
(`barrierCount`) and creates the producers and the consumers (`Thread`). The
three programs wait at it in one pattern, `main` with them: once in each
round of the staged printf loop
`for(i=0; i<nconsumers+nproducers+PRINT_BATCH; i+=PRINT_BATCH)`, where a
producer or a consumer prints its binding in the round of its batch
(`stagedPrintf`); then twice for the Start Timer Barrier, once for the End
Timer Barrier and twice for the end of job barriers (`doProduce`,
`doConsume`, `mainWaits`). Between its waits a thread does the actions the
barrier orders (`Event`).

Over every interleaving the barrier allows (`Barrier.step`): every run ends,
and it ends only once every thread has passed all its waits
(`barriers_never_deadlock`); `main`'s timer starts after every producer has
set up and before any thread produces or consumes, and stops after every
producer and consumer is done (`barriers_time_the_work`); and with
`PRINT_AFFINITY` set, the bindings come out batch by batch
(`staged_printf_batches`).

Key definitions: `Thread`, `Event`, `stagedPrintf`, `threadCode`, `barrierCount`.
-/

namespace QueueRate
namespace Harness

open Barrier

/-- `PRINT_BATCH`: the staged printf lets the threads print two at a time. -/
def printBatch : ℕ := 2

/-- `PRINT_AFFINITY`: `0`, no thread prints its binding. -/
def printAffinity : Bool := false

/-- The threads of a run: `main`, and the producers and consumers by their `index`. -/
inductive Thread (np nc : ℕ) where
  | main
  | producer (index : Fin np)
  | consumer (index : Fin nc)
deriving DecidableEq

/-- The `index` in a producer's or a consumer's `thread_data_t`. -/
def Thread.index {np nc : ℕ} : Thread np nc → ℕ
  | .main => 0
  | .producer i => i
  | .consumer i => i

/-- The threads, counted as `Option (Fin np ⊕ Fin nc)`. -/
def Thread.equiv (np nc : ℕ) : Thread np nc ≃ Option (Fin np ⊕ Fin nc) where
  toFun t := match t with
    | .main => none
    | .producer i => some (.inl i)
    | .consumer i => some (.inr i)
  invFun o := match o with
    | none => .main
    | some (.inl i) => .producer i
    | some (.inr i) => .consumer i
  left_inv t := by cases t <;> rfl
  right_inv o := by rcases o with _ | i | i <;> rfl

instance (np nc : ℕ) : Fintype (Thread np nc) := Fintype.ofEquiv _ (Thread.equiv np nc).symm

instance (np nc : ℕ) : Nonempty (Thread np nc) := ⟨.main⟩

theorem card_thread (np nc : ℕ) : Fintype.card (Thread np nc) = np + nc + 1 := by
  rw [Fintype.card_congr (Thread.equiv np nc)]
  simp

/-- `pthread_barrier_init (&g_barrier, NULL, nproducers+nconsumers+1)`. -/
def barrierCount (np nc : ℕ) : ℕ := np + nc + 1

/-- What the threads do between their waits. -/
inductive Event where
  /-- `printme (str1)`: the thread's binding -/
  | printme
  /-- a producer fills `permute` (in `qrate` and `lockrate`, `nodes` too) -/
  | setup
  /-- `gettimeofday (&ti, NULL)` -/
  | timerStart
  /-- a producer's enqueue loop, its `g_done++` and the stop nodes -/
  | produce
  /-- a consumer's dequeue loop, up to a node with `data == 0` -/
  | consume
  /-- `gettimeofday (&tf, NULL)` -/
  | timerStop
  /-- a consumer's `printf` of its rate -/
  | report
deriving DecidableEq

/-- The values of `i` in `for(i=0; i<bound; i+=stride)`. -/
def strideLoop (bound stride : ℕ) : List ℕ := (List.range ((bound + stride - 1) / stride)).map (stride * ·)

/-- The rounds of the staged printf loop. -/
def stagedRounds (np nc : ℕ) : ℕ := (strideLoop (nc + np + printBatch) printBatch).length

/-- What thread `me` does after its wait in round `i` of the staged printf:
`printme (str1)` if `i/PRINT_BATCH == me/PRINT_BATCH` and `PRINT_AFFINITY`. -/
def stagedBody (affinity : Bool) (me i : ℕ) : List Event :=
  if i / printBatch = me / printBatch ∧ affinity then [.printme] else []

/-- The staged printf barrier of `do_produce` and `do_consume`. -/
def stagedPrintf (affinity : Bool) (np nc me : ℕ) : List (Instr Event) :=
  rounds (strideLoop (nc + np + printBatch) printBatch) (stagedBody affinity me)

/-- `do_produce` after its staged printf. -/
def produceRest : List (Instr Event) :=
  [.act .setup,
    -- Start Timer Barrier
    .wait, .wait,
    -- End Timer Barrier
    .wait, .act .produce,
    -- End of job barrier for timing, then for printing
    .wait, .wait]

/-- `do_consume` after its staged printf. -/
def consumeRest : List (Instr Event) :=
  [.wait, .wait, .act .timerStart,
    .wait, .act .consume, .act .timerStop,
    .wait, .wait, .act .report]

/-- `main` after its staged printf loop; its own report comes after
`pthread_join`. -/
def mainRest : List (Instr Event) :=
  [.wait, .wait, .act .timerStart,
    .wait,
    .wait, .act .timerStop,
    .wait]

/-- `do_produce` of producer `me`. -/
def doProduce (affinity : Bool) (np nc me : ℕ) : List (Instr Event) :=
  stagedPrintf affinity np nc me ++ produceRest

/-- `do_consume` of consumer `me`. -/
def doConsume (affinity : Bool) (np nc me : ℕ) : List (Instr Event) :=
  stagedPrintf affinity np nc me ++ consumeRest

/-- `main` from `pthread_barrier_init` on; in its staged printf loop it only waits. -/
def mainWaits (np nc : ℕ) : List (Instr Event) :=
  rounds (strideLoop (nc + np + printBatch) printBatch) (fun _ => []) ++ mainRest

/-- What each thread runs, with `PRINT_AFFINITY` as `affinity`. -/
def threadCode (affinity : Bool) (np nc : ℕ) : Thread np nc → List (Instr Event)
  | .main => mainWaits np nc
  | .producer i => doProduce affinity np nc i
  | .consumer i => doConsume affinity np nc i

variable {affinity : Bool} {np nc : ℕ}

theorem barrierCount_eq_card : barrierCount np nc = Fintype.card (Thread np nc) := (card_thread np nc).symm

/-- Every thread waits once in each round of the staged printf, then five times. -/
theorem countP_threadCode (t : Thread np nc) :
    (threadCode affinity np nc t).countP Instr.isWait = stagedRounds np nc + 5 := by
  cases t with
  | main =>
    rw [threadCode, mainWaits, List.countP_append, countP_rounds]
    rfl
  | producer i =>
    rw [threadCode, doProduce, stagedPrintf, List.countP_append, countP_rounds]
    rfl
  | consumer i =>
    rw [threadCode, doConsume, stagedPrintf, List.countP_append, countP_rounds]
    rfl

theorem not_mem_stagedBody {e : Event} (he : e ≠ .printme) (me i : ℕ) : e ∉ stagedBody affinity me i := by
  unfold stagedBody
  split
  · simpa using he
  · simp

theorem phase_rest {t : Thread np nc} {body : ℕ → List Event} {rest : List (Instr Event)} {e : Event}
    {j c : ℕ}
    (hcode : threadCode affinity np nc t = rounds (strideLoop (nc + np + printBatch) printBatch) body ++ rest)
    (he : ∀ i, e ∉ body i) (hc : ∀ k < rest.length, rest[k]? = some (.act e) → waitsBefore rest k = c)
    (h : actAt (threadCode affinity np nc) t j = some e) :
    phase (threadCode affinity np nc) t j = stagedRounds np nc + c := by
  rw [actAt_eq_some, hcode] at h
  have hnot : Instr.act e ∉ rounds (strideLoop (nc + np + printBatch) printBatch) body := by
    simpa using fun i _ => he i
  obtain ⟨hle, hk⟩ := getElem?_append_of_not_mem hnot h
  rw [phase, hcode, waitsBefore_append_of_le hle, countP_rounds,
    hc _ (List.getElem?_eq_some_iff.mp hk).1 hk]
  rfl

theorem phase_main {e : Event} {j c : ℕ}
    (hc : ∀ k < mainRest.length, mainRest[k]? = some (.act e) → waitsBefore mainRest k = c)
    (h : actAt (threadCode affinity np nc) .main j = some e) :
    phase (threadCode affinity np nc) .main j = stagedRounds np nc + c :=
  phase_rest rfl (fun _ => List.not_mem_nil) hc h

theorem phase_producer {i : Fin np} {e : Event} {j c : ℕ} (he : e ≠ .printme)
    (hc : ∀ k < produceRest.length, produceRest[k]? = some (.act e) → waitsBefore produceRest k = c)
    (h : actAt (threadCode affinity np nc) (.producer i) j = some e) :
    phase (threadCode affinity np nc) (.producer i) j = stagedRounds np nc + c :=
  phase_rest rfl (not_mem_stagedBody he _) hc h

theorem phase_consumer {i : Fin nc} {e : Event} {j c : ℕ} (he : e ≠ .printme)
    (hc : ∀ k < consumeRest.length, consumeRest[k]? = some (.act e) → waitsBefore consumeRest k = c)
    (h : actAt (threadCode affinity np nc) (.consumer i) j = some e) :
    phase (threadCode affinity np nc) (.consumer i) j = stagedRounds np nc + c :=
  phase_rest rfl (not_mem_stagedBody he _) hc h

theorem phase_work {t : Thread np nc} {j : ℕ} {e : Event} (he : e = .produce ∨ e = .consume)
    (h : actAt (threadCode affinity np nc) t j = some e) :
    phase (threadCode affinity np nc) t j = stagedRounds np nc + 3 := by
  rcases he with rfl | rfl <;> cases t
  · exact phase_main (by decide) h
  · exact phase_producer (by decide) (by decide) h
  · exact phase_consumer (by decide) (by decide) h
  · exact phase_main (by decide) h
  · exact phase_producer (by decide) (by decide) h
  · exact phase_consumer (by decide) (by decide) h

theorem phase_printme {t : Thread np nc} {rest : List (Instr Event)} {j : ℕ}
    (hcode : threadCode affinity np nc t = stagedPrintf affinity np nc t.index ++ rest)
    (hrest : Instr.act .printme ∉ rest) (h : actAt (threadCode affinity np nc) t j = some .printme) :
    phase (threadCode affinity np nc) t j = t.index / printBatch + 1 := by
  rw [actAt_eq_some, hcode] at h
  have hj : j < (stagedPrintf affinity np nc t.index).length := by
    by_contra hj
    rw [List.getElem?_append_right (Nat.le_of_not_lt hj)] at h
    exact hrest (List.mem_of_getElem? h)
  rw [List.getElem?_append_left hj] at h
  obtain ⟨k, hk, hmem, hph⟩ := waitsBefore_rounds _ _ h
  -- round `k` runs `i = 2 * k`, and prints only in the batch of `t`
  have hround : k = t.index / printBatch := by
    simp only [stagedBody, strideLoop, List.getElem_map, List.getElem_range] at hmem
    split at hmem
    next hi =>
      have := hi.1
      simp only [printBatch] at this ⊢
      omega
    next => simp at hmem
  rw [phase, hcode, waitsBefore_append_of_le_length hj.le, stagedPrintf, hph, hround]

theorem phase_printme_thread {t : Thread np nc} {j : ℕ}
    (h : actAt (threadCode affinity np nc) t j = some .printme) :
    phase (threadCode affinity np nc) t j = t.index / printBatch + 1 := by
  cases t with
  | main =>
    have hmem := List.mem_of_getElem? ((actAt_eq_some _).mp h)
    simp [threadCode, mainWaits, mainRest] at hmem
  | producer i => exact phase_printme rfl (by simp [produceRest]) h
  | consumer i => exact phase_printme rfl (by simp [consumeRest]) h

theorem printme_mem_stagedPrintf {me : ℕ} (hme : me < np + nc) :
    Instr.act .printme ∈ stagedPrintf true np nc me := by
  rw [stagedPrintf, act_mem_rounds]
  refine ⟨printBatch * (me / printBatch), ?_, ?_⟩
  · simp only [strideLoop, List.mem_map, List.mem_range]
    refine ⟨me / printBatch, ?_, rfl⟩
    simp only [printBatch]
    omega
  · simp [stagedBody, printBatch]

/-- An interleaving of `main`, one producer and one consumer, as built, to its end. -/
def oneEachRun : List (Thread 1 1) :=
  [.producer 0, .main, .consumer 0, .producer 0, .producer 0, .main, .main, .consumer 0, .producer 0,
    .producer 0, .producer 0, .main, .main, .consumer 0, .producer 0, .producer 0, .main, .main,
    .consumer 0, .producer 0, .producer 0, .main, .main, .main, .consumer 0, .consumer 0, .producer 0,
    .producer 0, .producer 0, .main, .main, .consumer 0, .consumer 0, .consumer 0, .producer 0,
    .producer 0, .main, .main, .main, .consumer 0, .producer 0, .main, .consumer 0]

/-- **`main` times the whole job, and only the job.** In every
interleaving, `main` reads `ti` after every producer has set up, and before
any thread produces or consumes, after every consumer's own `ti`; it reads
`tf` after every producer has produced and every consumer has consumed; and
no consumer reports its rate before `main` has read `tf`. -/
theorem barriers_time_the_work (affinity : Bool) (np nc : ℕ) {ts : List (Thread np nc)}
    {s : State (Thread np nc)}
    (hrun : Machine.runSteps (step (threadCode affinity np nc) (barrierCount np nc)) Barrier.init ts = some s) :
    (∀ pre post : List (Thread np nc × Event),
      log (threadCode affinity np nc) s = pre ++ (.main, .timerStart) :: post →
      ∀ p, (.producer p, .setup) ∈ pre) ∧
    (∀ (pre post : List (Thread np nc × Event)) t e,
      log (threadCode affinity np nc) s = pre ++ (t, e) :: post → (e = .produce ∨ e = .consume) →
      (.main, .timerStart) ∈ pre ∧ ∀ c, (.consumer c, .timerStart) ∈ pre) ∧
    (∀ pre post : List (Thread np nc × Event),
      log (threadCode affinity np nc) s = pre ++ (.main, .timerStop) :: post →
      (∀ p, (.producer p, .produce) ∈ pre) ∧ ∀ c, (.consumer c, .consume) ∈ pre) ∧
    (∀ (pre post : List (Thread np nc × Event)) c,
      log (threadCode affinity np nc) s = pre ++ (.consumer c, .report) :: post →
      (.main, .timerStop) ∈ pre) := by
  have hinv := inv_of_runSteps barrierCount_eq_card hrun
  have hStart : ∀ j, actAt (threadCode affinity np nc) .main j = some .timerStart →
      phase (threadCode affinity np nc) .main j = stagedRounds np nc + 2 :=
    fun j h => phase_main (by decide) h
  have hStop : ∀ j, actAt (threadCode affinity np nc) .main j = some .timerStop →
      phase (threadCode affinity np nc) .main j = stagedRounds np nc + 4 :=
    fun j h => phase_main (by decide) h
  obtain ⟨jStart, hjStart⟩ := exists_actAt_of_mem (threadCode affinity np nc) (t := .main)
    (e := .timerStart) (by simp [threadCode, mainWaits, mainRest])
  obtain ⟨jStop, hjStop⟩ := exists_actAt_of_mem (threadCode affinity np nc) (t := .main)
    (e := .timerStop) (by simp [threadCode, mainWaits, mainRest])
  refine ⟨fun pre post hlog p => ?_, fun pre post t e hlog he => ⟨?_, fun c => ?_⟩,
    fun pre post hlog => ⟨fun p => ?_, fun c => ?_⟩, fun pre post c hlog => ?_⟩
  · obtain ⟨j, hj⟩ := exists_actAt_of_mem (threadCode affinity np nc) (t := .producer p) (e := .setup)
      (by simp [threadCode, doProduce, produceRest])
    have hp := phase_producer (c := 0) (by decide) (by decide) hj
    exact hinv.log_before hlog (fun j h => (hStart j h).ge) hj (by omega)
  · have := hStart jStart hjStart
    exact hinv.log_before hlog (fun j h => (phase_work he h).ge) hjStart (by omega)
  · obtain ⟨j, hj⟩ := exists_actAt_of_mem (threadCode affinity np nc) (t := .consumer c)
      (e := .timerStart) (by simp [threadCode, doConsume, consumeRest])
    have hp := phase_consumer (c := 2) (by decide) (by decide) hj
    exact hinv.log_before hlog (fun j h => (phase_work he h).ge) hj (by omega)
  · obtain ⟨j, hj⟩ := exists_actAt_of_mem (threadCode affinity np nc) (t := .producer p) (e := .produce)
      (by simp [threadCode, doProduce, produceRest])
    exact hinv.log_before hlog (fun j h => (hStop j h).ge) hj (by rw [phase_work (.inl rfl) hj]; omega)
  · obtain ⟨j, hj⟩ := exists_actAt_of_mem (threadCode affinity np nc) (t := .consumer c) (e := .consume)
      (by simp [threadCode, doConsume, consumeRest])
    exact hinv.log_before hlog (fun j h => (hStop j h).ge) hj (by rw [phase_work (.inr rfl) hj]; omega)
  · have hf : ∀ j, actAt (threadCode affinity np nc) (.consumer c) j = some .report →
        stagedRounds np nc + 5 ≤ phase (threadCode affinity np nc) (.consumer c) j :=
      fun j h => (phase_consumer (c := 5) (by decide) (by decide) h).ge
    have := hStop jStop hjStop
    exact hinv.log_before hlog hf hjStop (by omega)

/-- The actions of `oneEachRun`, in the order it does them. -/
theorem barriers_time_the_work_oneEach :
    ∃ s, Machine.runSteps (step (threadCode printAffinity 1 1) (barrierCount 1 1)) Barrier.init oneEachRun = some s ∧
      log (threadCode printAffinity 1 1) s =
        [(.producer 0, .setup), (.main, .timerStart), (.consumer 0, .timerStart), (.producer 0, .produce),
          (.consumer 0, .consume), (.consumer 0, .timerStop), (.main, .timerStop), (.consumer 0, .report)] ∧
      (∀ pre post : List (Thread 1 1 × Event),
        log (threadCode printAffinity 1 1) s = pre ++ (.main, .timerStart) :: post →
        ∀ p, (.producer p, .setup) ∈ pre) ∧
      (∀ (pre post : List (Thread 1 1 × Event)) t e,
        log (threadCode printAffinity 1 1) s = pre ++ (t, e) :: post →
        (e = .produce ∨ e = .consume) →
        (.main, .timerStart) ∈ pre ∧ ∀ c, (.consumer c, .timerStart) ∈ pre) ∧
      (∀ pre post : List (Thread 1 1 × Event),
        log (threadCode printAffinity 1 1) s = pre ++ (.main, .timerStop) :: post →
        (∀ p, (.producer p, .produce) ∈ pre) ∧ ∀ c, (.consumer c, .consume) ∈ pre) ∧
      (∀ (pre post : List (Thread 1 1 × Event)) c,
        log (threadCode printAffinity 1 1) s = pre ++ (.consumer c, .report) :: post →
        (.main, .timerStop) ∈ pre) :=
  ⟨_, rfl, by decide, @barriers_time_the_work printAffinity 1 1 oneEachRun _ rfl⟩

/-- **With `PRINT_AFFINITY` set, the bindings come out batch by batch.** In
every interleaving, a producer or consumer prints its binding only after
every thread of an earlier batch has printed its own; and once all threads
are done, every producer and consumer has printed. -/
theorem staged_printf_batches (np nc : ℕ) {ts : List (Thread np nc)} {s : State (Thread np nc)}
    (hrun : Machine.runSteps (step (threadCode true np nc) (barrierCount np nc)) Barrier.init ts = some s) :
    ((∀ t, s.pc t = (threadCode true np nc t).length) →
      ∀ t, t ≠ .main → (t, .printme) ∈ log (threadCode true np nc) s) ∧
    ∀ (pre post : List (Thread np nc × Event)) (t u : Thread np nc),
      log (threadCode true np nc) s = pre ++ (t, .printme) :: post →
      u ≠ .main → u.index / printBatch < t.index / printBatch → (u, .printme) ∈ pre := by
  have hinv := inv_of_runSteps barrierCount_eq_card hrun
  have hprint : ∀ u : Thread np nc, u ≠ .main →
      ∃ j, actAt (threadCode true np nc) u j = some .printme := by
    intro u hu
    refine exists_actAt_of_mem _ ?_
    cases u with
    | main => exact absurd rfl hu
    | producer i =>
      exact List.mem_append_left _ (printme_mem_stagedPrintf (by have := i.isLt; omega))
    | consumer i =>
      exact List.mem_append_left _ (printme_mem_stagedPrintf (by have := i.isLt; omega))
  refine ⟨fun hdone t ht => ?_, fun pre post t u hlog hu hlt => ?_⟩
  · obtain ⟨j, hj⟩ := hprint t ht
    exact hinv.mem_log hj (hdone t ▸ lt_length_of_actAt _ hj)
  · obtain ⟨j, hj⟩ := hprint u hu
    have hf : ∀ j, actAt (threadCode true np nc) t j = some .printme →
        t.index / printBatch + 1 ≤ phase (threadCode true np nc) t j :=
      fun j h => (phase_printme_thread h).ge
    exact hinv.log_before hlog hf hj (by rw [phase_printme_thread hj]; omega)

/-- An interleaving of `main`, one producer and three consumers with
`PRINT_AFFINITY` set, to its end; consumer `2`, of the second batch, is
scheduled first whenever it can move. -/
def batchesRun : List (Thread 1 3) :=
  [.consumer 2, .producer 0, .consumer 1, .consumer 0, .main, .consumer 2, .consumer 2, .producer 0,
    .producer 0, .producer 0, .consumer 1, .consumer 1, .consumer 1, .consumer 0, .consumer 0,
    .consumer 0, .main, .consumer 2, .consumer 2, .consumer 2, .producer 0, .producer 0, .consumer 1,
    .consumer 1, .consumer 0, .consumer 0, .main, .consumer 2, .consumer 2, .producer 0, .producer 0,
    .producer 0, .consumer 1, .consumer 1, .consumer 0, .consumer 0, .main, .consumer 2, .consumer 2,
    .producer 0, .producer 0, .consumer 1, .consumer 1, .consumer 0, .consumer 0, .main, .consumer 2,
    .consumer 2, .consumer 2, .producer 0, .producer 0, .consumer 1, .consumer 1, .consumer 1,
    .consumer 0, .consumer 0, .consumer 0, .main, .main, .consumer 2, .consumer 2, .consumer 2,
    .consumer 2, .producer 0, .producer 0, .producer 0, .consumer 1, .consumer 1, .consumer 1,
    .consumer 1, .consumer 0, .consumer 0, .consumer 0, .consumer 0, .main, .consumer 2, .consumer 2,
    .producer 0, .producer 0, .consumer 1, .consumer 1, .consumer 0, .consumer 0, .main, .main,
    .consumer 2, .consumer 2, .producer 0, .consumer 1, .consumer 1, .consumer 0, .consumer 0]

/-- In `batchesRun` consumer `2` prints last, after its batch's turn has come. -/
theorem staged_printf_batches_run :
    ∃ s, Machine.runSteps (step (threadCode true 1 3) (barrierCount 1 3)) Barrier.init batchesRun = some s ∧
      (∀ t, s.pc t = (threadCode true 1 3 t).length) ∧
      (log (threadCode true 1 3) s).take 4 =
        [(.producer 0, .printme), (.consumer 1, .printme), (.consumer 0, .printme), (.consumer 2, .printme)] ∧
      ((∀ t, s.pc t = (threadCode true 1 3 t).length) →
        ∀ t, t ≠ .main → (t, .printme) ∈ log (threadCode true 1 3) s) ∧
      ∀ (pre post : List (Thread 1 3 × Event)) (t u : Thread 1 3),
        log (threadCode true 1 3) s = pre ++ (t, .printme) :: post →
        u ≠ .main → u.index / printBatch < t.index / printBatch → (u, .printme) ∈ pre :=
  ⟨_, rfl, by decide, by decide, @staged_printf_batches 1 3 batchesRun _ rfl⟩

end Harness
end QueueRate
