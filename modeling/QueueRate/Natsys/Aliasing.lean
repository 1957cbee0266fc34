import QueueRate.Natsys.Model

/-!
# Two positions, one slot

The slot of position `pos` is `pos & Q_MASK`. That is `pos % Q_SIZE` when
`Q_SIZE` is a power of two (`slot_eq_mod`), so that the `Q_SIZE` positions
a producer may run ahead of the slowest consumer have distinct slots. For
`Q_SIZE = 10000000`, the size `natsys_q.h` instantiates, `Q_MASK = 9999999`
has bit 7 clear, so positions `0` and `128` share slot `0` although they
are far less than `Q_SIZE` apart.

A producer that pushes alone never waits while its positions stay below
`Q_SIZE` (`run_pushes`); its pointers are then in the slots as the writes
left them (`writes`). The first `pop` after them reserves position `0` and
returns the last pointer written to slot `0`. So as soon
as some position `p < Q_SIZE` aliases position `0`, the pop that reserved
position `0` returns the pointer pushed at `p` (`first_pop_aliased`).

Key theorems: `run_pushes`, `first_pop_aliased`, `natsys_pop_returns_other_push`.
-/

namespace QueueRate
namespace Natsys

variable {α T : Type*} [DecidableEq T]

/-! ### Runs -/

theorem run_append (c : Config T) (s : State α T) (as bs : List (Act α T)) :
    run c s (as ++ bs) = (run c s as).bind fun s' => run c s' bs := by
  induction as generalizing s with
  | nil => rfl
  | cons a as ih =>
    simp only [List.cons_append, run]
    cases step c s a with
    | none => rfl
    | some s' => exact ih s'

/-- The actions of a `push(ptr)` by `t` that does not wait: its start and five steps. -/
def pushActs (t : T) (ptr : α) : List (Act α T) :=
  [.push t ptr, .next t, .next t, .next t, .next t, .next t]

/-- `push(f i)` by `t`, for `i < k`, one after another. -/
def pushesActs (t : T) (f : ℕ → α) (k : ℕ) : List (Act α T) :=
  (List.range k).flatMap fun i => pushActs t (f i)

/-- The actions of a `pop()` by `t` that scans the heads of `n` producers
once: its start and fetch-and-add, store and test, `min = head_`, the `n`
reads of the scan, then the store of `last_head_`, the re-test, the read
and the reset. -/
def popActs (t : T) (n : ℕ) : List (Act α T) :=
  .pop t :: List.replicate 4 (.next t) ++ List.replicate n (.next t) ++ List.replicate 4 (.next t)

theorem State.setPc_setPc (s : State α T) (u : T) (a b : Pc α) :
    (s.setPc u a).setPc u b = s.setPc u b := by
  simp [State.setPc]

theorem State.setPc_self (s : State α T) {u : T} {a : Pc α} (h : s.pc u = a) : s.setPc u a = s := by
  rw [State.setPc, ← h, Function.update_eq_self]

/-! ### A thread alone -/

/-- The queue after a push of `ptr` by `t` that runs alone and does not wait. -/
def State.afterPush (c : Config T) (s : State α T) (t : T) (ptr : α) : State α T :=
  { s with head := s.head + 1,
           thrP := Function.update s.thrP (c.thrId t) { s.thrP (c.thrId t) with head := ulongMax },
           ptrArray := Function.update s.ptrArray (s.head &&& c.qMask) (some ptr),
           reserved := Function.update s.reserved t s.head,
           pushed := s.pushed ++ [(t, s.head, ptr)] }

/-- **A push alone**: with its position less than `Q_SIZE` past `last_tail_`,
it does not wait and writes its pointer to the slot of its position. -/
theorem run_pushActs (c : Config T) (s : State α T) (t : T) (ptr : α) (hpc : s.pc t = .idle)
    (hroom : s.head < s.lastTail + c.qSize) :
    run c s (pushActs t ptr) = some (s.afterPush c t ptr) := by
  have hwait : ¬ s.lastTail + c.qSize ≤ s.head := by omega
  simp [run, step, stepPush, pushActs, hpc, State.setHead, State.setPc, State.afterPush, hwait]

/-- The queue after a pop by `u` that runs alone, scans once and reads. -/
def State.afterPop (c : Config T) (s : State α T) (u : T) : State α T :=
  { s with tail := s.tail + 1, lastHead := s.head,
           thrP := Function.update s.thrP (c.thrId u) { s.thrP (c.thrId u) with tail := ulongMax },
           reserved := Function.update s.reserved u s.tail,
           popped := s.popped ++ [(u, s.tail, s.ptrArray (s.tail &&& c.qMask))] }

theorem run_popScan (c : Config T) (s : State α T) (u : T) {i n min : ℕ}
    (hpc : s.pc u = .popScan i min) (hmin : ∀ j, i ≤ j → min ≤ (s.thrP j).head)
    (hi : i + n = c.nProducers) :
    run c s (List.replicate n (.next u)) = some (s.setPc u (.popScan c.nProducers min)) := by
  -- induction on the number of heads left to read
  induction n generalizing i s with
  | zero =>
    rw [Nat.add_zero] at hi
    subst hi
    rw [List.replicate_zero, run, State.setPc_self s hpc]
  | succ n ih =>
    have hlt : i < c.nProducers := by omega
    have hstep : step c s (.next u) = some (s.setPc u (.popScan (i + 1) min)) := by
      simp [step, hpc, stepPop, hlt, not_lt.mpr (hmin i le_rfl)]
    have hrest := ih (s.setPc u (.popScan (i + 1) min)) (i := i + 1) (by simp [State.setPc])
      (fun j hj => hmin j (by omega)) (by omega)
    rw [State.setPc_setPc] at hrest
    rw [List.replicate_succ, run, hstep, Option.bind_some, hrest]

/-- **A pop alone**: when no producer has published a position below `head_`,
its scan sets `last_head_` to `head_`; if its position is below that, it
reads the slot of its position. -/
theorem run_popActs (c : Config T) (s : State α T) (u : T) (hpc : s.pc u = .idle)
    (hcheck : s.lastHead ≤ s.tail) (hheads : ∀ j, s.head ≤ (s.thrP j).head)
    (hread : s.tail < s.head) :
    run c s (popActs u c.nProducers) = some (s.afterPop c u) := by
  -- the start, the fetch-and-add, the store, the test and `min = head_`
  let s1 : State α T :=
    { s with tail := s.tail + 1,
             thrP := Function.update s.thrP (c.thrId u) { s.thrP (c.thrId u) with tail := s.tail },
             reserved := Function.update s.reserved u s.tail,
             pc := Function.update s.pc u (.popScan 0 s.head) }
  have h1 : run c s (.pop u :: List.replicate 4 (.next u)) = some s1 := by
    simp [run, step, stepPop, hpc, State.setTail, State.setPc, hcheck, s1]
  have h2 : run c s1 (List.replicate c.nProducers (.next u)) =
      some (s1.setPc u (.popScan c.nProducers s.head)) := by
    refine run_popScan c s1 u (i := 0) (by simp [s1]) (fun j _ => ?_) (Nat.zero_add _)
    by_cases hj : j = c.thrId u
    · subst hj
      simpa [s1] using hheads (c.thrId u)
    · simpa [s1, hj] using hheads j
  -- the store of `last_head_`, the re-test, the read and the reset
  have h3 : run c (s1.setPc u (.popScan c.nProducers s.head)) (List.replicate 4 (.next u)) =
      some (s.afterPop c u) := by
    simp [run, step, stepPop, State.setPc, State.setTail, State.afterPop, s1, hread, hpc]
  rw [popActs, run_append, run_append, h1, Option.bind_some, h2, Option.bind_some, h3]

/-! ### A producer, then a consumer -/

/-- The slots after the writes of `f i` to the slot of position `i`, for `i < k`. -/
def writes (mask : ℕ) (f : ℕ → α) : ℕ → ℕ → Option α
  | 0 => fun _ => none
  | k + 1 => Function.update (writes mask f k) (k &&& mask) (some (f k))

/-- The queue after `k` pushes by `t`, of `f 0, ..., f (k - 1)`, none of which waited. -/
def afterPushes (c : Config T) (t : T) (f : ℕ → α) (k : ℕ) : State α T where
  head := k
  tail := 0
  lastHead := 0
  lastTail := 0
  thrP := fun _ => ⟨ulongMax, ulongMax⟩
  ptrArray := writes c.qMask f k
  pc := fun _ => .idle
  reserved := Function.update (fun _ => 0) t (k - 1)
  pushed := (List.range k).map fun i => (t, i, f i)
  popped := []

theorem afterPushes_zero (c : Config T) (t : T) (f : ℕ → α) :
    afterPushes c t f 0 = lockFreeQueue := by
  simp [afterPushes, lockFreeQueue, writes]

theorem afterPushes_succ (c : Config T) (t : T) (f : ℕ → α) (k : ℕ) :
    (afterPushes c t f k).afterPush c t (f k) = afterPushes c t f (k + 1) := by
  simp only [afterPushes, State.afterPush, writes, List.range_succ, List.map_append,
    List.map_cons, List.map_nil, Function.update_idem, Nat.add_sub_cancel, State.mk.injEq,
    true_and, and_true]
  funext i
  by_cases hi : i = c.thrId t
  · subst hi
    rw [Function.update_self]
  · rw [Function.update_of_ne hi]

/-- **A producer alone**: `k` pushes by `t`, at positions below `Q_SIZE`, run
without waiting from the constructed queue. -/
theorem run_pushes (c : Config T) (t : T) (f : ℕ → α) {k : ℕ} (hk : k ≤ c.qSize) :
    run c lockFreeQueue (pushesActs t f k) = some (afterPushes c t f k) := by
  induction k with
  | zero =>
    rw [afterPushes_zero]
    rfl
  | succ k ih =>
    have hroom : (afterPushes c t f k).head < (afterPushes c t f k).lastTail + c.qSize := by
      show k < 0 + c.qSize
      omega
    rw [pushesActs, List.range_succ, List.flatMap_append, run_append, ← pushesActs,
      ih (by omega), Option.bind_some, List.flatMap_singleton,
      run_pushActs c _ t (f k) rfl hroom, afterPushes_succ]

/-- **The first pop reads the last write to slot `0`.** If position `p`, less
than `Q_SIZE`, has slot `0`, then after `p + 1` pushes by one producer the
first pop, which reserved position `0`, returns the pointer pushed at `p`. -/
theorem first_pop_aliased (c : Config T) (t u : T) (f : ℕ → α) {p : ℕ} (hp : p < c.qSize)
    (hpm : p < ulongMax) (halias : p &&& c.qMask = 0) :
    ∃ s, run c lockFreeQueue (pushesActs t f (p + 1) ++ popActs u c.nProducers) = some s ∧
      s.pushed = (List.range (p + 1)).map (fun i => (t, i, f i)) ∧
      s.popped = [(u, 0, some (f p))] := by
  have hpop := run_popActs c (afterPushes c t f (p + 1)) u rfl (le_refl 0)
    (fun _ => by show p + 1 ≤ ulongMax; omega) (Nat.succ_pos p)
  refine ⟨(afterPushes c t f (p + 1)).afterPop c u, ?_, rfl, ?_⟩
  · rw [run_append, run_pushes c t f (by omega), Option.bind_some, hpop]
  · show [(u, 0, writes c.qMask f (p + 1) (0 &&& c.qMask))] = [(u, 0, some (f p))]
    rw [Nat.zero_and, writes, ← halias, Function.update_self]

/-! ### Slots and positions -/

omit [DecidableEq T] in
/-- With `Q_SIZE` a power of two, the slot of a position is the position modulo `Q_SIZE`. -/
theorem slot_eq_mod (c : Config T) {n : ℕ} (hq : c.qSize = 2 ^ n) (pos : ℕ) :
    pos &&& c.qMask = pos % c.qSize := by
  rw [Config.qMask, hq]
  exact Nat.and_two_pow_sub_one_eq_mod pos n

omit [DecidableEq T] in
/-- In the harness's queue, `Q_MASK = 9999999` has bit 7 clear: position
`128` has slot `0`. -/
theorem harness_slot_alias (nproducers nconsumers : ℕ) :
    128 &&& (harnessConfig (T := T) nproducers nconsumers).qMask = 0 := by
  show 128 &&& (10000000 - 1) = 0
  decide

/-- The harness's queue with one producer and one consumer, threads `0` and
`1`: the producer pushes the pointers `0, ..., 128` before the consumer's
first pop. Only the push of `0` reserved position `0`, yet the pop that
reserved position `0` returns `128`. -/
theorem natsys_pop_returns_other_push :
    ∃ s : State ℕ ℕ, run (harnessConfig 1 1) lockFreeQueue (pushesActs 0 id 129 ++ popActs 1 1) = some s ∧
      (0, 0, 0) ∈ s.pushed ∧ (∀ e ∈ s.pushed, e.2.1 = 0 → e = (0, 0, 0)) ∧
      (1, 0, some 128) ∈ s.popped := by
  obtain ⟨s, hrun, hpushed, hpopped⟩ :=
    first_pop_aliased (harnessConfig 1 1) 0 1 id (p := 128) (by decide) (by decide)
      (harness_slot_alias 1 1)
  refine ⟨s, hrun, ?_, fun e he h0 => ?_, ?_⟩
  · rw [hpushed]
    exact List.mem_map.mpr ⟨0, by simp, rfl⟩
  · rw [hpushed] at he
    obtain ⟨i, -, rfl⟩ := List.mem_map.mp he
    cases h0
    rfl
  · rw [hpopped]
    exact List.mem_singleton_self _

end Natsys
end QueueRate
