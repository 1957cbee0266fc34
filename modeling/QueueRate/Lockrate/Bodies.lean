import QueueRate.Lib.Critical
import QueueRate.Lockrate.Queue

/-!
# The bodies of `q_push` and `q_pop`, one access at a time

Between `lock` and `unlock`, `q_push` and `q_pop` read and write the
fields of the `q_t` and of its nodes one access after another (`bodyStep`);
`BodyPc` is where a thread is in a body, with the locals it has read. Run
alone, each body ends with what `qPush` and `qPop` do in one step
(`qBody_correct`). With a lock whose critical sections exclude each other,
`Critical` then makes the calls atomic.

Key definitions: `BodyPc`, `bodyStep`, `qBody`.
-/

namespace QueueRate
namespace Lockrate

/-- Where a thread is in the body of `q_push(self, n)` or `q_pop(self)`. -/
inductive BodyPc (α : Type*)
  /-- next: `n->next = NULL` -/
  | pushClear (n : α)
  /-- next: `if(self->head == NULL)` -/
  | pushTest (n : α)
  /-- next: `self->head = n`, the queue empty -/
  | pushSetHead (n : α)
  /-- next: `self->tail = n`, the queue empty -/
  | pushSetTail (n : α)
  /-- next: `self->head->next = n` -/
  | pushLink (n : α)
  /-- next: `self->head = n` -/
  | pushAdvance (n : α)
  /-- next: `if(self->tail == NULL)` -/
  | popTest
  /-- next: `rc = self->tail` -/
  | popLoad
  /-- next: `if(!self->tail->next)` -/
  | popTestNext (rc : α)
  /-- next: `self->head = NULL` -/
  | popClearHead (rc : α)
  /-- next: `self->tail = NULL` -/
  | popClearTail (rc : α)
  /-- next: `self->tail = self->tail->next` -/
  | popAdvance (rc : α)

variable {α : Type*} [DecidableEq α]

/-- One access of a body: the queue after it, and where the body goes on, or
what the call returns when it ends (`NULL` for `q_push`). -/
def bodyStep : BodyPc α → QT α → QT α × (BodyPc α ⊕ Option α)
  | .pushClear n, q => ({ q with next := Function.update q.next n none }, .inl (.pushTest n))
  | .pushTest n, q => (q, .inl (if q.head = none then .pushSetHead n else .pushLink n))
  | .pushSetHead n, q => ({ q with head := some n }, .inl (.pushSetTail n))
  | .pushSetTail n, q => ({ q with tail := some n }, .inr none)
  | .pushLink n, q =>
    match q.head with
    | some h => ({ q with next := Function.update q.next h (some n) }, .inl (.pushAdvance n))
    | none => (q, .inl (.pushAdvance n))
  | .pushAdvance n, q => ({ q with head := some n }, .inr none)
  -- `unlock(&self->lock); return NULL;`
  | .popTest, q => (q, if q.tail = none then .inr none else .inl .popLoad)
  | .popLoad, q =>
    match q.tail with
    | some t => (q, .inl (.popTestNext t))
    | none => (q, .inr none)
  | .popTestNext rc, q =>
    (q, .inl (if (q.tail.bind q.next) = none then .popClearHead rc else .popAdvance rc))
  | .popClearHead rc, q => ({ q with head := none }, .inl (.popClearTail rc))
  | .popClearTail rc, q => ({ q with tail := none }, .inr (some rc))
  | .popAdvance rc, q => ({ q with tail := q.tail.bind q.next }, .inr (some rc))

/-- A call in one step, under the lock: `q_pop` returns its node, `q_push` nothing. -/
def atomicCall : Fifo.Call α → QT α → QT α × Option α
  | .push n, q => (qPush q n, none)
  | .pop, q => ((qPop q).2, (qPop q).1)

/-- The bodies of `q_push` and `q_pop`. -/
def qBody : Critical.Body (QT α) (Fifo.Call α) (Option α) (BodyPc α) where
  start
    | .push n => .pushClear n
    | .pop => .popTest
  step := bodyStep
  atomic := atomicCall

/-- **Each body, run alone, does what its call does in one step**: `q_push`
ends after four accesses, `q_pop` after at most five. -/
theorem qBody_correct : (qBody (α := α)).Correct := by
  intro op q
  cases op with
  | push n =>
    refine ⟨4, ?_⟩
    cases hh : q.head with
    | none => simp [Critical.Body.run, qBody, bodyStep, atomicCall, qPush, hh]
    | some h => simp [Critical.Body.run, qBody, bodyStep, atomicCall, qPush, hh]
  | pop =>
    refine ⟨5, ?_⟩
    cases ht : q.tail with
    | none => simp [Critical.Body.run, qBody, bodyStep, atomicCall, qPop, ht]
    | some t =>
      cases hn : q.next t with
      | none => simp [Critical.Body.run, qBody, bodyStep, atomicCall, qPop, ht, hn]
      | some t' => simp [Critical.Body.run, qBody, bodyStep, atomicCall, qPop, ht, hn]

/-! ### Completed calls and the calls one after another -/

/-- What the `q_pop`s among completed calls returned, in the order the calls completed. -/
def popResults {T : Type*} : List (T × Fifo.Call α × Option α) → List (Option α)
  | [] => []
  | (_, .push _, _) :: log => popResults log
  | (_, .pop, r) :: log => r :: popResults log

/-- The calls applied one at a time in the order they completed leave the
queue that `run` leaves. -/
theorem replay_eq_run {T : Type*} (d : QT α) (log : List (T × Fifo.Call α × Option α)) :
    qBody.replay d log = (run d (log.map fun e => e.2.1)).1 := by
  induction log generalizing d with
  | nil => rfl
  | cons e log ih =>
    obtain ⟨t, op, r⟩ := e
    cases op with
    | push n => exact ih (qPush d n)
    | pop => exact ih (qPop d).2

theorem popResults_eq_run {T : Type*} {d : QT α} {log : List (T × Fifo.Call α × Option α)}
    (h : qBody.LogOk d log) : popResults log = (run d (log.map fun e => e.2.1)).2 := by
  induction log generalizing d with
  | nil => rfl
  | cons e log ih =>
    obtain ⟨t, op, r⟩ := e
    obtain ⟨hr, hlog⟩ := h
    cases op with
    | push n => exact ih hlog
    | pop =>
      change r = (qPop d).1 at hr
      change qBody.LogOk (qPop d).2 log at hlog
      simp only [popResults, List.map_cons, run, hr, ih hlog]

end Lockrate
end QueueRate
