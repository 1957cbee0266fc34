import Mathlib

/-!
# First in, first out

The abstract queue: a list, oldest first. `run` plays a sequence of calls on
it and collects what each `pop` returns; `PushesFresh` is the contract of an
intrusive queue, whose items carry their own link: an item is pushed only
when it is not in the queue.
-/

namespace Fifo

variable {α : Type*}

/-- A call on a queue. -/
inductive Call (α : Type*)
  | push (a : α)
  | pop
  deriving DecidableEq, Repr

/-- The queue after the calls, and what the `pop`s return, in order: a
`pop` returns the oldest item, or nothing if the queue is empty. -/
def run : List α → List (Call α) → List α × List (Option α)
  | q, [] => (q, [])
  | q, .push a :: cs => run (q ++ [a]) cs
  | q, .pop :: cs => ((run q.tail cs).1, q.head? :: (run q.tail cs).2)

/-- Every `push` is of an item not in the queue at the time. -/
def PushesFresh : List α → List (Call α) → Prop
  | _, [] => True
  | q, .push a :: cs => a ∉ q ∧ PushesFresh (q ++ [a]) cs
  | q, .pop :: cs => PushesFresh q.tail cs

instance instDecidablePushesFresh [DecidableEq α] :
    (q : List α) → (cs : List (Call α)) → Decidable (PushesFresh q cs)
  | _, [] => inferInstanceAs (Decidable True)
  | q, .push a :: cs =>
    have := instDecidablePushesFresh (q ++ [a]) cs
    inferInstanceAs (Decidable (a ∉ q ∧ PushesFresh (q ++ [a]) cs))
  | q, .pop :: cs => instDecidablePushesFresh q.tail cs

@[simp] theorem run_nil (q : List α) : run q [] = (q, []) := rfl

@[simp] theorem run_push (q : List α) (a : α) (cs : List (Call α)) :
    run q (.push a :: cs) = run (q ++ [a]) cs := rfl

@[simp] theorem run_pop (q : List α) (cs : List (Call α)) :
    run q (.pop :: cs) = ((run q.tail cs).1, q.head? :: (run q.tail cs).2) := rfl

end Fifo
