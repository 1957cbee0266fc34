import QueueRate.Lib.Path
import QueueRate.Lib.Fifo

/-!
# The locked queue of `lockrate.c`

A `q_t` links its nodes from the oldest, `tail`, to the newest, `head`,
through their `next` fields; `q_push` and `q_pop` run under the queue's lock,
so each call is one step. The representation invariant `Represents` says that
following `next` from `tail` visits the queued nodes, oldest first, and then
reaches null, and that `head` is the last of them. Every call keeps it, with
the queued nodes moving as in the abstract FIFO (`qPush_represents`,
`qPop_represents`), so a run of calls from `q_create` is the FIFO's run
(`run_represents`, `locked_fifo`).

Key definitions: `QT`, `qCreate`, `qPush`, `qPop`, `Represents`.
-/

namespace QueueRate
namespace Lockrate

open Linked

variable {α : Type*} [DecidableEq α]

/-- A `q_t` with the `next` fields of the nodes: `head` is the newest node,
`tail` the oldest. -/
structure QT (α : Type*) where
  next : α → Option α
  head : Option α
  tail : Option α

/-- `q_create`: `head = tail = NULL`, whatever the nodes' `next` fields hold. -/
def qCreate (next : α → Option α) : QT α := ⟨next, none, none⟩

/-- `q_push(self, n)` under the lock: `n->next = NULL`, then `n` becomes the
only node, or the successor of `head`; either way the new `head`. -/
def qPush (self : QT α) (n : α) : QT α :=
  match self.head with
  | none => ⟨Function.update self.next n none, some n, some n⟩
  | some h => ⟨Function.update (Function.update self.next n none) h (some n), some n, self.tail⟩

/-- `q_pop(self)` under the lock: `NULL` on an empty queue; otherwise it
returns `tail` and moves `tail` to its successor, emptying the queue if
there is none. -/
def qPop (self : QT α) : Option α × QT α :=
  match self.tail with
  | none => (none, self)
  | some t =>
    match self.next t with
    | none => (some t, { self with head := none, tail := none })
    | some t' => (some t, { self with tail := some t' })

/-- Calls one after another, each under the lock, with what the `q_pop`s
return. -/
def run (self : QT α) : List (Fifo.Call α) → QT α × List (Option α)
  | [] => (self, [])
  | .push n :: cs => run (qPush self n) cs
  | .pop :: cs => ((run (qPop self).2 cs).1, (qPop self).1 :: (run (qPop self).2 cs).2)

/-- The queue holds the nodes `l`, oldest first. -/
structure Represents (q : QT α) (l : List α) : Prop where
  /-- following `next` from `tail` visits `l`, then reaches null -/
  chain : Path q.next q.tail l none
  /-- `head` is the newest node -/
  newest : q.head = l.getLast?

omit [DecidableEq α] in
theorem Represents.head_eq_none_iff {self : QT α} {l : List α} (h : Represents self l) :
    self.head = none ↔ self.tail = none := by
  rw [h.newest, List.getLast?_eq_none_iff]
  have := h.chain.head
  cases l <;> simp_all

omit [DecidableEq α] in
theorem Represents.head_next {self : QT α} {l : List α} (h : Represents self l) {n : α} (hn : self.head = some n) :
    self.next n = none := by
  rw [h.newest] at hn
  obtain ⟨l', rfl⟩ := List.getLast?_eq_some_iff.mp hn
  exact (path_concat_iff.mp h.chain).2

omit [DecidableEq α] in
theorem represents_qCreate (next : α → Option α) : Represents (qCreate next) [] :=
  ⟨.nil none, rfl⟩

/-- **`q_push` appends.** Pushing a node that is not queued queues it as the
newest. -/
theorem qPush_represents {self : QT α} {l : List α} (h : Represents self l) {n : α} (hn : n ∉ l) :
    Represents (qPush self n) (l ++ [n]) := by
  unfold qPush
  cases hh : self.head with
  | none =>
    -- an empty queue: `head` and `tail` become `n`
    have hl : l = [] := List.getLast?_eq_none_iff.mp (h.newest ▸ hh)
    subst hl
    exact ⟨.cons (by simp), rfl⟩
  | some t =>
    -- `n` follows the old `head`
    obtain ⟨l', rfl⟩ := List.getLast?_eq_some_iff.mp (h.newest ▸ hh)
    have hnt : n ≠ t := fun e => hn (by simp [e])
    have hnd := h.chain.nodup
    have ht : t ∉ l' := fun hm => (List.nodup_append.mp hnd).2.2 t hm t (List.mem_singleton_self t) rfl
    have hpath := (path_concat_iff.mp h.chain).1
    refine ⟨path_concat_iff.mpr ⟨path_concat_iff.mpr ⟨?_, by simp⟩, by simp [hnt]⟩, by simp⟩
    exact (hpath.frame (fun e => hn (by simp [e])) none).frame ht _

omit [DecidableEq α] in
/-- **`q_pop` removes the oldest node.** It returns `NULL` exactly when the
queue is empty, and otherwise the oldest node, which it removes. -/
theorem qPop_represents {self : QT α} {l : List α} (h : Represents self l) :
    (qPop self).1 = l.head? ∧ Represents (qPop self).2 l.tail := by
  unfold qPop
  cases l with
  | nil =>
    have ht : self.tail = none := path_nil_iff.mp h.chain
    simp only [ht]
    exact ⟨by simp, h⟩
  | cons t l =>
    obtain ⟨ht, hrest⟩ := path_cons_iff.mp h.chain
    simp only [ht, List.head?_cons, List.tail_cons]
    cases l with
    | nil =>
      -- the last node: the queue empties
      have hn : self.next t = none := path_nil_iff.mp hrest
      simp only [hn]
      exact ⟨by simp, .nil none, rfl⟩
    | cons t' l =>
      -- `tail` moves to its successor; `head` stays
      have hn : self.next t = some t' := (path_cons_iff.mp hrest).1
      simp only [hn]
      refine ⟨by simp, hn ▸ hrest, ?_⟩
      rw [h.newest, List.getLast?_cons_cons]

/-- A run of calls keeps the representation, with the queued nodes and the
results of the `q_pop`s those of the abstract FIFO. -/
theorem run_represents : ∀ (cs : List (Fifo.Call α)) {self : QT α} {l : List α}, Represents self l →
    Fifo.PushesFresh l cs → Represents (run self cs).1 (Fifo.run l cs).1 ∧ (run self cs).2 = (Fifo.run l cs).2
  | [], _, _, h, _ => ⟨h, rfl⟩
  | .push n :: cs, _, _, h, ⟨hn, hcs⟩ => run_represents cs (qPush_represents h hn) hcs
  | .pop :: cs, _, _, h, hcs => by
    obtain ⟨hres, hpop⟩ := qPop_represents h
    obtain ⟨hrepr, hrun⟩ := run_represents cs hpop hcs
    exact ⟨hrepr, by simp [run, hres, hrun]⟩

/-- **The locked queue is a FIFO.** From `q_create`, after any sequence of
`q_push` and `q_pop` calls that pushes only nodes not queued at the time:
`head` is null iff `tail` is; following `next` from `tail` visits exactly the
pushed and not yet popped nodes, in push order, and reaches null; `head` is
the newest of them, and its `next` is null; and every `q_pop` returned null
iff the queue was empty, and its oldest node otherwise. -/
theorem locked_fifo (next : α → Option α) (cs : List (Fifo.Call α)) (hcs : Fifo.PushesFresh [] cs) :
    ((run (qCreate next) cs).1.head = none ↔ (run (qCreate next) cs).1.tail = none) ∧
      Path (run (qCreate next) cs).1.next (run (qCreate next) cs).1.tail (Fifo.run [] cs).1 none ∧
      (run (qCreate next) cs).1.head = (Fifo.run [] cs).1.getLast? ∧
      (∀ n, (run (qCreate next) cs).1.head = some n → (run (qCreate next) cs).1.next n = none) ∧
      (run (qCreate next) cs).2 = (Fifo.run [] cs).2 := by
  obtain ⟨h, hres⟩ := run_represents cs (represents_qCreate next) hcs
  exact ⟨h.head_eq_none_iff, h.chain, h.newest, fun _ => h.head_next, hres⟩

/-- Two pushes, a pop, a push and three pops, the last on an empty queue. -/
theorem locked_fifo_run :
    Fifo.PushesFresh [] [.push 1, .push 2, .pop, .push 3, .pop, .pop, .pop] ∧
      ((run (qCreate fun _ : ℕ => none) [.push 1, .push 2, .pop, .push 3, .pop, .pop, .pop]).1.head = none ↔
        (run (qCreate fun _ : ℕ => none) [.push 1, .push 2, .pop, .push 3, .pop, .pop, .pop]).1.tail = none) ∧
      Path (run (qCreate fun _ : ℕ => none) [.push 1, .push 2, .pop, .push 3, .pop, .pop, .pop]).1.next
        (run (qCreate fun _ : ℕ => none) [.push 1, .push 2, .pop, .push 3, .pop, .pop, .pop]).1.tail
        (Fifo.run [] [.push 1, .push 2, .pop, .push 3, .pop, .pop, .pop]).1 none ∧
      (run (qCreate fun _ : ℕ => none) [.push 1, .push 2, .pop, .push 3, .pop, .pop, .pop]).1.head =
        (Fifo.run [] [.push 1, .push 2, .pop, .push 3, .pop, .pop, .pop]).1.getLast? ∧
      (∀ n, (run (qCreate fun _ : ℕ => none) [.push 1, .push 2, .pop, .push 3, .pop, .pop, .pop]).1.head = some n →
        (run (qCreate fun _ : ℕ => none) [.push 1, .push 2, .pop, .push 3, .pop, .pop, .pop]).1.next n = none) ∧
      (run (qCreate fun _ : ℕ => none) [.push 1, .push 2, .pop, .push 3, .pop, .pop, .pop]).2 =
        (Fifo.run [] [.push 1, .push 2, .pop, .push 3, .pop, .pop, .pop]).2 :=
  ⟨by decide, locked_fifo _ _ (by decide)⟩

end Lockrate
end QueueRate
