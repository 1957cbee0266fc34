import Mathlib.Algebra.BigOperators.Group.Finset.Basic
import Mathlib.Data.Fintype.Fin
import QueueRate.Lib.Heap
import QueueRate.Lib.Ledger
import QueueRate.Lib.Machine
import QueueRate.Harness.Builds

/-!
# `alloc_rate`: a block of its own for every message

Built with `ALLOC_METHOD == MALLOC_ALLOC`, `alloc_rate`'s producers take a
block of `sizeof (work_node_t)` bytes from `malloc` for each message
(`work_node_alloc (me, i + 1)`) and, with `-e`, one more of 8 bytes
(`extra_alloc`), and enqueue the node. Each producer then increments
`g_done` under `g_mutex` and reads it without; one that finds
`nproducers` allocates a stop node with `data == 0` for every consumer and
enqueues it to that consumer's queue. A consumer dequeues a node at a time;
with `-e` it calls `extra_free (&node[i]->extra_alloc_data)`, then frees the
node with `work_node_free`, and it stops after a node whose `data` is `0`.

`step` takes one thread one step, in any order: each `malloc`, each
enqueue, `g_done++`, the test of `g_done`, each dequeue and each `free`.
`malloc` may return any block that shares no address with a live one, so an
address is used again once it is freed. Each `Q[k]` is a FIFO queue whose
enqueue and dequeue are one step each, as in the builds with Vyukov's
`mpscq` and the Cloudius `queue_mpsc` (`mpscq_pop_safe`, `queue_mpsc_fifo`),
whose `try_dequeue_bulk` returns one node at a time; the Moody Camel build,
whose `try_dequeue_bulk` returns a batch, is not modelled. A `free` of an
address at which no live block starts makes glibc abort the process
(`aborted`).

Key definitions: `AllocPc`, `ConsPc`, `State`, `init`, `step`.
-/

namespace QueueRate
namespace AllocRate

open Mem

/-! ### The allocation functions -/

/-- `sizeof (work_node_t)`: `next` (8 bytes), `id` and `data` (4 each) and
`extra_alloc_data` (8) on LP64, padded by `pad` to 64. -/
def workNodeSize : ℕ := 64

/-- `offsetof (work_node_t, extra_alloc_data)`: after `next`, `id` and `data`. -/
def extraAllocDataOffset : ℕ := 16

/-- `work_node_alloc`: `malloc (sizeof (work_node_t))`, returning the block at `node`. -/
def workNodeAlloc (h : Heap) (node : ℕ) : Option Heap := malloc h ⟨node, workNodeSize⟩

/-- `work_node_free`: `free (wn)`. -/
def workNodeFree (h : Heap) (wn : ℕ) : Option Heap := free h wn

/-- `extra_alloc`: `malloc (8)`, returning the block at `extra`. -/
def extraAlloc (h : Heap) (extra : ℕ) : Option Heap := malloc h ⟨extra, 8⟩

/-- `extra_free`: `free (freeme)`. -/
def extraFree (h : Heap) (freeme : ℕ) : Option Heap := free h freeme

/-! ### The threads -/

/-- Where a producer is in `do_produce`, from its message loop on; `node` is
the block its last `work_node_alloc` returned. -/
inductive AllocPc
  /-- next, `work_node_alloc (me, i + 1)` for message `i` -/
  | alloc (i : ℕ)
  /-- next, `n->extra_alloc_data = extra_alloc ()` -/
  | extra (i node : ℕ)
  /-- next, the enqueue of message `i` -/
  | send (i node : ℕ)
  /-- next, `g_done++` under `g_mutex` -/
  | incr
  /-- next, the test `g_done == tdata->nproducers` -/
  | check
  /-- the stop loop at `i`: the test `i < nconsumers`, then `work_node_alloc (me, 0)` -/
  | stop (i : ℕ)
  /-- next, `enqueue (Q[i], *n)` of the stop node -/
  | sendStop (i node : ℕ)
  /-- at the end-of-job barrier -/
  | done
  deriving DecidableEq, Repr

/-- The first pass of `for(i = tdata->messages_per_thread-1; i >= 0; --i)`. -/
def AllocPc.start (mpt : ℕ) : AllocPc := if mpt = 0 then .incr else .alloc (mpt - 1)

/-- After the enqueue of message `i`: the next pass, or `g_done++`. -/
def AllocPc.afterSend (i : ℕ) : AllocPc := if i = 0 then .incr else .alloc (i - 1)

/-- Where a consumer is in `do_consume`'s loop; `stop` is whether the node it
holds had `data == 0`, which sets `done`. -/
inductive ConsPc
  /-- next, a dequeue from `Q[me]` -/
  | poll
  /-- next, `extra_free (&node[i]->extra_alloc_data)` -/
  | freeExtra (node : ℕ) (stop : Bool)
  /-- next, `work_node_free (node[i])` -/
  | freeNode (node : ℕ) (stop : Bool)
  /-- out of the loop, `done == 1` -/
  | finished
  deriving DecidableEq, Repr

/-- The heap, the nodes' `data` fields, the queues and the threads of a run
with `np` producers. -/
structure State (np : ℕ) where
  heap : Heap
  /-- the `data` field of the node at each address -/
  data : ℕ → ℕ
  /-- the nodes in `Q[k]`, oldest first -/
  queues : ℕ → List ℕ
  prod : Fin np → AllocPc
  /-- consumer `k`, for `k < nconsumers` -/
  cons : ℕ → ConsPc
  gDone : ℕ
  /-- the producer found `g_done == nproducers` -/
  saw : Fin np → Bool
  /-- a `free` made glibc abort the process -/
  aborted : Bool

/-- A step of producer `p`, with the block `malloc` returns if it calls it,
or a step of consumer `c`. -/
inductive Act (np : ℕ)
  | prod (p : Fin np) (block : ℕ)
  | cons (c : ℕ)

/-- After the End Timer Barrier: the heap `h0` as the threads left it, the
queues empty, each producer at its first message. -/
def init {np : ℕ} (mpt : ℕ) (h0 : Heap) : State np where
  heap := h0
  data := fun _ => 0
  queues := fun _ => []
  prod := fun _ => AllocPc.start mpt
  cons := fun _ => .poll
  gDone := 0
  saw := fun _ => false
  aborted := false

variable {np : ℕ} (extra : Bool) (nc : ℕ) (route : Fin np → ℕ → ℕ)

/-- Producer `p`'s next step, with `-e` when `extra`; `route p i` is the
queue message `i` goes to, and `block` what `malloc` returns if the step
calls it (`none` when it cannot return that block). -/
def prodStep (s : State np) (p : Fin np) (block : ℕ) : Option (State np) :=
  match s.prod p with
  | .alloc i =>
    (workNodeAlloc s.heap block).map fun h =>
      { s with heap := h, data := Function.update s.data block (i + 1),
               prod := Function.update s.prod p (if extra then .extra i block else .send i block) }
  | .extra i n =>
    (extraAlloc s.heap block).map fun h => { s with heap := h, prod := Function.update s.prod p (.send i n) }
  | .send i n =>
    some { s with queues := Function.update s.queues (route p i) (s.queues (route p i) ++ [n]),
                  prod := Function.update s.prod p (AllocPc.afterSend i) }
  | .incr => some { s with gDone := s.gDone + 1, prod := Function.update s.prod p .check }
  | .check =>
    if s.gDone = np then
      some { s with saw := Function.update s.saw p true, prod := Function.update s.prod p (.stop 0) }
    else some { s with prod := Function.update s.prod p .done }
  | .stop i =>
    if i < nc then
      (workNodeAlloc s.heap block).map fun h =>
        { s with heap := h, data := Function.update s.data block 0,
                 prod := Function.update s.prod p (.sendStop i block) }
    else some { s with prod := Function.update s.prod p .done }
  | .sendStop i n =>
    some { s with queues := Function.update s.queues i (s.queues i ++ [n]),
                  prod := Function.update s.prod p (.stop (i + 1)) }
  | .done => none

/-- Consumer `c`'s next step. A dequeue from an empty queue returns `0`
nodes and the loop goes on. -/
def consStep (s : State np) (c : ℕ) : Option (State np) :=
  match s.cons c with
  | .poll =>
    match s.queues c with
    | [] => some s
    | n :: rest =>
      some { s with queues := Function.update s.queues c rest,
                    cons := Function.update s.cons c
                      (if extra then .freeExtra n (decide (s.data n = 0)) else .freeNode n (decide (s.data n = 0))) }
  | .freeExtra n stop =>
    match extraFree s.heap (n + extraAllocDataOffset) with
    | some h => some { s with heap := h, cons := Function.update s.cons c (.freeNode n stop) }
    | none => some { s with aborted := true }
  | .freeNode n stop =>
    match workNodeFree s.heap n with
    | some h => some { s with heap := h, cons := Function.update s.cons c (if stop then .finished else .poll) }
    | none => some { s with aborted := true }
  | .finished => none

/-- One step of `alloc_rate` with `nc` consumers; nothing moves once the
process has aborted. -/
def step (s : State np) : Act np → Option (State np)
  | .prod p block => if s.aborted then none else prodStep extra nc route s p block
  | .cons c => if s.aborted ∨ nc ≤ c then none else consStep extra s c

end AllocRate
end QueueRate
