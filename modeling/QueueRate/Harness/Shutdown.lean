import Mathlib.Data.Fintype.Card
import Mathlib.Data.Fintype.Fin
import QueueRate.Lib.ConcQueue

/-!
# The poison-pill shutdown of `qrate` and `lockrate`

`do_produce`: each producer enqueues its `messages_per_thread` nodes, the
last first, each to the queue the routing picks; then it increments
`g_done` under `g_mutex`, reads `g_done` without it and, if it found
`nproducers`, mallocs `nodes_tmp` with `messages_per_thread` elements and
enqueues `nodes_tmp[i]`, with `data = 0`, to every `Q[i]`. `do_consume`:
consumer `i` dequeues from `Q[i]` until it gets a node whose `data` is `0`.

The harness runs over any queue `Q` given as a `ConcQueue`: a step of the
harness is a step of one of the queues `Q[k]`, during which each producer's
place in `do_produce` follows what `Q[k]` shows of its push (`Follows`), or
a producer's `g_done++`, its test of `g_done`, or a step of its poison loop.
The routing is any function that sends every node to some `Q[k]`,
`k < nconsumers`, so the theorems hold with and without `-r`.

Key definitions: `Node`, `ProdPc`, `HState`, `Follows`, `Step`, `init`.
-/

namespace QueueRate
namespace Harness

open Concurrent

/-- A node a producer enqueues: its `nodes[i]`, with `data = 1 + i`, or its
`nodes_tmp[i]`, the poison for `Q[i]`, with `data = 0`. -/
inductive Node (P : Type*)
  | data (p : P) (i : ℕ)
  | poison (p : P) (i : ℕ)
  deriving DecidableEq

/-- The `data` field of a node. -/
def Node.value {P : Type*} : Node P → ℕ
  | .data _ i => 1 + i
  | .poison _ _ => 0

/-- Where a producer is in `do_produce`, from its enqueue loop on. -/
inductive ProdPc
  /-- the enqueue of `nodes[i]` is next -/
  | sendData (i : ℕ)
  /-- in the enqueue of `nodes[i]` -/
  | inData (i : ℕ)
  /-- `g_done++` under `g_mutex` is next -/
  | incr
  /-- the test `g_done == nproducers` is next -/
  | check
  /-- the poison loop at `i`: the test `i < nconsumers`, then `nodes_tmp[i].data = 0` -/
  | poison (i : ℕ)
  /-- the enqueue of `nodes_tmp[i]` to `Q[i]` is next -/
  | sendPoison (i : ℕ)
  /-- in the enqueue of `nodes_tmp[i]` -/
  | inPoison (i : ℕ)
  /-- at the end-of-job barrier -/
  | done
  /-- wrote `nodes_tmp[i]` past the end of `nodes_tmp` -/
  | fault
  deriving DecidableEq

namespace ProdPc

/-- The start of the enqueue loop, `for(i = messages_per_thread-1; i >= 0; --i)`. -/
def start (mpt : ℕ) : ProdPc := if mpt = 0 then .incr else .sendData (mpt - 1)

/-- The loop after the enqueue of `nodes[i]`. -/
def afterData (i : ℕ) : ProdPc := if i = 0 then .incr else .sendData (i - 1)

/-- The queue and the node of the producer's next or current enqueue. -/
def target {P : Type*} (route : P → ℕ → ℕ) (p : P) : ProdPc → Option (ℕ × Node P)
  | .sendData i | .inData i => some (route p i, .data p i)
  | .sendPoison i | .inPoison i => some (i, .poison p i)
  | _ => none

/-- The producer is about to call `enqueue`. -/
def Sending : ProdPc → Prop
  | .sendData _ | .sendPoison _ => True
  | _ => False

/-- The producer is inside `enqueue`. -/
def InPush : ProdPc → Prop
  | .inData _ | .inPoison _ => True
  | _ => False

/-- The call to `enqueue` is under way. -/
def enter : ProdPc → ProdPc
  | .sendData i => .inData i
  | .sendPoison i => .inPoison i
  | pc => pc

/-- The place after `enqueue` returns. -/
def next : ProdPc → ProdPc
  | .sendData i | .inData i => afterData i
  | .sendPoison i | .inPoison i => .poison (i + 1)
  | pc => pc

/-- The producer has done its `g_done++`. -/
def pastIncr : ProdPc → Bool
  | .sendData _ | .inData _ | .incr => false
  | _ => true

/-- The producer is in its poison loop. -/
def Poisoning : ProdPc → Prop
  | .poison _ | .sendPoison _ | .inPoison _ => True
  | _ => False

end ProdPc

variable {np : ℕ}

/-- The harness over the queue `Q`: the queues `Q[k]`, each producer's
place, `g_done`, and whether each producer's test found `g_done ==
nproducers`. -/
structure HState (Q : ConcQueue (Node (Fin np)) (Fin np)) where
  qs : ℕ → Q.St
  prod : Fin np → ProdPc
  gDone : ℕ
  saw : Fin np → Bool

variable (nc mpt : ℕ) (route : Fin np → ℕ → ℕ) (Q : ConcQueue (Node (Fin np)) (Fin np))

/-- How producer `p`'s place follows a step of `Q[k]` from `q` to `q'`: it
stays, or its enqueue of the node `n` to `Q[k]` starts, returns, or runs
whole in this step. -/
inductive Follows (k : ℕ) (q q' : Q.St) (p : Fin np) : ProdPc → ProdPc → Prop
  | quiet {pc : ProdPc} (h : Q.pushing q' p = Q.pushing q p)
      (hlin : Q.pushing q p = none → ∀ n, Q.lin q' ≠ Q.lin q ++ [(p, n)]) : Follows k q q' p pc pc
  | begin {pc : ProdPc} {n : Node (Fin np)} (ht : pc.target route p = some (k, n)) (hs : pc.Sending)
      (h : Q.pushing q p = none) (h' : Q.pushing q' p = some n) : Follows k q q' p pc pc.enter
  | finish {pc : ProdPc} {n : Node (Fin np)} (ht : pc.target route p = some (k, n)) (hs : pc.InPush)
      (h : Q.pushing q p = some n) (h' : Q.pushing q' p = none) : Follows k q q' p pc pc.next
  | atomic {pc : ProdPc} {n : Node (Fin np)} (ht : pc.target route p = some (k, n)) (hs : pc.Sending)
      (h : Q.pushing q p = none) (h' : Q.pushing q' p = none) (hl : Q.lin q' = Q.lin q ++ [(p, n)]) :
      Follows k q q' p pc pc.next

/-- One step of the harness. -/
inductive Step : HState Q → HState Q → Prop
  /-- a step of `Q[k]`, by a producer in its enqueue or by consumer `k` -/
  | queue {s : HState Q} (k : ℕ) (q' : Q.St) (prod' : Fin np → ProdPc) (hk : k < nc)
      (h : Q.Step (s.qs k) q') (hf : ∀ p, Follows route Q k (s.qs k) q' p (s.prod p) (prod' p)) :
      Step s { s with qs := Function.update s.qs k q', prod := prod' }
  /-- `g_done++` under `g_mutex` -/
  | incr {s : HState Q} (p : Fin np) (h : s.prod p = .incr) :
      Step s { s with gDone := s.gDone + 1, prod := Function.update s.prod p .check }
  /-- `if(g_done == tdata->nproducers)`, read without the mutex -/
  | check {s : HState Q} (p : Fin np) (h : s.prod p = .check) :
      Step s { s with saw := Function.update s.saw p (decide (s.gDone = np)),
                      prod := Function.update s.prod p (if s.gDone = np then .poison 0 else .done) }
  /-- the poison loop: `i < nconsumers`, then `nodes_tmp[i].data = 0` in an
  array of `messages_per_thread` elements -/
  | poison {s : HState Q} (p : Fin np) (i : ℕ) (h : s.prod p = .poison i) :
      Step s { s with
        prod := Function.update s.prod p (if i < nc then (if i < mpt then .sendPoison i else .fault) else .done) }

/-- Every queue constructed, every producer at the start of its enqueue loop. -/
def init : HState Q where
  qs := fun _ => Q.init
  prod := fun _ => ProdPc.start mpt
  gDone := 0
  saw := fun _ => false

end Harness
end QueueRate
