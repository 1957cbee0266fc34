import Mathlib.Logic.Function.Basic
import QueueRate.Lib.Path

/-!
# The Cloudius MPSC queue, step by step

`queue-mpsc.h`: a `queue_mpsc` has a `pushlist` that producers grow as a
stack with a CAS loop, and a `poplist` that only the consumer touches. A
push is a load of `pushlist`, then, until the CAS succeeds, the store
`item->next = old` and `compare_exchange_weak(old, item)`; a failed CAS,
spurious or not, reloads `old`. `pop` and `popall` take the head of
`poplist` when it is not empty; otherwise they exchange `pushlist` with
null and reverse the chain they got, one node per iteration of the loop.
`Step` has one constructor for each of these steps.

Besides the queue, the state records the pushes in the order of their
successful CAS (`casOrder`), the items the consumer received (`delivered`:
a `pop` result, or a `popall` result with the chain hanging from it), what
each call returned (`results`), and which items the client holds.

Key definitions: `PushPc`, `PopPc`, `State`, `queueMpsc`, `Step`.
-/

namespace QueueRate
namespace Cloudius

open Linked

/-- Where a producer is in `push(item)`, with its local `old`. -/
inductive PushPc (α : Type*)
  | idle
  /-- next, `item->next = old` -/
  | store (item : α) (old : Option α)
  /-- next, `pushlist.compare_exchange_weak(old, item)` -/
  | cas (item : α) (old : Option α)
  deriving DecidableEq, Repr

/-- Where the consumer is in `pop` (`all = false`) or `popall` (`all = true`). -/
inductive PopPc (α : Type*)
  | idle
  /-- `poplist` was empty; next, `r = pushlist.exchange(nullptr)` -/
  | exchange (all : Bool)
  /-- in the reversal loop at `r`; next, test `r->next` -/
  | reverse (all : Bool) (r : α)
  deriving DecidableEq, Repr

/-- The queue, the producers and the consumer, and the history. -/
structure State (α P : Type*) where
  pushlist : Option α
  poplist : Option α
  /-- every item's `next` field; `none` is null -/
  next : α → Option α
  push : P → PushPc α
  pop : PopPc α
  /-- the successful pushes, in the order of their CAS -/
  casOrder : List (P × α)
  /-- the items the consumer received, in order -/
  delivered : List α
  /-- what each `pop` and `popall` returned -/
  results : List (Option α)
  /-- the items the client holds and may push -/
  held : α → Bool

variable {α P : Type*} [DecidableEq α]

/-- `queue_mpsc()`: both lists empty. -/
def queueMpsc (next : α → Option α) : State α P where
  pushlist := none
  poplist := none
  next := next
  push := fun _ => .idle
  pop := .idle
  casOrder := []
  delivered := []
  results := []
  held := fun _ => true

/-- The client gets back the items the consumer hands it. -/
def release (held : α → Bool) (items : List α) : α → Bool :=
  fun a => held a || decide (a ∈ items)

/-- One step of one thread. -/
inductive Step [DecidableEq P] : State α P → State α P → Prop
  /-- `old = pushlist.load()` in a push of an item the client holds -/
  | pushLoad {s : State α P} (p : P) (n : α) (hp : s.push p = .idle) (hn : s.held n = true) :
      Step s { s with push := Function.update s.push p (.store n s.pushlist),
                      held := Function.update s.held n false }
  /-- `item->next = old` -/
  | pushStore {s : State α P} (p : P) (n : α) (old : Option α) (hp : s.push p = .store n old) :
      Step s { s with next := Function.update s.next n old,
                      push := Function.update s.push p (.cas n old) }
  /-- a CAS that finds `pushlist == old` and succeeds -/
  | pushCas {s : State α P} (p : P) (n : α) (hp : s.push p = .cas n s.pushlist) :
      Step s { s with pushlist := some n, push := Function.update s.push p .idle,
                      casOrder := s.casOrder ++ [(p, n)] }
  /-- a CAS that fails, spuriously or not, and loads `pushlist` into `old` -/
  | pushCasFail {s : State α P} (p : P) (n : α) (old : Option α) (hp : s.push p = .cas n old) :
      Step s { s with push := Function.update s.push p (.store n s.pushlist) }
  /-- `pop` with a non-empty `poplist`: `poplist = poplist->next`, return the old head -/
  | popList {s : State α P} (x : α) (hc : s.pop = .idle) (hx : s.poplist = some x) :
      Step s { s with poplist := s.next x, delivered := s.delivered ++ [x],
                      results := s.results ++ [some x], held := release s.held [x] }
  /-- `popall` with a non-empty `poplist`: return it, with its chain, and empty it -/
  | popAllList {s : State α P} (x : α) (l : List α) (hc : s.pop = .idle) (hx : s.poplist = some x)
      (hl : Path s.next (some x) l none) :
      Step s { s with poplist := none, delivered := s.delivered ++ l,
                      results := s.results ++ [some x], held := release s.held l }
  /-- `pop` or `popall` with an empty `poplist` -/
  | popStart {s : State α P} (all : Bool) (hc : s.pop = .idle) (hx : s.poplist = none) :
      Step s { s with pop := .exchange all }
  /-- the exchange finds `pushlist` empty: return null -/
  | popExchangeNull {s : State α P} (all : Bool) (hc : s.pop = .exchange all)
      (hr : s.pushlist = none) :
      Step s { s with pop := .idle, results := s.results ++ [none] }
  /-- the exchange takes the whole `pushlist` -/
  | popExchange {s : State α P} (all : Bool) (r : α) (hc : s.pop = .exchange all)
      (hr : s.pushlist = some r) :
      Step s { s with pushlist := none, pop := .reverse all r }
  /-- an iteration of the reversal loop: `r->next = poplist; poplist = r; r = next` -/
  | popReverse {s : State α P} (all : Bool) (r nx : α) (hc : s.pop = .reverse all r)
      (hn : s.next r = some nx) :
      Step s { s with next := Function.update s.next r s.poplist, poplist := some r,
                      pop := .reverse all nx }
  /-- `pop` after the loop: return `r`, the oldest item -/
  | popFinish {s : State α P} (r : α) (hc : s.pop = .reverse false r) (hn : s.next r = none) :
      Step s { s with pop := .idle, delivered := s.delivered ++ [r],
                      results := s.results ++ [some r], held := release s.held [r] }
  /-- `popall` after the loop: `r->next = poplist; poplist = nullptr; return r` -/
  | popAllFinish {s : State α P} (r : α) (l : List α) (hc : s.pop = .reverse true r)
      (hn : s.next r = none) (hl : Path s.next s.poplist l none) :
      Step s { s with next := Function.update s.next r s.poplist, poplist := none, pop := .idle,
                      delivered := s.delivered ++ r :: l, results := s.results ++ [some r],
                      held := release s.held (r :: l) }

/-- The item a producer is pushing, from its load to its successful CAS. -/
def PushPc.item : PushPc α → Option α
  | .idle => none
  | .store n _ => some n
  | .cas n _ => some n

end Cloudius
end QueueRate
