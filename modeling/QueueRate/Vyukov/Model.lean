import Mathlib

/-!
# Vyukov's intrusive MPSC queue, step by step

`vyukov_q.h`: an `mpscq_t` has a `head` that producers exchange, a `tail`
that only the consumer reads and writes, and a `stub` node of its own. A
push is three steps (`n->next = 0`; the exchange on `head`;
`prev->next = n`), and `mpscq_pop` reads and writes `tail`, `head` and the
`next` fields one at a time, pushing the stub itself when the queue is down
to one node. `Step` has one constructor for each of these steps, taken by
any producer or by the one consumer, in any order.

Besides the queue, the state records the history its safety is stated
over: the pushes in the order of their exchange on `head` (`pushed`), the
nodes `mpscq_pop` returned (`popped`), and which nodes the client holds
(`held`): those it may push, because they were never pushed or `mpscq_pop`
has returned them.

Key definitions: `Addr`, `PushPc`, `PopPc`, `State`, `mpscqCreate`, `Step`.
-/

namespace QueueRate
namespace Vyukov

/-- A node of the queue: its own `stub`, or one of the client's. -/
inductive Addr (α : Type*)
  | stub
  | node (a : α)
  deriving DecidableEq, Repr

/-- Where a producer is in `mpscq_push(self, n)`. -/
inductive PushPc (α : Type*)
  /-- not in a push -/
  | idle
  /-- `n->next = 0` is done; next, the exchange on `head` -/
  | xchg (n : α)
  /-- the exchange returned `prev`; next, `prev->next = n` -/
  | link (prev : Addr α) (n : α)
  deriving DecidableEq, Repr

/-- Where the consumer is in `mpscq_pop`, with the locals it holds. -/
inductive PopPc (α : Type*)
  /-- not in a pop; next, `tail = self->tail` -/
  | idle
  /-- next, `next = tail->next` -/
  | readNext (tail : Addr α)
  /-- `tail` was the stub; next, `self->tail = next` -/
  | skipStub (next : Addr α)
  /-- past the stub; next, `next = next->next` -/
  | readNextSkip (tail : Addr α)
  /-- `next` is not null; next, `self->tail = next` and return `tail` -/
  | advance (tail next : Addr α)
  /-- `next` is null; next, `head = self->head` -/
  | readHead (tail : Addr α)
  /-- `tail == head`: the stub's push, `stub.next = 0` -/
  | stubStore (tail : Addr α)
  /-- the stub's exchange on `head` -/
  | stubXchg (tail : Addr α)
  /-- the stub's `prev->next = &stub` -/
  | stubLink (tail prev : Addr α)
  /-- next, `next = tail->next` once more -/
  | readNextAgain (tail : Addr α)
  deriving DecidableEq, Repr

/-- The queue, the producers and the consumer, and the history. -/
structure State (α P : Type*) where
  head : Addr α
  tail : Addr α
  /-- every node's `next` field; `none` is null -/
  next : Addr α → Option (Addr α)
  push : P → PushPc α
  pop : PopPc α
  /-- the producers' pushes, in the order of their exchange on `head` -/
  pushed : List (P × α)
  /-- the nodes `mpscq_pop` returned, in order -/
  popped : List (Addr α)
  /-- the nodes the client holds and may push -/
  held : α → Bool

variable {α P : Type*} [DecidableEq α] [DecidableEq P]

/-- `mpscq_create`: `head` and `tail` at the stub, `stub.next = 0`; the
other nodes' `next` fields hold whatever they held. -/
def mpscqCreate (next : Addr α → Option (Addr α)) : State α P where
  head := .stub
  tail := .stub
  next := Function.update next .stub none
  push := fun _ => .idle
  pop := .idle
  pushed := []
  popped := []
  held := fun _ => true

/-- The client gets back a node `mpscq_pop` returns. -/
def release (held : α → Bool) : Addr α → α → Bool
  | .stub => held
  | .node a => Function.update held a true

/-- After `next = tail->next` at the start of a pop (lines 37-51): a null
`next` ends the pop at the stub, or goes on to read `head`; a non-null one
is skipped to past the stub, or returned. -/
def PopPc.afterRead (tail : Addr α) : Option (Addr α) → PopPc α
  | none => if tail = .stub then .idle else .readHead tail
  | some next => if tail = .stub then .skipStub next else .advance tail next

/-- After `next = next->next` past the stub (lines 45-53). -/
def PopPc.afterSkip (tail : Addr α) : Option (Addr α) → PopPc α
  | none => .readHead tail
  | some next => .advance tail next

/-- After the last `next = tail->next` (lines 59-66). -/
def PopPc.afterStub (tail : Addr α) : Option (Addr α) → PopPc α
  | none => .idle
  | some next => .advance tail next

/-- One step of one thread. -/
inductive Step : State α P → State α P → Prop
  /-- a producer calls `mpscq_push` with a node it holds: `n->next = 0` -/
  | pushStore {s : State α P} (p : P) (n : α) (hp : s.push p = .idle) (hn : s.held n = true) :
      Step s { s with next := Function.update s.next (.node n) none,
                      push := Function.update s.push p (.xchg n),
                      held := Function.update s.held n false }
  /-- `prev = __sync_lock_test_and_set(&self->head, n)` -/
  | pushXchg {s : State α P} (p : P) (n : α) (hp : s.push p = .xchg n) :
      Step s { s with head := .node n,
                      push := Function.update s.push p (.link s.head n),
                      pushed := s.pushed ++ [(p, n)] }
  /-- `prev->next = n` -/
  | pushLink {s : State α P} (p : P) (prev : Addr α) (n : α) (hp : s.push p = .link prev n) :
      Step s { s with next := Function.update s.next prev (some (.node n)),
                      push := Function.update s.push p .idle }
  /-- `tail = self->tail` -/
  | popStart {s : State α P} (hc : s.pop = .idle) :
      Step s { s with pop := .readNext s.tail }
  /-- `next = tail->next` -/
  | popReadNext {s : State α P} (t : Addr α) (hc : s.pop = .readNext t) :
      Step s { s with pop := PopPc.afterRead t (s.next t) }
  /-- `self->tail = next; tail = next;` past the stub -/
  | popSkipStub {s : State α P} (nx : Addr α) (hc : s.pop = .skipStub nx) :
      Step s { s with tail := nx, pop := .readNextSkip nx }
  /-- `next = next->next` -/
  | popReadNextSkip {s : State α P} (t : Addr α) (hc : s.pop = .readNextSkip t) :
      Step s { s with pop := PopPc.afterSkip t (s.next t) }
  /-- `self->tail = next; return &tail->wn;` -/
  | popAdvance {s : State α P} (t nx : Addr α) (hc : s.pop = .advance t nx) :
      Step s { s with tail := nx, pop := .idle, popped := s.popped ++ [t],
                      held := release s.held t }
  /-- `head = self->head; if(tail != head) return 0;` -/
  | popReadHead {s : State α P} (t : Addr α) (hc : s.pop = .readHead t) :
      Step s { s with pop := if t = s.head then .stubStore t else .idle }
  /-- `mpscq_push(self, &self->stub.wn)`: `stub.next = 0` -/
  | popStubStore {s : State α P} (t : Addr α) (hc : s.pop = .stubStore t) :
      Step s { s with next := Function.update s.next .stub none, pop := .stubXchg t }
  /-- the stub's exchange on `head` -/
  | popStubXchg {s : State α P} (t : Addr α) (hc : s.pop = .stubXchg t) :
      Step s { s with head := .stub, pop := .stubLink t s.head }
  /-- the stub's `prev->next = &stub` -/
  | popStubLink {s : State α P} (t prev : Addr α) (hc : s.pop = .stubLink t prev) :
      Step s { s with next := Function.update s.next prev (some .stub), pop := .readNextAgain t }
  /-- `next = tail->next` after the stub's push -/
  | popReadNextAgain {s : State α P} (t : Addr α) (hc : s.pop = .readNextAgain t) :
      Step s { s with pop := PopPc.afterStub t (s.next t) }

/-- The node whose `next` field a producer's next step reads or writes. The
first step of a push writes the node being pushed, which the client holds
until then. -/
def PushPc.touches : PushPc α → Option (Addr α)
  | .link prev _ => some prev
  | _ => none

/-- The node whose `next` field the consumer's next step reads or writes. -/
def PopPc.touches : PopPc α → Option (Addr α)
  | .readNext t => some t
  | .readNextSkip t => some t
  | .readNextAgain t => some t
  | .stubStore _ => some .stub
  | .stubLink _ prev => some prev
  | _ => none

/-- The node a producer is pushing, from its `n->next = 0` to its
`prev->next = n`. -/
def PushPc.node : PushPc α → Option α
  | .idle => none
  | .xchg n => some n
  | .link _ n => some n

end Vyukov
end QueueRate
