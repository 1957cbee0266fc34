import QueueRate.Lib.ConcQueue
import QueueRate.Lockrate.Queue

/-!
# The locked queue under its threads

`lockrate.c`'s threads call `q_push` and `q_pop` with the queue's lock held,
so each call is one step (`Step`): a producer pushes a node it holds, or the
consumer pops. Besides the queue, the state records the pushes in the order
of their calls, the nodes the pops returned, and which nodes the client
holds. The queue represents the pushed nodes not yet popped, none of which
the client holds (`Shape`), so the pops return the pushes in order
(`Shape.popped_prefix`) and `conc` is the queue as a `ConcQueue`, whose
pushes take effect whole in one step.

Key definitions: `State`, `Step`, `Shape`, `conc`.
-/

namespace QueueRate
namespace Lockrate

open Concurrent Linked

/-- The queue and the history of the calls made on it. -/
structure State (α P : Type*) where
  q : QT α
  /-- the pushes, in the order of their calls -/
  pushed : List (P × α)
  /-- the nodes the pops returned, in order -/
  popped : List α
  /-- the nodes the client holds and may push -/
  held : α → Bool

variable {α P : Type*} [DecidableEq α]

/-- `q_create`, with every node held by the client. -/
def create (next : α → Option α) : State α P := ⟨qCreate next, [], [], fun _ => true⟩

/-- One call, under the queue's lock. -/
inductive Step : State α P → State α P → Prop
  /-- `q_push(&Q[k], n)` with a node the client holds -/
  | push {s : State α P} (p : P) (n : α) (hn : s.held n = true) :
      Step s { s with q := qPush s.q n, pushed := s.pushed ++ [(p, n)],
                      held := Function.update s.held n false }
  /-- `q_pop(&Q[k])`; the client gets back the node it returns -/
  | pop {s : State α P} :
      Step s { s with q := (qPop s.q).2, popped := s.popped ++ (qPop s.q).1.toList,
                      held := fun a => s.held a || decide ((qPop s.q).1 = some a) }

/-- The queue holds the pushed nodes not yet popped, in push order, and the
client holds none of them. -/
structure Shape (s : State α P) (l : List α) : Prop where
  repr : Represents s.q l
  history : s.pushed.map Prod.snd = s.popped ++ l
  held : ∀ a ∈ l, s.held a = false

omit [DecidableEq α] in
theorem shape_create (next : α → Option α) : Shape (create (P := P) next) [] :=
  ⟨represents_qCreate next, rfl, fun _ h => absurd h List.not_mem_nil⟩

variable {s : State α P} {l : List α}

theorem Shape.push (h : Shape s l) (p : P) {n : α} (hn : s.held n = true) :
    Shape { s with q := qPush s.q n, pushed := s.pushed ++ [(p, n)],
                   held := Function.update s.held n false } (l ++ [n]) where
  repr := qPush_represents h.repr fun hm => by rw [h.held n hm] at hn; cases hn
  history := by
    dsimp only
    rw [List.map_append, h.history, List.append_assoc]
    rfl
  held a ha := by
    dsimp only
    rcases eq_or_ne a n with rfl | han
    · exact Function.update_self ..
    · rw [Function.update_of_ne han]
      exact h.held a ((List.mem_append.mp ha).resolve_right (by simpa using han))

theorem Shape.pop (h : Shape s l) :
    Shape { s with q := (qPop s.q).2, popped := s.popped ++ (qPop s.q).1.toList,
                   held := fun a => s.held a || decide ((qPop s.q).1 = some a) } l.tail := by
  obtain ⟨hres, hrepr⟩ := qPop_represents h.repr
  refine ⟨hrepr, ?_, fun a ha => ?_⟩
  · dsimp only
    rw [hres, h.history, List.append_assoc]
    cases l <;> rfl
  · -- the node returned is the oldest, which is not among the rest
    cases l with
    | nil => cases ha
    | cons t l =>
      have hat : a ≠ t := fun e => (List.nodup_cons.mp h.repr.chain.nodup).1 (e ▸ ha)
      dsimp only
      rw [hres, h.held a (List.mem_cons_of_mem t ha)]
      simpa using hat.symm

theorem Shape.step (h : Shape s l) {s' : State α P} (hs : Step s s') : ∃ l', Shape s' l' := by
  cases hs with
  | push p n hn => exact ⟨_, h.push p hn⟩
  | pop => exact ⟨_, h.pop⟩

omit [DecidableEq α] in
theorem Shape.popped_prefix (h : Shape s l) : s.popped <+: s.pushed.map Prod.snd :=
  ⟨l, h.history.symm⟩

theorem Step.pushed_step {s' : State α P} (hs : Step s s') :
    s'.pushed = s.pushed ∨ ∃ p n, s'.pushed = s.pushed ++ [(p, n)] := by
  cases hs with
  | push p n _ => exact .inr ⟨p, n, rfl⟩
  | pop => exact .inl rfl

variable (P) in
/-- **The locked queue from `q_create`, as its client sees it**: a push is
one step under the lock, so no push is ever seen under way. -/
def conc (next : α → Option α) : ConcQueue α P where
  St := State α P
  init := create next
  Step := Step
  pushing _ _ := none
  lin s := s.pushed
  out s := s.popped
  lin_init := rfl
  pushing_init _ := rfl
  Good s := ∃ l, Shape s l
  good_init := ⟨[], shape_create next⟩
  good_step := fun ⟨_, h⟩ hs => h.step hs
  out_prefix := fun ⟨_, h⟩ => h.popped_prefix
  lin_step := fun _ hs => hs.pushed_step.imp_right fun ⟨p, n, hl⟩ => ⟨p, n, hl, .inr ⟨rfl, rfl⟩⟩
  pushing_step := fun _ _ _ hne => absurd rfl hne

end Lockrate
end QueueRate
