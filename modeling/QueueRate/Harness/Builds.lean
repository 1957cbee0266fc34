import QueueRate.Harness.ShutdownInv
import QueueRate.Harness.Routing
import QueueRate.Vyukov.Conc
import QueueRate.Cloudius.Conc
import QueueRate.Lockrate.Locked

/-!
# The shutdown of the three builds

The harness of `Shutdown`, with the queues the repository builds it with:
Vyukov's `mpscq` (`qrate` with `vyukov_q.h`), the Cloudius `queue_mpsc`
and `lockrate`'s locked `q_t`, and with the routing of `do_produce`'s
enqueue loop (`sourceRoute`), with or without `-r`.

For each of them, in every reachable state, a consumer that received a
node with `data == 0` has received every data node routed to it; and when
`nconsumers ≤ messages_per_thread`, once no producer is left in
`do_produce`'s loops, some producer found `g_done == nproducers` and its
poison took effect in every `Q[i]`. When `messages_per_thread <
nconsumers`, which `main` accepts, the producers can leave the poison loop
by writing past `nodes_tmp` before any poison reaches the last queues
(`shutdown_poison_pill_two_two`).

Key definitions: `sourceRoute`, `ShutdownOk`.
Key theorems: `shutdownOk`, `shutdown_poison_pill`.
-/

namespace QueueRate
namespace Harness

open Concurrent

/-- The queue producer `p`'s enqueue loop sends `nodes[i]` to: the pass of
the loop at `i = messages_per_thread - 1 - k` is its `k`-th. -/
def sourceRoute (randomize : Bool) (nconsumers messagesPerThread : ℕ) (urandom : ℕ → ℕ → ℕ) {np : ℕ}
    (p : Fin np) (i : ℕ) : ℕ :=
  (routes randomize nconsumers messagesPerThread p (urandom p)).getD (messagesPerThread - 1 - i) 0

theorem sourceRoute_lt (randomize : Bool) {nconsumers : ℕ} (messagesPerThread : ℕ) (urandom : ℕ → ℕ → ℕ)
    {np : ℕ} (p : Fin np) (i : ℕ) (hc : 0 < nconsumers) :
    sourceRoute randomize nconsumers messagesPerThread urandom p i < nconsumers := by
  unfold sourceRoute routes
  rw [List.getD_eq_getElem?_getD]
  cases h : ((sends randomize nconsumers messagesPerThread p (urandom p)).map Send.queue)[messagesPerThread - 1 - i]? with
  | none => exact hc
  | some k =>
    obtain ⟨x, hx, rfl⟩ := List.mem_map.mp (List.mem_of_getElem? h)
    exact (enqueueLoop_bounds randomize nconsumers (urandom p) hc _ _ _ (Nat.mod_lt _ hc) x hx).1

variable {np : ℕ}

/-- What the shutdown guarantees over the queue `Q`, in every reachable
state: (b) a consumer that received a node with `data == 0` has received
every data node routed to it; (a) when `nconsumers ≤ messages_per_thread`
and every producer has left `do_produce`'s loops, some producer found
`g_done == nproducers` and enqueued its poison `nodes_tmp[i]` to every
`Q[i]`. -/
def ShutdownOk (nc mpt : ℕ) (route : Fin np → ℕ → ℕ) (Q : ConcQueue (Node (Fin np)) (Fin np)) : Prop :=
  ∀ s, Relation.ReflTransGen (Step nc mpt route Q) (init mpt Q) s →
    (∀ k z, z ∈ Q.out (s.qs k) → z.value = 0 →
      ∀ p j, j < mpt → route p j = k → Node.data p j ∈ Q.out (s.qs k)) ∧
    (nc ≤ mpt → (∀ p, s.prod p = .done ∨ s.prod p = .fault) →
      ∃ p, s.saw p = true ∧ ∀ i, i < nc → (p, Node.poison p i) ∈ Q.lin (s.qs i))

/-- Over any queue that delivers its pushes in the order they take effect,
the shutdown is safe. -/
theorem shutdownOk {nc mpt : ℕ} {route : Fin np → ℕ → ℕ} {Q : ConcQueue (Node (Fin np)) (Fin np)}
    (hnp : 0 < np) : ShutdownOk nc mpt route Q := by
  intro s hs
  have h := reachable_inv hs
  exact ⟨fun _ _ hz hz0 => h.data_out_of_poison_out hz hz0,
    fun hmpt hend => h.poison_sent_of_done hnp hmpt hend⟩

/-- **The poison-pill shutdown of the three builds.** For every argument
triple `main` accepts, with or without `-r` and whatever `urandom` returns,
for the Vyukov, Cloudius and locked queues, whatever the nodes' `next` fields
held: in every reachable state, a consumer that received a poison has
received every data node routed to it; and when `nconsumers ≤ nmessages /
nproducers`, once every producer has left `do_produce`'s loops, some
producer found `g_done == nproducers` and its poison took effect in every
queue. -/
theorem shutdown_poison_pill (nproducers nconsumers nmessages : ℕ) (randomize : Bool)
    (urandom : ℕ → ℕ → ℕ) (hargs : argsAccepted nproducers nconsumers nmessages = true) :
    (∀ next, ShutdownOk nconsumers (nmessages / nproducers)
      (sourceRoute randomize nconsumers (nmessages / nproducers) urandom) (Vyukov.conc (Fin nproducers) next)) ∧
    (∀ next, ShutdownOk nconsumers (nmessages / nproducers)
      (sourceRoute randomize nconsumers (nmessages / nproducers) urandom) (Cloudius.conc (Fin nproducers) next)) ∧
    (∀ next, ShutdownOk nconsumers (nmessages / nproducers)
      (sourceRoute randomize nconsumers (nmessages / nproducers) urandom) (Lockrate.conc (Fin nproducers) next)) := by
  have hnp : 0 < nproducers := by
    have := (argsAccepted_iff _ _ _).mp hargs
    omega
  exact ⟨fun _ => shutdownOk hnp, fun _ => shutdownOk hnp, fun _ => shutdownOk hnp⟩

theorem lin_ne_of_ne {l : List (Fin np × Node (Fin np))} {p p' : Fin np} {n n' : Node (Fin np)} (hp : p ≠ p') :
    l ++ [(p, n)] ≠ l ++ [(p', n')] :=
  fun h => hp (Prod.mk.inj (List.singleton_inj.mp (List.append_cancel_left h))).1

/-- One producer, one consumer and one message, with the locked queue: the
producer enqueues its node, finds `g_done == 1`, enqueues its poison and
leaves `do_produce`, and its poison is in `Q[0]`. -/
theorem shutdown_poison_pill_one :
    ∃ s, Relation.ReflTransGen
        (Step 1 (1 / 1) (sourceRoute false 1 (1 / 1) fun _ _ => 0) (Lockrate.conc (Fin 1) fun _ => none))
        (init (1 / 1) _) s ∧
      (∀ p, s.prod p = .done) ∧
      ∃ p, s.saw p = true ∧ ∀ i, i < 1 → (p, Node.poison p i) ∈ (Lockrate.conc (Fin 1) fun _ => none).lin (s.qs i) := by
  have r1 : Relation.ReflTransGen
      (Step 1 (1 / 1) (sourceRoute false 1 (1 / 1) fun _ _ => 0) (Lockrate.conc (Fin 1) fun _ => none))
      (init (1 / 1) _) _ :=
    .single (Step.queue 0 _ (fun _ => ProdPc.next (.sendData 0)) (by decide)
      (Lockrate.Step.push 0 (.data 0 0) rfl) fun p => by
        obtain rfl := Subsingleton.elim p 0
        exact Follows.atomic (n := .data 0 0) rfl trivial rfl rfl rfl)
  have r2 := r1.tail (Step.incr 0 rfl)
  have r3 := r2.tail (Step.check 0 rfl)
  have r4 := r3.tail (Step.poison 0 0 rfl)
  have r5 := r4.tail (Step.queue 0 _ (fun _ => ProdPc.next (.sendPoison 0)) (by decide)
    (Lockrate.Step.push 0 (.poison 0 0) rfl)
    fun p => by
      obtain rfl := Subsingleton.elim p 0
      exact Follows.atomic (n := .poison 0 0) rfl trivial rfl rfl rfl)
  have r6 := r5.tail (Step.poison 0 1 rfl)
  refine ⟨_, r6, fun p => ?_,
    ((shutdown_poison_pill 1 1 1 false _ (by decide)).2.2 _ _ r6).2 le_rfl fun p => .inl ?_⟩ <;>
  · obtain rfl := Subsingleton.elim p 0
    rfl

/-- **At `-p 2 -c 2 -m 2` the poison does not reach `Q[1]`.** `main` accepts
the arguments and `messages_per_thread = 1`; without `-r`, with the locked
queue: each producer enqueues its node to its own queue, producer 1
increments and tests first and finds `g_done == 1`, producer 0 finds
`g_done == 2`, enqueues `nodes_tmp[0]` to `Q[0]` and then writes
`nodes_tmp[1]` past the end of `nodes_tmp`. Every producer has left the
loops, and no node with `data == 0` was ever pushed to `Q[1]`. -/
theorem shutdown_poison_pill_two_two :
    argsAccepted 2 2 2 = true ∧
      ∃ s, Relation.ReflTransGen
          (Step 2 (2 / 2) (sourceRoute false 2 (2 / 2) fun _ _ => 0) (Lockrate.conc (Fin 2) fun _ => none))
          (init (2 / 2) _) s ∧
        (∀ p, s.prod p = .done ∨ s.prod p = .fault) ∧
        ∀ x ∈ (Lockrate.conc (Fin 2) fun _ => none).lin (s.qs 1), x.2.value ≠ 0 := by
  have r1 : Relation.ReflTransGen
      (Step 2 (2 / 2) (sourceRoute false 2 (2 / 2) fun _ _ => 0) (Lockrate.conc (Fin 2) fun _ => none))
      (init (2 / 2) _) _ :=
    .single (Step.queue 0 _ ![ProdPc.next (.sendData 0), .sendData 0] (by decide)
      (Lockrate.Step.push 0 (.data 0 0) rfl)
      (Fin.forall_fin_two.mpr ⟨by exact Follows.atomic (n := .data 0 0) rfl trivial rfl rfl rfl,
        by exact Follows.quiet rfl fun _ _ => lin_ne_of_ne (by decide)⟩))
  have r2 := r1.tail (Step.queue 1 _ ![ProdPc.next (.sendData 0), ProdPc.next (.sendData 0)] (by decide)
    (Lockrate.Step.push 1 (.data 1 0) rfl)
    (Fin.forall_fin_two.mpr ⟨by exact Follows.quiet rfl fun _ _ => lin_ne_of_ne (by decide),
      by exact Follows.atomic (n := .data 1 0) rfl trivial rfl rfl rfl⟩))
  have r3 := r2.tail (Step.incr 1 rfl)
  have r4 := r3.tail (Step.check 1 rfl)
  have r5 := r4.tail (Step.incr 0 rfl)
  have r6 := r5.tail (Step.check 0 rfl)
  have r7 := r6.tail (Step.poison 0 0 rfl)
  have r8 := r7.tail (Step.queue 0 _ ![ProdPc.next (.sendPoison 0), .done] (by decide)
    (Lockrate.Step.push 0 (.poison 0 0) rfl)
    (Fin.forall_fin_two.mpr ⟨by exact Follows.atomic (n := .poison 0 0) rfl trivial rfl rfl rfl,
      by exact Follows.quiet rfl fun _ _ => lin_ne_of_ne (by decide)⟩))
  have r9 := r8.tail (Step.poison 0 1 rfl)
  exact ⟨by decide, _, r9, Fin.forall_fin_two.mpr ⟨.inr rfl, .inl rfl⟩, by decide⟩

end Harness
end QueueRate
