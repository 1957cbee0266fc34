import Mathlib.Logic.Relation
import Mathlib.Data.List.Infix

/-!
# A concurrent queue, as its client sees it

A queue with producers `P` and one consumer, shared by a client that watches
three things of its state: the node each producer is pushing, from the
first step of its push to its last (`pushing`); the pushes in the order in
which they took effect (`lin`); and the nodes the consumer received
(`out`). `ConcQueue` bundles a step relation with these observations and
with what a client may rely on in every state where `Good` holds: the
consumer receives the pushes in the order they took effect
(`out_prefix`), a step makes at most one push take effect, a push that is
under way or done in one step (`lin_step`), and a push takes effect before
it returns (`pushing_step`).

Key definitions: `ConcQueue`.
Key theorems: `ConcQueue.lin_prefix`, `ConcQueue.mem_lin_of_return`,
`ConcQueue.before_of_mem_out`.
-/

namespace Concurrent

universe u v w

/-- A concurrent queue with producers `P` and one consumer, with what its
client observes and may rely on. -/
structure ConcQueue (α : Type u) (P : Type v) where
  St : Type w
  init : St
  Step : St → St → Prop
  /-- the node a producer is pushing, if it is in a push -/
  pushing : St → P → Option α
  /-- the pushes that took effect, in order -/
  lin : St → List (P × α)
  /-- the nodes the consumer received, in order -/
  out : St → List α
  /-- nothing pushed yet, nobody pushing -/
  lin_init : lin init = []
  pushing_init : ∀ p, pushing init p = none
  /-- what holds in every reachable state -/
  Good : St → Prop
  good_init : Good init
  good_step : ∀ {s s'}, Good s → Step s s' → Good s'
  /-- the consumer receives the pushes in the order they took effect -/
  out_prefix : ∀ {s}, Good s → out s <+: (lin s).map Prod.snd
  /-- at most one push takes effect in a step: one under way, or one done in that step -/
  lin_step : ∀ {s s'}, Good s → Step s s' → lin s' = lin s ∨
    ∃ p n, lin s' = lin s ++ [(p, n)] ∧
      (pushing s p = some n ∨ (pushing s p = none ∧ pushing s' p = none))
  /-- a push starts, or returns once it took effect -/
  pushing_step : ∀ {s s'}, Good s → Step s s' → ∀ p, pushing s' p ≠ pushing s p →
    (pushing s p = none ∧ ∃ n, pushing s' p = some n) ∨
      (∃ n, pushing s p = some n ∧ pushing s' p = none ∧ (p, n) ∈ lin s')

namespace ConcQueue

variable {α : Type u} {P : Type v} {Q : ConcQueue.{u, v, w} α P}

theorem lin_prefix {s s' : Q.St} (hg : Q.Good s) (hs : Q.Step s s') : Q.lin s <+: Q.lin s' := by
  rcases Q.lin_step hg hs with h | ⟨p, n, h, -⟩
  · rw [h]
  · rw [h]
    exact List.prefix_append _ _

theorem mem_lin_of_return {s s' : Q.St} (hg : Q.Good s) (hs : Q.Step s s') {p : P} {n : α}
    (h : Q.pushing s p = some n) (h' : Q.pushing s' p = none) : (p, n) ∈ Q.lin s' := by
  have hne : Q.pushing s' p ≠ Q.pushing s p := by rw [h, h']; exact Option.some_ne_none n |>.symm
  rcases Q.pushing_step hg hs p hne with ⟨hn, -⟩ | ⟨n', hn, -, hl⟩
  · rw [h] at hn
    cases hn
  · rw [h] at hn
    rwa [Option.some.inj hn]

/-- A received node comes with every push that took effect before it:
`lin = A ++ e :: B` with `e` carrying the node, and the nodes of `A` received. -/
theorem before_of_mem_out {s : Q.St} (hg : Q.Good s) {z : α} (hz : z ∈ Q.out s) :
    ∃ A e B, Q.lin s = A ++ e :: B ∧ e.2 = z ∧ ∀ x ∈ A, x.2 ∈ Q.out s := by
  obtain ⟨O₁, O₂, hO⟩ := List.append_of_mem hz
  obtain ⟨R, hR⟩ := Q.out_prefix hg
  rw [hO, List.append_assoc, List.cons_append] at hR
  obtain ⟨A, L, hl, hA, hL⟩ := List.map_eq_append_iff.mp hR.symm
  obtain ⟨e, B, rfl, he, -⟩ := List.map_eq_cons_iff.mp hL
  refine ⟨A, e, B, hl, he, fun x hx => ?_⟩
  rw [hO, ← hA]
  exact List.mem_append_left _ (List.mem_map_of_mem hx)

end ConcQueue

end Concurrent
