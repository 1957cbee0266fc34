import QueueRate.Lib.ConcQueue
import QueueRate.Cloudius.Safety

/-!
# The Cloudius queue as its client sees it

`conc` is the queue from `queue_mpsc()` as a `ConcQueue`: a producer
is pushing `item` from its load of `pushlist` to its successful CAS, its push
takes effect at that CAS (`casOrder`), and the consumer receives what `pop`
and `popall` hand over (`delivered`). A step adds at most the push whose CAS
it is (`Step.casOrder_step`), and a push starts at its load and returns at
its CAS (`Step.item_step`).

Key definition: `conc`.
-/

namespace QueueRate
namespace Cloudius

open Concurrent

variable {α P : Type*} [DecidableEq α] [DecidableEq P] {s s' : State α P}

theorem Step.casOrder_step (hs : Step s s') :
    s'.casOrder = s.casOrder ∨ ∃ p n, s'.casOrder = s.casOrder ++ [(p, n)] ∧ (s.push p).item = some n := by
  cases hs with
  | pushCas p n hp => exact .inr ⟨p, n, rfl, by rw [hp]; rfl⟩
  | _ => exact .inl rfl

/-- A push starts at its load of `pushlist` and returns at its successful
CAS; the failed CAS and the store `item->next = old` keep it under way. -/
theorem Step.item_step (hs : Step s s') (p : P) (hne : (s'.push p).item ≠ (s.push p).item) :
    ((s.push p).item = none ∧ ∃ n, (s'.push p).item = some n) ∨
      ∃ n, (s.push p).item = some n ∧ (s'.push p).item = none ∧ (p, n) ∈ s'.casOrder := by
  cases hs with
  | pushLoad q n hq _ =>
    rcases eq_or_ne p q with rfl | hpq
    · exact .inl ⟨by rw [hq]; rfl, n, by simp [PushPc.item]⟩
    · simp [Function.update_of_ne hpq] at hne
  | pushStore q n old hq | pushCasFail q n old hq =>
    rcases eq_or_ne p q with rfl | hpq
    · simp [hq, PushPc.item] at hne
    · simp [Function.update_of_ne hpq] at hne
  | pushCas q n hq =>
    rcases eq_or_ne p q with rfl | hpq
    · exact .inr ⟨n, by rw [hq]; rfl, by simp [PushPc.item], by simp⟩
    · simp [Function.update_of_ne hpq] at hne
  | _ => exact absurd rfl hne

variable (P) in
/-- **The Cloudius queue from `queue_mpsc()`, as its client sees it.** -/
def conc (next : α → Option α) : ConcQueue α P where
  St := State α P
  init := queueMpsc next
  Step := Step
  pushing s p := (s.push p).item
  lin s := s.casOrder
  out s := s.delivered
  lin_init := rfl
  pushing_init _ := rfl
  Good := Inv
  good_init := ⟨[], [], [], shape_queueMpsc next⟩
  good_step := fun ⟨_, _, _, h⟩ hs => h.step hs
  out_prefix := fun ⟨_, _, _, h⟩ => h.delivered_prefix
  lin_step := fun _ hs => hs.casOrder_step.imp_right fun ⟨p, n, hl, hn⟩ => ⟨p, n, hl, .inl hn⟩
  pushing_step := fun _ hs => hs.item_step

end Cloudius
end QueueRate
