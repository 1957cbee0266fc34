import QueueRate.Lib.ConcQueue
import QueueRate.Vyukov.Safety

/-!
# The Vyukov queue as its client sees it

`conc` is the queue from `mpscq_create` as a `ConcQueue`: a producer is
pushing `n` from its store `n->next = 0` to its store `prev->next = n`, its
push takes effect at the exchange on `head` (`pushed`), and the consumer
receives what `mpscq_pop` returns. A step adds at most the push whose
exchange it is (`Step.pushed_step`), a push starts and returns only at its
first and last store (`Step.node_step`), the exchange comes before the
return (`LinkIn`), and the returned nodes are a prefix of the pushes
(`Shape.out_prefix`).

Key definitions: `Addr.get?`, `LinkIn`, `conc`.
-/

namespace QueueRate
namespace Vyukov

open Concurrent

variable {α P : Type*} [DecidableEq α] [DecidableEq P]

/-- The client's node at an address; none for the stub. -/
def Addr.get? : Addr α → Option α
  | .stub => none
  | .node a => some a

omit [DecidableEq P] in
theorem Shape.out_prefix {s : State α P} {rest : List (Addr α)} (h : Shape s rest) :
    s.popped.filterMap Addr.get? <+: s.pushed.map Prod.snd := by
  have hpre := h.popped_prefix.filterMap Addr.get?
  rwa [List.filterMap_map, show (Addr.get? ∘ fun e : P × α => Addr.node e.2) = some ∘ Prod.snd from rfl,
    List.filterMap_eq_map] at hpre

/-- A producer at its last store has had its exchange. -/
def LinkIn (s : State α P) : Prop :=
  ∀ p prev n, s.push p = .link prev n → (p, n) ∈ s.pushed

omit [DecidableEq P] in
theorem linkIn_mpscqCreate (next : Addr α → Option (Addr α)) :
    LinkIn (mpscqCreate (P := P) next) :=
  fun _ _ _ h => by cases h

variable {s s' : State α P}

theorem LinkIn.step (hl : LinkIn s) (hs : Step s s') : LinkIn s' := by
  intro p prev n hp
  cases hs with
  | pushStore q m hq _ =>
    dsimp only at hp ⊢
    rcases eq_or_ne p q with rfl | hpq
    · simp at hp
    · rw [Function.update_of_ne hpq] at hp
      exact hl p prev n hp
  | pushXchg q m hq =>
    dsimp only at hp ⊢
    rcases eq_or_ne p q with rfl | hpq
    · simp only [Function.update_self, PushPc.link.injEq] at hp
      obtain ⟨-, rfl⟩ := hp
      exact List.mem_append_right _ (List.mem_singleton_self _)
    · rw [Function.update_of_ne hpq] at hp
      exact List.mem_append_left _ (hl p prev n hp)
  | pushLink q _ _ hq =>
    dsimp only at hp ⊢
    rcases eq_or_ne p q with rfl | hpq
    · simp at hp
    · rw [Function.update_of_ne hpq] at hp
      exact hl p prev n hp
  | _ => exact hl p prev n hp

theorem Step.pushed_step (hs : Step s s') :
    s'.pushed = s.pushed ∨ ∃ p n, s'.pushed = s.pushed ++ [(p, n)] ∧ (s.push p).node = some n := by
  cases hs with
  | pushXchg p n hp => exact .inr ⟨p, n, rfl, by rw [hp]; rfl⟩
  | _ => exact .inl rfl

/-- A push starts at its store `n->next = 0` and returns at `prev->next = n`,
after its exchange. -/
theorem Step.node_step (hl : LinkIn s) (hs : Step s s') (p : P)
    (hne : (s'.push p).node ≠ (s.push p).node) :
    ((s.push p).node = none ∧ ∃ n, (s'.push p).node = some n) ∨
      ∃ n, (s.push p).node = some n ∧ (s'.push p).node = none ∧ (p, n) ∈ s'.pushed := by
  cases hs with
  | pushStore q n hq _ =>
    rcases eq_or_ne p q with rfl | hpq
    · exact .inl ⟨by rw [hq]; rfl, n, by simp [PushPc.node]⟩
    · simp [Function.update_of_ne hpq] at hne
  | pushXchg q n hq =>
    rcases eq_or_ne p q with rfl | hpq
    · simp [hq, PushPc.node] at hne
    · simp [Function.update_of_ne hpq] at hne
  | pushLink q prev n hq =>
    rcases eq_or_ne p q with rfl | hpq
    · exact .inr ⟨n, by rw [hq]; rfl, by simp [PushPc.node], hl p prev n hq⟩
    · simp [Function.update_of_ne hpq] at hne
  | _ => exact absurd rfl hne

variable (P) in
/-- **The Vyukov queue from `mpscq_create`, as its client sees it.** -/
def conc (next : Addr α → Option (Addr α)) : ConcQueue α P where
  St := State α P
  init := mpscqCreate next
  Step := Step
  pushing s p := (s.push p).node
  lin s := s.pushed
  out s := s.popped.filterMap Addr.get?
  lin_init := rfl
  pushing_init _ := rfl
  Good s := Inv s ∧ LinkIn s
  good_init := ⟨⟨[], shape_mpscqCreate next⟩, linkIn_mpscqCreate next⟩
  good_step := fun ⟨⟨_, h⟩, hl⟩ hs => ⟨h.step hs, hl.step hs⟩
  out_prefix := fun ⟨⟨_, h⟩, _⟩ => h.out_prefix
  lin_step := fun _ hs => hs.pushed_step.imp_right fun ⟨p, n, hl, hn⟩ => ⟨p, n, hl, .inl hn⟩
  pushing_step := fun ⟨_, hl⟩ hs => hs.node_step hl

end Vyukov
end QueueRate
