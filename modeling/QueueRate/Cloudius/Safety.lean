import QueueRate.Cloudius.Invariant

/-!
# What `pop` and `popall` deliver, in every interleaving

From the invariant: the items delivered so far are a prefix of the
successful pushes in the order of their CAS (`Shape.delivered_prefix`), so
nothing is delivered twice or skipped, and each producer's items come out in
its push order. The chain from `poplist` is always null-terminated, so
`popall` always has a chain to hand over (`Shape.popChain`). Only the
exchange that finds `pushlist` empty returns null (`Step.results_none`), and
then nothing pushed is left undelivered.

Key theorem: `queue_mpsc_fifo`.
-/

namespace QueueRate
namespace Cloudius

open Linked

variable {α P : Type*} [DecidableEq α]

section Shape

variable {s : State α P} {S L R : List α}

omit [DecidableEq α] in
theorem Shape.delivered_prefix (h : Shape s S L R) :
    s.delivered <+: s.casOrder.map Prod.snd :=
  ⟨R.reverse ++ L ++ S.reverse, by rw [h.history]; simp⟩

omit [DecidableEq α] in
/-- At the exchange, with `pushlist` empty, every successful push has been delivered. -/
theorem Shape.delivered_eq (h : Shape s S L R) {all : Bool} (hc : s.pop = .exchange all)
    (hr : s.pushlist = none) :
    s.poplist = none ∧ s.delivered = s.casOrder.map Prod.snd := by
  have hpop := h.pop
  rw [hc] at hpop
  obtain ⟨rfl, hx⟩ := hpop
  have hL := h.popChain
  have hS := h.pushChain
  rw [hx, path_none_iff] at hL
  rw [hr, path_none_iff] at hS
  refine ⟨hx, ?_⟩
  rw [h.history, hL.1, hS.1]
  simp

end Shape

theorem Step.results_none [DecidableEq P] {s s' : State α P} (hs : Step s s')
    (hr : s'.results = s.results ++ [none]) : ∃ all, s.pop = .exchange all ∧ s.pushlist = none := by
  cases hs with
  | popExchangeNull all hc hpl => exact ⟨all, hc, hpl⟩
  | _ => simp at hr

/-- **The Cloudius queue delivers in CAS order**, from `queue_mpsc()` and for
every interleaving of any number of producers and one consumer: (a) the
items delivered so far are a prefix of the successful pushes in the order of
their CAS, and the chain `popall` hands over from `poplist` is
null-terminated; (b) a call returns null only when `poplist` is empty and
the exchange found `pushlist` empty, and then every successful push has been
delivered. -/
theorem queue_mpsc_fifo [DecidableEq P] (next : α → Option α) {s : State α P}
    (hs : Relation.ReflTransGen Step (queueMpsc next) s) :
    s.delivered <+: s.casOrder.map Prod.snd ∧ (∃ l, Path s.next s.poplist l none) ∧
      ∀ s', Step s s' → s'.results = s.results ++ [none] →
        s.poplist = none ∧ s.pushlist = none ∧ s.delivered = s.casOrder.map Prod.snd := by
  obtain ⟨S, L, R, h⟩ := reachable_inv hs
  refine ⟨h.delivered_prefix, ⟨L, h.popChain⟩, fun s' hs' hr => ?_⟩
  obtain ⟨all, hc, hpl⟩ := hs'.results_none hr
  obtain ⟨hx, hd⟩ := h.delivered_eq hc hpl
  exact ⟨hx, hpl, hd⟩

/-- One push, a `pop` that reverses the batch and returns it, and a `pop`
that finds both lists empty. -/
theorem queue_mpsc_fifo_run :
    ∃ s : State ℕ Unit, Relation.ReflTransGen Step (queueMpsc fun _ => none) s ∧
      s.results = [some 0, none] ∧
      (s.delivered <+: s.casOrder.map Prod.snd ∧ (∃ l, Path s.next s.poplist l none) ∧
        ∀ s', Step s s' → s'.results = s.results ++ [none] →
          s.poplist = none ∧ s.pushlist = none ∧ s.delivered = s.casOrder.map Prod.snd) := by
  have r1 := Relation.ReflTransGen.single
    (Step.pushLoad (s := queueMpsc (P := Unit) fun _ : ℕ => none) () 0 rfl rfl)
  have r2 := r1.tail (Step.pushStore () 0 none rfl)
  have r3 := r2.tail (Step.pushCas () 0 rfl)
  have r4 := r3.tail (Step.popStart false rfl rfl)
  have r5 := r4.tail (Step.popExchange false 0 rfl rfl)
  have r6 := r5.tail (Step.popFinish 0 rfl rfl)
  have r7 := r6.tail (Step.popStart false rfl rfl)
  have r8 := r7.tail (Step.popExchangeNull false rfl rfl)
  exact ⟨_, r8, rfl, queue_mpsc_fifo _ r8⟩

end Cloudius
end QueueRate
