import Mathlib.Data.Fintype.Card
import Mathlib.Data.Fintype.Fin
import QueueRate.Harness.Shutdown

/-!
# What every interleaving of the shutdown keeps

`Inv` ties `g_done`, the producers' places and the queues' histories
together. `g_done` counts the producers past their `g_done++`; a push that
`Q[k]` shows under way is the enqueue its producer is in; every enqueue a
producer's loop is past took effect; a poison took effect in `Q[k]` after
every data node routed to `Q[k]`, since whoever sends it found every
producer past its enqueue loop; a producer that found `g_done ==
nproducers` has enqueued `nodes_tmp[i]` for every `i` its poison loop is
past; once `g_done` reaches `nproducers`, some producer found it so or is
about to test it; and a producer writes past `nodes_tmp` only when
`messages_per_thread < nconsumers`.

`Inv` holds initially (`inv_init`) and every `Step` keeps it (`Inv.step`),
so it holds in every reachable state (`reachable_inv`). From it, a consumer
that received a poison has received every data node routed to it
(`Inv.data_out_of_poison_out`), and once every producer has left
`do_produce`'s loops, some producer has enqueued a poison to every queue,
unless `messages_per_thread < nconsumers` (`Inv.poison_sent_of_done`).

Key definitions: `ProdPc.DataSent`, `ProdPc.PoisonSent`, `passed`, `Inv`.
Key theorems: `reachable_inv`, `Inv.data_out_of_poison_out`, `Inv.poison_sent_of_done`.
-/

namespace QueueRate
namespace Harness

open Concurrent

namespace ProdPc

/-- The enqueue loop is past `nodes[j]`. -/
def DataSent (j : ℕ) : ProdPc → Prop
  | .sendData i | .inData i => i < j
  | _ => True

/-- The poison loop is past `nodes_tmp[j]`. -/
def PoisonSent (j : ℕ) : ProdPc → Prop
  | .poison i | .sendPoison i | .inPoison i => j < i
  | .done => True
  | _ => False

variable {P : Type*} (route : P → ℕ → ℕ) (p : P)

@[simp] theorem target_enter (pc : ProdPc) : pc.enter.target route p = pc.target route p := by
  cases pc <;> rfl

theorem pastIncr_afterData (i : ℕ) : (afterData i).pastIncr = false := by
  unfold afterData
  split <;> rfl

theorem not_poisoning_afterData (i : ℕ) : ¬ (afterData i).Poisoning := by
  unfold afterData
  split <;> exact id

theorem not_poisonSent_afterData (i j : ℕ) : ¬ (afterData i).PoisonSent j := by
  unfold afterData
  split <;> exact id

theorem dataSent_afterData (i j : ℕ) : (afterData i).DataSent j ↔ i ≤ j := by
  unfold afterData
  split
  · exact ⟨fun _ => by omega, fun _ => trivial⟩
  · show i - 1 < j ↔ i ≤ j
    omega

@[simp] theorem pastIncr_enter (pc : ProdPc) : pc.enter.pastIncr = pc.pastIncr := by
  cases pc <;> rfl

@[simp] theorem pastIncr_next (pc : ProdPc) : pc.next.pastIncr = pc.pastIncr := by
  cases pc with
  | sendData i | inData i => exact pastIncr_afterData i
  | _ => rfl

@[simp] theorem poisoning_enter (pc : ProdPc) : pc.enter.Poisoning ↔ pc.Poisoning := by
  cases pc <;> exact Iff.rfl

@[simp] theorem poisoning_next (pc : ProdPc) : pc.next.Poisoning ↔ pc.Poisoning := by
  cases pc with
  | sendData i | inData i => exact iff_of_false (not_poisoning_afterData i) id
  | _ => exact Iff.rfl

theorem dataSent_enter (j : ℕ) (pc : ProdPc) : pc.enter.DataSent j ↔ pc.DataSent j := by
  cases pc <;> exact Iff.rfl

theorem poisonSent_enter (j : ℕ) (pc : ProdPc) : pc.enter.PoisonSent j ↔ pc.PoisonSent j := by
  cases pc <;> exact Iff.rfl

theorem dataSent_next {j : ℕ} {pc : ProdPc} (h : pc.next.DataSent j) :
    pc.DataSent j ∨ pc.target route p = some (route p j, .data p j) := by
  cases pc with
  | sendData i | inData i =>
    simp only [next, dataSent_afterData] at h
    rcases h.lt_or_eq with h | rfl
    · exact .inl h
    · exact .inr rfl
  | _ => exact .inl trivial

theorem poisonSent_next {j : ℕ} {pc : ProdPc} (h : pc.next.PoisonSent j) :
    pc.PoisonSent j ∨ pc.target route p = some (j, .poison p j) := by
  cases pc with
  | sendData i | inData i => exact absurd h (not_poisonSent_afterData i j)
  | sendPoison i | inPoison i =>
    have hj : j < i + 1 := h
    rcases (Nat.lt_succ_iff.mp hj).lt_or_eq with hj | rfl
    · exact .inl hj
    · exact .inr rfl
  | _ => exact .inl h

theorem dataSent_of_pastIncr {j : ℕ} {pc : ProdPc} (h : pc.pastIncr = true) : pc.DataSent j := by
  cases pc with
  | sendData | inData | incr => simp [pastIncr] at h
  | _ => trivial

theorem inPush_enter {pc : ProdPc} (hs : pc.Sending) : pc.enter.InPush := by
  cases pc with
  | sendData | sendPoison => trivial
  | _ => exact (hs : False).elim

theorem not_inPush_of_sending {pc : ProdPc} (hs : pc.Sending) : ¬ pc.InPush := by
  cases pc <;> simp_all [Sending, InPush]

theorem pastIncr_or_poisoning {pc : ProdPc} {x : ℕ × Node P} (ht : pc.target route p = some x) :
    pc.pastIncr = false ∨ pc.Poisoning := by
  cases pc with
  | sendData | inData => exact .inl rfl
  | sendPoison | inPoison => exact .inr trivial
  | _ => cases ht

theorem poisoning_of_target {pc : ProdPc} {k : ℕ} {n : Node P} (hs : pc.Sending ∨ pc.InPush)
    (ht : pc.target route p = some (k, n)) (hn : n.value = 0) : pc.Poisoning := by
  cases pc with
  | sendData i | inData i =>
    obtain ⟨-, rfl⟩ := Prod.mk.inj (Option.some.inj ht)
    simp [Node.value] at hn
  | sendPoison | inPoison => trivial
  | _ => simp [Sending, InPush] at hs

theorem pastIncr_start (mpt : ℕ) : (start mpt).pastIncr = false := by
  unfold start
  split <;> rfl

theorem not_poisoning_start (mpt : ℕ) : ¬ (start mpt).Poisoning := by
  unfold start
  split <;> exact id

theorem not_dataSent_start {mpt j : ℕ} (hj : j < mpt) : ¬ (start mpt).DataSent j := by
  unfold start
  rw [if_neg (by omega)]
  show ¬ mpt - 1 < j
  omega

end ProdPc

variable {np : ℕ}

/-! ### `g_done` -/

/-- How many producers are past their `g_done++`. -/
def passed (prod : Fin np → ProdPc) : ℕ :=
  (Finset.univ.filter fun p => (prod p).pastIncr = true).card

theorem passed_congr {prod prod' : Fin np → ProdPc} (h : ∀ p, (prod' p).pastIncr = (prod p).pastIncr) :
    passed prod' = passed prod := by
  unfold passed
  simp only [h]

theorem passed_update {prod : Fin np → ProdPc} {p : Fin np} {pc : ProdPc}
    (h : pc.pastIncr = (prod p).pastIncr) : passed (Function.update prod p pc) = passed prod := by
  apply passed_congr
  intro q
  rcases eq_or_ne q p with rfl | hq
  · rw [Function.update_self, h]
  · rw [Function.update_of_ne hq]

theorem passed_update_incr {prod : Fin np → ProdPc} {p : Fin np} (hp : prod p = .incr) :
    passed (Function.update prod p .check) = passed prod + 1 := by
  have hset : (Finset.univ.filter fun q => (Function.update prod p .check q).pastIncr = true) =
      insert p (Finset.univ.filter fun q => (prod q).pastIncr = true) := by
    ext q
    simp only [Finset.mem_filter, Finset.mem_univ, true_and, Finset.mem_insert]
    rcases eq_or_ne q p with rfl | hq
    · simp only [Function.update_self, true_or, iff_true]
      rfl
    · simp only [Function.update_of_ne hq, hq, false_or]
  have hp' : p ∉ Finset.univ.filter fun q => (prod q).pastIncr = true := by
    intro hmem
    have hpast := (Finset.mem_filter.mp hmem).2
    rw [hp] at hpast
    cases hpast
  unfold passed
  rw [hset, Finset.card_insert_of_notMem hp']

theorem pastIncr_of_passed {prod : Fin np → ProdPc} (h : passed prod = np) (p : Fin np) :
    (prod p).pastIncr = true := by
  have huniv : (Finset.univ.filter fun q => (prod q).pastIncr = true) = Finset.univ := by
    apply Finset.eq_univ_of_card
    rw [Fintype.card_fin]
    exact h
  exact Finset.filter_eq_self.mp huniv p (Finset.mem_univ p)

theorem passed_of_pastIncr {prod : Fin np → ProdPc} (h : ∀ p, (prod p).pastIncr = true) :
    passed prod = np := by
  unfold passed
  rw [Finset.filter_true_of_mem fun p _ => h p, Finset.card_univ, Fintype.card_fin]

/-! ### How a producer follows a queue step -/

section Follows

variable {route : Fin np → ℕ → ℕ} {Q : ConcQueue (Node (Fin np)) (Fin np)} {k : ℕ} {q q' : Q.St}
  {p : Fin np} {pc pc' : ProdPc}

/-- A queue step leaves a producer where it was, enters it into its
enqueue, or returns from it once the push took effect. -/
theorem Follows.eq_or_enter_or_next (hg : Q.Good q) (hq : Q.Step q q')
    (hf : Follows route Q k q q' p pc pc') :
    pc' = pc ∨ pc' = pc.enter ∨ ∃ n, pc.target route p = some (k, n) ∧ pc' = pc.next ∧ (p, n) ∈ Q.lin q' := by
  cases hf with
  | quiet => exact .inl rfl
  | begin => exact .inr (.inl rfl)
  | @finish n ht _ h h' => exact .inr (.inr ⟨n, ht, rfl, Q.mem_lin_of_return hg hq h h'⟩)
  | @atomic n ht _ _ _ hl => exact .inr (.inr ⟨n, ht, rfl, by rw [hl]; simp⟩)

theorem Follows.pastIncr_eq (hf : Follows route Q k q q' p pc pc') : pc'.pastIncr = pc.pastIncr := by
  cases hf <;> simp

theorem Follows.poisoning_iff (hf : Follows route Q k q q' p pc pc') : pc'.Poisoning ↔ pc.Poisoning := by
  cases hf <;> simp

theorem Follows.eq_of_target_none (hf : Follows route Q k q q' p pc pc')
    (ht : pc.target route p = none) : pc' = pc := by
  cases hf with
  | quiet => rfl
  | begin ht' | finish ht' | atomic ht' => rw [ht] at ht'; cases ht'

theorem Follows.eq_of_pastIncr (hf : Follows route Q k q q' p pc pc') (h : pc'.pastIncr = true)
    (hp : ¬ pc'.Poisoning) : pc' = pc := by
  cases hf with
  | quiet => rfl
  | begin ht | finish ht | atomic ht =>
    simp only [ProdPc.pastIncr_enter, ProdPc.pastIncr_next, ProdPc.poisoning_enter,
      ProdPc.poisoning_next] at h hp
    rcases ProdPc.pastIncr_or_poisoning route p ht with h' | h'
    · rw [h] at h'
      cases h'
    · exact absurd h' hp

theorem Follows.eq_of_inPush (hf : Follows route Q k q q' p pc pc') (hin : pc.InPush) {k' : ℕ}
    {n : Node (Fin np)} (ht : pc.target route p = some (k', n)) (hk : k' ≠ k) : pc' = pc := by
  cases hf with
  | quiet => rfl
  | begin _ hs | atomic _ hs => exact absurd hin (ProdPc.not_inPush_of_sending hs)
  | finish ht' =>
    rw [ht] at ht'
    exact absurd (Prod.mk.inj (Option.some.inj ht')).1 hk

theorem Follows.pushing_some (hf : Follows route Q k q q' p pc pc') {n : Node (Fin np)}
    (h : Q.pushing q' p = some n) :
    (Q.pushing q p = some n ∧ pc' = pc) ∨ (pc'.InPush ∧ pc'.target route p = some (k, n)) := by
  cases hf with
  | quiet h' => exact .inl ⟨h'.symm.trans h, rfl⟩
  | begin ht hs _ h' =>
    rw [h] at h'
    rw [Option.some.inj h']
    exact .inr ⟨ProdPc.inPush_enter hs, by rw [ProdPc.target_enter, ht]⟩
  | finish _ _ _ h' | atomic _ _ _ h' => rw [h] at h'; cases h'

/-- The producer whose push appends to `lin` with no push under way runs
its whole enqueue in the step. -/
theorem Follows.poisoning_of_append (hf : Follows route Q k q q' p pc pc') {n : Node (Fin np)}
    (hl : Q.lin q' = Q.lin q ++ [(p, n)]) (hn : n.value = 0) (h : Q.pushing q p = none)
    (h' : Q.pushing q' p = none) : pc.Poisoning := by
  cases hf with
  | quiet _ hlin => exact absurd hl (hlin h n)
  | begin _ _ _ h'' => rw [h'] at h''; cases h''
  | finish _ _ h'' => rw [h] at h''; cases h''
  | @atomic n' ht hs _ _ hl' =>
    rw [hl] at hl'
    obtain ⟨-, rfl⟩ := Prod.mk.inj (List.singleton_inj.mp (List.append_cancel_left hl'))
    exact ProdPc.poisoning_of_target route p (.inl hs) ht hn

theorem Follows.dataSent (hg : Q.Good q) (hq : Q.Step q q') (hf : Follows route Q k q q' p pc pc')
    {j : ℕ} (h : pc'.DataSent j) : pc.DataSent j ∨ k = route p j ∧ (p, .data p j) ∈ Q.lin q' := by
  rcases hf.eq_or_enter_or_next hg hq with rfl | rfl | ⟨n, ht, rfl, hn⟩
  · exact .inl h
  · exact .inl ((ProdPc.dataSent_enter j pc).mp h)
  · rcases ProdPc.dataSent_next route p h with h | h
    · exact .inl h
    · rw [ht] at h
      obtain ⟨rfl, rfl⟩ := Prod.mk.inj (Option.some.inj h)
      exact .inr ⟨rfl, hn⟩

theorem Follows.poisonSent (hg : Q.Good q) (hq : Q.Step q q') (hf : Follows route Q k q q' p pc pc')
    {j : ℕ} (h : pc'.PoisonSent j) : pc.PoisonSent j ∨ k = j ∧ (p, .poison p j) ∈ Q.lin q' := by
  rcases hf.eq_or_enter_or_next hg hq with rfl | rfl | ⟨n, ht, rfl, hn⟩
  · exact .inl h
  · exact .inl ((ProdPc.poisonSent_enter j pc).mp h)
  · rcases ProdPc.poisonSent_next route p h with h | h
    · exact .inl h
    · rw [ht] at h
      obtain ⟨rfl, rfl⟩ := Prod.mk.inj (Option.some.inj h)
      exact .inr ⟨rfl, hn⟩

theorem lin_update_grows {qs : ℕ → Q.St} (hg : Q.Good (qs k)) (hq : Q.Step (qs k) q') (i : ℕ) :
    Q.lin (qs i) <+: Q.lin (Function.update qs k q' i) := by
  rcases eq_or_ne i k with rfl | hi
  · rw [Function.update_self]
    exact ConcQueue.lin_prefix hg hq
  · rw [Function.update_of_ne hi]

end Follows

/-! ### The invariant -/

variable (nc mpt : ℕ) (route : Fin np → ℕ → ℕ) {Q : ConcQueue (Node (Fin np)) (Fin np)}

/-- What every reachable state of the harness keeps. -/
structure Inv (s : HState Q) : Prop where
  good : ∀ k, Q.Good (s.qs k)
  /-- `g_done` counts the producers past their `g_done++` -/
  count : s.gDone = passed s.prod
  /-- a push `Q[k]` shows under way is the enqueue its producer is in -/
  pushing : ∀ k p n, Q.pushing (s.qs k) p = some n →
    (s.prod p).InPush ∧ (s.prod p).target route p = some (k, n)
  /-- the enqueues the loop is past took effect -/
  data : ∀ p j, j < mpt → (s.prod p).DataSent j → (p, .data p j) ∈ Q.lin (s.qs (route p j))
  /-- a poison took effect after every data node routed to its queue -/
  order : ∀ k L e, L ++ [e] <+: Q.lin (s.qs k) → e.2.value = 0 →
    ∀ p j, j < mpt → route p j = k → (p, .data p j) ∈ L
  /-- a producer that found `g_done == nproducers` found every producer past its loop -/
  saw : ∀ p, s.saw p = true → ∀ p', (s.prod p').pastIncr = true
  poisoning : ∀ p, (s.prod p).Poisoning → s.saw p = true
  /-- the poisons the loop is past took effect -/
  poisonSent : ∀ p, s.saw p = true → ∀ i, i < nc → (s.prod p).PoisonSent i →
    (p, .poison p i) ∈ Q.lin (s.qs i)
  /-- once every producer has incremented, one found it so or is about to test -/
  last : 0 < s.gDone → s.gDone = np → (∃ p, s.saw p = true) ∨ ∃ p, s.prod p = .check
  fault : ∀ p, s.prod p = .fault → mpt < nc

variable {nc mpt route}

theorem inv_init : Inv nc mpt route (init mpt Q) where
  good _ := Q.good_init
  count := by simp [init, passed, ProdPc.pastIncr_start]
  pushing k p n hn := by
    rw [show (init mpt Q).qs k = Q.init from rfl, Q.pushing_init] at hn
    cases hn
  data p j hj hsent := absurd hsent (ProdPc.not_dataSent_start hj)
  order k L e hL := by
    rw [show (init mpt Q).qs k = Q.init from rfl, Q.lin_init] at hL
    exact absurd (List.prefix_nil.mp hL) (by simp)
  saw p hp := by cases hp
  poisoning p hp := absurd hp (ProdPc.not_poisoning_start mpt)
  poisonSent p hp := by cases hp
  last hpos := absurd hpos (Nat.lt_irrefl 0)
  fault p hp := by
    have := ProdPc.pastIncr_start mpt
    rw [show (init mpt Q).prod p = ProdPc.start mpt from rfl] at hp
    rw [hp] at this
    cases this

section Steps

variable {s : HState Q}

theorem Inv.queue (h : Inv nc mpt route s) {k : ℕ} {q' : Q.St} {prod' : Fin np → ProdPc}
    (hq : Q.Step (s.qs k) q') (hf : ∀ p, Follows route Q k (s.qs k) q' p (s.prod p) (prod' p)) :
    Inv nc mpt route { s with qs := Function.update s.qs k q', prod := prod' } where
  good k' := by
    rcases eq_or_ne k' k with rfl | hk
    · simpa using Q.good_step (h.good k') hq
    · simpa [hk] using h.good k'
  count := h.count.trans (passed_congr fun p => (hf p).pastIncr_eq).symm
  pushing k' p n hn := by
    dsimp only at hn ⊢
    rcases eq_or_ne k' k with rfl | hk
    · rw [Function.update_self] at hn
      rcases (hf p).pushing_some hn with ⟨hold, he⟩ | hnew
      · rw [he]
        exact h.pushing k' p n hold
      · exact hnew
    · rw [Function.update_of_ne hk] at hn
      obtain ⟨hin, ht⟩ := h.pushing k' p n hn
      rw [(hf p).eq_of_inPush hin ht hk]
      exact ⟨hin, ht⟩
  data p j hj hsent := by
    dsimp only at hsent ⊢
    rcases (hf p).dataSent (h.good k) hq hsent with hold | ⟨rfl, hn⟩
    · exact (lin_update_grows (h.good k) hq _).subset (h.data p j hj hold)
    · rwa [Function.update_self]
  order k' L e hL he p j hj hr := by
    dsimp only at hL
    rcases eq_or_ne k' k with rfl | hk
    · rw [Function.update_self] at hL
      rcases Q.lin_step (h.good k') hq with hl | ⟨p0, n0, hl, hpush⟩
      · rw [hl] at hL
        exact h.order k' L e hL he p j hj hr
      rw [hl, List.prefix_concat_iff] at hL
      rcases hL with hL | hL
      · -- the entry is the push of this step: a poison, sent by a producer
        -- that found every producer past its enqueue loop
        obtain ⟨rfl, he'⟩ := List.append_inj' hL rfl
        obtain rfl := List.singleton_inj.mp he'
        have hpois : (s.prod p0).Poisoning := by
          rcases hpush with hsome | ⟨hnone, hnone'⟩
          · obtain ⟨hin, ht⟩ := h.pushing k' p0 n0 hsome
            exact ProdPc.poisoning_of_target route p0 (.inr hin) ht he
          · exact (hf p0).poisoning_of_append hl he hnone hnone'
        have hall := h.saw p0 (h.poisoning p0 hpois)
        rw [← hr]
        exact h.data p j hj (ProdPc.dataSent_of_pastIncr (hall p))
      · exact h.order k' L e hL he p j hj hr
    · rw [Function.update_of_ne hk] at hL
      exact h.order k' L e hL he p j hj hr
  saw p hp p' := by
    dsimp only at hp ⊢
    rw [(hf p').pastIncr_eq]
    exact h.saw p hp p'
  poisoning p hp := h.poisoning p ((hf p).poisoning_iff.mp hp)
  poisonSent p hp i hi hsent := by
    dsimp only at hp hsent ⊢
    rcases (hf p).poisonSent (h.good k) hq hsent with hold | ⟨rfl, hn⟩
    · exact (lin_update_grows (h.good k) hq _).subset (h.poisonSent p hp i hi hold)
    · rwa [Function.update_self]
  last hpos heq := by
    rcases h.last hpos heq with hs | ⟨p, hp⟩
    · exact .inl hs
    · refine .inr ⟨p, ?_⟩
      dsimp only
      rw [(hf p).eq_of_target_none (by rw [hp]; rfl), hp]
  fault p hp := by
    dsimp only at hp
    have he := (hf p).eq_of_pastIncr (by rw [hp]; rfl) (by rw [hp]; exact id)
    exact h.fault p (he ▸ hp)

theorem Inv.incr (h : Inv nc mpt route s) {p : Fin np} (hp : s.prod p = .incr) :
    Inv nc mpt route { s with gDone := s.gDone + 1, prod := Function.update s.prod p .check } where
  good := h.good
  count := by
    dsimp only
    rw [h.count, passed_update_incr hp]
  pushing k q n hn := by
    obtain ⟨hin, ht⟩ := h.pushing k q n hn
    have hq : q ≠ p := by
      rintro rfl
      rw [hp] at hin
      exact hin
    dsimp only
    rw [Function.update_of_ne hq]
    exact ⟨hin, ht⟩
  data q j hj hsent := by
    apply h.data q j hj
    rcases eq_or_ne q p with rfl | hq
    · rw [hp]
      trivial
    · simpa [Function.update_of_ne hq] using hsent
  order := h.order
  -- nobody has found `g_done == nproducers` while `p` is still before its `g_done++`
  saw q hq := absurd (h.saw q hq p) (by rw [hp]; decide)
  poisoning q hq := by
    dsimp only at hq ⊢
    rcases eq_or_ne q p with rfl | hqp
    · rw [Function.update_self] at hq
      exact hq.elim
    · rw [Function.update_of_ne hqp] at hq
      exact h.poisoning q hq
  poisonSent q hq := absurd (h.saw q hq p) (by rw [hp]; decide)
  last _ _ := .inr ⟨p, by simp⟩
  fault q hq := by
    dsimp only at hq
    rcases eq_or_ne q p with rfl | hqp
    · simp at hq
    · rw [Function.update_of_ne hqp] at hq
      exact h.fault q hq

theorem Inv.check (h : Inv nc mpt route s) {p : Fin np} (hp : s.prod p = .check) :
    Inv nc mpt route { s with saw := Function.update s.saw p (decide (s.gDone = np)),
                              prod := Function.update s.prod p
                                (if s.gDone = np then .poison 0 else .done) } := by
  have hpast : (if s.gDone = np then ProdPc.poison 0 else .done).pastIncr = (s.prod p).pastIncr := by
    rw [hp]
    split <;> rfl
  have hq : ∀ q, (s.prod q).InPush → q ≠ p := by
    rintro q hin rfl
    rw [hp] at hin
    exact hin
  exact {
    good := h.good
    count := (h.count.trans (passed_update hpast).symm)
    pushing := fun k q n hn => by
      obtain ⟨hin, ht⟩ := h.pushing k q n hn
      dsimp only
      rw [Function.update_of_ne (hq q hin)]
      exact ⟨hin, ht⟩
    data := fun q j hj hsent => by
      apply h.data q j hj
      rcases eq_or_ne q p with rfl | hqp
      · rw [hp]
        trivial
      · simpa [Function.update_of_ne hqp] using hsent
    order := h.order
    saw := fun q hs q' => by
      dsimp only at hs ⊢
      have hall : ∀ q', (s.prod q').pastIncr = true := by
        rcases eq_or_ne q p with rfl | hqp
        · rw [Function.update_self, decide_eq_true_iff] at hs
          exact pastIncr_of_passed (h.count.symm.trans hs)
        · rw [Function.update_of_ne hqp] at hs
          exact h.saw q hs
      rcases eq_or_ne q' p with rfl | hq'
      · rw [Function.update_self, hpast]
        exact hall q'
      · rw [Function.update_of_ne hq']
        exact hall q'
    poisoning := fun q hpois => by
      dsimp only at hpois ⊢
      rcases eq_or_ne q p with rfl | hqp
      · rw [Function.update_self] at hpois ⊢
        split at hpois
        · simpa
        · exact hpois.elim
      · rw [Function.update_of_ne hqp] at hpois ⊢
        exact h.poisoning q hpois
    poisonSent := fun q hs i hi hsent => by
      dsimp only at hs hsent ⊢
      rcases eq_or_ne q p with rfl | hqp
      · -- `p` has just found `g_done == nproducers`: its loop is at `i = 0`
        rw [Function.update_self, decide_eq_true_iff] at hs
        rw [Function.update_self, if_pos hs] at hsent
        exact absurd hsent (Nat.not_lt_zero i)
      · rw [Function.update_of_ne hqp] at hs hsent
        exact h.poisonSent q hs i hi hsent
    last := fun _ heq => .inl ⟨p, by simp only [Function.update_self, decide_eq_true_eq]; exact heq⟩
    fault := fun q hf => by
      dsimp only at hf
      rcases eq_or_ne q p with rfl | hqp
      · rw [Function.update_self] at hf
        split at hf <;> cases hf
      · rw [Function.update_of_ne hqp] at hf
        exact h.fault q hf }

theorem Inv.poison (h : Inv nc mpt route s) {p : Fin np} {i : ℕ} (hp : s.prod p = .poison i) :
    Inv nc mpt route
      { s with
        prod := Function.update s.prod p (if i < nc then (if i < mpt then .sendPoison i else .fault) else .done) } := by
  have hpast : (if i < nc then (if i < mpt then ProdPc.sendPoison i else .fault) else .done).pastIncr =
      (s.prod p).pastIncr := by
    rw [hp]
    split
    · split <;> rfl
    · rfl
  have hq : ∀ q, (s.prod q).InPush → q ≠ p := by
    rintro q hin rfl
    rw [hp] at hin
    exact hin
  exact {
    good := h.good
    count := h.count.trans (passed_update hpast).symm
    pushing := fun k q n hn => by
      obtain ⟨hin, ht⟩ := h.pushing k q n hn
      dsimp only
      rw [Function.update_of_ne (hq q hin)]
      exact ⟨hin, ht⟩
    data := fun q j hj hsent => by
      apply h.data q j hj
      rcases eq_or_ne q p with rfl | hqp
      · rw [hp]
        trivial
      · simpa [Function.update_of_ne hqp] using hsent
    order := h.order
    saw := fun q hs q' => by
      dsimp only at hs ⊢
      rcases eq_or_ne q' p with rfl | hq'
      · rw [Function.update_self, hpast]
        exact h.saw q hs q'
      · rw [Function.update_of_ne hq']
        exact h.saw q hs q'
    poisoning := fun q hpois => by
      rcases eq_or_ne q p with rfl | hqp
      · exact h.poisoning q (by rw [hp]; trivial)
      · dsimp only at hpois ⊢
        rw [Function.update_of_ne hqp] at hpois
        exact h.poisoning q hpois
    poisonSent := fun q hs j hj hsent => by
      dsimp only at hs hsent ⊢
      apply h.poisonSent q hs j hj
      rcases eq_or_ne q p with rfl | hqp
      · -- each way out of the test `i < nconsumers` leaves the loop past the same `nodes_tmp[j]`
        rw [Function.update_self] at hsent
        rw [hp]
        show j < i
        split at hsent
        · split at hsent
          · exact hsent
          · exact hsent.elim
        · omega
      · rwa [Function.update_of_ne hqp] at hsent
    last := fun hpos heq => by
      rcases h.last hpos heq with hs | ⟨q, hq'⟩
      · exact .inl hs
      · have hqp : q ≠ p := by
          rintro rfl
          rw [hp] at hq'
          cases hq'
        refine .inr ⟨q, ?_⟩
        dsimp only
        rw [Function.update_of_ne hqp]
        exact hq'
    fault := fun q hf => by
      dsimp only at hf
      rcases eq_or_ne q p with rfl | hqp
      · rw [Function.update_self] at hf
        split at hf
        · split at hf
          · cases hf
          · omega
        · cases hf
      · rw [Function.update_of_ne hqp] at hf
        exact h.fault q hf }

theorem Inv.step (h : Inv nc mpt route s) {s' : HState Q} (hs : Step nc mpt route Q s s') :
    Inv nc mpt route s' := by
  cases hs with
  | queue k q' prod' _ hq hf => exact h.queue hq hf
  | incr p hp => exact h.incr hp
  | check p hp => exact h.check hp
  | poison p i hp => exact h.poison hp

end Steps

/-- **The invariant holds in every reachable state.** -/
theorem reachable_inv {s : HState Q} (hs : Relation.ReflTransGen (Step nc mpt route Q) (init mpt Q) s) :
    Inv nc mpt route s := by
  induction hs with
  | refl => exact inv_init
  | tail _ hst ih => exact ih.step hst

/-! ### What the consumers and the producers can rely on -/

section Results

variable {s : HState Q}

/-- **A consumer that received a poison has received every data node routed
to it**: the poison took effect after them, and its queue delivers in the
order pushes take effect. -/
theorem Inv.data_out_of_poison_out (h : Inv nc mpt route s) {k : ℕ} {z : Node (Fin np)}
    (hz : z ∈ Q.out (s.qs k)) (hz0 : z.value = 0) :
    ∀ p j, j < mpt → route p j = k → Node.data p j ∈ Q.out (s.qs k) := by
  intro p j hj hr
  obtain ⟨A, e, B, hl, he, hA⟩ := ConcQueue.before_of_mem_out (h.good k) hz
  have hpre : A ++ [e] <+: Q.lin (s.qs k) := ⟨B, by rw [hl]; simp⟩
  exact hA _ (h.order k A e hpre (by rw [he]; exact hz0) p j hj hr)

/-- **Once every producer has left `do_produce`'s loops, some producer found
`g_done == nproducers` and enqueued a poison to every queue**, when
`nconsumers ≤ messages_per_thread`; otherwise a producer may write past
`nodes_tmp` first. -/
theorem Inv.poison_sent_of_done (h : Inv nc mpt route s) (hnp : 0 < np) (hmpt : nc ≤ mpt)
    (hend : ∀ p, s.prod p = .done ∨ s.prod p = .fault) :
    ∃ p, s.saw p = true ∧ ∀ i, i < nc → (p, Node.poison p i) ∈ Q.lin (s.qs i) := by
  have hdone : ∀ p, s.prod p = .done := fun p =>
    (hend p).resolve_right fun hf => absurd (h.fault p hf) (Nat.not_lt.mpr hmpt)
  have hcount : s.gDone = np := h.count.trans (passed_of_pastIncr fun p => by rw [hdone p]; rfl)
  rcases h.last (by rw [hcount]; exact hnp) hcount with ⟨p, hp⟩ | ⟨p, hp⟩
  · exact ⟨p, hp, fun i hi => h.poisonSent p hp i hi (by rw [hdone p]; trivial)⟩
  · rw [hdone p] at hp
    cases hp

end Results

end Harness
end QueueRate
