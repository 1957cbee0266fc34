import QueueRate.Harness.Produce

/-!
# How many messages each consumer is sent

`do_consume` does not count what it dequeues: it prints
`n_msgs = messages_per_thread * (nproducers / nconsumers)` (`nMsgs`). The
messages the producers really route to `Q[i]` (`routedCount`) are, without
`-r`, `messages_per_thread` from each producer `me ≡ i (mod nconsumers)`
(`routedCount_fixed`); with `-r` each producer sends every queue
`⌊messages_per_thread / nconsumers⌋` messages, or one more
(`routes_randomize_count`). So the two agree when `nconsumers` divides
`nproducers` (without `-r`) or `messages_per_thread` (with `-r`), and not in
general (`routedCount_ne_nMsgs`).

Key definitions: `routes`, `routedCount`, `nMsgs`.
Key theorems: `routedCount_fixed`, `routes_randomize_count`, `routedCount_nMsgs`.
-/

namespace QueueRate
namespace Harness

/-- The queues producer `me`'s data messages go to, in order. -/
def routes (randomize : Bool) (nconsumers messagesPerThread me : ℕ) (urandom : ℕ → ℕ) : List ℕ :=
  (sends randomize nconsumers messagesPerThread me urandom).map Send.queue

/-- How many data messages the producers route to `Q[i]`; producer `me`
shuffles with the values `urandom me` of its own `urandom` calls. -/
def routedCount (randomize : Bool) (nproducers nconsumers messagesPerThread : ℕ)
    (urandom : ℕ → ℕ → ℕ) (i : ℕ) : ℕ :=
  ((List.range nproducers).map fun me =>
    (routes randomize nconsumers messagesPerThread me (urandom me)).count i).sum

/-- What `do_consume` prints as `n_msgs`:
`(double) messages_per_thread * ((double) nproducers / nconsumers)`, taken
exactly. -/
def nMsgs (messagesPerThread nproducers nconsumers : ℕ) : ℚ :=
  (messagesPerThread : ℚ) * ((nproducers : ℚ) / nconsumers)

theorem count_map_range (f : ℕ → ℕ) (i : ℕ) :
    ∀ n, ((List.range n).map f).count i = Nat.count (fun k => f k = i) n
  | 0 => rfl
  | n + 1 => by
    rw [List.range_succ, List.map_append, List.count_append, count_map_range f i n, Nat.count_succ]
    simp [List.count_singleton]

theorem count_congr {p q : ℕ → Prop} [DecidablePred p] [DecidablePred q] (h : ∀ k, p k ↔ q k) :
    ∀ n, Nat.count p n = Nat.count q n
  | 0 => by simp
  | n + 1 => by
    rw [Nat.count_succ, Nat.count_succ, count_congr h n]
    simp only [h n]

theorem sum_map_range_succ (f : ℕ → ℕ) (n : ℕ) :
    ((List.range (n + 1)).map f).sum = ((List.range n).map f).sum + f n := by
  simp [List.range_succ]

/-! ### Without `-r` -/

theorem routes_fixed_count (nconsumers messagesPerThread me : ℕ) (urandom : ℕ → ℕ) (i : ℕ) :
    (routes false nconsumers messagesPerThread me urandom).count i =
      if me % nconsumers = i then messagesPerThread else 0 := by
  rw [routes, sends, enqueueLoop_queues_fixed, List.count_replicate]
  simp only [beq_iff_eq]

theorem routedCount_fixed_count (nconsumers messagesPerThread : ℕ) (urandom : ℕ → ℕ → ℕ) (i : ℕ)
    (hi : i < nconsumers) : ∀ nproducers,
      routedCount false nproducers nconsumers messagesPerThread urandom i =
        messagesPerThread * nproducers.count (· ≡ i [MOD nconsumers])
  | 0 => by simp [routedCount]
  | n + 1 => by
    have ih := routedCount_fixed_count nconsumers messagesPerThread urandom i hi n
    rw [routedCount] at ih ⊢
    rw [sum_map_range_succ, ih, routes_fixed_count, Nat.count_succ]
    simp only [Nat.ModEq, Nat.mod_eq_of_lt hi]
    split_ifs <;> ring

/-- **Without `-r`**, `Q[i]` is sent `messages_per_thread` messages by each
producer `me ≡ i (mod nconsumers)`: `nproducers / nconsumers` of them, and
one more for `i < nproducers % nconsumers`. -/
theorem routedCount_fixed (nproducers nconsumers messagesPerThread : ℕ) (urandom : ℕ → ℕ → ℕ)
    (i : ℕ) (hi : i < nconsumers) :
    routedCount false nproducers nconsumers messagesPerThread urandom i =
      messagesPerThread * (nproducers / nconsumers + if i < nproducers % nconsumers then 1 else 0) := by
  rw [routedCount_fixed_count nconsumers messagesPerThread urandom i hi,
    Nat.count_modEq_card _ (by omega), Nat.mod_eq_of_lt hi]

/-! ### With `-r` -/

/-- Pass `k` goes to position `(q + k + 1) % nconsumers` of `permute`, which
is position `j` exactly when `k ≡ (j + nconsumers - (q + 1) % nconsumers)`. -/
theorem position_iff (nconsumers q j k : ℕ) (hc : 0 < nconsumers) (hj : j < nconsumers) :
    (q + k + 1) % nconsumers = j ↔
      k ≡ (j + nconsumers - (q + 1) % nconsumers) % nconsumers [MOD nconsumers] := by
  set v := (j + nconsumers - (q + 1) % nconsumers) % nconsumers
  have ha := Nat.mod_lt (q + 1) hc
  have hv : v + (q + 1) ≡ j [MOD nconsumers] := by
    have hq := Nat.mod_add_div (q + 1) nconsumers
    simp only [Nat.ModEq, v, Nat.mod_add_mod, Nat.mod_eq_of_lt hj]
    rw [show j + nconsumers - (q + 1) % nconsumers + (q + 1) =
      j + nconsumers * (1 + (q + 1) / nconsumers) by rw [Nat.mul_add]; omega]
    rw [Nat.add_mul_mod_self_left, Nat.mod_eq_of_lt hj]
  have hj' : j % nconsumers = j := Nat.mod_eq_of_lt hj
  constructor
  · intro h
    refine Nat.ModEq.add_right_cancel' (q + 1) ((?_ : k + (q + 1) ≡ j [MOD nconsumers]).trans hv.symm)
    simp only [Nat.ModEq, hj']
    rw [← h]
    congr 1
    omega
  · intro h
    have := (h.add_right (q + 1)).trans hv
    simp only [Nat.ModEq, hj'] at this
    rw [← this]
    congr 1
    omega

theorem perm_position (permute : List ℕ) (nconsumers i : ℕ) (hp : permute.Perm (List.range nconsumers))
    (hi : i < nconsumers) : ∃ j < nconsumers, ∀ x < nconsumers, permute.getD x 0 = i ↔ x = j := by
  have hlen : permute.length = nconsumers := by simpa using hp.length_eq
  have hmem : i ∈ permute := hp.symm.subset (List.mem_range.mpr hi)
  obtain ⟨j, hj, hji⟩ := List.getElem_of_mem hmem
  refine ⟨j, hlen ▸ hj, fun x hx => ?_⟩
  rw [List.getD_eq_getElem _ _ (by omega), ← hji]
  exact (hp.nodup_iff.mpr List.nodup_range).getElem_inj_iff

/-- **With `-r`** each producer sends `Q[i]`
`messages_per_thread / nconsumers` messages, or one more. -/
theorem routes_randomize_count (nconsumers messagesPerThread me : ℕ) (urandom : ℕ → ℕ) (i : ℕ)
    (hi : i < nconsumers) :
    ∃ v < nconsumers, (routes true nconsumers messagesPerThread me urandom).count i =
      messagesPerThread / nconsumers + if v < messagesPerThread % nconsumers then 1 else 0 := by
  have hc : 0 < nconsumers := by omega
  obtain ⟨j, hj, hpos⟩ := perm_position _ nconsumers i (permute_perm nconsumers urandom) hi
  have hpred := count_congr (p := fun k =>
      (permuteOf nconsumers urandom).getD ((me % nconsumers + k + 1) % nconsumers) 0 = i)
    (q := (· ≡ (j + nconsumers - (me % nconsumers + 1) % nconsumers) % nconsumers [MOD nconsumers]))
    fun k => (hpos _ (Nat.mod_lt _ hc)).trans (position_iff nconsumers _ j k hc hj)
  refine ⟨(j + nconsumers - (me % nconsumers + 1) % nconsumers) % nconsumers, Nat.mod_lt _ hc, ?_⟩
  rw [routes, sends, enqueueLoop_queues_randomize, count_map_range, hpred, Nat.count_modEq_card _ hc,
    Nat.mod_eq_of_lt (Nat.mod_lt _ hc)]

theorem routedCount_randomize_bounds (nconsumers messagesPerThread : ℕ) (urandom : ℕ → ℕ → ℕ) (i : ℕ)
    (hi : i < nconsumers) : ∀ nproducers,
      nproducers * (messagesPerThread / nconsumers) ≤
          routedCount true nproducers nconsumers messagesPerThread urandom i ∧
        routedCount true nproducers nconsumers messagesPerThread urandom i ≤
          nproducers * (messagesPerThread / nconsumers + 1) ∧
        (nconsumers ∣ messagesPerThread →
          routedCount true nproducers nconsumers messagesPerThread urandom i =
            nproducers * (messagesPerThread / nconsumers))
  | 0 => by simp [routedCount]
  | n + 1 => by
    obtain ⟨ih1, ih2, ih3⟩ := routedCount_randomize_bounds nconsumers messagesPerThread urandom i hi n
    obtain ⟨v, -, hv⟩ := routes_randomize_count nconsumers messagesPerThread n (urandom n) i hi
    rw [routedCount] at ih1 ih2 ih3 ⊢
    rw [sum_map_range_succ, hv]
    refine ⟨?_, ?_, fun hd => ?_⟩
    · split_ifs <;> nlinarith
    · split_ifs <;> nlinarith
    · have h0 : messagesPerThread % nconsumers = 0 := Nat.mod_eq_zero_of_dvd hd
      rw [ih3 hd, h0]
      simp only [Nat.not_lt_zero, ↓reduceIte]
      ring

/-! ### `n_msgs` -/

/-- **What `do_consume` reports against what it is sent.** For every
accepted `(nproducers, nconsumers, nmessages)` and every `urandom`, the data
messages routed to `Q[i]` number, without `-r`,
`messages_per_thread * (nproducers / nconsumers + [i < nproducers % nconsumers])`,
and with `-r` between `nproducers * ⌊messages_per_thread / nconsumers⌋` and
`nproducers * (⌊messages_per_thread / nconsumers⌋ + 1)`; they equal the
printed `n_msgs` when `nconsumers` divides `nproducers` (without `-r`) or
`messages_per_thread` (with `-r`). -/
theorem routedCount_nMsgs (nproducers nconsumers nmessages : ℕ)
    (hargs : argsAccepted nproducers nconsumers nmessages = true) (urandom : ℕ → ℕ → ℕ) (i : ℕ)
    (hi : i < nconsumers) :
    routedCount false nproducers nconsumers (nmessages / nproducers) urandom i =
        nmessages / nproducers * (nproducers / nconsumers + if i < nproducers % nconsumers then 1 else 0) ∧
      nproducers * (nmessages / nproducers / nconsumers) ≤
        routedCount true nproducers nconsumers (nmessages / nproducers) urandom i ∧
      routedCount true nproducers nconsumers (nmessages / nproducers) urandom i ≤
        nproducers * (nmessages / nproducers / nconsumers + 1) ∧
      (nconsumers ∣ nproducers →
        (routedCount false nproducers nconsumers (nmessages / nproducers) urandom i : ℚ) =
          nMsgs (nmessages / nproducers) nproducers nconsumers) ∧
      (nconsumers ∣ nmessages / nproducers →
        (routedCount true nproducers nconsumers (nmessages / nproducers) urandom i : ℚ) =
          nMsgs (nmessages / nproducers) nproducers nconsumers) := by
  have hc : (nconsumers : ℚ) ≠ 0 := by
    have := (argsAccepted_iff _ _ _).mp hargs
    exact_mod_cast (show nconsumers ≠ 0 by omega)
  obtain ⟨hlo, hhi, hdvd⟩ := routedCount_randomize_bounds nconsumers (nmessages / nproducers) urandom i hi
    nproducers
  refine ⟨routedCount_fixed _ _ _ urandom i hi, hlo, hhi, fun hd => ?_, fun hd => ?_⟩
  · rw [routedCount_fixed _ _ _ urandom i hi, Nat.mod_eq_zero_of_dvd hd]
    simp only [Nat.not_lt_zero, ↓reduceIte, add_zero, nMsgs]
    push_cast [Nat.cast_div hd hc]
    ring
  · rw [hdvd hd, nMsgs]
    push_cast [Nat.cast_div hd hc]
    ring

/-- `-p 4 -c 2 -m 8`, consumer 1: each producer has 2 messages. -/
theorem routedCount_nMsgs_four_two :
    argsAccepted 4 2 8 = true ∧ 1 < 2 ∧
      (routedCount false 4 2 (8 / 4) (fun _ _ => 0) 1 =
          8 / 4 * (4 / 2 + if 1 < 4 % 2 then 1 else 0) ∧
        4 * (8 / 4 / 2) ≤ routedCount true 4 2 (8 / 4) (fun _ _ => 0) 1 ∧
        routedCount true 4 2 (8 / 4) (fun _ _ => 0) 1 ≤ 4 * (8 / 4 / 2 + 1) ∧
        (2 ∣ 4 → (routedCount false 4 2 (8 / 4) (fun _ _ => 0) 1 : ℚ) = nMsgs (8 / 4) 4 2) ∧
        (2 ∣ 8 / 4 → (routedCount true 4 2 (8 / 4) (fun _ _ => 0) 1 : ℚ) = nMsgs (8 / 4) 4 2)) :=
  ⟨by decide, by decide, routedCount_nMsgs 4 2 8 (by decide) (fun _ _ => 0) 1 (by decide)⟩

/-- The printed `n_msgs` is an average, not a count: `-p 3 -c 2 -m 3` is
accepted, and without `-r` `Q[0]` is sent 2 messages while `do_consume`
prints `n_msgs = 1.5`. -/
theorem routedCount_ne_nMsgs :
    argsAccepted 3 2 3 = true ∧
      (routedCount false 3 2 (3 / 3) (fun _ _ => 0) 0 : ℚ) ≠ nMsgs (3 / 3) 3 2 := by
  refine ⟨by decide, ?_⟩
  have h : routedCount false 3 2 (3 / 3) (fun _ _ => 0) 0 = 2 := by decide
  rw [h, nMsgs]
  norm_num

end Harness
end QueueRate
