import Mathlib

/-!
# Where `main` pins its threads

`main` (identical in `qrate.cc`, `alloc_rate.cc` and `lockrate.c`) pins producer
`i` to the core `j` of the loop `for(i=0,j=1; i < nproducers; i++)`, which steps
`j` by 2 while `i <= nconsumers - 2` and by 1 afterwards, and consumer `i` to
core `2 i` (`producerCores_eq`, `consumerCores_eq`). The producers below
`nconsumers` take the odd cores below `2 nconsumers`, the others the cores
from `2 nconsumers` on; with the consumers' even cores that is every core
below `nproducers + nconsumers`, each once (`pinning_schedule`).

Key definitions: `producerCoresFrom`, `producerCores`, `consumerCores`, `pinCore`.
Key theorems: `producerCores_eq`, `consumerCores_eq`, `pinning_schedule`.
-/

namespace QueueRate
namespace Harness

/-- The cores the producer loop passes to `hwloc_get_obj_by_type`, from loop
index `i` and core `j` on, for `n` more iterations. The loop compares
`i <= (nconsumers-2)` in `int`, so for one consumer the first regime is
empty. -/
def producerCoresFrom (nconsumers : ℤ) : ℕ → ℕ → ℤ → List ℤ
  | 0, _, _ => []
  | n + 1, i, j =>
    j :: producerCoresFrom nconsumers n (i + 1) (if (i : ℤ) ≤ nconsumers - 2 then j + 2 else j + 1)

/-- The producers' cores: the loop runs from `i = 0, j = 1` while
`i < nproducers`. -/
def producerCores (nproducers nconsumers : ℤ) : List ℤ :=
  producerCoresFrom nconsumers nproducers.toNat 0 1

/-- The cores of the consumer loop `for(i=0, j=0; i < nconsumers; i++,j+=2)`,
from core `j` on, for `n` more iterations. -/
def consumerCoresFrom : ℕ → ℤ → List ℤ
  | 0, _ => []
  | n + 1, j => j :: consumerCoresFrom n (j + 2)

/-- The consumers' cores. -/
def consumerCores (nconsumers : ℤ) : List ℤ :=
  consumerCoresFrom nconsumers.toNat 0

/-- The core producer `i` lands on: `2 i + 1` below `nconsumers`, then
`nconsumers + i`. -/
def pinCore (nconsumers : ℤ) (i : ℕ) : ℤ :=
  if (i : ℤ) < nconsumers then 2 * i + 1 else nconsumers + i

/-- One iteration of the producer loop moves `j` from one producer's core to
the next one's. -/
theorem pinCore_succ (nconsumers : ℤ) (i : ℕ) :
    pinCore nconsumers (i + 1) =
      if (i : ℤ) ≤ nconsumers - 2 then pinCore nconsumers i + 2 else pinCore nconsumers i + 1 := by
  unfold pinCore
  push_cast
  split_ifs <;> omega

theorem producerCoresFrom_eq (nconsumers : ℤ) :
    ∀ (n i : ℕ), producerCoresFrom nconsumers n i (pinCore nconsumers i) =
      (List.range' i n).map (pinCore nconsumers)
  | 0, _ => rfl
  | n + 1, i => by
    rw [producerCoresFrom, ← pinCore_succ nconsumers, producerCoresFrom_eq nconsumers n (i + 1),
      List.range'_succ, List.map_cons]

/-- **The producer loop in closed form.** -/
theorem producerCores_eq (nproducers nconsumers : ℤ) (hc : 1 ≤ nconsumers) :
    producerCores nproducers nconsumers = (List.range nproducers.toNat).map (pinCore nconsumers) := by
  have h1 : pinCore nconsumers 0 = 1 := by simp [pinCore]; omega
  rw [producerCores, ← h1, producerCoresFrom_eq nconsumers, List.range_eq_range']

theorem consumerCoresFrom_eq : ∀ (n : ℕ) (j : ℤ),
    consumerCoresFrom n j = (List.range n).map fun i : ℕ => j + 2 * (i : ℤ)
  | 0, _ => rfl
  | n + 1, j => by
    rw [consumerCoresFrom, consumerCoresFrom_eq n (j + 2), List.range_succ_eq_map, List.map_cons,
      List.map_map]
    congr 1
    · simp
    · refine List.map_congr_left fun i _ => ?_
      simp only [Function.comp_apply]
      push_cast
      ring

theorem consumerCores_eq (nconsumers : ℤ) :
    consumerCores nconsumers = (List.range nconsumers.toNat).map fun i : ℕ => 2 * (i : ℤ) := by
  rw [consumerCores, consumerCoresFrom_eq]
  simp

theorem pinCore_injective (nconsumers : ℤ) :
    Function.Injective (pinCore nconsumers) := by
  intro i i' h
  unfold pinCore at h
  split_ifs at h <;> omega

theorem pinCore_ne_even (nconsumers : ℤ) (i k : ℕ) (hk : (k : ℤ) < nconsumers) :
    pinCore nconsumers i ≠ 2 * k := by
  unfold pinCore
  split_ifs <;> omega

theorem mem_cores_of_lt (nproducers nconsumers : ℤ) (hc : 1 ≤ nconsumers) (hp : nconsumers ≤ nproducers) (n : ℕ)
    (hn : (n : ℤ) < nproducers + nconsumers) :
    (∃ i : ℕ, (i : ℤ) < nproducers ∧ pinCore nconsumers i = n) ∨
      ∃ k : ℕ, (k : ℤ) < nconsumers ∧ 2 * (k : ℤ) = n := by
  by_cases hlow : (n : ℤ) < 2 * nconsumers
  · rcases Nat.even_or_odd n with ⟨k, hk⟩ | ⟨i, hi⟩
    · exact Or.inr ⟨k, by omega, by omega⟩
    · refine Or.inl ⟨i, by omega, ?_⟩
      simp only [pinCore]
      split_ifs <;> omega
  · refine Or.inl ⟨n - nconsumers.toNat, by omega, ?_⟩
    simp only [pinCore]
    split_ifs <;> omega

/-- **The pinning schedule.** For `nproducers ≥ nconsumers ≥ 1` the cores of
the producers and the consumers are the cores `0, …, nproducers +
nconsumers - 1`, each once; producer `i < nconsumers` is on core `2 i + 1`,
next to consumer `i` on core `2 i`. -/
theorem pinning_schedule (nproducers nconsumers : ℤ) (hc : 1 ≤ nconsumers)
    (hp : nconsumers ≤ nproducers) :
    (producerCores nproducers nconsumers ++ consumerCores nconsumers).Perm
        ((List.range (nproducers + nconsumers).toNat).map fun n : ℕ => (n : ℤ)) ∧
      ∀ i : ℕ, (i : ℤ) < nconsumers →
        (producerCores nproducers nconsumers)[i]? = some (2 * (i : ℤ) + 1) ∧
          (consumerCores nconsumers)[i]? = some (2 * (i : ℤ)) := by
  rw [producerCores_eq nproducers nconsumers hc, consumerCores_eq]
  refine ⟨?_, fun i hi => ?_⟩
  · have hnodup : ((List.range nproducers.toNat).map (pinCore nconsumers) ++
        (List.range nconsumers.toNat).map fun i : ℕ => 2 * (i : ℤ)).Nodup := by
      refine List.nodup_append.mpr ⟨List.nodup_range.map (pinCore_injective nconsumers),
        List.nodup_range.map fun a b h => by simpa using h, ?_⟩
      simp only [List.mem_map, List.mem_range]
      rintro _ ⟨i, -, rfl⟩ _ ⟨k, hk, rfl⟩ h
      exact pinCore_ne_even nconsumers i k (by omega) h
    refine (List.perm_ext_iff_of_nodup hnodup
      (List.nodup_range.map fun a b h => by simpa using h)).mpr fun x => ?_
    simp only [List.mem_append, List.mem_map, List.mem_range]
    constructor
    · rintro (⟨i, hi, rfl⟩ | ⟨k, hk, rfl⟩)
      · refine ⟨(pinCore nconsumers i).toNat, ?_, ?_⟩ <;> simp only [pinCore] <;> split_ifs <;> omega
      · exact ⟨2 * k, by omega, by push_cast; ring⟩
    · rintro ⟨n, hn, rfl⟩
      rcases mem_cores_of_lt nproducers nconsumers hc hp n (by omega) with ⟨i, hi, h⟩ | ⟨k, hk, h⟩
      · exact Or.inl ⟨i, by omega, h⟩
      · exact Or.inr ⟨k, by omega, h⟩
  · have hpi : i < nproducers.toNat := by omega
    have hci : i < nconsumers.toNat := by omega
    simp [hpi, hci, pinCore, hi]

/-- The schedule of `-p 4 -c 2`: producers on cores 1, 3, 4, 5, consumers on
0 and 2. -/
theorem pinning_schedule_four_two :
    (producerCores 4 2 ++ consumerCores 2).Perm ((List.range ((4 : ℤ) + 2).toNat).map fun n : ℕ => (n : ℤ)) ∧
      ∀ i : ℕ, (i : ℤ) < 2 →
        (producerCores 4 2)[i]? = some (2 * (i : ℤ) + 1) ∧ (consumerCores 2)[i]? = some (2 * (i : ℤ)) :=
  pinning_schedule 4 2 (by norm_num) (by norm_num)

end Harness
end QueueRate
