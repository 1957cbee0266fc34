import Mathlib

/-!
# What a producer thread does with its arguments

`main` rejects its arguments unless `nproducers ≥ nconsumers ≥ 1` and
`nmessages ≥ nconsumers` (`argsAccepted`), and hands each producer
`messages_per_thread = nmessages / nproducers`. `do_produce` (the same loops
in `qrate.cc`, `lockrate.c` and `alloc_rate.cc`) fills `permute` with
`0, …, nconsumers - 1`, shuffles it with one swap per entry at an index drawn
from `urandom`, and then enqueues its messages: all to `Q[me % nconsumers]`,
or with `-r` to `Q[permute[q]]` for a `q` that moves one step round the
consumers each time.

The shuffle keeps `permute` a permutation of the consumers
(`permute_perm`), whatever `urandom` returns, and the enqueue loop sends its
`k`-th message to `Q[permute[(me % nconsumers + k + 1) % nconsumers]]`
(`enqueueLoop_queues_randomize`).

Key definitions: `argsAccepted`, `messagesPerThread`, `swapEntries`,
`shuffleFrom`, `permuteOf`, `enqueueLoop`.
-/

namespace QueueRate
namespace Harness

/-! ### `main`'s arguments -/

/-- The check of `main` (`qrate.cc:316`, `lockrate.c:525`,
`alloc_rate.cc:378`) on the values `atoi` read: it prints its usage and
returns unless this holds. -/
def argsAccepted (nproducers nconsumers nmessages : ℤ) : Bool :=
  !(decide (nproducers < 1) || decide (nconsumers < 1) || decide (nproducers < nconsumers) ||
    decide (nmessages < nconsumers))

theorem argsAccepted_iff (nproducers nconsumers nmessages : ℤ) :
    argsAccepted nproducers nconsumers nmessages = true ↔
      1 ≤ nconsumers ∧ nconsumers ≤ nproducers ∧ nconsumers ≤ nmessages := by
  simp only [argsAccepted, Bool.not_eq_true', Bool.or_eq_false_iff, decide_eq_false_iff_not, not_lt]
  omega

/-- `int messages_per_thread = nmessages/nproducers;`: C's division of `int`s
truncates. -/
def messagesPerThread (nmessages nproducers : ℤ) : ℤ := nmessages.tdiv nproducers

/-! ### The shuffle -/

/-- One pass of the shuffle loop's body at `i`:
`swapme = permute[i]; permute[i] = permute[index]; permute[index] = swapme;` -/
def swapEntries (permute : List ℕ) (i index : ℕ) : List ℕ :=
  let swapme := permute.getD i 0
  (permute.set i (permute.getD index 0)).set index swapme

/-- The shuffle loop `for(i=0; i<nconsumers; i++)` from `i` on, for `n` more
passes: pass `i` swaps with `index = urandom(g_random_fd) % nconsumers`, where
`urandom i` is what that call returns. -/
def shuffleFrom (nconsumers : ℕ) (urandom : ℕ → ℕ) : ℕ → ℕ → List ℕ → List ℕ
  | 0, _, permute => permute
  | n + 1, i, permute =>
    shuffleFrom nconsumers urandom n (i + 1) (swapEntries permute i (urandom i % nconsumers))

/-- `permute` when the shuffle is done: `for(i=0; i<nconsumers; i++) permute[i]=i;`
and then the shuffle loop. -/
def permuteOf (nconsumers : ℕ) (urandom : ℕ → ℕ) : List ℕ :=
  shuffleFrom nconsumers urandom nconsumers 0 (List.range nconsumers)

/-- Within bounds, the loop's body is `List.swap`. -/
theorem swapEntries_eq_swap (permute : List ℕ) (i index : ℕ) (hi : i < permute.length)
    (hindex : index < permute.length) : swapEntries permute i index = permute.swap i index := by
  rw [swapEntries, List.swap_eq_of_lt hi hindex]
  simp [List.getElem?_eq_getElem hi, List.getElem?_eq_getElem hindex]

theorem shuffleFrom_perm (nconsumers : ℕ) (urandom : ℕ → ℕ) (hc : 0 < nconsumers) :
    ∀ (n i : ℕ) (permute : List ℕ), permute.length = nconsumers → i + n ≤ nconsumers →
      (shuffleFrom nconsumers urandom n i permute).Perm permute
  | 0, _, _, _, _ => List.Perm.refl _
  | n + 1, i, permute, hlen, hin => by
    have hswap := swapEntries_eq_swap permute i (urandom i % nconsumers)
      (by omega) (by rw [hlen]; exact Nat.mod_lt _ hc)
    have hlen' : (swapEntries permute i (urandom i % nconsumers)).length = nconsumers := by
      rw [hswap, List.length_swap, hlen]
    rw [shuffleFrom]
    refine (shuffleFrom_perm nconsumers urandom hc n (i + 1) _ hlen' (by omega)).trans ?_
    rw [hswap]
    exact List.swap_perm permute i _

/-- **The shuffle leaves a permutation of the consumers**, whatever values
`urandom` returns. -/
theorem permute_perm (nconsumers : ℕ) (urandom : ℕ → ℕ) :
    (permuteOf nconsumers urandom).Perm (List.range nconsumers) := by
  rcases Nat.eq_zero_or_pos nconsumers with rfl | hc
  · rfl
  · exact shuffleFrom_perm nconsumers urandom hc nconsumers 0 _ (List.length_range) (by omega)

theorem permuteOf_getD_lt (nconsumers : ℕ) (urandom : ℕ → ℕ) (hc : 0 < nconsumers) (q : ℕ) :
    (permuteOf nconsumers urandom).getD q 0 < nconsumers := by
  by_cases hq : q < (permuteOf nconsumers urandom).length
  · rw [List.getD_eq_getElem _ _ hq]
    exact List.mem_range.mp ((permute_perm nconsumers urandom).subset (List.getElem_mem hq))
  · rw [List.getD_eq_default _ _ (by omega)]
    exact hc

/-! ### The enqueue loop -/

/-- One pass of the enqueue loop: the entry of `permute` it reads (with
`-r`), the queue it enqueues to, and the index in `nodes` of the node it
enqueues. -/
structure Send where
  permuteAt : Option ℕ
  queue : ℕ
  node : ℤ
  deriving DecidableEq, Repr

/-- The enqueue loop `for(i = messages_per_thread-1; i >= 0; --i)` from loop
index `i` and queue variable `q` on, for `n` more passes: with `-r` it moves
`q = (q+1) % nconsumers` and enqueues `nodes[i]` to `Q[permute[q]]`, without
it enqueues `nodes[i]` to `Q[q]`. -/
def enqueueLoop (randomize : Bool) (nconsumers : ℕ) (permute : List ℕ) : ℕ → ℤ → ℕ → List Send
  | 0, _, _ => []
  | n + 1, i, q =>
    if randomize then
      ⟨some ((q + 1) % nconsumers), permute.getD ((q + 1) % nconsumers) 0, i⟩ ::
        enqueueLoop randomize nconsumers permute n (i - 1) ((q + 1) % nconsumers)
    else ⟨none, q, i⟩ :: enqueueLoop randomize nconsumers permute n (i - 1) q

/-- The passes of producer `me`'s enqueue loop: `messages_per_thread` of them,
from `i = messages_per_thread - 1` and `q = me % nconsumers`. -/
def sends (randomize : Bool) (nconsumers messagesPerThread me : ℕ) (urandom : ℕ → ℕ) : List Send :=
  enqueueLoop randomize nconsumers (permuteOf nconsumers urandom) messagesPerThread
    ((messagesPerThread : ℤ) - 1) (me % nconsumers)

theorem enqueueLoop_length (randomize : Bool) (nconsumers : ℕ) (permute : List ℕ) :
    ∀ (n : ℕ) (i : ℤ) (q : ℕ), (enqueueLoop randomize nconsumers permute n i q).length = n
  | 0, _, _ => rfl
  | n + 1, i, q => by
    cases randomize <;> simp [enqueueLoop, enqueueLoop_length _ _ _ n]

theorem enqueueLoop_nodes (randomize : Bool) (nconsumers : ℕ) (permute : List ℕ) :
    ∀ (n : ℕ) (i : ℤ) (q : ℕ),
      (enqueueLoop randomize nconsumers permute n i q).map Send.node = (List.range n).map fun k : ℕ => i - k
  | 0, _, _ => rfl
  | n + 1, i, q => by
    have ih := fun q' => enqueueLoop_nodes randomize nconsumers permute n (i - 1) q'
    cases randomize <;>
    · simp only [enqueueLoop, Bool.false_eq_true, ↓reduceIte, List.map_cons, ih, List.range_succ_eq_map,
        List.map_map]
      refine List.cons_eq_cons.mpr ⟨by simp, List.map_congr_left fun k _ => ?_⟩
      simp only [Function.comp_apply]
      push_cast
      ring

theorem enqueueLoop_queues_fixed (nconsumers : ℕ) (permute : List ℕ) :
    ∀ (n : ℕ) (i : ℤ) (q : ℕ), (enqueueLoop false nconsumers permute n i q).map Send.queue = List.replicate n q
  | 0, _, _ => rfl
  | n + 1, i, q => by
    simp [enqueueLoop, enqueueLoop_queues_fixed nconsumers permute n (i - 1) q, List.replicate_succ]

/-- With `-r` the `k`-th pass enqueues to `Q[permute[(q + k + 1) % nconsumers]]`. -/
theorem enqueueLoop_queues_randomize (nconsumers : ℕ) (permute : List ℕ) :
    ∀ (n : ℕ) (i : ℤ) (q : ℕ), (enqueueLoop true nconsumers permute n i q).map Send.queue =
      (List.range n).map fun k => permute.getD ((q + k + 1) % nconsumers) 0
  | 0, _, _ => rfl
  | n + 1, i, q => by
    simp only [enqueueLoop, ↓reduceIte, List.map_cons, enqueueLoop_queues_randomize nconsumers permute n,
      List.range_succ_eq_map, List.map_map]
    refine List.cons_eq_cons.mpr ⟨by simp, List.map_congr_left fun k _ => ?_⟩
    simp only [Function.comp_apply]
    congr 1
    rw [Nat.add_assoc, Nat.mod_add_mod]
    congr 1
    omega

theorem enqueueLoop_bounds (randomize : Bool) (nconsumers : ℕ) (urandom : ℕ → ℕ) (hc : 0 < nconsumers) :
    ∀ (n : ℕ) (i : ℤ) (q : ℕ), q < nconsumers →
      ∀ s ∈ enqueueLoop randomize nconsumers (permuteOf nconsumers urandom) n i q,
        s.queue < nconsumers ∧ ∀ q' ∈ s.permuteAt, q' < nconsumers
  | 0, _, _, _ => by simp [enqueueLoop]
  | n + 1, i, q, hq => by
    cases randomize
    · simp only [enqueueLoop, Bool.false_eq_true, ↓reduceIte, List.mem_cons, forall_eq_or_imp]
      exact ⟨⟨hq, by simp⟩, enqueueLoop_bounds false nconsumers urandom hc n (i - 1) q hq⟩
    · simp only [enqueueLoop, ↓reduceIte, List.mem_cons, forall_eq_or_imp]
      refine ⟨⟨permuteOf_getD_lt nconsumers urandom hc _, by simp [Nat.mod_lt _ hc]⟩,
        enqueueLoop_bounds true nconsumers urandom hc n (i - 1) _ (Nat.mod_lt _ hc)⟩

/-! ### The arrays `do_produce` indexes

Every array access of `do_produce`, in program order, as the array and the
index. `permute` and `nodes` are `malloc`ed with `nconsumers` and
`messages_per_thread` elements, `Q` holds `nconsumers` queues, and the
poison loop's `nodes_tmp` is `malloc`ed with `messages_per_thread`
elements but indexed by the consumers. -/

/-- The arrays `do_produce` indexes. -/
inductive Buf
  | permute
  | nodes
  | nodesTmp
  | queue
  deriving DecidableEq, Repr

/-- How many elements each array has. -/
def bufSize (nconsumers messagesPerThread : ℕ) : Buf → ℤ
  | .permute => nconsumers
  | .nodes => messagesPerThread
  | .nodesTmp => messagesPerThread
  | .queue => nconsumers

/-- An access is within its array. -/
def InBounds (nconsumers messagesPerThread : ℕ) (a : Buf × ℤ) : Prop :=
  0 ≤ a.2 ∧ a.2 < bufSize nconsumers messagesPerThread a.1

instance (nconsumers messagesPerThread : ℕ) (a : Buf × ℤ) :
    Decidable (InBounds nconsumers messagesPerThread a) :=
  inferInstanceAs (Decidable (_ ∧ _))

/-- What a pass of the enqueue loop indexes: `permute[q]` with `-r`, `Q[...]`
and `nodes[i]`. -/
def Send.accesses (s : Send) : List (Buf × ℤ) :=
  (s.permuteAt.map fun q => (Buf.permute, (q : ℤ))).toList ++
    [(Buf.queue, (s.queue : ℤ)), (Buf.nodes, s.node)]

/-- The accesses of `do_produce` for producer `me`; `poisons` says whether it
saw `g_done == nproducers` and so runs the poison loop. -/
def produceAccesses (randomize : Bool) (nconsumers messagesPerThread me : ℕ) (urandom : ℕ → ℕ)
    (poisons : Bool) : List (Buf × ℤ) :=
  -- `for(i=0; i<nconsumers; i++) permute[i]=i;`
  (List.range nconsumers).map (fun i : ℕ => (Buf.permute, (i : ℤ))) ++
  -- the shuffle reads and writes `permute[i]` and `permute[index]`
  (List.range nconsumers).flatMap (fun i : ℕ =>
    let index : ℤ := (urandom i % nconsumers : ℕ)
    [(Buf.permute, (i : ℤ)), (Buf.permute, index), (Buf.permute, (i : ℤ)), (Buf.permute, index)]) ++
  -- `nodes[i].id = me; nodes[i].data = 1+i;` from `i = messages_per_thread-1` down
  (List.range messagesPerThread).flatMap (fun k : ℕ =>
    let i : ℤ := (messagesPerThread : ℤ) - 1 - k
    [(Buf.nodes, i), (Buf.nodes, i)]) ++
  (sends randomize nconsumers messagesPerThread me urandom).flatMap Send.accesses ++
  -- `nodes_tmp[i].data = 0; enqueue(Q[i],nodes_tmp[i]);`, and the push writes `nodes_tmp[i]`
  if poisons then
    (List.range nconsumers).flatMap fun i : ℕ =>
      [(Buf.nodesTmp, (i : ℤ)), (Buf.queue, (i : ℤ)), (Buf.nodesTmp, (i : ℤ))]
  else []

/-- Every access of `do_produce` outside `nodes_tmp` is within its array, for
any `urandom` values: the shuffle keeps `permute` a permutation, so
`Q[permute[q]]` names a queue, and the node loops stay in
`0 … messages_per_thread - 1`. -/
theorem produceAccesses_inBounds (randomize : Bool) (nconsumers messagesPerThread me : ℕ)
    (urandom : ℕ → ℕ) (poisons : Bool) (hc : 0 < nconsumers) :
    ∀ a ∈ produceAccesses randomize nconsumers messagesPerThread me urandom poisons,
      a.1 ≠ .nodesTmp → InBounds nconsumers messagesPerThread a := by
  have hq := enqueueLoop_bounds randomize nconsumers urandom hc messagesPerThread
    ((messagesPerThread : ℤ) - 1) (me % nconsumers) (Nat.mod_lt _ hc)
  have hn := enqueueLoop_nodes randomize nconsumers (permuteOf nconsumers urandom) messagesPerThread
    ((messagesPerThread : ℤ) - 1) (me % nconsumers)
  intro a ha hne
  simp only [produceAccesses, List.mem_append, List.mem_map, List.mem_range, List.mem_flatMap,
    List.mem_cons, List.not_mem_nil, or_false] at ha
  rcases ha with (((⟨i, hi, rfl⟩ | ⟨i, hi, ha⟩) | ⟨k, hk, ha⟩) | ⟨s, hs, ha⟩) | ha
  · simp [InBounds, bufSize, hi]
  · have hidx := Nat.mod_lt (urandom i) hc
    rcases ha with rfl | rfl | rfl | rfl <;> simp [InBounds, bufSize] <;> omega
  · rcases ha with rfl | rfl <;> simp [InBounds, bufSize] <;> omega
  · have hsn : s.node ∈ (List.range messagesPerThread).map fun k : ℕ => ((messagesPerThread : ℤ) - 1) - k :=
      hn ▸ List.mem_map_of_mem hs
    obtain ⟨k, hk, hkn⟩ := List.mem_map.mp hsn
    have hk' := List.mem_range.mp hk
    obtain ⟨hsq, hsp⟩ := hq s hs
    simp only [Send.accesses, List.mem_append, List.mem_cons, List.not_mem_nil, or_false] at ha
    rcases ha with ha | rfl | rfl
    · cases hp : s.permuteAt with
      | none => simp [hp] at ha
      | some q =>
        have hqa : a = (Buf.permute, (q : ℤ)) := by simpa [hp] using ha
        have := hsp q (by simp [hp])
        rw [hqa]
        simp only [InBounds, bufSize]
        omega
    · simp [InBounds, bufSize]; omega
    · simp [InBounds, bufSize]; omega
  · split at ha
    · simp only [List.mem_flatMap, List.mem_range, List.mem_cons, List.not_mem_nil, or_false] at ha
      obtain ⟨i, hi, ha⟩ := ha
      rcases ha with rfl | rfl | rfl
      · exact absurd rfl hne
      · simp [InBounds, bufSize, hi]
      · exact absurd rfl hne
    · simp at ha

/-- With `-r`, two consumers and two messages per thread. -/
theorem produceAccesses_inBounds_twoConsumers :
    0 < 2 ∧ ∀ a ∈ produceAccesses true 2 2 0 (fun i => i) true, a.1 ≠ .nodesTmp → InBounds 2 2 a :=
  ⟨by decide, produceAccesses_inBounds true 2 2 0 (fun i => i) true (by decide)⟩

theorem nodesTmp_access (randomize : Bool) (nconsumers messagesPerThread me : ℕ) (urandom : ℕ → ℕ)
    (poisons : Bool) (i : ℤ) :
    (Buf.nodesTmp, i) ∈ produceAccesses randomize nconsumers messagesPerThread me urandom poisons ↔
      poisons = true ∧ 0 ≤ i ∧ i < nconsumers := by
  have hsend : ∀ s : Send, (Buf.nodesTmp, i) ∉ s.accesses := by
    intro s h
    cases hp : s.permuteAt <;> simp [Send.accesses, hp] at h
  simp only [produceAccesses, List.mem_append, List.mem_map, List.mem_flatMap, List.mem_range,
    List.mem_cons, List.not_mem_nil, or_false, Prod.mk.injEq, reduceCtorEq, false_and, and_false,
    exists_false, false_or]
  constructor
  · rintro (⟨s, -, hs⟩ | h)
    · exact absurd hs (hsend s)
    · split at h
      · obtain ⟨k, hk, rfl | rfl⟩ := by simpa using h
        all_goals exact ⟨by assumption, by omega, by omega⟩
      · simp at h
  · rintro ⟨rfl, h0, hi⟩
    refine Or.inr ?_
    simp only [↓reduceIte, List.mem_flatMap, List.mem_range, List.mem_cons, Prod.mk.injEq, true_and]
    exact ⟨i.toNat, by omega, Or.inl (by omega)⟩

/-- **The poison loop overruns `nodes_tmp` on accepted arguments.** `main`
accepts `-p 2 -c 2 -m 2`, each producer gets `messages_per_thread = 1`, and
the producer that sees `g_done == nproducers` writes `nodes_tmp[1]` into the
one element it `malloc`ed, whatever the routing and `urandom`. -/
theorem produce_poison_out_of_bounds (randomize : Bool) (me : ℕ) (urandom : ℕ → ℕ) :
    argsAccepted 2 2 2 = true ∧ messagesPerThread 2 2 = 1 ∧
      (Buf.nodesTmp, 1) ∈ produceAccesses randomize 2 1 me urandom true ∧
        ¬ InBounds 2 1 (Buf.nodesTmp, 1) := by
  refine ⟨by decide, by decide, ?_, by decide⟩
  exact (nodesTmp_access randomize 2 1 me urandom true 1).mpr ⟨rfl, by omega, by omega⟩

end Harness
end QueueRate
