import QueueRate.Harness.AllocRate

/-!
# What `alloc_rate`'s consumers free

The nodes of a run are where the threads hold them: a producer between its
`work_node_alloc` and its enqueue, a queue, or a consumer between its
dequeue and its `work_node_free` (`nodes`). In every reachable state the
live blocks are exactly the blocks of these nodes, the blocks the run found
live, and with `-e` the extra blocks (`Inv.heap`). So every `work_node_free`
frees a live block, and with `-e` every `extra_free`, given the address of
a field inside a live node, makes glibc abort.

The stop nodes come after the data nodes: a producer enqueues stop nodes
only once `g_done` has reached `nproducers`, after every producer's last
enqueue of data, so each queue holds its data nodes before its stop nodes
(`QueueOk`); and a queue has received as many stop nodes as producers
found `g_done == nproducers` by then (`sentStops`). A consumer stops at the
first one. When every thread is done, each queue still holds one stop node
less than there were such producers, and their blocks are the only ones the
run leaves live (`alloc_rate_frees`).

Key definitions: `nodes`, `sentStops`, `QueueOk`, `Inv`.
Key theorems: `inv_of_runSteps`, `alloc_rate_frees`.
-/

namespace QueueRate
namespace AllocRate

open Mem

/-! ### Where the nodes are -/

/-- The node a producer holds: allocated, not yet enqueued. -/
def AllocPc.node : AllocPc → Option ℕ
  | .extra _ n | .send _ n | .sendStop _ n => some n
  | _ => none

/-- The node a consumer holds: dequeued, not yet freed. -/
def ConsPc.node : ConsPc → Option ℕ
  | .freeExtra n _ | .freeNode n _ => some n
  | _ => none

/-- The block of a node. -/
def nodeBlock (n : ℕ) : Block := ⟨n, workNodeSize⟩

theorem coe_blocks_workNodeAlloc {h h' : Heap} {b : ℕ} (hm : workNodeAlloc h b = some h') :
    (h'.blocks : Multiset Block) = nodeBlock b ::ₘ h.blocks := by
  rw [blocks_malloc hm]
  rfl

variable {np : ℕ}

/-- The nodes the producers hold. -/
def prodNodes (pcs : Fin np → AllocPc) : Multiset ℕ := ∑ p, ((pcs p).node.toList : Multiset ℕ)

/-- The nodes in the queues and those their consumers hold. -/
def chanNodes (nc : ℕ) (qs : ℕ → List ℕ) (cs : ℕ → ConsPc) : Multiset ℕ :=
  ∑ k ∈ Finset.range nc, ((qs k : Multiset ℕ) + ((cs k).node.toList : Multiset ℕ))

/-- The nodes of the run. -/
def nodes (nc : ℕ) (s : State np) : Multiset ℕ := prodNodes s.prod + chanNodes nc s.queues s.cons

theorem prodNodes_update_add (pcs : Fin np → AllocPc) (p : Fin np) (v : AllocPc) :
    prodNodes (Function.update pcs p v) + ((pcs p).node.toList : Multiset ℕ) =
      prodNodes pcs + (v.node.toList : Multiset ℕ) := by
  have h := Ledger.sum_add_eq_of_eq_off (Finset.mem_univ p) (f := fun q => ((pcs q).node.toList : Multiset ℕ))
    (g := fun q => ((Function.update pcs p v q).node.toList : Multiset ℕ))
    fun q _ hq => by rw [Function.update_of_ne hq]
  simpa only [prodNodes, Function.update_self] using h

theorem chanNodes_add_of_eq_off {nc k : ℕ} (hk : k < nc) {qs : ℕ → List ℕ} (qs' : ℕ → List ℕ)
    {cs : ℕ → ConsPc} (cs' : ℕ → ConsPc) (hq : ∀ j, j ≠ k → qs' j = qs j) (hc : ∀ j, j ≠ k → cs' j = cs j) :
    chanNodes nc qs' cs' + ((qs k : Multiset ℕ) + ((cs k).node.toList : Multiset ℕ)) =
      chanNodes nc qs cs + ((qs' k : Multiset ℕ) + ((cs' k).node.toList : Multiset ℕ)) :=
  Ledger.sum_add_eq_of_eq_off (Finset.mem_range.mpr hk)
    (f := fun j => (qs j : Multiset ℕ) + ((cs j).node.toList : Multiset ℕ))
    (g := fun j => (qs' j : Multiset ℕ) + ((cs' j).node.toList : Multiset ℕ))
    fun j _ hj => by rw [hq j hj, hc j hj]

section Moves

variable {pcs : Fin np → AllocPc} {p : Fin np} {v : AllocPc} {n : ℕ}

theorem prodNodes_update_take (hp : (pcs p).node = none) (hv : v.node = some n) :
    prodNodes (Function.update pcs p v) = prodNodes pcs + {n} := by
  simpa [hp, hv] using prodNodes_update_add pcs p v

theorem prodNodes_update_keep (hv : v.node = (pcs p).node) :
    prodNodes (Function.update pcs p v) = prodNodes pcs := by
  have h := prodNodes_update_add pcs p v
  rw [hv] at h
  exact add_right_cancel h

theorem prodNodes_update_give (hp : (pcs p).node = some n) (hv : v.node = none) :
    prodNodes (Function.update pcs p v) + {n} = prodNodes pcs := by
  simpa [hp, hv] using prodNodes_update_add pcs p v

variable {nc k : ℕ} {qs : ℕ → List ℕ} {cs : ℕ → ConsPc}

theorem chanNodes_push (hk : k < nc) :
    chanNodes nc (Function.update qs k (qs k ++ [n])) cs = chanNodes nc qs cs + {n} := by
  have h := chanNodes_add_of_eq_off hk (Function.update qs k (qs k ++ [n])) cs
    (fun j hj => Function.update_of_ne hj _ _) fun _ _ => rfl
  rw [Function.update_self, ← Multiset.coe_add, Multiset.coe_singleton] at h
  apply add_right_cancel (b := (qs k : Multiset ℕ) + ((cs k).node.toList : Multiset ℕ))
  rw [h]
  abel

theorem chanNodes_pop {rest : List ℕ} {w : ConsPc} (hk : k < nc) (hq : qs k = n :: rest)
    (hc : (cs k).node = none) (hw : w.node = some n) :
    chanNodes nc (Function.update qs k rest) (Function.update cs k w) = chanNodes nc qs cs := by
  have h := chanNodes_add_of_eq_off hk (Function.update qs k rest) (Function.update cs k w)
    (fun j hj => Function.update_of_ne hj _ _) fun j hj => Function.update_of_ne hj _ _
  rw [Function.update_self, Function.update_self, hq, hc, hw, Option.toList_some, Option.toList_none,
    Multiset.coe_nil, add_zero, Multiset.coe_singleton, ← Multiset.cons_coe, ← Multiset.singleton_add] at h
  apply add_right_cancel (b := {n} + (rest : Multiset ℕ))
  rw [h]
  abel

theorem chanNodes_release {w : ConsPc} (hk : k < nc) (hc : (cs k).node = some n) (hw : w.node = none) :
    chanNodes nc qs (Function.update cs k w) + {n} = chanNodes nc qs cs := by
  have h := chanNodes_add_of_eq_off hk qs (Function.update cs k w) (fun _ _ => rfl)
    fun j hj => Function.update_of_ne hj _ _
  rw [Function.update_self, hc, hw, Option.toList_some, Option.toList_none, Multiset.coe_nil, add_zero,
    Multiset.coe_singleton] at h
  apply add_right_cancel (b := (qs k : Multiset ℕ))
  rw [← h]
  abel

end Moves

/-! ### What each thread has done -/

/-- The producer has done its `g_done++`. -/
def AllocPc.pastIncr : AllocPc → Bool
  | .check | .stop _ | .sendStop _ _ | .done => true
  | _ => false

/-- The producer has enqueued a stop node to `Q[k]`, for `k < nconsumers`;
`saw` is whether it found `g_done == nproducers`. -/
def AllocPc.sentStop (nc : ℕ) (saw : Bool) (k : ℕ) : AllocPc → Bool
  | .stop i | .sendStop i _ => decide (k < i)
  | .done => saw && decide (k < nc)
  | _ => false

/-- The consumer has dequeued a node with `data == 0`. -/
def ConsPc.gotStop : ConsPc → Bool
  | .freeExtra _ stop | .freeNode _ stop => stop
  | .finished => true
  | .poll => false

/-- The producers past their `g_done++`. -/
def pastIncrCount (pcs : Fin np → AllocPc) : ℕ :=
  (Finset.univ.filter fun p => (pcs p).pastIncr = true).card

/-- The stop nodes the producers have enqueued to `Q[k]`. -/
def sentStops (nc : ℕ) (pcs : Fin np → AllocPc) (saw : Fin np → Bool) (k : ℕ) : ℕ :=
  (Finset.univ.filter fun p => (pcs p).sentStop nc (saw p) k = true).card

theorem comp_update_of_eq {β : Type*} (F : AllocPc → β) {pcs : Fin np → AllocPc} {p : Fin np} {v : AllocPc}
    (hv : F v = F (pcs p)) (q : Fin np) : F (Function.update pcs p v q) = F (pcs q) := by
  rcases eq_or_ne q p with rfl | hq
  · rwa [Function.update_self]
  · rw [Function.update_of_ne hq]

section Counts

variable {pcs : Fin np → AllocPc} {p : Fin np} {v : AllocPc}

theorem pastIncrCount_update_keep (hv : v.pastIncr = (pcs p).pastIncr) :
    pastIncrCount (Function.update pcs p v) = pastIncrCount pcs := by
  simp only [pastIncrCount, comp_update_of_eq AllocPc.pastIncr hv]

theorem pastIncrCount_update_incr (hp : (pcs p).pastIncr = false) (hv : v.pastIncr = true) :
    pastIncrCount (Function.update pcs p v) = pastIncrCount pcs + 1 := by
  have h := Ledger.card_filter_add_eq_of_iff_off (i := p) (P := fun q => (pcs q).pastIncr = true)
    (Q := fun q => (Function.update pcs p v q).pastIncr = true) fun q hq => by rw [Function.update_of_ne hq]
  simpa [pastIncrCount, hp, hv] using h

variable {nc k : ℕ} {saw : Fin np → Bool} {w : Bool}

theorem sentStops_update_see (hv : v.sentStop nc w k = (pcs p).sentStop nc (saw p) k) :
    sentStops nc (Function.update pcs p v) (Function.update saw p w) k = sentStops nc pcs saw k := by
  unfold sentStops
  congr 1
  refine Finset.filter_congr fun q _ => ?_
  rcases eq_or_ne q p with rfl | hq
  · rw [Function.update_self, Function.update_self, hv]
  · rw [Function.update_of_ne hq, Function.update_of_ne hq]

theorem sentStops_update_keep (hv : v.sentStop nc (saw p) k = (pcs p).sentStop nc (saw p) k) :
    sentStops nc (Function.update pcs p v) saw k = sentStops nc pcs saw k := by
  simpa only [Function.update_eq_self] using sentStops_update_see hv

theorem sentStops_update_send (hp : (pcs p).sentStop nc (saw p) k = false)
    (hv : v.sentStop nc (saw p) k = true) :
    sentStops nc (Function.update pcs p v) saw k = sentStops nc pcs saw k + 1 := by
  have h := Ledger.card_filter_add_eq_of_iff_off (i := p) (P := fun q => (pcs q).sentStop nc (saw q) k = true)
    (Q := fun q => (Function.update pcs p v q).sentStop nc (saw q) k = true)
    fun q hq => by rw [Function.update_of_ne hq]
  simpa [sentStops, hp, hv] using h

end Counts

/-! ### The invariant -/

/-- What a producer's place says about the node it holds and whether it
found `g_done == nproducers`. -/
def ProdOk (extra : Bool) (nc : ℕ) (data : ℕ → ℕ) (saw : Bool) : AllocPc → Prop
  | .extra _ n => extra = true ∧ data n ≠ 0
  | .send _ n => data n ≠ 0
  | .check => saw = false
  | .stop _ => saw = true
  | .sendStop i n => data n = 0 ∧ i < nc ∧ saw = true
  | .alloc _ | .incr | .done => True

/-- `extra_free` is called only with `-e`, and then no consumer leaves it. -/
def ConsOk (extra : Bool) : ConsPc → Prop
  | .poll => True
  | .freeExtra _ _ => extra = true
  | .freeNode _ _ | .finished => extra = false

/-- A queue whose data nodes come before its stop nodes; once its consumer
has dequeued a stop node only stop nodes are left in it; and it has
received `sent` stop nodes, `got` of them dequeued. -/
structure QueueOk (data : ℕ → ℕ) (q : List ℕ) (got : Bool) (sent : ℕ) : Prop where
  shape : ∃ D S, q = D ++ S ∧ (∀ n ∈ D, data n ≠ 0) ∧ ∀ n ∈ S, data n = 0
  clean : got = true → ∀ n ∈ q, data n = 0
  count : q.countP (fun n => data n = 0) + got.toNat = sent

section
variable (extra : Bool) (nc : ℕ) (h0 : Heap)

/-- The invariant of `alloc_rate` with `nc` consumers, from the heap `h0`. -/
structure Inv (s : State np) : Prop where
  /-- the live blocks: the nodes', with `-e` the extra blocks, and those of `h0` -/
  heap : ∃ E : Multiset Block, (extra = false → E = 0) ∧
    (s.heap.blocks : Multiset Block) = (nodes nc s).map nodeBlock + E + h0.blocks
  prod : ∀ p, ProdOk extra nc s.data (s.saw p) (s.prod p)
  cons : ∀ c, ConsOk extra (s.cons c)
  queue : ∀ k < nc, QueueOk s.data (s.queues k) (s.cons k).gotStop (sentStops nc s.prod s.saw k)
  gDone : s.gDone = pastIncrCount s.prod
  /-- a producer finds `g_done == nproducers` only after every `g_done++` -/
  sawAll : ∀ p, s.saw p = true → ∀ q, (s.prod q).pastIncr = true
  aborted : s.aborted = true → extra = true

end

/-! ### Lemmas on the parts -/

theorem ProdOk.congr {extra : Bool} {nc : ℕ} {d d' : ℕ → ℕ} {saw : Bool} {pc : AllocPc}
    (hd : ∀ n, pc.node = some n → d' n = d n) (h : ProdOk extra nc d saw pc) : ProdOk extra nc d' saw pc := by
  cases pc <;> simp_all [ProdOk, AllocPc.node]

theorem ProdOk.saw_of_sentStop {extra : Bool} {nc k : ℕ} {d : ℕ → ℕ} {saw : Bool} {pc : AllocPc}
    (h : ProdOk extra nc d saw pc) (hs : pc.sentStop nc saw k = true) : saw = true := by
  cases pc <;> simp_all [ProdOk, AllocPc.sentStop]

theorem prodOk_update {extra : Bool} {nc : ℕ} {d : ℕ → ℕ} {saw : Fin np → Bool} {pcs : Fin np → AllocPc}
    {p : Fin np} {v : AllocPc} (h : ∀ q, ProdOk extra nc d (saw q) (pcs q)) (hv : ProdOk extra nc d (saw p) v) :
    ∀ q, ProdOk extra nc d (saw q) (Function.update pcs p v q) := by
  intro q
  rcases eq_or_ne q p with rfl | hq
  · rwa [Function.update_self]
  · rw [Function.update_of_ne hq]
    exact h q

theorem consOk_update {extra : Bool} {cs : ℕ → ConsPc} {c : ℕ} {w : ConsPc} (h : ∀ k, ConsOk extra (cs k))
    (hw : ConsOk extra w) : ∀ k, ConsOk extra (Function.update cs c w k) := by
  intro k
  rcases eq_or_ne k c with rfl | hk
  · rwa [Function.update_self]
  · rw [Function.update_of_ne hk]
    exact h k

namespace QueueOk

variable {d : ℕ → ℕ} {q : List ℕ} {got : Bool} {sent n : ℕ}

theorem congr {d' : ℕ → ℕ} (hd : ∀ n ∈ q, d' n = d n) (h : QueueOk d q got sent) : QueueOk d' q got sent := by
  obtain ⟨D, S, rfl, hD, hS⟩ := h.shape
  refine ⟨⟨D, S, rfl, fun n hn => ?_, fun n hn => ?_⟩, fun hg n hn => ?_, ?_⟩
  · rw [hd n (List.mem_append_left S hn)]
    exact hD n hn
  · rw [hd n (List.mem_append_right D hn)]
    exact hS n hn
  · rw [hd n hn]
    exact h.clean hg n hn
  · rw [← h.count, List.countP_congr fun n hn => by rw [hd n hn]]

/-- A data node joins a queue that has received no stop node. -/
theorem push_data (h : QueueOk d q got 0) (hn : d n ≠ 0) : QueueOk d (q ++ [n]) got 0 := by
  have hc := h.count
  obtain ⟨D, S, rfl, hD, hS⟩ := h.shape
  -- no stop node yet: the stop part is empty and nothing was dequeued
  have hS0 : S = [] := by
    have h0 : S.countP (fun m => d m = 0) = 0 := by
      rw [List.countP_append] at hc
      omega
    rw [List.countP_eq_zero] at h0
    exact List.eq_nil_iff_forall_not_mem.mpr fun m hm => h0 m hm (by simpa using hS m hm)
  have hg : got = false := by cases got <;> simp_all
  subst hS0 hg
  refine ⟨⟨D ++ [n], [], by simp, fun m hm => ?_, by simp⟩, by simp, ?_⟩
  · rcases List.mem_append.mp hm with hm | hm
    · exact hD m hm
    · rw [List.mem_singleton.mp hm]
      exact hn
  · simpa [List.countP_append, hn] using hc

theorem push_stop (h : QueueOk d q got sent) (hn : d n = 0) : QueueOk d (q ++ [n]) got (sent + 1) := by
  obtain ⟨D, S, rfl, hD, hS⟩ := h.shape
  refine ⟨⟨D, S ++ [n], by simp, hD, fun m hm => ?_⟩, fun hg m hm => ?_, ?_⟩
  · rcases List.mem_append.mp hm with hm | hm
    · exact hS m hm
    · rw [List.mem_singleton.mp hm]
      exact hn
  · rcases List.mem_append.mp hm with hm | hm
    · exact h.clean hg m hm
    · rw [List.mem_singleton.mp hm]
      exact hn
  · rw [← h.count, List.countP_append]
    simp [hn]
    omega

theorem pop {rest : List ℕ} (h : QueueOk d (n :: rest) false sent) :
    QueueOk d rest (decide (d n = 0)) sent := by
  obtain ⟨D, S, hDS, hD, hS⟩ := h.shape
  have hc := h.count
  rw [List.countP_cons] at hc
  cases D with
  | nil =>
    -- the head is a stop node, and so is every node behind it
    rw [List.nil_append] at hDS
    have hrest : ∀ m ∈ rest, d m = 0 := fun m hm => hS m (hDS ▸ List.mem_cons_of_mem n hm)
    have hn : d n = 0 := hS n (hDS ▸ List.mem_cons_self)
    refine ⟨⟨[], rest, rfl, by simp, hrest⟩, fun _ => hrest, ?_⟩
    simpa [hn] using hc
  | cons m D =>
    rw [List.cons_append] at hDS
    obtain ⟨rfl, rfl⟩ := List.cons.inj hDS
    have hn : d n ≠ 0 := hD n List.mem_cons_self
    refine ⟨⟨D, S, rfl, fun k hk => hD k (List.mem_cons_of_mem _ hk), hS⟩, by simp [hn], ?_⟩
    simpa [hn] using hc

/-- Once its consumer has stopped, a queue holds one stop node less than it received, and nothing else. -/
theorem of_got (h : QueueOk d q true sent) : q.length + 1 = sent ∧ ∀ n ∈ q, d n = 0 := by
  have hall := h.clean rfl
  have hc := h.count
  rw [List.countP_eq_length.mpr fun n hn => by simpa using hall n hn] at hc
  exact ⟨by simpa using hc, hall⟩

end QueueOk

/-! ### The loop's first pass -/

/-- After the enqueue of message `i` the loop goes on as it starts with `i` messages. -/
theorem AllocPc.afterSend_eq_start (i : ℕ) : AllocPc.afterSend i = AllocPc.start i := rfl

@[simp] theorem AllocPc.node_start (mpt : ℕ) : (AllocPc.start mpt).node = none := by
  unfold AllocPc.start
  split <;> rfl

@[simp] theorem AllocPc.pastIncr_start (mpt : ℕ) : (AllocPc.start mpt).pastIncr = false := by
  unfold AllocPc.start
  split <;> rfl

@[simp] theorem AllocPc.sentStop_start (mpt nc k : ℕ) (saw : Bool) :
    (AllocPc.start mpt).sentStop nc saw k = false := by
  unfold AllocPc.start
  split <;> rfl

theorem prodOk_start {extra : Bool} {nc : ℕ} {d : ℕ → ℕ} {saw : Bool} (mpt : ℕ) :
    ProdOk extra nc d saw (AllocPc.start mpt) := by
  unfold AllocPc.start
  split <;> trivial

/-! ### Consequences of the invariant -/

variable {extra : Bool} {nc : ℕ} {h0 : Heap} {s : State np}

theorem mem_nodes_of_prod {p : Fin np} {n : ℕ} (hp : (s.prod p).node = some n) : n ∈ nodes nc s := by
  unfold nodes prodNodes
  refine Multiset.mem_add.mpr (Or.inl (Multiset.mem_sum.mpr ⟨p, Finset.mem_univ p, ?_⟩))
  simp [hp]

theorem mem_nodes_of_queue {k n : ℕ} (hk : k < nc) (hn : n ∈ s.queues k) : n ∈ nodes nc s := by
  unfold nodes chanNodes
  refine Multiset.mem_add.mpr (Or.inr (Multiset.mem_sum.mpr ⟨k, Finset.mem_range.mpr hk, ?_⟩))
  exact Multiset.mem_add.mpr (Or.inl (Multiset.mem_coe.mpr hn))

theorem mem_nodes_of_cons {c n : ℕ} (hc : c < nc) (hn : (s.cons c).node = some n) : n ∈ nodes nc s := by
  unfold nodes chanNodes
  refine Multiset.mem_add.mpr (Or.inr (Multiset.mem_sum.mpr ⟨c, Finset.mem_range.mpr hc, ?_⟩))
  simp [hn]

namespace Inv

theorem live (h : Inv extra nc h0 s) {n : ℕ} (hn : n ∈ nodes nc s) : nodeBlock n ∈ s.heap.blocks := by
  obtain ⟨E, -, hh⟩ := h.heap
  rw [← Multiset.mem_coe, hh, add_assoc]
  exact Multiset.mem_add.mpr (Or.inl (Multiset.mem_map_of_mem nodeBlock hn))

/-- `malloc` never returns a node that is still held. -/
theorem fresh (h : Inv extra nc h0 s) {b : ℕ} {h' : Heap} (hm : workNodeAlloc s.heap b = some h') :
    b ∉ nodes nc s := fun hb =>
  Block.base_ne_of_apart (by simp [workNodeSize]) (by simp [nodeBlock, workNodeSize])
    ((malloc_apart hm).2 _ (h.live hb)) rfl

theorem saw_eq_false (h : Inv extra nc h0 s) {p : Fin np} (hp : (s.prod p).pastIncr = false) (q : Fin np) :
    s.saw q = false :=
  Bool.eq_false_iff.mpr fun hq => absurd (h.sawAll q hq p) (by simp [hp])

theorem sentStops_eq_zero (h : Inv extra nc h0 s) {p : Fin np} (hp : (s.prod p).pastIncr = false) (k : ℕ) :
    sentStops nc s.prod s.saw k = 0 :=
  Finset.card_eq_zero.mpr <| Finset.filter_eq_empty_iff.mpr fun q _ hs =>
    absurd ((h.prod q).saw_of_sentStop hs) (by simp [h.saw_eq_false hp q])

/-- The live blocks are as before when the heap and the nodes are. -/
theorem heap_of_nodes (h : Inv extra nc h0 s) {s' : State np} (hheap : s'.heap = s.heap)
    (hnodes : nodes nc s' = nodes nc s) :
    ∃ E : Multiset Block, (extra = false → E = 0) ∧
      (s'.heap.blocks : Multiset Block) = (nodes nc s').map nodeBlock + E + h0.blocks := by
  obtain ⟨E, hE, hh⟩ := h.heap
  exact ⟨E, hE, by rw [hheap, hnodes, hh]⟩

theorem workNodeFree_isSome (h : Inv extra nc h0 s) {c n : ℕ} {st : Bool} (hc : c < nc)
    (hpc : s.cons c = .freeNode n st) : ∃ h', workNodeFree s.heap n = some h' :=
  free_isSome (h.live (mem_nodes_of_cons hc (by rw [hpc]; rfl)))

/-- **A consumer's `extra_free` is an invalid free**: the address of
`extra_alloc_data` lies 16 bytes inside the node's live block. -/
theorem extraFree_eq_none (h : Inv extra nc h0 s) {c n : ℕ} {st : Bool} (hc : c < nc)
    (hpc : s.cons c = .freeExtra n st) : extraFree s.heap (n + extraAllocDataOffset) = none :=
  free_interior (h.live (mem_nodes_of_cons hc (by rw [hpc]; rfl)))
    (by simp [nodeBlock, extraAllocDataOffset]) (by simp [nodeBlock, extraAllocDataOffset, workNodeSize])

/-! ### Each step keeps the invariant -/

/-- The `data` of an address that is no node's does not matter. -/
theorem setData (h : Inv extra nc h0 s) {d : ℕ → ℕ} (hd : ∀ n ∈ nodes nc s, d n = s.data n) :
    Inv extra nc h0 { s with data := d } where
  heap := h.heap
  prod p := (h.prod p).congr fun n hn => hd n (mem_nodes_of_prod hn)
  cons := h.cons
  queue k hk := (h.queue k hk).congr fun n hn => hd n (mem_nodes_of_queue hk hn)
  gDone := h.gDone
  sawAll := h.sawAll
  aborted := h.aborted

/-- Writing the `data` of the block `malloc` has just returned. -/
theorem setFresh (h : Inv extra nc h0 s) {b : ℕ} {h' : Heap} (hm : workNodeAlloc s.heap b = some h') (v : ℕ) :
    Inv extra nc h0 { s with data := Function.update s.data b v } :=
  h.setData fun _ hn => Function.update_of_ne (ne_of_mem_of_not_mem hn (h.fresh hm)) _ _

theorem move (h : Inv extra nc h0 s) {p : Fin np} {v : AllocPc} (hnode : v.node = (s.prod p).node)
    (hok : ProdOk extra nc s.data (s.saw p) v) (hpast : v.pastIncr = (s.prod p).pastIncr)
    (hsent : ∀ k < nc, v.sentStop nc (s.saw p) k = (s.prod p).sentStop nc (s.saw p) k) :
    Inv extra nc h0 { s with prod := Function.update s.prod p v } where
  heap := h.heap_of_nodes rfl (by simp only [nodes, prodNodes_update_keep hnode])
  prod := prodOk_update h.prod hok
  cons := h.cons
  queue k hk := by simpa only [sentStops_update_keep (hsent k hk)] using h.queue k hk
  gDone := h.gDone.trans (pastIncrCount_update_keep hpast).symm
  sawAll q hq r := (comp_update_of_eq AllocPc.pastIncr hpast r).trans (h.sawAll q hq r)
  aborted := h.aborted

theorem take (h : Inv extra nc h0 s) {p : Fin np} {v : AllocPc} {b : ℕ} {h' : Heap}
    (hm : workNodeAlloc s.heap b = some h') (hp : (s.prod p).node = none) (hv : v.node = some b)
    (hok : ProdOk extra nc s.data (s.saw p) v) (hpast : v.pastIncr = (s.prod p).pastIncr)
    (hsent : ∀ k < nc, v.sentStop nc (s.saw p) k = (s.prod p).sentStop nc (s.saw p) k) :
    Inv extra nc h0 { s with heap := h', prod := Function.update s.prod p v } where
  heap := by
    obtain ⟨E, hE, hh⟩ := h.heap
    refine ⟨E, hE, ?_⟩
    dsimp only
    rw [coe_blocks_workNodeAlloc hm, hh]
    simp only [nodes, prodNodes_update_take hp hv, Multiset.map_add, Multiset.map_singleton,
      ← Multiset.singleton_add]
    abel
  prod := prodOk_update h.prod hok
  cons := h.cons
  queue k hk := by simpa only [sentStops_update_keep (hsent k hk)] using h.queue k hk
  gDone := h.gDone.trans (pastIncrCount_update_keep hpast).symm
  sawAll q hq r := (comp_update_of_eq AllocPc.pastIncr hpast r).trans (h.sawAll q hq r)
  aborted := h.aborted

theorem enqueue (h : Inv extra nc h0 s) {p : Fin np} {v : AllocPc} {j n : ℕ} (hj : j < nc)
    (hpn : (s.prod p).node = some n) (hv : v.node = none) (hok : ProdOk extra nc s.data (s.saw p) v)
    (hpast : v.pastIncr = (s.prod p).pastIncr)
    (hsent : ∀ k < nc, k ≠ j → v.sentStop nc (s.saw p) k = (s.prod p).sentStop nc (s.saw p) k)
    (hq : QueueOk s.data (s.queues j ++ [n]) (s.cons j).gotStop (sentStops nc (Function.update s.prod p v) s.saw j)) :
    Inv extra nc h0
      { s with queues := Function.update s.queues j (s.queues j ++ [n]), prod := Function.update s.prod p v } where
  heap := h.heap_of_nodes rfl <| by
    simp only [nodes, chanNodes_push hj, ← prodNodes_update_give hpn hv]
    abel_nf
  prod := prodOk_update h.prod hok
  cons := h.cons
  queue k hk := by
    rcases eq_or_ne k j with rfl | hkj
    · simpa only [Function.update_self] using hq
    · simpa only [Function.update_of_ne hkj, sentStops_update_keep (hsent k hk hkj)] using h.queue k hk
  gDone := h.gDone.trans (pastIncrCount_update_keep hpast).symm
  sawAll q hq r := (comp_update_of_eq AllocPc.pastIncr hpast r).trans (h.sawAll q hq r)
  aborted := h.aborted

theorem addExtra (h : Inv extra nc h0 s) (he : extra = true) {blk : ℕ} {h' : Heap}
    (hm : extraAlloc s.heap blk = some h') : Inv extra nc h0 { s with heap := h' } where
  heap := by
    obtain ⟨E, -, hh⟩ := h.heap
    refine ⟨⟨blk, 8⟩ ::ₘ E, by simp [he], ?_⟩
    dsimp only
    rw [blocks_malloc hm, ← Multiset.cons_coe, hh, Multiset.add_cons, Multiset.cons_add]
    rfl
  prod := h.prod
  cons := h.cons
  queue := h.queue
  gDone := h.gDone
  sawAll := h.sawAll
  aborted := h.aborted

theorem alloc (h : Inv extra nc h0 s) {p : Fin np} {i b : ℕ} {h' : Heap} (hpc : s.prod p = .alloc i)
    (hm : workNodeAlloc s.heap b = some h') :
    Inv extra nc h0
      { s with heap := h', data := Function.update s.data b (i + 1),
               prod := Function.update s.prod p (if extra then .extra i b else .send i b) } := by
  exact (h.setFresh hm (i + 1)).take hm (by simp [hpc, AllocPc.node]) (by cases extra <;> rfl) (by cases extra <;> simp [ProdOk])
    (by cases extra <;> simp [hpc, AllocPc.pastIncr]) fun k _ => by cases extra <;> simp [hpc, AllocPc.sentStop]

theorem extraStep (h : Inv extra nc h0 s) {p : Fin np} {i n blk : ℕ} {h' : Heap} (hpc : s.prod p = .extra i n)
    (hm : extraAlloc s.heap blk = some h') :
    Inv extra nc h0 { s with heap := h', prod := Function.update s.prod p (.send i n) } := by
  obtain ⟨he, hd⟩ : extra = true ∧ s.data n ≠ 0 := by simpa [hpc, ProdOk] using h.prod p
  exact (h.move (v := .send i n) (by simp [hpc, AllocPc.node]) hd (by simp [hpc, AllocPc.pastIncr])
    fun k _ => by simp [hpc, AllocPc.sentStop]).addExtra he hm

theorem send (h : Inv extra nc h0 s) {route : Fin np → ℕ → ℕ} (hroute : ∀ p i, route p i < nc) {p : Fin np}
    {i n : ℕ} (hpc : s.prod p = .send i n) :
    Inv extra nc h0
      { s with queues := Function.update s.queues (route p i) (s.queues (route p i) ++ [n]),
               prod := Function.update s.prod p (AllocPc.afterSend i) } := by
  have hp : (s.prod p).pastIncr = false := by simp [hpc, AllocPc.pastIncr]
  have hd : s.data n ≠ 0 := by simpa [hpc, ProdOk] using h.prod p
  have hsent : ∀ k, (AllocPc.afterSend i).sentStop nc (s.saw p) k = (s.prod p).sentStop nc (s.saw p) k :=
    fun k => by rw [AllocPc.afterSend_eq_start, AllocPc.sentStop_start, hpc]; rfl
  -- no producer has found `g_done == nproducers` yet, so no stop node has been enqueued
  have hq0 : QueueOk s.data (s.queues (route p i)) (s.cons (route p i)).gotStop 0 := by
    simpa only [h.sentStops_eq_zero hp] using h.queue _ (hroute p i)
  have hq := hq0.push_data hd
  exact h.enqueue (hroute p i) (by simp [hpc, AllocPc.node]) (by simp [AllocPc.afterSend_eq_start])
    (by rw [AllocPc.afterSend_eq_start]; exact prodOk_start i) (by simp [AllocPc.afterSend_eq_start, hp])
    (fun k _ _ => hsent k) (by rwa [sentStops_update_keep (hsent _), h.sentStops_eq_zero hp])

theorem incr (h : Inv extra nc h0 s) {p : Fin np} (hpc : s.prod p = .incr) :
    Inv extra nc h0 { s with gDone := s.gDone + 1, prod := Function.update s.prod p .check } where
  heap := h.heap_of_nodes rfl <| by
    have hnode : AllocPc.check.node = (s.prod p).node := by simp [hpc, AllocPc.node]
    simp only [nodes, prodNodes_update_keep hnode]
  prod := prodOk_update h.prod (h.saw_eq_false (p := p) (by simp [hpc, AllocPc.pastIncr]) p)
  cons := h.cons
  queue k hk := by
    have hsent : AllocPc.check.sentStop nc (s.saw p) k = (s.prod p).sentStop nc (s.saw p) k := by
      simp [hpc, AllocPc.sentStop]
    simpa only [sentStops_update_keep hsent] using h.queue k hk
  gDone := by
    show s.gDone + 1 = _
    rw [pastIncrCount_update_incr (by simp [hpc, AllocPc.pastIncr]) rfl, h.gDone]
  sawAll q hq := absurd hq (by simp [h.saw_eq_false (p := p) (by simp [hpc, AllocPc.pastIncr]) q])
  aborted := h.aborted

theorem see (h : Inv extra nc h0 s) {p : Fin np} (hpc : s.prod p = .check) (hg : s.gDone = np) :
    Inv extra nc h0 { s with saw := Function.update s.saw p true, prod := Function.update s.prod p (.stop 0) } where
  heap := h.heap_of_nodes rfl <| by
    have hnode : (AllocPc.stop 0).node = (s.prod p).node := by simp [hpc, AllocPc.node]
    simp only [nodes, prodNodes_update_keep hnode]
  prod q := by
    dsimp only
    rcases eq_or_ne q p with rfl | hq
    · simp [ProdOk]
    · rw [Function.update_of_ne hq, Function.update_of_ne hq]
      exact h.prod q
  cons := h.cons
  queue k hk := by
    have hsent : (AllocPc.stop 0).sentStop nc true k = (s.prod p).sentStop nc (s.saw p) k := by
      simp [hpc, AllocPc.sentStop]
    simpa only [sentStops_update_see hsent] using h.queue k hk
  gDone := h.gDone.trans (pastIncrCount_update_keep
    (show (AllocPc.stop 0).pastIncr = (s.prod p).pastIncr by simp [hpc, AllocPc.pastIncr])).symm
  sawAll q hq r := by
    rw [comp_update_of_eq AllocPc.pastIncr
      (show (AllocPc.stop 0).pastIncr = (s.prod p).pastIncr by simp [hpc, AllocPc.pastIncr]) r]
    rcases eq_or_ne q p with rfl | hqp
    · -- `g_done` counts the producers past their increment: all of them
      have hall : pastIncrCount s.prod = (Finset.univ : Finset (Fin np)).card := by
        rw [Finset.card_univ, Fintype.card_fin, ← h.gDone, hg]
      exact Finset.card_filter_eq_iff.mp hall r (Finset.mem_univ r)
    · exact h.sawAll q (by simpa [Function.update_of_ne hqp] using hq) r
  aborted := h.aborted

theorem giveUp (h : Inv extra nc h0 s) {p : Fin np} (hpc : s.prod p = .check) :
    Inv extra nc h0 { s with prod := Function.update s.prod p .done } := by
  have hs : s.saw p = false := by simpa [hpc, ProdOk] using h.prod p
  exact h.move (by simp [hpc, AllocPc.node]) trivial (by simp [hpc, AllocPc.pastIncr])
    fun k _ => by simp [hpc, hs, AllocPc.sentStop]

theorem stopAlloc (h : Inv extra nc h0 s) {p : Fin np} {i b : ℕ} {h' : Heap} (hpc : s.prod p = .stop i)
    (hi : i < nc) (hm : workNodeAlloc s.heap b = some h') :
    Inv extra nc h0
      { s with heap := h', data := Function.update s.data b 0, prod := Function.update s.prod p (.sendStop i b) } := by
  have hs : s.saw p = true := by simpa [hpc, ProdOk] using h.prod p
  exact (h.setFresh hm 0).take hm (by simp [hpc, AllocPc.node]) rfl (by simp [ProdOk, hi, hs]) (by simp [hpc, AllocPc.pastIncr])
    fun k _ => by simp [hpc, AllocPc.sentStop]

theorem stopExit (h : Inv extra nc h0 s) {p : Fin np} {i : ℕ} (hpc : s.prod p = .stop i) (hi : nc ≤ i) :
    Inv extra nc h0 { s with prod := Function.update s.prod p .done } := by
  have hs : s.saw p = true := by simpa [hpc, ProdOk] using h.prod p
  exact h.move (by simp [hpc, AllocPc.node]) trivial (by simp [hpc, AllocPc.pastIncr])
    fun k hk => by simp [hpc, hs, AllocPc.sentStop, hk, lt_of_lt_of_le hk hi]

theorem sendStop (h : Inv extra nc h0 s) {p : Fin np} {i n : ℕ} (hpc : s.prod p = .sendStop i n) :
    Inv extra nc h0
      { s with queues := Function.update s.queues i (s.queues i ++ [n]),
               prod := Function.update s.prod p (.stop (i + 1)) } := by
  obtain ⟨hd, hi, hs⟩ : s.data n = 0 ∧ i < nc ∧ s.saw p = true := by simpa [hpc, ProdOk] using h.prod p
  have hq := (h.queue i hi).push_stop hd
  rw [← sentStops_update_send (p := p) (v := .stop (i + 1)) (by simp [hpc, AllocPc.sentStop])
    (by simp [AllocPc.sentStop])] at hq
  exact h.enqueue hi (by simp [hpc, AllocPc.node]) rfl (by simpa [ProdOk] using hs) (by simp [hpc, AllocPc.pastIncr])
    (fun k _ hki => by simp [hpc, AllocPc.sentStop]; omega) hq

theorem poll (h : Inv extra nc h0 s) {c n : ℕ} {rest : List ℕ} (hc : c < nc) (hpc : s.cons c = .poll)
    (hq : s.queues c = n :: rest) :
    Inv extra nc h0
      { s with queues := Function.update s.queues c rest,
               cons := Function.update s.cons c
                 (if extra then .freeExtra n (decide (s.data n = 0)) else .freeNode n (decide (s.data n = 0))) } where
  heap := h.heap_of_nodes rfl <| by
    simp only [nodes]
    rw [chanNodes_pop hc hq (by simp [hpc, ConsPc.node]) (by cases extra <;> rfl)]
  prod := h.prod
  cons := consOk_update h.cons (by cases extra <;> simp [ConsOk])
  queue k hk := by
    rcases eq_or_ne k c with rfl | hkc
    · have hk := h.queue k hk
      rw [hq, hpc] at hk
      have hg : (if extra then ConsPc.freeExtra n (decide (s.data n = 0))
          else .freeNode n (decide (s.data n = 0))).gotStop = decide (s.data n = 0) := by
        cases extra <;> rfl
      simpa only [Function.update_self, hg] using hk.pop
    · simpa only [Function.update_of_ne hkc] using h.queue k hk
  gDone := h.gDone
  sawAll := h.sawAll
  aborted := h.aborted

theorem freeNode (h : Inv extra nc h0 s) {c n : ℕ} {st : Bool} {h' : Heap} (hc : c < nc)
    (hpc : s.cons c = .freeNode n st) (hf : workNodeFree s.heap n = some h') :
    Inv extra nc h0 { s with heap := h', cons := Function.update s.cons c (if st then .finished else .poll) } where
  heap := by
    obtain ⟨E, hE, hh⟩ := h.heap
    have hrel : chanNodes nc s.queues (Function.update s.cons c (if st then .finished else .poll)) + {n} =
        chanNodes nc s.queues s.cons :=
      chanNodes_release hc (by simp [hpc, ConsPc.node]) (by cases st <;> rfl)
    refine ⟨E, hE, coe_blocks_free (b := nodeBlock n) ?_ hf⟩
    rw [hh]
    simp only [nodes, ← hrel, Multiset.map_add, Multiset.map_singleton, ← Multiset.singleton_add]
    abel
  prod := h.prod
  cons := consOk_update h.cons (by
    have hk : extra = false := by simpa [hpc, ConsOk] using h.cons c
    cases st <;> simp [ConsOk, hk])
  queue k hk := by
    rcases eq_or_ne k c with rfl | hkc
    · have hg : (if st then ConsPc.finished else .poll).gotStop = (s.cons k).gotStop := by
        cases st <;> simp [hpc, ConsPc.gotStop]
      simpa only [Function.update_self, hg] using h.queue k hk
    · simpa only [Function.update_of_ne hkc] using h.queue k hk
  gDone := h.gDone
  sawAll := h.sawAll
  aborted := h.aborted

/-- glibc aborts the process, which happens only with `-e`. -/
theorem abort (h : Inv extra nc h0 s) (he : extra = true) : Inv extra nc h0 { s with aborted := true } where
  heap := h.heap
  prod := h.prod
  cons := h.cons
  queue := h.queue
  gDone := h.gDone
  sawAll := h.sawAll
  aborted _ := he

end Inv

theorem inv_init (mpt : ℕ) : Inv extra nc h0 (init mpt h0 : State np) where
  heap := ⟨0, fun _ => rfl, by simp [nodes, prodNodes, chanNodes, init, ConsPc.node]⟩
  prod _ := prodOk_start mpt
  cons _ := trivial
  queue _ _ := ⟨⟨[], [], rfl, by simp, by simp⟩, by simp [init, ConsPc.gotStop], by
    simp [init, sentStops, ConsPc.gotStop]⟩
  gDone := by simp [init, pastIncrCount]
  sawAll _ hp := by simp [init] at hp
  aborted hp := by simp [init] at hp

variable {route : Fin np → ℕ → ℕ}

/-- **Every step of `alloc_rate` keeps the invariant.** -/
theorem Inv.step (h : Inv extra nc h0 s) (hroute : ∀ p i, route p i < nc) {a : Act np} {s' : State np}
    (hs : step extra nc route s a = some s') : Inv extra nc h0 s' := by
  cases a with
  | prod p block =>
    simp only [AllocRate.step] at hs
    split at hs
    · cases hs
    unfold prodStep at hs
    split at hs
    next i hpc =>
      obtain ⟨h', hm, rfl⟩ := Option.map_eq_some_iff.mp hs
      exact h.alloc hpc hm
    next i n hpc =>
      obtain ⟨h', hm, rfl⟩ := Option.map_eq_some_iff.mp hs
      exact h.extraStep hpc hm
    next i n hpc =>
      cases hs
      exact h.send hroute hpc
    next hpc =>
      cases hs
      exact h.incr hpc
    next hpc =>
      split at hs
      next hg =>
        cases hs
        exact h.see hpc hg
      next =>
        cases hs
        exact h.giveUp hpc
    next i hpc =>
      split at hs
      next hi =>
        obtain ⟨h', hm, rfl⟩ := Option.map_eq_some_iff.mp hs
        exact h.stopAlloc hpc hi hm
      next hi =>
        cases hs
        exact h.stopExit hpc (Nat.le_of_not_lt hi)
    next i n hpc =>
      cases hs
      exact h.sendStop hpc
    next => cases hs
  | cons c =>
    simp only [AllocRate.step] at hs
    split at hs
    · cases hs
    next hnot =>
    have hc : c < nc := by
      simp only [not_or, not_le] at hnot
      exact hnot.2
    unfold consStep at hs
    split at hs
    next hpc =>
      split at hs
      next =>
        cases hs
        exact h
      next n rest hq =>
        cases hs
        exact h.poll hc hpc hq
    next n st hpc =>
      -- `extra_free` never succeeds: the consumer's process aborts
      split at hs
      next h' hf => exact absurd hf (by rw [h.extraFree_eq_none hc hpc]; simp)
      next =>
        cases hs
        have he := h.cons c
        rw [hpc] at he
        exact h.abort he
    next n st hpc =>
      split at hs
      next h' hf =>
        cases hs
        exact h.freeNode hc hpc hf
      next hf =>
        obtain ⟨h', hf'⟩ := h.workNodeFree_isSome hc hpc
        exact absurd hf' (by rw [hf]; simp)
    next => cases hs

/-- **The invariant holds in every reachable state.** -/
theorem inv_of_runSteps (hroute : ∀ p i, route p i < nc) {mpt : ℕ} {acts : List (Act np)}
    (hrun : Machine.runSteps (step extra nc route) (init mpt h0) acts = some s) : Inv extra nc h0 s :=
  Machine.runSteps_inv (step extra nc route) (P := Inv extra nc h0) (G := fun _ => True)
    (fun _ _ _ hs _ hstep => hs.step hroute hstep)
    (fun _ _ => trivial) (inv_init mpt) hrun

/-! ### What the consumers free -/

/-- **What `alloc_rate`'s frees do**, for every input `main` accepts, with
or without `-r`, whatever the heap held before and in every interleaving of
the threads' steps, with `malloc` reusing freed addresses. Without `-e` no
`free` is ever invalid, and once every producer and consumer is done the
live blocks are those from before and the stop nodes left in the queues:
`Q[k]` holds one stop node less than the number of producers that found
`g_done == nproducers`, so every data node has been freed and, when more
than one producer found it, stop nodes leak. With `-e` no consumer gets
past its first `extra_free`: it is at its dequeue or at an `extra_free`
that glibc rejects. -/
theorem alloc_rate_frees (extra randomize : Bool) {np nc nmessages : ℕ} (urandom : ℕ → ℕ → ℕ) (h0 : Heap)
    (hargs : Harness.argsAccepted np nc nmessages = true) {acts : List (Act np)} {s : State np}
    (hrun : Machine.runSteps (step extra nc (Harness.sourceRoute randomize nc (nmessages / np) urandom))
      (init (nmessages / np) h0) acts = some s) :
    (extra = false →
      s.aborted = false ∧
      ((∀ p, s.prod p = .done) → (∀ c < nc, s.cons c = .finished) →
        (s.heap.blocks : Multiset Block) =
            (∑ k ∈ Finset.range nc, (s.queues k : Multiset ℕ)).map nodeBlock + h0.blocks ∧
          ∀ k < nc, (s.queues k).length + 1 = (Finset.univ.filter fun p => s.saw p = true).card ∧
            ∀ n ∈ s.queues k, s.data n = 0)) ∧
    (extra = true → ∀ c < nc, s.cons c = .poll ∨
      ∃ n st, s.cons c = .freeExtra n st ∧ extraFree s.heap (n + extraAllocDataOffset) = none) := by
  have hc : 0 < nc := by
    have := (Harness.argsAccepted_iff _ _ _).mp hargs
    omega
  have h := inv_of_runSteps (fun p i => Harness.sourceRoute_lt randomize _ urandom p i hc) hrun
  refine ⟨fun he => ⟨?_, fun hdone hfin => ?_⟩, fun he c hc' => ?_⟩
  · cases ha : s.aborted
    · rfl
    · exact absurd (h.aborted ha) (by simp [he])
  · -- with every thread done, the nodes are those left in the queues
    have hnodes : nodes nc s = ∑ k ∈ Finset.range nc, (s.queues k : Multiset ℕ) := by
      have hcons : ∀ k ∈ Finset.range nc, (s.queues k : Multiset ℕ) + ((s.cons k).node.toList : Multiset ℕ) =
          s.queues k := fun k hk => by simp [hfin k (Finset.mem_range.mp hk), ConsPc.node]
      simp only [nodes, chanNodes, Finset.sum_congr rfl hcons]
      simp [prodNodes, hdone, AllocPc.node]
    obtain ⟨E, hE, hh⟩ := h.heap
    refine ⟨by rw [hh, hE he, hnodes, add_zero], fun k hk => ?_⟩
    have hq := h.queue k hk
    rw [hfin k hk] at hq
    obtain ⟨hlen, hall⟩ := hq.of_got
    refine ⟨hlen.trans ?_, hall⟩
    -- a producer that is done has sent a stop node to `Q[k]` exactly when it found `g_done == nproducers`
    unfold sentStops
    congr 1
    exact Finset.filter_congr fun p _ => by simp [hdone, AllocPc.sentStop, hk]
  · rcases hcs : s.cons c with _ | ⟨n, st⟩ | ⟨n, st⟩ | _
    · exact Or.inl rfl
    · exact Or.inr ⟨n, st, rfl, h.extraFree_eq_none hc' hcs⟩
    all_goals
      have hk := h.cons c
      simp [hcs, ConsOk, he] at hk

/-- Two producers of one message each and one consumer, without `-e` and from
an empty heap. The consumer frees producer 0's node at `0`; producer 1 gets
the address `0` again from `malloc`; both producers find `g_done == 2` and
send a stop node, at `64` and `128`; the consumer stops at the first, and the
second is left in `Q[0]`, its block live. With `-e`, the consumer's
`extra_free` of the first node is invalid. -/
theorem alloc_rate_frees_race :
    (∃ s : State 2, Machine.runSteps (step false 1 (Harness.sourceRoute false 1 (2 / 2) fun _ _ => 0))
        (init (2 / 2) ⟨[], by simp, by simp⟩)
        [.prod 0 0, .prod 0 0, .cons 0, .cons 0, .prod 1 0, .prod 1 0, .prod 0 0, .prod 1 0, .prod 0 0, .prod 1 0,
          .prod 0 64, .prod 0 0, .prod 0 0, .prod 1 128, .prod 1 0, .prod 1 0, .cons 0, .cons 0, .cons 0, .cons 0] =
          some s ∧
      s.queues 0 = [128] ∧ s.aborted = false ∧ (s.heap.blocks : Multiset Block) = {nodeBlock 128} ∧
      (Finset.univ.filter fun p => s.saw p = true).card = 2) ∧
    (∃ s : State 1, Machine.runSteps (step true 1 (Harness.sourceRoute false 1 (1 / 1) fun _ _ => 0))
        (init (1 / 1) ⟨[], by simp, by simp⟩) [.prod 0 0, .prod 0 64, .prod 0 0, .cons 0] = some s ∧
      s.cons 0 = .freeExtra 0 false ∧ extraFree s.heap (0 + extraAllocDataOffset) = none) := by
  constructor
  · refine Exists.imp (fun s hrun => ⟨hrun, ?_⟩) (Option.isSome_iff_exists.mp (by decide))
    have hend : (some s).all (fun s => decide ((∀ p, s.prod p = .done) ∧ s.cons 0 = .finished ∧
        s.queues 0 = [128])) = true := by
      rw [← hrun]
      decide
    simp only [Option.all_some, decide_eq_true_eq] at hend
    obtain ⟨hdone, hfin, hq⟩ := hend
    have hfree := (alloc_rate_frees false false (fun _ _ => 0) _ (by decide) hrun).1 rfl
    obtain ⟨hheap, hk⟩ := hfree.2 hdone fun c hc => by rw [Nat.lt_one_iff.mp hc]; exact hfin
    refine ⟨hq, hfree.1, by simp [hheap, hq], ?_⟩
    have hsaw := (hk 0 Nat.one_pos).1
    rw [hq] at hsaw
    exact hsaw.symm
  · refine Exists.imp (fun s hrun => ⟨hrun, ?_⟩) (Option.isSome_iff_exists.mp (by decide))
    have hc : (some s).all (fun s => decide (s.cons 0 = .freeExtra 0 false)) = true := by
      rw [← hrun]
      decide
    simp only [Option.all_some, decide_eq_true_eq] at hc
    refine ⟨hc, ?_⟩
    rcases (alloc_rate_frees true false (fun _ _ => 0) _ (by decide) hrun).2 rfl 0 Nat.one_pos with
      hp | ⟨n, st, hn, hf⟩
    · rw [hc] at hp
      cases hp
    · rw [hc] at hn
      cases hn
      exact hf

end AllocRate
end QueueRate
