import Mathlib.Data.List.Basic

/-!
# The chain of a queue lock

A queue lock hands each thread that enters it, by one atomic swap or
fetch-and-add on the lock's tail, the token of the thread before it, and
makes the thread's own token the new tail. The threads that have done so and
not yet released the lock form a chain from the last released token to the
tail, each one's predecessor being the token of the one before (`Linked`).

A thread may pass once its predecessor is released. While no token of the
chain is released, only the first thread of the chain can
(`Linked.eq_head_of_released`): that is the mutual exclusion of every such
lock. Entering appends to the chain (`Linked.concat`), and the first
thread's release drops it (`Linked.tail`).
-/

namespace TokenChain

variable {T K : Type*}

/-- `l` is a chain from `e` to `i` for the tokens `prev` and `mine`: the first
thread's predecessor is `e`, each next one's is the token of the one before,
and the last one's token is `i`; an empty chain has `e = i`. -/
def Linked (prev mine : T → K) : K → List T → K → Prop
  | e, [], i => e = i
  | e, u :: l, i => prev u = e ∧ Linked prev mine (mine u) l i

variable {prev mine : T → K}

@[simp] theorem linked_nil {e i : K} : Linked prev mine e [] i ↔ e = i := Iff.rfl

@[simp] theorem linked_cons {e i : K} {u : T} {l : List T} :
    Linked prev mine e (u :: l) i ↔ prev u = e ∧ Linked prev mine (mine u) l i := Iff.rfl

/-- The first thread's release moves the start of the chain to its token. -/
theorem Linked.tail {e i : K} {u : T} {l : List T} (h : Linked prev mine e (u :: l) i) :
    Linked prev mine (mine u) l i :=
  h.2

/-- A thread that takes the tail `i` as its predecessor extends the chain to its own token. -/
theorem Linked.concat {e i : K} {l : List T} (h : Linked prev mine e l i) {u : T} (hu : prev u = i) :
    Linked prev mine e (l ++ [u]) (mine u) := by
  induction l generalizing e with
  | nil =>
    rw [linked_nil] at h
    exact ⟨hu.trans h.symm, rfl⟩
  | cons v l ih => exact ⟨h.1, ih h.2⟩

theorem Linked.congr {prev' mine' : T → K} {e i : K} {l : List T} (h : Linked prev mine e l i)
    (hl : ∀ u ∈ l, prev' u = prev u ∧ mine' u = mine u) : Linked prev' mine' e l i := by
  induction l generalizing e with
  | nil => exact h
  | cons u l ih =>
    obtain ⟨hp, hm⟩ := hl u List.mem_cons_self
    refine ⟨hp.trans h.1, ?_⟩
    rw [hm]
    exact ih h.2 fun v hv => hl v (List.mem_cons_of_mem u hv)

theorem Linked.prev_eq_mine {e i : K} {u : T} {l : List T} (h : Linked prev mine e (u :: l) i) {v : T}
    (hv : v ∈ l) : ∃ w ∈ u :: l, prev v = mine w := by
  induction l generalizing u e with
  | nil => cases hv
  | cons x l ih =>
    rcases List.mem_cons.mp hv with rfl | hv
    · exact ⟨u, List.mem_cons_self, h.2.1⟩
    · obtain ⟨w, hw, he⟩ := ih h.2 hv
      exact ⟨w, List.mem_cons_of_mem u hw, he⟩

theorem Linked.prev_mem {e i : K} {l : List T} (h : Linked prev mine e l i) {v : T} (hv : v ∈ l) :
    prev v = e ∨ ∃ w ∈ l, prev v = mine w := by
  cases l with
  | nil => cases hv
  | cons u l =>
    rcases List.mem_cons.mp hv with rfl | hv
    · exact .inl h.1
    · exact .inr (h.prev_eq_mine hv)

/-- With distinct tokens, none of them the start, distinct threads of the
chain wait for distinct predecessors. -/
theorem Linked.prev_injOn {e i : K} {l : List T} (h : Linked prev mine e l i) (hnd : l.Nodup)
    (hinj : ∀ u ∈ l, ∀ v ∈ l, mine u = mine v → u = v) (he : ∀ w ∈ l, mine w ≠ e) {u v : T}
    (hu : u ∈ l) (hv : v ∈ l) (heq : prev u = prev v) : u = v := by
  induction l generalizing e with
  | nil => cases hu
  | cons x l ih =>
    obtain ⟨hx, hl⟩ := List.nodup_cons.mp hnd
    have hlater : ∀ y ∈ l, prev y ≠ e := fun y hy hye => by
      obtain ⟨w, hw, hwy⟩ := h.prev_eq_mine hy
      exact he w hw (hwy ▸ hye)
    rcases List.mem_cons.mp hu with rfl | hu' <;> rcases List.mem_cons.mp hv with rfl | hv'
    · rfl
    · exact absurd (heq.symm.trans h.1) (hlater v hv')
    · exact absurd (heq.trans h.1) (hlater u hu')
    · refine ih h.2 hl (fun a ha b hb => hinj a (.tail _ ha) b (.tail _ hb)) (fun w hw hwx => ?_) hu' hv'
      exact hx (hinj w (.tail _ hw) x (.head _) hwx ▸ hw)

/-- **Only the first thread of the chain can pass**: a thread whose
predecessor is released is the first, as long as no token of the chain is. -/
theorem Linked.eq_head_of_released {R : K → Prop} {e i : K} {u : T} {l : List T}
    (h : Linked prev mine e (u :: l) i) (hfresh : ∀ w ∈ u :: l, ¬ R (mine w)) {v : T} (hv : v ∈ u :: l)
    (hR : R (prev v)) : v = u := by
  rcases List.mem_cons.mp hv with rfl | hv
  · rfl
  · obtain ⟨w, hw, he⟩ := h.prev_eq_mine hv
    exact absurd (he ▸ hR) (hfresh w hw)

theorem inj_of_fresh [DecidableEq T] {f f' : T → K} {P P' : T → Prop} {t : T}
    (hinj : ∀ u v, P u → P v → f u = f v → u = v) (hf : ∀ u, u ≠ t → f' u = f u)
    (hP : ∀ u, u ≠ t → P' u → P u) (hfresh : ∀ u, u ≠ t → P u → f u ≠ f' t) :
    ∀ u v, P' u → P' v → f' u = f' v → u = v := by
  intro u v hu hv huv
  by_cases hut : u = t <;> by_cases hvt : v = t
  · exact hut.trans hvt.symm
  · rw [hut, hf v hvt] at huv
    exact absurd huv.symm (hfresh v hvt (hP v hvt hv))
  · rw [hvt, hf u hut] at huv
    exact absurd huv (hfresh u hut (hP u hut hu))
  · rw [hf u hut, hf v hvt] at huv
    exact hinj u v (hP u hut hu) (hP v hvt hv) huv

end TokenChain
