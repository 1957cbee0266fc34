import QueueRate.Vyukov.Invariant

/-!
# What `mpscq_pop` returns, in every interleaving

From the invariant: the returned nodes are a prefix of the pushes in the
order of their exchange on `head` (`Shape.popped_prefix`), so each is a
pushed node, never the stub, and no push comes back twice. A node the client
holds, because it was never pushed or `mpscq_pop` has returned it, is on no
thread's path: no producer's or consumer's next step reads or writes its
`next` field (`Shape.touches_held`), and no step changes that field
(`Shape.next_held`).

Key theorem: `mpscq_pop_safe`.
-/

namespace QueueRate
namespace Vyukov

open Linked

variable {α P : Type*} [DecidableEq α]

section Shape

variable {s : State α P} {rest : List (Addr α)}

theorem Shape.popped_prefix (h : Shape s rest) :
    s.popped <+: s.pushed.map (fun e => Addr.node e.2) :=
  ⟨_, h.history.symm⟩

theorem Shape.popped_pushed (h : Shape s rest) {x : Addr α} (hx : x ∈ s.popped) :
    ∃ p a, x = .node a ∧ (p, a) ∈ s.pushed := by
  obtain ⟨⟨p, a⟩, hm, rfl⟩ := List.mem_map.mp (h.popped_prefix.subset hx)
  exact ⟨p, a, rfl, hm⟩

theorem Shape.count_popped_le (h : Shape s rest) (a : α) :
    s.popped.count (.node a) ≤ (s.pushed.map Prod.snd).count a := by
  have hmap : s.pushed.map (fun e => Addr.node e.2) = (s.pushed.map Prod.snd).map Addr.node := by
    rw [List.map_map]
    rfl
  calc s.popped.count (.node a)
      ≤ (s.pushed.map fun e => Addr.node e.2).count (.node a) := h.popped_prefix.sublist.count_le _
    _ = (s.pushed.map Prod.snd).count a := by
      rw [hmap, List.count_map_of_injective _ _ (fun _ _ => Addr.node.inj)]

/-- No thread is about to read or write the `next` field of a node the client holds. -/
theorem Shape.touches_held (h : Shape s rest) {a : α} (ha : s.held a = true) :
    (∀ p, (s.push p).touches ≠ some (.node a)) ∧ s.pop.touches ≠ some (.node a) := by
  obtain ⟨haC, -⟩ := h.held a ha
  have hC : ∀ x ∈ s.tail :: rest, x ≠ .node a := fun x hx he => haC (he ▸ hx)
  refine ⟨fun p ht => ?_, fun ht => ?_⟩
  · have hok := h.push p
    cases hpc : s.push p with
    | link prev m =>
      rw [hpc] at hok ht
      exact hC prev hok.1.mem_left (Option.some.inj ht)
    | _ => simp [hpc, PushPc.touches] at ht
  · have hok := h.pop
    cases hc : s.pop with
    | readNext t =>
      rw [hc] at hok ht
      exact hC t (hok ▸ List.mem_cons_self) (Option.some.inj ht)
    | readNextSkip t =>
      rw [hc] at hok ht
      exact hC t (hok.1 ▸ List.mem_cons_self) (Option.some.inj ht)
    | readNextAgain t =>
      rw [hc] at hok ht
      exact hC t (hok.1 ▸ List.mem_cons_self) (Option.some.inj ht)
    | stubLink t prev =>
      rw [hc] at hok ht
      exact hC prev hok.2.2.1.mem_left (Option.some.inj ht)
    | _ => simp [hc, PopPc.touches] at ht

theorem Shape.next_held [DecidableEq P] (h : Shape s rest) {s' : State α P} (hs : Step s s') {a : α}
    (ha : s.held a = true) (ha' : s'.held a = true) : s'.next (.node a) = s.next (.node a) := by
  obtain ⟨haC, -⟩ := h.held a ha
  cases hs with
  | pushStore p n hp hn =>
    have han : a ≠ n := by
      rintro rfl
      simp at ha'
    dsimp only
    rw [Function.update_of_ne (by simpa using han)]
  | pushLink p prev n hp =>
    have hok := h.push p
    rw [hp] at hok
    dsimp only
    rw [Function.update_of_ne fun he => haC (by rw [he]; exact hok.1.mem_left)]
  | popStubStore t hc =>
    dsimp only
    rw [Function.update_of_ne (by simp)]
  | popStubLink t prev hc =>
    have hok := h.pop
    rw [hc] at hok
    dsimp only
    rw [Function.update_of_ne fun he => haC (by rw [he]; exact hok.2.2.1.mem_left)]
  | _ => rfl

end Shape

/-- **`mpscq_pop` is safe**, from `mpscq_create` and for every interleaving
of any number of producers and one consumer: (a) every returned node was
pushed, and is not the stub; (b) no node comes back more often than it was
pushed; (c) the returned nodes are a prefix of the pushes in the order of
their exchange on `head`; (d) a node the client holds is on no thread's
path, and no step writes its `next` field. -/
theorem mpscq_pop_safe [DecidableEq P] (next : Addr α → Option (Addr α)) {s : State α P}
    (hs : Relation.ReflTransGen Step (mpscqCreate next) s) :
    (∀ x ∈ s.popped, x ≠ .stub ∧ ∃ p a, x = .node a ∧ (p, a) ∈ s.pushed) ∧
      (∀ a, s.popped.count (.node a) ≤ (s.pushed.map Prod.snd).count a) ∧
      s.popped <+: s.pushed.map (fun e => Addr.node e.2) ∧
      ∀ a, s.held a = true →
        (∀ p, (s.push p).touches ≠ some (.node a)) ∧ s.pop.touches ≠ some (.node a) ∧
          ∀ s', Step s s' → s'.held a = true → s'.next (.node a) = s.next (.node a) := by
  obtain ⟨rest, h⟩ := reachable_inv hs
  refine ⟨fun x hx => ?_, h.count_popped_le, h.popped_prefix, fun a ha => ?_⟩
  · obtain ⟨p, a, rfl, hm⟩ := h.popped_pushed hx
    exact ⟨by simp, p, a, rfl, hm⟩
  · obtain ⟨hp, hc⟩ := h.touches_held ha
    exact ⟨hp, hc, fun s' hs' ha' => h.next_held hs' ha ha'⟩

/-- One push and one pop: the pop steps past the stub, finds the queue down
to one node, pushes the stub behind it and returns the node. -/
theorem mpscq_pop_safe_returns :
    ∃ s : State ℕ Unit, Relation.ReflTransGen Step (mpscqCreate fun _ => none) s ∧
      s.popped = [.node 0] ∧
      ((∀ x ∈ s.popped, x ≠ .stub ∧ ∃ p a, x = .node a ∧ (p, a) ∈ s.pushed) ∧
        (∀ a, s.popped.count (.node a) ≤ (s.pushed.map Prod.snd).count a) ∧
        s.popped <+: s.pushed.map (fun e => Addr.node e.2) ∧
        ∀ a, s.held a = true →
          (∀ p, (s.push p).touches ≠ some (.node a)) ∧ s.pop.touches ≠ some (.node a) ∧
            ∀ s', Step s s' → s'.held a = true → s'.next (.node a) = s.next (.node a)) := by
  have r1 := Relation.ReflTransGen.single
    (Step.pushStore (s := mpscqCreate (P := Unit) fun _ : Addr ℕ => none) () 0 rfl rfl)
  have r2 := r1.tail (Step.pushXchg () 0 rfl)
  have r3 := r2.tail (Step.pushLink () .stub 0 rfl)
  have r4 := r3.tail (Step.popStart rfl)
  have r5 := r4.tail (Step.popReadNext .stub rfl)
  have r6 := r5.tail (Step.popSkipStub (.node 0) rfl)
  have r7 := r6.tail (Step.popReadNextSkip (.node 0) rfl)
  have r8 := r7.tail (Step.popReadHead (.node 0) rfl)
  have r9 := r8.tail (Step.popStubStore (.node 0) rfl)
  have r10 := r9.tail (Step.popStubXchg (.node 0) rfl)
  have r11 := r10.tail (Step.popStubLink (.node 0) (.node 0) rfl)
  have r12 := r11.tail (Step.popReadNextAgain (.node 0) rfl)
  have r13 := r12.tail (Step.popAdvance (.node 0) .stub rfl)
  exact ⟨_, r13, rfl, mpscq_pop_safe _ r13⟩

end Vyukov
end QueueRate
