import QueueRate.Vyukov.Model
import QueueRate.Lib.Adjacent

/-!
# What every interleaving keeps

The nodes from `tail` on, in the order of their exchange on `head`, form a
chain `tail :: rest` that ends at `head`. Two neighbours in it are linked by
`next`, or the first one's `next` is still null and some thread (a producer,
or the consumer pushing the stub) is about to store the link (`Pending`).
The producers' nodes in the chain are exactly those pushed and not yet
returned (`Shape.history`); a producer between its first store and its
exchange holds a node off the chain, and the nodes the client holds are
neither on the chain nor being pushed. What the consumer's locals say about
the chain is `PopOk`, what a producer's say is `PushOk`.

`Shape` holds initially (`shape_mpscqCreate`) and every `Step` keeps it
(`Shape.step`), so it holds in every reachable state (`reachable_inv`).
-/

namespace QueueRate
namespace Vyukov

open Linked

variable {α P : Type*} [DecidableEq α]

/-- A thread is about to store `x->next = y`: a producer that exchanged `y`
in after `x`, or the consumer pushing the stub. -/
def Pending (push : P → PushPc α) (pop : PopPc α) (x y : Addr α) : Prop :=
  (∃ p n, push p = .link x n ∧ y = .node n) ∨ (∃ t, pop = .stubLink t x ∧ y = .stub)

/-- What a producer's locals say about the chain `C`. -/
def PushOk (next : Addr α → Option (Addr α)) (held : α → Bool) (C : List (Addr α)) :
    PushPc α → Prop
  | .idle => True
  | .xchg n => .node n ∉ C ∧ next (.node n) = none ∧ held n = false
  | .link prev n => Adj C prev (.node n) ∧ next prev = none ∧ held n = false

/-- What the consumer's locals say about the chain `tail :: rest`. -/
def PopOk (tail : Addr α) (next : Addr α → Option (Addr α)) (rest : List (Addr α)) :
    PopPc α → Prop
  | .idle => True
  | .readNext t => t = tail
  | .skipStub nx => tail = .stub ∧ rest.head? = some nx ∧ next .stub = some nx
  | .readNextSkip t => t = tail ∧ t ≠ .stub
  | .advance t nx => t = tail ∧ t ≠ .stub ∧ rest.head? = some nx ∧ next t = some nx
  | .readHead t => t = tail ∧ t ≠ .stub
  | .stubStore t => t = tail ∧ t ≠ .stub ∧ .stub ∉ rest
  | .stubXchg t => t = tail ∧ t ≠ .stub ∧ .stub ∉ rest ∧ next .stub = none
  | .stubLink t prev => t = tail ∧ t ≠ .stub ∧ Adj (tail :: rest) prev .stub ∧ next prev = none
  | .readNextAgain t => t = tail ∧ t ≠ .stub

/-- The shape of the queue: the chain `s.tail :: rest` and what hangs on it. -/
structure Shape (s : State α P) (rest : List (Addr α)) : Prop where
  /-- the chain ends at `head` -/
  last : (s.tail :: rest).getLast? = some s.head
  nodup : (s.tail :: rest).Nodup
  /-- neighbours are linked, or about to be -/
  links : ∀ x y, Adj (s.tail :: rest) x y →
    s.next x = some y ∨ (s.next x = none ∧ Pending s.push s.pop x y)
  headNext : s.next s.head = none
  /-- every exchanged push was returned, or is on the chain -/
  history : s.pushed.map (fun e => Addr.node e.2) = s.popped ++ (s.tail :: rest).filter (· ≠ .stub)
  push : ∀ p, PushOk s.next s.held (s.tail :: rest) (s.push p)
  pushDistinct : ∀ p q n, p ≠ q → (s.push p).node = some n → (s.push q).node ≠ some n
  /-- a node the client holds is nobody else's -/
  held : ∀ a, s.held a = true → Addr.node a ∉ s.tail :: rest ∧ ∀ p, (s.push p).node ≠ some a
  pop : PopOk s.tail s.next rest s.pop

/-- The invariant: the queue has a shape. -/
def Inv (s : State α P) : Prop := ∃ rest, Shape s rest

theorem shape_mpscqCreate (next : Addr α → Option (Addr α)) : Shape (mpscqCreate (P := P) next) [] where
  last := rfl
  nodup := List.nodup_singleton _
  links := fun _ _ h => absurd h adj_singleton
  headNext := by simp [mpscqCreate]
  history := by simp [mpscqCreate]
  push := fun _ => trivial
  pushDistinct := fun _ _ _ _ h => by simp [mpscqCreate, PushPc.node] at h
  held := fun _ _ => ⟨by simp [mpscqCreate], fun _ => by simp [mpscqCreate, PushPc.node]⟩
  pop := trivial

/-! ### Facts every shape has -/

section Facts

variable {s : State α P} {rest : List (Addr α)}

theorem Shape.head_mem (h : Shape s rest) : s.head ∈ s.tail :: rest :=
  List.mem_of_getLast? h.last

theorem Shape.rest_head (h : Shape s rest) {nx : Addr α} (hn : s.next s.tail = some nx) :
    rest.head? = some nx := by
  cases rest with
  | nil =>
    have : s.tail = s.head := Option.some.inj h.last
    rw [this, h.headNext] at hn
    cases hn
  | cons y r =>
    rcases h.links s.tail y (adj_cons_iff.mpr (Or.inl ⟨rfl, rfl⟩)) with hy | ⟨hy, -⟩
    · rw [hn] at hy
      exact congrArg some (Option.some.inj hy).symm
    · rw [hn] at hy
      cases hy

theorem Shape.rest_nil (h : Shape s rest) (ht : s.tail = s.head) : rest = [] := by
  cases rest with
  | nil => rfl
  | cons y r =>
    have hlast : (y :: r).getLast? = some s.tail := by
      rw [ht, ← h.last, List.getLast?_cons_cons]
    exact absurd (List.mem_of_getLast? hlast) (List.nodup_cons.mp h.nodup).1

omit [DecidableEq α] in
/-- A consumer that is not pushing the stub leaves only the producers' stores pending. -/
theorem pending_iff {push : P → PushPc α} {c : PopPc α} (hc : ∀ t x, c ≠ .stubLink t x)
    {x y : Addr α} : Pending push c x y ↔ ∃ p n, push p = .link x n ∧ y = .node n := by
  simp [Pending, hc]

theorem Shape.node_ne_tail (h : Shape s rest) {q : P} {m : α} (hq : (s.push q).node = some m) :
    Addr.node m ≠ s.tail := by
  have hok := h.push q
  cases hpc : s.push q with
  | idle => simp [hpc, PushPc.node] at hq
  | xchg m' =>
    rw [hpc] at hok hq
    cases hq
    exact fun he => hok.1 (he ▸ List.mem_cons_self)
  | link prev m' =>
    rw [hpc] at hok hq
    cases hq
    exact hok.1.right_ne_head h.nodup

theorem Shape.popOk_advance (h : Shape s rest) {nx : Addr α} (ht : s.tail ≠ .stub)
    (hn : s.next s.tail = some nx) : PopOk s.tail s.next rest (.advance s.tail nx) :=
  ⟨rfl, ht, h.rest_head hn, hn⟩

end Facts

/-! ### The consumer's reads

These steps only move the consumer's program counter, so the shape stays
as it was, given what the consumer learnt (`Shape.setPop`). -/

section Reads

variable {s : State α P} {rest : List (Addr α)}

theorem Shape.setPop (h : Shape s rest) {c : PopPc α}
    (hold : ∀ t x, s.pop ≠ .stubLink t x) (hnew : ∀ t x, c ≠ .stubLink t x)
    (hc : PopOk s.tail s.next rest c) : Shape { s with pop := c } rest where
  last := h.last
  nodup := h.nodup
  links x y hxy := by
    rcases h.links x y hxy with hl | ⟨hl, hp⟩
    · exact Or.inl hl
    · exact Or.inr ⟨hl, (pending_iff hnew).mpr ((pending_iff hold).mp hp)⟩
  headNext := h.headNext
  history := h.history
  push := h.push
  pushDistinct := h.pushDistinct
  held := h.held
  pop := hc

theorem PopPc.afterRead_ne_stubLink (t : Addr α) (n : Option (Addr α)) (t' x : Addr α) :
    PopPc.afterRead t n ≠ .stubLink t' x := by
  cases n <;> by_cases ht : t = .stub <;> simp [PopPc.afterRead, ht]

omit [DecidableEq α] in
theorem PopPc.afterSkip_ne_stubLink (t : Addr α) (n : Option (Addr α)) (t' x : Addr α) :
    PopPc.afterSkip t n ≠ .stubLink t' x := by
  cases n <;> simp [PopPc.afterSkip]

omit [DecidableEq α] in
theorem PopPc.afterStub_ne_stubLink (t : Addr α) (n : Option (Addr α)) (t' x : Addr α) :
    PopPc.afterStub t n ≠ .stubLink t' x := by
  cases n <;> simp [PopPc.afterStub]

theorem Shape.popOk_afterRead (h : Shape s rest) :
    PopOk s.tail s.next rest (PopPc.afterRead s.tail (s.next s.tail)) := by
  cases hn : s.next s.tail with
  | none =>
    by_cases ht : s.tail = .stub
    · simp [PopPc.afterRead, ht, PopOk]
    · simp only [PopPc.afterRead, ht, if_false]
      exact ⟨rfl, ht⟩
  | some nx =>
    by_cases ht : s.tail = .stub
    · have hr := h.rest_head hn
      simp only [PopPc.afterRead, ht, if_true]
      rw [ht] at hn
      exact ⟨rfl, hr, hn⟩
    · simp only [PopPc.afterRead, ht, if_false]
      exact h.popOk_advance ht hn

theorem Shape.popOk_afterSkip (h : Shape s rest) (ht : s.tail ≠ .stub) :
    PopOk s.tail s.next rest (PopPc.afterSkip s.tail (s.next s.tail)) := by
  cases hn : s.next s.tail with
  | none => exact ⟨rfl, ht⟩
  | some nx => exact h.popOk_advance ht hn

theorem Shape.popOk_afterStub (h : Shape s rest) (ht : s.tail ≠ .stub) :
    PopOk s.tail s.next rest (PopPc.afterStub s.tail (s.next s.tail)) := by
  cases hn : s.next s.tail with
  | none => trivial
  | some nx => exact h.popOk_advance ht hn

/-- `tail == head` after a null `next`: the chain is `tail` alone, so the stub is off it. -/
theorem Shape.popOk_readHead (h : Shape s rest) (ht : s.tail ≠ .stub) :
    PopOk s.tail s.next rest (if s.tail = s.head then .stubStore s.tail else .idle) := by
  by_cases hh : s.tail = s.head
  · rw [if_pos hh, h.rest_nil hh]
    exact ⟨rfl, ht, List.not_mem_nil⟩
  · rw [if_neg hh]
    trivial

end Reads

/-! ### What a store to `prev->next` keeps

`prev->next = n` in a push and `prev->next = &stub` in the consumer's push of
the stub both store the pending link of a pair of neighbours. -/

section Stores

variable {s : State α P} {rest : List (Addr α)}

theorem Shape.head_ne_of_adj (h : Shape s rest) {x y : Addr α} (hxy : Adj (s.tail :: rest) x y) :
    s.head ≠ x := by
  rintro rfl
  exact hxy.not_getLast h.nodup h.last

theorem Shape.links_update (h : Shape s rest) {prev y : Addr α} (hy : Adj (s.tail :: rest) prev y)
    {push' : P → PushPc α} {pop' : PopPc α}
    (hpend : ∀ x z, x ≠ prev → Pending s.push s.pop x z → Pending push' pop' x z) (x z : Addr α)
    (hxz : Adj (s.tail :: rest) x z) :
    Function.update s.next prev (some y) x = some z ∨
      (Function.update s.next prev (some y) x = none ∧ Pending push' pop' x z) := by
  by_cases hx : x = prev
  · subst hx
    rw [Adj.right_unique h.nodup hxz hy, Function.update_self]
    exact Or.inl rfl
  · rw [Function.update_of_ne hx]
    rcases h.links x z hxz with hl | ⟨hl, hp⟩
    · exact Or.inl hl
    · exact Or.inr ⟨hl, hpend x z hx hp⟩

theorem Shape.pushOk_update (h : Shape s rest) {prev y : Addr α} (hy : Adj (s.tail :: rest) prev y)
    {pc : PushPc α} (hpc : PushOk s.next s.held (s.tail :: rest) pc)
    (hm : ∀ m, pc.node = some m → y ≠ .node m) :
    PushOk (Function.update s.next prev (some y)) s.held (s.tail :: rest) pc := by
  cases pc with
  | idle => trivial
  | xchg m =>
    obtain ⟨hmC, hnext, hheld⟩ := hpc
    have hne : Addr.node m ≠ prev := fun he => hmC (he ▸ hy.mem_left)
    exact ⟨hmC, by rw [Function.update_of_ne hne, hnext], hheld⟩
  | link prev' m =>
    obtain ⟨hadj, hnext, hheld⟩ := hpc
    have hne : prev' ≠ prev := by
      rintro rfl
      exact hm m rfl (Adj.right_unique h.nodup hy hadj)
    exact ⟨hadj, by rw [Function.update_of_ne hne, hnext], hheld⟩

end Stores

/-! ### The producers' steps -/

section Producers

variable [DecidableEq P] {s : State α P} {rest : List (Addr α)}

omit [DecidableEq α] in
theorem PopOk.frame {tail : Addr α} {next next' : Addr α → Option (Addr α)} {c : PopPc α}
    (hc : PopOk tail next rest c) (hnext : ∀ x ∈ tail :: rest, next' x = next x)
    (hstub : next' .stub = next .stub) : PopOk tail next' rest c := by
  cases c with
  | skipStub nx => exact ⟨hc.1, hc.2.1, hstub ▸ hc.2.2⟩
  | advance t nx =>
    obtain ⟨rfl, ht, hr, hn⟩ := hc
    exact ⟨rfl, ht, hr, (hnext t List.mem_cons_self).trans hn⟩
  | stubXchg t => exact ⟨hc.1, hc.2.1, hc.2.2.1, hstub ▸ hc.2.2.2⟩
  | stubLink t prev =>
    obtain ⟨ht, hts, hadj, hn⟩ := hc
    exact ⟨ht, hts, hadj, (hnext prev hadj.mem_left).trans hn⟩
  | _ => exact hc

omit [DecidableEq α] in
theorem PopOk.concat {tail z : Addr α} {next : Addr α → Option (Addr α)} {c : PopPc α}
    (hc : PopOk tail next rest c) (hz : z ≠ .stub) : PopOk tail next (rest ++ [z]) c := by
  have hsz : Addr.stub ∉ rest ++ [z] ↔ Addr.stub ∉ rest := by simp [Ne.symm hz]
  cases c with
  | skipStub nx => exact ⟨hc.1, by rw [List.head?_append, hc.2.1]; rfl, hc.2.2⟩
  | advance t nx => exact ⟨hc.1, hc.2.1, by rw [List.head?_append, hc.2.2.1]; rfl, hc.2.2.2⟩
  | stubStore t => exact ⟨hc.1, hc.2.1, hsz.mpr hc.2.2⟩
  | stubXchg t => exact ⟨hc.1, hc.2.1, hsz.mpr hc.2.2.1, hc.2.2.2⟩
  | stubLink t prev => exact ⟨hc.1, hc.2.1, adj_concat_iff.mpr (Or.inl hc.2.2.1), hc.2.2.2⟩
  | _ => exact hc

omit [DecidableEq α] in
theorem PushOk.concat {next : Addr α → Option (Addr α)} {held : α → Bool} {C : List (Addr α)}
    {z : Addr α} {pc : PushPc α} (hc : PushOk next held C pc)
    (hz : ∀ m, pc.node = some m → z ≠ .node m) : PushOk next held (C ++ [z]) pc := by
  cases pc with
  | idle => trivial
  | xchg m =>
    have hzm := hz m rfl
    exact ⟨by simpa [Ne.symm hzm] using hc.1, hc.2⟩
  | link prev m => exact ⟨adj_concat_iff.mpr (Or.inl hc.1), hc.2⟩

theorem Shape.pushStore (h : Shape s rest) {p : P} {n : α} (hp : s.push p = .idle)
    (hn : s.held n = true) :
    Shape { s with next := Function.update s.next (.node n) none,
                   push := Function.update s.push p (.xchg n),
                   held := Function.update s.held n false } rest := by
  obtain ⟨hnC, hnP⟩ := h.held n hn
  have hoff : ∀ x ∈ s.tail :: rest, Function.update s.next (.node n) none x = s.next x :=
    fun x hx => Function.update_of_ne (fun he : x = .node n => hnC (he ▸ hx)) _ _
  have hother : ∀ q, q ≠ p → ∀ m, (s.push q).node = some m → m ≠ n :=
    fun q _ m hm he => hnP q (he ▸ hm)
  refine ⟨h.last, h.nodup, ?_, ?_, h.history, ?_, ?_, ?_, ?_⟩
  · intro x y hxy
    simp only [hoff x hxy.mem_left]
    rcases h.links x y hxy with hl | ⟨hl, ⟨q, m, hq, rfl⟩ | hc⟩
    · exact Or.inl hl
    · have hqp : q ≠ p := fun he => by rw [he, hp] at hq; cases hq
      exact Or.inr ⟨hl, Or.inl ⟨q, m, by rw [Function.update_of_ne hqp, hq], rfl⟩⟩
    · exact Or.inr ⟨hl, Or.inr hc⟩
  · exact (hoff _ h.head_mem).trans h.headNext
  · intro q
    by_cases hqp : q = p
    · subst hqp
      simp only [Function.update_self]
      exact ⟨hnC, Function.update_self _ _ _, Function.update_self _ _ _⟩
    · simp only [Function.update_of_ne hqp]
      have hok := h.push q
      cases hpc : s.push q with
      | idle => trivial
      | xchg m =>
        rw [hpc] at hok
        have hm : m ≠ n := hother q hqp m (by rw [hpc]; rfl)
        refine ⟨hok.1, ?_, ?_⟩
        · rw [Function.update_of_ne (fun he => hm (Addr.node.inj he)), hok.2.1]
        · rw [Function.update_of_ne hm, hok.2.2]
      | link prev m =>
        rw [hpc] at hok
        have hm : m ≠ n := hother q hqp m (by rw [hpc]; rfl)
        exact ⟨hok.1, (hoff prev hok.1.mem_left).trans hok.2.1,
          by rw [Function.update_of_ne hm, hok.2.2]⟩
  · intro q q' m hqq'
    by_cases hq : q = p <;> by_cases hq' : q' = p
    · exact absurd (hq.trans hq'.symm) hqq'
    · subst hq
      simp only [Function.update_self, Function.update_of_ne hq', PushPc.node, Option.some.injEq]
      rintro rfl
      exact hnP q'
    · subst hq'
      simp only [Function.update_self, Function.update_of_ne hq, PushPc.node]
      intro hm he
      exact hother q hq m hm (Option.some.inj he).symm
    · simp only [Function.update_of_ne hq, Function.update_of_ne hq']
      exact h.pushDistinct q q' m hqq'
  · intro a (ha : Function.update s.held n false a = true)
    have han : a ≠ n := fun he => by simp [he] at ha
    rw [Function.update_of_ne han] at ha
    refine ⟨(h.held a ha).1, fun q => ?_⟩
    by_cases hqp : q = p
    · subst hqp
      simp only [Function.update_self, PushPc.node, ne_eq, Option.some.injEq]
      exact fun he => han he.symm
    · simp only [Function.update_of_ne hqp]
      exact (h.held a ha).2 q
  · exact h.pop.frame hoff (by simp)

theorem Shape.pushXchg (h : Shape s rest) {p : P} {n : α} (hp : s.push p = .xchg n) :
    Shape { s with head := .node n, push := Function.update s.push p (.link s.head n),
                   pushed := s.pushed ++ [(p, n)] } (rest ++ [.node n]) := by
  have hok := h.push p
  rw [hp] at hok
  obtain ⟨hnC, hnext, hheld⟩ := hok
  have hC : s.tail :: (rest ++ [Addr.node n]) = (s.tail :: rest) ++ [.node n] := rfl
  have hnode : ∀ q, (Function.update s.push p (.link s.head n) q).node = (s.push q).node := by
    intro q
    by_cases hq : q = p
    · subst hq
      simp [hp, PushPc.node]
    · rw [Function.update_of_ne hq]
  refine ⟨?_, ?_, ?_, hnext, ?_, ?_, ?_, ?_, h.pop.concat (by simp)⟩
  · dsimp only
    rw [hC, List.getLast?_concat]
  · dsimp only
    rw [hC, ← List.concat_eq_append, List.nodup_concat]
    exact ⟨hnC, h.nodup⟩
  · intro x y hxy
    dsimp only at hxy ⊢
    rw [hC, adj_concat_iff] at hxy
    rcases hxy with hxy | ⟨hx, rfl⟩
    · rcases h.links x y hxy with hl | ⟨hl, ⟨q, m, hq, rfl⟩ | hc⟩
      · exact Or.inl hl
      · have hqp : q ≠ p := fun he => by rw [he, hp] at hq; cases hq
        exact Or.inr ⟨hl, Or.inl ⟨q, m, by rw [Function.update_of_ne hqp, hq], rfl⟩⟩
      · exact Or.inr ⟨hl, Or.inr hc⟩
    -- the new pair `head, n`: the producer's `prev->next = n` is pending
    · rw [h.last, Option.some.injEq] at hx
      subst hx
      exact Or.inr ⟨h.headNext, Or.inl ⟨p, n, Function.update_self _ _ _, rfl⟩⟩
  · dsimp only
    rw [hC, List.map_append, h.history, List.filter_append]
    simp
  · intro q
    dsimp only
    rw [hC]
    by_cases hq : q = p
    · subst hq
      rw [Function.update_self]
      exact ⟨adj_concat_iff.mpr (Or.inr ⟨h.last, rfl⟩), h.headNext, hheld⟩
    · rw [Function.update_of_ne hq]
      refine (h.push q).concat fun m hm he => ?_
      exact h.pushDistinct p q n (Ne.symm hq) (by rw [hp]; rfl) (by rw [hm, Addr.node.inj he])
  · intro q q' m hqq'
    dsimp only
    rw [hnode, hnode]
    exact h.pushDistinct q q' m hqq'
  · intro a ha
    dsimp only at ha ⊢
    have han : a ≠ n := fun he => by rw [he, hheld] at ha; cases ha
    refine ⟨?_, fun q => by rw [hnode]; exact (h.held a ha).2 q⟩
    rw [hC]
    simpa [han] using (h.held a ha).1

theorem Shape.pushLink (h : Shape s rest) {p : P} {prev : Addr α} {n : α}
    (hp : s.push p = .link prev n) :
    Shape { s with next := Function.update s.next prev (some (.node n)),
                   push := Function.update s.push p .idle } rest := by
  have hok := h.push p
  rw [hp] at hok
  obtain ⟨hadj, hnext, hheld⟩ := hok
  have hoff : ∀ x, s.next x ≠ none → Function.update s.next prev (some (.node n)) x = s.next x :=
    fun x hx => Function.update_of_ne (fun he => hx (by rw [he]; exact hnext)) _ _
  refine ⟨h.last, h.nodup, ?_, ?_, h.history, ?_, ?_, ?_, ?_⟩
  · refine h.links_update hadj fun x z hx hpd => ?_
    rcases hpd with ⟨q, m, hq, rfl⟩ | hc
    · have hqp : q ≠ p := by
        rintro rfl
        rw [hp] at hq
        cases hq
        exact hx rfl
      exact Or.inl ⟨q, m, (Function.update_of_ne hqp _ _).trans hq, rfl⟩
    · exact Or.inr hc
  · dsimp only
    rw [Function.update_of_ne (h.head_ne_of_adj hadj)]
    exact h.headNext
  · intro q
    dsimp only
    by_cases hq : q = p
    · subst hq
      rw [Function.update_self]
      trivial
    · rw [Function.update_of_ne hq]
      refine h.pushOk_update hadj (h.push q) fun m hm he => ?_
      exact h.pushDistinct p q n (Ne.symm hq) (by rw [hp]; rfl) (by rw [hm, Addr.node.inj he])
  · intro q q' m hqq' hm
    dsimp only at hm ⊢
    by_cases hq : q = p
    · subst hq
      simp [PushPc.node] at hm
    rw [Function.update_of_ne hq] at hm
    by_cases hq' : q' = p
    · subst hq'
      simp [PushPc.node]
    rw [Function.update_of_ne hq']
    exact h.pushDistinct q q' m hqq' hm
  · intro a ha
    refine ⟨(h.held a ha).1, fun q => ?_⟩
    dsimp only
    by_cases hq : q = p
    · subst hq
      simp [PushPc.node]
    rw [Function.update_of_ne hq]
    exact (h.held a ha).2 q
  · have hpop := h.pop
    dsimp only
    cases hc : s.pop with
    | skipStub nx =>
      rw [hc] at hpop
      obtain ⟨ht, hr, hn⟩ := hpop
      exact ⟨ht, hr, by rw [hoff _ (by simp [hn]), hn]⟩
    | advance t nx =>
      rw [hc] at hpop
      obtain ⟨ht, hts, hr, hn⟩ := hpop
      exact ⟨ht, hts, hr, by rw [hoff _ (by simp [hn]), hn]⟩
    | stubXchg t =>
      rw [hc] at hpop
      obtain ⟨ht, hts, hsr, hn⟩ := hpop
      -- the stub is off the chain, and `prev` is on it
      have hsp : Addr.stub ≠ prev := by
        rintro rfl
        rcases List.mem_cons.mp hadj.mem_left with he | hm
        · exact hts (ht.trans he.symm)
        · exact hsr hm
      exact ⟨ht, hts, hsr, by rw [Function.update_of_ne hsp, hn]⟩
    | stubLink t prev' =>
      rw [hc] at hpop
      obtain ⟨ht, hts, hadj', hn⟩ := hpop
      have hpp : prev' ≠ prev := by
        rintro rfl
        exact absurd (Adj.right_unique h.nodup hadj' hadj) (by simp)
      exact ⟨ht, hts, hadj', by rw [Function.update_of_ne hpp, hn]⟩
    | _ =>
      rw [hc] at hpop
      exact hpop

end Producers

/-! ### The consumer's writes -/

section Consumer

variable {s : State α P} {rest : List (Addr α)}

omit [DecidableEq α] in
theorem PushOk.drop {next : Addr α → Option (Addr α)} {held held' : α → Bool} {t : Addr α}
    {C : List (Addr α)} {pc : PushPc α} (hc : PushOk next held (t :: C) pc) (hnd : (t :: C).Nodup)
    (ht : next t ≠ none) (hheld : ∀ m, Addr.node m ≠ t → held' m = held m) :
    PushOk next held' C pc := by
  cases pc with
  | idle => trivial
  | xchg m =>
    obtain ⟨hmC, hn, hh⟩ := hc
    have hmt : Addr.node m ≠ t := fun he => hmC (he ▸ List.mem_cons_self)
    exact ⟨fun hm => hmC (List.mem_cons_of_mem _ hm), hn, by rw [hheld m hmt, hh]⟩
  | link prev m =>
    obtain ⟨hadj, hn, hh⟩ := hc
    have hpt : prev ≠ t := fun he => ht (by rw [← he, hn])
    exact ⟨hadj.of_cons_of_ne hpt, hn, by rw [hheld m (hadj.right_ne_head hnd), hh]⟩

omit [DecidableEq α] in
theorem PushOk.frame {next next' : Addr α → Option (Addr α)} {held : α → Bool}
    {C : List (Addr α)} {pc : PushPc α} (hc : PushOk next held C pc)
    (hnext : ∀ x ∈ C, next' x = next x) (hnode : ∀ m, pc.node = some m → next' (.node m) = next (.node m)) :
    PushOk next' held C pc := by
  cases pc with
  | idle => trivial
  | xchg m => exact ⟨hc.1, (hnode m rfl).trans hc.2.1, hc.2.2⟩
  | link prev m => exact ⟨hc.1, (hnext prev hc.1.mem_left).trans hc.2.1, hc.2.2⟩

theorem Shape.popSkipStub (h : Shape s rest) {nx : Addr α} (hc : s.pop = .skipStub nx) :
    Shape { s with tail := nx, pop := .readNextSkip nx } rest.tail := by
  have hpop := h.pop
  rw [hc] at hpop
  obtain ⟨ht, hr, hn⟩ := hpop
  obtain ⟨rest, rfl⟩ := List.head?_eq_some_iff.mp hr
  have hnd := List.nodup_cons.mp h.nodup
  refine ⟨?_, hnd.2, ?_, h.headNext, ?_, fun q => ?_, h.pushDistinct, ?_, ?_⟩
  · rw [← List.getLast?_cons_cons]
    exact h.last
  · intro x y hxy
    rcases h.links x y hxy.cons with hl | ⟨hl, hp⟩
    · exact Or.inl hl
    · exact Or.inr ⟨hl, (pending_iff (by simp)).mpr ((pending_iff (by simp [hc])).mp hp)⟩
  · have hf := h.history
    rw [ht, List.filter_cons_of_neg (by simp)] at hf
    exact hf
  · exact (h.push q).drop h.nodup (by rw [ht, hn]; simp) fun _ _ => rfl
  · intro a ha
    exact ⟨fun hm => (h.held a ha).1 (List.mem_cons_of_mem _ hm), (h.held a ha).2⟩
  · refine ⟨rfl, fun he => hnd.1 ?_⟩
    rw [ht, ← he]
    exact List.mem_cons_self

theorem Shape.popAdvance (h : Shape s rest) {t nx : Addr α} (hc : s.pop = .advance t nx) :
    Shape { s with tail := nx, pop := .idle, popped := s.popped ++ [t],
                   held := release s.held t } rest.tail := by
  have hpop := h.pop
  rw [hc] at hpop
  obtain ⟨rfl, hts, hr, hn⟩ := hpop
  obtain ⟨rest, rfl⟩ := List.head?_eq_some_iff.mp hr
  obtain ⟨a, ha⟩ : ∃ a, s.tail = .node a := by
    cases hta : s.tail with
    | stub => exact absurd hta hts
    | node a => exact ⟨a, rfl⟩
  have hnd := List.nodup_cons.mp h.nodup
  have hrel : ∀ m, m ≠ a → release s.held s.tail m = s.held m := fun m hm => by
    rw [ha, release, Function.update_of_ne hm]
  refine ⟨?_, hnd.2, ?_, h.headNext, ?_, fun q => ?_, h.pushDistinct, ?_, trivial⟩
  · rw [← List.getLast?_cons_cons]
    exact h.last
  · intro x y hxy
    rcases h.links x y hxy.cons with hl | ⟨hl, hp⟩
    · exact Or.inl hl
    · exact Or.inr ⟨hl, (pending_iff (by simp)).mpr ((pending_iff (by simp [hc])).mp hp)⟩
  · have hf := h.history
    rw [List.filter_cons_of_pos (by simpa using hts), ← List.singleton_append,
      ← List.append_assoc] at hf
    exact hf
  · refine (h.push q).drop h.nodup (by rw [hn]; simp) fun m hm => hrel m fun he => hm ?_
    rw [ha, he]
  · intro b hb
    dsimp only at hb
    by_cases hba : b = a
    · subst hba
      refine ⟨fun hm => hnd.1 (ha ▸ hm), fun q hq => h.node_ne_tail hq ha.symm⟩
    · rw [hrel b hba] at hb
      exact ⟨fun hm => (h.held b hb).1 (List.mem_cons_of_mem _ hm), (h.held b hb).2⟩

theorem Shape.popStubStore (h : Shape s rest) {t : Addr α} (hc : s.pop = .stubStore t) :
    Shape { s with next := Function.update s.next .stub none, pop := .stubXchg t } rest := by
  have hpop := h.pop
  rw [hc] at hpop
  obtain ⟨rfl, hts, hsr⟩ := hpop
  have hsC := List.not_mem_cons_of_ne_of_not_mem (Ne.symm hts) hsr
  have hoff : ∀ x ∈ s.tail :: rest, Function.update s.next .stub none x = s.next x :=
    fun x hx => Function.update_of_ne (fun he : x = .stub => hsC (he ▸ hx)) _ _
  refine ⟨h.last, h.nodup, ?_, (hoff _ h.head_mem).trans h.headNext, h.history,
    fun q => (h.push q).frame hoff fun m _ => by simp,
    h.pushDistinct, h.held, rfl, hts, hsr, by simp⟩
  intro x y hxy
  dsimp only
  rw [hoff x hxy.mem_left]
  rcases h.links x y hxy with hl | ⟨hl, hp⟩
  · exact Or.inl hl
  · exact Or.inr ⟨hl, (pending_iff (by simp)).mpr ((pending_iff (by simp [hc])).mp hp)⟩

theorem Shape.popStubXchg (h : Shape s rest) {t : Addr α} (hc : s.pop = .stubXchg t) :
    Shape { s with head := .stub, pop := .stubLink t s.head } (rest ++ [.stub]) := by
  have hpop := h.pop
  rw [hc] at hpop
  obtain ⟨rfl, hts, hsr, hn⟩ := hpop
  have hsC := List.not_mem_cons_of_ne_of_not_mem (Ne.symm hts) hsr
  have hC : s.tail :: (rest ++ [Addr.stub]) = (s.tail :: rest) ++ [.stub] := rfl
  have hlast : Adj (s.tail :: (rest ++ [Addr.stub])) s.head .stub := by
    rw [hC]
    exact adj_concat_iff.mpr (Or.inr ⟨h.last, rfl⟩)
  refine ⟨?_, ?_, ?_, hn, ?_, fun q => ?_, h.pushDistinct, fun a ha => ?_,
    rfl, hts, hlast, h.headNext⟩
  · dsimp only
    rw [hC, List.getLast?_concat]
  · dsimp only
    rw [hC, ← List.concat_eq_append, List.nodup_concat]
    exact ⟨hsC, h.nodup⟩
  · intro x y hxy
    dsimp only at hxy ⊢
    rw [hC, adj_concat_iff] at hxy
    rcases hxy with hxy | ⟨hx, rfl⟩
    · rcases h.links x y hxy with hl | ⟨hl, hp⟩
      · exact Or.inl hl
      · exact Or.inr ⟨hl, Or.inl ((pending_iff (by simp [hc])).mp hp)⟩
    -- the new pair `head, stub`: the consumer's `prev->next = &stub` is pending
    · rw [h.last, Option.some.injEq] at hx
      subst hx
      exact Or.inr ⟨h.headNext, Or.inr ⟨s.tail, rfl, rfl⟩⟩
  · dsimp only
    rw [hC, List.filter_append, h.history]
    simp
  · dsimp only
    rw [hC]
    exact (h.push q).concat fun m _ => by simp
  · dsimp only at ha ⊢
    rw [hC]
    exact ⟨by simpa using (h.held a ha).1, (h.held a ha).2⟩

theorem Shape.popStubLink (h : Shape s rest) {t prev : Addr α} (hc : s.pop = .stubLink t prev) :
    Shape { s with next := Function.update s.next prev (some .stub), pop := .readNextAgain t } rest := by
  have hpop := h.pop
  rw [hc] at hpop
  obtain ⟨rfl, hts, hadj, hn⟩ := hpop
  refine ⟨h.last, h.nodup, ?_, ?_, h.history,
    fun q => h.pushOk_update hadj (h.push q) fun m _ => by simp,
    h.pushDistinct, h.held, rfl, hts⟩
  · refine h.links_update hadj fun x z hx hpd => ?_
    rcases hpd with hp | ⟨t', hc', rfl⟩
    · exact Or.inl hp
    · rw [hc] at hc'
      cases hc'
      exact absurd rfl hx
  · dsimp only
    rw [Function.update_of_ne (h.head_ne_of_adj hadj)]
    exact h.headNext

end Consumer

/-! ### Every run -/

section Runs

variable [DecidableEq P] {s s' : State α P}

/-- **Every step keeps the invariant.** -/
theorem Shape.step {rest : List (Addr α)} (h : Shape s rest) (hs : Step s s') : Inv s' := by
  cases hs with
  | pushStore p n hp hn => exact ⟨rest, h.pushStore hp hn⟩
  | pushXchg p n hp => exact ⟨_, h.pushXchg hp⟩
  | pushLink p prev n hp => exact ⟨rest, h.pushLink hp⟩
  | popStart hc => exact ⟨rest, h.setPop (by simp [hc]) (by simp) rfl⟩
  | popReadNext t hc =>
    have ht : t = s.tail := by simpa [hc, PopOk] using h.pop
    subst ht
    exact ⟨rest, h.setPop (by simp [hc]) (PopPc.afterRead_ne_stubLink _ _) h.popOk_afterRead⟩
  | popSkipStub nx hc => exact ⟨_, h.popSkipStub hc⟩
  | popReadNextSkip t hc =>
    have ht : t = s.tail ∧ t ≠ .stub := by simpa [hc, PopOk] using h.pop
    obtain ⟨rfl, hts⟩ := ht
    exact ⟨rest, h.setPop (by simp [hc]) (PopPc.afterSkip_ne_stubLink _ _) (h.popOk_afterSkip hts)⟩
  | popAdvance t nx hc => exact ⟨_, h.popAdvance hc⟩
  | popReadHead t hc =>
    have ht : t = s.tail ∧ t ≠ .stub := by simpa [hc, PopOk] using h.pop
    obtain ⟨rfl, hts⟩ := ht
    refine ⟨rest, h.setPop (by simp [hc]) (fun t' x => ?_) (h.popOk_readHead hts)⟩
    split_ifs <;> simp
  | popStubStore t hc => exact ⟨rest, h.popStubStore hc⟩
  | popStubXchg t hc => exact ⟨_, h.popStubXchg hc⟩
  | popStubLink t prev hc => exact ⟨rest, h.popStubLink hc⟩
  | popReadNextAgain t hc =>
    have ht : t = s.tail ∧ t ≠ .stub := by simpa [hc, PopOk] using h.pop
    obtain ⟨rfl, hts⟩ := ht
    exact ⟨rest, h.setPop (by simp [hc]) (PopPc.afterStub_ne_stubLink _ _) (h.popOk_afterStub hts)⟩

/-- **The invariant holds in every reachable state.** -/
theorem reachable_inv {next : Addr α → Option (Addr α)}
    (hs : Relation.ReflTransGen Step (mpscqCreate next) s) : Inv s := by
  induction hs with
  | refl => exact ⟨[], shape_mpscqCreate next⟩
  | tail _ hst ih =>
    obtain ⟨rest, h⟩ := ih
    exact h.step hst

end Runs

end Vyukov
end QueueRate
