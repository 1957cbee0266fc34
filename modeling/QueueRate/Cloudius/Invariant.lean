import QueueRate.Cloudius.Model

/-!
# What every interleaving keeps

Three null-terminated chains hold the items on the queue: the one from
`pushlist`, newest first (`S`); the one from `poplist`, oldest first (`L`);
and, while the consumer is in its reversal loop, the rest of the chain it
took from `pushlist`, from its local `r`, newest first (`R`). Read oldest
first, the delivered items and then `R`, `L` and `S` are the successful
pushes in the order of their CAS (`Shape.history`). A producer's item is on
no chain, and once its store is done its `next` field holds its `old`; the
items the client holds are nobody else's.

`Shape` holds initially (`shape_queueMpsc`) and every `Step` keeps it
(`Shape.step`), so it holds in every reachable state (`reachable_inv`).
-/

namespace QueueRate
namespace Cloudius

open Linked

variable {α P : Type*} [DecidableEq α]

/-- What a producer's locals say, given the items `Q` on the queue's chains. -/
def PushOk (next : α → Option α) (held : α → Bool) (Q : List α) : PushPc α → Prop
  | .idle => True
  | .store n _ => n ∉ Q ∧ held n = false
  | .cas n old => n ∉ Q ∧ next n = old ∧ held n = false

/-- What the consumer's locals say: `R` is the chain it is reversing. -/
def PopOk (next : α → Option α) (poplist : Option α) (R : List α) : PopPc α → Prop
  | .idle => R = []
  | .exchange _ => R = [] ∧ poplist = none
  | .reverse _ r => Path next (some r) R none

/-- The shape of the queue: the chains `S`, `L` and `R` and what hangs on them. -/
structure Shape (s : State α P) (S L R : List α) : Prop where
  pushChain : Path s.next s.pushlist S none
  popChain : Path s.next s.poplist L none
  nodup : (R ++ L ++ S).Nodup
  /-- every successful push was delivered, or is on a chain -/
  history : s.casOrder.map Prod.snd = s.delivered ++ R.reverse ++ L ++ S.reverse
  push : ∀ p, PushOk s.next s.held (R ++ L ++ S) (s.push p)
  pushDistinct : ∀ p q n, p ≠ q → (s.push p).item = some n → (s.push q).item ≠ some n
  /-- an item the client holds is nobody else's -/
  held : ∀ a, s.held a = true → a ∉ R ++ L ++ S ∧ ∀ p, (s.push p).item ≠ some a
  pop : PopOk s.next s.poplist R s.pop

/-- The invariant: the queue has a shape. -/
def Inv (s : State α P) : Prop := ∃ S L R, Shape s S L R

omit [DecidableEq α] in
theorem shape_queueMpsc (next : α → Option α) : Shape (queueMpsc (P := P) next) [] [] [] where
  pushChain := .nil _
  popChain := .nil _
  nodup := List.nodup_nil
  history := rfl
  push := fun _ => trivial
  pushDistinct := fun _ _ _ _ h => by simp [queueMpsc, PushPc.item] at h
  held := fun _ _ => ⟨List.not_mem_nil, fun _ => by simp [queueMpsc, PushPc.item]⟩
  pop := rfl

/-! ### Locals under a change of the rest of the state -/

section Frames

variable {s : State α P} {S L R : List α}

omit [DecidableEq α] in
theorem PushOk.congr {next next' : α → Option α} {held held' : α → Bool} {Q Q' : List α}
    {pc : PushPc α} (hc : PushOk next held Q pc)
    (hn : ∀ m, pc.item = some m → (m ∈ Q' → m ∈ Q) ∧ next' m = next m ∧ held' m = held m) :
    PushOk next' held' Q' pc := by
  cases pc with
  | idle => trivial
  | store m old =>
    obtain ⟨hQ, -, hh⟩ := hn m rfl
    exact ⟨fun h => hc.1 (hQ h), hh.trans hc.2⟩
  | cas m old =>
    obtain ⟨hQ, hnx, hh⟩ := hn m rfl
    exact ⟨fun h => hc.1 (hQ h), hnx.trans hc.2.1, hh.trans hc.2.2⟩

omit [DecidableEq α] in
theorem PushOk.item_not_mem {next : α → Option α} {held : α → Bool} {Q : List α} {pc : PushPc α}
    (hc : PushOk next held Q pc) {m : α} (hm : pc.item = some m) : m ∉ Q := by
  cases pc with
  | idle => cases hm
  | store n old =>
    cases hm
    exact hc.1
  | cas n old =>
    cases hm
    exact hc.1

omit [DecidableEq α] in
theorem Shape.item_not_mem (h : Shape s S L R) {p : P} {m : α} (hm : (s.push p).item = some m) :
    m ∉ R ++ L ++ S :=
  (h.push p).item_not_mem hm

theorem PopOk.frame {next : α → Option α} {poplist : Option α} {c : PopPc α}
    (hc : PopOk next poplist R c) {a : α} (ha : a ∉ R) (v : Option α) :
    PopOk (Function.update next a v) poplist R c := by
  cases c with
  | reverse all r => exact Path.frame hc ha v
  | _ => exact hc

theorem Shape.pushOk_release (h : Shape s S L R) {D Q' : List α} (hQ : R ++ L ++ S = D ++ Q')
    {next' : α → Option α} (hnext : ∀ m, m ∉ R ++ L ++ S → next' m = s.next m) (p : P) :
    PushOk next' (release s.held D) Q' (s.push p) := by
  refine (h.push p).congr fun m hm => ⟨fun h' => ?_, hnext m (h.item_not_mem hm), ?_⟩
  · rw [hQ]
    exact List.mem_append_right _ h'
  · have hD : m ∉ D := fun h' => h.item_not_mem hm (by rw [hQ]; exact List.mem_append_left _ h')
    simp [release, hD]

theorem Shape.held_release (h : Shape s S L R) {D Q' : List α} (hQ : R ++ L ++ S = D ++ Q')
    (a : α) (ha : release s.held D a = true) : a ∉ Q' ∧ ∀ p, (s.push p).item ≠ some a := by
  have hnd := h.nodup
  rw [hQ] at hnd
  unfold release at ha
  rcases Bool.or_eq_true_iff.mp ha with ha | ha
  · obtain ⟨haQ, hap⟩ := h.held a ha
    rw [hQ] at haQ
    exact ⟨fun h' => haQ (List.mem_append_right _ h'), hap⟩
  · have haD : a ∈ D := of_decide_eq_true ha
    refine ⟨fun h' => List.disjoint_of_nodup_append hnd haD h', fun p hp => ?_⟩
    exact h.item_not_mem hp (by rw [hQ]; exact List.mem_append_left _ haD)

end Frames

/-! ### The producers' steps -/

section Producers

variable [DecidableEq P] {s : State α P} {S L R : List α}

theorem Shape.pushLoad (h : Shape s S L R) {p : P} {n : α} (hp : s.push p = .idle)
    (hn : s.held n = true) :
    Shape { s with push := Function.update s.push p (.store n s.pushlist),
                   held := Function.update s.held n false } S L R := by
  obtain ⟨hnQ, hnP⟩ := h.held n hn
  have hother : ∀ q m, (s.push q).item = some m → m ≠ n := fun q m hm he => hnP q (he ▸ hm)
  refine ⟨h.pushChain, h.popChain, h.nodup, h.history, fun q => ?_, ?_, ?_, h.pop⟩
  · dsimp only
    by_cases hq : q = p
    · subst hq
      rw [Function.update_self]
      exact ⟨hnQ, Function.update_self _ _ _⟩
    · rw [Function.update_of_ne hq]
      exact (h.push q).congr fun m hm =>
        ⟨id, rfl, Function.update_of_ne (hother q m hm) _ _⟩
  · intro q q' m hqq' hm
    dsimp only at hm ⊢
    by_cases hq : q = p
    · subst hq
      rw [Function.update_self] at hm
      cases hm
      rw [Function.update_of_ne (Ne.symm hqq')]
      exact hnP q'
    · rw [Function.update_of_ne hq] at hm
      by_cases hq' : q' = p
      · subst hq'
        rw [Function.update_self]
        exact fun he => hother q m hm (Option.some.inj he).symm
      · rw [Function.update_of_ne hq']
        exact h.pushDistinct q q' m hqq' hm
  · intro a ha
    dsimp only at ha ⊢
    have han : a ≠ n := by
      rintro rfl
      simp at ha
    rw [Function.update_of_ne han] at ha
    refine ⟨(h.held a ha).1, fun q => ?_⟩
    by_cases hq : q = p
    · subst hq
      rw [Function.update_self]
      exact fun he => han (Option.some.inj he).symm
    · rw [Function.update_of_ne hq]
      exact (h.held a ha).2 q

theorem Shape.pushStore (h : Shape s S L R) {p : P} {n : α} {old : Option α}
    (hp : s.push p = .store n old) :
    Shape { s with next := Function.update s.next n old,
                   push := Function.update s.push p (.cas n old) } S L R := by
  have hok := h.push p
  rw [hp] at hok
  obtain ⟨hnQ, hheld⟩ := hok
  have hnQ' := hnQ
  simp only [List.mem_append, not_or] at hnQ'
  obtain ⟨⟨hnR, hnL⟩, hnS⟩ := hnQ'
  have hitem : ∀ q, (Function.update s.push p (.cas n old) q).item = (s.push q).item := by
    intro q
    by_cases hq : q = p
    · subst hq
      rw [Function.update_self, hp]
      rfl
    · rw [Function.update_of_ne hq]
  refine ⟨h.pushChain.frame hnS old, h.popChain.frame hnL old, h.nodup, h.history,
    fun q => ?_, ?_, ?_, h.pop.frame hnR old⟩
  · dsimp only
    by_cases hq : q = p
    · subst hq
      rw [Function.update_self]
      exact ⟨hnQ, Function.update_self _ _ _, hheld⟩
    · rw [Function.update_of_ne hq]
      refine (h.push q).congr fun m hm => ⟨id, Function.update_of_ne ?_ _ _, rfl⟩
      rintro rfl
      exact h.pushDistinct p q m (Ne.symm hq) (by rw [hp]; rfl) hm
  · intro q q' m hqq'
    dsimp only
    rw [hitem, hitem]
    exact h.pushDistinct q q' m hqq'
  · intro a ha
    refine ⟨(h.held a ha).1, fun q => ?_⟩
    dsimp only
    rw [hitem]
    exact (h.held a ha).2 q

omit [DecidableEq α] in
theorem Shape.pushCas (h : Shape s S L R) {p : P} {n : α} (hp : s.push p = .cas n s.pushlist) :
    Shape { s with pushlist := some n, push := Function.update s.push p .idle,
                   casOrder := s.casOrder ++ [(p, n)] } (n :: S) L R := by
  have hok := h.push p
  rw [hp] at hok
  obtain ⟨hnQ, hnext, hheld⟩ := hok
  refine ⟨?_, h.popChain, ?_, ?_, fun q => ?_, ?_, ?_, h.pop⟩
  · refine path_cons_iff.mpr ⟨rfl, ?_⟩
    rw [hnext]
    exact h.pushChain
  · rw [List.nodup_middle, List.nodup_cons]
    exact ⟨hnQ, h.nodup⟩
  · dsimp only
    rw [List.map_append, h.history]
    simp
  · dsimp only
    by_cases hq : q = p
    · subst hq
      rw [Function.update_self]
      trivial
    · rw [Function.update_of_ne hq]
      refine (h.push q).congr fun m hm => ⟨fun hm' => ?_, rfl, rfl⟩
      have hmn : m ≠ n := by
        rintro rfl
        exact h.pushDistinct p q m (Ne.symm hq) (by rw [hp]; rfl) hm
      rw [List.mem_append, List.mem_cons] at hm'
      rcases hm' with hm' | rfl | hm'
      · exact List.mem_append_left _ hm'
      · exact absurd rfl hmn
      · exact List.mem_append_right _ hm'
  · intro q q' m hqq' hm
    dsimp only at hm ⊢
    by_cases hq : q = p
    · subst hq
      rw [Function.update_self] at hm
      cases hm
    rw [Function.update_of_ne hq] at hm
    by_cases hq' : q' = p
    · subst hq'
      rw [Function.update_self]
      simp [PushPc.item]
    rw [Function.update_of_ne hq']
    exact h.pushDistinct q q' m hqq' hm
  · intro a ha
    dsimp only at ha ⊢
    have han : a ≠ n := by
      rintro rfl
      rw [hheld] at ha
      cases ha
    refine ⟨?_, fun q => ?_⟩
    · have := (h.held a ha).1
      simp only [List.mem_append, List.mem_cons, not_or] at this ⊢
      exact ⟨this.1, han, this.2⟩
    · by_cases hq : q = p
      · subst hq
        rw [Function.update_self]
        simp [PushPc.item]
      · rw [Function.update_of_ne hq]
        exact (h.held a ha).2 q

omit [DecidableEq α] in
theorem Shape.pushCasFail (h : Shape s S L R) {p : P} {n : α} {old : Option α}
    (hp : s.push p = .cas n old) :
    Shape { s with push := Function.update s.push p (.store n s.pushlist) } S L R := by
  have hok := h.push p
  rw [hp] at hok
  have hitem : ∀ q, (Function.update s.push p (.store n s.pushlist) q).item = (s.push q).item := by
    intro q
    by_cases hq : q = p
    · subst hq
      rw [Function.update_self, hp]
      rfl
    · rw [Function.update_of_ne hq]
  refine ⟨h.pushChain, h.popChain, h.nodup, h.history, fun q => ?_, ?_, ?_, h.pop⟩
  · dsimp only
    by_cases hq : q = p
    · subst hq
      rw [Function.update_self]
      exact ⟨hok.1, hok.2.2⟩
    · rw [Function.update_of_ne hq]
      exact h.push q
  · intro q q' m hqq'
    dsimp only
    rw [hitem, hitem]
    exact h.pushDistinct q q' m hqq'
  · intro a ha
    refine ⟨(h.held a ha).1, fun q => ?_⟩
    dsimp only
    rw [hitem]
    exact (h.held a ha).2 q

end Producers

/-! ### The consumer's steps -/

section Consumer

variable {s : State α P} {S L R : List α}

omit [DecidableEq α] in
theorem Shape.popStart (h : Shape s S L R) {all : Bool} (hc : s.pop = .idle)
    (hx : s.poplist = none) : Shape { s with pop := .exchange all } S L R := by
  have hR : R = [] := by
    have := h.pop
    rwa [hc] at this
  exact ⟨h.pushChain, h.popChain, h.nodup, h.history, h.push, h.pushDistinct, h.held, hR, hx⟩

omit [DecidableEq α] in
theorem Shape.popExchangeNull (h : Shape s S L R) {all : Bool} (hc : s.pop = .exchange all) :
    Shape { s with pop := .idle, results := s.results ++ [none] } S L R := by
  have hR : R = [] := by
    have := h.pop
    rw [hc] at this
    exact this.1
  exact ⟨h.pushChain, h.popChain, h.nodup, h.history, h.push, h.pushDistinct, h.held, hR⟩

omit [DecidableEq α] in
theorem Shape.popExchange (h : Shape s S L R) {all : Bool} {r : α} (hc : s.pop = .exchange all)
    (hr : s.pushlist = some r) :
    Shape { s with pushlist := none, pop := .reverse all r } [] [] S := by
  have hpop := h.pop
  rw [hc] at hpop
  obtain ⟨rfl, hx⟩ := hpop
  have hL : L = [] := by
    have := h.popChain
    rw [hx, path_none_iff] at this
    exact this.1
  subst hL
  -- the same items, now on `R`
  have hQ : ∀ a, a ∈ S ++ [] ++ [] ↔ a ∈ [] ++ [] ++ S := by simp
  refine ⟨.nil _, h.popChain, by simpa using h.nodup, by simpa using h.history,
    fun p => (h.push p).congr fun m _ => ⟨(hQ m).mp, rfl, rfl⟩, h.pushDistinct,
    fun a ha => ⟨fun h' => (h.held a ha).1 ((hQ a).mp h'), (h.held a ha).2⟩, ?_⟩
  show Path s.next (some r) S none
  rw [← hr]
  exact h.pushChain

theorem Shape.popReverse (h : Shape s S L R) {all : Bool} {r nx : α} (hc : s.pop = .reverse all r)
    (hn : s.next r = some nx) :
    Shape { s with next := Function.update s.next r s.poplist, poplist := some r,
                   pop := .reverse all nx } S (r :: L) R.tail := by
  have hpop := h.pop
  rw [hc] at hpop
  obtain ⟨R, rfl, hR⟩ := path_some_iff.mp hpop
  rw [hn] at hR
  have hnd := h.nodup
  simp only [List.cons_append, List.nodup_cons, List.mem_append, not_or] at hnd
  obtain ⟨⟨⟨hrR, hrL⟩, hrS⟩, -⟩ := hnd
  -- the same items: `r` moved from `R` to `L`
  have hQ : ∀ a, a ∈ (r :: R).tail ++ r :: L ++ S ↔ a ∈ r :: R ++ L ++ S := by
    intro a
    simp only [List.tail_cons, List.mem_append, List.mem_cons]
    tauto
  refine ⟨h.pushChain.frame hrS _, ?_, ?_, ?_, fun p => ?_, h.pushDistinct,
    fun a ha => ⟨fun h' => (h.held a ha).1 ((hQ a).mp h'), (h.held a ha).2⟩, hR.frame hrR _⟩
  · refine path_cons_iff.mpr ⟨rfl, ?_⟩
    dsimp only
    rw [Function.update_self]
    exact h.popChain.frame hrL _
  · have := h.nodup
    rw [List.tail_cons, List.append_assoc, List.cons_append, List.nodup_middle]
    simpa using this
  · dsimp only
    rw [h.history]
    simp
  · refine (h.push p).congr fun m hm => ⟨(hQ m).mp, Function.update_of_ne ?_ _ _, rfl⟩
    rintro rfl
    exact h.item_not_mem hm (by simp)

theorem Shape.popFinish (h : Shape s S L R) {r : α} (hc : s.pop = .reverse false r)
    (hn : s.next r = none) :
    Shape { s with pop := .idle, delivered := s.delivered ++ [r],
                   results := s.results ++ [some r], held := release s.held [r] } S L [] := by
  have hpop := h.pop
  rw [hc] at hpop
  obtain rfl := hpop.eq_singleton hn
  have hQ : [r] ++ L ++ S = [r] ++ ([] ++ L ++ S) := rfl
  refine ⟨h.pushChain, h.popChain, by simpa using (List.nodup_cons.mp h.nodup).2, ?_,
    h.pushOk_release hQ fun _ _ => rfl, h.pushDistinct, h.held_release hQ, rfl⟩
  dsimp only
  rw [h.history]
  simp

theorem Shape.popList (h : Shape s S L R) {x : α} (hc : s.pop = .idle) (hx : s.poplist = some x) :
    Shape { s with poplist := s.next x, delivered := s.delivered ++ [x],
                   results := s.results ++ [some x], held := release s.held [x] } S L.tail [] := by
  have hR : R = [] := by
    have := h.pop
    rwa [hc] at this
  subst hR
  have hL := h.popChain
  rw [hx] at hL
  obtain ⟨L', rfl, hL'⟩ := path_some_iff.mp hL
  have hQ : [] ++ x :: L' ++ S = [x] ++ ([] ++ (x :: L').tail ++ S) := rfl
  refine ⟨h.pushChain, hL', by simpa using (List.nodup_cons.mp h.nodup).2, ?_,
    h.pushOk_release hQ fun _ _ => rfl, h.pushDistinct, h.held_release hQ, by rw [hc]; rfl⟩
  dsimp only
  rw [h.history]
  simp

theorem Shape.popAllList (h : Shape s S L R) {x : α} {l : List α} (hc : s.pop = .idle)
    (hx : s.poplist = some x) (hl : Path s.next (some x) l none) :
    Shape { s with poplist := none, delivered := s.delivered ++ l,
                   results := s.results ++ [some x], held := release s.held l } S [] [] := by
  have hR : R = [] := by
    have := h.pop
    rwa [hc] at this
  subst hR
  have hL : L = l := by
    rw [← hx] at hl
    exact h.popChain.unique hl
  subst hL
  have hQ : [] ++ L ++ S = L ++ ([] ++ [] ++ S) := by simp
  refine ⟨h.pushChain, .nil _, by simpa using (List.nodup_append.mp h.nodup).2.1, ?_,
    h.pushOk_release hQ fun _ _ => rfl, h.pushDistinct, h.held_release hQ, by rw [hc]; rfl⟩
  dsimp only
  rw [h.history]
  simp

theorem Shape.popAllFinish (h : Shape s S L R) {r : α} {l : List α} (hc : s.pop = .reverse true r)
    (hn : s.next r = none) (hl : Path s.next s.poplist l none) :
    Shape { s with next := Function.update s.next r s.poplist, poplist := none, pop := .idle,
                   delivered := s.delivered ++ r :: l, results := s.results ++ [some r],
                   held := release s.held (r :: l) } S [] [] := by
  have hpop := h.pop
  rw [hc] at hpop
  obtain rfl := hpop.eq_singleton hn
  obtain rfl := h.popChain.unique hl
  have hQ : [r] ++ L ++ S = (r :: L) ++ ([] ++ [] ++ S) := by simp
  have hrS : r ∉ S := fun h' => (List.nodup_cons.mp h.nodup).1 (List.mem_append_right _ h')
  refine ⟨h.pushChain.frame hrS _, .nil _, by simpa using (List.nodup_append.mp h.nodup).2.1, ?_,
    h.pushOk_release hQ fun m hm => Function.update_of_ne (fun he => hm (by simp [he])) _ _,
    h.pushDistinct, h.held_release hQ, rfl⟩
  dsimp only
  rw [h.history]
  simp

end Consumer

/-! ### Every run -/

section Runs

variable [DecidableEq P] {s s' : State α P}

/-- **Every step keeps the invariant.** -/
theorem Shape.step {S L R : List α} (h : Shape s S L R) (hs : Step s s') : Inv s' := by
  cases hs with
  | pushLoad p n hp hn => exact ⟨S, L, R, h.pushLoad hp hn⟩
  | pushStore p n old hp => exact ⟨S, L, R, h.pushStore hp⟩
  | pushCas p n hp => exact ⟨_, L, R, h.pushCas hp⟩
  | pushCasFail p n old hp => exact ⟨S, L, R, h.pushCasFail hp⟩
  | popList x hc hx => exact ⟨S, _, [], h.popList hc hx⟩
  | popAllList x l hc hx hl => exact ⟨S, [], [], h.popAllList hc hx hl⟩
  | popStart all hc hx => exact ⟨S, L, R, h.popStart hc hx⟩
  | popExchangeNull all hc hr => exact ⟨S, L, R, h.popExchangeNull hc⟩
  | popExchange all r hc hr => exact ⟨[], [], S, h.popExchange hc hr⟩
  | popReverse all r nx hc hn => exact ⟨S, _, _, h.popReverse hc hn⟩
  | popFinish r hc hn => exact ⟨S, L, [], h.popFinish hc hn⟩
  | popAllFinish r l hc hn hl => exact ⟨S, [], [], h.popAllFinish hc hn hl⟩

/-- **The invariant holds in every reachable state.** -/
theorem reachable_inv {next : α → Option α}
    (hs : Relation.ReflTransGen Step (queueMpsc next) s) : Inv s := by
  induction hs with
  | refl => exact ⟨[], [], [], shape_queueMpsc next⟩
  | tail _ hst ih =>
    obtain ⟨S, L, R, h⟩ := ih
    exact h.step hst

end Runs

end Cloudius
end QueueRate
