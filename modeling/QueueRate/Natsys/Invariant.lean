import QueueRate.Natsys.Aliasing

/-!
# What every interleaving keeps, with a well-built queue

With `Q_SIZE` a power of two, distinct `ThrId()`s among the producers and
among the consumers, below `n_producers` and `n_consumers`, the Natsys
queue is safe: this module states the invariant, `Natsys.Safety` proves it.

A position `h` is *written* once the push that reserved it has stored its
pointer (`Written`: `h < head_` and no push between its fetch-and-add and its
slot write holds `h`), and *read* once the pop that reserved it has loaded its
slot (`Read`). A scan of the producers' heads that has reached `i` with
minimum `min` knows every position below `min` is written, or held by a
producer with id `i` or more (`HeadCovered`); so when it is done, every
position below `last_head_` is written. Dually for the consumers' tails and
`last_tail_`. A producer writes position `h` only once position `h - Q_SIZE`
is read, and a consumer reads `h` only once it is written, so the slot of a
written, unread position holds the pointer pushed there (`Inv.slots`).

What each thread's place and locals say is `ThreadOk`; the facts about the
whole queue are the fields of `Inv`. `Grows` is what no step takes back.

Key definitions: `Written`, `Read`, `HeadCovered`, `TailCovered`, `ptrAt`,
`ThreadOk`, `WellBuilt`, `Inv`, `Grows`.
-/

namespace QueueRate
namespace Natsys

variable {α T : Type*}

namespace Pc

/-- Between the fetch-and-add on `head_` and the slot write. -/
def pendingPush : Pc α → Bool
  | .pushStorePos _ _ | .pushCheck _ | .pushScanStart _ | .pushScan _ _ _ | .pushRecheck _
  | .pushWrite _ => true
  | _ => false

/-- Between the fetch-and-add on `tail_` and the slot read. -/
def pendingPop : Pc α → Bool
  | .popStorePos _ | .popCheck | .popScanStart | .popScan _ _ | .popRecheck | .popRead => true
  | _ => false

/-- In a call of `push`. -/
def inPush : Pc α → Bool
  | .pushFaa _ | .pushReset => true
  | pc => pc.pendingPush

/-- In a call of `pop`, past its fetch-and-add. -/
def holdsTail : Pc α → Bool
  | .popReset _ => true
  | pc => pc.pendingPop

/-- In a call of `pop`. -/
def inPop : Pc α → Bool
  | .popFaa => true
  | pc => pc.holdsTail

theorem inPush_of_pendingPush {pc : Pc α} (h : pc.pendingPush = true) : pc.inPush = true := by
  cases pc <;> first | rfl | exact h

theorem holdsTail_of_pendingPop {pc : Pc α} (h : pc.pendingPop = true) : pc.holdsTail = true := by
  cases pc <;> first | rfl | exact h

theorem inPop_of_holdsTail {pc : Pc α} (h : pc.holdsTail = true) : pc.inPop = true := by
  cases pc <;> first | rfl | exact h

end Pc

/-! ### Positions -/

/-- The push that reserved position `h` has stored its pointer. -/
def Written (s : State α T) (h : ℕ) : Prop :=
  h < s.head ∧ ∀ u, (s.pc u).pendingPush = true → s.reserved u ≠ h

/-- The pop that reserved position `h` has loaded its slot. -/
def Read (s : State α T) (h : ℕ) : Prop :=
  h < s.tail ∧ ∀ u, (s.pc u).pendingPop = true → s.reserved u ≠ h

/-- Position `h` is written, or its push is pending in a producer with id `i`
or more: what a scan of the heads that has reached `i` has not ruled out. -/
def HeadCovered (c : Config T) (s : State α T) (i h : ℕ) : Prop :=
  Written s h ∨ ∃ u, (s.pc u).pendingPush = true ∧ s.reserved u = h ∧ i ≤ c.thrId u

/-- Position `h` is read, or its pop is pending in a consumer with id `i` or more. -/
def TailCovered (c : Config T) (s : State α T) (i h : ℕ) : Prop :=
  Read s h ∨ ∃ u, (s.pc u).pendingPop = true ∧ s.reserved u = h ∧ i ≤ c.thrId u

/-- The pointer the push at position `h` passed. -/
def ptrAt (s : State α T) (h : ℕ) : Option α :=
  Option.map (fun e : T × ℕ × α => e.2.2) s.pushed[h]?

/-! ### What a thread's place says -/

/-- The push at position `reserved t` is `t`'s push of `ptr`, and `t` has
published that position. -/
def PushPub (c : Config T) (s : State α T) (t : T) (ptr : α) : Prop :=
  s.pushed[s.reserved t]? = some (t, s.reserved t, ptr) ∧ (s.thrP (c.thrId t)).head = s.reserved t

/-- `t` has reserved a position below `tail_` and published it. -/
def PopPub (c : Config T) (s : State α T) (t : T) : Prop :=
  s.reserved t < s.tail ∧ (s.thrP (c.thrId t)).tail = s.reserved t

/-- What thread `t`'s place and locals say about the queue: what it has
published, what its scan has seen so far, and what its test found. -/
def ThreadOk (c : Config T) (s : State α T) (t : T) : Pc α → Prop
  | .idle => True
  | .pushFaa _ => (s.thrP (c.thrId t)).head ≤ s.head
  | .pushStorePos ptr pos =>
    s.reserved t = pos ∧ s.pushed[pos]? = some (t, pos, ptr) ∧ (s.thrP (c.thrId t)).head ≤ pos
  | .pushCheck ptr => PushPub c s t ptr
  | .pushScanStart ptr => PushPub c s t ptr
  | .pushScan ptr i min => PushPub c s t ptr ∧ min ≤ s.tail ∧ ∀ h < min, TailCovered c s i h
  | .pushRecheck ptr => PushPub c s t ptr
  | .pushWrite ptr => PushPub c s t ptr ∧ (c.qSize ≤ s.reserved t → Read s (s.reserved t - c.qSize))
  | .pushReset => True
  | .popFaa => (s.thrP (c.thrId t)).tail ≤ s.tail
  | .popStorePos pos => s.reserved t = pos ∧ pos < s.tail ∧ (s.thrP (c.thrId t)).tail ≤ pos
  | .popCheck => PopPub c s t
  | .popScanStart => PopPub c s t
  | .popScan i min => PopPub c s t ∧ min ≤ s.head ∧ ∀ h < min, HeadCovered c s i h
  | .popRecheck => PopPub c s t
  | .popRead => PopPub c s t ∧ Written s (s.reserved t)
  | .popReset ret => s.reserved t < s.tail ∧ ∃ ptr, ret = some ptr ∧ ptrAt s (s.reserved t) = some ptr

/-! ### The invariant -/

/-- A queue built right, for producers `prod` and consumers `cons`: `Q_SIZE`
a power of two, and distinct `ThrId()`s below `n_producers` among the
producers and below `n_consumers` among the consumers. -/
structure WellBuilt (c : Config T) (prod cons : T → Prop) : Prop where
  pow : ∃ n, c.qSize = 2 ^ n
  prodLt : ∀ t, prod t → c.thrId t < c.nProducers
  consLt : ∀ t, cons t → c.thrId t < c.nConsumers
  prodInj : ∀ t u, prod t → prod u → c.thrId t = c.thrId u → t = u
  consInj : ∀ t u, cons t → cons u → c.thrId t = c.thrId u → t = u

/-- An action taken by a thread in its role: a push by a producer, a pop by a consumer. -/
def Act.Respects (prod cons : T → Prop) : Act α T → Prop
  | .push t _ => prod t
  | .pop t => cons t
  | .next _ => True

/-- What every reachable state keeps, for producers `prod` and consumers `cons`. -/
structure Inv (c : Config T) (prod cons : T → Prop) (s : State α T) : Prop where
  threads : ∀ t, ThreadOk c s t (s.pc t)
  prodRole : ∀ t, (s.pc t).inPush = true → prod t
  consRole : ∀ t, (s.pc t).inPop = true → cons t
  /-- `pushed` lists the positions below `head_` in order -/
  pushedLen : s.pushed.length = s.head
  pushedPos : ∀ h (e : T × ℕ × α), s.pushed[h]? = some e → e.2.1 = h
  lastHeadLe : s.lastHead ≤ s.head
  lastHead : ∀ h < s.lastHead, Written s h
  lastTailLe : s.lastTail ≤ s.tail
  lastTail : ∀ h < s.lastTail, Read s h
  readWritten : ∀ h, Read s h → Written s h
  writtenRead : ∀ h, Written s h → c.qSize ≤ h → Read s (h - c.qSize)
  /-- the slot of a written, unread position holds its pointer -/
  slots : ∀ h, Written s h → ¬ Read s h → s.ptrArray (h % c.qSize) = ptrAt s h
  /-- each pop returned the pointer pushed at its position -/
  popped : ∀ e ∈ s.popped, e.2.1 < s.tail ∧ ∃ ptr, e.2.2 = some ptr ∧ ptrAt s e.2.1 = some ptr
  poppedNodup : (s.popped.map fun e => e.2.1).Nodup
  heldFresh : ∀ t, (s.pc t).holdsTail = true → s.reserved t ∉ s.popped.map fun e => e.2.1
  heldInj : ∀ t u, (s.pc t).holdsTail = true → (s.pc u).holdsTail = true →
    s.reserved t = s.reserved u → t = u

/-- What no step takes back. -/
structure Grows (c : Config T) (s s' : State α T) : Prop where
  head : s.head ≤ s'.head
  tail : s.tail ≤ s'.tail
  pushed : s.pushed <+: s'.pushed
  written : ∀ h, Written s h → Written s' h
  read : ∀ h, Read s h → Read s' h
  headCovered : ∀ i h, HeadCovered c s i h → HeadCovered c s' i h
  tailCovered : ∀ i h, TailCovered c s i h → TailCovered c s' i h

variable {c : Config T} {prod cons : T → Prop}

/-! ### Frames -/

section Frames

variable {s s' : State α T}

theorem getElem?_prefix_eq {l l' : List (T × ℕ × α)} (hl : l <+: l') {h : ℕ} {e : T × ℕ × α}
    (he : l[h]? = some e) : l'[h]? = some e := by
  obtain ⟨r, rfl⟩ := hl
  rw [List.getElem?_append_left (List.getElem?_eq_some_iff.mp he).1]
  exact he

theorem ptrAt_prefix_eq (hl : s.pushed <+: s'.pushed) {h : ℕ} {ptr : α} (he : ptrAt s h = some ptr) :
    ptrAt s' h = some ptr := by
  unfold ptrAt at he ⊢
  obtain ⟨e, he', rfl⟩ := Option.map_eq_some_iff.mp he
  rw [getElem?_prefix_eq hl he']
  rfl

theorem Grows.of_same (hhead : s'.head = s.head) (htail : s'.tail = s.tail) (hpushed : s'.pushed = s.pushed)
    (hres : ∀ u, s'.reserved u = s.reserved u)
    (hflags : ∀ u, (s'.pc u).pendingPush = (s.pc u).pendingPush ∧ (s'.pc u).pendingPop = (s.pc u).pendingPop) :
    Grows c s s' := by
  have hw : ∀ h, Written s h → Written s' h := fun h ⟨hh, hu⟩ =>
    ⟨hhead ▸ hh, fun u hp => (hres u).symm ▸ hu u ((hflags u).1 ▸ hp)⟩
  have hr : ∀ h, Read s h → Read s' h := fun h ⟨hh, hu⟩ =>
    ⟨htail ▸ hh, fun u hp => (hres u).symm ▸ hu u ((hflags u).2 ▸ hp)⟩
  refine ⟨hhead.ge, htail.ge, hpushed ▸ List.prefix_refl _, hw, hr, ?_, ?_⟩
  · rintro i h (hw' | ⟨u, hp, hu, hi⟩)
    · exact .inl (hw h hw')
    · exact .inr ⟨u, (hflags u).1.trans hp, (hres u).trans hu, hi⟩
  · rintro i h (hr' | ⟨u, hp, hu, hi⟩)
    · exact .inl (hr h hr')
    · exact .inr ⟨u, (hflags u).2.trans hp, (hres u).trans hu, hi⟩

theorem PushPub.mono (hg : Grows c s s') {t : T} {ptr : α} (hh : (s'.thrP (c.thrId t)).head = (s.thrP (c.thrId t)).head)
    (hres : s'.reserved t = s.reserved t) (h : PushPub c s t ptr) : PushPub c s' t ptr := by
  obtain ⟨he, hp⟩ := h
  rw [PushPub, hres, hh, hp]
  exact ⟨getElem?_prefix_eq hg.pushed he, rfl⟩

theorem PopPub.mono (hg : Grows c s s') {t : T} (ht : (s'.thrP (c.thrId t)).tail = (s.thrP (c.thrId t)).tail)
    (hres : s'.reserved t = s.reserved t) (h : PopPub c s t) : PopPub c s' t := by
  obtain ⟨hlt, hp⟩ := h
  rw [PopPub, hres, ht, hp]
  exact ⟨lt_of_lt_of_le hlt hg.tail, rfl⟩

/-- **What a thread's place says stays true** through a step of the queue that
keeps its reservation and its published position. -/
theorem ThreadOk.mono (hg : Grows c s s') {t : T} {pc : Pc α}
    (hh : pc.inPush = true → (s'.thrP (c.thrId t)).head = (s.thrP (c.thrId t)).head)
    (ht : pc.inPop = true → (s'.thrP (c.thrId t)).tail = (s.thrP (c.thrId t)).tail)
    (hres : s'.reserved t = s.reserved t) (h : ThreadOk c s t pc) : ThreadOk c s' t pc := by
  cases pc with
  | idle | pushReset => trivial
  | pushFaa ptr =>
    show (s'.thrP (c.thrId t)).head ≤ s'.head
    rw [hh rfl]
    exact le_trans h hg.head
  | pushStorePos ptr pos =>
    obtain ⟨hr, he, hp⟩ := h
    exact ⟨hres.trans hr, getElem?_prefix_eq hg.pushed he, (hh rfl).trans_le hp⟩
  | pushCheck ptr | pushScanStart ptr | pushRecheck ptr => exact PushPub.mono hg (hh rfl) hres h
  | pushScan ptr i min =>
    obtain ⟨hp, hmin, hcov⟩ := h
    exact ⟨PushPub.mono hg (hh rfl) hres hp, le_trans hmin hg.tail,
      fun g hgm => hg.tailCovered i g (hcov g hgm)⟩
  | pushWrite ptr =>
    obtain ⟨hp, hread⟩ := h
    refine ⟨PushPub.mono hg (hh rfl) hres hp, fun hq => ?_⟩
    rw [hres] at hq ⊢
    exact hg.read _ (hread hq)
  | popFaa =>
    show (s'.thrP (c.thrId t)).tail ≤ s'.tail
    rw [ht rfl]
    exact le_trans h hg.tail
  | popStorePos pos =>
    obtain ⟨hr, hlt, hp⟩ := h
    exact ⟨hres.trans hr, lt_of_lt_of_le hlt hg.tail, (ht rfl).trans_le hp⟩
  | popCheck | popScanStart | popRecheck => exact PopPub.mono hg (ht rfl) hres h
  | popScan i min =>
    obtain ⟨hp, hmin, hcov⟩ := h
    exact ⟨PopPub.mono hg (ht rfl) hres hp, le_trans hmin hg.head,
      fun g hgm => hg.headCovered i g (hcov g hgm)⟩
  | popRead =>
    obtain ⟨hp, hw⟩ := h
    refine ⟨PopPub.mono hg (ht rfl) hres hp, ?_⟩
    rw [hres]
    exact hg.written _ hw
  | popReset ret =>
    obtain ⟨hlt, ptr, hret, hptr⟩ := h
    refine ⟨?_, ptr, hret, ?_⟩
    · show s'.reserved t < s'.tail
      rw [hres]
      exact lt_of_lt_of_le hlt hg.tail
    · show ptrAt s' (s'.reserved t) = some ptr
      rw [hres]
      exact ptrAt_prefix_eq hg.pushed hptr

end Frames

/-! ### Facts every invariant state has -/

section Facts

variable {s : State α T} (h : Inv c prod cons s)
include h

theorem Inv.ptrAt_isSome {g : ℕ} (hg : g < s.head) : ∃ ptr, ptrAt s g = some ptr := by
  have hlen : g < s.pushed.length := h.pushedLen ▸ hg
  exact ⟨_, by rw [ptrAt, List.getElem?_eq_getElem hlen]; rfl⟩

theorem Inv.pushed_of_pendingPush {t : T} (ht : (s.pc t).pendingPush = true) :
    ∃ ptr, s.pushed[s.reserved t]? = some (t, s.reserved t, ptr) := by
  have hok := h.threads t
  generalize s.pc t = pc at hok ht
  cases pc with
  | pushStorePos ptr pos =>
    obtain ⟨hr, he, -⟩ := hok
    exact ⟨ptr, by rw [hr]; exact he⟩
  | pushCheck ptr | pushScanStart ptr | pushRecheck ptr => exact ⟨ptr, hok.1⟩
  | pushScan ptr _ _ | pushWrite ptr => exact ⟨ptr, hok.1.1⟩
  | _ => cases ht

theorem Inv.pendingPush_lt {t : T} (ht : (s.pc t).pendingPush = true) : s.reserved t < s.head := by
  obtain ⟨ptr, he⟩ := h.pushed_of_pendingPush ht
  rw [← h.pushedLen]
  exact (List.getElem?_eq_some_iff.mp he).1

theorem Inv.pendingPush_unique {t u : T} (ht : (s.pc t).pendingPush = true) (hu : (s.pc u).pendingPush = true)
    (hr : s.reserved t = s.reserved u) : t = u := by
  obtain ⟨p, hp⟩ := h.pushed_of_pendingPush ht
  obtain ⟨q, hq⟩ := h.pushed_of_pendingPush hu
  rw [hr, hq] at hp
  exact (Prod.mk.inj (Option.some.inj hp)).1.symm

/-- A position written `Q_SIZE` or more below a written one has been read:
each slot is reused only once its last position is read. -/
theorem Inv.read_of_written {g : ℕ} :
    ∀ k, Written s (g + (k + 1) * c.qSize) → Read s g := by
  intro k
  induction k with
  | zero =>
    intro hw
    have hr := h.writtenRead _ hw (by omega)
    rwa [Nat.zero_add, Nat.one_mul, Nat.add_sub_cancel] at hr
  | succ k ih =>
    intro hw
    have hr := h.writtenRead _ hw (by rw [Nat.succ_mul]; omega)
    apply ih
    apply h.readWritten
    rwa [Nat.succ_mul, ← Nat.add_assoc, Nat.add_sub_cancel] at hr

end Facts

end Natsys
end QueueRate
