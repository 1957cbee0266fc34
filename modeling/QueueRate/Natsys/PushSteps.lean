import QueueRate.Natsys.Frame

/-!
# Each step of `push` keeps the invariant

One lemma per place of `push`, in the order of `stepPush`: the call
publishes `head_` (`Inv.pushStart`); the fetch-and-add takes the next
position (`Inv.pushFaa`); the store publishes it; the test against
`last_tail_` goes to the slot write only when the position `Q_SIZE` below is
read (`Inv.threadOk_pushWrite`); the scan of the tails covers one more
consumer at each read and stores `last_tail_` at its end; the slot write
stores the pointer in a slot no written, unread position uses
(`Inv.pushWrite`); and the reset publishes `ULONG_MAX`. `Inv.pushStep`
gathers them.
-/

namespace QueueRate
namespace Natsys

open Tickets

variable {α T : Type*} {c : Config T} {prod cons : T → Prop} {s : State α T} {t : T}

theorem pushedPos_concat {l : List (T × ℕ × α)} (hpos : ∀ g (e : T × ℕ × α), l[g]? = some e → e.2.1 = g)
    {x : T × ℕ × α} (hx : x.2.1 = l.length) (g : ℕ) (e : T × ℕ × α) (he : (l ++ [x])[g]? = some e) :
    e.2.1 = g := by
  rcases lt_or_ge g l.length with hg | hg
  · rw [List.getElem?_append_left hg] at he
    exact hpos g e he
  · rw [List.getElem?_append_right hg, List.getElem?_singleton] at he
    split at he
    · cases he
      omega
    · cases he

variable [DecidableEq T]

theorem Inv.pushStart (hw : WellBuilt c prod cons) (h : Inv c prod cons s) (ht : prod t)
    (hpc : s.pc t = .idle) (ptr : α) :
    Inv c prod cons ((s.setHead (c.thrId t) s.head).setPc t (.pushFaa ptr)) :=
  h.setHead_setPc hw ht hpc ⟨rfl, rfl, rfl⟩ rfl (setHead_thrP_head s _ _).le

/-- **The fetch-and-add on `head_`** reserves position `head_` for `t` and
records `t`'s push of `ptr` there. -/
theorem Inv.pushFaa (h : Inv c prod cons s) {ptr : α} (hpc : s.pc t = .pushFaa ptr) :
    Inv c prod cons (stepPush c s t (c.thrId t) (.pushFaa ptr)) := by
  have hok : (s.thrP (c.thrId t)).head ≤ s.head := h.threadOk_of_pc hpc
  have hflags : (s.pc t).pendingPush = false ∧ (s.pc t).pendingPop = false := by
    rw [hpc]
    exact ⟨rfl, rfl⟩
  set s' := stepPush c s t (c.thrId t) (.pushFaa ptr) with hs'
  have hpct : s'.pc t = .pushStorePos ptr s.head := State.setPc_pc_self _ _ _
  have hrest : s'.reserved t = s.head := by simp [hs', stepPush, State.setPc]
  have hm : Moves c t s s' :=
    ⟨fun u hu => State.setPc_pc_of_ne _ _ hu, fun u hu => by simp [hs', stepPush, State.setPc, hu],
      fun _ _ => ⟨fun _ => rfl, fun _ => rfl⟩⟩
  have hW : ∀ g, Written s' g ↔ Written s g := fun g => by
    rw [written_iff_done, written_iff_done]
    exact done_iff_of_take (fun u hu => congrArg Pc.pendingPush (hm.pc u hu)) hm.reserved rfl hflags.1
      (by rw [hpct]; rfl) hrest
  have hR : ∀ g, Read s' g ↔ Read s g := fun g => by
    rw [read_iff_done, read_iff_done]
    exact done_iff_of_idle (fun u hu => congrArg Pc.pendingPop (hm.pc u hu)) hm.reserved rfl hflags.2
      (by rw [hpct]; rfl)
  have hg : Grows c s s' := Grows.of_thread (Nat.le_succ _) le_rfl (List.prefix_append _ _)
    (fun g => (hW g).mpr) (fun g => (hR g).mpr) hm.pc hm.reserved
    (fun hp => by rw [hflags.1] at hp; cases hp) (fun hp => by rw [hflags.2] at hp; cases hp)
  have hheld : (s'.pc t).holdsTail = true → (s.pc t).holdsTail = true ∧ s'.reserved t = s.reserved t := by
    rw [hpct]
    intro hp
    cases hp
  refine h.of_frame hm hg (fun g => (hW g).mp) (fun g hr => (hW g).mpr (h.readWritten g ((hR g).mp hr)))
    rfl rfl rfl ?_ ⟨fun _ => h.prodRole t (by rw [hpc]; rfl), fun hp => by rw [hpct] at hp; cases hp⟩
    ?_ (pushedPos_concat h.pushedPos h.pushedLen.symm) (h.popped_of_grows hg rfl) h.poppedNodup
    (hm.heldFresh h rfl hheld) (hm.heldInj h hheld)
  · -- `t` now holds position `head_`, where its push is recorded
    rw [hpct]
    refine ⟨hrest, ?_, hok⟩
    show (s.pushed ++ [(t, s.head, ptr)])[s.head]? = some (t, s.head, ptr)
    rw [← h.pushedLen, List.getElem?_concat_length]
  · show (s.pushed ++ [(t, s.head, ptr)]).length = s.head + 1
    rw [List.length_append, h.pushedLen, List.length_singleton]

theorem Inv.pushStorePos (hw : WellBuilt c prod cons) (h : Inv c prod cons s) {ptr : α} {pos : ℕ}
    (hpc : s.pc t = .pushStorePos ptr pos) :
    Inv c prod cons (stepPush c s t (c.thrId t) (.pushStorePos ptr pos)) := by
  obtain ⟨hr, he, -⟩ := h.threadOk_of_pc hpc
  refine h.setHead_setPc hw (h.prodRole t (by rw [hpc]; rfl)) hpc ⟨rfl, rfl, rfl⟩ rfl ⟨?_, ?_⟩
  · show s.pushed[s.reserved t]? = some (t, s.reserved t, ptr)
    rw [hr]
    exact he
  · show ((s.setHead (c.thrId t) pos).thrP (c.thrId t)).head = s.reserved t
    rw [setHead_thrP_head, hr]

theorem Inv.threadOk_pushWrite (h : Inv c prod cons s) {pc0 : Pc α} {ptr : α} (hpc : s.pc t = pc0)
    (hpend : pc0.pendingPush = true ∧ pc0.pendingPop = false) (hp : PushPub c s t ptr)
    (hlt : (s.thrP (c.thrId t)).head < s.lastTail + c.qSize) :
    ThreadOk c (s.setPc t (.pushWrite ptr)) t (.pushWrite ptr) := by
  refine ⟨hp, fun hq => ?_⟩
  have hq' : c.qSize ≤ s.reserved t := hq
  have hr : Read s (s.reserved t - c.qSize) := h.lastTail _ (by rw [← hp.2] at hq' ⊢; omega)
  exact (grows_setPc (c := c) (.pushWrite ptr) hpc ⟨hpend.1.symm, hpend.2.symm⟩).1.read _ hr

theorem Inv.pushCheck (h : Inv c prod cons s) {ptr : α} (hpc : s.pc t = .pushCheck ptr) :
    Inv c prod cons (stepPush c s t (c.thrId t) (.pushCheck ptr)) := by
  have hp : PushPub c s t ptr := h.threadOk_of_pc hpc
  rw [stepPush]
  split
  next => exact h.setPc hpc ⟨rfl, rfl, rfl⟩ ⟨rfl, rfl⟩ hp
  next hlt =>
    exact h.setPc hpc ⟨rfl, rfl, rfl⟩ ⟨rfl, rfl⟩ (h.threadOk_pushWrite hpc ⟨rfl, rfl⟩ hp (by omega))

theorem Inv.pushScanStart (h : Inv c prod cons s) {ptr : α} (hpc : s.pc t = .pushScanStart ptr) :
    Inv c prod cons (stepPush c s t (c.thrId t) (.pushScanStart ptr)) := by
  have hp : PushPub c s t ptr := h.threadOk_of_pc hpc
  exact h.setPc hpc ⟨rfl, rfl, rfl⟩ ⟨rfl, rfl⟩ ⟨hp, le_rfl, fun g hg => tailCovered_zero hg⟩

theorem Inv.pushScan (hw : WellBuilt c prod cons) (h : Inv c prod cons s) {ptr : α} {i min : ℕ}
    (hpc : s.pc t = .pushScan ptr i min) :
    Inv c prod cons (stepPush c s t (c.thrId t) (.pushScan ptr i min)) := by
  obtain ⟨hp, hmin, hcov⟩ := h.threadOk_of_pc hpc
  rw [stepPush]
  split
  next =>
    -- the tail of consumer `i` may lower the minimum; one more id is covered
    have hle : (if (s.thrP i).tail < min then (s.thrP i).tail else min) ≤ min := by
      split <;> omega
    refine h.setPc hpc ⟨rfl, rfl, rfl⟩ ⟨rfl, rfl⟩ ⟨hp, hle.trans hmin, fun g hg => ?_⟩
    exact (grows_setPc (.pushScan ptr (i + 1) _) hpc ⟨rfl, rfl⟩).1.tailCovered _ _
      (h.tailCovered_succ (hcov g (lt_of_lt_of_le hg hle)) hg)
  next hi =>
    have hread : ∀ g < min, Read s g := fun g hg => h.read_of_tailCovered hw (not_lt.mp hi) (hcov g hg)
    exact (h.setLastTail hmin hread).setPc hpc ⟨rfl, rfl, rfl⟩ ⟨rfl, rfl⟩ hp

theorem Inv.pushRecheck (h : Inv c prod cons s) {ptr : α} (hpc : s.pc t = .pushRecheck ptr) :
    Inv c prod cons (stepPush c s t (c.thrId t) (.pushRecheck ptr)) := by
  have hp : PushPub c s t ptr := h.threadOk_of_pc hpc
  rw [stepPush]
  split
  next hlt => exact h.setPc hpc ⟨rfl, rfl, rfl⟩ ⟨rfl, rfl⟩ (h.threadOk_pushWrite hpc ⟨rfl, rfl⟩ hp hlt)
  next => exact h.setPc hpc ⟨rfl, rfl, rfl⟩ ⟨rfl, rfl⟩ hp

/-- **The slot write** `ptr_array_[thr_pos().head & Q_MASK] = ptr`: with
`Q_SIZE` a power of two, the slot is that of `t`'s position, and no other
written, unread position has it: the one `Q_SIZE` below is read, and none
above is written. -/
theorem Inv.pushWrite (hw : WellBuilt c prod cons) (h : Inv c prod cons s) {ptr : α}
    (hpc : s.pc t = .pushWrite ptr) :
    Inv c prod cons (stepPush c s t (c.thrId t) (.pushWrite ptr)) := by
  obtain ⟨⟨he, hpub⟩, hbelow⟩ := h.threadOk_of_pc hpc
  have hpend : (s.pc t).pendingPush = true := by rw [hpc]; rfl
  have hpop : (s.pc t).pendingPop = false := by rw [hpc]; rfl
  obtain ⟨n, hn⟩ := hw.pow
  set r := s.reserved t with hr
  set s' := stepPush c s t (c.thrId t) (.pushWrite ptr) with hs'
  have hpct : s'.pc t = .pushReset := State.setPc_pc_self _ _ _
  have hm : Moves c t s s' :=
    ⟨fun u hu => State.setPc_pc_of_ne _ _ hu, fun _ _ => rfl, fun _ _ => ⟨fun _ => rfl, fun _ => rfl⟩⟩
  have hptr : s'.ptrArray = Function.update s.ptrArray (r % c.qSize) (some ptr) := by
    show Function.update s.ptrArray ((s.thrP (c.thrId t)).head &&& c.qMask) (some ptr) = _
    rw [hpub, slot_eq_mod c hn]
  have hW : ∀ g, Written s' g ↔ Written s g ∨ g = r := fun g => by
    rw [written_iff_done, written_iff_done]
    exact done_iff_of_finish (fun u hu => congrArg Pc.pendingPush (hm.pc u hu)) hm.reserved rfl hpend
      (by rw [hpct]; rfl) (h.pendingPush_lt hpend) fun u hu hru => h.pendingPush_unique hu hpend hru
  have hR : ∀ g, Read s' g ↔ Read s g := fun g => by
    rw [read_iff_done, read_iff_done]
    exact done_iff_of_idle (fun u hu => congrArg Pc.pendingPop (hm.pc u hu)) hm.reserved rfl hpop
      (by rw [hpct]; rfl)
  have hg : Grows c s s' := Grows.of_thread le_rfl le_rfl List.prefix_rfl (fun g hwg => (hW g).mpr (.inl hwg))
    (fun g => (hR g).mpr) hm.pc hm.reserved (fun _ => (hW r).mpr (.inr rfl))
    (fun hp => by rw [hpop] at hp; cases hp)
  have hheld : (s'.pc t).holdsTail = true → (s.pc t).holdsTail = true ∧ s'.reserved t = s.reserved t := by
    rw [hpct]
    intro hp
    cases hp
  refine {
    threads := hm.threadOk h hg (by rw [hpct]; trivial)
    prodRole := hm.prodRole h fun _ => h.prodRole t (by rw [hpc]; rfl)
    consRole := hm.consRole h fun hp => by rw [hpct] at hp; cases hp
    pushedLen := h.pushedLen
    pushedPos := h.pushedPos
    lastHeadLe := h.lastHeadLe
    lastHead := fun g hgl => hg.written g (h.lastHead g hgl)
    lastTailLe := h.lastTailLe
    lastTail := fun g hgl => hg.read g (h.lastTail g hgl)
    readWritten := fun g hrd => hg.written g (h.readWritten g ((hR g).mp hrd))
    writtenRead := fun g hwr hq => ?_
    slots := fun g hwr hrd => ?_
    popped := h.popped_of_grows hg rfl
    poppedNodup := h.poppedNodup
    heldFresh := hm.heldFresh h rfl hheld
    heldInj := hm.heldInj h hheld }
  · -- the position `Q_SIZE` below `r` was read before the write
    rcases (hW g).mp hwr with hwg | rfl
    · exact hg.read _ (h.writtenRead g hwg hq)
    · exact hg.read _ (hbelow hq)
  · have hrd' : ¬ Read s g := fun hr' => hrd ((hR g).mpr hr')
    have hat : ptrAt s' g = ptrAt s g := rfl
    rw [hptr, hat]
    rcases (hW g).mp hwr with hwg | rfl
    · -- an older written position has another slot, or it would be read
      rw [Function.update_of_ne]
      · exact h.slots g hwg hrd'
      · intro hmod
        have hgr : g ≠ r := fun e => hwg.2 t hpend e.symm
        rcases lt_or_gt_of_ne hgr with hlt | hlt
        · obtain ⟨k, hk⟩ := exists_add_mul_of_mod_eq hlt hmod
          have hbk : r - c.qSize = g + k * c.qSize := by rw [hk, Nat.add_one_mul]; omega
          exact hrd' (h.read_of_read k (hbk ▸ hbelow (by rw [hk, Nat.add_one_mul]; omega)))
        · obtain ⟨k, hk⟩ := exists_add_mul_of_mod_eq hlt hmod.symm
          have hread : Read s r := h.read_of_written k (hk ▸ hwg)
          exact (h.readWritten r hread).2 t hpend rfl
    · -- the slot of `r` now holds the pointer pushed at `r`
      rw [Function.update_self]
      simp [ptrAt, he]

theorem Inv.pushReset (hw : WellBuilt c prod cons) (h : Inv c prod cons s) (hpc : s.pc t = .pushReset) :
    Inv c prod cons (stepPush c s t (c.thrId t) .pushReset) :=
  h.setHead_setPc hw (h.prodRole t (by rw [hpc]; rfl)) hpc ⟨rfl, rfl, rfl⟩ rfl trivial

/-- **Every step of `push` keeps the invariant.** -/
theorem Inv.pushStep (hw : WellBuilt c prod cons) (h : Inv c prod cons s) {pc : Pc α} (hpc : s.pc t = pc) :
    Inv c prod cons (stepPush c s t (c.thrId t) pc) := by
  cases pc with
  | pushFaa ptr => exact h.pushFaa hpc
  | pushStorePos ptr pos => exact h.pushStorePos hw hpc
  | pushCheck ptr => exact h.pushCheck hpc
  | pushScanStart ptr => exact h.pushScanStart hpc
  | pushScan ptr i min => exact h.pushScan hw hpc
  | pushRecheck ptr => exact h.pushRecheck hpc
  | pushWrite ptr => exact h.pushWrite hw hpc
  | pushReset => exact h.pushReset hw hpc
  | idle | popFaa | popStorePos | popCheck | popScanStart | popScan | popRecheck | popRead | popReset =>
    -- not a place of `push`: `stepPush` leaves the state as it is
    exact h

end Natsys
end QueueRate
