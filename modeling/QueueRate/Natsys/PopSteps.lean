import QueueRate.Natsys.Frame
import Mathlib.Data.List.Nodup

/-!
# Each step of `pop` keeps the invariant

The mirror of `Natsys.PushSteps`, in the order of `stepPop`: the call
publishes `tail_` (`Inv.popStart`); the fetch-and-add takes the next
position, above every position a pop has returned (`Inv.popFaa`); the store
publishes it; the test against `last_head_` goes to the slot read only when
the position is written (`Inv.threadOk_popRead`); the scan of the heads
covers one more producer at each read and stores `last_head_` at its end;
the slot read finds the pointer pushed at the position (`Inv.popRead`); and
the end of `pop` records what it returned (`Inv.popReset`). `Inv.popStep`
gathers them.
-/

namespace QueueRate
namespace Natsys

open Tickets

variable {α T : Type*} [DecidableEq T] {c : Config T} {prod cons : T → Prop} {s : State α T} {t : T}

theorem Inv.popStart (hw : WellBuilt c prod cons) (h : Inv c prod cons s) (ht : cons t)
    (hpc : s.pc t = .idle) :
    Inv c prod cons ((s.setTail (c.thrId t) s.tail).setPc t .popFaa) :=
  h.setTail_setPc hw ht hpc ⟨rfl, rfl, rfl⟩ rfl (setTail_thrP_tail s _ _).le

/-- **The fetch-and-add on `tail_`** reserves position `tail_` for `t`: no
pop has returned it, and no other consumer holds it. -/
theorem Inv.popFaa (h : Inv c prod cons s) (hpc : s.pc t = .popFaa) :
    Inv c prod cons (stepPop c s t (c.thrId t) .popFaa) := by
  have hok : (s.thrP (c.thrId t)).tail ≤ s.tail := h.threadOk_of_pc hpc
  have hflags : (s.pc t).pendingPush = false ∧ (s.pc t).pendingPop = false := by
    rw [hpc]
    exact ⟨rfl, rfl⟩
  set s' := stepPop c s t (c.thrId t) .popFaa with hs'
  have hpct : s'.pc t = .popStorePos s.tail := State.setPc_pc_self _ _ _
  have hrest : s'.reserved t = s.tail := by simp [hs', stepPop, State.setPc]
  have hm : Moves c t s s' :=
    ⟨fun u hu => State.setPc_pc_of_ne _ _ hu, fun u hu => by simp [hs', stepPop, State.setPc, hu],
      fun _ _ => ⟨fun _ => rfl, fun _ => rfl⟩⟩
  have hW : ∀ g, Written s' g ↔ Written s g := fun g => by
    rw [written_iff_done, written_iff_done]
    exact done_iff_of_idle (fun u hu => congrArg Pc.pendingPush (hm.pc u hu)) hm.reserved rfl hflags.1
      (by rw [hpct]; rfl)
  have hR : ∀ g, Read s' g ↔ Read s g := fun g => by
    rw [read_iff_done, read_iff_done]
    exact done_iff_of_take (fun u hu => congrArg Pc.pendingPop (hm.pc u hu)) hm.reserved rfl hflags.2
      (by rw [hpct]; rfl) hrest
  have hg : Grows c s s' := Grows.of_thread le_rfl (Nat.le_succ _) List.prefix_rfl
    (fun g => (hW g).mpr) (fun g => (hR g).mpr) hm.pc hm.reserved
    (fun hp => by rw [hflags.1] at hp; cases hp) (fun hp => by rw [hflags.2] at hp; cases hp)
  have hother : ∀ u, u ≠ t → (s'.pc u).holdsTail = true →
      (s.pc u).holdsTail = true ∧ s'.reserved u < s.tail := by
    intro u hut hu
    rw [hm.pc u hut] at hu
    rw [hm.reserved u hut]
    exact ⟨hu, h.holdsTail_lt hu⟩
  refine h.of_frame hm hg (fun g => (hW g).mp) (fun g hr => (hW g).mpr (h.readWritten g ((hR g).mp hr)))
    rfl rfl rfl ?_ ⟨fun hp => (by rw [hpct] at hp; cases hp), fun _ => h.consRole t (by rw [hpc]; rfl)⟩
    h.pushedLen h.pushedPos (h.popped_of_grows hg rfl) h.poppedNodup (fun u hu => ?_) (fun u v hu hv huv => ?_)
  · rw [hpct]
    exact ⟨hrest, Nat.lt_succ_self _, hok⟩
  · -- `t`'s position `tail_` is above every position a pop returned
    rcases eq_or_ne u t with rfl | hut
    · rw [hrest]
      intro hmem
      obtain ⟨e, he, hev⟩ := List.mem_map.mp hmem
      have := (h.popped e he).1
      omega
    · rw [hm.pc u hut] at hu
      rw [hm.reserved u hut]
      exact h.heldFresh u hu
  · by_cases hut : u = t <;> by_cases hvt : v = t
    · exact hut.trans hvt.symm
    · have := (hother v hvt hv).2
      rw [← huv, hut, hrest] at this
      omega
    · have := (hother u hut hu).2
      rw [huv, hvt, hrest] at this
      omega
    · rw [hm.reserved u hut, hm.reserved v hvt] at huv
      exact h.heldInj u v (hother u hut hu).1 (hother v hvt hv).1 huv

theorem Inv.popStorePos (hw : WellBuilt c prod cons) (h : Inv c prod cons s) {pos : ℕ}
    (hpc : s.pc t = .popStorePos pos) :
    Inv c prod cons (stepPop c s t (c.thrId t) (.popStorePos pos)) := by
  obtain ⟨hr, hlt, -⟩ := h.threadOk_of_pc hpc
  refine h.setTail_setPc hw (h.consRole t (by rw [hpc]; rfl)) hpc ⟨rfl, rfl, rfl⟩ rfl ⟨?_, ?_⟩
  · show s.reserved t < s.tail
    rw [hr]
    exact hlt
  · show ((s.setTail (c.thrId t) pos).thrP (c.thrId t)).tail = s.reserved t
    rw [setTail_thrP_tail, hr]

theorem Inv.threadOk_popRead (h : Inv c prod cons s) {pc0 : Pc α} (hpc : s.pc t = pc0)
    (hpend : pc0.pendingPush = false ∧ pc0.pendingPop = true) (hp : PopPub c s t)
    (hlt : (s.thrP (c.thrId t)).tail < s.lastHead) :
    ThreadOk c (s.setPc t .popRead) t .popRead :=
  ⟨hp, (grows_setPc (c := c) .popRead hpc ⟨hpend.1.symm, hpend.2.symm⟩).1.written _
    (h.lastHead _ (hp.2 ▸ hlt))⟩

theorem Inv.popCheck (h : Inv c prod cons s) (hpc : s.pc t = .popCheck) :
    Inv c prod cons (stepPop c s t (c.thrId t) .popCheck) := by
  have hp : PopPub c s t := h.threadOk_of_pc hpc
  rw [stepPop]
  split
  next => exact h.setPc hpc ⟨rfl, rfl, rfl⟩ ⟨rfl, rfl⟩ hp
  next hlt =>
    exact h.setPc hpc ⟨rfl, rfl, rfl⟩ ⟨rfl, rfl⟩ (h.threadOk_popRead hpc ⟨rfl, rfl⟩ hp (by omega))

theorem Inv.popScanStart (h : Inv c prod cons s) (hpc : s.pc t = .popScanStart) :
    Inv c prod cons (stepPop c s t (c.thrId t) .popScanStart) := by
  have hp : PopPub c s t := h.threadOk_of_pc hpc
  exact h.setPc hpc ⟨rfl, rfl, rfl⟩ ⟨rfl, rfl⟩ ⟨hp, le_rfl, fun g hg => headCovered_zero hg⟩

theorem Inv.popScan (hw : WellBuilt c prod cons) (h : Inv c prod cons s) {i min : ℕ}
    (hpc : s.pc t = .popScan i min) :
    Inv c prod cons (stepPop c s t (c.thrId t) (.popScan i min)) := by
  obtain ⟨hp, hmin, hcov⟩ := h.threadOk_of_pc hpc
  rw [stepPop]
  split
  next =>
    -- the head of producer `i` may lower the minimum; one more id is covered
    have hle : (if (s.thrP i).head < min then (s.thrP i).head else min) ≤ min := by
      split <;> omega
    refine h.setPc hpc ⟨rfl, rfl, rfl⟩ ⟨rfl, rfl⟩ ⟨hp, hle.trans hmin, fun g hg => ?_⟩
    exact (grows_setPc (.popScan (i + 1) _) hpc ⟨rfl, rfl⟩).1.headCovered _ _
      (h.headCovered_succ (hcov g (lt_of_lt_of_le hg hle)) hg)
  next hi =>
    have hwritten : ∀ g < min, Written s g := fun g hg =>
      h.written_of_headCovered hw (not_lt.mp hi) (hcov g hg)
    exact (h.setLastHead hmin hwritten).setPc hpc ⟨rfl, rfl, rfl⟩ ⟨rfl, rfl⟩ hp

theorem Inv.popRecheck (h : Inv c prod cons s) (hpc : s.pc t = .popRecheck) :
    Inv c prod cons (stepPop c s t (c.thrId t) .popRecheck) := by
  have hp : PopPub c s t := h.threadOk_of_pc hpc
  rw [stepPop]
  split
  next hlt => exact h.setPc hpc ⟨rfl, rfl, rfl⟩ ⟨rfl, rfl⟩ (h.threadOk_popRead hpc ⟨rfl, rfl⟩ hp hlt)
  next => exact h.setPc hpc ⟨rfl, rfl, rfl⟩ ⟨rfl, rfl⟩ hp

/-- **The slot read** `ret = ptr_array_[thr_pos().tail & Q_MASK]`: with
`Q_SIZE` a power of two, the slot is that of `t`'s position, written and
unread, so it holds the pointer pushed there. -/
theorem Inv.popRead (hw : WellBuilt c prod cons) (h : Inv c prod cons s) (hpc : s.pc t = .popRead) :
    Inv c prod cons (stepPop c s t (c.thrId t) .popRead) := by
  obtain ⟨⟨hlt, hpub⟩, hwr⟩ := h.threadOk_of_pc hpc
  have hpend : (s.pc t).pendingPop = true := by rw [hpc]; rfl
  have hpush : (s.pc t).pendingPush = false := by rw [hpc]; rfl
  obtain ⟨n, hn⟩ := hw.pow
  set r := s.reserved t with hr
  obtain ⟨ptr, hptr⟩ := h.ptrAt_isSome hwr.1
  have hret : s.ptrArray ((s.thrP (c.thrId t)).tail &&& c.qMask) = some ptr := by
    rw [hpub, slot_eq_mod c hn, h.slots r hwr fun hrd => hrd.2 t hpend rfl, hptr]
  set s' := stepPop c s t (c.thrId t) .popRead with hs'
  have hpct : s'.pc t = .popReset (some ptr) := by
    rw [← hret]
    exact State.setPc_pc_self _ _ _
  have hm : Moves c t s s' :=
    ⟨fun u hu => State.setPc_pc_of_ne _ _ hu, fun _ _ => rfl, fun _ _ => ⟨fun _ => rfl, fun _ => rfl⟩⟩
  have hW : ∀ g, Written s' g ↔ Written s g := fun g => by
    rw [written_iff_done, written_iff_done]
    exact done_iff_of_idle (fun u hu => congrArg Pc.pendingPush (hm.pc u hu)) hm.reserved rfl hpush
      (by rw [hpct]; rfl)
  have hR : ∀ g, Read s' g ↔ Read s g ∨ g = r := fun g => by
    rw [read_iff_done, read_iff_done]
    exact done_iff_of_finish (fun u hu => congrArg Pc.pendingPop (hm.pc u hu)) hm.reserved rfl hpend
      (by rw [hpct]; rfl) hlt fun u hu hru => h.pendingPop_unique hu hpend hru
  have hg : Grows c s s' := Grows.of_thread le_rfl le_rfl List.prefix_rfl (fun g => (hW g).mpr)
    (fun g hrd => (hR g).mpr (.inl hrd)) hm.pc hm.reserved (fun hp => by rw [hpush] at hp; cases hp)
    (fun _ => (hR r).mpr (.inr rfl))
  have hheld : (s'.pc t).holdsTail = true → (s.pc t).holdsTail = true ∧ s'.reserved t = s.reserved t :=
    fun _ => ⟨Pc.holdsTail_of_pendingPop hpend, rfl⟩
  refine h.of_frame hm hg (fun g => (hW g).mp) (fun g hrd => ?_) rfl rfl rfl ?_
    ⟨fun hp => (by rw [hpct] at hp; cases hp), fun _ => h.consRole t (by rw [hpc]; rfl)⟩
    h.pushedLen h.pushedPos (h.popped_of_grows hg rfl) h.poppedNodup (hm.heldFresh h rfl hheld)
    (hm.heldInj h hheld)
  · rcases (hR g).mp hrd with hrd | rfl
    · exact (hW g).mpr (h.readWritten g hrd)
    · exact (hW _).mpr hwr
  · rw [hpct]
    exact ⟨hlt, ptr, rfl, hptr⟩

/-- **The end of `pop`**: `thr_pos().tail = ULONG_MAX`, and the pop's result,
the pointer pushed at its position, is recorded with that position. -/
theorem Inv.popReset (hw : WellBuilt c prod cons) (h : Inv c prod cons s) {ret : Option α}
    (hpc : s.pc t = .popReset ret) :
    Inv c prod cons (stepPop c s t (c.thrId t) (.popReset ret)) := by
  obtain ⟨hlt, ptr, hret, hptr⟩ := h.threadOk_of_pc hpc
  have hhold : (s.pc t).holdsTail = true := by rw [hpc]; rfl
  have hcons : cons t := h.consRole t (by rw [hpc]; rfl)
  have hflags : (s.pc t).pendingPush = false ∧ (s.pc t).pendingPop = false := by
    rw [hpc]
    exact ⟨rfl, rfl⟩
  set r := s.reserved t with hr
  set s' := stepPop c s t (c.thrId t) (.popReset ret) with hs'
  have hpct : s'.pc t = .idle := State.setPc_pc_self _ _ _
  have hpopped : s'.popped = s.popped ++ [(t, r, ret)] := rfl
  have hm : Moves c t s s' := ⟨fun u hu => State.setPc_pc_of_ne _ _ hu, fun _ _ => rfl,
    fun u hu => ⟨fun _ => setTail_thrP_head s _ _ _, fun hpop => ?_⟩⟩
  rotate_left
  · -- another consumer has another id
    have hid : c.thrId u ≠ c.thrId t := fun e => hu (hw.consInj u t (h.consRole u hpop) hcons e)
    exact congrArg ThrPos.tail (setTail_thrP_of_ne s ulongMax hid)
  have hW : ∀ g, Written s' g ↔ Written s g := fun g => by
    rw [written_iff_done, written_iff_done]
    exact done_iff_of_idle (fun u hu => congrArg Pc.pendingPush (hm.pc u hu)) hm.reserved rfl hflags.1
      (by rw [hpct]; rfl)
  have hR : ∀ g, Read s' g ↔ Read s g := fun g => by
    rw [read_iff_done, read_iff_done]
    exact done_iff_of_idle (fun u hu => congrArg Pc.pendingPop (hm.pc u hu)) hm.reserved rfl hflags.2
      (by rw [hpct]; rfl)
  have hg : Grows c s s' := Grows.of_thread le_rfl le_rfl List.prefix_rfl (fun g => (hW g).mpr)
    (fun g => (hR g).mpr) hm.pc hm.reserved (fun hp => by rw [hflags.1] at hp; cases hp)
    (fun hp => by rw [hflags.2] at hp; cases hp)
  have hother : ∀ u, (s'.pc u).holdsTail = true → u ≠ t ∧ (s.pc u).holdsTail = true := by
    intro u hu
    rcases eq_or_ne u t with rfl | hut
    · rw [hpct] at hu
      cases hu
    · rw [hm.pc u hut] at hu
      exact ⟨hut, hu⟩
  refine h.of_frame hm hg (fun g => (hW g).mp) (fun g hrd => (hW g).mpr (h.readWritten g ((hR g).mp hrd)))
    rfl rfl rfl (by rw [hpct]; trivial)
    ⟨fun hp => (by rw [hpct] at hp; cases hp), fun hp => (by rw [hpct] at hp; cases hp)⟩
    h.pushedLen h.pushedPos (fun e he => ?_) ?_ (fun u hu => ?_) (fun u v hu hv huv => ?_)
  · -- the new record is `t`'s position and the pointer pushed there
    rw [hpopped, List.mem_append, List.mem_singleton] at he
    rcases he with he | rfl
    · exact h.popped e he
    · exact ⟨hlt, ptr, hret, hptr⟩
  · rw [hpopped, List.map_append, List.map_singleton, ← List.concat_eq_append]
    exact List.Nodup.concat (h.heldFresh t hhold) h.poppedNodup
  · obtain ⟨hut, hu'⟩ := hother u hu
    rw [hpopped, List.map_append, List.map_singleton, List.mem_append, List.mem_singleton, not_or]
    exact ⟨h.heldFresh u hu', fun e => hut (h.heldInj u t hu' hhold e)⟩
  · exact h.heldInj u v (hother u hu).2 (hother v hv).2 huv

/-- **Every step of `pop` keeps the invariant.** -/
theorem Inv.popStep (hw : WellBuilt c prod cons) (h : Inv c prod cons s) {pc : Pc α} (hpc : s.pc t = pc) :
    Inv c prod cons (stepPop c s t (c.thrId t) pc) := by
  cases pc with
  | popFaa => exact h.popFaa hpc
  | popStorePos pos => exact h.popStorePos hw hpc
  | popCheck => exact h.popCheck hpc
  | popScanStart => exact h.popScanStart hpc
  | popScan i min => exact h.popScan hw hpc
  | popRecheck => exact h.popRecheck hpc
  | popRead => exact h.popRead hw hpc
  | popReset ret => exact h.popReset hw hpc
  | idle | pushFaa | pushStorePos | pushCheck | pushScanStart | pushScan | pushRecheck | pushWrite
  | pushReset =>
    -- not a place of `pop`: `stepPop` leaves the state as it is
    exact h

end Natsys
end QueueRate
