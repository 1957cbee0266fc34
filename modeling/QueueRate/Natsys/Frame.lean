import QueueRate.Natsys.Invariant
import QueueRate.Lib.Tickets

/-!
# Steps of the Natsys queue that keep the invariant by frame

`Written` and `Read` are the done tickets of the counters `head_` and
`tail_` (`written_iff_done`, `read_iff_done`), with a push or a pop holding
its ticket from its fetch-and-add to its slot access. Most steps move one
thread within its call, perhaps with what it publishes in `thr_p_`, and keep
everything else: `Inv.of_local` says when that keeps the invariant, and
`Inv.setPc`, `Inv.setHead_setPc`, `Inv.setTail_setPc` are its three shapes.
`Inv.of_frame` is what is left to show for a step that keeps the slots and
may take or finish a ticket.

Key theorems: `Grows.of_thread`, `Inv.of_local`, `Inv.of_frame`.
-/

namespace QueueRate
namespace Natsys

open Tickets

variable {α T : Type*} {c : Config T} {prod cons : T → Prop}

/-! ### Setters and positions -/

theorem ptrAt_congr {s s' : State α T} (hp : s'.pushed = s.pushed) (g : ℕ) : ptrAt s' g = ptrAt s g := by
  unfold ptrAt
  rw [hp]

theorem setHead_thrP_tail (s : State α T) (i v j : ℕ) : ((s.setHead i v).thrP j).tail = (s.thrP j).tail := by
  unfold State.setHead
  dsimp only
  rcases eq_or_ne j i with rfl | hj
  · rw [Function.update_self]
  · rw [Function.update_of_ne hj]

theorem setHead_thrP_of_ne (s : State α T) {i j : ℕ} (v : ℕ) (hj : j ≠ i) :
    (s.setHead i v).thrP j = s.thrP j :=
  Function.update_of_ne hj _ _

theorem setHead_thrP_head (s : State α T) (i v : ℕ) : ((s.setHead i v).thrP i).head = v := by
  simp [State.setHead]

theorem setTail_thrP_head (s : State α T) (i v j : ℕ) : ((s.setTail i v).thrP j).head = (s.thrP j).head := by
  unfold State.setTail
  dsimp only
  rcases eq_or_ne j i with rfl | hj
  · rw [Function.update_self]
  · rw [Function.update_of_ne hj]

theorem setTail_thrP_of_ne (s : State α T) {i j : ℕ} (v : ℕ) (hj : j ≠ i) :
    (s.setTail i v).thrP j = s.thrP j :=
  Function.update_of_ne hj _ _

theorem setTail_thrP_tail (s : State α T) (i v : ℕ) : ((s.setTail i v).thrP i).tail = v := by
  simp [State.setTail]

@[simp] theorem State.setPc_pc_self [DecidableEq T] (s : State α T) (t : T) (pc : Pc α) :
    (s.setPc t pc).pc t = pc := by
  simp [State.setPc]

@[simp] theorem State.setPc_pc_of_ne [DecidableEq T] (s : State α T) {t u : T} (pc : Pc α) (hu : u ≠ t) :
    (s.setPc t pc).pc u = s.pc u := by
  simp [State.setPc, hu]

/-- The written positions are the done tickets of `head_`, held by the pending pushes. -/
theorem written_iff_done (s : State α T) (g : ℕ) :
    Written s g ↔ Done s.head (fun u => (s.pc u).pendingPush) s.reserved g := Iff.rfl

/-- The read positions are the done tickets of `tail_`, held by the pending pops. -/
theorem read_iff_done (s : State α T) (g : ℕ) :
    Read s g ↔ Done s.tail (fun u => (s.pc u).pendingPop) s.reserved g := Iff.rfl

theorem headCovered_zero {s : State α T} {g : ℕ} (hg : g < s.head) : HeadCovered c s 0 g := by
  by_cases hw : Written s g
  · exact .inl hw
  · refine .inr ?_
    by_contra hne
    exact hw ⟨hg, fun u hu hr => hne ⟨u, hu, hr, Nat.zero_le _⟩⟩

theorem tailCovered_zero {s : State α T} {g : ℕ} (hg : g < s.tail) : TailCovered c s 0 g := by
  by_cases hr : Read s g
  · exact .inl hr
  · refine .inr ?_
    by_contra hne
    exact hr ⟨hg, fun u hu hres => hne ⟨u, hu, hres, Nat.zero_le _⟩⟩

theorem exists_add_mul_of_mod_eq {g x Q : ℕ} (hlt : g < x) (hmod : g % Q = x % Q) :
    ∃ k, x = g + (k + 1) * Q := by
  have hdvd : Q ∣ x - g := Nat.dvd_of_mod_eq_zero (Nat.sub_mod_eq_zero_of_mod_eq hmod.symm)
  obtain ⟨m, hm⟩ := hdvd
  obtain ⟨k, rfl⟩ : ∃ k, m = k + 1 := ⟨m - 1, by
    rcases Nat.eq_zero_or_pos m with rfl | hm0
    · omega
    · omega⟩
  refine ⟨k, ?_⟩
  rw [Nat.mul_comm] at hm
  omega

/-! ### Facts of the invariant used by the steps -/

section Facts

variable {s : State α T} (h : Inv c prod cons s)
include h

theorem Inv.threadOk_of_pc {u : T} {pc : Pc α} (hpc : s.pc u = pc) : ThreadOk c s u pc :=
  hpc ▸ h.threads u

theorem Inv.pushPublished {u : T} (hu : (s.pc u).pendingPush = true) :
    (s.thrP (c.thrId u)).head ≤ s.reserved u := by
  have hok := h.threads u
  generalize s.pc u = pc at hok hu
  cases pc with
  | pushStorePos ptr pos => rw [hok.1]; exact hok.2.2
  | pushCheck | pushScanStart | pushRecheck => exact hok.2.le
  | pushScan | pushWrite => exact hok.1.2.le
  | _ => cases hu

theorem Inv.popPublished {u : T} (hu : (s.pc u).pendingPop = true) :
    (s.thrP (c.thrId u)).tail ≤ s.reserved u := by
  have hok := h.threads u
  generalize s.pc u = pc at hok hu
  cases pc with
  | popStorePos pos => rw [hok.1]; exact hok.2.2
  | popCheck | popScanStart | popRecheck => exact hok.2.le
  | popScan | popRead => exact hok.1.2.le
  | _ => cases hu

theorem Inv.holdsTail_lt {u : T} (hu : (s.pc u).holdsTail = true) : s.reserved u < s.tail := by
  have hok := h.threads u
  generalize s.pc u = pc at hok hu
  cases pc with
  | popStorePos pos => rw [hok.1]; exact hok.2.1
  | popCheck | popScanStart | popRecheck => exact hok.1
  | popScan | popRead => exact hok.1.1
  | popReset => exact hok.1
  | _ => cases hu

theorem Inv.pendingPop_unique {t u : T} (ht : (s.pc t).pendingPop = true) (hu : (s.pc u).pendingPop = true)
    (hr : s.reserved t = s.reserved u) : t = u :=
  h.heldInj t u (Pc.holdsTail_of_pendingPop ht) (Pc.holdsTail_of_pendingPop hu) hr

theorem Inv.headCovered_succ {i min g : ℕ} (hcov : HeadCovered c s i g)
    (hg : g < if (s.thrP i).head < min then (s.thrP i).head else min) : HeadCovered c s (i + 1) g := by
  rcases hcov with hw | ⟨u, hu, hr, hi⟩
  · exact .inl hw
  rcases hi.lt_or_eq with hi | hi
  · exact .inr ⟨u, hu, hr, hi⟩
  · -- the producer with id `i` published a position no higher than `g`
    have hpub := h.pushPublished hu
    rw [← hi, hr] at hpub
    split at hg <;> omega

theorem Inv.tailCovered_succ {i min g : ℕ} (hcov : TailCovered c s i g)
    (hg : g < if (s.thrP i).tail < min then (s.thrP i).tail else min) : TailCovered c s (i + 1) g := by
  rcases hcov with hr | ⟨u, hu, hres, hi⟩
  · exact .inl hr
  rcases hi.lt_or_eq with hi | hi
  · exact .inr ⟨u, hu, hres, hi⟩
  · have hpub := h.popPublished hu
    rw [← hi, hres] at hpub
    split at hg <;> omega

theorem Inv.written_of_headCovered (hw : WellBuilt c prod cons) {i g : ℕ} (hi : c.nProducers ≤ i)
    (hcov : HeadCovered c s i g) : Written s g := by
  rcases hcov with hwr | ⟨u, hu, -, hiu⟩
  · exact hwr
  · have := hw.prodLt u (h.prodRole u (Pc.inPush_of_pendingPush hu))
    omega

theorem Inv.read_of_tailCovered (hw : WellBuilt c prod cons) {i g : ℕ} (hi : c.nConsumers ≤ i)
    (hcov : TailCovered c s i g) : Read s g := by
  rcases hcov with hr | ⟨u, hu, -, hiu⟩
  · exact hr
  · have := hw.consLt u (h.consRole u (Pc.inPop_of_holdsTail (Pc.holdsTail_of_pendingPop hu)))
    omega

/-- Below a read position, the positions with its slot are read. -/
theorem Inv.read_of_read {g : ℕ} : ∀ k, Read s (g + k * c.qSize) → Read s g
  | 0, hr => by simpa using hr
  | k + 1, hr => h.read_of_written k (h.readWritten _ hr)

end Facts

/-! ### What a step of one thread keeps -/

section Frames

variable {s s' : State α T} {t : T}

/-- A step that moves one thread `t`, and what `t` reserves: what was written
or read stays so, and so does what a scan has covered, as a pending
reservation of another thread stays pending, and one of `t`'s is done. -/
theorem Grows.of_thread (hhead : s.head ≤ s'.head) (htail : s.tail ≤ s'.tail) (hpushed : s.pushed <+: s'.pushed)
    (hw : ∀ g, Written s g → Written s' g) (hr : ∀ g, Read s g → Read s' g)
    (hpc : ∀ u, u ≠ t → s'.pc u = s.pc u) (hres : ∀ u, u ≠ t → s'.reserved u = s.reserved u)
    (hpush : (s.pc t).pendingPush = true → Written s' (s.reserved t))
    (hpop : (s.pc t).pendingPop = true → Read s' (s.reserved t)) : Grows c s s' := by
  refine ⟨hhead, htail, hpushed, hw, hr, ?_, ?_⟩
  · rintro i g (hwg | ⟨u, hp, rfl, hi⟩)
    · exact .inl (hw _ hwg)
    rcases eq_or_ne u t with rfl | hut
    · exact .inl (hpush hp)
    · exact .inr ⟨u, by rw [hpc u hut]; exact hp, hres u hut, hi⟩
  · rintro i g (hrg | ⟨u, hp, rfl, hi⟩)
    · exact .inl (hr _ hrg)
    rcases eq_or_ne u t with rfl | hut
    · exact .inl (hpop hp)
    · exact .inr ⟨u, by rw [hpc u hut]; exact hp, hres u hut, hi⟩

theorem grows_setPc [DecidableEq T] {pc0 : Pc α} (pc : Pc α) (hpc : s.pc t = pc0)
    (hpend : pc.pendingPush = pc0.pendingPush ∧ pc.pendingPop = pc0.pendingPop) :
    Grows c s (s.setPc t pc) ∧ Grows c (s.setPc t pc) s := by
  have hflags : ∀ u, ((s.setPc t pc).pc u).pendingPush = (s.pc u).pendingPush ∧
      ((s.setPc t pc).pc u).pendingPop = (s.pc u).pendingPop := by
    intro u
    rcases eq_or_ne u t with rfl | hu
    · rw [State.setPc_pc_self, hpc]
      exact hpend
    · rw [s.setPc_pc_of_ne pc hu]
      exact ⟨rfl, rfl⟩
  exact ⟨Grows.of_same rfl rfl rfl (fun _ => rfl) hflags,
    Grows.of_same rfl rfl rfl (fun _ => rfl) fun u => ⟨(hflags u).1.symm, (hflags u).2.symm⟩⟩

/-- **A step that moves only `t`**, and perhaps what `t` publishes, keeping
every thread's pending status and all else, keeps the invariant when `t`'s new
place is right. -/
theorem Inv.of_local (h : Inv c prod cons s)
    (hhead : s'.head = s.head) (htail : s'.tail = s.tail) (hpushed : s'.pushed = s.pushed)
    (hpopped : s'.popped = s.popped) (hres : s'.reserved = s.reserved) (hptr : s'.ptrArray = s.ptrArray)
    (hlh : s'.lastHead = s.lastHead) (hlt : s'.lastTail = s.lastTail)
    (hpc : ∀ u, u ≠ t → s'.pc u = s.pc u)
    (hpend : (s'.pc t).pendingPush = (s.pc t).pendingPush ∧ (s'.pc t).pendingPop = (s.pc t).pendingPop ∧
      (s'.pc t).holdsTail = (s.pc t).holdsTail)
    (hthrP : ∀ u, u ≠ t → ((s.pc u).inPush = true → (s'.thrP (c.thrId u)).head = (s.thrP (c.thrId u)).head) ∧
      ((s.pc u).inPop = true → (s'.thrP (c.thrId u)).tail = (s.thrP (c.thrId u)).tail))
    (hrole : ((s'.pc t).inPush = true → prod t) ∧ ((s'.pc t).inPop = true → cons t))
    (hok : ThreadOk c s' t (s'.pc t)) : Inv c prod cons s' := by
  have hflags : ∀ u, (s'.pc u).pendingPush = (s.pc u).pendingPush ∧
      (s'.pc u).pendingPop = (s.pc u).pendingPop := by
    intro u
    rcases eq_or_ne u t with rfl | hu
    · exact ⟨hpend.1, hpend.2.1⟩
    · rw [hpc u hu]
      exact ⟨rfl, rfl⟩
  have hhold : ∀ u, (s'.pc u).holdsTail = (s.pc u).holdsTail := by
    intro u
    rcases eq_or_ne u t with rfl | hu
    · exact hpend.2.2
    · rw [hpc u hu]
  have hg : Grows c s s' := Grows.of_same hhead htail hpushed (congrFun hres) hflags
  have hg' : Grows c s' s := Grows.of_same hhead.symm htail.symm hpushed.symm
    (fun u => (congrFun hres u).symm) fun u => ⟨(hflags u).1.symm, (hflags u).2.symm⟩
  have hptrAt := ptrAt_congr hpushed
  refine {
    threads := fun u => ?_
    prodRole := fun u hu => ?_
    consRole := fun u hu => ?_
    pushedLen := by rw [hpushed, hhead]; exact h.pushedLen
    pushedPos := by rw [hpushed]; exact h.pushedPos
    lastHeadLe := by rw [hlh, hhead]; exact h.lastHeadLe
    lastHead := fun g hgl => hg.written g (h.lastHead g (by rw [← hlh]; exact hgl))
    lastTailLe := by rw [hlt, htail]; exact h.lastTailLe
    lastTail := fun g hgl => hg.read g (h.lastTail g (by rw [← hlt]; exact hgl))
    readWritten := fun g hr => hg.written g (h.readWritten g (hg'.read g hr))
    writtenRead := fun g hwr hq => hg.read _ (h.writtenRead g (hg'.written g hwr) hq)
    slots := fun g hwr hr => by
      rw [hptr, hptrAt]
      exact h.slots g (hg'.written g hwr) fun hr' => hr (hg.read g hr')
    popped := by
      rw [hpopped, htail]
      simp only [hptrAt]
      exact h.popped
    poppedNodup := by rw [hpopped]; exact h.poppedNodup
    heldFresh := fun u hu => by
      rw [hpopped, hres]
      exact h.heldFresh u (by rw [← hhold u]; exact hu)
    heldInj := fun u v hu hv hr => h.heldInj u v (by rw [← hhold u]; exact hu) (by rw [← hhold v]; exact hv)
      (by rw [hres] at hr; exact hr) }
  · rcases eq_or_ne u t with rfl | hu
    · exact hok
    · rw [hpc u hu]
      exact ThreadOk.mono hg (hthrP u hu).1 (hthrP u hu).2 (congrFun hres u) (h.threads u)
  · rcases eq_or_ne u t with rfl | hut
    · exact hrole.1 hu
    · rw [hpc u hut] at hu
      exact h.prodRole u hu
  · rcases eq_or_ne u t with rfl | hut
    · exact hrole.2 hu
    · rw [hpc u hut] at hu
      exact h.consRole u hu

theorem Inv.setLastHead (h : Inv c prod cons s) {v : ℕ} (hle : v ≤ s.head) (hv : ∀ g < v, Written s g) :
    Inv c prod cons { s with lastHead := v } :=
  ⟨h.threads, h.prodRole, h.consRole, h.pushedLen, h.pushedPos, hle, hv, h.lastTailLe, h.lastTail,
    h.readWritten, h.writtenRead, h.slots, h.popped, h.poppedNodup, h.heldFresh, h.heldInj⟩

theorem Inv.setLastTail (h : Inv c prod cons s) {v : ℕ} (hle : v ≤ s.tail) (hv : ∀ g < v, Read s g) :
    Inv c prod cons { s with lastTail := v } :=
  ⟨h.threads, h.prodRole, h.consRole, h.pushedLen, h.pushedPos, h.lastHeadLe, h.lastHead, hle, hv,
    h.readWritten, h.writtenRead, h.slots, h.popped, h.poppedNodup, h.heldFresh, h.heldInj⟩

/-- Only `t` moves: every other thread keeps its place, its reservation and
what it has published. -/
structure Moves (c : Config T) (t : T) (s s' : State α T) : Prop where
  pc : ∀ u, u ≠ t → s'.pc u = s.pc u
  reserved : ∀ u, u ≠ t → s'.reserved u = s.reserved u
  thrP : ∀ u, u ≠ t → ((s.pc u).inPush = true → (s'.thrP (c.thrId u)).head = (s.thrP (c.thrId u)).head) ∧
    ((s.pc u).inPop = true → (s'.thrP (c.thrId u)).tail = (s.thrP (c.thrId u)).tail)

theorem Moves.threadOk (hm : Moves c t s s') (h : Inv c prod cons s) (hg : Grows c s s')
    (hok : ThreadOk c s' t (s'.pc t)) (u : T) : ThreadOk c s' u (s'.pc u) := by
  rcases eq_or_ne u t with rfl | hu
  · exact hok
  · rw [hm.pc u hu]
    exact ThreadOk.mono hg (hm.thrP u hu).1 (hm.thrP u hu).2 (hm.reserved u hu) (h.threads u)

theorem Moves.prodRole (hm : Moves c t s s') (h : Inv c prod cons s) (ht : (s'.pc t).inPush = true → prod t)
    (u : T) (hu : (s'.pc u).inPush = true) : prod u := by
  rcases eq_or_ne u t with rfl | hut
  · exact ht hu
  · rw [hm.pc u hut] at hu
    exact h.prodRole u hu

theorem Moves.consRole (hm : Moves c t s s') (h : Inv c prod cons s) (ht : (s'.pc t).inPop = true → cons t)
    (u : T) (hu : (s'.pc u).inPop = true) : cons u := by
  rcases eq_or_ne u t with rfl | hut
  · exact ht hu
  · rw [hm.pc u hut] at hu
    exact h.consRole u hu

theorem Moves.held (hm : Moves c t s s')
    (ht : (s'.pc t).holdsTail = true → (s.pc t).holdsTail = true ∧ s'.reserved t = s.reserved t)
    (u : T) (hu : (s'.pc u).holdsTail = true) : (s.pc u).holdsTail = true ∧ s'.reserved u = s.reserved u := by
  rcases eq_or_ne u t with rfl | hut
  · exact ht hu
  · rw [hm.pc u hut] at hu
    exact ⟨hu, hm.reserved u hut⟩

theorem Moves.heldFresh (hm : Moves c t s s') (h : Inv c prod cons s) (hpopped : s'.popped = s.popped)
    (ht : (s'.pc t).holdsTail = true → (s.pc t).holdsTail = true ∧ s'.reserved t = s.reserved t)
    (u : T) (hu : (s'.pc u).holdsTail = true) : s'.reserved u ∉ s'.popped.map fun e => e.2.1 := by
  obtain ⟨hh, hr⟩ := hm.held ht u hu
  rw [hpopped, hr]
  exact h.heldFresh u hh

theorem Moves.heldInj (hm : Moves c t s s') (h : Inv c prod cons s)
    (ht : (s'.pc t).holdsTail = true → (s.pc t).holdsTail = true ∧ s'.reserved t = s.reserved t)
    (u v : T) (hu : (s'.pc u).holdsTail = true) (hv : (s'.pc v).holdsTail = true)
    (huv : s'.reserved u = s'.reserved v) : u = v := by
  obtain ⟨hhu, hru⟩ := hm.held ht u hu
  obtain ⟨hhv, hrv⟩ := hm.held ht v hv
  rw [hru, hrv] at huv
  exact h.heldInj u v hhu hhv huv

theorem Inv.popped_of_grows (h : Inv c prod cons s) (hg : Grows c s s') (hpopped : s'.popped = s.popped) :
    ∀ e ∈ s'.popped, e.2.1 < s'.tail ∧ ∃ ptr, e.2.2 = some ptr ∧ ptrAt s' e.2.1 = some ptr := by
  intro e he
  rw [hpopped] at he
  obtain ⟨hlt, ptr, hret, hat⟩ := h.popped e he
  exact ⟨lt_of_lt_of_le hlt hg.tail, ptr, hret, ptrAt_prefix_eq hg.pushed hat⟩

/-- **A step that keeps the slots** and what is written, and reads only
written positions, keeps the positions' part of the invariant: what is left
to show is the step's own. -/
theorem Inv.of_frame (h : Inv c prod cons s) (hm : Moves c t s s') (hg : Grows c s s')
    (hW : ∀ g, Written s' g → Written s g) (hRW : ∀ g, Read s' g → Written s' g)
    (hptr : s'.ptrArray = s.ptrArray) (hlh : s'.lastHead = s.lastHead) (hlt : s'.lastTail = s.lastTail)
    (hok : ThreadOk c s' t (s'.pc t))
    (hrole : ((s'.pc t).inPush = true → prod t) ∧ ((s'.pc t).inPop = true → cons t))
    (hlen : s'.pushed.length = s'.head) (hpos : ∀ g (e : T × ℕ × α), s'.pushed[g]? = some e → e.2.1 = g)
    (hpopped : ∀ e ∈ s'.popped, e.2.1 < s'.tail ∧ ∃ ptr, e.2.2 = some ptr ∧ ptrAt s' e.2.1 = some ptr)
    (hnodup : (s'.popped.map fun e => e.2.1).Nodup)
    (hfresh : ∀ u, (s'.pc u).holdsTail = true → s'.reserved u ∉ s'.popped.map fun e => e.2.1)
    (hinj : ∀ u v, (s'.pc u).holdsTail = true → (s'.pc v).holdsTail = true →
      s'.reserved u = s'.reserved v → u = v) :
    Inv c prod cons s' where
  threads := hm.threadOk h hg hok
  prodRole := hm.prodRole h hrole.1
  consRole := hm.consRole h hrole.2
  pushedLen := hlen
  pushedPos := hpos
  lastHeadLe := hlh ▸ h.lastHeadLe.trans hg.head
  lastHead g hgl := hg.written g (h.lastHead g (hlh ▸ hgl))
  lastTailLe := hlt ▸ h.lastTailLe.trans hg.tail
  lastTail g hgl := hg.read g (h.lastTail g (hlt ▸ hgl))
  readWritten := hRW
  writtenRead g hwr hq := hg.read _ (h.writtenRead g (hW g hwr) hq)
  slots g hwr hr := by
    -- the slot is unchanged and the pointer pushed at `g` was already there
    have hws := hW g hwr
    obtain ⟨ptr, hp⟩ := h.ptrAt_isSome hws.1
    rw [hptr, h.slots g hws fun hr' => hr (hg.read g hr'), hp, ptrAt_prefix_eq hg.pushed hp]
  popped := hpopped
  poppedNodup := hnodup
  heldFresh := hfresh
  heldInj := hinj

variable [DecidableEq T]

theorem Inv.setPc (h : Inv c prod cons s) {pc0 pc : Pc α} (hpc : s.pc t = pc0)
    (hpend : pc.pendingPush = pc0.pendingPush ∧ pc.pendingPop = pc0.pendingPop ∧ pc.holdsTail = pc0.holdsTail)
    (hin : pc.inPush = pc0.inPush ∧ pc.inPop = pc0.inPop)
    (hok : ThreadOk c (s.setPc t pc) t pc) : Inv c prod cons (s.setPc t pc) := by
  refine h.of_local rfl rfl rfl rfl rfl rfl rfl rfl (fun u hu => s.setPc_pc_of_ne pc hu)
    (by rw [State.setPc_pc_self, hpc]; exact hpend) (fun _ _ => ⟨fun _ => rfl, fun _ => rfl⟩) ?_
    (by rw [State.setPc_pc_self]; exact hok)
  rw [State.setPc_pc_self, hin.1, hin.2, ← hpc]
  exact ⟨h.prodRole t, h.consRole t⟩

theorem Inv.setHead_setPc (hw : WellBuilt c prod cons) (h : Inv c prod cons s) (ht : prod t) {v : ℕ}
    {pc0 pc : Pc α} (hpc : s.pc t = pc0)
    (hpend : pc.pendingPush = pc0.pendingPush ∧ pc.pendingPop = pc0.pendingPop ∧ pc.holdsTail = pc0.holdsTail)
    (hin : pc.inPop = false) (hok : ThreadOk c ((s.setHead (c.thrId t) v).setPc t pc) t pc) :
    Inv c prod cons ((s.setHead (c.thrId t) v).setPc t pc) := by
  refine h.of_local rfl rfl rfl rfl rfl rfl rfl rfl (fun u hu => (s.setHead _ v).setPc_pc_of_ne pc hu)
    (by rw [State.setPc_pc_self, hpc]; exact hpend) (fun u hu => ⟨fun hpush => ?_, fun _ => ?_⟩)
    ⟨fun _ => ht, fun hpop => ?_⟩ (by rw [State.setPc_pc_self]; exact hok)
  · -- another producer has another id
    have hid : c.thrId u ≠ c.thrId t := fun e => hu (hw.prodInj u t (h.prodRole u hpush) ht e)
    exact congrArg ThrPos.head (setHead_thrP_of_ne s v hid)
  · exact setHead_thrP_tail s _ v _
  · rw [State.setPc_pc_self, hin] at hpop
    cases hpop

theorem Inv.setTail_setPc (hw : WellBuilt c prod cons) (h : Inv c prod cons s) (ht : cons t) {v : ℕ}
    {pc0 pc : Pc α} (hpc : s.pc t = pc0)
    (hpend : pc.pendingPush = pc0.pendingPush ∧ pc.pendingPop = pc0.pendingPop ∧ pc.holdsTail = pc0.holdsTail)
    (hin : pc.inPush = false) (hok : ThreadOk c ((s.setTail (c.thrId t) v).setPc t pc) t pc) :
    Inv c prod cons ((s.setTail (c.thrId t) v).setPc t pc) := by
  refine h.of_local rfl rfl rfl rfl rfl rfl rfl rfl (fun u hu => (s.setTail _ v).setPc_pc_of_ne pc hu)
    (by rw [State.setPc_pc_self, hpc]; exact hpend) (fun u hu => ⟨fun _ => ?_, fun hpop => ?_⟩)
    ⟨fun hpush => ?_, fun _ => ht⟩ (by rw [State.setPc_pc_self]; exact hok)
  · exact setTail_thrP_head s _ v _
  · -- another consumer has another id
    have hid : c.thrId u ≠ c.thrId t := fun e => hu (hw.consInj u t (h.consRole u hpop) ht e)
    exact congrArg ThrPos.tail (setTail_thrP_of_ne s v hid)
  · rw [State.setPc_pc_self, hin] at hpush
    cases hpush

end Frames

end Natsys
end QueueRate
