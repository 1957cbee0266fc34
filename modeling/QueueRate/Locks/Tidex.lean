import QueueRate.Lib.Machine
import QueueRate.Lib.TokenChain
import QueueRate.Lib.Critical
import Mathlib.Data.List.Nodup
import Mathlib.Data.Int.Init

/-!
# The Tidex locks of `lockrate_tidex` and `lockrate_tidex_nps`

`tidex_mutex.h` and `tidex_nps_mutex.h`: `lock` takes the thread's id
`mytid`, negated when the relaxed load of `egress` finds it there; swaps it
into `ingress` with `atomic_exchange`, getting `prevtid`; spins until
`egress == prevtid`; and stores `mytid` in `nextEgress`. `unlock` stores
`nextEgress` into `egress`. The two locks differ only in where `mytid`
comes from: `pthread_self()` (`tidexLock`), or the thread-local
`tlThreadIndex`, taken on the first call from the global
`globalThreadIndex` by a fetch-and-add (`tidexNpsLock`). `step` is one
definition for both, given the call of `lock`.

The threads that have swapped and not released the lock form a chain of ids
from `egress` to `ingress` (`TokenChain.Linked`). The negation keeps every id
in use other than `egress` itself: a thread that finds its own id in
`egress` uses its negation, and `egress` only ever takes the id of the
releasing thread. So only the first thread of the chain passes the spin, and
at most one thread holds the lock (`CoreInv.holds_eq`), as long as the ids
of distinct threads, and their negations, are distinct and non-zero
(`IdsOk`).

Key definitions: `Pc`, `State`, `tidexMutexInit`, `tidexLock`,
`tidexNpsLock`, `step`, `Holds`, `CoreInv`.
-/

namespace QueueRate
namespace Tidex

open TokenChain

/-- `INVALID_TID`. -/
def invalidTid : ℤ := 0

/-- Where a thread is in `lock` and `unlock`. -/
inductive Pc
  /-- outside the mutex -/
  | idle
  /-- in `lock`, next: `if (atomic_load_explicit(&egress, relaxed) == mytid) mytid = -mytid` -/
  | check (mytid : ℤ)
  /-- in `lock`, next: `prevtid = atomic_exchange(&ingress, mytid)` -/
  | xchg (mytid : ℤ)
  /-- in `lock`'s spin `while (atomic_load(&egress) != prevtid)` -/
  | spin (mytid prevtid : ℤ)
  /-- past the spin, next: `nextEgress = mytid` -/
  | setNext (mytid : ℤ)
  /-- holds the lock -/
  | held
  /-- in `unlock`, next: the store of `nextEgress`, loaded, into `egress` -/
  | release (next : ℤ)
  deriving DecidableEq, Repr

/-- A `tidex_mutex_t` (or `tidex_nps_mutex_t`), the globals of
`tidex_nps_mutex.h`, and where each thread of `T` is in its calls. -/
structure State (T : Type*) where
  ingress : ℤ
  egress : ℤ
  nextEgress : ℤ
  pc : T → Pc
  /-- `tlThreadIndex`, the thread-local id of `tidex_nps_mutex.h` -/
  tlThreadIndex : T → ℤ
  /-- `globalThreadIndex` of `tidex_nps_mutex.h` -/
  globalThreadIndex : ℤ

/-- An action of thread `t`: a call of `lock` or `unlock`, or its next step within one. -/
inductive Act (T : Type*)
  | lock (t : T)
  | unlock (t : T)
  | next (t : T)

variable {T : Type*}

/-- The thread that takes an action. -/
def Act.thread : Act T → T
  | .lock t | .unlock t | .next t => t

/-- The action is a call of `unlock`. -/
def Act.isUnlock : Act T → Bool
  | .unlock _ => true
  | _ => false

/-- `tidex_mutex_init` (and `tidex_nps_mutex_init`, the same), with the
globals as the program starts and every thread outside the mutex. -/
def tidexMutexInit : State T :=
  ⟨invalidTid, invalidTid, invalidTid, fun _ => .idle, fun _ => invalidTid, 1⟩

/-- Thread `t` holds the lock: from the end of the spin to the store of `unlock`. -/
def Pc.holding : Pc → Bool
  | .setNext _ | .held | .release _ => true
  | _ => false

/-- Thread `t` holds the lock. -/
def Holds (s : State T) (t : T) : Prop := (s.pc t).holding = true

/-! ### The chain of ids -/

/-- Past the swap and before the store of `unlock`. -/
def Pc.entered : Pc → Bool
  | .spin _ _ | .setNext _ | .held | .release _ => true
  | _ => false

/-- Past the test of `egress` and before the store of `unlock`: its id is chosen. -/
def Pc.active : Pc → Bool
  | .xchg _ => true
  | pc => pc.entered

/-- The id a thread waits for: the holder's is `egress`. -/
def prevTok (s : State T) (t : T) : ℤ :=
  match s.pc t with
  | .spin _ prevtid => prevtid
  | _ => s.egress

/-- The id a thread will release the lock to: the holder's is in `nextEgress` once stored. -/
def myTok (s : State T) (t : T) : ℤ :=
  match s.pc t with
  | .check mytid | .xchg mytid | .spin mytid _ | .setNext mytid => mytid
  | .held => s.nextEgress
  | .release next => next
  | .idle => invalidTid

/-- The ids of the threads in a call, as `idOf` gives them, and their
negations are distinct and non-zero. -/
def IdsOk (idOf : T → ℤ) (s : State T) : Prop :=
  ∀ u, s.pc u ≠ .idle → idOf u ≠ 0 ∧ ∀ v, v ≠ u → s.pc v ≠ .idle → idOf v ≠ idOf u ∧ idOf v ≠ -idOf u

/-- What every reachable state keeps, for the ids `idOf`: the threads that
swapped form a chain of ids from `egress` to `ingress`, whose first thread is
the holder; no thread that chose its id chose `egress`; and each uses its id
or its negation. -/
structure CoreInv (idOf : T → ℤ) (s : State T) : Prop where
  chain : ∃ l : List T, l.Nodup ∧ (∀ u, u ∈ l ↔ (s.pc u).entered = true) ∧
    Linked (prevTok s) (myTok s) s.egress l s.ingress ∧ ∀ u, Holds s u → l.head? = some u
  fresh : ∀ u, (s.pc u).active = true → myTok s u ≠ s.egress
  ident : ∀ u, s.pc u ≠ .idle → myTok s u = idOf u ∨ myTok s u = -idOf u

variable {s : State T} {idOf : T → ℤ}

theorem Holds.of_pc_eq {s' : State T} {u : T} (hpc : s'.pc u = s.pc u) (hu : Holds s' u) : Holds s u := by
  unfold Holds at hu ⊢
  rwa [hpc] at hu

theorem CoreInv.holds_eq (h : CoreInv idOf s) {u v : T} (hu : Holds s u) (hv : Holds s v) : u = v := by
  obtain ⟨l, -, -, -, hhead⟩ := h.chain
  exact Option.some.inj ((hhead u hu).symm.trans (hhead v hv))

theorem spin_of_entered {u : T} (he : (s.pc u).entered = true) (hn : ¬ Holds s u) :
    ∃ mytid prevtid, s.pc u = .spin mytid prevtid := by
  unfold Holds at hn
  generalize s.pc u = pc at he hn
  cases pc with
  | spin mytid prevtid => exact ⟨mytid, prevtid, rfl⟩
  | setNext | held | release => exact absurd rfl hn
  | _ => cases he

theorem coreInv_tidexMutexInit : CoreInv idOf (tidexMutexInit : State T) where
  chain := ⟨[], List.nodup_nil, fun _ => ⟨fun h => (by cases h), fun h => (by cases h)⟩, rfl,
    fun _ hu => by cases hu⟩
  fresh _ h := by cases h
  ident _ h := absurd rfl h


theorem Pc.entered_of_holding {pc : Pc} (h : pc.holding = true) : pc.entered = true := by
  cases pc <;> first | rfl | cases h

theorem Pc.active_of_entered {pc : Pc} (h : pc.entered = true) : pc.active = true := by
  cases pc <;> first | rfl | cases h

theorem prevTok_congr {s' : State T} {u : T} (hpc : s'.pc u = s.pc u)
    (heg : s'.egress = s.egress ∨ ∃ mytid prevtid, s.pc u = .spin mytid prevtid) :
    prevTok s' u = prevTok s u := by
  unfold prevTok
  rw [hpc]
  rcases heg with heg | ⟨mytid, prevtid, hspin⟩
  · rw [heg]
  · rw [hspin]

theorem myTok_congr {s' : State T} {u : T} (hpc : s'.pc u = s.pc u)
    (hne : s'.nextEgress = s.nextEgress ∨ s.pc u ≠ .held) : myTok s' u = myTok s u := by
  unfold myTok
  rw [hpc]
  rcases hne with hne | hheld
  · rw [hne]
  · generalize s.pc u = pc at hheld
    cases pc with
    | held => exact absurd rfl hheld
    | _ => rfl

theorem CoreInv.ne_held (h : CoreInv idOf s) {t : T} (ht : Holds s t) {u : T} (hu : u ≠ t) :
    s.pc u ≠ .held := by
  intro hp
  exact hu (h.holds_eq (by unfold Holds; rw [hp]; rfl) ht)

theorem CoreInv.myTok_ne (hid : IdsOk idOf s) (h : CoreInv idOf s) {t u : T} (ht : s.pc t ≠ .idle)
    (hu : s.pc u ≠ .idle) (hut : u ≠ t) : myTok s u ≠ myTok s t := by
  obtain ⟨hne, hneg⟩ := (hid t ht).2 u hut hu
  rcases h.ident u hu with hu' | hu' <;> rcases h.ident t ht with ht' | ht' <;> omega

theorem ne_of_idle {t u : T} (hu : s.pc u = .idle) (ht : s.pc t ≠ .idle) : u ≠ t :=
  fun hut => ht (hut ▸ hu)

variable [DecidableEq T]

/-- Thread `t` moves to `pc`. -/
def State.setPc (s : State T) (t : T) (pc : Pc) : State T :=
  { s with pc := Function.update s.pc t pc }

/-- The call of `tidex_mutex_lock`: `mytid = (long long)pthread_self()`. -/
def tidexLock (pthreadSelf : T → ℤ) (s : State T) (t : T) : State T :=
  s.setPc t (.check (pthreadSelf t))

/-- The call of `tidex_nps_mutex_lock`: `mytid = tlThreadIndex`, taken first by
`tlThreadIndex = atomic_fetch_add(&globalThreadIndex, 1)`. -/
def tidexNpsLock (s : State T) (t : T) : State T :=
  if s.tlThreadIndex t = invalidTid then
    { s with tlThreadIndex := Function.update s.tlThreadIndex t s.globalThreadIndex,
             globalThreadIndex := s.globalThreadIndex + 1 }.setPc t (.check s.globalThreadIndex)
  else s.setPc t (.check (s.tlThreadIndex t))

/-- The step an action takes, for the lock whose call of `lock` is `lockCall`;
`none` when the thread cannot take it. -/
def step (lockCall : State T → T → State T) (s : State T) : Act T → Option (State T)
  | .lock t =>
    match s.pc t with
    | .idle => some (lockCall s t)
    | _ => none
  | .unlock t =>
    match s.pc t with
    | .held => some (s.setPc t (.release s.nextEgress))
    | _ => none
  | .next t =>
    match s.pc t with
    | .check mytid => some (s.setPc t (.xchg (if s.egress = mytid then -mytid else mytid)))
    | .xchg mytid => some ({ s with ingress := mytid }.setPc t (.spin mytid s.ingress))
    | .spin mytid prevtid => some (if s.egress = prevtid then s.setPc t (.setNext mytid) else s)
    | .setNext mytid => some ({ s with nextEgress := mytid }.setPc t .held)
    | .release next => some ({ s with egress := next }.setPc t .idle)
    | _ => none

/-! ### Each step keeps the invariant -/

section Steps

variable {t : T}

@[simp] theorem State.setPc_pc_self (s : State T) (t : T) (pc : Pc) : (s.setPc t pc).pc t = pc := by
  simp [State.setPc]

@[simp] theorem State.setPc_pc_of_ne (s : State T) {t u : T} (pc : Pc) (hu : u ≠ t) :
    (s.setPc t pc).pc u = s.pc u := by
  simp [State.setPc, hu]

@[simp] theorem State.setPc_ingress (s : State T) (t : T) (pc : Pc) : (s.setPc t pc).ingress = s.ingress := rfl

@[simp] theorem State.setPc_egress (s : State T) (t : T) (pc : Pc) : (s.setPc t pc).egress = s.egress := rfl

@[simp] theorem State.setPc_nextEgress (s : State T) (t : T) (pc : Pc) :
    (s.setPc t pc).nextEgress = s.nextEgress := rfl

@[simp] theorem State.setPc_tlThreadIndex (s : State T) (t : T) (pc : Pc) :
    (s.setPc t pc).tlThreadIndex = s.tlThreadIndex := rfl

@[simp] theorem State.setPc_globalThreadIndex (s : State T) (t : T) (pc : Pc) :
    (s.setPc t pc).globalThreadIndex = s.globalThreadIndex := rfl

/-- A move of `t` before the swap, the shared words unchanged: the chain is
the same. `idOf'` may give `t` a new id. -/
theorem CoreInv.of_outside (h : CoreInv idOf s) (hpc : (s.pc t).entered = false) {idOf' : T → ℤ}
    {s' : State T} {pc : Pc} (hs'pc : s'.pc = Function.update s.pc t pc) (hpc' : pc.entered = false)
    (hid : ∀ u, u ≠ t → idOf' u = idOf u) (hing : s'.ingress = s.ingress) (heg : s'.egress = s.egress)
    (hne : s'.nextEgress = s.nextEgress) (hfresh : pc.active = true → myTok s' t ≠ s.egress)
    (hident : myTok s' t = idOf' t ∨ myTok s' t = -idOf' t) : CoreInv idOf' s' := by
  obtain ⟨l, hnd, hmem, hlink, hhead⟩ := h.chain
  have hpct : s'.pc t = pc := by rw [hs'pc, Function.update_self]
  have hpcu : ∀ u, u ≠ t → s'.pc u = s.pc u := fun u hu => by rw [hs'pc, Function.update_of_ne hu]
  have htl : t ∉ l := fun ht => by
    rw [hmem, hpc] at ht
    cases ht
  refine ⟨⟨l, hnd, fun u => ?_, ?_, fun u hu => ?_⟩, fun u hu => ?_, fun u hu => ?_⟩
  · rcases eq_or_ne u t with rfl | hut
    · rw [hpct, hpc']
      simpa using htl
    · rw [hpcu u hut, hmem]
  · rw [heg, hing]
    exact hlink.congr fun u hu =>
      ⟨prevTok_congr (hpcu u (ne_of_mem_of_not_mem hu htl)) (.inl heg),
        myTok_congr (hpcu u (ne_of_mem_of_not_mem hu htl)) (.inl hne)⟩
  · rcases eq_or_ne u t with rfl | hut
    · unfold Holds at hu
      rw [hpct] at hu
      rw [Pc.entered_of_holding hu] at hpc'
      cases hpc'
    · exact hhead u (hu.of_pc_eq (hpcu u hut))
  · rcases eq_or_ne u t with rfl | hut
    · rw [heg]
      exact hfresh (hpct ▸ hu)
    · rw [myTok_congr (hpcu u hut) (.inl hne), heg]
      exact h.fresh u (by rwa [hpcu u hut] at hu)
  · rcases eq_or_ne u t with rfl | hut
    · exact hident
    · rw [myTok_congr (hpcu u hut) (.inl hne), hid u hut]
      exact h.ident u (by rwa [hpcu u hut] at hu)

theorem CoreInv.of_inside (h : CoreInv idOf s) (hpc : (s.pc t).entered = true) {s' : State T} {pc : Pc}
    (hs'pc : s'.pc = Function.update s.pc t pc) (hpc' : pc.entered = true)
    (hing : s'.ingress = s.ingress) (heg : s'.egress = s.egress)
    (hothers : ∀ u, u ≠ t → myTok s' u = myTok s u) (hprev : prevTok s' t = prevTok s t)
    (hmine : myTok s' t = myTok s t) (hpass : pc.holding = true → Holds s t ∨ prevTok s t = s.egress) :
    CoreInv idOf s' := by
  obtain ⟨l, hnd, hmem, hlink, hhead⟩ := h.chain
  have hpct : s'.pc t = pc := by rw [hs'pc, Function.update_self]
  have hpcu : ∀ u, u ≠ t → s'.pc u = s.pc u := fun u hu => by rw [hs'pc, Function.update_of_ne hu]
  have htl : t ∈ l := (hmem t).mpr hpc
  refine ⟨⟨l, hnd, fun u => ?_, ?_, fun u hu => ?_⟩, fun u hu => ?_, fun u hu => ?_⟩
  · rcases eq_or_ne u t with rfl | hut
    · rw [hpct, hpc']
      simpa using htl
    · rw [hpcu u hut, hmem]
  · rw [heg, hing]
    refine hlink.congr fun u _ => ?_
    rcases eq_or_ne u t with rfl | hut
    · exact ⟨hprev, hmine⟩
    · exact ⟨prevTok_congr (hpcu u hut) (.inl heg), hothers u hut⟩
  · rcases eq_or_ne u t with rfl | hut
    · unfold Holds at hu
      rw [hpct] at hu
      rcases hpass hu with hheld | hfree
      · exact hhead u hheld
      · -- `t` passes the spin: its predecessor is `egress`, the first thread's
        obtain ⟨w, l', rfl⟩ := List.exists_cons_of_ne_nil (List.ne_nil_of_mem htl)
        have hfresh : ∀ x ∈ w :: l', ¬ myTok s x = s.egress := fun x hx =>
          h.fresh x (Pc.active_of_entered ((hmem x).mp hx))
        rw [hlink.eq_head_of_released (R := fun k => k = s.egress) hfresh htl hfree]
        rfl
    · exact hhead u (hu.of_pc_eq (hpcu u hut))
  · rcases eq_or_ne u t with rfl | hut
    · rw [hmine, heg]
      exact h.fresh u (Pc.active_of_entered hpc)
    · rw [hothers u hut, heg]
      exact h.fresh u (by rwa [hpcu u hut] at hu)
  · rcases eq_or_ne u t with rfl | hut
    · rw [hmine]
      exact h.ident u fun hi => by rw [hi] at hpc; cases hpc
    · rw [hothers u hut]
      exact h.ident u (by rwa [hpcu u hut] at hu)

/-- **The call of `lock`** gives `t` an id, with the ids of the others unchanged. -/
theorem CoreInv.lockCall (h : CoreInv idOf s) (hpc : s.pc t = .idle) {idOf' : T → ℤ} {s' : State T}
    (hs'pc : s'.pc = Function.update s.pc t (.check (idOf' t))) (hid : ∀ u, u ≠ t → idOf' u = idOf u)
    (hing : s'.ingress = s.ingress) (heg : s'.egress = s.egress) (hne : s'.nextEgress = s.nextEgress) :
    CoreInv idOf' s' := by
  have hmine : myTok s' t = idOf' t := by
    unfold myTok
    rw [hs'pc, Function.update_self]
  refine h.of_outside (by rw [hpc]; rfl) hs'pc rfl hid hing heg hne (fun ha => by cases ha) (.inl hmine)

/-- **The test of `egress`**: a thread that finds its id there takes its negation. -/
theorem CoreInv.check (hid : IdsOk idOf s) (h : CoreInv idOf s) {m : ℤ} (hpc : s.pc t = .check m) :
    CoreInv idOf (s.setPc t (.xchg (if s.egress = m then -m else m))) := by
  have hm : m = idOf t ∨ m = -idOf t := by
    have := h.ident t (by rw [hpc]; exact Pc.noConfusion)
    unfold myTok at this
    rwa [hpc] at this
  have h0 : idOf t ≠ 0 := (hid t (by rw [hpc]; exact Pc.noConfusion)).1
  have hmine : myTok (s.setPc t (.xchg (if s.egress = m then -m else m))) t =
      if s.egress = m then -m else m := by
    unfold myTok
    rw [State.setPc_pc_self]
  refine h.of_outside (by rw [hpc]; rfl) rfl rfl (fun _ _ => rfl) rfl rfl rfl (fun _ => ?_) ?_
  · rw [hmine]
    split_ifs with he <;> omega
  · rw [hmine]
    split_ifs <;> omega

/-- **The swap** appends `t` to the chain, its id the new `ingress`. -/
theorem CoreInv.xchg (h : CoreInv idOf s) {m : ℤ} (hpc : s.pc t = .xchg m) :
    CoreInv idOf ({ s with ingress := m }.setPc t (.spin m s.ingress)) := by
  set s' := { s with ingress := m }.setPc t (.spin m s.ingress) with hs'
  obtain ⟨l, hnd, hmem, hlink, hhead⟩ := h.chain
  have hpcu : ∀ u, u ≠ t → s'.pc u = s.pc u := fun u hu => State.setPc_pc_of_ne _ _ hu
  have htl : t ∉ l := fun ht => by
    rw [hmem, hpc] at ht
    cases ht
  have hmine : myTok s' t = m := by
    unfold myTok
    rw [State.setPc_pc_self]
  have hmine0 : myTok s t = m := by
    unfold myTok
    rw [hpc]
  have htok : ∀ u ∈ l, prevTok s' u = prevTok s u ∧ myTok s' u = myTok s u := fun u hu =>
    ⟨prevTok_congr (hpcu u (ne_of_mem_of_not_mem hu htl)) (.inl rfl),
      myTok_congr (hpcu u (ne_of_mem_of_not_mem hu htl)) (.inl rfl)⟩
  refine ⟨⟨l ++ [t], ?_, fun u => ?_, ?_, fun u hu => ?_⟩, fun u hu => ?_, fun u hu => ?_⟩
  · rw [← List.concat_eq_append]
    exact List.Nodup.concat htl hnd
  · rcases eq_or_ne u t with rfl | hut
    · simp [s']
      rfl
    · simp only [List.mem_append, List.mem_singleton, hut, or_false]
      rw [hpcu u hut, hmem]
  · -- `prevtid` is the old `ingress`, the last token of the chain
    have hprev : prevTok s' t = s.ingress := by
      unfold prevTok
      rw [State.setPc_pc_self]
    have := (hlink.congr htok).concat hprev
    rwa [hmine] at this
  · rcases eq_or_ne u t with rfl | hut
    · unfold Holds at hu
      rw [State.setPc_pc_self] at hu
      cases hu
    · have hu0 : Holds s u := hu.of_pc_eq (hpcu u hut)
      rw [List.head?_append, hhead u hu0]
      rfl
  · rcases eq_or_ne u t with rfl | hut
    · rw [hmine, ← hmine0]
      exact h.fresh u (by rw [hpc]; rfl)
    · rw [myTok_congr (hpcu u hut) (.inl rfl)]
      exact h.fresh u (by rwa [hpcu u hut] at hu)
  · rcases eq_or_ne u t with rfl | hut
    · rw [hmine, ← hmine0]
      exact h.ident u (by rw [hpc]; exact Pc.noConfusion)
    · rw [myTok_congr (hpcu u hut) (.inl rfl)]
      exact h.ident u (by rwa [hpcu u hut] at hu)

/-- **The end of the spin**: `t` finds `egress` equal to its predecessor. -/
theorem CoreInv.pass (h : CoreInv idOf s) {m : ℤ} (hpc : s.pc t = .spin m s.egress) :
    CoreInv idOf (s.setPc t (.setNext m)) := by
  refine h.of_inside (by rw [hpc]; rfl) rfl rfl rfl rfl (fun u hu => ?_) ?_ ?_ (fun _ => .inr ?_)
  · exact myTok_congr (State.setPc_pc_of_ne _ _ hu) (.inl rfl)
  all_goals simp only [prevTok, myTok, State.setPc_pc_self, State.setPc_egress, hpc]

/-- **The store of `nextEgress`**: the holder's id moves there. -/
theorem CoreInv.setNext (h : CoreInv idOf s) {m : ℤ} (hpc : s.pc t = .setNext m) :
    CoreInv idOf ({ s with nextEgress := m }.setPc t .held) := by
  have ht : Holds s t := by unfold Holds; rw [hpc]; rfl
  refine h.of_inside (by rw [hpc]; rfl) rfl rfl rfl rfl (fun u hu => ?_) ?_ ?_ (fun _ => .inl ht)
  · exact myTok_congr (State.setPc_pc_of_ne _ _ hu) (.inr (h.ne_held ht hu))
  all_goals simp only [prevTok, myTok, State.setPc_pc_self, State.setPc_egress, State.setPc_nextEgress, hpc]

/-- **The call of `unlock`** loads `nextEgress`. -/
theorem CoreInv.unlock (h : CoreInv idOf s) (hpc : s.pc t = .held) :
    CoreInv idOf (s.setPc t (.release s.nextEgress)) := by
  have ht : Holds s t := by unfold Holds; rw [hpc]; rfl
  refine h.of_inside (by rw [hpc]; rfl) rfl rfl rfl rfl (fun u hu => ?_) ?_ ?_ (fun _ => .inl ht)
  · exact myTok_congr (State.setPc_pc_of_ne _ _ hu) (.inl rfl)
  all_goals simp only [prevTok, myTok, State.setPc_pc_self, State.setPc_egress, hpc]

/-- **The store of `unlock`** drops the holder from the chain: `egress`
becomes its id, which no other thread in a call uses. -/
theorem CoreInv.release (hid : IdsOk idOf s) (h : CoreInv idOf s) {next : ℤ} (hpc : s.pc t = .release next) :
    CoreInv idOf ({ s with egress := next }.setPc t .idle) := by
  set s' := { s with egress := next }.setPc t .idle with hs'
  obtain ⟨l, hnd, hmem, hlink, hhead⟩ := h.chain
  have ht : Holds s t := by unfold Holds; rw [hpc]; rfl
  have hpcu : ∀ u, u ≠ t → s'.pc u = s.pc u := fun u hu => State.setPc_pc_of_ne _ _ hu
  have hmine0 : myTok s t = next := by
    unfold myTok
    rw [hpc]
  have hnt : s.pc t ≠ .idle := by rw [hpc]; exact Pc.noConfusion
  obtain ⟨rest, rfl⟩ : ∃ rest, l = t :: rest := by
    cases l with
    | nil => cases hhead t ht
    | cons w rest => exact ⟨rest, by rw [Option.some.inj (hhead t ht)]⟩
  obtain ⟨htr, hnd⟩ := List.nodup_cons.mp hnd
  have hrest : ∀ u ∈ rest, u ≠ t := fun u hu => ne_of_mem_of_not_mem hu htr
  refine ⟨⟨rest, hnd, fun u => ?_, ?_, fun u hu => ?_⟩, fun u hu => ?_, fun u hu => ?_⟩
  · rcases eq_or_ne u t with rfl | hut
    · simp [s', htr]
      rfl
    · rw [hpcu u hut, ← hmem, List.mem_cons, or_iff_right hut]
  · -- the others in the chain spin, and their ids do not read `egress`
    show Linked (prevTok s') (myTok s') next rest s.ingress
    rw [← hmine0]
    refine hlink.tail.congr fun u hu => ?_
    have hspin := spin_of_entered ((hmem u).mp (List.mem_cons_of_mem t hu))
      fun hh => hrest u hu (h.holds_eq hh ht)
    exact ⟨prevTok_congr (hpcu u (hrest u hu)) (.inr hspin), myTok_congr (hpcu u (hrest u hu)) (.inl rfl)⟩
  · rcases eq_or_ne u t with rfl | hut
    · unfold Holds at hu
      rw [State.setPc_pc_self] at hu
      cases hu
    · exact absurd (h.holds_eq (hu.of_pc_eq (hpcu u hut)) ht) hut
  · rcases eq_or_ne u t with rfl | hut
    · rw [State.setPc_pc_self] at hu
      cases hu
    · show myTok s' u ≠ next
      rw [myTok_congr (hpcu u hut) (.inl rfl), ← hmine0]
      refine h.myTok_ne hid hnt (fun hi => ?_) hut
      rw [hpcu u hut, hi] at hu
      cases hu
  · rcases eq_or_ne u t with rfl | hut
    · exact absurd (State.setPc_pc_self _ _ _) hu
    · rw [myTok_congr (hpcu u hut) (.inl rfl)]
      exact h.ident u (by rwa [hpcu u hut] at hu)

/-- **Every step within a call keeps the invariant**, whatever the call of `lock` does. -/
theorem CoreInv.of_next (hid : IdsOk idOf s) (h : CoreInv idOf s) {lockCall : State T → T → State T}
    {s' : State T} (hs : step lockCall s (.next t) = some s') : CoreInv idOf s' := by
  cases hpc : s.pc t with
  | check m =>
    simp only [step, hpc, Option.some.injEq] at hs
    exact hs ▸ h.check hid hpc
  | xchg m =>
    simp only [step, hpc, Option.some.injEq] at hs
    exact hs ▸ h.xchg hpc
  | spin m p =>
    simp only [step, hpc, Option.some.injEq] at hs
    subst hs
    -- the spin either ends or loads `egress` once more
    split_ifs with he
    · exact h.pass (he ▸ hpc)
    · exact h
  | setNext m =>
    simp only [step, hpc, Option.some.injEq] at hs
    exact hs ▸ h.setNext hpc
  | release next =>
    simp only [step, hpc, Option.some.injEq] at hs
    exact hs ▸ h.release hid hpc
  | idle | held => simp [step, hpc] at hs

theorem CoreInv.of_unlock (h : CoreInv idOf s) {lockCall : State T → T → State T} {s' : State T}
    (hs : step lockCall s (.unlock t) = some s') : CoreInv idOf s' := by
  cases hpc : s.pc t with
  | held =>
    simp only [step, hpc, Option.some.injEq] at hs
    exact hs ▸ h.unlock hpc
  | _ => simp [step, hpc] at hs

theorem step_frame {lockCall : State T → T → State T} {a : Act T} (ha : ∀ u, a ≠ .lock u) {s' : State T}
    (hs : step lockCall s a = some s') :
    s'.tlThreadIndex = s.tlThreadIndex ∧ s'.globalThreadIndex = s.globalThreadIndex ∧
      ∀ u, s.pc u = .idle → s'.pc u = .idle := by
  cases a with
  | lock u => exact absurd rfl (ha u)
  | unlock t =>
    cases hpc : s.pc t with
    | held =>
      simp only [step, hpc, Option.some.injEq] at hs
      subst hs
      exact ⟨rfl, rfl, fun u hu => by rwa [State.setPc_pc_of_ne _ _ (ne_of_idle hu (by simp [hpc]))]⟩
    | _ => simp [step, hpc] at hs
  | next t =>
    cases hpc : s.pc t with
    | idle | held => simp [step, hpc] at hs
    | spin m p =>
      simp only [step, hpc, Option.some.injEq] at hs
      subst hs
      split_ifs
      · exact ⟨rfl, rfl, fun u hu => by rwa [State.setPc_pc_of_ne _ _ (ne_of_idle hu (by simp [hpc]))]⟩
      · exact ⟨rfl, rfl, fun _ hu => hu⟩
    | check m | xchg m | setNext m | release m =>
      simp only [step, hpc, Option.some.injEq] at hs
      subst hs
      exact ⟨rfl, rfl, fun u hu => by rwa [State.setPc_pc_of_ne _ _ (ne_of_idle hu (by simp [hpc]))]⟩

theorem step_pc_of_ne {lockCall : State T → T → State T}
    (hcall : ∀ s t u, u ≠ t → (lockCall s t).pc u = s.pc u) {a : Act T} {s' : State T}
    (hs : step lockCall s a = some s') {u : T} (hu : u ≠ a.thread) : s'.pc u = s.pc u := by
  cases a with
  | lock t =>
    cases hpc : s.pc t <;> simp only [step, hpc, reduceCtorEq, Option.some.injEq] at hs
    subst hs
    exact hcall s t u hu
  | unlock t =>
    cases hpc : s.pc t <;> simp only [step, hpc, reduceCtorEq, Option.some.injEq] at hs
    subst hs
    exact State.setPc_pc_of_ne _ _ hu
  | next t =>
    cases hpc : s.pc t <;> simp only [step, hpc, reduceCtorEq, Option.some.injEq] at hs
    all_goals subst hs
    case spin =>
      split_ifs
      · exact State.setPc_pc_of_ne _ _ hu
      · rfl
    all_goals exact State.setPc_pc_of_ne _ _ hu

theorem step_of_held {lockCall : State T → T → State T} {a : Act T} {s' : State T}
    (hpc : s.pc a.thread = .held) (hs : step lockCall s a = some s') : a.isUnlock = true := by
  cases a with
  | unlock t => rfl
  | lock t | next t =>
    simp only [Act.thread] at hpc
    simp [step, hpc] at hs

theorem tidexLock_pc_of_ne (pthreadSelf : T → ℤ) (s : State T) (t u : T) (hu : u ≠ t) :
    (tidexLock pthreadSelf s t).pc u = s.pc u :=
  State.setPc_pc_of_ne _ _ hu

theorem tidexNpsLock_pc_of_ne (s : State T) (t u : T) (hu : u ≠ t) : (tidexNpsLock s t).pc u = s.pc u := by
  unfold tidexNpsLock
  split_ifs
  · exact State.setPc_pc_of_ne _ _ hu
  · exact State.setPc_pc_of_ne _ _ hu

end Steps

/-! ### The lock of a `q_t` -/

/-- The lock whose call of `lock` is `lockCall`, as the machine of its
threads, a thread at `held` from the return of `lock` to its call of `unlock`. -/
def lockModel (lockCall : State T → T → State T) : Critical.LockModel T (State T) (Act T) where
  init := tidexMutexInit
  step := step lockCall
  actor := Act.thread
  isUnlock := Act.isUnlock
  atHeld s t := decide (s.pc t = .held)

/-- The lock gives what `Critical` asks of a lock, for an invariant of its
runs that keeps one thread holding it, when its call of `lock` moves only
its thread. -/
theorem lockModel_good {lockCall : State T → T → State T} {I : State T → Prop}
    (hcall : ∀ s t u, u ≠ t → (lockCall s t).pc u = s.pc u) (hinit : I tidexMutexInit)
    (hstep : ∀ s a s', I s → step lockCall s a = some s' → I s')
    (hexcl : ∀ s, I s → ∀ u v, Holds s u → Holds s v → u = v) : (lockModel lockCall).Good I where
  init := hinit
  step := hstep
  excl s _ _ h ht hu := hexcl s h _ _ (by unfold Holds; rw [of_decide_eq_true ht]; rfl)
    (by unfold Holds; rw [of_decide_eq_true hu]; rfl)
  frame _ _ _ t _ hs ht := by
    show decide _ = decide _
    rw [step_pc_of_ne hcall hs (Ne.symm ht)]
  own _ _ _ _ ha hs := step_of_held (of_decide_eq_true ha) hs

/-! ### `tidex_mutex_t`: the ids of `pthread_self()` -/

section PthreadSelf

variable {pthreadSelf : T → ℤ}

omit [DecidableEq T] in
/-- Positive distinct ids, as the addresses `pthread_self()` returns for live threads are. -/
theorem idsOk_of_pos_injective (hpos : ∀ u, 0 < pthreadSelf u) (hinj : Function.Injective pthreadSelf) :
    IdsOk pthreadSelf s := by
  intro u _
  have hu := hpos u
  refine ⟨by omega, fun v hvu _ => ⟨fun he => hvu (hinj he), ?_⟩⟩
  have hv := hpos v
  omega

theorem CoreInv.of_tidexStep (hpos : ∀ u, 0 < pthreadSelf u) (hinj : Function.Injective pthreadSelf)
    (h : CoreInv pthreadSelf s) {a : Act T} {s' : State T} (hs : step (tidexLock pthreadSelf) s a = some s') :
    CoreInv pthreadSelf s' := by
  cases a with
  | lock t =>
    cases hpc : s.pc t with
    | idle =>
      simp only [step, hpc, Option.some.injEq] at hs
      subst hs
      exact h.lockCall hpc rfl (fun _ _ => rfl) rfl rfl rfl
    | _ => simp [step, hpc] at hs
  | unlock t => exact h.of_unlock hs
  | next t => exact h.of_next (idsOk_of_pos_injective hpos hinj) hs

/-- **The Tidex lock is a mutual exclusion lock**: in every run from
`tidex_mutex_init`, at most one thread holds it, as long as `pthread_self()`
gives distinct threads distinct positive ids. -/
theorem tidex_mutual_exclusion (hpos : ∀ u, 0 < pthreadSelf u) (hinj : Function.Injective pthreadSelf)
    {acts : List (Act T)} {s : State T}
    (hrun : Machine.runSteps (step (tidexLock pthreadSelf)) tidexMutexInit acts = some s) {u v : T}
    (hu : Holds s u) (hv : Holds s v) : u = v :=
  (Machine.runSteps_inv _ (G := fun _ => True) (fun _ _ _ h _ hs => h.of_tidexStep hpos hinj hs)
    (fun _ _ => trivial) coreInv_tidexMutexInit hrun).holds_eq hu hv

theorem tidexLockModel_good (hpos : ∀ u, 0 < pthreadSelf u) (hinj : Function.Injective pthreadSelf) :
    (lockModel (tidexLock pthreadSelf)).Good (CoreInv pthreadSelf) :=
  lockModel_good (tidexLock_pc_of_ne pthreadSelf) coreInv_tidexMutexInit
    (fun _ _ _ h hs => h.of_tidexStep hpos hinj hs) fun _ h _ _ => h.holds_eq

/-- Thread `false` takes the lock while thread `true` spins behind it. -/
theorem tidex_mutual_exclusion_twoThreads :
    ∃ s, Machine.runSteps (step (tidexLock fun b => if b then 2 else 1)) tidexMutexInit
        [.lock false, .next false, .next false, .lock true, .next true, .next true, .next true, .next false] =
        some s ∧ Holds s false ∧ ∀ u, Holds s u → u = false := by
  have hpos : ∀ u : Bool, 0 < (if u then 2 else 1 : ℤ) := by decide
  have hinj : Function.Injective fun u : Bool => (if u then 2 else 1 : ℤ) := fun a b => by
    cases a <;> cases b <;> decide
  obtain ⟨s, hrun, hheld⟩ : ∃ s, Machine.runSteps (step (tidexLock fun b => if b then 2 else 1))
      tidexMutexInit
        [.lock false, .next false, .next false, .lock true, .next true, .next true, .next true, .next false] =
        some s ∧ Holds s false := ⟨_, rfl, rfl⟩
  exact ⟨s, hrun, hheld, fun _ hu => tidex_mutual_exclusion hpos hinj hrun hu hheld⟩

end PthreadSelf

end Tidex
end QueueRate
