import QueueRate.Lib.Machine
import QueueRate.Lib.TokenChain
import QueueRate.Lib.Critical
import Mathlib.Data.List.Nodup

/-!
# The MPSC lock of `lockrate_mpsc`

`mpsc_mutex.h`: `lock` takes a node from `malloc`, swaps it into `tail` by
`atomic_exchange`, getting `prev`, stores it into `prev->next`, and spins
until `head == prev`; `unlock` loads `head` into `prev` and `prev->next` into
`mynode`, stores `mynode` into `head`, and frees `prev`. Nodes are addresses:
`malloc` may return any block not in use (the action `Act.lock` names it),
and `free` takes it back. A block's `next` keeps what was last stored there,
in an earlier life too: `malloc` does not clear it.

The threads that have swapped and not yet stored `head` form a chain of
nodes from `head` to `tail` (`Chain`). Each node in use has one owner: `head`
the lock, every other one the thread that took it from `malloc` or will
`free` it (`myNode`). So no node of the chain is `head`, only the first
thread passes the spin, and at most one thread holds the lock
(`mpsc_mutual_exclusion`). The same ownership gives memory safety: every
block a step stores to, loads from or frees is in use, and `unlock` finds
the holder's node in `prev->next`, never an unset field
(`mpsc_memory_safe`).

Key definitions: `Pc`, `State`, `mpscMutexInit`, `step`, `touches`, `Holds`, `Inv`.
-/

namespace QueueRate
namespace Mpsc

open TokenChain

/-- Where a thread is in `mpsc_mutex_lock` and `mpsc_mutex_unlock`. -/
inductive Pc
  /-- outside the mutex -/
  | idle
  /-- in `lock`, `mynode` from `malloc`, next: `prev = atomic_exchange(&self->tail, mynode)` -/
  | xchg (mynode : ℕ)
  /-- next: `atomic_store(&prev->next, mynode)` -/
  | link (mynode prev : ℕ)
  /-- in the spin `while (lhead != prev)` -/
  | spin (mynode prev : ℕ)
  /-- holds the lock -/
  | held
  /-- in `unlock`, `prev` loaded from `head`, next: `mynode = atomic_load(&prev->next)` -/
  | readNext (prev : ℕ)
  /-- next: `atomic_store(&self->head, mynode)` -/
  | store (prev mynode : ℕ)
  /-- next: `free(prev)` -/
  | free (prev : ℕ)
  deriving DecidableEq, Repr

/-- An `mpsc_mutex_t`, the heap of its nodes, and where each thread of `T` is in its calls. -/
structure State (T : Type*) where
  head : ℕ
  tail : ℕ
  /-- the `next` field of each block: `none` where nothing was ever stored -/
  next : ℕ → Option ℕ
  /-- the blocks `malloc` has handed out and `free` not taken back -/
  live : ℕ → Bool
  pc : T → Pc

/-- An action of thread `t`: a call of `lock` whose `malloc` returns `node`, a
call of `unlock`, or its next step within one. -/
inductive Act (T : Type*)
  | lock (t : T) (node : ℕ)
  | unlock (t : T)
  | next (t : T)

variable {T : Type*}

/-- The thread that takes an action. -/
def Act.thread : Act T → T
  | .lock t _ | .unlock t | .next t => t

/-- The action is a call of `unlock`. -/
def Act.isUnlock : Act T → Bool
  | .unlock _ => true
  | _ => false

/-- `mpsc_mutex_init`, whose `malloc` returned `node`, with every thread outside the mutex. -/
def mpscMutexInit (node : ℕ) : State T :=
  ⟨node, node, fun _ => none, fun n => n == node, fun _ => .idle⟩

/-- The block whose memory the step of `a` stores to, loads from or frees. -/
def touches (s : State T) : Act T → Option ℕ
  | .next t =>
    match s.pc t with
    | .link _ prev | .readNext prev | .free prev => some prev
    | _ => none
  | _ => none

section Model

variable [DecidableEq T]

/-- Thread `t` moves to `pc`. -/
def State.setPc (s : State T) (t : T) (pc : Pc) : State T :=
  { s with pc := Function.update s.pc t pc }

/-- The step an action takes; `none` when the thread cannot take it. -/
def step (s : State T) : Act T → Option (State T)
  | .lock t node =>
    match s.pc t with
    -- `mynode = mpsc_mutex_create_node()`: `malloc` returns a block not in use
    | .idle =>
      if s.live node then none
      else some ({ s with live := Function.update s.live node true }.setPc t (.xchg node))
    | _ => none
  | .unlock t =>
    match s.pc t with
    -- `prev = atomic_load_explicit(&self->head, memory_order_relaxed)`
    | .held => some (s.setPc t (.readNext s.head))
    | _ => none
  | .next t =>
    match s.pc t with
    | .xchg mynode => some ({ s with tail := mynode }.setPc t (.link mynode s.tail))
    | .link mynode prev =>
      some ({ s with next := Function.update s.next prev (some mynode) }.setPc t (.spin mynode prev))
    | .spin _ prev => some (if s.head = prev then s.setPc t .held else s)
    | .readNext prev =>
      match s.next prev with
      -- `if (mynode == NULL) return;`
      | none => some (s.setPc t .idle)
      | some mynode => some (s.setPc t (.store prev mynode))
    | .store prev mynode => some ({ s with head := mynode }.setPc t (.free prev))
    | .free prev => some ({ s with live := Function.update s.live prev false }.setPc t .idle)
    | _ => none

end Model

/-- Thread `t` holds the lock: from the end of the spin to the store of `head`. -/
def Pc.holding : Pc → Bool
  | .held | .readNext _ | .store _ _ => true
  | _ => false

/-- Thread `t` holds the lock. -/
def Holds (s : State T) (t : T) : Prop := (s.pc t).holding = true

/-! ### The chain of nodes -/

/-- Past the swap and before the store of `head`. -/
def Pc.entered : Pc → Bool
  | .link _ _ | .spin _ _ | .held | .readNext _ | .store _ _ => true
  | _ => false

/-- Past the store of `prev->next`: the predecessor's `next` names the thread's node. -/
def Pc.linked : Pc → Bool
  | .spin _ _ | .held | .readNext _ | .store _ _ => true
  | _ => false

/-- The node a thread waits for: the holder's is `head`. -/
def prevTok (s : State T) (t : T) : ℕ :=
  match s.pc t with
  | .link _ prev | .spin _ prev | .readNext prev | .store prev _ => prev
  | _ => s.head

/-- The node a thread owns: the one `malloc` gave it, named for the holder by
its predecessor's `next`; in `unlock` past the store, the old `head` it frees. -/
def myNode (s : State T) (t : T) : ℕ :=
  match s.pc t with
  | .xchg mynode | .link mynode _ | .spin mynode _ | .store _ mynode => mynode
  | .held => (s.next s.head).getD 0
  | .readNext prev => (s.next prev).getD 0
  | .free prev => prev
  | .idle => 0

/-- The threads that swapped form a chain of nodes from `head` to `tail`,
whose first thread is the holder. -/
def Chain (s : State T) : Prop :=
  ∃ l : List T, l.Nodup ∧ (∀ u, u ∈ l ↔ (s.pc u).entered = true) ∧
    Linked (prevTok s) (myNode s) s.head l s.tail ∧ ∀ u, Holds s u → l.head? = some u

/-- Each linked thread's predecessor names its node in `next`. -/
def LinkOk (s : State T) : Prop :=
  ∀ u, (s.pc u).linked = true → s.next (prevTok s u) = some (myNode s u)

/-- What every reachable state keeps: the chain, its links, and one owner
for each node in use, every one of them live. -/
structure Inv (s : State T) : Prop where
  chain : Chain s
  linked : LinkOk s
  headLive : s.live s.head = true
  ownLive : ∀ u, s.pc u ≠ .idle → s.live (myNode s u) = true
  ownNe : ∀ u, s.pc u ≠ .idle → myNode s u ≠ s.head
  ownInj : ∀ u v, s.pc u ≠ .idle → s.pc v ≠ .idle → myNode s u = myNode s v → u = v

theorem Pc.entered_of_linked {pc : Pc} (h : pc.linked = true) : pc.entered = true := by
  cases pc <;> first | rfl | cases h

theorem Pc.entered_of_holding {pc : Pc} (h : pc.holding = true) : pc.entered = true := by
  cases pc <;> first | rfl | cases h

theorem Pc.ne_idle_of_entered {pc : Pc} (h : pc.entered = true) : pc ≠ .idle := by
  rintro rfl
  cases h

variable {s : State T}

theorem Holds.of_pc_eq {s' : State T} {u : T} (hpc : s'.pc u = s.pc u) (hu : Holds s' u) : Holds s u := by
  unfold Holds at hu ⊢
  rwa [hpc] at hu

theorem prevTok_congr {s' : State T} {u : T} (hpc : s'.pc u = s.pc u)
    (hh : s'.head = s.head ∨ (s.pc u).holding = false ∧ (s.pc u).entered = true) :
    prevTok s' u = prevTok s u := by
  unfold prevTok
  rw [hpc]
  rcases hh with hh | ⟨hnh, he⟩
  · rw [hh]
  · generalize s.pc u = pc at hnh he
    cases pc <;> first | rfl | exact Bool.noConfusion hnh | exact Bool.noConfusion he

theorem myNode_congr {s' : State T} {u : T} (hpc : s'.pc u = s.pc u)
    (hn : (s.pc u).holding = false ∨ s'.head = s.head ∧ s'.next (prevTok s u) = s.next (prevTok s u)) :
    myNode s' u = myNode s u := by
  unfold myNode
  rw [hpc]
  rcases hn with hnh | ⟨hh, hn⟩
  · generalize s.pc u = pc at hnh
    cases pc <;> first | rfl | exact Bool.noConfusion hnh
  · unfold prevTok at hn
    generalize s.pc u = pc at hn ⊢
    cases pc with
    | held =>
      rw [hh]
      exact congrArg (Option.getD · 0) hn
    | readNext prev => exact congrArg (Option.getD · 0) hn
    | _ => rfl

theorem Inv.holds_eq (h : Inv s) {u v : T} (hu : Holds s u) (hv : Holds s v) : u = v := by
  obtain ⟨l, -, -, -, hhead⟩ := h.chain
  exact Option.some.inj ((hhead u hu).symm.trans (hhead v hv))

theorem Inv.prevTok_holder (h : Inv s) {u : T} (hu : Holds s u) : prevTok s u = s.head := by
  obtain ⟨l, -, -, hlink, hhead⟩ := h.chain
  obtain ⟨rest, hl⟩ : ∃ rest, l = u :: rest := by
    cases l with
    | nil => cases hhead u hu
    | cons w rest => exact ⟨rest, by rw [Option.some.inj (hhead u hu)]⟩
  rw [hl] at hlink
  exact hlink.1

theorem Inv.prevTok_inj (h : Inv s) {u v : T} (hu : (s.pc u).entered = true) (hv : (s.pc v).entered = true)
    (heq : prevTok s u = prevTok s v) : u = v := by
  obtain ⟨l, hnd, hmem, hlink, -⟩ := h.chain
  have hne : ∀ w ∈ l, s.pc w ≠ .idle := fun w hw => Pc.ne_idle_of_entered ((hmem w).mp hw)
  exact hlink.prev_injOn hnd (fun a ha b hb => h.ownInj a b (hne a ha) (hne b hb))
    (fun w hw => h.ownNe w (hne w hw)) ((hmem u).mpr hu) ((hmem v).mpr hv) heq

/-- The node a thread of the chain waits for is live: `head`, or its predecessor's. -/
theorem Inv.prevTok_live (h : Inv s) {u : T} (hu : (s.pc u).entered = true) : s.live (prevTok s u) = true := by
  obtain ⟨l, -, hmem, hlink, -⟩ := h.chain
  rcases hlink.prev_mem ((hmem u).mpr hu) with he | ⟨w, hw, he⟩
  · rw [he]
    exact h.headLive
  · rw [he]
    exact h.ownLive w (Pc.ne_idle_of_entered ((hmem w).mp hw))

theorem Inv.of_heap (h : Inv s) {s' : State T} (hchain : Chain s') (hlinked : LinkOk s')
    (hhead : s'.head = s.head) (hlive : s'.live = s.live) (hidle : ∀ u, s'.pc u ≠ .idle → s.pc u ≠ .idle)
    (hmine : ∀ u, myNode s' u = myNode s u) : Inv s' where
  chain := hchain
  linked := hlinked
  headLive := by rw [hhead, hlive]; exact h.headLive
  ownLive u hu := by rw [hmine, hlive]; exact h.ownLive u (hidle u hu)
  ownNe u hu := by rw [hmine, hhead]; exact h.ownNe u (hidle u hu)
  ownInj u v hu hv he := h.ownInj u v (hidle u hu) (hidle v hv) (by rwa [hmine, hmine] at he)

theorem inv_mpscMutexInit (node : ℕ) : Inv (mpscMutexInit node : State T) where
  chain := ⟨[], List.nodup_nil, fun _ => ⟨fun h => (by cases h), fun h => (by cases h)⟩, rfl,
    fun _ hu => by cases hu⟩
  linked _ h := by cases h
  headLive := by simp [mpscMutexInit]
  ownLive _ h := absurd rfl h
  ownNe _ h := absurd rfl h
  ownInj _ _ h := absurd rfl h

/-! ### Each step keeps the invariant -/

section Steps

variable [DecidableEq T] {t : T}

@[simp] theorem State.setPc_pc_self (s : State T) (t : T) (pc : Pc) : (s.setPc t pc).pc t = pc := by
  simp [State.setPc]

@[simp] theorem State.setPc_pc_of_ne (s : State T) {t u : T} (pc : Pc) (hu : u ≠ t) :
    (s.setPc t pc).pc u = s.pc u := by
  simp [State.setPc, hu]

@[simp] theorem State.setPc_head (s : State T) (t : T) (pc : Pc) : (s.setPc t pc).head = s.head := rfl

@[simp] theorem State.setPc_next (s : State T) (t : T) (pc : Pc) : (s.setPc t pc).next = s.next := rfl

@[simp] theorem State.setPc_live (s : State T) (t : T) (pc : Pc) : (s.setPc t pc).live = s.live := rfl

omit [DecidableEq T] in
theorem Chain.of_outside (hc : Chain s) {s' : State T} (hpc : (s.pc t).entered = false)
    (hpc' : (s'.pc t).entered = false) (hpcu : ∀ u, u ≠ t → s'.pc u = s.pc u) (hhead : s'.head = s.head)
    (htail : s'.tail = s.tail) (hnext : s'.next = s.next) : Chain s' := by
  obtain ⟨l, hnd, hmem, hlink, hhead'⟩ := hc
  have htl : t ∉ l := fun ht => by
    rw [hmem, hpc] at ht
    cases ht
  refine ⟨l, hnd, fun u => ?_, ?_, fun u hu => ?_⟩
  · rcases eq_or_ne u t with rfl | hut
    · rw [hpc']
      simpa using htl
    · rw [hpcu u hut, hmem]
  · rw [hhead, htail]
    refine hlink.congr fun u hu => ?_
    have hut := ne_of_mem_of_not_mem hu htl
    exact ⟨prevTok_congr (hpcu u hut) (.inl hhead),
      myNode_congr (hpcu u hut) (.inr ⟨hhead, by rw [hnext]⟩)⟩
  · rcases eq_or_ne u t with rfl | hut
    · unfold Holds at hu
      rw [Pc.entered_of_holding hu] at hpc'
      cases hpc'
    · exact hhead' u (hu.of_pc_eq (hpcu u hut))

omit [DecidableEq T] in
theorem LinkOk.of_outside (hl : LinkOk s) {s' : State T} (hpc' : (s'.pc t).linked = false)
    (hpcu : ∀ u, u ≠ t → s'.pc u = s.pc u) (hhead : s'.head = s.head) (hnext : s'.next = s.next) :
    LinkOk s' := by
  intro u hu
  rcases eq_or_ne u t with rfl | hut
  · rw [hpc'] at hu
    cases hu
  · rw [prevTok_congr (hpcu u hut) (.inl hhead), myNode_congr (hpcu u hut) (.inr ⟨hhead, by rw [hnext]⟩),
      hnext]
    exact hl u (by rwa [hpcu u hut] at hu)

theorem Inv.of_inside (h : Inv s) {pc : Pc} (hl : (s.pc t).linked = true) (hl' : pc.linked = true)
    (hprev : prevTok (s.setPc t pc) t = prevTok s t) (hmine : myNode (s.setPc t pc) t = myNode s t)
    (hpass : pc.holding = true → Holds s t ∨ prevTok s t = s.head) : Inv (s.setPc t pc) := by
  have hpcu : ∀ u, u ≠ t → (s.setPc t pc).pc u = s.pc u := fun u hu => State.setPc_pc_of_ne _ _ hu
  have hmine' : ∀ u, myNode (s.setPc t pc) u = myNode s u := fun u => by
    rcases eq_or_ne u t with rfl | hut
    · exact hmine
    · exact myNode_congr (hpcu u hut) (.inr ⟨rfl, rfl⟩)
  have hprev' : ∀ u, prevTok (s.setPc t pc) u = prevTok s u := fun u => by
    rcases eq_or_ne u t with rfl | hut
    · exact hprev
    · exact prevTok_congr (hpcu u hut) (.inl rfl)
  obtain ⟨l, hnd, hmem, hlink, hhead⟩ := h.chain
  have htl : t ∈ l := (hmem t).mpr (Pc.entered_of_linked hl)
  refine h.of_heap ⟨l, hnd, fun u => ?_, hlink.congr fun u _ => ⟨hprev' u, hmine' u⟩, fun u hu => ?_⟩
    (fun u hu => ?_) rfl rfl (fun u hu => ?_) hmine'
  · rcases eq_or_ne u t with rfl | hut
    · rw [State.setPc_pc_self, Pc.entered_of_linked hl']
      simpa using htl
    · rw [hpcu u hut, hmem]
  · rcases eq_or_ne u t with rfl | hut
    · unfold Holds at hu
      rw [State.setPc_pc_self] at hu
      rcases hpass hu with hheld | hfree
      · exact hhead u hheld
      · -- `t` passes the spin: `head` is its predecessor, so it is the first thread
        obtain ⟨w, l', rfl⟩ := List.exists_cons_of_ne_nil (List.ne_nil_of_mem htl)
        have hfresh : ∀ x ∈ w :: l', ¬ myNode s x = s.head := fun x hx =>
          h.ownNe x (Pc.ne_idle_of_entered ((hmem x).mp hx))
        rw [hlink.eq_head_of_released (R := fun k => k = s.head) hfresh htl hfree]
        rfl
    · exact hhead u (hu.of_pc_eq (hpcu u hut))
  · rw [hprev', hmine', State.setPc_next]
    rcases eq_or_ne u t with rfl | hut
    · exact h.linked u hl
    · exact h.linked u (by rwa [hpcu u hut] at hu)
  · rcases eq_or_ne u t with rfl | hut
    · exact Pc.ne_idle_of_entered (Pc.entered_of_linked hl)
    · rwa [hpcu u hut] at hu

/-- **The call of `lock`**: `malloc` hands `t` a block not in use. -/
theorem Inv.lock (h : Inv s) (hpc : s.pc t = .idle) {n : ℕ} (hn : s.live n = false) :
    Inv ({ s with live := Function.update s.live n true }.setPc t (.xchg n)) := by
  set s' := { s with live := Function.update s.live n true }.setPc t (.xchg n) with hs'
  have hpcu : ∀ u, u ≠ t → s'.pc u = s.pc u := fun u hu => State.setPc_pc_of_ne _ _ hu
  have hmine : ∀ u, u ≠ t → myNode s' u = myNode s u := fun u hu =>
    myNode_congr (hpcu u hu) (.inr ⟨rfl, rfl⟩)
  have hlive : ∀ x, s.live x = true → s'.live x = true := fun x hx => by
    show Function.update s.live n true x = true
    rcases eq_or_ne x n with rfl | hxn
    · exact Function.update_self ..
    · rw [Function.update_of_ne hxn, hx]
  have hfresh : ∀ u, s.pc u ≠ .idle → myNode s u ≠ n := fun u hu he => by
    rw [← he, h.ownLive u hu] at hn
    cases hn
  have hhn : s.head ≠ n := fun he => by
    rw [← he, h.headLive] at hn
    cases hn
  have hidle : ∀ u, u ≠ t → s'.pc u ≠ .idle → s.pc u ≠ .idle := fun u hu h' => by rwa [hpcu u hu] at h'
  have hpct : s'.pc t = .xchg n := by rw [hs', State.setPc_pc_self]
  refine ⟨h.chain.of_outside (by rw [hpc]; rfl) (by rw [hpct]; rfl) hpcu rfl rfl rfl,
    h.linked.of_outside (by rw [hpct]; rfl) hpcu rfl rfl, hlive _ h.headLive, fun u hu => ?_, fun u hu => ?_,
    inj_of_fresh h.ownInj hmine hidle fun u hut hu => ?_⟩
  · rcases eq_or_ne u t with rfl | hut
    · rw [hs']
      simp [myNode]
    · rw [hmine u hut]
      exact hlive _ (h.ownLive u (hidle u hut hu))
  · rcases eq_or_ne u t with rfl | hut
    · rw [hs']
      simpa [myNode] using hhn.symm
    · rw [hmine u hut]
      exact h.ownNe u (hidle u hut hu)
  · rw [hs']
    simpa [myNode] using hfresh u hu

/-- **The swap** appends `t` to the chain, its node the new `tail`. -/
theorem Inv.xchg (h : Inv s) {m : ℕ} (hpc : s.pc t = .xchg m) :
    Inv ({ s with tail := m }.setPc t (.link m s.tail)) := by
  set s' := { s with tail := m }.setPc t (.link m s.tail) with hs'
  have hpct : s'.pc t = .link m s.tail := by rw [hs', State.setPc_pc_self]
  have hpcu : ∀ u, u ≠ t → s'.pc u = s.pc u := fun u hu => State.setPc_pc_of_ne _ _ hu
  have hmine : ∀ u, myNode s' u = myNode s u := fun u => by
    rcases eq_or_ne u t with rfl | hut
    · unfold myNode
      rw [hpct, hpc]
    · exact myNode_congr (hpcu u hut) (.inr ⟨rfl, rfl⟩)
  obtain ⟨l, hnd, hmem, hlink, hhead⟩ := h.chain
  have htl : t ∉ l := fun ht => by
    rw [hmem, hpc] at ht
    cases ht
  refine h.of_heap ⟨l ++ [t], ?_, fun u => ?_, ?_, fun u hu => ?_⟩
    (h.linked.of_outside (by rw [hpct]; rfl) hpcu rfl rfl) rfl rfl (fun u hu => ?_) hmine
  · rw [← List.concat_eq_append]
    exact List.Nodup.concat htl hnd
  · rcases eq_or_ne u t with rfl | hut
    · rw [hpct]
      simp [Pc.entered]
    · simp only [List.mem_append, List.mem_singleton, hut, or_false]
      rw [hpcu u hut, hmem]
  · -- `prev` is the old `tail`, the last node of the chain
    have hprev : prevTok s' t = s.tail := by
      unfold prevTok
      rw [hpct]
    have := (hlink.congr fun u hu => ⟨prevTok_congr (hpcu u (ne_of_mem_of_not_mem hu htl)) (.inl rfl),
      hmine u⟩).concat hprev
    rwa [hmine, show myNode s t = m by unfold myNode; rw [hpc]] at this
  · rcases eq_or_ne u t with rfl | hut
    · unfold Holds at hu
      rw [hpct] at hu
      cases hu
    · have hu0 : Holds s u := hu.of_pc_eq (hpcu u hut)
      rw [List.head?_append, hhead u hu0]
      rfl
  · rcases eq_or_ne u t with rfl | hut
    · rw [hpc]
      exact Pc.noConfusion
    · rwa [hpcu u hut] at hu

/-- **The store of `prev->next`** links the predecessor to `t`'s node; no
other thread of the chain waits for `prev`, so no other link changes. -/
theorem Inv.link (h : Inv s) {m p : ℕ} (hpc : s.pc t = .link m p) :
    Inv ({ s with next := Function.update s.next p (some m) }.setPc t (.spin m p)) := by
  set s' := { s with next := Function.update s.next p (some m) }.setPc t (.spin m p) with hs'
  have hpct : s'.pc t = .spin m p := by rw [hs', State.setPc_pc_self]
  have hpcu : ∀ u, u ≠ t → s'.pc u = s.pc u := fun u hu => State.setPc_pc_of_ne _ _ hu
  have hent : (s.pc t).entered = true := by rw [hpc]; rfl
  have hprev0 : prevTok s t = p := by unfold prevTok; rw [hpc]
  have hnext : ∀ u, u ≠ t → (s.pc u).entered = true → s'.next (prevTok s u) = s.next (prevTok s u) :=
    fun u hu he => Function.update_of_ne (fun hpu => hu (h.prevTok_inj he hent (hpu.trans hprev0.symm))) _ _
  have hprev : ∀ u, prevTok s' u = prevTok s u := fun u => by
    rcases eq_or_ne u t with rfl | hut
    · unfold prevTok
      rw [hpct, hpc]
    · exact prevTok_congr (hpcu u hut) (.inl rfl)
  have hmine : ∀ u, myNode s' u = myNode s u := fun u => by
    rcases eq_or_ne u t with rfl | hut
    · unfold myNode
      rw [hpct, hpc]
    · by_cases he : (s.pc u).entered = true
      · exact myNode_congr (hpcu u hut) (.inr ⟨rfl, hnext u hut he⟩)
      · refine myNode_congr (hpcu u hut) (.inl ?_)
        cases hh : (s.pc u).holding
        · rfl
        · exact absurd (Pc.entered_of_holding hh) he
  obtain ⟨l, hnd, hmem, hlink, hhead⟩ := h.chain
  refine h.of_heap ⟨l, hnd, fun u => ?_, hlink.congr fun u _ => ⟨hprev u, hmine u⟩, fun u hu => ?_⟩
    (fun u hu => ?_) rfl rfl (fun u hu => ?_) hmine
  · rcases eq_or_ne u t with rfl | hut
    · rw [hpct, hmem, hpc]
      rfl
    · rw [hpcu u hut, hmem]
  · rcases eq_or_ne u t with rfl | hut
    · unfold Holds at hu
      rw [hpct] at hu
      cases hu
    · exact hhead u (hu.of_pc_eq (hpcu u hut))
  · rw [hprev, hmine]
    rcases eq_or_ne u t with rfl | hut
    · rw [hprev0, show myNode s u = m by unfold myNode; rw [hpc]]
      exact Function.update_self ..
    · have hu' : (s.pc u).linked = true := by rwa [hpcu u hut] at hu
      rw [hnext u hut (Pc.entered_of_linked hu')]
      exact h.linked u hu'
  · rcases eq_or_ne u t with rfl | hut
    · rw [hpc]
      exact Pc.noConfusion
    · rwa [hpcu u hut] at hu

/-- **The end of the spin**: `t` finds `head` equal to its predecessor. -/
theorem Inv.pass (h : Inv s) {m : ℕ} (hpc : s.pc t = .spin m s.head) : Inv (s.setPc t .held) := by
  have hl : s.next s.head = some m := by
    have := h.linked t (by rw [hpc]; rfl)
    unfold prevTok myNode at this
    rwa [hpc] at this
  refine h.of_inside (by rw [hpc]; rfl) rfl ?_ ?_ fun _ => .inr ?_
  · simp only [prevTok, State.setPc_pc_self, State.setPc_head, hpc]
  · simp only [myNode, State.setPc_pc_self, State.setPc_next, State.setPc_head, hpc, hl, Option.getD_some]
  · simp only [prevTok, hpc]

/-- **The call of `unlock`** loads `head`, the holder's predecessor. -/
theorem Inv.unlock (h : Inv s) (hpc : s.pc t = .held) : Inv (s.setPc t (.readNext s.head)) :=
  h.of_inside (by rw [hpc]; rfl) rfl (by simp only [prevTok, State.setPc_pc_self, hpc])
    (by simp only [myNode, State.setPc_pc_self, State.setPc_next, hpc])
    fun _ => .inl (by unfold Holds; rw [hpc]; rfl)

omit [DecidableEq T] in
/-- `unlock` finds the holder's node in `prev->next`, never an unset field. -/
theorem Inv.next_readNext (h : Inv s) {p : ℕ} (hpc : s.pc t = .readNext p) : s.next p = some (myNode s t) := by
  have := h.linked t (by rw [hpc]; rfl)
  unfold prevTok at this
  rwa [hpc] at this

/-- **The load of `prev->next`**. -/
theorem Inv.readNext (h : Inv s) {p m : ℕ} (hpc : s.pc t = .readNext p) (hn : s.next p = some m) :
    Inv (s.setPc t (.store p m)) :=
  h.of_inside (by rw [hpc]; rfl) rfl (by simp only [prevTok, State.setPc_pc_self, hpc])
    (by simp only [myNode, State.setPc_pc_self, hpc, hn, Option.getD_some])
    fun _ => .inl (by unfold Holds; rw [hpc]; rfl)

/-- **The store of `head`** drops the holder from the chain, and hands it the
old `head` to free: the new `head` is its node. -/
theorem Inv.store (h : Inv s) {p m : ℕ} (hpc : s.pc t = .store p m) :
    Inv ({ s with head := m }.setPc t (.free p)) := by
  set s' := { s with head := m }.setPc t (.free p) with hs'
  have hpct : s'.pc t = .free p := by rw [hs', State.setPc_pc_self]
  have hpcu : ∀ u, u ≠ t → s'.pc u = s.pc u := fun u hu => State.setPc_pc_of_ne _ _ hu
  have ht : Holds s t := by unfold Holds; rw [hpc]; rfl
  have htn : s.pc t ≠ .idle := by rw [hpc]; exact Pc.noConfusion
  have hp : p = s.head := by
    have := h.prevTok_holder ht
    unfold prevTok at this
    rwa [hpc] at this
  have hm : myNode s t = m := by unfold myNode; rw [hpc]
  have hmt : myNode s' t = p := by unfold myNode; rw [hpct]
  have hnh : ∀ u, u ≠ t → (s.pc u).holding = false := fun u hu => by
    cases hh : (s.pc u).holding
    · rfl
    · exact absurd (h.holds_eq hh ht) hu
  have hmine : ∀ u, u ≠ t → myNode s' u = myNode s u := fun u hu => myNode_congr (hpcu u hu) (.inl (hnh u hu))
  have hidle : ∀ u, u ≠ t → s'.pc u ≠ .idle → s.pc u ≠ .idle := fun u hu h' => by rwa [hpcu u hu] at h'
  obtain ⟨l, hnd, hmem, hlink, hhead⟩ := h.chain
  obtain ⟨rest, rfl⟩ : ∃ rest, l = t :: rest := by
    cases l with
    | nil => cases hhead t ht
    | cons w rest => exact ⟨rest, by rw [Option.some.inj (hhead t ht)]⟩
  obtain ⟨htr, hnd⟩ := List.nodup_cons.mp hnd
  have hrest : ∀ u ∈ rest, u ≠ t := fun u hu => ne_of_mem_of_not_mem hu htr
  have hprev : ∀ u, u ≠ t → (s.pc u).entered = true → prevTok s' u = prevTok s u := fun u hu he =>
    prevTok_congr (hpcu u hu) (.inr ⟨hnh u hu, he⟩)
  refine ⟨⟨rest, hnd, fun u => ?_, ?_, fun u hu => ?_⟩, fun u hu => ?_, ?_, fun u hu => ?_, fun u hu => ?_,
    inj_of_fresh h.ownInj hmine hidle fun u hut hu => ?_⟩
  · rcases eq_or_ne u t with rfl | hut
    · rw [hpct]
      simpa [Pc.entered] using htr
    · rw [hpcu u hut, ← hmem, List.mem_cons, or_iff_right hut]
  · show Linked (prevTok s') (myNode s') m rest s.tail
    rw [← hm]
    exact hlink.tail.congr fun u hu =>
      ⟨hprev u (hrest u hu) ((hmem u).mp (.tail _ hu)), hmine u (hrest u hu)⟩
  · rcases eq_or_ne u t with rfl | hut
    · unfold Holds at hu
      rw [hpct] at hu
      cases hu
    · exact absurd (h.holds_eq (hu.of_pc_eq (hpcu u hut)) ht) hut
  · rcases eq_or_ne u t with rfl | hut
    · rw [hpct] at hu
      cases hu
    · have hu' : (s.pc u).linked = true := by rwa [hpcu u hut] at hu
      rw [hprev u hut (Pc.entered_of_linked hu'), hmine u hut]
      exact h.linked u hu'
  · show s.live m = true
    rw [← hm]
    exact h.ownLive t htn
  · rcases eq_or_ne u t with rfl | hut
    · rw [hmt, hp]
      exact h.headLive
    · rw [hmine u hut]
      exact h.ownLive u (hidle u hut hu)
  · show myNode s' u ≠ m
    rcases eq_or_ne u t with rfl | hut
    · rw [hmt, hp, ← hm]
      exact (h.ownNe u htn).symm
    · rw [hmine u hut, ← hm]
      exact fun he => hut (h.ownInj u t (hidle u hut hu) htn he)
  · rw [hmt, hp]
    exact h.ownNe u hu

/-- **`free(prev)`** gives back the old `head`, which no one else owns. -/
theorem Inv.free (h : Inv s) {p : ℕ} (hpc : s.pc t = .free p) :
    Inv ({ s with live := Function.update s.live p false }.setPc t .idle) := by
  set s' := { s with live := Function.update s.live p false }.setPc t .idle with hs'
  have hpct : s'.pc t = .idle := by rw [hs', State.setPc_pc_self]
  have hpcu : ∀ u, u ≠ t → s'.pc u = s.pc u := fun u hu => State.setPc_pc_of_ne _ _ hu
  have htn : s.pc t ≠ .idle := by rw [hpc]; exact Pc.noConfusion
  have hp : myNode s t = p := by unfold myNode; rw [hpc]
  have hmine : ∀ u, u ≠ t → myNode s' u = myNode s u := fun u hu =>
    myNode_congr (hpcu u hu) (.inr ⟨rfl, rfl⟩)
  have hidle : ∀ u, s'.pc u ≠ .idle → u ≠ t ∧ s.pc u ≠ .idle := fun u hu => by
    rcases eq_or_ne u t with rfl | hut
    · exact absurd hpct hu
    · exact ⟨hut, by rwa [hpcu u hut] at hu⟩
  have hlive : ∀ x, x ≠ p → s'.live x = s.live x := fun x hx => Function.update_of_ne hx _ _
  refine ⟨h.chain.of_outside (by rw [hpc]; rfl) (by rw [hpct]; rfl) hpcu rfl rfl rfl,
    h.linked.of_outside (by rw [hpct]; rfl) hpcu rfl rfl, ?_, fun u hu => ?_, fun u hu => ?_,
    fun u v hu hv huv => ?_⟩
  · rw [State.setPc_head, hlive _ fun he => h.ownNe t htn (hp.trans he.symm)]
    exact h.headLive
  · obtain ⟨hut, hu⟩ := hidle u hu
    rw [hmine u hut, hlive _ fun he => hut (h.ownInj u t hu htn (he.trans hp.symm))]
    exact h.ownLive u hu
  · obtain ⟨hut, hu⟩ := hidle u hu
    rw [hmine u hut]
    exact h.ownNe u hu
  · obtain ⟨hut, hu⟩ := hidle u hu
    obtain ⟨hvt, hv⟩ := hidle v hv
    rw [hmine u hut, hmine v hvt] at huv
    exact h.ownInj u v hu hv huv

/-- **Every step keeps the invariant.** -/
theorem Inv.of_step (h : Inv s) {a : Act T} {s' : State T} (hs : step s a = some s') : Inv s' := by
  cases a with
  | lock t n =>
    cases hpc : s.pc t with
    | idle =>
      cases hn : s.live n with
      | true => simp [step, hpc, hn] at hs
      | false =>
        simp only [step, hpc, hn, Bool.false_eq_true, if_false, Option.some.injEq] at hs
        exact hs ▸ h.lock hpc hn
    | _ => simp [step, hpc] at hs
  | unlock t =>
    cases hpc : s.pc t with
    | held =>
      simp only [step, hpc, Option.some.injEq] at hs
      exact hs ▸ h.unlock hpc
    | _ => simp [step, hpc] at hs
  | next t =>
    cases hpc : s.pc t with
    | idle | held => simp [step, hpc] at hs
    | xchg m =>
      simp only [step, hpc, Option.some.injEq] at hs
      exact hs ▸ h.xchg hpc
    | link m p =>
      simp only [step, hpc, Option.some.injEq] at hs
      exact hs ▸ h.link hpc
    | spin m p =>
      simp only [step, hpc, Option.some.injEq] at hs
      subst hs
      -- the spin either ends or loads `head` once more
      split_ifs with he
      · exact h.pass (he ▸ hpc)
      · exact h
    | readNext p =>
      -- the load finds the holder's node: the early return is never taken
      have hn := h.next_readNext hpc
      simp only [step, hpc, hn, Option.some.injEq] at hs
      exact hs ▸ h.readNext hpc hn
    | store p m =>
      simp only [step, hpc, Option.some.injEq] at hs
      exact hs ▸ h.store hpc
    | free p =>
      simp only [step, hpc, Option.some.injEq] at hs
      exact hs ▸ h.free hpc

theorem step_pc_of_ne {a : Act T} {s' : State T} (hs : step s a = some s') {u : T} (hu : u ≠ a.thread) :
    s'.pc u = s.pc u := by
  cases a with
  | lock t n =>
    cases hpc : s.pc t <;> simp only [step, hpc, reduceCtorEq] at hs
    split_ifs at hs
    obtain rfl := Option.some.inj hs
    exact State.setPc_pc_of_ne _ _ hu
  | unlock t =>
    cases hpc : s.pc t <;> simp only [step, hpc, reduceCtorEq, Option.some.injEq] at hs
    subst hs
    exact State.setPc_pc_of_ne _ _ hu
  | next t =>
    cases hpc : s.pc t <;> simp only [step, hpc, reduceCtorEq, Option.some.injEq] at hs
    case spin =>
      subst hs
      split_ifs
      · exact State.setPc_pc_of_ne _ _ hu
      · rfl
    case readNext =>
      split at hs <;> (obtain rfl := Option.some.inj hs; exact State.setPc_pc_of_ne _ _ hu)
    all_goals subst hs; exact State.setPc_pc_of_ne _ _ hu

theorem step_of_held {a : Act T} {s' : State T} (hpc : s.pc a.thread = .held) (hs : step s a = some s') :
    a.isUnlock = true := by
  cases a with
  | unlock t => rfl
  | lock t n =>
    simp only [Act.thread] at hpc
    simp [step, hpc] at hs
  | next t =>
    simp only [Act.thread] at hpc
    simp [step, hpc] at hs

end Steps

/-- **Every block a step stores to, loads from or frees is in use**: the
predecessor a thread links is `head` or another thread's node, `unlock`
loads from `head`, and frees the old `head` it alone owns. -/
theorem Inv.touches_live (h : Inv s) {a : Act T} {n : ℕ} (ht : touches s a = some n) : s.live n = true := by
  cases a with
  | next t =>
    cases hpc : s.pc t with
    | link m p =>
      simp only [touches, hpc, Option.some.injEq] at ht
      subst ht
      have := h.prevTok_live (u := t) (by rw [hpc]; rfl)
      unfold prevTok at this
      rwa [hpc] at this
    | readNext p =>
      simp only [touches, hpc, Option.some.injEq] at ht
      subst ht
      have := h.prevTok_holder (u := t) (by unfold Holds; rw [hpc]; rfl)
      unfold prevTok at this
      rw [hpc] at this
      rw [show p = s.head from this]
      exact h.headLive
    | free p =>
      simp only [touches, hpc, Option.some.injEq] at ht
      subst ht
      have := h.ownLive t (by rw [hpc]; exact Pc.noConfusion)
      unfold myNode at this
      rwa [hpc] at this
    | _ => simp [touches, hpc] at ht
  | _ => simp [touches] at ht

section Runs

variable [DecidableEq T] {node : ℕ} {acts : List (Act T)}

theorem inv_of_run (hrun : Machine.runSteps step (mpscMutexInit node) acts = some s) : Inv s :=
  Machine.runSteps_inv step (G := fun _ => True) (fun _ _ _ h _ hs => h.of_step hs) (fun _ _ => trivial)
    (inv_mpscMutexInit node) hrun

/-- **The MPSC lock is a mutual exclusion lock**: in every run from
`mpsc_mutex_init`, whatever blocks `malloc` returns, at most one thread holds it. -/
theorem mpsc_mutual_exclusion (hrun : Machine.runSteps step (mpscMutexInit node) acts = some s) {u v : T}
    (hu : Holds s u) (hv : Holds s v) : u = v :=
  (inv_of_run hrun).holds_eq hu hv

/-- Thread `false` takes the lock; thread `true` links behind it and spins. -/
theorem mpsc_mutual_exclusion_twoThreads :
    ∃ s, Machine.runSteps step (mpscMutexInit 0)
        [.lock false 1, .next false, .next false, .next false, .lock true 2, .next true, .next true,
          .next true] = some s ∧ Holds s false ∧ ∀ u, Holds s u → u = false := by
  obtain ⟨s, hrun, hheld⟩ : ∃ s, Machine.runSteps step (mpscMutexInit 0)
      [.lock false 1, .next false, .next false, .next false, .lock true 2, .next true, .next true,
        .next true] = some s ∧ Holds s false := ⟨_, rfl, rfl⟩
  exact ⟨s, hrun, hheld, fun _ hu => mpsc_mutual_exclusion hrun hu hheld⟩

/-- **The MPSC lock is memory safe**: in every run from `mpsc_mutex_init`,
every block the next step of any thread stores to, loads from or frees is
one `malloc` handed out and `free` has not taken back, and `unlock`'s load
of `prev->next` finds a node stored there. -/
theorem mpsc_memory_safe (hrun : Machine.runSteps step (mpscMutexInit node) acts = some s) :
    (∀ a n, touches s a = some n → s.live n = true) ∧
      ∀ t p, s.pc t = .readNext p → (s.next p).isSome = true := by
  have h := inv_of_run hrun
  refine ⟨fun a n ht => h.touches_live ht, fun t p hpc => ?_⟩
  rw [h.next_readNext hpc]
  rfl

/-- Thread `false` takes the lock from the first block and starts to unlock,
with thread `true` waiting. -/
theorem mpsc_memory_safe_unlocking :
    ∃ s, Machine.runSteps step (mpscMutexInit 0)
        [.lock false 1, .next false, .next false, .next false, .lock true 2, .next true, .next true,
          .unlock false] = some s ∧ s.pc false = .readNext 0 ∧
      ((∀ a n, touches s a = some n → s.live n = true) ∧
        ∀ t p, s.pc t = .readNext p → (s.next p).isSome = true) := by
  obtain ⟨s, hrun, hpc⟩ : ∃ s, Machine.runSteps step (mpscMutexInit 0)
      [.lock false 1, .next false, .next false, .next false, .lock true 2, .next true, .next true,
        .unlock false] = some s ∧ s.pc false = .readNext 0 := ⟨_, rfl, rfl⟩
  exact ⟨s, hrun, hpc, mpsc_memory_safe hrun⟩

/-! ### The lock of a `q_t` -/

/-- The MPSC lock, whose first node `malloc` returned as `node`, as the
machine of its threads, a thread at `held` from the return of `lock` to its
call of `unlock`. -/
def lockModel (node : ℕ) : Critical.LockModel T (State T) (Act T) where
  init := mpscMutexInit node
  step := step
  actor := Act.thread
  isUnlock := Act.isUnlock
  atHeld s t := decide (s.pc t = .held)

/-- The MPSC lock gives what `Critical` asks of a lock. -/
theorem lockModel_good (node : ℕ) : (lockModel (T := T) node).Good Inv where
  init := inv_mpscMutexInit node
  step _ _ _ h hs := h.of_step hs
  excl _ _ _ h ht hu := h.holds_eq (by unfold Holds; rw [of_decide_eq_true ht]; rfl)
    (by unfold Holds; rw [of_decide_eq_true hu]; rfl)
  frame _ _ _ t _ hs ht := by
    show decide _ = decide _
    rw [step_pc_of_ne hs (Ne.symm ht)]
  own _ _ _ _ ha hs := step_of_held (of_decide_eq_true ha) hs

end Runs

end Mpsc
end QueueRate
