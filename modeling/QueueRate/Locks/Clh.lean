import QueueRate.Lib.Machine
import QueueRate.Lib.TokenChain
import QueueRate.Lib.Critical
import Mathlib.Data.List.Nodup

/-!
# The CLH lock of `lockrate_clh`

`clh_mutex.h`: `lock` takes a node from `malloc` with `succ_must_wait` set,
swaps it into `tail` by `atomic_exchange`, getting `prev`, spins until
`prev->succ_must_wait` is clear, frees `prev`, and stores its node in the
mutex's `mynode`; `unlock` clears `succ_must_wait` on `self->mynode`. Nodes
are addresses: `malloc` may return any block not in use (the action
`Act.lock` names it), and `free` takes it back.

The threads that have swapped and not cleared their node form a chain of
nodes ending at `tail` (`Chain`), starting at the node released last. Each
thread's node stays set until its owner clears it, so only the first thread
of the chain finds its predecessor clear, and at most one thread holds the
lock (`clh_mutual_exclusion`). Each node in use has one owner: the released
node the lock until the first thread frees it, every other one its thread.
So every block a step loads from, stores to or frees is in use
(`clh_memory_safe`), and `unlock` finds the holder's node in `self->mynode`.

Key definitions: `Pc`, `State`, `clhMutexInit`, `step`, `touches`, `Holds`, `Inv`.
-/

namespace QueueRate
namespace Clh

open TokenChain

/-- Where a thread is in `clh_mutex_lock` and `clh_mutex_unlock`. -/
inductive Pc
  /-- outside the mutex -/
  | idle
  /-- in `lock`, `mynode` created locked, next: `prev = atomic_exchange(&self->tail, mynode)` -/
  | xchg (mynode : ℕ)
  /-- in the spin on `prev->succ_must_wait` -/
  | spin (mynode prev : ℕ)
  /-- past the spin, next: `free(prev)` -/
  | freePrev (mynode prev : ℕ)
  /-- next: `self->mynode = mynode` -/
  | setMy (mynode : ℕ)
  /-- holds the lock -/
  | held
  /-- in `unlock`, `self->mynode` loaded, next: `atomic_store(&self->mynode->succ_must_wait, 0)` -/
  | release (mynode : ℕ)
  deriving DecidableEq, Repr

/-- A `clh_mutex_t`, the heap of its nodes, and where each thread of `T` is in its calls. -/
structure State (T : Type*) where
  tail : ℕ
  /-- `self->mynode`: `none` for `NULL` -/
  mynode : Option ℕ
  /-- the `succ_must_wait` field of each block -/
  flag : ℕ → Bool
  /-- the blocks `malloc` has handed out and `free` not taken back -/
  live : ℕ → Bool
  pc : T → Pc

/-- An action of thread `t`: a call of `lock` whose `malloc` returns `node`, a
call of `unlock`, or its next step within one. -/
inductive Act (T : Type*)
  | lock (t : T) (node : ℕ)
  | unlock (t : T)
  | next (t : T)

variable {T : Type*}

/-- The thread that takes an action. -/
def Act.thread : Act T → T
  | .lock t _ | .unlock t | .next t => t

/-- The action is a call of `unlock`. -/
def Act.isUnlock : Act T → Bool
  | .unlock _ => true
  | _ => false

/-- `clh_mutex_init`, whose `malloc` returned `node`, created unlocked. -/
def clhMutexInit (node : ℕ) : State T :=
  ⟨node, some node, fun _ => false, fun n => n == node, fun _ => .idle⟩

/-- The block whose memory the step of `a` loads from, frees or stores to. -/
def touches (s : State T) : Act T → Option ℕ
  | .next t =>
    match s.pc t with
    | .spin _ prev | .freePrev _ prev | .release prev => some prev
    | _ => none
  | _ => none

section Model

variable [DecidableEq T]

/-- Thread `t` moves to `pc`. -/
def State.setPc (s : State T) (t : T) (pc : Pc) : State T :=
  { s with pc := Function.update s.pc t pc }

/-- The step an action takes; `none` when the thread cannot take it. -/
def step (s : State T) : Act T → Option (State T)
  | .lock t node =>
    match s.pc t with
    -- `mynode = clh_mutex_create_node(1)`: `malloc` returns a block not in use
    | .idle =>
      if s.live node then none
      else some ({ s with live := Function.update s.live node true,
                          flag := Function.update s.flag node true }.setPc t (.xchg node))
    | _ => none
  | .unlock t =>
    match s.pc t with
    -- the loads of `self->mynode` in `unlock`, before any other thread can store it
    | .held =>
      match s.mynode with
      -- `if (self->mynode == NULL) return;`
      | none => some (s.setPc t .idle)
      | some mynode => some (s.setPc t (.release mynode))
    | _ => none
  | .next t =>
    match s.pc t with
    | .xchg mynode => some ({ s with tail := mynode }.setPc t (.spin mynode s.tail))
    -- `prev_islocked = atomic_load(&prev->succ_must_wait)`, until clear
    | .spin mynode prev => some (if s.flag prev then s else s.setPc t (.freePrev mynode prev))
    | .freePrev mynode prev => some ({ s with live := Function.update s.live prev false }.setPc t (.setMy mynode))
    | .setMy mynode => some ({ s with mynode := some mynode }.setPc t .held)
    | .release mynode => some ({ s with flag := Function.update s.flag mynode false }.setPc t .idle)
    | _ => none

end Model

/-- Thread `t` holds the lock: from the end of the spin to the store of `unlock`. -/
def Pc.holding : Pc → Bool
  | .freePrev _ _ | .setMy _ | .held | .release _ => true
  | _ => false

/-- Thread `t` holds the lock. -/
def Holds (s : State T) (t : T) : Prop := (s.pc t).holding = true

/-! ### The chain of nodes -/

/-- Past the swap and before the store of `unlock`. -/
def Pc.entered : Pc → Bool
  | .spin _ _ | .freePrev _ _ | .setMy _ | .held | .release _ => true
  | _ => false

/-- Still waiting for, or about to free, the predecessor's node. -/
def Pc.waiting : Pc → Bool
  | .spin _ _ | .freePrev _ _ => true
  | _ => false

/-- The node a thread waits for; past `free(prev)` it waits for none. -/
def prevTok (s : State T) (t : T) : ℕ :=
  match s.pc t with
  | .spin _ prev | .freePrev _ prev => prev
  | _ => 0

/-- The node a thread owns: the one `malloc` gave it, for the holder in
`self->mynode`. -/
def myNode (s : State T) (t : T) : ℕ :=
  match s.pc t with
  | .xchg mynode | .spin mynode _ | .freePrev mynode _ | .setMy mynode | .release mynode => mynode
  | .held => s.mynode.getD 0
  | .idle => 0

/-- The threads that swapped form a chain of nodes from the node released
last to `tail`, whose first thread is the holder; while the first thread has
not freed that node, it is live and no thread owns it. -/
def Chain (s : State T) : Prop :=
  ∃ e l, l.Nodup ∧ (∀ u, u ∈ l ↔ (s.pc u).entered = true) ∧
    Linked (prevTok s) (myNode s) e l s.tail ∧ (∀ u, Holds s u → l.head? = some u) ∧
    ((∀ u, l.head? = some u → (s.pc u).waiting = true) →
      s.live e = true ∧ ∀ u, s.pc u ≠ .idle → myNode s u ≠ e)

/-- What every reachable state keeps: the chain, and one owner for each
thread's node, live and set until its owner clears it. -/
structure Inv (s : State T) : Prop where
  chain : Chain s
  ownLive : ∀ u, s.pc u ≠ .idle → s.live (myNode s u) = true
  ownInj : ∀ u v, s.pc u ≠ .idle → s.pc v ≠ .idle → myNode s u = myNode s v → u = v
  ownFlag : ∀ u, s.pc u ≠ .idle → s.flag (myNode s u) = true
  mynodeSet : ∀ u, s.pc u = .held → s.mynode.isSome = true

theorem Pc.entered_of_holding {pc : Pc} (h : pc.holding = true) : pc.entered = true := by
  cases pc <;> first | rfl | cases h

theorem Pc.ne_idle_of_entered {pc : Pc} (h : pc.entered = true) : pc ≠ .idle := by
  rintro rfl
  cases h

variable {s : State T}

theorem Holds.of_pc_eq {s' : State T} {u : T} (hpc : s'.pc u = s.pc u) (hu : Holds s' u) : Holds s u := by
  unfold Holds at hu ⊢
  rwa [hpc] at hu

theorem prevTok_congr {s' : State T} {u : T} (hpc : s'.pc u = s.pc u) : prevTok s' u = prevTok s u := by
  unfold prevTok
  rw [hpc]

/-- Only the thread at `held` reads its node from `self->mynode`. -/
theorem myNode_congr {s' : State T} {u : T} (hpc : s'.pc u = s.pc u)
    (hm : s'.mynode = s.mynode ∨ s.pc u ≠ .held) : myNode s' u = myNode s u := by
  unfold myNode
  rw [hpc]
  rcases hm with hm | hheld
  · rw [hm]
  · generalize s.pc u = pc at hheld
    cases pc with
    | held => exact absurd rfl hheld
    | _ => rfl

theorem Inv.holds_eq (h : Inv s) {u v : T} (hu : Holds s u) (hv : Holds s v) : u = v := by
  obtain ⟨e, l, -, -, -, hhead, -⟩ := h.chain
  exact Option.some.inj ((hhead u hu).symm.trans (hhead v hv))

theorem inv_clhMutexInit (node : ℕ) : Inv (clhMutexInit node : State T) where
  chain := ⟨node, [], List.nodup_nil, fun _ => ⟨fun h => (by cases h), fun h => (by cases h)⟩, rfl,
    fun _ hu => (by cases hu), fun _ => ⟨by simp [clhMutexInit], fun _ h => absurd rfl h⟩⟩
  ownLive _ h := absurd rfl h
  ownInj _ _ h := absurd rfl h
  ownFlag _ h := absurd rfl h
  mynodeSet _ h := by cases h

/-! ### Each step keeps the invariant -/

section Steps

variable [DecidableEq T] {t : T}

@[simp] theorem State.setPc_pc_self (s : State T) (t : T) (pc : Pc) : (s.setPc t pc).pc t = pc := by
  simp [State.setPc]

@[simp] theorem State.setPc_pc_of_ne (s : State T) {t u : T} (pc : Pc) (hu : u ≠ t) :
    (s.setPc t pc).pc u = s.pc u := by
  simp [State.setPc, hu]

@[simp] theorem State.setPc_mynode (s : State T) (t : T) (pc : Pc) : (s.setPc t pc).mynode = s.mynode := rfl

@[simp] theorem State.setPc_flag (s : State T) (t : T) (pc : Pc) : (s.setPc t pc).flag = s.flag := rfl

@[simp] theorem State.setPc_live (s : State T) (t : T) (pc : Pc) : (s.setPc t pc).live = s.live := rfl

omit [DecidableEq T] in
theorem Inv.of_owners (h : Inv s) {s' : State T} (hchain : Chain s')
    (hlive : ∀ u, s'.pc u ≠ .idle → s'.live (myNode s u) = s.live (myNode s u))
    (hflag : s'.flag = s.flag) (hidle : ∀ u, s'.pc u ≠ .idle → s.pc u ≠ .idle)
    (hmine : ∀ u, myNode s' u = myNode s u) (hset : ∀ u, s'.pc u = .held → s'.mynode.isSome = true) :
    Inv s' where
  chain := hchain
  ownLive u hu := by rw [hmine, hlive u hu]; exact h.ownLive u (hidle u hu)
  ownInj u v hu hv he := h.ownInj u v (hidle u hu) (hidle v hv) (by rwa [hmine, hmine] at he)
  ownFlag u hu := by rw [hmine, hflag]; exact h.ownFlag u (hidle u hu)
  mynodeSet := hset

/-- **The call of `lock`**: `malloc` hands `t` a block not in use, which
`clh_mutex_create_node(1)` sets. -/
theorem Inv.lock (h : Inv s) (hpc : s.pc t = .idle) {n : ℕ} (hn : s.live n = false) :
    Inv ({ s with live := Function.update s.live n true,
                  flag := Function.update s.flag n true }.setPc t (.xchg n)) := by
  set s' := { s with live := Function.update s.live n true,
                     flag := Function.update s.flag n true }.setPc t (.xchg n) with hs'
  have hpct : s'.pc t = .xchg n := by rw [hs', State.setPc_pc_self]
  have hpcu : ∀ u, u ≠ t → s'.pc u = s.pc u := fun u hu => State.setPc_pc_of_ne _ _ hu
  have hmine : ∀ u, u ≠ t → myNode s' u = myNode s u := fun u hu => myNode_congr (hpcu u hu) (.inl rfl)
  have hmt : myNode s' t = n := by unfold myNode; rw [hpct]
  have hidle : ∀ u, u ≠ t → s'.pc u ≠ .idle → s.pc u ≠ .idle := fun u hu h' => by rwa [hpcu u hu] at h'
  have hfresh : ∀ x, s.live x = true → x ≠ n := fun x hx he => by
    rw [he, hn] at hx
    cases hx
  have hupd : ∀ (f : ℕ → Bool) x, f x = true → Function.update f n true x = true := fun f x hx => by
    rcases eq_or_ne x n with rfl | hxn
    · exact Function.update_self ..
    · rw [Function.update_of_ne hxn, hx]
  obtain ⟨e, l, hnd, hmem, hlink, hhead, hrel⟩ := h.chain
  have htl : t ∉ l := fun ht => by
    rw [hmem, hpc] at ht
    cases ht
  refine ⟨⟨e, l, hnd, fun u => ?_, ?_, fun u hu => ?_, fun hw => ?_⟩, fun u hu => ?_,
    inj_of_fresh h.ownInj hmine hidle fun u _ hu => ?_, fun u hu => ?_, fun u hu => ?_⟩
  · rcases eq_or_ne u t with rfl | hut
    · rw [hpct]
      simpa [Pc.entered] using htl
    · rw [hpcu u hut, hmem]
  · exact hlink.congr fun u hu =>
      ⟨prevTok_congr (hpcu u (ne_of_mem_of_not_mem hu htl)), hmine u (ne_of_mem_of_not_mem hu htl)⟩
  · rcases eq_or_ne u t with rfl | hut
    · unfold Holds at hu
      rw [hpct] at hu
      cases hu
    · exact hhead u (hu.of_pc_eq (hpcu u hut))
  · -- the first thread waits as before: `t` is not in the chain
    obtain ⟨hlive, hne⟩ := hrel fun u hu => by
      rw [← hpcu u (ne_of_mem_of_not_mem (List.mem_of_mem_head? hu) htl)]
      exact hw u hu
    refine ⟨hupd _ _ hlive, fun u hu => ?_⟩
    rcases eq_or_ne u t with rfl | hut
    · rw [hmt]
      exact (hfresh e hlive).symm
    · rw [hmine u hut]
      exact hne u (hidle u hut hu)
  · rcases eq_or_ne u t with rfl | hut
    · rw [hmt]
      exact Function.update_self ..
    · rw [hmine u hut]
      exact hupd _ _ (h.ownLive u (hidle u hut hu))
  · rw [hmt]
    exact hfresh _ (h.ownLive u hu)
  · rcases eq_or_ne u t with rfl | hut
    · rw [hmt]
      exact Function.update_self ..
    · rw [hmine u hut]
      exact hupd _ _ (h.ownFlag u (hidle u hut hu))
  · rcases eq_or_ne u t with rfl | hut
    · rw [hpct] at hu
      cases hu
    · exact h.mynodeSet u (by rwa [hpcu u hut] at hu)

/-- **The swap** appends `t` to the chain, its node the new `tail`. -/
theorem Inv.xchg (h : Inv s) {m : ℕ} (hpc : s.pc t = .xchg m) :
    Inv ({ s with tail := m }.setPc t (.spin m s.tail)) := by
  set s' := { s with tail := m }.setPc t (.spin m s.tail) with hs'
  have hpct : s'.pc t = .spin m s.tail := by rw [hs', State.setPc_pc_self]
  have hpcu : ∀ u, u ≠ t → s'.pc u = s.pc u := fun u hu => State.setPc_pc_of_ne _ _ hu
  have hmine : ∀ u, myNode s' u = myNode s u := fun u => by
    rcases eq_or_ne u t with rfl | hut
    · unfold myNode
      rw [hpct, hpc]
    · exact myNode_congr (hpcu u hut) (.inl rfl)
  obtain ⟨e, l, hnd, hmem, hlink, hhead, hrel⟩ := h.chain
  have htl : t ∉ l := fun ht => by
    rw [hmem, hpc] at ht
    cases ht
  have hidle : ∀ u, s'.pc u ≠ .idle → s.pc u ≠ .idle := fun u hu => by
    rcases eq_or_ne u t with rfl | hut
    · rw [hpc]
      exact Pc.noConfusion
    · rwa [hpcu u hut] at hu
  refine h.of_owners ⟨e, l ++ [t], ?_, fun u => ?_, ?_, fun u hu => ?_, fun hw => ?_⟩ (fun _ _ => rfl) rfl hidle
    hmine fun u hu => ?_
  · rw [← List.concat_eq_append]
    exact List.Nodup.concat htl hnd
  · rcases eq_or_ne u t with rfl | hut
    · rw [hpct]
      simp [Pc.entered]
    · simp only [List.mem_append, List.mem_singleton, hut, or_false]
      rw [hpcu u hut, hmem]
  · -- `prev` is the old `tail`, the last node of the chain
    have hprev : prevTok s' t = s.tail := by
      unfold prevTok
      rw [hpct]
    have := (hlink.congr fun u hu => ⟨prevTok_congr (hpcu u (ne_of_mem_of_not_mem hu htl)),
      hmine u⟩).concat hprev
    rwa [hmine, show myNode s t = m by unfold myNode; rw [hpc]] at this
  · rcases eq_or_ne u t with rfl | hut
    · unfold Holds at hu
      rw [hpct] at hu
      cases hu
    · have hu0 : Holds s u := hu.of_pc_eq (hpcu u hut)
      rw [List.head?_append, hhead u hu0]
      rfl
  · -- the first thread is the one it was, or `t` itself if the chain was empty
    obtain ⟨hlive, hne⟩ := hrel fun u hu => by
      have hut : u ≠ t := ne_of_mem_of_not_mem (List.mem_of_mem_head? hu) htl
      rw [← hpcu u hut]
      exact hw u (by rw [List.head?_append, hu]; rfl)
    exact ⟨hlive, fun u hu => by rw [hmine]; exact hne u (hidle u hu)⟩
  · rcases eq_or_ne u t with rfl | hut
    · rw [hpct] at hu
      cases hu
    · exact h.mynodeSet u (by rwa [hpcu u hut] at hu)

/-- **The end of the spin**: `t` finds its predecessor's node clear, which
only the first thread can, every node of the chain being set. -/
theorem Inv.pass (h : Inv s) {m p : ℕ} (hpc : s.pc t = .spin m p) (hflag : s.flag p = false) :
    Inv (s.setPc t (.freePrev m p)) := by
  have hpct : (s.setPc t (.freePrev m p)).pc t = .freePrev m p := State.setPc_pc_self _ _ _
  have hpcu : ∀ u, u ≠ t → (s.setPc t (.freePrev m p)).pc u = s.pc u := fun u hu => State.setPc_pc_of_ne _ _ hu
  have hmine : ∀ u, myNode (s.setPc t (.freePrev m p)) u = myNode s u := fun u => by
    rcases eq_or_ne u t with rfl | hut
    · unfold myNode
      rw [hpct, hpc]
    · exact myNode_congr (hpcu u hut) (.inl rfl)
  have hprev : ∀ u, prevTok (s.setPc t (.freePrev m p)) u = prevTok s u := fun u => by
    rcases eq_or_ne u t with rfl | hut
    · unfold prevTok
      rw [hpct, hpc]
    · exact prevTok_congr (hpcu u hut)
  obtain ⟨e, l, hnd, hmem, hlink, hhead, hrel⟩ := h.chain
  have htl : t ∈ l := (hmem t).mpr (by rw [hpc]; rfl)
  obtain ⟨rest, rfl⟩ : ∃ rest, l = t :: rest := by
    obtain ⟨w, rest, rfl⟩ := List.exists_cons_of_ne_nil (List.ne_nil_of_mem htl)
    have hfresh : ∀ x ∈ w :: rest, ¬ s.flag (myNode s x) = false := fun x hx => by
      rw [h.ownFlag x (Pc.ne_idle_of_entered ((hmem x).mp hx))]
      exact Bool.noConfusion
    have hfree : s.flag (prevTok s t) = false := by unfold prevTok; rw [hpc]; exact hflag
    rw [hlink.eq_head_of_released (R := fun k => s.flag k = false) hfresh htl hfree]
    exact ⟨rest, rfl⟩
  have hidle : ∀ u, (s.setPc t (.freePrev m p)).pc u ≠ .idle → s.pc u ≠ .idle := fun u hu => by
    rcases eq_or_ne u t with rfl | hut
    · rw [hpc]
      exact Pc.noConfusion
    · rwa [hpcu u hut] at hu
  refine h.of_owners ⟨e, t :: rest, hnd, fun u => ?_, hlink.congr fun u _ => ⟨hprev u, hmine u⟩,
    fun u hu => ?_, fun _ => ?_⟩ (fun _ _ => rfl) rfl hidle hmine fun u hu => ?_
  · rcases eq_or_ne u t with rfl | hut
    · rw [hpct, hmem, hpc]
      rfl
    · rw [hpcu u hut, hmem]
  · rcases eq_or_ne u t with rfl | hut
    · rfl
    · exact hhead u (hu.of_pc_eq (hpcu u hut))
  · -- `t` was the first thread, waiting
    obtain ⟨hlive, hne⟩ := hrel fun u hu => by
      rw [Option.some.inj hu.symm, hpc]
      rfl
    exact ⟨hlive, fun u hu => by rw [hmine]; exact hne u (hidle u hu)⟩
  · rcases eq_or_ne u t with rfl | hut
    · rw [hpct] at hu
      cases hu
    · exact h.mynodeSet u (by rwa [hpcu u hut] at hu)

/-- **`free(prev)`**: the first thread gives back the node it found clear,
which no thread owns; from here it waits for no node. -/
theorem Inv.freePrev (h : Inv s) {m p : ℕ} (hpc : s.pc t = .freePrev m p) :
    Inv ({ s with live := Function.update s.live p false }.setPc t (.setMy m)) := by
  set s' := { s with live := Function.update s.live p false }.setPc t (.setMy m) with hs'
  have hpct : s'.pc t = .setMy m := by rw [hs', State.setPc_pc_self]
  have hpcu : ∀ u, u ≠ t → s'.pc u = s.pc u := fun u hu => State.setPc_pc_of_ne _ _ hu
  have ht : Holds s t := by unfold Holds; rw [hpc]; rfl
  have hmine : ∀ u, myNode s' u = myNode s u := fun u => by
    rcases eq_or_ne u t with rfl | hut
    · unfold myNode
      rw [hpct, hpc]
    · exact myNode_congr (hpcu u hut) (.inl rfl)
  have hidle : ∀ u, s'.pc u ≠ .idle → s.pc u ≠ .idle := fun u hu => by
    rcases eq_or_ne u t with rfl | hut
    · rw [hpc]
      exact Pc.noConfusion
    · rwa [hpcu u hut] at hu
  obtain ⟨e, l, hnd, hmem, hlink, hhead, hrel⟩ := h.chain
  obtain ⟨rest, rfl⟩ := List.head?_eq_some_iff.mp (hhead t ht)
  -- `t` is the first thread and waits: the node it frees is `e`, which no thread owns
  obtain ⟨-, hne⟩ := hrel fun u hu => by
    rw [Option.some.inj hu.symm, hpc]
    rfl
  have hpe : p = e := by
    have := hlink.1
    unfold prevTok at this
    rwa [hpc] at this
  refine h.of_owners ⟨0, t :: rest, hnd, fun u => ?_, ⟨?_, ?_⟩, fun u hu => ?_, fun hw => ?_⟩
    (fun u hu => ?_) rfl hidle hmine fun u hu => ?_
  · rcases eq_or_ne u t with rfl | hut
    · rw [hpct, hmem, hpc]
      rfl
    · rw [hpcu u hut, hmem]
  · unfold prevTok
    rw [hpct]
  · rw [hmine]
    exact hlink.2.congr fun u hu => ⟨prevTok_congr (hpcu u (ne_of_mem_of_not_mem hu (List.nodup_cons.mp hnd).1)),
      hmine u⟩
  · rcases eq_or_ne u t with rfl | hut
    · rfl
    · exact hhead u (hu.of_pc_eq (hpcu u hut))
  · have := hw t rfl
    rw [hpct] at this
    cases this
  · show Function.update s.live p false (myNode s u) = s.live (myNode s u)
    exact Function.update_of_ne (hpe ▸ hne u (hidle u hu)) _ _
  · rcases eq_or_ne u t with rfl | hut
    · rw [hpct] at hu
      cases hu
    · exact h.mynodeSet u (by rwa [hpcu u hut] at hu)

omit [DecidableEq T] in
theorem Inv.of_holder (h : Inv s) (ht : Holds s t) {s' : State T} {pc : Pc} (hpct : s'.pc t = pc)
    (hpcu : ∀ u, u ≠ t → s'.pc u = s.pc u) (htail : s'.tail = s.tail) (hlive : s'.live = s.live)
    (hflag : s'.flag = s.flag) (hhold : pc.holding = true) (hwait : pc.waiting = false)
    (hprev : prevTok s' t = prevTok s t) (hmt : myNode s' t = myNode s t)
    (hset : pc = .held → s'.mynode.isSome = true) : Inv s' := by
  -- no other thread is at `held`, so no other node is read from `self->mynode`
  have hmine : ∀ u, myNode s' u = myNode s u := fun u => by
    rcases eq_or_ne u t with rfl | hut
    · exact hmt
    · exact myNode_congr (hpcu u hut) (.inr fun hu => hut (h.holds_eq (by unfold Holds; rw [hu]; rfl) ht))
  have hidle : ∀ u, s'.pc u ≠ .idle → s.pc u ≠ .idle := fun u hu => by
    rcases eq_or_ne u t with rfl | hut
    · exact Pc.ne_idle_of_entered (Pc.entered_of_holding ht)
    · rwa [hpcu u hut] at hu
  obtain ⟨e, l, hnd, hmem, hlink, hhead, -⟩ := h.chain
  refine h.of_owners ⟨e, l, hnd, fun u => ?_, ?_, fun u hu => ?_, fun hw => ?_⟩
    (fun u _ => by rw [hlive]) hflag hidle hmine fun u hu => ?_
  · rcases eq_or_ne u t with rfl | hut
    · rw [hpct, Pc.entered_of_holding hhold, hmem, Pc.entered_of_holding ht]
    · rw [hpcu u hut, hmem]
  · rw [htail]
    refine hlink.congr fun u _ => ⟨?_, hmine u⟩
    rcases eq_or_ne u t with rfl | hut
    · exact hprev
    · exact prevTok_congr (hpcu u hut)
  · rcases eq_or_ne u t with rfl | hut
    · exact hhead u ht
    · exact hhead u (hu.of_pc_eq (hpcu u hut))
  · -- the first thread is the holder, which no longer waits
    have := hw t (hhead t ht)
    rw [hpct, hwait] at this
    cases this
  · rcases eq_or_ne u t with rfl | hut
    · exact hset (hpct ▸ hu)
    · exact absurd (h.holds_eq (by unfold Holds; rw [← hpcu u hut, hu]; rfl) ht) hut

/-- **`self->mynode = mynode`**: the holder stores its node in the mutex. -/
theorem Inv.setMy (h : Inv s) {m : ℕ} (hpc : s.pc t = .setMy m) :
    Inv ({ s with mynode := some m }.setPc t .held) :=
  h.of_holder (by unfold Holds; rw [hpc]; rfl) (State.setPc_pc_self _ _ _)
    (fun _ hu => State.setPc_pc_of_ne _ _ hu) rfl rfl rfl rfl rfl
    (by simp only [prevTok, State.setPc_pc_self, hpc]) (by simp only [myNode, State.setPc_pc_self,
      State.setPc_mynode, hpc, Option.getD_some]) fun _ => rfl

/-- **The call of `unlock`** loads the holder's node from `self->mynode`. -/
theorem Inv.unlock (h : Inv s) {n : ℕ} (hpc : s.pc t = .held) (hm : s.mynode = some n) :
    Inv (s.setPc t (.release n)) :=
  h.of_holder (by unfold Holds; rw [hpc]; rfl) (State.setPc_pc_self _ _ _)
    (fun _ hu => State.setPc_pc_of_ne _ _ hu) rfl rfl rfl rfl rfl
    (by simp only [prevTok, State.setPc_pc_self, hpc]) (by simp only [myNode, State.setPc_pc_self, hpc, hm,
      Option.getD_some]) fun h' => by cases h'

/-- **The store of `unlock`** clears the holder's node, which becomes the
released node the next thread waits for and frees. -/
theorem Inv.release (h : Inv s) {n : ℕ} (hpc : s.pc t = .release n) :
    Inv ({ s with flag := Function.update s.flag n false }.setPc t .idle) := by
  set s' := { s with flag := Function.update s.flag n false }.setPc t .idle with hs'
  have hpct : s'.pc t = .idle := by rw [hs', State.setPc_pc_self]
  have hpcu : ∀ u, u ≠ t → s'.pc u = s.pc u := fun u hu => State.setPc_pc_of_ne _ _ hu
  have ht : Holds s t := by unfold Holds; rw [hpc]; rfl
  have htn : s.pc t ≠ .idle := by rw [hpc]; exact Pc.noConfusion
  have hn : myNode s t = n := by unfold myNode; rw [hpc]
  have hmine : ∀ u, u ≠ t → myNode s' u = myNode s u := fun u hu => myNode_congr (hpcu u hu) (.inl rfl)
  have hidle : ∀ u, s'.pc u ≠ .idle → u ≠ t ∧ s.pc u ≠ .idle := fun u hu => by
    rcases eq_or_ne u t with rfl | hut
    · exact absurd hpct hu
    · exact ⟨hut, by rwa [hpcu u hut] at hu⟩
  have hne : ∀ u, u ≠ t → s.pc u ≠ .idle → myNode s u ≠ n := fun u hut hu he =>
    hut (h.ownInj u t hu htn (he.trans hn.symm))
  obtain ⟨e, l, hnd, hmem, hlink, hhead, -⟩ := h.chain
  obtain ⟨rest, rfl⟩ := List.head?_eq_some_iff.mp (hhead t ht)
  obtain ⟨htr, hnd⟩ := List.nodup_cons.mp hnd
  refine ⟨⟨n, rest, hnd, fun u => ?_, ?_, fun u hu => ?_, fun _ => ⟨?_, fun u hu => ?_⟩⟩,
    fun u hu => ?_, fun u v hu hv huv => ?_, fun u hu => ?_, fun u hu => ?_⟩
  · rcases eq_or_ne u t with rfl | hut
    · rw [hpct]
      simpa [Pc.entered] using htr
    · rw [hpcu u hut, ← hmem, List.mem_cons, or_iff_right hut]
  · rw [← hn]
    exact hlink.tail.congr fun u hu =>
      ⟨prevTok_congr (hpcu u (ne_of_mem_of_not_mem hu htr)), hmine u (ne_of_mem_of_not_mem hu htr)⟩
  · rcases eq_or_ne u t with rfl | hut
    · unfold Holds at hu
      rw [hpct] at hu
      cases hu
    · exact absurd (h.holds_eq (hu.of_pc_eq (hpcu u hut)) ht) hut
  · rw [← hn]
    exact h.ownLive t htn
  · obtain ⟨hut, hu⟩ := hidle u hu
    rw [hmine u hut]
    exact hne u hut hu
  · obtain ⟨hut, hu⟩ := hidle u hu
    rw [hmine u hut]
    exact h.ownLive u hu
  · obtain ⟨hut, hu⟩ := hidle u hu
    obtain ⟨hvt, hv⟩ := hidle v hv
    rw [hmine u hut, hmine v hvt] at huv
    exact h.ownInj u v hu hv huv
  · obtain ⟨hut, hu⟩ := hidle u hu
    rw [hmine u hut]
    show Function.update s.flag n false (myNode s u) = true
    rw [Function.update_of_ne (hne u hut hu)]
    exact h.ownFlag u hu
  · exact h.mynodeSet u (by rwa [hpcu u (hidle u (by rw [hu]; exact Pc.noConfusion)).1] at hu)

/-- **Every step keeps the invariant.** -/
theorem Inv.of_step (h : Inv s) {a : Act T} {s' : State T} (hs : step s a = some s') : Inv s' := by
  cases a with
  | lock t n =>
    cases hpc : s.pc t with
    | idle =>
      cases hn : s.live n with
      | true => simp [step, hpc, hn] at hs
      | false =>
        simp only [step, hpc, hn, Bool.false_eq_true, if_false, Option.some.injEq] at hs
        exact hs ▸ h.lock hpc hn
    | _ => simp [step, hpc] at hs
  | unlock t =>
    cases hpc : s.pc t with
    | held =>
      -- `self->mynode` holds the holder's node: the early return is never taken
      obtain ⟨n, hm⟩ := Option.isSome_iff_exists.mp (h.mynodeSet t hpc)
      simp only [step, hpc, hm, Option.some.injEq] at hs
      exact hs ▸ h.unlock hpc hm
    | _ => simp [step, hpc] at hs
  | next t =>
    cases hpc : s.pc t with
    | idle | held => simp [step, hpc] at hs
    | xchg m =>
      simp only [step, hpc, Option.some.injEq] at hs
      exact hs ▸ h.xchg hpc
    | spin m p =>
      simp only [step, hpc, Option.some.injEq] at hs
      subst hs
      -- the spin either ends or loads `prev->succ_must_wait` once more
      cases hflag : s.flag p with
      | true => simpa [hflag] using h
      | false => simpa [hflag] using h.pass hpc hflag
    | freePrev m p =>
      simp only [step, hpc, Option.some.injEq] at hs
      exact hs ▸ h.freePrev hpc
    | setMy m =>
      simp only [step, hpc, Option.some.injEq] at hs
      exact hs ▸ h.setMy hpc
    | release n =>
      simp only [step, hpc, Option.some.injEq] at hs
      exact hs ▸ h.release hpc

theorem step_pc_of_ne {a : Act T} {s' : State T} (hs : step s a = some s') {u : T} (hu : u ≠ a.thread) :
    s'.pc u = s.pc u := by
  cases a with
  | lock t n =>
    cases hpc : s.pc t <;> simp only [step, hpc, reduceCtorEq] at hs
    split_ifs at hs
    obtain rfl := Option.some.inj hs
    exact State.setPc_pc_of_ne _ _ hu
  | unlock t =>
    cases hpc : s.pc t <;> simp only [step, hpc, reduceCtorEq] at hs
    split at hs <;> (obtain rfl := Option.some.inj hs; exact State.setPc_pc_of_ne _ _ hu)
  | next t =>
    cases hpc : s.pc t <;> simp only [step, hpc, reduceCtorEq, Option.some.injEq] at hs
    case spin =>
      subst hs
      split_ifs
      · rfl
      · exact State.setPc_pc_of_ne _ _ hu
    all_goals subst hs; exact State.setPc_pc_of_ne _ _ hu

theorem step_of_held {a : Act T} {s' : State T} (hpc : s.pc a.thread = .held) (hs : step s a = some s') :
    a.isUnlock = true := by
  cases a with
  | unlock t => rfl
  | lock t n =>
    simp only [Act.thread] at hpc
    simp [step, hpc] at hs
  | next t =>
    simp only [Act.thread] at hpc
    simp [step, hpc] at hs

end Steps

/-- **Every block a step loads from, frees or stores to is in use**: a
thread spins on its predecessor's node, or on the released node if it is
first; the first thread frees the released node; and `unlock` clears the
holder's own node. -/
theorem Inv.touches_live (h : Inv s) {a : Act T} {n : ℕ} (ht : touches s a = some n) : s.live n = true := by
  obtain ⟨e, l, -, hmem, hlink, hhead, hrel⟩ := h.chain
  have hfirst : ∀ {t : T} {m p : ℕ}, l.head? = some t → s.pc t = .spin m p ∨ s.pc t = .freePrev m p →
      s.live p = true := by
    intro t m p hl hpc
    obtain ⟨rest, rfl⟩ := List.head?_eq_some_iff.mp hl
    have hpe : prevTok s t = p := by unfold prevTok; rcases hpc with hpc | hpc <;> rw [hpc]
    rw [← hpe, hlink.1]
    refine (hrel fun u hu => ?_).1
    rw [← Option.some.inj hu]
    rcases hpc with hpc | hpc <;> rw [hpc] <;> rfl
  cases a with
  | next t =>
    cases hpc : s.pc t with
    | spin m p =>
      simp only [touches, hpc, Option.some.injEq] at ht
      subst ht
      have htl : t ∈ l := (hmem t).mpr (by rw [hpc]; rfl)
      obtain ⟨x, rest, rfl⟩ := List.exists_cons_of_ne_nil (List.ne_nil_of_mem htl)
      rcases List.mem_cons.mp htl with rfl | htr
      · exact hfirst rfl (.inl hpc)
      · -- behind the first thread, `prev` is the node of the thread before
        obtain ⟨w, hw, hpw⟩ := hlink.prev_eq_mine htr
        have hpe : prevTok s t = p := by unfold prevTok; rw [hpc]
        rw [← hpe, hpw]
        exact h.ownLive w (Pc.ne_idle_of_entered ((hmem w).mp hw))
    | freePrev m p =>
      simp only [touches, hpc, Option.some.injEq] at ht
      subst ht
      exact hfirst (hhead t (by unfold Holds; rw [hpc]; rfl)) (.inr hpc)
    | release p =>
      simp only [touches, hpc, Option.some.injEq] at ht
      subst ht
      have := h.ownLive t (by rw [hpc]; exact Pc.noConfusion)
      unfold myNode at this
      rwa [hpc] at this
    | _ => simp [touches, hpc] at ht
  | _ => simp [touches] at ht

section Runs

variable [DecidableEq T] {node : ℕ} {acts : List (Act T)}

theorem inv_of_run (hrun : Machine.runSteps step (clhMutexInit node) acts = some s) : Inv s :=
  Machine.runSteps_inv step (G := fun _ => True) (fun _ _ _ h _ hs => h.of_step hs) (fun _ _ => trivial)
    (inv_clhMutexInit node) hrun

/-- **The CLH lock is a mutual exclusion lock**: in every run from
`clh_mutex_init`, whatever blocks `malloc` returns, at most one thread holds it. -/
theorem clh_mutual_exclusion (hrun : Machine.runSteps step (clhMutexInit node) acts = some s) {u v : T}
    (hu : Holds s u) (hv : Holds s v) : u = v :=
  (inv_of_run hrun).holds_eq hu hv

/-- Thread `false` takes the lock and frees the first node; thread `true` spins on `false`'s node. -/
theorem clh_mutual_exclusion_twoThreads :
    ∃ s, Machine.runSteps step (clhMutexInit 0)
        [.lock false 1, .next false, .next false, .next false, .next false, .lock true 2, .next true,
          .next true] = some s ∧ Holds s false ∧ ∀ u, Holds s u → u = false := by
  obtain ⟨s, hrun, hheld⟩ : ∃ s, Machine.runSteps step (clhMutexInit 0)
      [.lock false 1, .next false, .next false, .next false, .next false, .lock true 2, .next true,
        .next true] = some s ∧ Holds s false := ⟨_, rfl, rfl⟩
  exact ⟨s, hrun, hheld, fun _ hu => clh_mutual_exclusion hrun hu hheld⟩

/-- **The CLH lock is memory safe**: in every run from `clh_mutex_init`,
every block the next step of any thread loads from, frees or stores to is
one `malloc` handed out and `free` has not taken back, and `unlock` finds a
node in `self->mynode`. -/
theorem clh_memory_safe (hrun : Machine.runSteps step (clhMutexInit node) acts = some s) :
    (∀ a n, touches s a = some n → s.live n = true) ∧ ∀ t, s.pc t = .held → s.mynode.isSome = true := by
  have h := inv_of_run hrun
  exact ⟨fun a n ht => h.touches_live ht, h.mynodeSet⟩

/-- Thread `false` holds the lock and starts to unlock, thread `true` spinning on its node. -/
theorem clh_memory_safe_unlocking :
    ∃ s, Machine.runSteps step (clhMutexInit 0)
        [.lock false 1, .next false, .next false, .next false, .next false, .lock true 2, .next true,
          .unlock false] = some s ∧ s.pc false = .release 1 ∧
      ((∀ a n, touches s a = some n → s.live n = true) ∧ ∀ t, s.pc t = .held → s.mynode.isSome = true) := by
  obtain ⟨s, hrun, hpc⟩ : ∃ s, Machine.runSteps step (clhMutexInit 0)
      [.lock false 1, .next false, .next false, .next false, .next false, .lock true 2, .next true,
        .unlock false] = some s ∧ s.pc false = .release 1 := ⟨_, rfl, rfl⟩
  exact ⟨s, hrun, hpc, clh_memory_safe hrun⟩

/-! ### The lock of a `q_t` -/

/-- The CLH lock, whose first node `malloc` returned as `node`, as the
machine of its threads, a thread at `held` from the return of `lock` to its
call of `unlock`. -/
def lockModel (node : ℕ) : Critical.LockModel T (State T) (Act T) where
  init := clhMutexInit node
  step := step
  actor := Act.thread
  isUnlock := Act.isUnlock
  atHeld s t := decide (s.pc t = .held)

/-- The CLH lock gives what `Critical` asks of a lock. -/
theorem lockModel_good (node : ℕ) : (lockModel (T := T) node).Good Inv where
  init := inv_clhMutexInit node
  step _ _ _ h hs := h.of_step hs
  excl _ _ _ h ht hu := h.holds_eq (by unfold Holds; rw [of_decide_eq_true ht]; rfl)
    (by unfold Holds; rw [of_decide_eq_true hu]; rfl)
  frame _ _ _ t _ hs ht := by
    show decide _ = decide _
    rw [step_pc_of_ne hs (Ne.symm ht)]
  own _ _ _ _ ha hs := step_of_held (of_decide_eq_true ha) hs

end Runs

end Clh
end QueueRate
