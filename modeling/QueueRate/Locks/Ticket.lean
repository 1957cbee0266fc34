import QueueRate.Lib.Machine
import QueueRate.Lib.TokenChain
import QueueRate.Lib.Critical
import Mathlib.Data.List.Nodup

/-!
# The ticket lock of `lockrate_ticket`

`ticket_mutex.h`: `ticket_mutex_lock` takes a ticket by
`atomic_fetch_add(&ingress, 1)` and spins until `egress` equals it;
`ticket_mutex_unlock` loads `egress` and stores it plus one. `step` takes
one thread one step: the call of `lock` with its fetch-and-add, each load of
the spin, the call of `unlock` with its load, and the store. The counters are
unbounded naturals; a run keeps them below its number of steps
(`counters_le_length`), so below `2^63` steps they are the source's `long`s.

The threads that have taken a ticket and not released the lock form a chain
of consecutive tickets from `egress` to `ingress` (`TokenChain.Linked`); a
thread passes the spin only when its ticket is `egress`, which is the first
thread's, so at most one thread holds the lock (`ticket_mutual_exclusion`).

Key definitions: `Pc`, `State`, `ticketMutexInit`, `step`, `Holds`.
-/

namespace QueueRate
namespace Ticket

open TokenChain

/-- Where a thread is in `ticket_mutex_lock` and `ticket_mutex_unlock`. -/
inductive Pc
  /-- outside the mutex -/
  | idle
  /-- in `lock`'s spin `while (lingress != atomic_load(&egress))` -/
  | spin (lingress : ℕ)
  /-- holds the lock -/
  | held
  /-- in `unlock`, next: `atomic_store(&egress, legress+1)` -/
  | store (legress : ℕ)
  deriving DecidableEq, Repr

/-- A `ticket_mutex_t`, and where each thread of `T` is in its calls. -/
structure State (T : Type*) where
  ingress : ℕ
  egress : ℕ
  pc : T → Pc

/-- An action of thread `t`: a call of `lock` or `unlock`, or its next step within one. -/
inductive Act (T : Type*)
  | lock (t : T)
  | unlock (t : T)
  | next (t : T)

variable {T : Type*}

/-- The thread that takes an action. -/
def Act.thread : Act T → T
  | .lock t | .unlock t | .next t => t

/-- The action is a call of `unlock`. -/
def Act.isUnlock : Act T → Bool
  | .unlock _ => true
  | _ => false

/-- `ticket_mutex_init`, with every thread outside the mutex. -/
def ticketMutexInit : State T := ⟨0, 0, fun _ => .idle⟩

/-- Thread `t` moves to `pc`. -/
def State.setPc [DecidableEq T] (s : State T) (t : T) (pc : Pc) : State T :=
  { s with pc := Function.update s.pc t pc }

/-- The step an action takes; `none` when the thread cannot take it. -/
def step [DecidableEq T] (s : State T) : Act T → Option (State T)
  | .lock t =>
    match s.pc t with
    -- `lingress = atomic_fetch_add(&ingress, 1)`
    | .idle => some ({ s with ingress := s.ingress + 1 }.setPc t (.spin s.ingress))
    | _ => none
  | .unlock t =>
    match s.pc t with
    -- `legress = atomic_load_explicit(&egress, memory_order_relaxed)`
    | .held => some (s.setPc t (.store s.egress))
    | _ => none
  | .next t =>
    match s.pc t with
    | .spin lingress => some (if lingress = s.egress then s.setPc t .held else s)
    | .store legress => some ({ s with egress := legress + 1 }.setPc t .idle)
    | _ => none

/-- Thread `t` holds the lock: from the return of `lock` to the store of `unlock`. -/
def Holds (s : State T) (t : T) : Prop :=
  s.pc t = .held ∨ ∃ legress, s.pc t = .store legress

/-! ### The chain of tickets -/

/-- Past the fetch-and-add and before the store of `unlock`. -/
def Pc.entered : Pc → Bool
  | .idle => false
  | _ => true

/-- The ticket a thread entered with: the holder's is `egress`. -/
def ticket (s : State T) (t : T) : ℕ :=
  match s.pc t with
  | .spin lingress => lingress
  | .store legress => legress
  | _ => s.egress

/-- What every reachable state keeps: the threads that entered form a chain
of tickets from `egress` to `ingress`, whose first thread is the holder, and
`unlock` loaded the current `egress`. -/
structure Inv (s : State T) : Prop where
  chain : ∃ l : List T, l.Nodup ∧ (∀ u, u ∈ l ↔ (s.pc u).entered = true) ∧
    Linked (ticket s) (fun u => ticket s u + 1) s.egress l s.ingress ∧
    ∀ u, Holds s u → l.head? = some u
  store : ∀ u legress, s.pc u = .store legress → legress = s.egress

theorem le_of_linked {f : T → ℕ} {e i : ℕ} {l : List T} (h : Linked f (fun u => f u + 1) e l i) :
    ∀ u ∈ l, e ≤ f u := by
  induction l generalizing e with
  | nil => intro u hu; cases hu
  | cons v l ih =>
    intro u hu
    have hv : f v = e := h.1
    rcases List.mem_cons.mp hu with rfl | hu
    · exact Nat.le_of_eq hv.symm
    · have hle : f v + 1 ≤ f u := ih h.2 u hu
      omega

variable {s : State T}

theorem Inv.holds_eq (h : Inv s) {u v : T} (hu : Holds s u) (hv : Holds s v) : u = v := by
  obtain ⟨l, -, -, -, hhead⟩ := h.chain
  exact Option.some.inj ((hhead u hu).symm.trans (hhead v hv))

theorem add_length_of_linked {f : T → ℕ} {e i : ℕ} {l : List T} (h : Linked f (fun u => f u + 1) e l i) :
    e + l.length = i := by
  induction l generalizing e with
  | nil => simpa using h
  | cons v l ih =>
    have hv : f v = e := h.1
    have hl : f v + 1 + l.length = i := ih h.2
    rw [List.length_cons]
    omega

theorem Inv.egress_le_ingress (h : Inv s) : s.egress ≤ s.ingress := by
  obtain ⟨l, -, -, hlink, -⟩ := h.chain
  have := add_length_of_linked hlink
  omega

theorem spin_of_entered {u : T} (he : (s.pc u).entered = true) (hn : ¬ Holds s u) :
    ∃ lingress, s.pc u = .spin lingress := by
  unfold Holds at hn
  generalize s.pc u = pc at he hn
  cases pc with
  | idle => cases he
  | spin lingress => exact ⟨lingress, rfl⟩
  | held => exact absurd (.inl rfl) hn
  | store legress => exact absurd (.inr ⟨legress, rfl⟩) hn

theorem inv_ticketMutexInit : Inv (ticketMutexInit : State T) where
  chain := ⟨[], List.nodup_nil, fun _ => ⟨fun h => (by cases h), fun h => (by cases h)⟩, rfl,
    fun _ hu => by rcases hu with hu | ⟨_, hu⟩ <;> cases hu⟩
  store _ _ h := by cases h

/-! ### Each step keeps the invariant -/

section Steps

variable [DecidableEq T] {t : T}

@[simp] theorem State.setPc_pc_self (s : State T) (t : T) (pc : Pc) : (s.setPc t pc).pc t = pc := by
  simp [State.setPc]

@[simp] theorem State.setPc_pc_of_ne (s : State T) {t u : T} (pc : Pc) (hu : u ≠ t) :
    (s.setPc t pc).pc u = s.pc u := by
  simp [State.setPc, hu]

theorem ticket_setPc (s : State T) (pc : Pc) {u : T} (hu : u ≠ t) : ticket (s.setPc t pc) u = ticket s u := by
  unfold ticket
  rw [s.setPc_pc_of_ne pc hu]
  rfl

theorem Holds.of_setPc {pc : Pc} {u : T} (hu : u ≠ t) (h : Holds (s.setPc t pc) u) : Holds s u := by
  unfold Holds at h ⊢
  rwa [s.setPc_pc_of_ne pc hu] at h

/-- **`lock` takes a ticket**: `t` joins the end of the chain. -/
theorem Inv.lock (h : Inv s) (hpc : s.pc t = .idle) :
    Inv ({ s with ingress := s.ingress + 1 }.setPc t (.spin s.ingress)) := by
  obtain ⟨l, hnd, hmem, hlink, hhead⟩ := h.chain
  set s' := ({ s with ingress := s.ingress + 1 } : State T).setPc t (.spin s.ingress) with hs'
  have htl : t ∉ l := fun ht => by
    have := (hmem t).mp ht
    rw [hpc] at this
    cases this
  have hpcu : ∀ u, u ≠ t → s'.pc u = s.pc u := fun u hu => State.setPc_pc_of_ne _ _ hu
  have hspin : ¬ Holds s' t := by
    unfold Holds
    rw [hs', State.setPc_pc_self]
    rintro (hp | ⟨_, hp⟩) <;> cases hp
  have htk : ticket s' t = s.ingress := by
    unfold ticket
    rw [hs', State.setPc_pc_self]
  refine ⟨⟨l ++ [t], ?_, fun u => ?_, ?_, fun u hu => ?_⟩, fun u lg hu => ?_⟩
  · rw [← List.concat_eq_append]
    exact List.Nodup.concat htl hnd
  · rcases eq_or_ne u t with rfl | hut
    · simp [s', State.setPc_pc_self, Pc.entered]
    · rw [List.mem_append, List.mem_singleton, hpcu u hut, ← hmem u]
      exact or_iff_left hut
  · have hl : Linked (ticket s') (fun u => ticket s' u + 1) s.egress l s.ingress :=
      hlink.congr fun u hu => ⟨ticket_setPc _ _ (ne_of_mem_of_not_mem hu htl),
        congrArg (· + 1) (ticket_setPc _ _ (ne_of_mem_of_not_mem hu htl))⟩
    have := hl.concat htk
    rwa [htk] at this
  · have hut : u ≠ t := by
      rintro rfl
      exact hspin hu
    rw [List.head?_append, hhead u (hu.of_setPc hut)]
    rfl
  · have hut : u ≠ t := by
      rintro rfl
      rw [hs', State.setPc_pc_self] at hu
      cases hu
    exact h.store u lg (by rw [← hpcu u hut]; exact hu)

theorem Inv.unlock (h : Inv s) (hpc : s.pc t = .held) : Inv (s.setPc t (.store s.egress)) := by
  obtain ⟨l, hnd, hmem, hlink, hhead⟩ := h.chain
  have htk : ∀ u, ticket (s.setPc t (.store s.egress)) u = ticket s u := by
    intro u
    rcases eq_or_ne u t with rfl | hut
    · unfold ticket
      rw [State.setPc_pc_self, hpc]
    · exact ticket_setPc s _ hut
  have hheld : Holds s t := .inl hpc
  refine ⟨⟨l, hnd, fun u => ?_, hlink.congr fun u _ => ⟨htk u, congrArg (· + 1) (htk u)⟩,
    fun u hu => ?_⟩, fun u lg hu => ?_⟩
  · rcases eq_or_ne u t with rfl | hut
    · rw [hmem, State.setPc_pc_self, hpc]
      rfl
    · rw [hmem, s.setPc_pc_of_ne _ hut]
  · rcases eq_or_ne u t with rfl | hut
    · exact hhead u hheld
    · exact hhead u (hu.of_setPc hut)
  · rcases eq_or_ne u t with rfl | hut
    · rw [State.setPc_pc_self] at hu
      cases hu
      rfl
    · rw [s.setPc_pc_of_ne _ hut] at hu
      exact h.store u lg hu

/-- **A thread passes the spin** only when its ticket is `egress`: it is then the
first thread of the chain, as every later ticket is above `egress`. -/
theorem Inv.pass (h : Inv s) (hpc : s.pc t = .spin s.egress) : Inv (s.setPc t .held) := by
  obtain ⟨l, hnd, hmem, hlink, hhead⟩ := h.chain
  have htk : ∀ u, ticket (s.setPc t .held) u = ticket s u := by
    intro u
    rcases eq_or_ne u t with rfl | hut
    · unfold ticket
      rw [State.setPc_pc_self, hpc]
      rfl
    · exact ticket_setPc s _ hut
  have htl : t ∈ l := (hmem t).mpr (by rw [hpc]; rfl)
  have hfirst : l.head? = some t := by
    obtain ⟨v, rest, rfl⟩ := List.exists_cons_of_ne_nil (List.ne_nil_of_mem htl)
    have hfresh : ∀ w ∈ v :: rest, ticket s w + 1 ≠ s.egress := fun w hw => by
      have := le_of_linked hlink w hw
      omega
    have htick : ticket s t = s.egress := by
      unfold ticket
      rw [hpc]
    rw [hlink.eq_head_of_released (R := (· = s.egress)) hfresh htl htick]
    rfl
  refine ⟨⟨l, hnd, fun u => ?_, hlink.congr fun u _ => ⟨htk u, congrArg (· + 1) (htk u)⟩,
    fun u hu => ?_⟩, fun u lg hu => ?_⟩
  · rcases eq_or_ne u t with rfl | hut
    · rw [hmem, State.setPc_pc_self, hpc]
      rfl
    · rw [hmem, s.setPc_pc_of_ne _ hut]
  · rcases eq_or_ne u t with rfl | hut
    · exact hfirst
    · exact hhead u (hu.of_setPc hut)
  · rcases eq_or_ne u t with rfl | hut
    · rw [State.setPc_pc_self] at hu
      cases hu
    · rw [s.setPc_pc_of_ne _ hut] at hu
      exact h.store u lg hu

/-- **`unlock`'s store** `egress = legress + 1` passes the lock to the next ticket:
the holder leaves the chain. -/
theorem Inv.release (h : Inv s) {legress : ℕ} (hpc : s.pc t = .store legress) :
    Inv ({ s with egress := legress + 1 }.setPc t .idle) := by
  obtain ⟨l, hnd, hmem, hlink, hhead⟩ := h.chain
  set s' := ({ s with egress := legress + 1 } : State T).setPc t .idle with hs'
  have hheld : Holds s t := .inr ⟨legress, hpc⟩
  obtain ⟨rest, rfl⟩ : ∃ rest, l = t :: rest := List.head?_eq_some_iff.mp (hhead t hheld)
  have htr : t ∉ rest := (List.nodup_cons.mp hnd).1
  have hpcu : ∀ u, u ≠ t → s'.pc u = s.pc u := fun u hu => State.setPc_pc_of_ne _ _ hu
  -- the others are spinning, so their tickets do not depend on `egress`
  have hspin : ∀ u ∈ rest, ∃ lingress, s.pc u = .spin lingress := by
    intro u hu
    have hut : u ≠ t := ne_of_mem_of_not_mem hu htr
    refine spin_of_entered ((hmem u).mp (List.mem_cons_of_mem t hu)) fun hh => hut ?_
    exact Option.some.inj (hhead u hh).symm
  have htk : ∀ u ∈ rest, ticket s' u = ticket s u := by
    intro u hu
    obtain ⟨lg, hlg⟩ := hspin u hu
    unfold ticket
    rw [hpcu u (ne_of_mem_of_not_mem hu htr), hlg]
  have hlegress : ticket s t = legress := by
    unfold ticket
    rw [hpc]
  have hnone : ∀ u, ¬ Holds s' u := by
    intro u hu
    rcases eq_or_ne u t with rfl | hut
    · unfold Holds at hu
      rw [hs', State.setPc_pc_self] at hu
      rcases hu with hu | ⟨_, hu⟩ <;> cases hu
    · -- the holder was `t`, the first of the chain
      have hfirst : (t :: rest).head? = some u := hhead u (hu.of_setPc hut)
      exact hut (Option.some.inj hfirst).symm
  refine ⟨⟨rest, (List.nodup_cons.mp hnd).2, fun u => ?_, ?_, fun u hu => absurd hu (hnone u)⟩,
    fun u lg hu => absurd (.inr ⟨lg, hu⟩) (hnone u)⟩
  · rcases eq_or_ne u t with rfl | hut
    · rw [hs', State.setPc_pc_self]
      simp only [Pc.entered, Bool.false_eq_true, iff_false]
      exact htr
    · rw [hpcu u hut, ← hmem, List.mem_cons]
      exact (or_iff_right hut).symm
  · have := hlink.tail
    rw [hlegress] at this
    exact this.congr fun u hu => ⟨htk u hu, congrArg (· + 1) (htk u hu)⟩

theorem step_pc_of_ne {a : Act T} {s' : State T} (hs : step s a = some s') {u : T} (hu : u ≠ a.thread) :
    s'.pc u = s.pc u := by
  cases a with
  | lock t | unlock t =>
    cases hpc : s.pc t <;> simp only [step, hpc, reduceCtorEq, Option.some.injEq] at hs
    all_goals subst hs; exact State.setPc_pc_of_ne _ _ hu
  | next t =>
    cases hpc : s.pc t <;> simp only [step, hpc, reduceCtorEq, Option.some.injEq] at hs
    all_goals subst hs
    · -- the spin ends, or loads `egress` once more
      split_ifs
      · exact State.setPc_pc_of_ne _ _ hu
      · rfl
    · exact State.setPc_pc_of_ne _ _ hu

theorem step_of_held {a : Act T} {s' : State T} (hpc : s.pc a.thread = .held) (hs : step s a = some s') :
    a.isUnlock = true := by
  cases a with
  | unlock t => rfl
  | lock t | next t =>
    simp only [Act.thread] at hpc
    simp [step, hpc] at hs

/-- **Every step keeps the invariant.** -/
theorem Inv.of_step (h : Inv s) {a : Act T} {s' : State T} (hs : step s a = some s') : Inv s' := by
  cases a with
  | lock t =>
    cases hpc : s.pc t with
    | idle =>
      simp only [step, hpc, Option.some.injEq] at hs
      subst hs
      exact h.lock hpc
    | _ => simp [step, hpc] at hs
  | unlock t =>
    cases hpc : s.pc t with
    | held =>
      simp only [step, hpc, Option.some.injEq] at hs
      subst hs
      exact h.unlock hpc
    | _ => simp [step, hpc] at hs
  | next t =>
    cases hpc : s.pc t with
    | spin lingress =>
      simp only [step, hpc, Option.some.injEq] at hs
      subst hs
      split
      next heq =>
        rw [heq] at hpc
        exact h.pass hpc
      next => exact h
    | store legress =>
      simp only [step, hpc, Option.some.injEq] at hs
      subst hs
      exact h.release hpc
    | _ => simp [step, hpc] at hs

end Steps

/-- **The ticket lock is a mutual exclusion lock**: in every run from
`ticket_mutex_init`, whatever the threads do in which order, at most one
thread holds it. -/
theorem ticket_mutual_exclusion [DecidableEq T] {acts : List (Act T)} {s : State T}
    (hrun : Machine.runSteps step ticketMutexInit acts = some s) {u v : T} (hu : Holds s u) (hv : Holds s v) :
    u = v :=
  (Machine.runSteps_inv step (G := fun _ => True) (fun _ _ _ h _ hs => h.of_step hs)
    (fun _ _ => trivial) inv_ticketMutexInit hrun).holds_eq hu hv

/-- Only `lock`'s fetch-and-add moves `ingress`, by one. -/
theorem step_ingress_le [DecidableEq T] {s s' : State T} {a : Act T} (hs : step s a = some s') :
    s'.ingress ≤ s.ingress + 1 := by
  cases a with
  | lock t | unlock t =>
    cases hpc : s.pc t <;> simp only [step, hpc, reduceCtorEq, Option.some.injEq] at hs
    subst hs
    simp [State.setPc]
  | next t =>
    cases hpc : s.pc t <;> simp only [step, hpc, reduceCtorEq, Option.some.injEq] at hs <;> subst hs
    · split <;> simp [State.setPc]
    · simp [State.setPc]

/-- **The counters stay within the run.** In every run from
`ticket_mutex_init`, `egress ≤ ingress ≤` the number of steps. So in a run
of fewer than `2^63` steps neither `long` overflows, and the model's
naturals are the source's values. -/
theorem counters_le_length [DecidableEq T] {acts : List (Act T)} {s : State T}
    (hrun : Machine.runSteps step ticketMutexInit acts = some s) :
    s.egress ≤ s.ingress ∧ s.ingress ≤ acts.length := by
  have hinv := Machine.runSteps_inv step (G := fun _ => True) (fun _ _ _ h _ hs => h.of_step hs)
    (fun _ _ => trivial) inv_ticketMutexInit hrun
  have hlen := Machine.runSteps_le_add_length step State.ingress (fun _ _ _ hs => step_ingress_le hs) hrun
  exact ⟨hinv.egress_le_ingress, by simpa [ticketMutexInit] using hlen⟩

/-- Thread `false` takes ticket `0` and the lock; thread `true` takes ticket `1` and spins. -/
theorem ticket_mutual_exclusion_twoThreads :
    ∃ s, Machine.runSteps step ticketMutexInit [.lock false, .lock true, .next false, .next true] = some s ∧
      Holds s false ∧ ∀ u, Holds s u → u = false := by
  obtain ⟨s, hrun, hheld⟩ : ∃ s, Machine.runSteps step ticketMutexInit
      [.lock false, .lock true, .next false, .next true] = some s ∧ Holds s false := ⟨_, rfl, .inl rfl⟩
  exact ⟨s, hrun, hheld, fun _ hu => ticket_mutual_exclusion hrun hu hheld⟩

/-! ### The lock of a `q_t` -/

section Model

variable [DecidableEq T]

/-- The ticket lock as the machine of its threads, a thread at `held` from
the return of `lock` to its call of `unlock`. -/
def lockModel : Critical.LockModel T (State T) (Act T) where
  init := ticketMutexInit
  step := step
  actor := Act.thread
  isUnlock := Act.isUnlock
  atHeld s t := decide (s.pc t = .held)

/-- The ticket lock gives what `Critical` asks of a lock: one thread at
`held`, which only its own steps change, and whose only step is `unlock`. -/
theorem lockModel_good : (lockModel (T := T)).Good Inv where
  init := inv_ticketMutexInit
  step _ _ _ h hs := h.of_step hs
  excl _ _ _ h ht hu := h.holds_eq (.inl (of_decide_eq_true ht)) (.inl (of_decide_eq_true hu))
  frame _ _ _ t _ hs ht := by
    show decide _ = decide _
    rw [step_pc_of_ne hs (Ne.symm ht)]
  own _ _ _ _ ha hs := step_of_held (of_decide_eq_true ha) hs

end Model

end Ticket
end QueueRate
