import Mathlib.Algebra.Order.BigOperators.Group.Finset
import Mathlib.Data.Fintype.Card
import QueueRate.Lib.Machine

/-!
# Threads at one cyclic barrier

Each thread runs a straight-line program of local actions and waits at one
barrier (`Instr`). The barrier counts the threads that have arrived in the
current generation: the thread whose arrival makes the count reach the
barrier's `count` ends the generation and goes on, the others block until
the generation they arrived in has ended (`step`), as `pthread_barrier_wait`
does.

The phase of a place in a program is the number of waits before it
(`phase`). When `count` is the number of threads, every reachable state
keeps each thread in the barrier's generation or just behind it
(`ThreadOk`), and the barrier orders the actions by phase: an action is done
only after every action of a lower phase, in every interleaving
(`Inv.ordered`, `Inv.log_before`). When every program waits equally often, a
state in which no thread can move has every thread at its end
(`Inv.done_of_stuck`), and no run is longer than twice the programs' length
(`length_le_of_runSteps`): every interleaving ends with all threads done.

Key definitions: `Instr`, `State`, `step`, `phase`, `Inv`, `log`.
-/

namespace Barrier

/-- One instruction of a thread: a wait at the barrier or a local action. -/
inductive Instr (E : Type*) where
  | wait
  | act (e : E)
deriving DecidableEq

variable {τ E : Type*}

/-- The instruction is a wait. -/
def Instr.isWait : Instr E → Bool
  | .wait => true
  | .act _ => false

@[simp] theorem Instr.isWait_wait : (Instr.wait : Instr E).isWait = true := rfl

@[simp] theorem Instr.isWait_act (e : E) : (Instr.act e).isWait = false := rfl

/-- The waits among the first `i` instructions of a program. -/
def waitsBefore (l : List (Instr E)) (i : ℕ) : ℕ := (l.take i).countP Instr.isWait

theorem waitsBefore_mono (l : List (Instr E)) {i j : ℕ} (h : i ≤ j) : waitsBefore l i ≤ waitsBefore l j :=
  (List.take_sublist_take_left h).countP_le

theorem waitsBefore_succ {l : List (Instr E)} {i : ℕ} {x : Instr E} (h : l[i]? = some x) :
    waitsBefore l (i + 1) = waitsBefore l i + if x.isWait then 1 else 0 := by
  rw [waitsBefore, List.take_add_one, List.countP_append, h]
  cases x <;> rfl

theorem waitsBefore_length (l : List (Instr E)) : waitsBefore l l.length = l.countP Instr.isWait := by
  rw [waitsBefore, List.take_length]

theorem waitsBefore_append_of_le {a b : List (Instr E)} {j : ℕ} (h : a.length ≤ j) :
    waitsBefore (a ++ b) j = a.countP Instr.isWait + waitsBefore b (j - a.length) := by
  rw [waitsBefore, List.take_append, List.take_of_length_le h, List.countP_append]
  rfl

theorem waitsBefore_append_of_le_length {a b : List (Instr E)} {j : ℕ} (h : j ≤ a.length) :
    waitsBefore (a ++ b) j = waitsBefore a j := by
  rw [waitsBefore, List.take_append, Nat.sub_eq_zero_of_le h, List.take_zero, List.append_nil]
  rfl

theorem getElem?_append_of_not_mem {α : Type*} {a b : List α} {x : α} {j : ℕ} (hx : x ∉ a)
    (h : (a ++ b)[j]? = some x) : a.length ≤ j ∧ b[j - a.length]? = some x := by
  by_cases hj : j < a.length
  · rw [List.getElem?_append_left hj] at h
    exact absurd (List.mem_of_getElem? h) hx
  · rw [Nat.not_lt] at hj
    exact ⟨hj, by rwa [List.getElem?_append_right hj] at h⟩

section Rounds

variable {α : Type*} (xs : List α) (body : α → List E)

/-- The rounds of a loop whose body waits once and then does the actions `body x`. -/
def rounds : List (Instr E) := xs.flatMap fun x => .wait :: (body x).map .act

@[simp] theorem rounds_nil : rounds [] body = [] := rfl

theorem rounds_cons (x : α) : rounds (x :: xs) body = (.wait :: (body x).map .act) ++ rounds xs body := rfl

@[simp] theorem act_mem_rounds {e : E} : .act e ∈ rounds xs body ↔ ∃ x ∈ xs, e ∈ body x := by
  simp [rounds]

@[simp] theorem countP_rounds : (rounds xs body).countP Instr.isWait = xs.length := by
  induction xs with
  | nil => rfl
  | cons x xs ih =>
    rw [rounds_cons, List.countP_append, ih, List.countP_cons, List.countP_map]
    simp [Function.comp_def]
    omega

theorem waitsBefore_rounds {j : ℕ} {e : E} (h : (rounds xs body)[j]? = some (.act e)) :
    ∃ k, ∃ hk : k < xs.length, e ∈ body xs[k] ∧ waitsBefore (rounds xs body) j = k + 1 := by
  induction xs generalizing j with
  | nil => simp at h
  | cons x xs ih =>
    rw [rounds_cons] at h ⊢
    by_cases hj : j < 1 + (body x).length
    · -- in the first round, past its wait
      rw [List.getElem?_append_left (by simpa [Nat.add_comm] using hj)] at h
      obtain ⟨j, rfl⟩ : ∃ j', j = j' + 1 := ⟨j - 1, by cases j <;> simp_all⟩
      rw [List.getElem?_cons_succ, List.getElem?_map, Option.map_eq_some_iff] at h
      obtain ⟨e', he', hee'⟩ := h
      cases hee'
      refine ⟨0, by simp, List.mem_of_getElem? he', ?_⟩
      rw [waitsBefore_append_of_le_length (by simp; omega), waitsBefore, List.take_succ_cons,
        List.countP_cons, List.countP_eq_zero.mpr]
      · rfl
      · intro y hy
        obtain ⟨z, -, rfl⟩ := List.mem_map.mp (List.mem_of_mem_take hy)
        simp
    · -- in a later round
      have hlen : (Instr.wait :: (body x).map Instr.act).length ≤ j := by simp; omega
      rw [List.getElem?_append_right hlen] at h
      obtain ⟨k, hk, hmem, hph⟩ := ih h
      refine ⟨k + 1, by simpa using hk, by simpa using hmem, ?_⟩
      rw [waitsBefore_append_of_le hlen, hph, List.countP_cons, List.countP_map]
      simp [Function.comp_def]
      omega

end Rounds

/-- The threads' places, the barrier, and the actions done. -/
structure State (τ : Type*) where
  /-- the place of each thread's next instruction -/
  pc : τ → ℕ
  /-- `some g` while the thread waits, having arrived in generation `g` -/
  blocked : τ → Option ℕ
  /-- the threads arrived in the current generation -/
  arrived : ℕ
  /-- the current generation -/
  gen : ℕ
  /-- the actions done, each as its thread and place, in order -/
  trace : List (τ × ℕ)

/-- Before any thread has moved. -/
def init : State τ := ⟨fun _ => 0, fun _ => none, 0, 0, []⟩

variable (prog : τ → List (Instr E)) (count : ℕ)

/-- The phase of place `i` in thread `t`'s program: the waits before it. -/
def phase (t : τ) (i : ℕ) : ℕ := waitsBefore (prog t) i

/-- The action at place `i` of thread `t`'s program, if there is one. -/
def actAt (t : τ) (i : ℕ) : Option E :=
  match (prog t)[i]? with
  | some (.act e) => some e
  | _ => none

/-- The actions done, in order, each with its thread. -/
def log (s : State τ) : List (τ × E) := s.trace.filterMap fun x => (actAt prog x.1 x.2).map (x.1, ·)

theorem actAt_eq_some {t : τ} {i : ℕ} {e : E} : actAt prog t i = some e ↔ (prog t)[i]? = some (.act e) := by
  unfold actAt
  split <;> simp_all

theorem exists_actAt_of_mem {t : τ} {e : E} (h : .act e ∈ prog t) : ∃ j, actAt prog t j = some e := by
  obtain ⟨j, hj⟩ := List.mem_iff_getElem?.mp h
  exact ⟨j, (actAt_eq_some prog).mpr hj⟩

theorem lt_length_of_actAt {t : τ} {j : ℕ} {e : E} (h : actAt prog t j = some e) : j < (prog t).length :=
  (List.getElem?_eq_some_iff.mp ((actAt_eq_some prog).mp h)).1

theorem actAt_of_wait {t : τ} {i : ℕ} (h : (prog t)[i]? = some .wait) : actAt prog t i = none := by
  simp [actAt, h]

theorem phase_mono (t : τ) {i j : ℕ} (h : i ≤ j) : phase prog t i ≤ phase prog t j :=
  waitsBefore_mono _ h

theorem phase_succ_wait {t : τ} {i : ℕ} (h : (prog t)[i]? = some .wait) :
    phase prog t (i + 1) = phase prog t i + 1 :=
  waitsBefore_succ h

theorem phase_succ_act {t : τ} {i : ℕ} {e : E} (h : actAt prog t i = some e) :
    phase prog t (i + 1) = phase prog t i :=
  waitsBefore_succ ((actAt_eq_some prog).mp h)

/-- Two for each instruction a thread has passed, one more while it waits. -/
def State.progress (s : State τ) (t : τ) : ℕ := 2 * s.pc t + (s.blocked t).isSome.toNat

section Step

variable [DecidableEq τ]

/-- A thread whose generation has ended leaves the barrier. -/
def State.wake (s : State τ) (t : τ) : State τ :=
  { s with pc := Function.update s.pc t (s.pc t + 1), blocked := Function.update s.blocked t none }

/-- A thread does the action at its place. -/
def State.perform (s : State τ) (t : τ) : State τ :=
  { s with pc := Function.update s.pc t (s.pc t + 1), trace := s.trace ++ [(t, s.pc t)] }

/-- The last thread to arrive ends the generation and goes on. -/
def State.release (s : State τ) (t : τ) : State τ :=
  { s with pc := Function.update s.pc t (s.pc t + 1), arrived := 0, gen := s.gen + 1 }

/-- Another arriving thread blocks in the current generation. -/
def State.arrive (s : State τ) (t : τ) : State τ :=
  { s with arrived := s.arrived + 1, blocked := Function.update s.blocked t (some s.gen) }

/-- One step of thread `t` on a barrier set up for `count` threads; `none`
while `t` waits for its generation to end, and once its program is done. -/
def step (s : State τ) (t : τ) : Option (State τ) :=
  match s.blocked t with
  | some g => if g = s.gen then none else some (s.wake t)
  | none =>
    match (prog t)[s.pc t]? with
    | none => none
    | some (.act _) => some (s.perform t)
    | some .wait => if s.arrived + 1 = count then some (s.release t) else some (s.arrive t)

theorem step_cases {s s' : State τ} {t : τ} (h : step prog count s t = some s') :
    (∃ g, s.blocked t = some g ∧ g ≠ s.gen ∧ s' = s.wake t) ∨
    (s.blocked t = none ∧ (∃ e, actAt prog t (s.pc t) = some e) ∧ s' = s.perform t) ∨
    (s.blocked t = none ∧ (prog t)[s.pc t]? = some .wait ∧ s.arrived + 1 = count ∧ s' = s.release t) ∨
    (s.blocked t = none ∧ (prog t)[s.pc t]? = some .wait ∧ s.arrived + 1 ≠ count ∧ s' = s.arrive t) := by
  unfold step at h
  split at h
  next g hb =>
    split at h
    · cases h
    next hg =>
      cases h
      exact .inl ⟨g, hb, hg, rfl⟩
  next hb =>
    split at h
    · cases h
    next e hi =>
      cases h
      exact .inr (.inl ⟨hb, ⟨e, (actAt_eq_some prog).mpr hi⟩, rfl⟩)
    next hi =>
      split at h
      next hc =>
        cases h
        exact .inr (.inr (.inl ⟨hb, hi, hc, rfl⟩))
      next hc =>
        cases h
        exact .inr (.inr (.inr ⟨hb, hi, hc, rfl⟩))

/-- A thread cannot move while it waits in the current generation, or at its end. -/
theorem step_eq_none {s : State τ} {t : τ} :
    step prog count s t = none ↔
      s.blocked t = some s.gen ∨ (s.blocked t = none ∧ (prog t)[s.pc t]? = none) := by
  unfold step
  cases hb : s.blocked t with
  | some g =>
    by_cases hg : g = s.gen
    · simp [hg]
    · simp [hg]
  | none =>
    cases hi : (prog t)[s.pc t]? with
    | none => simp
    | some x =>
      cases x with
      | wait => by_cases hc : s.arrived + 1 = count <;> simp [hc]
      | act e => simp

theorem progress_step {s s' : State τ} {t : τ} (h : step prog count s t = some s') :
    s.progress t < s'.progress t ∧ ∀ u, u ≠ t → s'.progress u = s.progress u := by
  rcases step_cases prog count h with ⟨g, hb, -, rfl⟩ | ⟨hb, -, rfl⟩ | ⟨hb, -, -, rfl⟩ |
    ⟨hb, -, -, rfl⟩
  · refine ⟨by simp [State.progress, State.wake, hb]; omega, fun u hu => ?_⟩
    simp [State.progress, State.wake, Function.update_of_ne hu]
  · refine ⟨by simp [State.progress, State.perform, hb], fun u hu => ?_⟩
    simp [State.progress, State.perform, Function.update_of_ne hu]
  · refine ⟨by simp [State.progress, State.release, hb], fun u hu => ?_⟩
    simp [State.progress, State.release, Function.update_of_ne hu]
  · refine ⟨by simp [State.progress, State.arrive, hb], fun u hu => ?_⟩
    simp [State.progress, State.arrive, Function.update_of_ne hu]

end Step

/-- Where a thread can be against the barrier's generation `gen`: running in
phase `gen`, or blocked at a wait of the phase it arrived in, which is `gen`
or, when that generation has just ended, the one before. -/
structure ThreadOk (t : τ) (pc : ℕ) (b : Option ℕ) (gen : ℕ) : Prop where
  pc_le : pc ≤ (prog t).length
  running : b = none → phase prog t pc = gen
  blocked : ∀ g, b = some g → (prog t)[pc]? = some .wait ∧ phase prog t pc = g ∧ (g = gen ∨ g + 1 = gen)

/-- A running thread is where it may be when its place is in the generation's phase. -/
theorem ThreadOk.of_running {t : τ} {pc gen : ℕ} (hpc : pc ≤ (prog t).length) (hph : phase prog t pc = gen) :
    ThreadOk prog t pc none gen :=
  ⟨hpc, fun _ => hph, fun _ h => by cases h⟩

/-- Passing a wait adds no action to those before a thread's place. -/
theorem lt_succ_and_isSome_iff {t : τ} {p i : ℕ} (hw : (prog t)[p]? = some .wait) :
    (i < p + 1 ∧ (actAt prog t i).isSome) ↔ (i < p ∧ (actAt prog t i).isSome) := by
  refine ⟨fun ⟨hi, ha⟩ => ⟨?_, ha⟩, fun ⟨hi, ha⟩ => ⟨by omega, ha⟩⟩
  rcases Nat.lt_succ_iff_lt_or_eq.mp hi with hi | rfl
  · exact hi
  · simp [actAt_of_wait prog hw] at ha

section Inv

variable [Fintype τ]

/-- The threads blocked, having arrived in generation `g`. -/
def State.blockedIn (s : State τ) (g : ℕ) : Finset τ := Finset.univ.filter fun t => s.blocked t = some g

@[simp] theorem State.mem_blockedIn {s : State τ} {g : ℕ} {t : τ} :
    t ∈ s.blockedIn g ↔ s.blocked t = some g := by
  simp [State.blockedIn]

/-- What holds in every reachable state of threads at a barrier set up for
`count` of them: each thread is where `ThreadOk` allows, the barrier has
counted exactly the threads blocked in its generation and never all
`count`, the trace holds exactly the actions before each thread's place,
and an action is recorded only after every action of a lower phase. -/
structure Inv (s : State τ) : Prop where
  threads : ∀ t, ThreadOk prog t (s.pc t) (s.blocked t) s.gen
  arrived_eq : s.arrived = (s.blockedIn s.gen).card
  arrived_lt : s.arrived < count
  mem_trace : ∀ t i, (t, i) ∈ s.trace ↔ i < s.pc t ∧ (actAt prog t i).isSome
  ordered : ∀ pre x post, s.trace = pre ++ x :: post →
    ∀ t i, (actAt prog t i).isSome → phase prog t i < phase prog x.1 x.2 → (t, i) ∈ pre

theorem inv_init (hpos : 0 < count) : Inv prog count (init : State τ) where
  threads _ := .of_running prog (Nat.zero_le _) rfl
  arrived_eq := (Finset.card_eq_zero.mpr (Finset.eq_empty_iff_forall_notMem.mpr fun t => by simp [init])).symm
  arrived_lt := hpos
  mem_trace t i := by simp [init]
  ordered pre x post h := by simp [init] at h

variable {prog count}

theorem Inv.lt_pc_of_phase_lt {s : State τ} (hinv : Inv prog count s) {t : τ} {i : ℕ}
    (ha : (actAt prog t i).isSome) (hp : phase prog t i < s.gen) : i < s.pc t := by
  have ht := hinv.threads t
  by_contra hle
  rw [Nat.not_lt] at hle
  cases hb : s.blocked t with
  | none =>
    have h1 := phase_mono prog t hle
    rw [ht.running hb] at h1
    omega
  | some g =>
    obtain ⟨hw, hg, hgen⟩ := ht.blocked g hb
    -- the wait's place holds no action, so the action lies past the wait
    have hne : s.pc t ≠ i := by
      rintro rfl
      simp [actAt_of_wait prog hw] at ha
    have h1 := phase_mono prog t (show s.pc t + 1 ≤ i by omega)
    rw [phase_succ_wait prog hw, hg] at h1
    omega

/-- **The barrier orders the actions by phase.** In the log of a reachable
state, before an action `f` of thread `u` that stands only at places of
phase `q` or more, every thread has done each of its actions of a lower
phase. -/
theorem Inv.log_before {s : State τ} (hinv : Inv prog count s) {pre post : List (τ × E)} {u : τ} {f : E}
    (hlog : log prog s = pre ++ (u, f) :: post) {q : ℕ}
    (hf : ∀ j, actAt prog u j = some f → q ≤ phase prog u j) {t : τ} {i : ℕ} {e : E}
    (he : actAt prog t i = some e) (hp : phase prog t i < q) : (t, e) ∈ pre := by
  obtain ⟨l1, l2, htr, hl1, hl2⟩ := List.filterMap_eq_append_iff.mp hlog
  obtain ⟨l3, x, l4, rfl, hnone, hx, -⟩ := List.filterMap_eq_cons_iff.mp hl2
  obtain ⟨f', hf', hxf⟩ := Option.map_eq_some_iff.mp hx
  obtain ⟨rfl, rfl⟩ := Prod.mk.inj hxf
  have hq := hf x.2 hf'
  have hmem := hinv.ordered (l1 ++ l3) x l4 (by rw [htr, List.append_assoc]) t i (by rw [he]; rfl)
    (by omega)
  rcases List.mem_append.mp hmem with h1 | h3
  · rw [← hl1]
    exact List.mem_filterMap.mpr ⟨(t, i), h1, by simp [he]⟩
  · have := hnone _ h3
    simp [he] at this

theorem Inv.mem_log {s : State τ} (hinv : Inv prog count s) {t : τ} {j : ℕ} {e : E}
    (he : actAt prog t j = some e) (hj : j < s.pc t) : (t, e) ∈ log prog s :=
  List.mem_filterMap.mpr ⟨(t, j), (hinv.mem_trace t j).mpr ⟨hj, by rw [he]; rfl⟩, by simp [he]⟩

section Steps

variable [DecidableEq τ]

theorem Inv.mem_trace_pass {s : State τ} (hinv : Inv prog count s) {t : τ}
    (hw : (prog t)[s.pc t]? = some .wait) (u : τ) (i : ℕ) :
    (u, i) ∈ s.trace ↔ i < Function.update s.pc t (s.pc t + 1) u ∧ (actAt prog u i).isSome := by
  by_cases hu : u = t
  · subst hu
    rw [Function.update_self, lt_succ_and_isSome_iff prog hw]
    exact hinv.mem_trace u i
  · rw [Function.update_of_ne hu]
    exact hinv.mem_trace u i

theorem Inv.wake {s : State τ} {t : τ} {g : ℕ} (hinv : Inv prog count s) (hb : s.blocked t = some g)
    (hg : g ≠ s.gen) : Inv prog count (s.wake t) := by
  obtain ⟨hw, hph, hgen⟩ := (hinv.threads t).blocked g hb
  have hlt : s.pc t < (prog t).length := (List.getElem?_eq_some_iff.mp hw).1
  refine ⟨fun u => ?_, ?_, hinv.arrived_lt, hinv.mem_trace_pass hw, hinv.ordered⟩
  · by_cases hu : u = t
    · subst hu
      -- woken, it runs in the phase after the wait, which is the new generation
      simp only [State.wake, Function.update_self]
      refine .of_running prog (by omega) ?_
      rw [phase_succ_wait prog hw, hph]
      omega
    · simpa [State.wake, Function.update_of_ne hu] using hinv.threads u
  · -- `t` had arrived in the generation before, so the count stays
    have hF : (s.wake t).blockedIn (s.wake t).gen = s.blockedIn s.gen := by
      ext u
      by_cases hu : u = t
      · subst hu
        simp [State.wake, hb, hg]
      · simp [State.wake, Function.update_of_ne hu]
    rw [hF]
    exact hinv.arrived_eq

theorem Inv.perform {s : State τ} {t : τ} (hinv : Inv prog count s) (hb : s.blocked t = none)
    {e : E} (he : actAt prog t (s.pc t) = some e) : Inv prog count (s.perform t) := by
  have hlt : s.pc t < (prog t).length :=
    (List.getElem?_eq_some_iff.mp ((actAt_eq_some prog).mp he)).1
  refine ⟨fun u => ?_, hinv.arrived_eq, hinv.arrived_lt,
    fun u i => ?_, fun pre x post h => ?_⟩
  · by_cases hu : u = t
    · subst hu
      simp only [State.perform, Function.update_self, hb]
      refine .of_running prog (by omega) ?_
      rw [phase_succ_act prog he]
      exact (hinv.threads u).running hb
    · simpa [State.perform, Function.update_of_ne hu] using hinv.threads u
  · by_cases hu : u = t
    · subst hu
      simp only [State.perform, List.mem_append, hinv.mem_trace, List.mem_singleton, Prod.mk.injEq,
        true_and, Function.update_self]
      constructor
      · rintro (⟨hi, ha⟩ | rfl)
        · exact ⟨by omega, ha⟩
        · exact ⟨by omega, by rw [he]; rfl⟩
      · rintro ⟨hi, ha⟩
        rcases Nat.lt_succ_iff_lt_or_eq.mp hi with hi | rfl
        · exact .inl ⟨hi, ha⟩
        · exact .inr rfl
    · simp [State.perform, hinv.mem_trace, hu]
  · -- either the new action is `x`, and every action of a lower phase is
    -- done since its phase is the generation, or `x` was there before
    simp only [State.perform] at h
    rcases List.eq_nil_or_concat post with rfl | ⟨post', z, rfl⟩
    · obtain ⟨rfl, rfl⟩ := List.append_inj' h rfl |>.imp id fun h => (List.cons.inj h).1
      intro u i ha hp
      rw [(hinv.threads t).running hb] at hp
      exact (hinv.mem_trace u i).mpr ⟨hinv.lt_pc_of_phase_lt ha hp, ha⟩
    · rw [List.concat_eq_append, ← List.cons_append, ← List.append_assoc] at h
      exact hinv.ordered pre x post' (List.append_inj' h rfl).1

/-- The last to arrive finds every other thread blocked in its generation. -/
theorem Inv.blocked_of_last (hcount : count = Fintype.card τ) {s : State τ} (hinv : Inv prog count s)
    {t : τ} (hb : s.blocked t = none) (hlast : s.arrived + 1 = count) (u : τ) (hu : u ≠ t) :
    s.blocked u = some s.gen := by
  -- the blocked threads are all but `t`, since there are `count - 1` of them
  have hsub : s.blockedIn s.gen ⊆ Finset.univ.erase t := fun v hv =>
    Finset.mem_erase.mpr ⟨fun h => by simp [h, hb] at hv, Finset.mem_univ v⟩
  have hcard : (Finset.univ.erase t).card ≤ (s.blockedIn s.gen).card := by
    rw [Finset.card_erase_of_mem (Finset.mem_univ t), Finset.card_univ, ← hcount, ← hlast,
      hinv.arrived_eq]
    omega
  have hF : u ∈ s.blockedIn s.gen := (Finset.eq_of_subset_of_card_le hsub hcard) ▸
    Finset.mem_erase.mpr ⟨hu, Finset.mem_univ u⟩
  exact State.mem_blockedIn.mp hF

theorem Inv.release (hcount : count = Fintype.card τ) {s : State τ} {t : τ} (hinv : Inv prog count s)
    (hb : s.blocked t = none) (hw : (prog t)[s.pc t]? = some .wait) (hlast : s.arrived + 1 = count) :
    Inv prog count (s.release t) := by
  have hothers := hinv.blocked_of_last hcount hb hlast
  have hlt : s.pc t < (prog t).length := (List.getElem?_eq_some_iff.mp hw).1
  refine ⟨fun u => ?_, ?_, by simp [State.release]; omega, hinv.mem_trace_pass hw, hinv.ordered⟩
  · by_cases hu : u = t
    · subst hu
      simp only [State.release, Function.update_self, hb]
      refine .of_running prog (by omega) ?_
      rw [phase_succ_wait prog hw, (hinv.threads u).running hb]
    · -- every other thread waits in the generation that has just ended
      have hu' := hothers u hu
      obtain ⟨hw', hph', -⟩ := (hinv.threads u).blocked _ hu'
      refine ⟨by simpa [State.release, Function.update_of_ne hu] using (hinv.threads u).pc_le,
        fun h => by simp [State.release, hu'] at h, fun g h => ?_⟩
      simp only [State.release, Function.update_of_ne hu, hu', Option.some.injEq] at h ⊢
      subst h
      exact ⟨hw', hph', .inr rfl⟩
  · -- nobody has arrived in the new generation
    refine (Finset.card_eq_zero.mpr (Finset.eq_empty_iff_forall_notMem.mpr fun u hu => ?_)).symm
    simp only [State.mem_blockedIn, State.release] at hu
    rcases (hinv.threads u).blocked _ hu with ⟨-, -, h | h⟩ <;> omega

theorem Inv.arrive {s : State τ} {t : τ} (hinv : Inv prog count s) (hb : s.blocked t = none)
    (hw : (prog t)[s.pc t]? = some .wait) (hlast : s.arrived + 1 ≠ count) :
    Inv prog count (s.arrive t) := by
  refine ⟨fun u => ?_, ?_, by simp [State.arrive]; have := hinv.arrived_lt; omega,
    by simpa [State.arrive] using hinv.mem_trace, by simpa [State.arrive] using hinv.ordered⟩
  · by_cases hu : u = t
    · subst hu
      refine ⟨(hinv.threads u).pc_le, fun h => by simp [State.arrive] at h, fun g h => ?_⟩
      simp only [State.arrive, Function.update_self, Option.some.injEq] at h
      subst h
      exact ⟨hw, (hinv.threads u).running hb, .inl rfl⟩
    · simpa [State.arrive, Function.update_of_ne hu] using hinv.threads u
  · -- the count goes up by `t`, which had not arrived
    have hF : (s.arrive t).blockedIn (s.arrive t).gen = insert t (s.blockedIn s.gen) := by
      ext u
      by_cases hu : u = t
      · subst hu
        simp [State.arrive]
      · simp [State.arrive, hu]
    rw [hF, Finset.card_insert_of_notMem (by simp [hb]), ← hinv.arrived_eq]
    rfl

/-- **Every step keeps the invariant.** -/
theorem Inv.next (hcount : count = Fintype.card τ) {s s' : State τ} {t : τ} (hinv : Inv prog count s)
    (h : step prog count s t = some s') : Inv prog count s' := by
  rcases step_cases prog count h with ⟨g, hb, hg, rfl⟩ | ⟨hb, ⟨e, he⟩, rfl⟩ |
    ⟨hb, hw, hlast, rfl⟩ | ⟨hb, hw, hlast, rfl⟩
  · exact hinv.wake hb hg
  · exact hinv.perform hb he
  · exact hinv.release hcount hb hw hlast
  · exact hinv.arrive hb hw hlast

/-- **Every reachable state keeps the invariant.** -/
theorem inv_of_runSteps (hcount : count = Fintype.card τ) [Nonempty τ] {ts : List τ} {s : State τ}
    (hrun : Machine.runSteps (step prog count) init ts = some s) : Inv prog count s :=
  @Machine.runSteps_inv _ _ (step prog count) (Inv prog count) (fun _ => True)
    (fun _ _ _ hinv _ h => hinv.next hcount h) ts (fun _ _ => trivial) _ _
    (inv_init prog count (hcount ▸ Fintype.card_pos)) hrun

/-- **No interleaving gets stuck before its end.** When the barrier is set up
for all the threads and every program waits equally often, a reachable
state in which no thread can move has every thread at its program's end. -/
theorem Inv.done_of_stuck (hcount : count = Fintype.card τ)
    (hwaits : ∀ t u, (prog t).countP Instr.isWait = (prog u).countP Instr.isWait)
    {s : State τ} (hinv : Inv prog count s) (hstuck : ∀ t, step prog count s t = none) (t : τ) :
    s.pc t = (prog t).length := by
  -- a thread cannot move while blocked in the current generation, or at its end
  have hend : ∀ u, s.blocked u ≠ some s.gen → s.pc u = (prog u).length := fun u hu => by
    rcases (step_eq_none prog count).mp (hstuck u) with h | ⟨-, h⟩
    · exact absurd h hu
    · exact le_antisymm (hinv.threads u).pc_le (List.getElem?_eq_none_iff.mp h)
  by_contra hne
  have hbt : s.blocked t = some s.gen := by
    by_contra h
    exact hne (hend t h)
  obtain ⟨hw, hph, -⟩ := (hinv.threads t).blocked _ hbt
  have hgen : s.gen < (prog t).countP Instr.isWait := by
    have h1 := phase_mono prog t (List.getElem?_eq_some_iff.mp hw).1
    rw [phase_succ_wait prog hw, hph, phase, waitsBefore_length] at h1
    omega
  have hall : ∀ u, s.blocked u = some s.gen := fun u => by
    by_contra hu
    have hpc := hend u hu
    cases hb : s.blocked u with
    | none =>
      have h1 := (hinv.threads u).running hb
      rw [hpc, phase, waitsBefore_length, hwaits u t] at h1
      omega
    | some g =>
      have h1 := (List.getElem?_eq_some_iff.mp ((hinv.threads u).blocked g hb).1).1
      omega
  -- and then the barrier would have counted all of them
  have hlt := hinv.arrived_lt
  have hF : s.blockedIn s.gen = Finset.univ := Finset.eq_univ_of_forall fun u => State.mem_blockedIn.mpr (hall u)
  rw [hinv.arrived_eq, hF, Finset.card_univ, ← hcount] at hlt
  exact lt_irrefl _ hlt

theorem sum_progress_add_length {s s' : State τ} {ts : List τ}
    (hrun : Machine.runSteps (step prog count) s ts = some s') :
    ∑ t, s.progress t + ts.length ≤ ∑ t, s'.progress t := by
  induction ts generalizing s with
  | nil =>
    rw [Machine.runSteps_nil, Option.some.injEq] at hrun
    simp [hrun]
  | cons t ts ih =>
    rw [Machine.runSteps_cons, Option.bind_eq_some_iff] at hrun
    obtain ⟨s1, hs1, hrest⟩ := hrun
    have hlt : ∑ u, s.progress u < ∑ u, s1.progress u := by
      obtain ⟨hlt, heq⟩ := progress_step prog count hs1
      refine Finset.sum_lt_sum (fun u _ => ?_) ⟨t, Finset.mem_univ t, hlt⟩
      by_cases hu : u = t
      · exact hu ▸ hlt.le
      · exact (heq u hu).ge
    have := ih hrest
    rw [List.length_cons]
    omega

/-- **Every interleaving ends.** A run from the start takes at most twice
as many steps as the programs have instructions. -/
theorem length_le_of_runSteps (hcount : count = Fintype.card τ) [Nonempty τ] {ts : List τ} {s : State τ}
    (hrun : Machine.runSteps (step prog count) init ts = some s) :
    ts.length ≤ ∑ t, 2 * (prog t).length := by
  have hinv := inv_of_runSteps hcount hrun
  -- a waiting thread stands at a wait, before its end
  have hbound : ∀ t, s.progress t ≤ 2 * (prog t).length := fun t => by
    have ht := hinv.threads t
    unfold State.progress
    cases hb : s.blocked t with
    | none =>
      have := ht.pc_le
      simp
      omega
    | some g =>
      have := (List.getElem?_eq_some_iff.mp (ht.blocked g hb).1).1
      simp
      omega
  have h1 := sum_progress_add_length hrun
  have h0 : ∑ t, (init : State τ).progress t = 0 := by simp [State.progress, init]
  rw [h0, zero_add] at h1
  exact h1.trans (Finset.sum_le_sum fun t _ => hbound t)

end Steps

end Inv

end Barrier
