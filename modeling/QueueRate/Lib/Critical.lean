import QueueRate.Lib.Machine
import Mathlib.Logic.Function.Basic
import Mathlib.Order.Basic

/-!
# What a lock's critical sections compute

A lock is the machine of its threads (`LockModel`): each action is taken by
one thread; one kind of action is the call of `unlock`; a thread is at
`held` from the return of `lock` to that call. Under the lock, each thread
runs the body of an operation on shared data one step at a time (`Body`).
The system (`Sys`) interleaves the lock's actions, the start of a body by a
thread at `held`, and the steps of bodies; a thread calls `unlock` only with
no body under way.

Suppose that in the lock's runs at most one thread is at `held`, that no
thread moves another onto or off `held`, and that a thread at `held` can only
call `unlock` (`LockModel.Good`); and that each body, run alone, ends with
what its operation does atomically (`Body.Correct`). Then in every run the
data is what the completed operations compute applied atomically in the
order they completed, followed by the steps so far of the one body under way
(`Sys.Inv`), and each operation returned what it returns applied atomically
to the data before it (`LogOk`).
-/

namespace Critical

variable {T σ A D Op R β : Type*}

/-- A lock, as the machine of its threads. -/
structure LockModel (T σ A : Type*) where
  init : σ
  step : σ → A → Option σ
  /-- the thread that takes an action -/
  actor : A → T
  /-- the action is a call of `unlock` -/
  isUnlock : A → Bool
  /-- the thread has returned from `lock` and not called `unlock` -/
  atHeld : σ → T → Bool

/-- What the theorems ask of a lock, with an invariant `I` of its runs. -/
structure LockModel.Good (L : LockModel T σ A) (I : σ → Prop) : Prop where
  init : I L.init
  step : ∀ s a s', I s → L.step s a = some s' → I s'
  /-- mutual exclusion at `held` -/
  excl : ∀ s t u, I s → L.atHeld s t = true → L.atHeld s u = true → t = u
  /-- an action moves no other thread onto or off `held` -/
  frame : ∀ s a s' t, I s → L.step s a = some s' → L.actor a ≠ t → L.atHeld s' t = L.atHeld s t
  /-- at `held`, a thread's only action is the call of `unlock` -/
  own : ∀ s a s', I s → L.atHeld s (L.actor a) = true → L.step s a = some s' → L.isUnlock a = true

/-- The bodies of the operations `Op` on the data `D`: a body starts in
`start op`, and each step changes the data and goes on, or ends returning a
result. `atomic` is what the operation does in one step. -/
structure Body (D Op R β : Type*) where
  start : Op → β
  step : β → D → D × (β ⊕ R)
  atomic : Op → D → D × R

namespace Body

variable (B : Body D Op R β)

/-- The body of `op` run alone from `d` for `k` steps; it stays where it ended. -/
def run (op : Op) (d : D) : ℕ → D × (β ⊕ R)
  | 0 => (d, .inl (B.start op))
  | k + 1 =>
    match run op d k with
    | (d', .inl b) => B.step b d'
    | (d', .inr r) => (d', .inr r)

/-- The body of every operation, run alone, ends with what the operation does atomically. -/
def Correct : Prop :=
  ∀ op d, ∃ n, B.run op d n = ((B.atomic op d).1, .inr (B.atomic op d).2)

variable {B}

theorem run_succ_of_inl {op : Op} {d d' : D} {k : ℕ} {b : β} (h : B.run op d k = (d', .inl b)) :
    B.run op d (k + 1) = B.step b d' := by
  rw [run, h]

theorem run_of_inr {op : Op} {d d' : D} {k : ℕ} {r : R} (h : B.run op d k = (d', .inr r)) :
    ∀ m, k ≤ m → B.run op d m = (d', .inr r) := by
  intro m hm
  obtain ⟨j, rfl⟩ := Nat.exists_eq_add_of_le hm
  induction j with
  | zero => exact h
  | succ j ih => rw [← Nat.add_assoc, run, ih (Nat.le_add_right k j)]

theorem Correct.finish (hB : B.Correct) {op : Op} {d d' d'' : D} {k : ℕ} {b : β} {r : R}
    (h : B.run op d k = (d', .inl b)) (hs : B.step b d' = (d'', .inr r)) :
    d'' = (B.atomic op d).1 ∧ r = (B.atomic op d).2 := by
  obtain ⟨n, hn⟩ := hB op d
  have hk : B.run op d (k + 1) = (d'', .inr r) := (run_succ_of_inl h).trans hs
  -- both runs have ended by the later of the two times, so they agree there
  have h1 := run_of_inr hk (max (k + 1) n) (Nat.le_max_left _ _)
  have h2 := run_of_inr hn (max (k + 1) n) (Nat.le_max_right _ _)
  rw [h1] at h2
  simp only [Prod.mk.injEq, Sum.inr.injEq] at h2
  exact h2

/-- The data after the operations of `log`, applied atomically in order. -/
def replay (d : D) (log : List (T × Op × R)) : D :=
  log.foldl (fun d e => (B.atomic e.2.1 d).1) d

variable (B) in
/-- Each operation of `log` returned what it returns applied atomically to the data before it. -/
def LogOk : D → List (T × Op × R) → Prop
  | _, [] => True
  | d, e :: log => e.2.2 = (B.atomic e.2.1 d).2 ∧ LogOk (B.atomic e.2.1 d).1 log

@[simp] theorem replay_nil (d : D) : B.replay d ([] : List (T × Op × R)) = d := rfl

@[simp] theorem replay_cons (d : D) (e : T × Op × R) (log : List (T × Op × R)) :
    B.replay d (e :: log) = B.replay (B.atomic e.2.1 d).1 log := rfl

theorem replay_concat (d : D) (log : List (T × Op × R)) (e : T × Op × R) :
    B.replay d (log ++ [e]) = (B.atomic e.2.1 (B.replay d log)).1 := by
  simp [replay, List.foldl_append]

theorem logOk_concat {d : D} {log : List (T × Op × R)} (h : B.LogOk d log) {e : T × Op × R}
    (he : e.2.2 = (B.atomic e.2.1 (B.replay d log)).2) : B.LogOk d (log ++ [e]) := by
  induction log generalizing d with
  | nil => exact ⟨he, trivial⟩
  | cons e' log ih => exact ⟨h.1, ih h.2 he⟩

end Body

/-! ### The system -/

/-- The lock, the data, the body each thread is running, if any, and the
operations completed so far with their results, in order. -/
structure Sys.State (T σ D Op R β : Type*) where
  lock : σ
  data : D
  body : T → Option (Op × β)
  log : List (T × Op × R)

/-- An action of the system: one of the lock, the start of a body, or a step of one. -/
inductive Sys.Act (T A Op : Type*)
  | lock (a : A)
  | call (t : T) (op : Op)
  | next (t : T)

variable [DecidableEq T] (L : LockModel T σ A) (B : Body D Op R β)

/-- The system starts with the lock's start and no body under way. -/
def Sys.init (d : D) : Sys.State T σ D Op R β := ⟨L.init, d, fun _ => none, []⟩

/-- One step of the system; `none` when it cannot be taken. -/
def Sys.step (s : Sys.State T σ D Op R β) : Sys.Act T A Op → Option (Sys.State T σ D Op R β)
  | .lock a =>
    -- `unlock` is called only once the body has ended
    if L.isUnlock a = true ∧ (s.body (L.actor a)).isSome = true then none
    else (L.step s.lock a).map fun l => { s with lock := l }
  | .call t op =>
    if L.atHeld s.lock t = true ∧ s.body t = none then
      some { s with body := Function.update s.body t (some (op, B.start op)) }
    else none
  | .next t =>
    match s.body t with
    | none => none
    | some (op, b) =>
      match B.step b s.data with
      | (d, .inl b') => some { s with data := d, body := Function.update s.body t (some (op, b')) }
      | (d, .inr r) =>
        some { s with data := d, body := Function.update s.body t none, log := s.log ++ [(t, op, r)] }

/-- What every state reached from data `d0` keeps: the lock's invariant; a
thread runs a body only at `held`; with no body under way the data is the
replay of the completed operations, and otherwise the body under way has
run some steps from it; and each completed operation returned its atomic
result. -/
structure Sys.Inv (I : σ → Prop) (d0 : D) (s : Sys.State T σ D Op R β) : Prop where
  lock : I s.lock
  held : ∀ t, (s.body t).isSome = true → L.atHeld s.lock t = true
  idle : (∀ t, s.body t = none) → s.data = B.replay d0 s.log
  busy : ∀ t op b, s.body t = some (op, b) → ∃ k, B.run op (B.replay d0 s.log) k = (s.data, .inl b)
  logOk : B.LogOk d0 s.log

variable {L B} {I : σ → Prop} {d0 : D}

omit [DecidableEq T] in
theorem Sys.inv_init (hL : L.Good I) : Sys.Inv L B I d0 (Sys.init L d0) where
  lock := hL.init
  held _ h := by cases h
  idle _ := rfl
  busy _ _ _ h := by cases h
  logOk := trivial

omit [DecidableEq T] in
theorem Sys.Inv.body_eq_none (hL : L.Good I) {s : Sys.State T σ D Op R β} (h : Sys.Inv L B I d0 s) {t : T}
    (ht : (s.body t).isSome = true) {u : T} (hu : u ≠ t) : s.body u = none := by
  cases hb : s.body u with
  | none => rfl
  | some x =>
    have hu' : (s.body u).isSome = true := by rw [hb]; rfl
    exact absurd (hL.excl _ _ _ h.lock (h.held u hu') (h.held t ht)) hu

omit [DecidableEq T] in
theorem Sys.Inv.lockStep (hL : L.Good I) {s : Sys.State T σ D Op R β} (h : Sys.Inv L B I d0 s) {a : A}
    (ha : ¬ (L.isUnlock a = true ∧ (s.body (L.actor a)).isSome = true)) {l : σ}
    (hl : L.step s.lock a = some l) : Sys.Inv L B I d0 { s with lock := l } where
  lock := hL.step _ _ _ h.lock hl
  held t ht := by
    rcases eq_or_ne (L.actor a) t with rfl | hne
    · -- at `held` the actor could only call `unlock`, which its running body forbids
      exact absurd ⟨hL.own _ _ _ h.lock (h.held _ ht) hl, ht⟩ ha
    · rw [hL.frame _ _ _ _ h.lock hl hne]
      exact h.held t ht
  idle := h.idle
  busy := h.busy
  logOk := h.logOk

theorem Sys.Inv.call (hL : L.Good I) {s : Sys.State T σ D Op R β} (h : Sys.Inv L B I d0 s) {t : T} {op : Op}
    (ht : L.atHeld s.lock t = true) (hb : s.body t = none) :
    Sys.Inv L B I d0 { s with body := Function.update s.body t (some (op, B.start op)) } where
  lock := h.lock
  held u hu := by
    rcases eq_or_ne u t with rfl | hut
    · exact ht
    · dsimp only at hu ⊢
      rw [Function.update_of_ne hut] at hu
      exact h.held u hu
  idle hall := absurd (hall t) (by simp)
  busy u op' b hu := by
    rcases eq_or_ne u t with rfl | hut
    · -- no other body is under way, since no other thread is at `held`
      have hidle : ∀ v, s.body v = none := fun v => by
        rcases eq_or_ne v u with rfl | hvu
        · exact hb
        · cases hv : s.body v with
          | none => rfl
          | some x =>
            have hv' : (s.body v).isSome = true := by rw [hv]; rfl
            exact absurd (hL.excl _ _ _ h.lock (h.held v hv') ht) hvu
      simp only [Function.update_self, Option.some.injEq, Prod.mk.injEq] at hu
      obtain ⟨rfl, rfl⟩ := hu
      exact ⟨0, by rw [h.idle hidle]; rfl⟩
    · dsimp only at hu
      rw [Function.update_of_ne hut] at hu
      exact h.busy u op' b hu
  logOk := h.logOk

theorem Sys.Inv.next (hL : L.Good I) (hB : B.Correct) {s s' : Sys.State T σ D Op R β}
    (h : Sys.Inv L B I d0 s) {t : T} (hs : Sys.step L B s (.next t) = some s') : Sys.Inv L B I d0 s' := by
  cases hb : s.body t with
  | none => simp [Sys.step, hb] at hs
  | some x =>
    obtain ⟨op, b⟩ := x
    have ht : (s.body t).isSome = true := by rw [hb]; rfl
    have hother : ∀ u, u ≠ t → s.body u = none := fun u hu => h.body_eq_none hL ht hu
    obtain ⟨k, hk⟩ := h.busy t op b hb
    cases hstep : B.step b s.data with
    | mk d x =>
      cases x with
      | inl b' =>
        simp only [Sys.step, hb, hstep, Option.some.injEq] at hs
        subst hs
        refine ⟨h.lock, fun u hu => ?_, fun hall => ?_, fun u op' b'' hu => ?_, h.logOk⟩
        · rcases eq_or_ne u t with rfl | hut
          · exact h.held u ht
          · dsimp only at hu
            rw [Function.update_of_ne hut, hother u hut] at hu
            cases hu
        · exact absurd (hall t) (by simp)
        · rcases eq_or_ne u t with rfl | hut
          · simp only [Function.update_self, Option.some.injEq, Prod.mk.injEq] at hu
            obtain ⟨rfl, rfl⟩ := hu
            exact ⟨k + 1, (Body.run_succ_of_inl hk).trans hstep⟩
          · dsimp only at hu
            rw [Function.update_of_ne hut, hother u hut] at hu
            cases hu
      | inr r =>
        simp only [Sys.step, hb, hstep, Option.some.injEq] at hs
        subst hs
        -- the body ends: it has done what the operation does atomically
        obtain ⟨hd, hr⟩ := hB.finish hk hstep
        have hnone : ∀ u, Function.update s.body t none u = none := fun u => by
          rcases eq_or_ne u t with rfl | hut
          · exact Function.update_self ..
          · rw [Function.update_of_ne hut, hother u hut]
        refine ⟨h.lock, fun u hu => ?_, fun _ => ?_, fun u op' b'' hu => ?_, Body.logOk_concat h.logOk hr⟩
        · dsimp only at hu
          rw [hnone u] at hu
          cases hu
        · rw [Body.replay_concat]
          exact hd
        · dsimp only at hu
          rw [hnone u] at hu
          cases hu

/-- **Every step keeps the invariant.** -/
theorem Sys.Inv.step (hL : L.Good I) (hB : B.Correct) {s s' : Sys.State T σ D Op R β}
    (h : Sys.Inv L B I d0 s) {a : Sys.Act T A Op} (hs : Sys.step L B s a = some s') : Sys.Inv L B I d0 s' := by
  cases a with
  | lock a =>
    simp only [Sys.step] at hs
    split_ifs at hs with ha
    obtain ⟨l, hl, rfl⟩ := Option.map_eq_some_iff.mp hs
    exact h.lockStep hL ha hl
  | call t op =>
    simp only [Sys.step] at hs
    split_ifs at hs with hc
    cases hs
    exact h.call hL hc.1 hc.2
  | next t => exact h.next hL hB hs

/-- **The invariant holds in every run.** -/
theorem Sys.inv_of_run (hL : L.Good I) (hB : B.Correct) {acts : List (Sys.Act T A Op)}
    {s : Sys.State T σ D Op R β} (hrun : Machine.runSteps (Sys.step L B) (Sys.init L d0) acts = some s) :
    Sys.Inv L B I d0 s :=
  Machine.runSteps_inv _ (G := fun _ => True) (fun _ _ _ h _ hs => h.step hL hB hs) (fun _ _ => trivial)
    (Sys.inv_init hL) hrun

end Critical
