import QueueRate.Natsys.PushSteps
import QueueRate.Natsys.PopSteps

/-!
# The Natsys queue, built right, returns what was pushed

For a queue built right (`WellBuilt`: `Q_SIZE` a power of two, and distinct
`ThrId()`s below `n_producers` and `n_consumers`), the invariant `Inv` holds
at the constructor (`inv_lockFreeQueue`) and after every step a thread takes
in its role (`Inv.of_step`, from `Inv.pushStep` and `Inv.popStep`), so after
every run (`run_inv`).

So every pop returns the pointer the push at its position passed, and no two
pops share a position (`natsys_pop_returns_own_push`): no pointer is returned
that was not pushed, and none twice. The harness's own queue is not built
right (`harness_slot_alias`), and there a pop can return another push's
pointer (`natsys_pop_returns_other_push`).

Key theorems: `Inv.of_step`, `run_inv`, `natsys_pop_returns_own_push`.
-/

namespace QueueRate
namespace Natsys

variable {α T : Type*} {c : Config T} {prod cons : T → Prop}

theorem inv_lockFreeQueue : Inv c prod cons (lockFreeQueue : State α T) where
  threads _ := trivial
  prodRole _ h := by cases h
  consRole _ h := by cases h
  pushedLen := rfl
  pushedPos _ _ h := by cases h
  lastHeadLe := le_rfl
  lastHead _ h := absurd h (Nat.not_lt_zero _)
  lastTailLe := le_rfl
  lastTail _ h := absurd h (Nat.not_lt_zero _)
  readWritten _ h := absurd h.1 (Nat.not_lt_zero _)
  writtenRead _ h := absurd h.1 (Nat.not_lt_zero _)
  slots _ h := absurd h.1 (Nat.not_lt_zero _)
  popped _ h := by cases h
  poppedNodup := List.nodup_nil
  heldFresh _ h := by cases h
  heldInj _ _ h := by cases h

variable [DecidableEq T]

/-- **Every step a thread takes in its role keeps the invariant.** -/
theorem Inv.of_step (hw : WellBuilt c prod cons) {s s' : State α T} (h : Inv c prod cons s)
    {a : Act α T} (ha : a.Respects prod cons) (hs : step c s a = some s') : Inv c prod cons s' := by
  cases a with
  | push t ptr =>
    cases hpc : s.pc t with
    | idle =>
      simp only [step, hpc, Option.some.injEq] at hs
      subst hs
      exact h.pushStart hw ha hpc ptr
    | _ => simp [step, hpc] at hs
  | pop t =>
    cases hpc : s.pc t with
    | idle =>
      simp only [step, hpc, Option.some.injEq] at hs
      subst hs
      exact h.popStart hw ha hpc
    | _ => simp [step, hpc] at hs
  | next t =>
    -- `next` moves a thread within its call: through `stepPush` or `stepPop`
    cases hpc : s.pc t with
    | idle => simp [step, hpc] at hs
    | pushFaa | pushStorePos | pushCheck | pushScanStart | pushScan | pushRecheck | pushWrite
    | pushReset =>
      simp only [step, hpc, Option.some.injEq] at hs
      subst hs
      exact h.pushStep hw hpc
    | popFaa | popStorePos | popCheck | popScanStart | popScan | popRecheck | popRead | popReset =>
      simp only [step, hpc, Option.some.injEq] at hs
      subst hs
      exact h.popStep hw hpc

/-- **The invariant holds after every run** of actions taken by threads in their roles. -/
theorem run_inv (hw : WellBuilt c prod cons) {acts : List (Act α T)}
    (hacts : ∀ a ∈ acts, a.Respects prod cons) {s s' : State α T} (h : Inv c prod cons s)
    (hrun : run c s acts = some s') : Inv c prod cons s' := by
  induction acts generalizing s with
  | nil =>
    rw [run, Option.some.injEq] at hrun
    exact hrun ▸ h
  | cons a acts ih =>
    rw [run, Option.bind_eq_some_iff] at hrun
    obtain ⟨s1, hs1, hrest⟩ := hrun
    exact ih (fun b hb => hacts b (List.mem_cons_of_mem a hb))
      (h.of_step hw (hacts a List.mem_cons_self) hs1) hrest

/-- **A Natsys queue built right returns each pushed pointer at most once,
and nothing else.** In every run from the constructor in which the producers
only push and the consumers only pop, every pop returned the pointer passed
by the push whose fetch-and-add gave the pop's position (`pushed` lists the
pushes by position), and no two pops have the same position. -/
theorem natsys_pop_returns_own_push (hw : WellBuilt c prod cons) {acts : List (Act α T)}
    (hacts : ∀ a ∈ acts, a.Respects prod cons) {s : State α T} (hrun : run c lockFreeQueue acts = some s) :
    (s.popped.map fun e => e.2.1).Nodup ∧
      ∀ e ∈ s.popped, ∃ u ptr, s.pushed[e.2.1]? = some (u, e.2.1, ptr) ∧ e.2.2 = some ptr := by
  have h := run_inv hw hacts inv_lockFreeQueue hrun
  refine ⟨h.poppedNodup, fun e he => ?_⟩
  obtain ⟨-, ptr, hret, hat⟩ := h.popped e he
  unfold ptrAt at hat
  obtain ⟨x, hx, hxp⟩ := Option.map_eq_some_iff.mp hat
  have hxe : x = (x.1, e.2.1, ptr) := Prod.ext rfl (Prod.ext (h.pushedPos e.2.1 x hx) hxp)
  exact ⟨x.1, ptr, hxe ▸ hx, hret⟩

/-- A queue of four slots, with one producer and one consumer. -/
def fourSlots : Config Bool where
  qSize := 4
  nProducers := 1
  nConsumers := 1
  thrId _ := 0

/-- Producer `false` pushes `7` and consumer `true` pops it, from position `0`. -/
theorem natsys_pop_returns_own_push_fourSlots :
    ∃ s, run fourSlots lockFreeQueue (pushActs false 7 ++ popActs true 1) = some s ∧
      s.popped = [(true, 0, some 7)] ∧
      ((s.popped.map fun e => e.2.1).Nodup ∧
        ∀ e ∈ s.popped, ∃ u ptr, s.pushed[e.2.1]? = some (u, e.2.1, ptr) ∧ e.2.2 = some ptr) := by
  have hw : WellBuilt fourSlots (· = false) (· = true) :=
    ⟨⟨2, rfl⟩, fun _ _ => Nat.one_pos, fun _ _ => Nat.one_pos, fun _ _ ht hu _ => ht.trans hu.symm,
      fun _ _ ht hu _ => ht.trans hu.symm⟩
  have hacts : ∀ a ∈ (pushActs false 7 ++ popActs true 1 : List (Act ℕ Bool)),
      a.Respects (· = false) (· = true) := by
    simp [pushActs, popActs, List.replicate, Act.Respects]
  exact ⟨_, rfl, rfl, natsys_pop_returns_own_push hw hacts rfl⟩

end Natsys
end QueueRate
