import Mathlib.Logic.Basic

/-!
# Runs of a machine given by a partial step function

A machine is a step function `step : σ → A → Option σ`: from a state, an
action leads to the next state, or is not enabled (`none`). A run applies a
list of actions in order and fails at the first one that is not enabled
(`runSteps`). An invariant that holds at the start and that every enabled step
of an admitted action keeps holds after every run of admitted actions
(`runSteps_inv`); a quantity no step raises by more than one stays within
the run's length of its start (`runSteps_le_add_length`). When each step takes the state that stands for a list of
abstract items to the one that stands for that list and some more, a run
takes it to the state for all the items its steps add, in order
(`bind_runSteps_abs`).
-/

namespace Machine

variable {σ A : Type*} (step : σ → A → Option σ)

/-- Apply the actions in order; `none` if one is not enabled. -/
def runSteps : σ → List A → Option σ
  | s, [] => some s
  | s, a :: as => (step s a).bind fun s' => runSteps s' as

@[simp] theorem runSteps_nil (s : σ) : runSteps step s [] = some s := rfl

theorem runSteps_cons (s : σ) (a : A) (as : List A) :
    runSteps step s (a :: as) = (step s a).bind fun s' => runSteps step s' as := rfl

theorem runSteps_append (s : σ) (as bs : List A) :
    runSteps step s (as ++ bs) = (runSteps step s as).bind fun s' => runSteps step s' bs := by
  induction as generalizing s with
  | nil => rfl
  | cons a as ih =>
    rw [List.cons_append, runSteps_cons, runSteps_cons]
    cases step s a with
    | none => rfl
    | some s' => exact ih s'

/-- **The invariant rule for runs.** -/
theorem runSteps_inv {P : σ → Prop} {G : A → Prop}
    (hstep : ∀ s a s', P s → G a → step s a = some s' → P s') {acts : List A}
    (hacts : ∀ a ∈ acts, G a) {s s' : σ} (hs : P s) (hrun : runSteps step s acts = some s') : P s' := by
  induction acts generalizing s with
  | nil =>
    rw [runSteps_nil, Option.some.injEq] at hrun
    exact hrun ▸ hs
  | cons a as ih =>
    rw [runSteps_cons, Option.bind_eq_some_iff] at hrun
    obtain ⟨s1, hs1, hrest⟩ := hrun
    exact ih (fun b hb => hacts b (List.mem_cons_of_mem a hb))
      (hstep s a s1 hs (hacts a List.mem_cons_self) hs1) hrest

/-- **The counting rule for runs.** A quantity that no step raises by more
than one ends at most the run's length above where it started. -/
theorem runSteps_le_add_length (f : σ → Nat) (hf : ∀ s a s', step s a = some s' → f s' ≤ f s + 1)
    {acts : List A} {s s' : σ} (hrun : runSteps step s acts = some s') : f s' ≤ f s + acts.length := by
  induction acts generalizing s with
  | nil =>
    rw [runSteps_nil, Option.some.injEq] at hrun
    rw [hrun]
    omega
  | cons a as ih =>
    rw [runSteps_cons, Option.bind_eq_some_iff] at hrun
    obtain ⟨s1, hs1, hrest⟩ := hrun
    have h1 := hf s a s1 hs1
    have h2 := ih hrest
    rw [List.length_cons]
    omega

theorem runSteps_eq_foldlM (s : σ) (as : List A) : runSteps step s as = as.foldlM step s := by
  induction as generalizing s with
  | nil => rfl
  | cons a as ih =>
    rw [runSteps_cons, List.foldlM_cons]
    exact congrArg _ (funext ih)

/-- **The abstraction rule for runs.** If, from the state that stands for
`es` (or from its failure), each admitted action leads to the state that
stands for `es ++ g a`, then so does a run of them, for all the items they
add. -/
theorem bind_runSteps_abs {β : Type*} (enc : List β → Option σ) (g : A → List β) (acts : List A)
    (hstep : ∀ es, ∀ a ∈ acts, (enc es).bind (fun s => step s a) = enc (es ++ g a)) (es : List β) :
    (enc es).bind (fun s => runSteps step s acts) = enc (es ++ acts.flatMap g) := by
  induction acts generalizing es with
  | nil => simp
  | cons a as ih =>
    have hrest := ih fun es b hb => hstep es b (List.mem_cons_of_mem a hb)
    simp only [runSteps_cons]
    rw [← Option.bind_assoc, hstep es a List.mem_cons_self, hrest, List.flatMap_cons, List.append_assoc]

end Machine
