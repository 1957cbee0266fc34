import Mathlib

/-!
# Neighbours in a list

`Adj l x y`: `y` comes right after `x` in `l`. A linked structure whose
links may be missing while a writer is between two stores is described by
the list of its nodes and, for each neighbouring pair, either the link or
the pending store; these are the facts about neighbours such an invariant
uses: how appending at the end and dropping the front change them
(`adj_concat_iff`, `adj_cons_iff`), and that in a list without repeats a
node has one successor (`Adj.right_unique`) and the last node none
(`Adj.not_getLast`).
-/

namespace Linked

variable {β : Type*}

/-- `y` comes right after `x` in the list. -/
def Adj : List β → β → β → Prop
  | a :: b :: l, x, y => (a = x ∧ b = y) ∨ Adj (b :: l) x y
  | _, _, _ => False

@[simp] theorem adj_nil {x y : β} : ¬ Adj [] x y := id

@[simp] theorem adj_singleton {a x y : β} : ¬ Adj [a] x y := id

theorem adj_cons_iff {a x y : β} {l : List β} :
    Adj (a :: l) x y ↔ (a = x ∧ l.head? = some y) ∨ Adj l x y := by
  cases l with
  | nil => simp
  | cons b l => simp [Adj]

theorem Adj.mem_left {l : List β} {x y : β} (h : Adj l x y) : x ∈ l := by
  induction l with
  | nil => exact absurd h adj_nil
  | cons a l ih =>
    rcases adj_cons_iff.mp h with ⟨rfl, -⟩ | h
    · exact List.mem_cons_self
    · exact List.mem_cons_of_mem _ (ih h)

theorem Adj.mem_right {l : List β} {x y : β} (h : Adj l x y) : y ∈ l := by
  induction l with
  | nil => exact absurd h adj_nil
  | cons a l ih =>
    rcases adj_cons_iff.mp h with ⟨-, hy⟩ | h
    · exact List.mem_cons_of_mem _ (List.mem_of_mem_head? hy)
    · exact List.mem_cons_of_mem _ (ih h)

theorem Adj.of_cons_of_ne {a x y : β} {l : List β} (h : Adj (a :: l) x y) (hx : x ≠ a) : Adj l x y := by
  rcases adj_cons_iff.mp h with ⟨rfl, -⟩ | h
  · exact absurd rfl hx
  · exact h

theorem Adj.cons {a x y : β} {l : List β} (h : Adj l x y) : Adj (a :: l) x y :=
  adj_cons_iff.mpr (Or.inr h)

theorem adj_concat_iff {l : List β} {z x y : β} :
    Adj (l ++ [z]) x y ↔ Adj l x y ∨ (l.getLast? = some x ∧ y = z) := by
  induction l with
  | nil => simp
  | cons a l ih =>
    rw [List.cons_append, adj_cons_iff, adj_cons_iff, ih]
    cases l with
    | nil => simp [eq_comm]
    | cons b l =>
      simp only [List.cons_append, List.head?_cons, List.getLast?_cons_cons]
      tauto

theorem Adj.right_unique {l : List β} (hl : l.Nodup) {x y y' : β} (h : Adj l x y) (h' : Adj l x y') :
    y = y' := by
  induction l with
  | nil => exact absurd h adj_nil
  | cons a l ih =>
    obtain ⟨ha, hl⟩ := List.nodup_cons.mp hl
    rcases adj_cons_iff.mp h with ⟨rfl, hy⟩ | h <;> rcases adj_cons_iff.mp h' with ⟨he, hy'⟩ | h'
    · exact Option.some.inj (hy.symm.trans hy')
    · exact absurd h'.mem_left ha
    · exact absurd (he ▸ h.mem_left) ha
    · exact ih hl h h'

theorem Adj.not_getLast {l : List β} (hl : l.Nodup) {x y : β} (h : Adj l x y) : l.getLast? ≠ some x := by
  induction l with
  | nil => exact absurd h adj_nil
  | cons a l ih =>
    obtain ⟨ha, hl⟩ := List.nodup_cons.mp hl
    rcases adj_cons_iff.mp h with ⟨rfl, hy⟩ | h
    · cases l with
      | nil => simp at hy
      | cons b l =>
        rw [List.getLast?_cons_cons]
        intro hlast
        exact ha (List.mem_of_getLast? hlast)
    · cases l with
      | nil => exact absurd h adj_nil
      | cons b l =>
        rw [List.getLast?_cons_cons]
        exact ih hl h

theorem Adj.right_ne_head {a x y : β} {l : List β} (hl : (a :: l).Nodup) (h : Adj (a :: l) x y) : y ≠ a := by
  obtain ⟨ha, -⟩ := List.nodup_cons.mp hl
  rcases adj_cons_iff.mp h with ⟨-, hy⟩ | ht
  · rintro rfl
    exact ha (List.mem_of_mem_head? hy)
  · rintro rfl
    exact ha ht.mem_right

end Linked
