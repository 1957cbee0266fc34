import Mathlib

/-!
# Paths through a heap of `next` fields

A heap of singly linked nodes is a function `next : α → Option α`: the node
each node's `next` field points to, `none` for null. `Path next p l q` says
that following `next` from the pointer `p` visits the nodes `l`, in order,
and arrives at `q`; a null-terminated list is a path to `none`. Paths
compose (`Path.append`), are determined by where they start and end
(`Path.unique`), a null-terminated one visits no node twice (`Path.nodup`),
and writing the `next` field of a node off the path leaves it a path
(`Path.frame`).
-/

namespace Linked

variable {α : Type*}

/-- Following `next` from `p` visits the nodes of the list, in order, and
then arrives at the last argument. -/
inductive Path (next : α → Option α) : Option α → List α → Option α → Prop
  | nil (p : Option α) : Path next p [] p
  | cons {a : α} {l : List α} {q : Option α} : Path next (next a) l q → Path next (some a) (a :: l) q

variable {next : α → Option α}

@[simp] theorem path_nil_iff {p q : Option α} : Path next p [] q ↔ p = q := by
  constructor
  · rintro ⟨⟩
    rfl
  · rintro rfl
    exact .nil p

@[simp] theorem path_cons_iff {p q : Option α} {a : α} {l : List α} :
    Path next p (a :: l) q ↔ p = some a ∧ Path next (next a) l q := by
  constructor
  · rintro (_ | h)
    exact ⟨rfl, h⟩
  · rintro ⟨rfl, h⟩
    exact .cons h

@[simp] theorem path_none_iff {l : List α} {q : Option α} : Path next none l q ↔ l = [] ∧ q = none := by
  cases l with
  | nil => simp [eq_comm]
  | cons a l => simp

theorem path_some_iff {a : α} {l : List α} :
    Path next (some a) l none ↔ ∃ l', l = a :: l' ∧ Path next (next a) l' none := by
  cases l with
  | nil => simp
  | cons b l =>
    simp only [path_cons_iff, Option.some.injEq, List.cons.injEq]
    constructor
    · rintro ⟨rfl, h⟩
      exact ⟨l, ⟨rfl, rfl⟩, h⟩
    · rintro ⟨l', ⟨rfl, rfl⟩, h⟩
      exact ⟨rfl, h⟩

theorem Path.eq_singleton {a : α} {l : List α} (h : Path next (some a) l none) (ha : next a = none) :
    l = [a] := by
  obtain ⟨l', rfl, h'⟩ := path_some_iff.mp h
  rw [ha, path_none_iff] at h'
  rw [h'.1]

theorem Path.append {p q r : Option α} {l₁ l₂ : List α} (h₁ : Path next p l₁ q) (h₂ : Path next q l₂ r) :
    Path next p (l₁ ++ l₂) r := by
  induction h₁ with
  | nil => exact h₂
  | cons _ ih => exact .cons (ih h₂)

theorem path_append_iff {p r : Option α} {l₁ l₂ : List α} :
    Path next p (l₁ ++ l₂) r ↔ ∃ q, Path next p l₁ q ∧ Path next q l₂ r := by
  induction l₁ generalizing p with
  | nil => simp
  | cons a l₁ ih =>
    simp only [List.cons_append, path_cons_iff, ih]
    constructor
    · rintro ⟨rfl, q, h₁, h₂⟩
      exact ⟨q, ⟨rfl, h₁⟩, h₂⟩
    · rintro ⟨q, ⟨rfl, h₁⟩, h₂⟩
      exact ⟨rfl, q, h₁, h₂⟩

theorem path_concat_iff {p r : Option α} {l : List α} {a : α} :
    Path next p (l ++ [a]) r ↔ Path next p l (some a) ∧ next a = r := by
  rw [path_append_iff]
  simp

theorem Path.head {p q : Option α} {l : List α} (h : Path next p l q) :
    p = (l.head? <|> q) := by
  cases h <;> rfl

theorem Path.unique {p : Option α} {l l' : List α} (h : Path next p l none) (h' : Path next p l' none) :
    l = l' := by
  induction l generalizing p l' with
  | nil =>
    obtain rfl := path_nil_iff.mp h
    cases l' with
    | nil => rfl
    | cons b l' => simp at h'
  | cons a l ih =>
    obtain ⟨rfl, ht⟩ := path_cons_iff.mp h
    cases l' with
    | nil => simp at h'
    | cons b l' =>
      obtain ⟨hb, ht'⟩ := path_cons_iff.mp h'
      cases hb
      rw [ih ht ht']

/-- A path to null visits no node twice: from a second visit it would run
on as from the first, and be shorter. -/
theorem Path.nodup {p : Option α} {l : List α} (h : Path next p l none) : l.Nodup := by
  induction l generalizing p with
  | nil => exact List.nodup_nil
  | cons a l ih =>
    obtain ⟨rfl, hl⟩ := path_cons_iff.mp h
    refine List.nodup_cons.mpr ⟨fun ha => ?_, ih hl⟩
    obtain ⟨l₁, l₂, rfl⟩ := List.append_of_mem ha
    obtain ⟨q, h₁, h₂⟩ := path_append_iff.mp hl
    have hq : q = some a := by cases h₂; rfl
    subst hq
    have hlen := congrArg List.length ((Path.cons (a := a) (h₁.append h₂)).unique h₂)
    simp only [List.length_cons, List.length_append] at hlen
    omega

theorem Path.frame {p q : Option α} {l : List α} (h : Path next p l q) [DecidableEq α] {a : α}
    (ha : a ∉ l) (v : Option α) : Path (Function.update next a v) p l q := by
  induction h with
  | nil => exact .nil _
  | @cons b l _ _ ih =>
    have hb : b ≠ a := fun e => ha (e ▸ List.mem_cons_self)
    refine .cons ?_
    rw [Function.update_of_ne hb]
    exact ih (fun h => ha (List.mem_cons_of_mem _ h))

end Linked
