import Mathlib.Order.Basic

/-!
# Tickets from a fetch-and-add counter

A counter hands out the tickets `0, 1, 2, …` one fetch-and-add at a time,
and a holder keeps its ticket from its fetch-and-add until it is finished
with it. A ticket is *done* once it has been handed out and no holder keeps
it (`Done`). A step that moves one holder `t` changes the done tickets in one
of three ways: not at all, when `t` holds nothing before or after
(`done_iff_of_idle`); not at all when `t` takes the next ticket
(`done_iff_of_take`); and by `t`'s ticket when `t` finishes with it
(`done_iff_of_finish`).
-/

namespace Tickets

variable {H : Type*}

/-- Ticket `g` has been handed out and no holder keeps it. -/
def Done (next : ℕ) (holds : H → Bool) (ticket : H → ℕ) (g : ℕ) : Prop :=
  g < next ∧ ∀ u, holds u = true → ticket u ≠ g

variable {next next' : ℕ} {holds holds' : H → Bool} {ticket ticket' : H → ℕ} {t : H}

section OneHolder

-- A step that moves the holder `t` only.
variable (hh : ∀ u, u ≠ t → holds' u = holds u) (ht : ∀ u, u ≠ t → ticket' u = ticket u)
include hh ht

theorem done_iff_of_idle (hn : next' = next) (h0 : holds t = false) (h0' : holds' t = false) {g : ℕ} :
    Done next' holds' ticket' g ↔ Done next holds ticket g := by
  unfold Done
  rw [hn]
  refine and_congr_right fun _ => ⟨fun hu u hp => ?_, fun hu u hp => ?_⟩
  · have hut : u ≠ t := by
      rintro rfl
      rw [h0] at hp
      cases hp
    rw [← ht u hut]
    exact hu u ((hh u hut).trans hp)
  · have hut : u ≠ t := by
      rintro rfl
      rw [h0'] at hp
      cases hp
    rw [ht u hut]
    exact hu u ((hh u hut).symm.trans hp)

/-- Taking the next ticket: the counter moves past it and `t` keeps it, so
the done tickets stay the same. -/
theorem done_iff_of_take (hn : next' = next + 1) (h0 : holds t = false) (h1 : holds' t = true)
    (hmine : ticket' t = next) {g : ℕ} :
    Done next' holds' ticket' g ↔ Done next holds ticket g := by
  unfold Done
  rw [hn]
  constructor
  · rintro ⟨hg, hu⟩
    have hne : next ≠ g := by
      rw [← hmine]
      exact hu t h1
    refine ⟨by omega, fun u hp => ?_⟩
    have hut : u ≠ t := by
      rintro rfl
      rw [h0] at hp
      cases hp
    rw [← ht u hut]
    exact hu u ((hh u hut).trans hp)
  · rintro ⟨hg, hu⟩
    refine ⟨Nat.lt_succ_of_lt hg, fun u hp => ?_⟩
    rcases eq_or_ne u t with rfl | hut
    · rw [hmine]
      exact Nat.ne_of_gt hg
    · rw [ht u hut]
      exact hu u ((hh u hut).symm.trans hp)

theorem done_iff_of_finish (hn : next' = next) (h1 : holds t = true) (h0' : holds' t = false)
    (hlt : ticket t < next) (huniq : ∀ u, holds u = true → ticket u = ticket t → u = t) {g : ℕ} :
    Done next' holds' ticket' g ↔ Done next holds ticket g ∨ g = ticket t := by
  unfold Done
  rw [hn]
  constructor
  · rintro ⟨hg, hu⟩
    by_cases hgt : g = ticket t
    · exact .inr hgt
    refine .inl ⟨hg, fun u hp => ?_⟩
    rcases eq_or_ne u t with rfl | hut
    · exact fun e => hgt e.symm
    · rw [← ht u hut]
      exact hu u ((hh u hut).trans hp)
  · have hother : ∀ u, holds' u = true → u ≠ t ∧ holds u = true ∧ ticket' u = ticket u := by
      intro u hp
      have hut : u ≠ t := by
        rintro rfl
        rw [h0'] at hp
        cases hp
      exact ⟨hut, (hh u hut).symm.trans hp, ht u hut⟩
    rintro (⟨hg, hu⟩ | rfl)
    · refine ⟨hg, fun u hp => ?_⟩
      obtain ⟨-, hp', hr⟩ := hother u hp
      rw [hr]
      exact hu u hp'
    · refine ⟨hlt, fun u hp hr => ?_⟩
      obtain ⟨hut, hp', hr'⟩ := hother u hp
      exact hut (huniq u hp' (hr'.symm.trans hr))

end OneHolder

end Tickets
