import Mathlib.Data.List.Pairwise
import Mathlib.Data.Multiset.Filter

/-!
# A heap of blocks from `malloc`

The heap is its live blocks, each a start address and a size; none is
empty and no two share an address (`Heap`). `malloc` hands out a block that
shares no address with a live one, and `free p` takes back the live block
that starts at `p`. Freeing an address at which no live block starts is an
error, `none`, whatever the heap: in particular an address inside a live
block but past its start (`free_interior`). Freeing the start of a live
block takes back that block and no other (`coe_blocks_free`).
-/

namespace Mem

/-- A block: its start address and its size in bytes. -/
structure Block where
  base : ℕ
  size : ℕ
deriving DecidableEq

/-- The two blocks share an address. -/
def Block.Overlaps (b c : Block) : Prop := b.base < c.base + c.size ∧ c.base < b.base + b.size

/-- The two blocks share no address. -/
def Block.Apart (b c : Block) : Prop := ¬ b.Overlaps c

instance (b c : Block) : Decidable (b.Apart c) := inferInstanceAs (Decidable (¬ (_ ∧ _)))

theorem Block.overlaps_comm {b c : Block} : b.Overlaps c ↔ c.Overlaps b := And.comm

instance : Std.Symm Block.Apart := ⟨fun _ _ h h' => h (Block.overlaps_comm.mp h')⟩

/-- The live blocks: none empty, no two sharing an address. -/
structure Heap where
  blocks : List Block
  nonempty : ∀ b ∈ blocks, 0 < b.size
  disjoint : blocks.Pairwise Block.Apart

/-- `malloc` returning the block `b`, which must be nonempty and share no
address with a live block; `none` when the allocator cannot return `b`. -/
def malloc (h : Heap) (b : Block) : Option Heap :=
  if hb : 0 < b.size ∧ ∀ c ∈ h.blocks, b.Apart c then
    some ⟨b :: h.blocks, List.forall_mem_cons.mpr ⟨hb.1, h.nonempty⟩, List.pairwise_cons.mpr ⟨hb.2, h.disjoint⟩⟩
  else none

/-- `free (p)`: the live block that starts at `p` is taken back; `none`, an
invalid free, when no live block starts at `p`. -/
def free (h : Heap) (p : ℕ) : Option Heap :=
  if h.blocks.any (fun b => b.base = p) then
    some ⟨h.blocks.filter (fun b => b.base ≠ p), fun b hb => h.nonempty b (List.mem_filter.mp hb).1,
      h.disjoint.sublist List.filter_sublist⟩
  else none

theorem Block.base_ne_of_apart {b c : Block} (hb : 0 < b.size) (hc : 0 < c.size) (hbc : b.Apart c) :
    b.base ≠ c.base := fun h =>
  hbc ⟨by omega, by omega⟩

theorem Heap.nodup (h : Heap) : h.blocks.Nodup :=
  h.disjoint.imp_of_mem fun {b _} hb _ hbc hbeq => by
    subst hbeq
    have := h.nonempty b hb
    exact hbc ⟨by omega, by omega⟩

theorem malloc_apart {h h' : Heap} {b : Block} (hm : malloc h b = some h') :
    0 < b.size ∧ ∀ c ∈ h.blocks, b.Apart c := by
  unfold malloc at hm
  split at hm
  next hb => exact hb
  next => cases hm

/-- A live block is the only one that holds its addresses. -/
theorem eq_of_mem_of_mem {h : Heap} {b c : Block} (hb : b ∈ h.blocks) (hc : c ∈ h.blocks)
    (hbc : b.Overlaps c) : b = c := by
  by_contra hne
  exact h.disjoint.forall hb hc hne hbc

theorem base_ne_of_mem {h : Heap} {b c : Block} (hb : b ∈ h.blocks) (hc : c ∈ h.blocks) (hne : c ≠ b) :
    c.base ≠ b.base := fun heq =>
  hne (eq_of_mem_of_mem hc hb ⟨by have := h.nonempty b hb; omega, by have := h.nonempty c hc; omega⟩)

theorem free_eq_none_iff {h : Heap} {p : ℕ} : free h p = none ↔ ∀ b ∈ h.blocks, b.base ≠ p := by
  unfold free
  split
  next hp =>
    obtain ⟨b, hb, hbp⟩ := List.any_eq_true.mp hp
    exact iff_of_false (Option.some_ne_none _) fun h' => h' b hb (of_decide_eq_true hbp)
  next hp =>
    simp only [List.any_eq_true, decide_eq_true_eq, not_exists, not_and] at hp
    exact iff_of_true rfl hp

/-- **Freeing an address inside a live block, past its start, is invalid.** -/
theorem free_interior {h : Heap} {b : Block} (hb : b ∈ h.blocks) {p : ℕ} (hlo : b.base < p)
    (hhi : p < b.base + b.size) : free h p = none := by
  refine free_eq_none_iff.mpr fun c hc hcp => ?_
  -- a block starting at `p` would share the address `p` with `b`
  have hov : b.Overlaps c := ⟨by have := h.nonempty c hc; omega, by omega⟩
  rw [eq_of_mem_of_mem hb hc hov] at hlo
  omega

theorem blocks_malloc {h h' : Heap} {b : Block} (hm : malloc h b = some h') : h'.blocks = b :: h.blocks := by
  unfold malloc at hm
  split at hm
  · cases hm
    rfl
  · cases hm

theorem blocks_free {h h' : Heap} {p : ℕ} (hf : free h p = some h') :
    h'.blocks = h.blocks.filter fun b => b.base ≠ p := by
  unfold free at hf
  split at hf
  · cases hf
    rfl
  · cases hf

/-- Freeing the start of a live block takes back that block and no other. -/
theorem coe_blocks_free {h h' : Heap} {b : Block} {M : Multiset Block}
    (hh : (h.blocks : Multiset Block) = b ::ₘ M) (hf : free h b.base = some h') :
    (h'.blocks : Multiset Block) = M := by
  have hnd := Multiset.coe_nodup.mpr h.nodup
  rw [hh, Multiset.nodup_cons] at hnd
  have hmem : ∀ c ∈ b ::ₘ M, c ∈ h.blocks := fun c hc => by rwa [← Multiset.mem_coe, hh]
  rw [blocks_free hf, ← Multiset.filter_coe, hh, Multiset.filter_cons_of_neg _ (by simp),
    Multiset.filter_eq_self]
  intro c hc
  exact base_ne_of_mem (hmem b (Multiset.mem_cons_self b M)) (hmem c (Multiset.mem_cons_of_mem hc))
    fun e => hnd.1 (e ▸ hc)

theorem free_isSome {h : Heap} {b : Block} (hb : b ∈ h.blocks) : ∃ h', free h b.base = some h' := by
  unfold free
  rw [if_pos (List.any_eq_true.mpr ⟨b, hb, decide_eq_true rfl⟩)]
  exact ⟨_, rfl⟩

end Mem
