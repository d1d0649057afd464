import Mathlib

/-!
# Allocator/Layout — disjoint blocks in an address range

`Layout size lo hi bs` says that the blocks `b, …, b + size b - 1` for `b` in `bs` are non-empty,
lie between `lo` and `hi` and do not overlap.  It is kept by the edits an allocator makes: `carve`
splits a block, `melt` joins two neighbours, `grow` adds a block at the end of the range, and any
permutation or sublist of the blocks is laid out as well.
-/

namespace SchemeOs

variable {size size' : ℕ → ℕ} {lo hi n a b p : ℕ} {bs bs' : List ℕ}

/-- Two blocks do not overlap. -/
def Apart (size : ℕ → ℕ) (a b : ℕ) : Prop := a + size a ≤ b ∨ b + size b ≤ a

instance : Std.Symm (Apart size) := ⟨fun _ _ h => Or.symm h⟩

/-- Non-overlapping blocks have no address in common. -/
theorem Apart.disjoint (h : Apart size a b) :
    Disjoint (Set.Ico a (a + size a)) (Set.Ico b (b + size b)) :=
  Set.disjoint_left.mpr fun x ha hb => by
    rcases h with h | h <;> simp only [Set.mem_Ico] at ha hb <;> omega

/-- The blocks `bs` are non-empty, pairwise disjoint, and lie between `lo` and `hi`. -/
structure Layout (size : ℕ → ℕ) (lo hi : ℕ) (bs : List ℕ) : Prop where
  apart : bs.Pairwise (Apart size)
  pos : ∀ b ∈ bs, 0 < size b
  ge : ∀ b ∈ bs, lo ≤ b
  le : ∀ b ∈ bs, b + size b ≤ hi

namespace Layout

theorem perm (h : Layout size lo hi bs) (hp : bs.Perm bs') : Layout size lo hi bs' where
  apart := h.apart.perm hp Or.symm
  pos b hb := h.pos b (hp.mem_iff.mpr hb)
  ge b hb := h.ge b (hp.mem_iff.mpr hb)
  le b hb := h.le b (hp.mem_iff.mpr hb)

theorem sublist (h : Layout size lo hi bs) (hs : bs'.Sublist bs) : Layout size lo hi bs' where
  apart := h.apart.sublist hs
  pos b hb := h.pos b (hs.mem hb)
  ge b hb := h.ge b (hs.mem hb)
  le b hb := h.le b (hs.mem hb)

theorem nodup (h : Layout size lo hi bs) : bs.Nodup :=
  h.apart.imp_of_mem fun {a b} ha hb hab heq => by
    subst heq
    have := h.pos a ha
    rcases hab with hab | hab <;> omega

/-- Two distinct blocks of a layout are apart. -/
theorem apart_of_ne (h : Layout size lo hi bs) (ha : a ∈ bs) (hb : b ∈ bs) (hne : a ≠ b) :
    Apart size a b :=
  h.apart.forall ha hb hne

/-- No block starts strictly inside another one. -/
theorem notMem_inside (h : Layout size lo hi bs) (ha : a ∈ bs) (hlt : a < p)
    (hp : p < a + size a) : p ∉ bs := fun hmem => by
  have hpos := h.pos p hmem
  rcases h.apart_of_ne ha hmem (by omega) with hap | hap <;> omega

/-- Blocks are laid out by their own sizes only. -/
theorem congr_size (h : Layout size lo hi bs) (hag : ∀ b ∈ bs, size' b = size b) :
    Layout size' lo hi bs where
  apart := h.apart.imp_of_mem fun {a b} ha hb hab => by
    rw [Apart, hag a ha, hag b hb]; exact hab
  pos b hb := by rw [hag b hb]; exact h.pos b hb
  ge := h.ge
  le b hb := by rw [hag b hb]; exact h.le b hb

/-- A layout fits in a larger range. -/
theorem mono (h : Layout size lo hi bs) {hi' : ℕ} (hle : hi ≤ hi') : Layout size lo hi' bs where
  apart := h.apart
  pos := h.pos
  ge := h.ge
  le b hb := (h.le b hb).trans hle

theorem head_apart (h : Layout size lo hi (p :: bs)) (hb : b ∈ bs) : Apart size p b :=
  (List.pairwise_cons.mp h.apart).1 b hb

theorem head_ne (h : Layout size lo hi (p :: bs)) (hb : b ∈ bs) : b ≠ p := fun heq =>
  (List.nodup_cons.mp h.nodup).1 (heq ▸ hb)

/-- Carving leaves the sizes of the other blocks alone. -/
theorem size_carve (h : Layout size lo hi (p :: bs)) (hn : 0 < n) (hlt : n < size p) (hb : b ∈ bs) :
    Function.update (Function.update size p (size p - n)) (p + (size p - n)) n b = size b := by
  have hne : b ≠ p + (size p - n) := fun heq =>
    h.notMem_inside List.mem_cons_self (p := b) (by omega) (by omega) (List.mem_cons_of_mem _ hb)
  rw [Function.update_of_ne hne, Function.update_of_ne (h.head_ne hb)]

/-- **Carving** `n` units off the tail of the block `p` makes a new block there. -/
theorem carve (h : Layout size lo hi (p :: bs)) (hn : 0 < n) (hlt : n < size p) :
    Layout (Function.update (Function.update size p (size p - n)) (p + (size p - n)) n) lo hi
      ((p + (size p - n)) :: p :: bs) := by
  have hpx : p ≠ p + (size p - n) := by omega
  have hge := h.ge p List.mem_cons_self
  have hle := h.le p List.mem_cons_self
  have hother : ∀ b ∈ bs, Function.update (Function.update size p (size p - n))
      (p + (size p - n)) n b = size b := fun b hb => h.size_carve hn hlt hb
  constructor
  · refine List.pairwise_cons.mpr ⟨fun b hb => ?_, List.pairwise_cons.mpr ⟨fun b hb => ?_, ?_⟩⟩
    · rcases List.mem_cons.mp hb with rfl | hb
      · exact Or.inr (by simp [Function.update_of_ne hpx])
      · have := h.head_apart hb
        rw [Apart, Function.update_self, hother b hb]
        rcases this with h' | h' <;> omega
    · have := h.head_apart hb
      rw [Apart, hother b hb, Function.update_of_ne hpx, Function.update_self]
      rcases this with h' | h' <;> omega
    · exact (List.pairwise_cons.mp h.apart).2.imp_of_mem fun {a b} ha hb hab => by
        rw [Apart, hother a ha, hother b hb]; exact hab
  · intro b hb
    rcases List.mem_cons.mp hb with rfl | hb
    · rwa [Function.update_self]
    rcases List.mem_cons.mp hb with rfl | hb
    · rw [Function.update_of_ne hpx, Function.update_self]; omega
    · rw [hother b hb]; exact h.pos b (List.mem_cons_of_mem _ hb)
  · intro b hb
    rcases List.mem_cons.mp hb with rfl | hb
    · omega
    · exact h.ge b hb
  · intro b hb
    rcases List.mem_cons.mp hb with rfl | hb
    · rw [Function.update_self]; omega
    rcases List.mem_cons.mp hb with rfl | hb
    · rw [Function.update_of_ne hpx, Function.update_self]; omega
    · rw [hother b hb]; exact h.le b (List.mem_cons_of_mem _ hb)

/-- **Melting** the block `b` into the block `p` that ends where `b` starts. -/
theorem melt (h : Layout size lo hi (p :: b :: bs)) (hpb : p + size p = b) :
    Layout (Function.update size p (size p + size b)) lo hi (p :: bs) := by
  have hother : ∀ a ∈ bs, Function.update size p (size p + size b) a = size a := fun a ha =>
    Function.update_of_ne (h.head_ne (List.mem_cons_of_mem _ ha)) _ _
  have hb := h.sublist (List.sublist_cons_self p (b :: bs))
  have hpos := h.pos p List.mem_cons_self
  constructor
  · refine List.pairwise_cons.mpr ⟨fun a ha => ?_, ?_⟩
    · have h₁ := h.head_apart (List.mem_cons_of_mem _ ha)
      have h₂ := hb.head_apart ha
      have h₃ := h.pos a (List.mem_cons_of_mem _ (List.mem_cons_of_mem _ ha))
      rw [Apart, hother a ha, Function.update_self]
      rcases h₁ with h₁ | h₁ <;> rcases h₂ with h₂ | h₂ <;> omega
    · exact (List.pairwise_cons.mp hb.apart).2.imp_of_mem fun {a b} ha hb hab => by
        rw [Apart, hother a ha, hother b hb]; exact hab
  · intro a ha
    rcases List.mem_cons.mp ha with rfl | ha
    · rw [Function.update_self]; omega
    · rw [hother a ha]; exact h.pos a (List.mem_cons_of_mem _ (List.mem_cons_of_mem _ ha))
  · intro a ha
    rcases List.mem_cons.mp ha with rfl | ha
    · exact h.ge a List.mem_cons_self
    · exact h.ge a (List.mem_cons_of_mem _ (List.mem_cons_of_mem _ ha))
  · intro a ha
    rcases List.mem_cons.mp ha with rfl | ha
    · have := h.le b (by simp)
      rw [Function.update_self]; omega
    · rw [hother a ha]; exact h.le a (List.mem_cons_of_mem _ (List.mem_cons_of_mem _ ha))

/-- **Growing** the range adds a block at its end. -/
theorem grow (h : Layout size lo hi bs) (hn : 0 < n) (hlo : lo ≤ hi) :
    Layout (Function.update size hi n) lo (hi + n) (hi :: bs) := by
  have hother : ∀ b ∈ bs, Function.update size hi n b = size b := fun b hb => by
    have := h.pos b hb
    have := h.le b hb
    exact Function.update_of_ne (by omega) _ _
  constructor
  · refine List.pairwise_cons.mpr ⟨fun b hb => Or.inr ?_, ?_⟩
    · rw [hother b hb]; exact h.le b hb
    · exact h.apart.imp_of_mem fun {a b} ha hb hab => by
        rw [Apart, hother a ha, hother b hb]; exact hab
  · intro b hb
    rcases List.mem_cons.mp hb with rfl | hb
    · rwa [Function.update_self]
    · rw [hother b hb]; exact h.pos b hb
  · intro b hb
    rcases List.mem_cons.mp hb with rfl | hb
    · exact hlo
    · exact h.ge b hb
  · intro b hb
    rcases List.mem_cons.mp hb with rfl | hb
    · rw [Function.update_self]
    · rw [hother b hb]; exact (h.le b hb).trans (Nat.le_add_right _ _)

end Layout

/-! ## Tilings -/

/-- A layout that leaves no gap: the blocks fill the range. -/
structure Tiling (size : ℕ → ℕ) (lo hi : ℕ) (bs : List ℕ) : Prop extends Layout size lo hi bs where
  total : (bs.map size).sum + lo = hi

namespace Tiling

theorem perm (h : Tiling size lo hi bs) (hp : bs.Perm bs') : Tiling size lo hi bs' where
  toLayout := h.toLayout.perm hp
  total := by rw [← (hp.map size).sum_eq, h.total]

theorem congr_size (h : Tiling size lo hi bs) (hag : ∀ b ∈ bs, size' b = size b) :
    Tiling size' lo hi bs where
  toLayout := h.toLayout.congr_size hag
  total := by rw [List.map_congr_left hag, h.total]

theorem carve (h : Tiling size lo hi (p :: bs)) (hn : 0 < n) (hlt : n < size p) :
    Tiling (Function.update (Function.update size p (size p - n)) (p + (size p - n)) n) lo hi
      ((p + (size p - n)) :: p :: bs) where
  toLayout := h.toLayout.carve hn hlt
  total := by
    have htotal := h.total
    have hpx : p ≠ p + (size p - n) := by omega
    have hmap : bs.map (Function.update (Function.update size p (size p - n))
        (p + (size p - n)) n) = bs.map size :=
      List.map_congr_left fun b hb => h.size_carve hn hlt hb
    rw [List.map_cons, List.map_cons, hmap, Function.update_self, Function.update_of_ne hpx,
      Function.update_self]
    simp only [List.map_cons, List.sum_cons] at htotal ⊢
    omega

theorem melt (h : Tiling size lo hi (p :: b :: bs)) (hpb : p + size p = b) :
    Tiling (Function.update size p (size p + size b)) lo hi (p :: bs) where
  toLayout := h.toLayout.melt hpb
  total := by
    have htotal := h.total
    have hother : ∀ a ∈ bs, Function.update size p (size p + size b) a = size a := fun a ha =>
      Function.update_of_ne (h.head_ne (List.mem_cons_of_mem _ ha)) _ _
    rw [List.map_cons, List.map_congr_left hother, Function.update_self]
    simp only [List.map_cons, List.sum_cons] at htotal ⊢
    omega

theorem grow (h : Tiling size lo hi bs) (hn : 0 < n) (hlo : lo ≤ hi) :
    Tiling (Function.update size hi n) lo (hi + n) (hi :: bs) where
  toLayout := h.toLayout.grow hn hlo
  total := by
    have htotal := h.total
    have hother : ∀ b ∈ bs, Function.update size hi n b = size b := fun b hb => by
      have := h.pos b hb
      have := h.le b hb
      exact Function.update_of_ne (by omega) _ _
    rw [List.map_cons, List.map_congr_left hother, Function.update_self]
    simp only [List.sum_cons]
    omega

end Tiling

end SchemeOs
