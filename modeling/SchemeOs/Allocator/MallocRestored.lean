import SchemeOs.Allocator.MallocTermination

/-!
# Allocator/MallocRestored — blocks that are given back

A block that was taken off the tail of a free block melts into what is left of that when it is
freed, and the free memory is as it was.  This is so as long as nothing else has been taken off the
same free block in the meantime, and the free block does not border on the one after it, which would
be taken in as well.
-/

namespace SchemeOs.Malloc

variable {expand : ℕ → Bool} {h h' : Heap} {ring live : List ℕ}
  {nunits nbytes fuel q p q' p' b c m n bp ptr : ℕ}

/-- The free memory is as it was: the list, the pages, and the headers of the free blocks. -/
structure Heap.SameFree (h h' : Heap) : Prop where
  list : h'.freeMemList = h.freeMemList
  pages : h'.heapEnd = h.heapEnd
  headers : ∀ f, h.OnRing f → h'.mem f = h.mem f

/-- The search for `n` units comes to the free block `b` before any other that has so many.  This is
larger, and does not border on the free block after it. -/
structure FitsTail (h : Heap) (n b : ℕ) : Prop where
  list : h.freeMemList ≠ 0
  found : ∃ q, Scans h n h.freeMemList (h.next h.freeMemList) q b
  lt : n < h.size b
  apart : b + h.size b ≠ h.next b

/-! ## The block that is taken -/

theorem search_of_scans (expand : ℕ → Bool) (hs : Scans h nunits q p q' p')
    (hlt : nunits < h.size p') : ∃ fuel, search expand nunits fuel h q p =
      some ((takeTail h nunits p').1 + 1, (takeTail h nunits p').2) := by
  induction hs with
  | here q p => exact ⟨1, by rw [search, if_pos hlt.le, if_neg hlt.ne']⟩
  | next hsmall hne _ ih =>
    obtain ⟨fuel, hfuel⟩ := ih hlt
    exact ⟨fuel + 1, by rw [search, if_neg (Nat.not_le.mpr hsmall), if_neg hne, hfuel]⟩

theorem search_unique {fuel' : ℕ} {r r' : ℕ × Heap} (hs : search expand nunits fuel h q p = some r)
    (hs' : search expand nunits fuel' h q p = some r') : r = r' := by
  induction fuel generalizing fuel' h q p with
  | zero => cases hs
  | succ fuel ih =>
    cases fuel' with
    | zero => cases hs'
    | succ fuel' =>
      rw [search] at hs hs'
      split_ifs at hs hs'
      · exact Option.some.inj (hs.symm.trans hs')
      · exact Option.some.inj (hs.symm.trans hs')
      · exact Option.some.inj (hs.symm.trans hs')
      · exact ih hs hs'
      · exact ih hs hs'

/-- **The request is taken off the tail** of the block that the search finds. -/
theorem FitsTail.kmalloc_eq (ht : FitsTail h (nunitsOf nbytes) b)
    (hm : kmalloc expand fuel nbytes h = some (ptr, h')) :
    ptr = (takeTail h (nunitsOf nbytes) b).1 + 1 ∧ h' = (takeTail h (nunitsOf nbytes) b).2 := by
  rw [kmalloc, refill, if_neg ht.list] at hm
  obtain ⟨q, hq⟩ := ht.found
  obtain ⟨fuel', hfuel'⟩ := search_of_scans expand hq ht.lt
  exact Prod.mk.inj (search_unique hm hfuel')

theorem FitsTail.exists_kmalloc (ht : FitsTail h (nunitsOf nbytes) b) :
    ∃ fuel, kmalloc expand fuel nbytes h = some ((takeTail h (nunitsOf nbytes) b).1 + 1,
      (takeTail h (nunitsOf nbytes) b).2) := by
  obtain ⟨q, hq⟩ := ht.found
  obtain ⟨fuel, hfuel⟩ := search_of_scans expand hq ht.lt
  refine ⟨fuel, ?_⟩
  rw [kmalloc, refill, if_neg ht.list]
  exact hfuel

theorem FitsTail.mem (ht : FitsTail h n b) (hi : Tidy h ring live) : b ∈ ring := by
  obtain ⟨q, hq⟩ := ht.found
  have hl := hi.closed ht.list
  obtain ⟨hmem, hnext⟩ := hq.mem hl (List.mem_of_head? (hi.head ht.list)) rfl
  exact hnext ▸ hl.next_mem hmem

theorem FitsTail.tidy (ht : FitsTail h n b) (hi : Tidy h ring live) (hn : 0 < n) :
    Tidy (takeTail h n b).2 ring ((takeTail h n b).1 :: live) :=
  takeTail_tidy (hi.head ht.list) (hi.closed ht.list) hi.sorted hi.tiling (ht.mem hi) hn ht.lt

/-! ## The block that is freed

It goes back behind the free block that it was cut off from, and melts with it. -/

/-- What `kfree` finds. -/
theorem place_spec (hp : place h bp fuel q = some p) :
    p < bp ∧ bp < h.next p ∨ h.next p ≤ p ∧ (p < bp ∨ bp < h.next p) := by
  induction fuel generalizing q with
  | zero => cases hp
  | succ fuel ih =>
    rw [place] at hp
    split_ifs at hp with h₁ h₂
    · exact .inl (Option.some.inj hp ▸ h₁)
    · exact .inr (Option.some.inj hp ▸ h₂)
    · exact ih hp

/-- On a sorted ring the next block is the next one in address order. -/
theorem next_of_lt (hl : Lasso h.next ring c) (hsorted : ring.Pairwise (· < ·)) (hp : p ∈ ring)
    (hb : b ∈ ring) (hlt : p < b) : p < h.next p ∧ h.next p ≤ b := by
  obtain ⟨l₁, l₂, rfl⟩ := List.append_of_mem hp
  obtain ⟨-, hup, hdown⟩ := List.pairwise_append.mp hsorted
  obtain ⟨habove, hrest⟩ := List.pairwise_cons.mp hup
  have hmem : b ∈ l₂ := by
    rcases List.mem_append.mp hb with hb | hb
    · have := hdown b hb p List.mem_cons_self
      omega
    · exact (List.mem_cons.mp hb).resolve_left hlt.ne'
  cases l₂ with
  | nil => cases hmem
  | cons a l₂ =>
    have hnext : a = h.next p := by simpa using hl.next_eq_head
    rw [← hnext]
    refine ⟨habove a List.mem_cons_self, ?_⟩
    rcases List.mem_cons.mp hmem with rfl | hmem
    · exact le_rfl
    · exact ((List.pairwise_cons.mp hrest).1 b hmem).le

/-- Where it does not go up the ring begins anew. -/
theorem next_le_of_le (hl : Lasso h.next ring c) (hhead : ring.head? = some c)
    (hsorted : ring.Pairwise (· < ·)) (hp : p ∈ ring) (hle : h.next p ≤ p) (hb : b ∈ ring) :
    h.next p ≤ b := by
  by_contra hlt
  have hback : h.next p ∈ ring := hl.next_mem hp
  have hlast : ∀ x ∈ ring, x ≤ p := fun x hx => by
    by_contra hx'
    exact absurd (next_of_lt hl hsorted hp hx (Nat.not_le.mp hx')).1 (Nat.not_lt.mpr hle)
  obtain ⟨l₁, l₂, rfl⟩ := List.append_of_mem hp
  cases l₂ with
  | nil =>
    have hnext : c = h.next p := by simpa using hl.next_eq_head
    obtain ⟨rest, hring⟩ := List.head?_eq_some_iff.mp hhead
    rw [hring] at hb hsorted
    rcases List.mem_cons.mp hb with rfl | hb
    · exact hlt hnext.ge
    · exact hlt (hnext ▸ ((List.pairwise_cons.mp hsorted).1 b hb).le)
  | cons a l₂ =>
    have hup := (List.pairwise_cons.mp (List.pairwise_append.mp hsorted).2.1).1 a List.mem_cons_self
    exact absurd (hlast a (by simp)) (Nat.not_le.mpr hup)

/-- The free block below a block that starts where it ends. -/
theorem place_eq (hi : Tidy h ring live) (h0 : h.freeMemList ≠ 0) (hb : b ∈ ring)
    (hp : place h (b + h.size b) fuel h.freeMemList = some p) : p = b := by
  have hhead := hi.head h0
  have hl := hi.closed h0
  have hmem : p ∈ ring := place_mem hl (List.mem_of_head? hhead) hp
  have hb' := List.mem_append_left live hb
  have hpos := hi.tiling.pos b hb'
  by_contra hne
  rcases Nat.lt_or_gt_of_ne hne with hlt | hlt
  · obtain ⟨hup, hle⟩ := next_of_lt hl hi.sorted hmem hb hlt
    rcases place_spec hp with ⟨-, hbp⟩ | ⟨hdown, -⟩ <;> omega
  · -- the block is not inside `b`
    have hout : b + h.size b ≤ p := by
      by_contra hin
      exact hi.tiling.notMem_inside hb' hlt (Nat.not_le.mp hin) (List.mem_append_left live hmem)
    rcases place_spec hp with ⟨hbp, -⟩ | ⟨hdown, hor⟩
    · omega
    · have hle := next_le_of_le hl hhead hi.sorted hmem hdown hb
      omega

/-- The heap with the block behind `b` melted into it. -/
def Heap.melted (h : Heap) (b : ℕ) : Heap :=
  (h.setSize b (h.size b + h.size (b + h.size b))).setNext b (h.next b)

theorem size_melted (b : ℕ) :
    (h.melted b).size = Function.update h.size b (h.size b + h.size (b + h.size b)) := by
  rw [Heap.melted, Heap.size_setNext, Heap.size_setSize]

theorem next_melted (b : ℕ) : (h.melted b).next = h.next := by
  rw [Heap.melted, Heap.next_setNext, Heap.next_setSize]
  exact Function.update_eq_self b h.next

/-- **A block behind a free block is melted into it**, and into nothing else. -/
theorem kfree_melts (hi : Tidy h ring live) (h0 : h.freeMemList ≠ 0) (hb : b ∈ ring)
    (hlive : b + h.size b ∈ live)
    (hapart : b + (h.size b + h.size (b + h.size b)) ≠ h.next b) :
    (∃ fuel, kfree fuel (b + h.size b + 1) h = some (h.melted b)) ∧
      Tidy (h.melted b) ring (live.erase (b + h.size b)) := by
  constructor
  · rw [← Nat.add_sub_cancel (b + h.size b) 1] at hlive
    obtain ⟨fuel, hfuel⟩ := exists_kfree hi h0 hlive
    obtain ⟨h', hf⟩ := Option.isSome_iff_exists.mp hfuel
    refine ⟨fuel, hf.trans ?_⟩
    obtain ⟨p, hplace, rfl⟩ := Option.map_eq_some_iff.mp hf
    rw [Nat.add_sub_cancel] at hplace ⊢
    obtain rfl := place_eq hi h0 hb hplace
    rw [joinLower, if_pos rfl, joinUpper, if_neg]
    · simp only [Heap.melted, Heap.next_setSize]
    · simpa using hapart
  · refine .of_lasso (hi.head h0) ((hi.closed h0).congr_next fun y _ => ?_) hi.sorted ?_
    · rw [next_melted]
    · have htile := meltLower_tiling hi.tiling hb hlive rfl
      rwa [Heap.size_setSize, ← size_melted] at htile

/-! ## Two blocks -/

section Two

variable (hi : Tidy h ring live) (hn : 0 < n) (hm : 0 < m) (hb : FitsTail h n b)
  (hc : FitsTail (takeTail h n b).2 m c) (hne : c ≠ b)

include hi hn hm hb hc hne

/-- The headers after the two requests. -/
theorem size_two_tails : let h₁ := (takeTail h n b).2
    let h₂ := (takeTail h₁ m c).2
    Tidy h₂ ring ((takeTail h₁ m c).1 :: (takeTail h n b).1 :: live) ∧
      b + h₂.size b = (takeTail h n b).1 ∧ h₂.size (takeTail h n b).1 = n ∧
      c + h₂.size c = (takeTail h₁ m c).1 ∧ h₂.size (takeTail h₁ m c).1 = m ∧
      h₂.size b + n = h.size b ∧ h₂.size c + m = h.size c ∧ h₁.size c = h.size c ∧
      ∀ f ∈ ring, f ≠ b → f ≠ c → h₂.size f = h.size f := by
  intro h₁ h₂
  have hi₁ := hb.tidy hi hn
  have hi₂ := hc.tidy hi₁ hm
  have hbmem := hb.mem hi
  have hcmem := hc.mem hi₁
  have hltb := hb.lt
  have hltc : m < h₁.size c := hc.lt
  have hsize₁ : h₁.size = Function.update (Function.update h.size b (h.size b - n))
      (takeTail h n b).1 n := by
    simp only [h₁, takeTail, Heap.size_setSize]
  have hsize₂ : h₂.size = Function.update (Function.update h₁.size c (h₁.size c - m))
      (takeTail h₁ m c).1 m := by
    simp only [h₂, takeTail, Heap.size_setSize]
  obtain ⟨-, hnodup, hdisj⟩ := List.nodup_append.mp hi₂.tiling.nodup
  have hqp : (takeTail h₁ m c).1 ≠ (takeTail h n b).1 := fun heq =>
    (List.nodup_cons.mp hnodup).1 (heq ▸ List.mem_cons_self)
  have hq : ∀ f ∈ ring, f ≠ (takeTail h₁ m c).1 := fun f hf => hdisj f hf _ List.mem_cons_self
  have hp : ∀ f ∈ ring, f ≠ (takeTail h n b).1 := fun f hf =>
    hdisj f hf _ (List.mem_cons_of_mem _ List.mem_cons_self)
  have hc₁ : h₁.size c = h.size c := by
    rw [hsize₁, Function.update_of_ne (hp c hcmem), Function.update_of_ne hne]
  have hb₂ : h₂.size b = h.size b - n := by
    rw [hsize₂, Function.update_of_ne (hq b hbmem), Function.update_of_ne hne.symm, hsize₁,
      Function.update_of_ne (hp b hbmem), Function.update_self]
  have hc₂ : h₂.size c = h₁.size c - m := by
    rw [hsize₂, Function.update_of_ne (hq c hcmem), Function.update_self]
  refine ⟨hi₂, ?_, ?_, ?_, ?_, ?_, ?_, hc₁, fun f hf hfb hfc => ?_⟩
  · rw [hb₂]
    rfl
  · rw [hsize₂, Function.update_of_ne hqp.symm, Function.update_of_ne (hp c hcmem).symm, hsize₁,
      Function.update_self]
  · rw [hc₂]
    rfl
  · rw [hsize₂, Function.update_self]
  · omega
  · omega
  · rw [hsize₂, Function.update_of_ne (hq f hf), Function.update_of_ne hfc, hsize₁,
      Function.update_of_ne (hp f hf), Function.update_of_ne hfb]

/-- **Two blocks given back**, of which the second was taken off another free block than the first:
the free memory is as it was, whatever has been written into the blocks. -/
theorem sameFree_of_tails {h₂ : Heap} (hh₂ : h₂ = (takeTail (takeTail h n b).2 m c).2)
    {mem : ℕ → Header} (hw : SameOutside h₂ { h₂ with mem := mem }
      [(takeTail (takeTail h n b).2 m c).1, (takeTail h n b).1]) :
    ∃ h₃ h₄, (∃ fuel, kfree fuel ((takeTail h n b).1 + 1) { h₂ with mem := mem } = some h₃) ∧
      (∃ fuel, kfree fuel ((takeTail (takeTail h n b).2 m c).1 + 1) h₃ = some h₄) ∧
        h.SameFree h₄ := by
  obtain ⟨hi₂, hbp, hp, hcq, hq, hsb, hsc, hsizec, hother⟩ := size_two_tails hi hn hm hb hc hne
  have hbmem := hb.mem hi
  have hcmem := hc.mem (hb.tidy hi hn)
  have h0 := hb.list
  have hapartb := hb.apart
  have hapartc := hc.apart
  have hnext₁ : (takeTail h n b).2.next = h.next := by simp only [takeTail, Heap.next_setSize]
  have hnext₂ : (takeTail (takeTail h n b).2 m c).2.next = h.next := by
    simp only [takeTail, Heap.next_setSize]
  have hlist : (takeTail (takeTail h n b).2 m c).2.freeMemList = h.freeMemList := rfl
  have hend : (takeTail (takeTail h n b).2 m c).2.heapEnd = h.heapEnd := rfl
  rw [hsizec, hnext₁] at hapartc
  rw [← hh₂] at hi₂ hbp hp hcq hq hsb hsc hother hnext₂ hlist hend
  generalize (takeTail (takeTail h n b).2 m c).1 = q at *
  generalize (takeTail h n b).1 = p at *
  -- what is written leaves the headers alone
  have hag : ∀ x ∈ ring ++ (q :: p :: live), mem x = h₂.mem x := fun x hx => by
    refine hw x fun a ha hin => ?_
    have ha' : a ∈ ring ++ (q :: p :: live) := by
      rcases List.mem_cons.mp ha with rfl | ha
      · simp
      · simp [List.mem_singleton.mp ha]
    exact hi₂.tiling.notMem_inside ha' hin.1 hin.2 hx
  have hi' : Tidy { h₂ with mem := mem } ring (q :: p :: live) := by
    refine write_tidy hi₂ fun x hx => hw x fun a ha => hx a ?_
    rcases List.mem_cons.mp ha with rfl | ha
    · exact List.mem_cons_self
    · simp [List.mem_singleton.mp ha]
  generalize hw' : ({ h₂ with mem := mem } : Heap) = h' at *
  have hmem' : h'.mem = mem := by rw [← hw']
  have hsize : ∀ x ∈ ring ++ (q :: p :: live), h'.size x = h₂.size x := fun x hx => by
    rw [Heap.size, hmem', hag x hx, Heap.size]
  have hnext : ∀ x ∈ ring, h'.next x = h.next x := fun x hx => by
    rw [← hnext₂, Heap.next, hmem', hag x (List.mem_append_left _ hx), Heap.next]
  have hlist' : h'.freeMemList = h.freeMemList := by rw [← hw', ← hlist]
  have hend' : h'.heapEnd = h.heapEnd := by rw [← hw', ← hend]
  have hsizeb := hsize b (List.mem_append_left _ hbmem)
  have hsizep : h'.size p = n := (hsize p (by simp)).trans hp
  have hsizeq : h'.size q = m := (hsize q (by simp)).trans hq
  have hbp' : b + h'.size b = p := by rw [hsizeb, hbp]
  have hqp : q ≠ p := fun heq => by
    have hnodup := (List.nodup_append.mp hi'.tiling.nodup).2.1
    exact (List.nodup_cons.mp hnodup).1 (heq ▸ List.mem_cons_self)
  have hqb : q ≠ b := fun heq =>
    List.disjoint_of_nodup_append hi'.tiling.nodup hbmem (heq ▸ List.mem_cons_self)
  obtain ⟨hf, hi₃⟩ := kfree_melts hi' (hlist' ▸ h0) hbmem (by rw [hbp']; simp) (by
    rw [hbp', hsizep, hsizeb, hsb, hnext b hbmem]
    exact hapartb)
  rw [hbp'] at hf hi₃
  have hsize₃ : (h'.melted b).size = Function.update h'.size b (h.size b) := by
    rw [size_melted, hbp', hsizep, hsizeb, hsb]
  have hsizec₃ : (h'.melted b).size c = h₂.size c := by
    rw [hsize₃, Function.update_of_ne hne, hsize c (List.mem_append_left _ hcmem)]
  have hcq₃ : c + (h'.melted b).size c = q := by rw [hsizec₃, hcq]
  have hsizeq₃ : (h'.melted b).size q = m := by
    rw [hsize₃, Function.update_of_ne hqb, hsizeq]
  obtain ⟨hf', -⟩ := kfree_melts hi₃ (hlist' ▸ h0) hcmem (by
    rw [hcq₃]
    exact (List.mem_erase_of_ne hqp).mpr List.mem_cons_self) (by
    rw [hcq₃, hsizeq₃, hsizec₃, hsc, next_melted, hnext c hcmem]
    exact hapartc)
  rw [hcq₃] at hf'
  refine ⟨_, _, hf, hf', hlist', hend', fun f hf => ?_⟩
  have hmem : f ∈ ring := by
    obtain ⟨-, k, rfl⟩ := hf
    exact (hi.closed h0).iterate_mem (List.mem_of_head? (hi.head h0)) k
  have hsizef : ((h'.melted b).melted c).size f = h.size f := by
    rw [size_melted, hcq₃, hsizeq₃, hsizec₃, hsc]
    by_cases hfc : f = c
    · rw [hfc, Function.update_self]
    rw [Function.update_of_ne hfc, hsize₃]
    by_cases hfb : f = b
    · rw [hfb, Function.update_self]
    rw [Function.update_of_ne hfb, hsize f (List.mem_append_left _ hmem), hother f hmem hfb hfc]
  have hnextf : ((h'.melted b).melted c).next f = h.next f := by
    rw [next_melted, next_melted, hnext f hmem]
  exact Header.ext hsizef hnextf

end Two

end SchemeOs.Malloc
