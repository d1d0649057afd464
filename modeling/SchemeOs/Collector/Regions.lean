import SchemeOs.Machinery.Ints
import SchemeOs.Machinery.Lasso
import SchemeOs.Machinery.Runs
import SchemeOs.Memory.Regions

/-!
# Collector/Regions — the regions of `scheme/gc.c`

A region is a page that begins with its header.  Freed regions are a ring through the links of their
headers; regions in use are one ring of generations through the same links.

`_alloc_region` takes the first region off the ring of free ones without moving `__free_regions` on,
unless it is the only one.
-/

namespace SchemeOs.Collector

open Memory

/-! ## The functions -/

/-- The variables of `gc.c`, the headers of the regions, and the end of the slots region.  An
address of 0 is `NULL`. -/
structure Heap where
  coordinator : ℕ
  natural : ℕ
  regions : ℕ
  freeRegions : ℕ
  prev : ℕ → ℕ
  next : ℕ → ℕ
  genNumb : ℕ → ℤ
  version : ℕ → ℤ
  size : ℕ → ℤ
  entryTable : ℕ → ℕ
  top : ℕ → ℕ
  limit : ℕ

/-- `expand_region(mm_slots)`, called at the end `limit` of the slots region, returns `p`: the page
there or `NULL`.  When it has no frame for the page the region has grown all the same. -/
inductive Expands (limit : ℕ) : ℕ → ℕ → Prop where
  | granted : Expands limit limit (limit + kPgSize)
  | refused : Expands limit 0 limit
  | noFrame : Expands limit 0 (limit + kPgSize)

/-- `_alloc_region`, where `expand_region` would return `p` and leave the slots region with the end
`limit`. -/
def allocRegion (p limit : ℕ) (h : Heap) : ℕ × Heap :=
  let reg := h.freeRegions
  if reg = 0 then (p, { h with limit := limit })
  else if h.next reg = reg then (reg, { h with freeRegions := 0 })
  else
    let next := Function.update h.next (h.prev reg) (h.next reg)
    (reg, { h with next := next, prev := Function.update h.prev (next reg) (h.prev reg) })

/-- `_free_region` -/
def freeRegion (reg : ℕ) (h : Heap) : Heap :=
  if h.freeRegions = 0 then
    { h with
      freeRegions := reg
      prev := Function.update h.prev reg reg
      next := Function.update h.next reg reg }
  else
    let prev := Function.update h.prev reg (h.prev h.freeRegions)
    { h with
      next := Function.update (Function.update h.next reg h.freeRegions) (prev reg) reg
      prev := Function.update prev h.freeRegions reg }

/-- `DEFAULT_REGION_SIZE` -/
def defaultRegionSize : ℕ := 1 * kPgSize

/-- `sizeof(Scheme_obj_t)` -/
def objSize : ℕ := 16

/-- `reg->slots`, behind a header of the size of two objects. -/
def slots (reg : ℕ) : ℕ := reg + 2 * objSize

/-- The header of a new region. -/
def Heap.initRegion (h : Heap) (reg t : ℕ) (newGen : ℤ) : Heap :=
  { h with
    genNumb := Function.update h.genNumb reg newGen
    version := Function.update h.version reg 0
    size := Function.update h.size reg (toShort defaultRegionSize)
    top := Function.update h.top reg (slots reg)
    entryTable := Function.update h.entryTable reg t
    coordinator := reg }

/-- The links of a new region that becomes the newest generation. -/
def Heap.linkRegion (h : Heap) (reg : ℕ) : Heap :=
  if h.coordinator = 0 then
    { h with
      natural := reg
      regions := reg
      next := Function.update h.next reg reg
      prev := Function.update h.prev reg reg }
  else
    let prev := Function.update h.prev reg h.coordinator
    let next := Function.update h.next h.coordinator reg
    { h with
      prev := Function.update prev h.regions reg
      next := Function.update next reg h.regions }

/-- The number of a new generation. -/
def Heap.newGen (h : Heap) : ℤ :=
  if h.coordinator = 0 then 0 else toShort (h.genNumb h.coordinator + 1)

/-- `_new_generation`, where `malloc` returns `t` for the entry table. -/
def newGeneration (t p limit : ℕ) (h : Heap) : ℕ × Heap :=
  if t = 0 then (0, h)
  else
    let r := allocRegion p limit h
    if r.1 = 0 then (0, r.2)
    else (r.1, (r.2.linkRegion r.1).initRegion r.1 t r.2.newGen)

/-- `scheme_init_gc` -/
def schemeInitGc (t p limit : ℕ) (h : Heap) : Heap :=
  (newGeneration t p limit
    { h with regions := 0, natural := 0, coordinator := 0, freeRegions := 0 }).2

/-- `REGION_FULL_P` -/
def regionFullP (h : Heap) (reg : ℕ) : Prop := (h.top reg : ℤ) - reg = defaultRegionSize

instance (h : Heap) (reg : ℕ) : Decidable (regionFullP h reg) := inferInstanceAs (Decidable (_ = _))

/-- `gc_alloc_obj` -/
def gcAllocObj (t p limit : ℕ) (h : Heap) : ℕ × Heap :=
  let h := if regionFullP h h.coordinator then (newGeneration t p limit h).2 else h
  (h.top h.coordinator, { h with
    top := Function.update h.top h.coordinator (h.top h.coordinator + objSize) })

/-! ## The pages of the regions

The promise about `expand_region` is what the model of `mm/memory.c` does. -/

theorem Expands.le {p limit limit' : ℕ} (h : Expands limit p limit') : limit ≤ limit' := by
  cases h <;> omega

/-- A page that is returned is the one at the end. -/
theorem Expands.eq_limit {p limit limit' : ℕ} (h : Expands limit p limit') (hp : p ≠ 0) :
    p = limit ∧ limit' = limit + kPgSize := by
  cases h with
  | granted => exact ⟨rfl, rfl⟩
  | refused => exact absurd rfl hp
  | noFrame => exact absurd rfl hp

/-- The end of a region of the kernel. -/
def endOf (table : Table) (region : ℕ) : ℕ := (table region).start + (table region).size

/-- `put_page` returns `NULL` or the page, and does not write the region table. -/
theorem putPage_table {high ptr page q : ℕ} {m m' : Mem}
    (h : putPage high ptr page m = some (q, m')) :
    m'.table = m.table ∧ (q = 0 ∨ q = ptr) := by
  rw [putPage] at h
  split_ifs at h
  · obtain ⟨rfl, rfl⟩ := Prod.mk.inj (Option.some.inj h)
    exact ⟨rfl, .inl rfl⟩
  all_goals
    obtain ⟨rfl, rfl⟩ := Prod.mk.inj (Option.some.inj h)
    exact ⟨rfl, .inr rfl⟩

/-- **`expand_region(mm_slots)`** in the model of the memory management. -/
theorem expands_of_expandRegion {high p : ℕ} {m m' : Mem}
    (hflag : (m.table mmSlots).flag = mmrExpandUp)
    (hle : endOf m.table mmSlots + kPgSize < 2 ^ 32)
    (h : expandRegion high mmSlots m = some (p, m')) :
    Expands (endOf m.table mmSlots) p (endOf m'.table mmSlots) := by
  have hend : ((m.table mmSlots).start + (m.table mmSlots).size) % 2 ^ 32 = endOf m.table mmSlots :=
    Nat.mod_eq_of_lt (by unfold endOf at hle; omega)
  have hsize : ((m.table mmSlots).size + kPgSize) % 2 ^ 32 = (m.table mmSlots).size + kPgSize :=
    Nat.mod_eq_of_lt (by unfold endOf at hle; omega)
  rw [expandRegion, if_neg (Nat.lt_irrefl _), growTable, if_pos hflag, hend, hsize] at h
  split_ifs at h with hbound
  · obtain ⟨rfl, rfl⟩ := Prod.mk.inj (Option.some.inj h)
    exact .refused
  · dsimp only at h
    obtain ⟨⟨q, t⟩, hput, hrest⟩ := Option.bind_eq_some_iff.mp h
    obtain ⟨htable, hq⟩ := putPage_table hput
    have hgrown : endOf t.table mmSlots = endOf m.table mmSlots + kPgSize := by
      rw [endOf, endOf, htable]
      simp only [Function.update_self, Nat.add_assoc]
    dsimp only at hrest
    split_ifs at hrest with hzero
    · obtain ⟨b, -, heq⟩ := Option.map_eq_some_iff.mp hrest
      obtain ⟨rfl, rfl⟩ := Prod.mk.inj heq
      change Expands _ 0 (endOf t.table mmSlots)
      rw [hgrown]
      exact .noFrame
    · obtain ⟨rfl, rfl⟩ := Prod.mk.inj (Option.some.inj hrest)
      rw [hgrown]
      exact .granted

end SchemeOs.Collector
