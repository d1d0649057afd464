import SchemeOs.Collector.Generations

/-!
# Collector/Barrier — the write barrier of `scheme/gc.h`

A pair that is to hold an object of a newer generation gets an entry of the newer region's table
instead, from which a collection could tell where it is referred to.  `scheme_set_car` and
`scheme_set_cdr` put the entry into the pair, and then the object in its place: a statement that
belongs to the other case follows.  The tables are as `malloc` returns them, so which of their
entries are taken for free is up to what was in the memory before.
-/

namespace SchemeOs.Collector.Barrier

open Memory Generations

/-! ## The functions

A reference into a younger generation is to go through an entry of a table. -/

inductive Field where
  | car
  | cdr
  deriving DecidableEq, Repr

/-- What a field holds: a pointer to an object, or to the entry `i` of the table `t`. -/
inductive Ptr where
  | obj (a : ℕ)
  | entry (t i : ℕ)
  deriving DecidableEq, Repr

/-- `Scheme_type`, as far as `scheme_ref_obj` tells types apart. -/
inductive SchemeType where
  | forward
  | entry
  | other
  deriving DecidableEq, Repr

/-- `struct Entry` -/
structure Entry where
  type : SchemeType
  genNumb : ℤ
  ptr : ℕ
  deriving DecidableEq, Repr

/-- The regions, the entry tables, and the objects with the fields of the pairs. -/
structure Store where
  heap : Heap
  table : ℕ → ℕ → Entry
  field : ℕ × Field → Ptr
  type : ℕ → SchemeType
  forward : ℕ → ℕ

/-- `_ENTRY_TABLE_SIZE` -/
def entryTableSize : ℕ := 128

/-- The first entry that `_add_entry` takes for free. -/
def findFree (t : ℕ → Entry) : Option ℕ :=
  (List.range entryTableSize).find? fun i => (t i).genNumb = -1

/-- `_add_entry`, with the index of the entry that it returns. -/
def addEntry (t reg obj : ℕ) (s : Store) : Option ℕ × Store :=
  match findFree (s.table t) with
  | some i => (some i, { s with
      table := Function.update s.table t
        (Function.update (s.table t) i ⟨.entry, s.heap.genNumb reg, obj⟩) })
  | none => (none, s)

/-- `_belong_which_gen` -/
def belongWhichGen (obj : ℕ) : ℕ := obj - obj % 0x1000

/-- `SCHEME_TYPE` -/
def Store.typeOf (s : Store) : Ptr → SchemeType
  | .obj a => s.type a
  | .entry t i => (s.table t i).type

/-- The word behind type and key: `SCHEME_FORWARD` of an object, `ENTRY_PTR` of an entry. -/
def Store.ptrOf (s : Store) : Ptr → ℕ
  | .obj a => s.forward a
  | .entry t i => (s.table t i).ptr

def Store.setPtr (s : Store) (v : ℕ) : Ptr → Store
  | .obj a => { s with forward := Function.update s.forward a v }
  | .entry t i => { s with
      table := Function.update s.table t
        (Function.update (s.table t) i { s.table t i with ptr := v }) }

def Store.setField (s : Store) (c : ℕ × Field) (v : Ptr) : Store :=
  { s with field := Function.update s.field c v }

/-- `scheme_ref_obj`, of the field `c`. -/
def schemeRefObj (c : ℕ × Field) (s : Store) : Ptr × Store :=
  match s.typeOf (s.field c) with
  | .forward => (.obj (s.ptrOf (s.field c)), s.setField c (.obj (s.ptrOf (s.field c))))
  | .entry =>
    let p := s.field c
    let s := if s.type (s.ptrOf p) = .forward then s.setPtr (s.forward (s.ptrOf p)) p else s
    (.obj (s.ptrOf p), s)
  | .other => (s.field c, s)

/-- `scheme_set_car` and `scheme_set_cdr`, in which the field differs; `none` is `scheme_void`. -/
def schemeSet (f : Field) (pair obj : ℕ) (s : Store) : Option ℕ × Store :=
  let p := belongWhichGen pair
  let q := belongWhichGen obj
  if s.heap.genNumb p < s.heap.genNumb q then
    match addEntry (s.heap.entryTable q) p obj s with
    | (none, s) => (none, s)
    | (some i, s) =>
      let s := s.setField (pair, f) (.entry (s.heap.entryTable q) i)
      (some obj, s.setField (pair, f) (.obj obj))
  else (some obj, s.setField (pair, f) (.obj obj))

/-- `scheme_car` -/
def schemeCar (pair : ℕ) : Store → Ptr × Store := schemeRefObj (pair, .car)

/-- `scheme_cdr` -/
def schemeCdr (pair : ℕ) : Store → Ptr × Store := schemeRefObj (pair, .cdr)

/-- `scheme_set_car` -/
def schemeSetCar : ℕ → ℕ → Store → Option ℕ × Store := schemeSet .car

/-- `scheme_set_cdr` -/
def schemeSetCdr : ℕ → ℕ → Store → Option ℕ × Store := schemeSet .cdr

def Field.get (pair : ℕ) : Field → Store → Ptr × Store
  | .car => schemeCar pair
  | .cdr => schemeCdr pair

def Field.set (pair obj : ℕ) : Field → Store → Option ℕ × Store
  | .car => schemeSetCar pair obj
  | .cdr => schemeSetCdr pair obj

/-! ## The system -/

/-- The store, the regions of the generations from the oldest to the newest, how many entries have
been added to the table of a region, and the objects stored last. -/
structure System where
  store : Store
  made : List ℕ
  used : ℕ → ℕ
  last : ℕ × Field → Option ℕ

/-- A call of `_new_generation`, in which `malloc` returns `t` and `expand_region` would return `p`,
or of `scheme_set_car` or `scheme_set_cdr`. -/
inductive Event where
  | newGeneration (t p : ℕ)
  | set (f : Field) (pair obj : ℕ)

/-- `x` lies in a region, behind the header. -/
def LiesIn (made : List ℕ) (x : ℕ) : Prop :=
  ∃ r ∈ made, slots r ≤ x ∧ x + objSize ≤ r + defaultRegionSize

/-- `p` was made before `q`. -/
def Older (made : List ℕ) (p q : ℕ) : Prop := [p, q].Sublist made

instance (made : List ℕ) (p q : ℕ) : Decidable (Older made p q) :=
  inferInstanceAs (Decidable (List.Sublist _ _))

/-- The set function finds no free entry in the table of the newer region. -/
def Store.Refuses (s : Store) (pair obj : ℕ) : Prop :=
  s.heap.genNumb (belongWhichGen pair) < s.heap.genNumb (belongWhichGen obj) ∧
    findFree (s.table (s.heap.entryTable (belongWhichGen obj))) = none

instance (s : Store) (pair obj : ℕ) : Decidable (s.Refuses pair obj) :=
  inferInstanceAs (Decidable (_ ∧ _))

/-- After a set function; that it refuses is right when the table is full. -/
def System.afterSet (s : System) (f : Field) (pair obj : ℕ) : System where
  store := (f.set pair obj s.store).2
  made := s.made
  used :=
    if s.store.heap.genNumb (belongWhichGen pair) < s.store.heap.genNumb (belongWhichGen obj) ∧
        (f.set pair obj s.store).1.isSome then
      Function.update s.used (belongWhichGen obj) (s.used (belongWhichGen obj) + 1)
    else s.used
  last :=
    if (f.set pair obj s.store).1 = none ∧ entryTableSize ≤ s.used (belongWhichGen obj) then s.last
    else Function.update s.last (pair, f) (some obj)

/-- After `_new_generation`, with a table that holds `contents`. -/
def System.afterNewGeneration (s : System) (t p limit : ℕ) (contents : ℕ → Entry) : System where
  store := { s.store with
    heap := (Collector.newGeneration t p limit s.store.heap).2
    table := Function.update s.store.table t contents }
  made := addRegion s.made (Collector.newGeneration t p limit s.store.heap).1
  used := Function.update s.used (Collector.newGeneration t p limit s.store.heap).1 0
  last := s.last

/-- The table of a new generation is not one that is in use. -/
inductive Step : System → Event → System → Prop where
  | newGeneration {s : System} {t p limit : ℕ} (contents : ℕ → Entry) :
      Expands s.store.heap.limit p limit → (∀ r ∈ s.made, s.store.heap.entryTable r ≠ t) →
      Step s (.newGeneration t p) (s.afterNewGeneration t p limit contents)
  | set {s : System} {f : Field} {pair obj : ℕ} : LiesIn s.made pair → LiesIn s.made obj →
      Step s (.set f pair obj) (s.afterSet f pair obj)

/-- Before the first generation: nothing has been moved, and no field holds an entry. -/
def System.init (h : Heap) (table : ℕ → ℕ → Entry) (field : ℕ × Field → ℕ)
    (forward : ℕ → ℕ) : System :=
  ⟨⟨clearedHeap h, table, fun c => .obj (field c), fun _ => .other, forward⟩, [], fun _ => 0,
    fun _ => none⟩

/-- An entry of the newer region's table has the older generation and the object. -/
def Store.Recorded (s : Store) (pair : ℕ) (f : Field) (obj : ℕ) : Prop :=
  ∃ i < entryTableSize,
    s.field (pair, f) = .entry (s.heap.entryTable (belongWhichGen obj)) i ∧
    (s.table (s.heap.entryTable (belongWhichGen obj)) i).genNumb =
      s.heap.genNumb (belongWhichGen pair) ∧
    (s.table (s.heap.entryTable (belongWhichGen obj)) i).ptr = obj

/-- Objects that are stored are found again, and those of a newer generation are in an entry. -/
structure System.Sound (s : System) : Prop where
  found : ∀ pair (f : Field) obj, s.last (pair, f) = some obj →
    (f.get pair s.store).1 = .obj obj
  recorded : ∀ pair f obj, s.last (pair, f) = some obj →
    Older s.made (belongWhichGen pair) (belongWhichGen obj) → s.store.Recorded pair f obj

/-- Whether a call does no harm: no object of a newer generation is stored, and no call refused but
where the field holds the object already or the table is full. -/
def Event.Harmless (s : System) : Event → Prop
  | .newGeneration _ _ => True
  | .set f pair obj =>
    if s.store.Refuses pair obj then
      entryTableSize ≤ s.used (belongWhichGen obj) ∨
        s.store.field (pair, f) = .obj obj ∧
          ¬Older s.made (belongWhichGen pair) (belongWhichGen obj)
    else ¬Older s.made (belongWhichGen pair) (belongWhichGen obj)

/-- The invariant: where the regions are, and that all pointers are direct. -/
structure System.Placed (s : System) : Prop where
  limit_page : kPgSize ∣ s.store.heap.limit
  bounds : ∀ r ∈ s.made, r < s.store.heap.limit ∧ kPgSize ∣ r
  free_eq : s.store.heap.freeRegions = 0
  direct : ∀ c, ∃ a, s.store.field c = .obj a
  other : ∀ a, s.store.type a = .other
  lies : ∀ pair f obj, s.last (pair, f) = some obj →
    belongWhichGen pair ∈ s.made ∧ belongWhichGen obj ∈ s.made

variable {s s' : System} {e : Event} {h : Heap} {st : Store} {f : Field} {made : List ℕ}
  {pair obj p q r t x limit : ℕ}

/-! ## Regions -/

/-- The region of what lies in it. -/
theorem belongWhichGen_eq (hr : kPgSize ∣ r) (hlow : slots r ≤ x)
    (hhigh : x + objSize ≤ r + defaultRegionSize) : belongWhichGen x = r := by
  unfold belongWhichGen
  unfold slots objSize at *
  unfold defaultRegionSize kPgSize at *
  omega

theorem System.Placed.belongWhichGen_mem (hpl : s.Placed) (hx : LiesIn s.made x) :
    belongWhichGen x ∈ s.made := by
  obtain ⟨r, hr, hlow, hhigh⟩ := hx
  rwa [belongWhichGen_eq (hpl.bounds r hr).2 hlow hhigh]

/-- A new region is the newest. -/
theorem older_concat (hp : p ∈ made) (hq : q ∈ made) (hr : r ∉ made) :
    Older (made ++ [r]) p q ↔ Older made p q := by
  constructor
  · intro h
    obtain ⟨l, l', heq, hl, hl'⟩ := List.sublist_append_iff.mp h
    have hnil : l' = [] := by
      refine List.eq_nil_iff_forall_not_mem.mpr fun x hx => hr ?_
      have hxr : x = r := List.mem_singleton.mp (hl'.subset hx)
      have hxl : x ∈ [p, q] := heq ▸ List.mem_append_right l hx
      rw [← hxr]
      rcases List.mem_cons.mp hxl with rfl | hxl
      · exact hp
      · rwa [List.mem_singleton.mp hxl]
    rw [hnil, List.append_nil] at heq
    rwa [Older, heq]
  · exact fun h => h.trans (List.sublist_append_left _ _)

/-! ## The set functions -/

theorem Field.set_eq : f.set pair obj st = schemeSet f pair obj st := by cases f <;> rfl

theorem Field.get_eq : f.get pair st = schemeRefObj (pair, f) st := by cases f <;> rfl

theorem addEntry_none (h : findFree (st.table t) = none) (reg obj : ℕ) :
    addEntry t reg obj st = (none, st) := by
  rw [addEntry, h]

/-- A set function that finds no entry leaves everything as it was. -/
theorem set_refused (h : st.Refuses pair obj) : f.set pair obj st = (none, st) := by
  rw [Field.set_eq, schemeSet, if_pos h.1, addEntry_none h.2]

/-- **A set function stores the object itself.** -/
theorem set_stored (h : ¬st.Refuses pair obj) : (f.set pair obj st).1 = some obj ∧
    (f.set pair obj st).2.field = Function.update st.field (pair, f) (.obj obj) ∧
    (f.set pair obj st).2.heap = st.heap ∧ (f.set pair obj st).2.type = st.type := by
  rw [Field.set_eq, schemeSet]
  dsimp only
  split_ifs with hlt
  · obtain ⟨i, hi⟩ : ∃ i, findFree (st.table (st.heap.entryTable (belongWhichGen obj))) = some i :=
      Option.ne_none_iff_exists'.mp fun hnone => h ⟨hlt, hnone⟩
    rw [addEntry, hi]
    exact ⟨rfl, Function.update_idem .., rfl, rfl⟩
  · exact ⟨rfl, rfl, rfl, rfl⟩

/-- With direct pointers to objects that have not been moved. -/
theorem System.Placed.get_eq (hpl : s.Placed) :
    (f.get pair s.store).1 = s.store.field (pair, f) := by
  obtain ⟨a, ha⟩ := hpl.direct (pair, f)
  have htype : s.store.typeOf (s.store.field (pair, f)) = .other := by
    rw [ha]
    exact hpl.other a
  rw [Field.get_eq, schemeRefObj, htype]

/-- Where no field holds an entry, no object of a newer generation may be stored. -/
theorem System.Placed.direct_iff (hpl : s.Placed) : s.Sound ↔
    ∀ pair f obj, s.last (pair, f) = some obj → s.store.field (pair, f) = .obj obj ∧
      ¬Older s.made (belongWhichGen pair) (belongWhichGen obj) := by
  constructor
  · intro hs pair f obj hlast
    have hfield : s.store.field (pair, f) = .obj obj := hpl.get_eq.symm.trans (hs.found _ _ _ hlast)
    refine ⟨hfield, fun hold => ?_⟩
    obtain ⟨i, -, hentry, -⟩ := hs.recorded _ _ _ hlast hold
    cases hfield.symm.trans hentry
  · intro h
    exact ⟨fun pair f obj hlast => hpl.get_eq.trans (h _ _ _ hlast).1,
      fun pair f obj hlast hold => absurd hold (h _ _ _ hlast).2⟩

/-! ## One call

An entry is made where the comparison of the generations asks for it, and nowhere else. -/

/-- The regions after `_new_generation`. -/
theorem newGeneration_cases (hfree : h.freeRegions = 0) (he : Expands h.limit p limit) :
    ∃ l, (Collector.newGeneration t p limit h).2.limit = l ∧
      (Collector.newGeneration t p limit h).2.freeRegions = 0 ∧
      ((Collector.newGeneration t p limit h).1 = 0 ∧ (l = h.limit ∨ l = h.limit + kPgSize) ∨
        (Collector.newGeneration t p limit h).1 = h.limit ∧ h.limit ≠ 0 ∧
          l = h.limit + kPgSize) := by
  by_cases hgrant : t ≠ 0 ∧ p ≠ 0
  · obtain ⟨ht, hp⟩ := hgrant
    obtain ⟨rfl, rfl⟩ := he.eq_limit hp
    rw [newGeneration_some hfree ht hp]
    refine ⟨h.limit + kPgSize, ?_, ?_, .inr ⟨rfl, hp, rfl⟩⟩
    · simp only [Heap.initRegion, linkRegion_limit]
    · simp only [Heap.initRegion, linkRegion_freeRegions]
      exact hfree
  · rw [not_and_or, not_ne_iff, not_ne_iff] at hgrant
    obtain ⟨l, heq, hl⟩ := newGeneration_none limit hfree hgrant
    rw [heq]
    refine ⟨l, rfl, hfree, .inl ⟨rfl, ?_⟩⟩
    rcases hl with rfl | rfl
    · exact .inl rfl
    · cases he with
      | granted => exact .inr rfl
      | refused => exact .inl rfl
      | noFrame => exact .inr rfl

/-- The regions made, and whether one of them is older, after `_new_generation`. -/
theorem addRegion_spec (hpl : s.Placed) (he : Expands s.store.heap.limit p limit) :
    let r := (Collector.newGeneration t p limit s.store.heap).1
    (∀ x ∈ addRegion s.made r,
      x < (Collector.newGeneration t p limit s.store.heap).2.limit ∧ kPgSize ∣ x) ∧
    kPgSize ∣ (Collector.newGeneration t p limit s.store.heap).2.limit ∧
    s.made ⊆ addRegion s.made r ∧
    ∀ x ∈ s.made, ∀ y ∈ s.made, (Older (addRegion s.made r) x y ↔ Older s.made x y) := by
  intro r
  obtain ⟨l, hlimit, -, hcases⟩ := newGeneration_cases (t := t) hpl.free_eq he
  have hpage : kPgSize ∣ s.store.heap.limit + kPgSize := Nat.dvd_add hpl.limit_page (Nat.dvd_refl _)
  rw [hlimit]
  rcases hcases with ⟨hzero, hl⟩ | ⟨hreg, hne, rfl⟩
  · have hsame : addRegion s.made r = s.made := if_pos hzero
    have hle : s.store.heap.limit ≤ l := by
      rcases hl with rfl | rfl
      · exact Nat.le_refl _
      · exact Nat.le_add_right _ _
    rw [hsame]
    refine ⟨fun x hx => ⟨(hpl.bounds x hx).1.trans_le hle, (hpl.bounds x hx).2⟩, ?_,
      List.Subset.refl _, fun _ _ _ _ => Iff.rfl⟩
    rcases hl with rfl | rfl
    · exact hpl.limit_page
    · exact hpage
  · have hadd : addRegion s.made r = s.made ++ [s.store.heap.limit] := by
      change addRegion s.made (Collector.newGeneration t p limit s.store.heap).1 = _
      rw [hreg]
      exact if_neg hne
    have hnot : s.store.heap.limit ∉ s.made := fun hmem =>
      Nat.lt_irrefl _ (hpl.bounds _ hmem).1
    rw [hadd]
    refine ⟨fun x hx => ?_, hpage, List.subset_append_left _ _,
      fun x hx y hy => older_concat hx hy hnot⟩
    rcases List.mem_append.mp hx with hx | hx
    · exact ⟨(hpl.bounds x hx).1.trans_le (Nat.le_add_right _ _), (hpl.bounds x hx).2⟩
    · rw [List.mem_singleton.mp hx]
      exact ⟨Nat.lt_add_of_pos_right (by decide), hpl.limit_page⟩

/-- The fields after a set function. -/
theorem afterSet_field (s : System) (f : Field) (pair obj : ℕ) : ∃ v,
    (s.afterSet f pair obj).store.field = Function.update s.store.field (pair, f) v ∧
    (s.store.Refuses pair obj → v = s.store.field (pair, f)) ∧
    (¬s.store.Refuses pair obj → v = .obj obj) := by
  by_cases hr : s.store.Refuses pair obj
  · refine ⟨s.store.field (pair, f), ?_, fun _ => rfl, fun h => absurd hr h⟩
    rw [System.afterSet, set_refused hr, Function.update_eq_self]
  · exact ⟨.obj obj, (set_stored hr).2.1, fun h => absurd h hr, fun _ => rfl⟩

theorem afterSet_rest (s : System) (f : Field) (pair obj : ℕ) :
    (s.afterSet f pair obj).store.heap = s.store.heap ∧
    (s.afterSet f pair obj).store.type = s.store.type := by
  by_cases hr : s.store.Refuses pair obj
  · rw [System.afterSet, set_refused hr]
    exact ⟨rfl, rfl⟩
  · exact ⟨(set_stored hr).2.2.1, (set_stored hr).2.2.2⟩

/-- What has been stored last, after a set function. -/
theorem afterSet_last (s : System) (f : Field) (pair obj : ℕ) : (s.afterSet f pair obj).last =
    if s.store.Refuses pair obj ∧ entryTableSize ≤ s.used (belongWhichGen obj) then s.last
    else Function.update s.last (pair, f) (some obj) := by
  have hiff : (f.set pair obj s.store).1 = none ↔ s.store.Refuses pair obj := by
    by_cases hr : s.store.Refuses pair obj
    · rw [set_refused hr]
      exact iff_of_true rfl hr
    · rw [(set_stored hr).1]
      exact iff_of_false nofun hr
  rw [System.afterSet]
  simp only [hiff]

/-- Every call leaves direct pointers. -/
theorem placed_step (hpl : s.Placed) (hst : Step s e s') : s'.Placed := by
  cases hst with
  | @newGeneration t p limit contents he _ =>
    obtain ⟨l, -, hfree, -⟩ := newGeneration_cases (t := t) hpl.free_eq he
    obtain ⟨hbounds, hpage, hsub, -⟩ := addRegion_spec (t := t) hpl he
    exact ⟨hpage, hbounds, hfree, hpl.direct, hpl.other,
      fun pair f obj hlast => (hpl.lies pair f obj hlast).imp (hsub ·) (hsub ·)⟩
  | @set f pair obj hpair hobj =>
    obtain ⟨hheap, htype⟩ := afterSet_rest s f pair obj
    obtain ⟨v, hfield, hrefused, hstored⟩ := afterSet_field s f pair obj
    refine ⟨?_, ?_, ?_, fun c => ?_, fun a => ?_, fun pair' f' obj' hlast => ?_⟩
    · rw [hheap]
      exact hpl.limit_page
    · rw [hheap]
      exact hpl.bounds
    · rw [hheap]
      exact hpl.free_eq
    · rw [hfield]
      by_cases hc : c = (pair, f)
      · rw [hc, Function.update_self]
        by_cases hr : s.store.Refuses pair obj
        · rw [hrefused hr]
          exact hpl.direct _
        · exact ⟨obj, hstored hr⟩
      · rw [Function.update_of_ne hc]
        exact hpl.direct c
    · rw [htype]
      exact hpl.other a
    · have hmem : belongWhichGen pair ∈ s.made ∧ belongWhichGen obj ∈ s.made :=
        ⟨hpl.belongWhichGen_mem hpair, hpl.belongWhichGen_mem hobj⟩
      rw [afterSet_last] at hlast
      split_ifs at hlast
      · exact hpl.lies _ _ _ hlast
      · by_cases hc : (pair', f') = (pair, f)
        · rw [hc, Function.update_self] at hlast
          obtain rfl := Option.some.inj hlast
          obtain ⟨rfl, -⟩ := Prod.mk.inj hc
          exact hmem
        · rw [Function.update_of_ne hc] at hlast
          exact hpl.lies _ _ _ hlast

/-- A field that holds the object stored last, after one has been stored. -/
theorem sound_update (hs : s.Sound) (hpl : s.Placed) (hpl' : s'.Placed) {v : Ptr}
    (hfield : s'.store.field = Function.update s.store.field (pair, f) v)
    (hlast : s'.last = Function.update s.last (pair, f) (some obj)) (hmade : s'.made = s.made) :
    s'.Sound ↔ v = .obj obj ∧ ¬Older s.made (belongWhichGen pair) (belongWhichGen obj) := by
  rw [hpl'.direct_iff, hfield, hlast, hmade]
  constructor
  · intro h
    have := h pair f obj (Function.update_self ..)
    rwa [Function.update_self] at this
  · intro h pair' f' obj' hobj'
    by_cases hc : (pair', f') = (pair, f)
    · rw [hc, Function.update_self] at hobj'
      obtain rfl := Option.some.inj hobj'
      obtain ⟨rfl, rfl⟩ := Prod.mk.inj hc
      rwa [Function.update_self]
    · rw [Function.update_of_ne hc] at hobj'
      rw [Function.update_of_ne hc]
      exact hpl.direct_iff.mp hs _ _ _ hobj'

/-- **One call** does what it should just when it does no harm. -/
theorem harmless_iff (hs : s.Sound) (hpl : s.Placed) (hst : Step s e s') :
    e.Harmless s ↔ s'.Sound := by
  have hpl' := placed_step hpl hst
  cases hst with
  | @newGeneration t p limit contents he _ =>
    refine iff_of_true trivial (hpl'.direct_iff.mpr fun pair f obj hlast => ?_)
    obtain ⟨hfield, hnot⟩ := hpl.direct_iff.mp hs pair f obj hlast
    obtain ⟨hpair, hobj⟩ := hpl.lies pair f obj hlast
    have hsame := (addRegion_spec (t := t) hpl he).2.2.2 _ hpair _ hobj
    exact ⟨hfield, fun hold => hnot (hsame.mp hold)⟩
  | @set f pair obj hpair hobj =>
    obtain ⟨v, hfield, hrefused, hstored⟩ := afterSet_field s f pair obj
    have hlast := afterSet_last s f pair obj
    change (if _ then _ else _) ↔ _
    split_ifs with hr
    · by_cases hfull : entryTableSize ≤ s.used (belongWhichGen obj)
      · rw [if_pos ⟨hr, hfull⟩] at hlast
        rw [hrefused hr, Function.update_eq_self] at hfield
        refine iff_of_true (.inl hfull) (hpl'.direct_iff.mpr ?_)
        rw [hfield, hlast]
        exact hpl.direct_iff.mp hs
      · rw [if_neg fun h => hfull h.2] at hlast
        rw [sound_update hs hpl hpl' hfield hlast rfl, hrefused hr]
        exact or_iff_right hfull
    · rw [if_neg fun h => hr h.1] at hlast
      rw [sound_update hs hpl hpl' hfield hlast rfl, hstored hr]
      exact (and_iff_right rfl).symm

/-! ## Runs -/

theorem init_placed (h : Heap) (table : ℕ → ℕ → Entry) (field : ℕ × Field → ℕ) (forward : ℕ → ℕ) :
    (System.init h table field forward).Placed :=
  ⟨(by decide : kPgSize ∣ kSlotsStart + kPgSize), nofun, rfl, fun c => ⟨field c, rfl⟩, fun _ => rfl,
    nofun⟩

theorem init_sound (h : Heap) (table : ℕ → ℕ → Entry) (field : ℕ × Field → ℕ) (forward : ℕ → ℕ) :
    (System.init h table field forward).Sound :=
  ⟨nofun, nofun⟩

/-- **The write barrier**: it holds in just those runs in which every call does no harm. -/
theorem barrier_of_harmless_run {table : ℕ → ℕ → Entry} {field : ℕ × Field → ℕ} {forward : ℕ → ℕ}
    {events : List Event} :
    Runs (Guarded (fun s e => e.Harmless s) Step) (.init h table field forward) events s ↔
      Runs (fun s e (s' : System) => Step s e s' ∧ s'.Sound) (.init h table field forward)
        events s := by
  refine Runs.guard_exact (I := fun s : System => s.Sound ∧ s.Placed) ?_ ?_
    ⟨init_sound h table field forward, init_placed h table field forward⟩
  · intro s e s' hI hst
    exact harmless_iff hI.1 hI.2 hst
  · intro s e s' hI hst hs'
    exact ⟨hs', placed_step hI.2 hst⟩

/-- Tables in which all entries are free. -/
def freeTable (_ : ℕ) : Entry := ⟨.other, -1, 0⟩

/-- Two generations. -/
def twoGenerations : System :=
  ((System.init emptyHeap (fun _ => freeTable) (fun _ => 0) (fun _ => 0)).afterNewGeneration 8
    0x40001000 0x40002000 freeTable).afterNewGeneration 16 0x40002000 0x40003000 freeTable

theorem runs_twoGenerations : Runs Step
    (.init emptyHeap (fun _ => freeTable) (fun _ => 0) (fun _ => 0))
    [.newGeneration 8 0x40001000, .newGeneration 16 0x40002000] twoGenerations :=
  .cons (.newGeneration freeTable .granted nofun)
    (.single (.newGeneration freeTable .granted (by decide)))

/-- An object of the second generation is stored in a pair of the first. -/
theorem not_barrier_of_run : ¬∀ (h : Heap) (table : ℕ → ℕ → Entry) (field : ℕ × Field → ℕ)
    (forward : ℕ → ℕ) (events : List Event) (s : System),
    Runs Step (.init h table field forward) events s → s.Sound := by
  intro hall
  have hpl : twoGenerations.Placed := Runs.invariant
    (fun s e s' (hpl : s.Placed) (hst : Step s e s') => placed_step hpl hst) runs_twoGenerations
    (init_placed _ _ _ _)
  have hst : Step twoGenerations (.set .car 0x40001020 0x40002020)
      (twoGenerations.afterSet .car 0x40001020 0x40002020) :=
    .set ⟨0x40001000, by decide, by decide, by decide⟩ ⟨0x40002000, by decide, by decide, by decide⟩
  have hharmless := (harmless_iff (hall _ _ _ _ _ _ runs_twoGenerations) hpl hst).mpr
    (hall _ _ _ _ _ _ (runs_twoGenerations.append (.single hst)))
  have hstored : ¬twoGenerations.store.Refuses 0x40001020 0x40002020 := by decide
  rw [Event.Harmless, if_neg hstored] at hharmless
  exact hharmless (by decide)

end SchemeOs.Collector.Barrier
