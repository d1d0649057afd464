import SchemeOs.Allocator.MallocRestored
import SchemeOs.Strings.Requests

/-!
# Strings/Releases — what `string` leaves of the heap when it fails

`string` asks for an object and for a block, and releases both when an argument is no character.
With the allocator of `lib/malloc.c` that leaves the free memory as it was only if the pointers are
those that `kmalloc` has returned, and if each of the two blocks melts into the free block that it
was taken from.
-/

namespace SchemeOs.Strings

open Malloc (Tidy FitsTail SameOutside kmalloc kfree takeTail nunitsOf headerSize kHeapStart)

variable {expand : ℕ → Bool} {al : Allocator} {void : Constant} {mem : Bytes} {argv : List Addr}
  {h h₂ : Malloc.Heap} {ring live : List ℕ} {b c : ℕ} {size : BitVec 32} {r : Request}

/-- The unit of the header in front of a block. -/
def headerOf (p : Addr) : ℕ := p.toNat / headerSize - 1

/-- `kmalloc` grants the two requests of a constructor on the heap `h`, and leaves `h₂`. -/
def Served (expand : ℕ → Bool) (h : Malloc.Heap) (size : BitVec 32) (r : Request)
    (h₂ : Malloc.Heap) : Prop :=
  ∃ ptr ptr' h₁,
    ((∃ fuel, kmalloc expand fuel objSize h = some (ptr, h₁)) ∧ r.strObj.toNat = headerSize * ptr) ∧
      (∃ fuel, kmalloc expand fuel size.toNat h₁ = some (ptr', h₂)) ∧
        r.str.toNat = headerSize * ptr'

/-- `kfree` is called with the pointers, one after the other.  A pointer that is no multiple of a
unit is none that `kmalloc` returns. -/
def FreesAll : List Addr → Malloc.Heap → Malloc.Heap → Prop
  | [], h, h' => h' = h
  | p :: ps, h, h' => p.toNat % headerSize = 0 ∧
      ∃ h₁, (∃ fuel, kfree fuel (p.toNat / headerSize) h = some h₁) ∧ FreesAll ps h₁ h'

/-- **Giving back**: `scheme_void` is returned, what is released are the two blocks, and with what
has been written into them in between the free memory is afterwards what it was in `h`. -/
structure GivesBack (void : Constant) (h h₂ : Malloc.Heap) (r : Request) (res : Addr × Arena) :
    Prop where
  releases : Releases void res
  restored : ∀ mem, SameOutside h₂ { h₂ with mem := mem } [headerOf r.str, headerOf r.strObj] →
    ∃ h', FreesAll (released res.2.events) { h₂ with mem := mem } h' ∧ h.SameFree h'

/-! ## The two blocks

Both come off the tail of a free block, and go back to it. -/

theorem headerOf_eq {p : Addr} {ptr : ℕ} (hp : p.toNat = headerSize * (ptr + 1)) :
    headerOf p = ptr ∧ p.toNat % headerSize = 0 ∧ p.toNat / headerSize = ptr + 1 ∧ p ≠ 0 := by
  have hdiv : p.toNat / headerSize = ptr + 1 := by
    rw [hp, Nat.mul_div_cancel_left _ (by decide)]
  refine ⟨by rw [headerOf, hdiv, Nat.add_sub_cancel], ?_, hdiv, ?_⟩
  · rw [hp, Nat.mul_mod_right]
  · rintro rfl
    simp [headerSize] at hp

section Tails

variable (hb : FitsTail h (nunitsOf objSize) b)
  (hc : FitsTail (takeTail h (nunitsOf objSize) b).2 (nunitsOf size.toNat) c)

include hb hc

/-- The blocks are taken off the tails of the two free blocks. -/
theorem Served.tails (hserved : Served expand h size r h₂) :
    let h₁ := (takeTail h (nunitsOf objSize) b).2
    r.strObj.toNat = headerSize * ((takeTail h (nunitsOf objSize) b).1 + 1) ∧
      r.str.toNat = headerSize * ((takeTail h₁ (nunitsOf size.toNat) c).1 + 1) ∧
        h₂ = (takeTail h₁ (nunitsOf size.toNat) c).2 := by
  obtain ⟨ptr, ptr', h₁, ⟨⟨fuel, hm⟩, hobj⟩, ⟨fuel', hm'⟩, hstr⟩ := hserved
  obtain ⟨rfl, rfl⟩ := hb.kmalloc_eq hm
  obtain ⟨rfl, rfl⟩ := hc.kmalloc_eq hm'
  exact ⟨hobj, hstr, rfl⟩

theorem served_of_tails
    (hobj : r.strObj.toNat = headerSize * ((takeTail h (nunitsOf objSize) b).1 + 1))
    (hstr : r.str.toNat = headerSize *
      ((takeTail (takeTail h (nunitsOf objSize) b).2 (nunitsOf size.toNat) c).1 + 1)) :
    Served expand h size r
      (takeTail (takeTail h (nunitsOf objSize) b).2 (nunitsOf size.toNat) c).2 :=
  ⟨_, _, _, ⟨hb.exists_kmalloc, hobj⟩, hc.exists_kmalloc, hstr⟩

/-- **Both blocks released** in the order in which they were granted. -/
theorem Served.frees (hserved : Served expand h size r h₂) (hi : Tidy h ring live) (hne : c ≠ b)
    {mem : ℕ → Malloc.Header}
    (hw : SameOutside h₂ { h₂ with mem := mem } [headerOf r.str, headerOf r.strObj]) :
    ∃ h', FreesAll [r.strObj, r.str] { h₂ with mem := mem } h' ∧ h.SameFree h' := by
  obtain ⟨hobj, hstr, hh₂⟩ := hserved.tails hb hc
  obtain ⟨hheader, hmod, hdiv, -⟩ := headerOf_eq hobj
  obtain ⟨hheader', hmod', hdiv', -⟩ := headerOf_eq hstr
  rw [hheader, hheader'] at hw
  obtain ⟨h₃, h₄, hf, hf', hsame⟩ := Malloc.sameFree_of_tails hi (Malloc.nunitsOf_pos _)
    (Malloc.nunitsOf_pos _) hb hc hne hh₂ hw
  refine ⟨h₄, ⟨hmod, h₃, ?_, hmod', h₄, ?_, rfl⟩, hsame⟩
  · rw [hdiv]
    exact hf
  · rw [hdiv']
    exact hf'

end Tails

/-- **`string` gives back what it has got** when its first argument is no character, on a heap where
both requests are taken off the tails of different free blocks. -/
theorem givesBack_iff (hi : Tidy h ring live)
    (hb : FitsTail h (nunitsOf objSize) b)
    (hc : FitsTail (takeTail h (nunitsOf objSize) b).2 (nunitsOf (argv.length + 1)) c)
    (hne : c ≠ b) (hserved : Served expand h (BitVec.ofNat 32 argv.length + 1)
      (request al mem (BitVec.ofNat 32 argv.length + 1)) h₂)
    (hchar : ∃ w ∈ argv, charP w = false) (hlen : argv.length < 2 ^ 31) :
    GivesBack void h h₂ (request al mem (BitVec.ofNat 32 argv.length + 1))
      (string al void mem argv) ↔ ∃ w ∈ argv.head?, charP w = false := by
  have hsize : (BitVec.ofNat 32 argv.length + 1).toNat = argv.length + 1 := by bv_omega
  rw [← hsize] at hc
  obtain ⟨hobj, hstr, -⟩ := hserved.tails hb hc
  have hgrants : Grants al mem (BitVec.ofNat 32 argv.length + 1) :=
    ⟨(headerOf_eq hobj).2.2.2, (headerOf_eq hstr).2.2.2⟩
  have hreleases : Releases void (string al void mem argv) ↔ _ := releases_iff al void hchar hlen
  refine ⟨fun hback => (hreleases.mp hback.releases).2, fun hhead =>
    ⟨hreleases.mpr ⟨hgrants, hhead⟩, fun w hw => ?_⟩⟩
  have hreleased : released (string al void mem argv).2.events =
      [(request al mem (BitVec.ofNat 32 argv.length + 1)).strObj,
        (request al mem (BitVec.ofNat 32 argv.length + 1)).str] := by
    rw [string_of_head hgrants hhead, released_giveUp]
    rfl
  rw [hreleased]
  exact hserved.frees hb hc hi hne hw

/-! ## A heap with two free blocks -/

/-- A page with a free block of 500 units, a live one and a free one of 4 units. -/
def parted : Malloc.Heap where
  mem x :=
    if x = kHeapStart then ⟨500, kHeapStart + 508⟩
    else if x = kHeapStart + 500 then ⟨8, 0⟩
    else ⟨4, kHeapStart⟩
  freeMemList := kHeapStart
  heapEnd := kHeapStart + 512
  expansions := 0

theorem tidy_parted : Tidy parted [kHeapStart, kHeapStart + 508] [kHeapStart + 500] := by
  have hfirst : parted.size kHeapStart = 500 := by decide +kernel
  have hlive : parted.size (kHeapStart + 500) = 8 := by decide +kernel
  have hsecond : parted.size (kHeapStart + 508) = 4 := by decide +kernel
  have hend : parted.heapEnd = kHeapStart + 512 := rfl
  have hlasso : Lasso parted.next [kHeapStart, kHeapStart + 508] kHeapStart :=
    ⟨.cons_cons (by decide +kernel) (.cons_cons (by decide +kernel) (.singleton _)), by simp,
      .inl rfl⟩
  refine ⟨fun hnull => absurd hnull Malloc.kHeapStart_pos.ne', fun _ => rfl, fun _ => hlasso, ?_,
    ⟨⟨?_, ?_, ?_, ?_⟩, ?_⟩⟩
  all_goals
    simp only [List.cons_append, List.nil_append, List.pairwise_cons, List.Pairwise.nil,
      List.forall_mem_cons, List.not_mem_nil, List.map_cons, List.map_nil, List.sum_cons,
      List.sum_nil, Apart, hfirst, hlive, hsecond, hend, and_true,
      false_imp_iff, forall_const]
    omega

/-- The object is taken off the small block. -/
theorem fitsTail_object : FitsTail parted (nunitsOf objSize) (kHeapStart + 508) := by
  refine ⟨Malloc.kHeapStart_pos.ne', ⟨kHeapStart, ?_⟩, by decide +kernel, by decide +kernel⟩
  have hnext : parted.next parted.freeMemList = kHeapStart + 508 := by decide +kernel
  rw [hnext]
  exact .here _ _

/-- The three characters for two arguments are taken off the large one. -/
theorem fitsTail_characters :
    FitsTail (takeTail parted (nunitsOf objSize) (kHeapStart + 508)).2 (nunitsOf 3) kHeapStart := by
  refine ⟨Malloc.kHeapStart_pos.ne', ⟨kHeapStart + 508, ?_⟩, by decide +kernel, by decide +kernel⟩
  have hfirst : (takeTail parted (nunitsOf objSize) (kHeapStart + 508)).2.next
      (takeTail parted (nunitsOf objSize) (kHeapStart + 508)).2.freeMemList = kHeapStart + 508 := by
    decide +kernel
  have hsecond : (takeTail parted (nunitsOf objSize) (kHeapStart + 508)).2.next
      (kHeapStart + 508) = kHeapStart := by
    decide +kernel
  rw [hfirst]
  refine .next (by decide +kernel) (by decide +kernel) ?_
  rw [hsecond]
  exact .here _ _

/-- The answers of `kmalloc` on this heap. -/
def two : Allocator where
  malloc mem size := (if size = BitVec.ofNat 32 objSize then 0x800ff0 else 0x800f98, mem)
  free mem _ := mem

/-- The heap after the two requests. -/
def taken : Malloc.Heap :=
  (takeTail (takeTail parted (nunitsOf objSize) (kHeapStart + 508)).2 (nunitsOf 3) kHeapStart).2

theorem served_two (expand : ℕ → Bool) :
    Served expand parted 3 (request two hi 3) taken := by
  have hptr : (takeTail parted (nunitsOf objSize) (kHeapStart + 508)).1 = 0x1001fd := by
    decide +kernel
  have hptr' : (takeTail (takeTail parted (nunitsOf objSize) (kHeapStart + 508)).2 (nunitsOf 3)
      kHeapStart).1 = 0x1001f2 := by
    decide +kernel
  have hcharacters : FitsTail (takeTail parted (nunitsOf objSize) (kHeapStart + 508)).2
      (nunitsOf (3 : BitVec 32).toNat) kHeapStart :=
    fitsTail_characters
  refine served_of_tails fitsTail_object hcharacters ?_ ?_
  · rw [hptr]
    rfl
  · change _ = headerSize * ((takeTail _ (nunitsOf 3) _).1 + 1)
    rw [hptr']
    rfl

/-- A number and a character. -/
theorem givesBack_iff_first : GivesBack constant parted taken
    (request two hi (BitVec.ofNat 32 [(16 : Addr), charToObj 97].length + 1))
    (string two constant hi [16, charToObj 97]) := by
  have hnum : ∃ w ∈ [(16 : Addr), charToObj 97], charP w = false := ⟨16, by simp, rfl⟩
  have hne : kHeapStart ≠ kHeapStart + 508 := by omega
  have hcharacters : FitsTail (takeTail parted (nunitsOf objSize) (kHeapStart + 508)).2
      (nunitsOf ([(16 : Addr), charToObj 97].length + 1)) kHeapStart :=
    fitsTail_characters
  exact (givesBack_iff tidy_parted fitsTail_object hcharacters hne (served_two fun _ => false) hnum
    (by simp)).mpr ⟨16, rfl, rfl⟩

/-- A character, and then a number: what is released is one byte behind the block. -/
theorem not_givesBack : ¬∀ (expand : ℕ → Bool) (h h₂ : Malloc.Heap) (ring live : List ℕ)
    (al : Allocator) (void : Constant) (mem : Bytes) (argv : List Addr), Tidy h ring live →
    Served expand h (BitVec.ofNat 32 argv.length + 1)
      (request al mem (BitVec.ofNat 32 argv.length + 1)) h₂ →
    (∃ w ∈ argv, charP w = false) → argv.length < 2 ^ 31 →
      GivesBack void h h₂ (request al mem (BitVec.ofNat 32 argv.length + 1))
        (string al void mem argv) := fun h => by
  have hnum : ∃ w ∈ [charToObj 97, (16 : Addr)], charP w = false := ⟨16, by simp, rfl⟩
  have hback := h (fun _ => false) parted taken _ _ two constant hi [charToObj 97, 16] tidy_parted
    (served_two _) hnum (by simp)
  obtain ⟨-, w, hw, hchar⟩ := (releases_iff two constant hnum (by simp)).mp hback.releases
  obtain rfl : charToObj 97 = w := Option.some.inj hw
  exact absurd hchar (by decide)

end SchemeOs.Strings
