import Mathlib
import SchemeOs.Machinery.Runs

/-!
# Memory/Frames — the frame bitmap of `mm/memory.c`

Physical memory from `LOW_MEM` to `TOTAL_MEMORY` is handed out in frames of 4096 bytes.  A bit of
`_mm_bitmap` is set while its frame is free: `get_free_frame` scans for the lowest one, word by word
and then bit by bit, and `free_frame` computes word and bit back from the address.  The array is a
function on the words it has; a write behind its end is `none`.
-/

namespace SchemeOs.Memory

/-- `LOW_MEM`. -/
def lowMem : ℕ := 0x800000

/-- `TOTAL_MEMORY`. -/
def totalMemory : ℕ := 0x80000000

/-- `PAGING_PAGES`, the number of frames. -/
@[irreducible] def pagingPages : ℕ := (totalMemory - lowMem) >>> 12

/-- `BITMAP_SIZE`, the number of words; a `long` has four bytes. -/
@[irreducible] def bitmapSize : ℕ := pagingPages / 4 / 8

theorem pagingPages_eq : pagingPages = 522240 := by decide +kernel

theorem bitmapSize_eq : bitmapSize = 16320 := by decide +kernel

/-- `_mm_bitmap`. -/
abbrev Bitmap := ℕ → BitVec 32

/-- `_mm_bitmap` as `kscm_init_paging` sets it. -/
def initBitmap : Bitmap := fun _ => ~~~0#32

/-- The first loop of `get_free_frame`: the first word from `i` on that is not zero. -/
def skipTaken (b : Bitmap) (i : ℕ) : ℕ :=
  if i < bitmapSize ∧ b i = 0#32 then skipTaken b (i + 1) else i
termination_by bitmapSize - i

/-- The second loop of `get_free_frame`: the bit found in the word `w`, and the word without it.
The mask `t` has left the word after 32 shifts, when no `rounds` are left. -/
def takeBit (w : BitVec 32) : ℕ → ℕ → BitVec 32 → ℕ × BitVec 32
  | 0, fn, _ => (fn, w)
  | rounds + 1, fn, t =>
    if t = 0#32 then (fn, w)
    else if w &&& t ≠ 0#32 then (fn, w &&& ~~~t)
    else takeBit w rounds (fn + 1) (t <<< 1)

/-- `get_free_frame()`: the address of the frame taken, or 0. -/
def getFreeFrame (b : Bitmap) : ℕ × Bitmap :=
  let i := skipTaken b 0
  if i = bitmapSize then (0, b)
  else
    let r := takeBit (b i) 32 0 1#32
    ((((r.1 + i * 4 * 8) <<< 12) + lowMem) % 2 ^ 32, Function.update b i r.2)

/-- `free_frame(frame)`. -/
def freeFrame (frame : ℕ) (b : Bitmap) : Option Bitmap :=
  let frame := ((frame + 2 ^ 32 - lowMem) % 2 ^ 32) >>> 12
  if frame >>> 5 < bitmapSize then
    some (Function.update b (frame >>> 5) (b (frame >>> 5) ||| 1#32 <<< (frame &&& 0x1f)))
  else none

/-! ## Bits -/

/-- The bit of frame `k`. -/
def isFree (b : Bitmap) (k : ℕ) : Bool := (b (k / 32)).getLsbD (k % 32)

/-- The address of frame `k`. -/
def frameAddr (k : ℕ) : ℕ := lowMem + 4096 * k

variable {b b' : Bitmap} {w : BitVec 32} {i k n : ℕ}

theorem frameAddr_injective : Function.Injective frameAddr := fun j k h => by
  simp only [frameAddr] at h
  omega

theorem frameAddr_mono (h : i ≤ k) : frameAddr i ≤ frameAddr k :=
  Nat.add_le_add_left (Nat.mul_le_mul_left _ h) _

theorem frameAddr_pos : 0 < frameAddr k := by
  simp only [frameAddr, lowMem]
  omega

theorem isFree_initBitmap : isFree initBitmap k = true := by
  rw [isFree, initBitmap, BitVec.getLsbD_not, BitVec.getLsbD_zero]
  simpa using Nat.mod_lt k (by decide)

/-- A bit after a write to the word `i`. -/
theorem isFree_update (b : Bitmap) (i : ℕ) (w : BitVec 32) (k : ℕ) :
    isFree (Function.update b i w) k = if k / 32 = i then w.getLsbD (k % 32) else isFree b k := by
  by_cases hk : k / 32 = i
  · rw [isFree, hk, Function.update_self, if_pos rfl]
  · rw [isFree, Function.update_of_ne hk, if_neg hk, isFree]

theorem and_one_shiftLeft_ne_zero (w : BitVec 32) (hn : n < 32) :
    w &&& 1#32 <<< n ≠ 0#32 ↔ w.getLsbD n = true := by
  rw [← BitVec.twoPow_eq, BitVec.and_twoPow]
  constructor
  · intro h
    by_contra hbit
    simp [hbit] at h
  · intro h hzero
    rw [if_pos h] at hzero
    have := congrArg (fun v => v.getLsbD n) hzero
    simp [hn] at this

theorem getLsbD_clear (w : BitVec 32) {j : ℕ} (hj : j < 32) (hn : n < 32) :
    (w &&& ~~~(1#32 <<< n)).getLsbD j = (w.getLsbD j && decide (j ≠ n)) := by
  rw [← BitVec.twoPow_eq, BitVec.getLsbD_and, BitVec.getLsbD_not, BitVec.getLsbD_twoPow]
  by_cases hjn : j = n
  · simp [hjn, hn]
  · simp [hj, hjn, Ne.symm hjn]

theorem getLsbD_set (w : BitVec 32) {j : ℕ} (hn : n < 32) :
    (w ||| 1#32 <<< n).getLsbD j = (w.getLsbD j || decide (j = n)) := by
  rw [← BitVec.twoPow_eq, BitVec.getLsbD_or, BitVec.getLsbD_twoPow]
  by_cases hjn : j = n
  · simp [hjn, hn]
  · simp [hjn, Ne.symm hjn]

/-- A word that is not zero has a bit. -/
theorem exists_bit (hw : w ≠ 0#32) : ∃ n < 32, w.getLsbD n = true := by
  by_contra hnone
  push Not at hnone
  refine hw (BitVec.eq_of_getLsbD_eq fun n hn => ?_)
  simpa using hnone n hn

/-! ## The two loops

The first stops at the lowest word that is not zero, the second at its lowest bit. -/

/-- The word found is the first one that is not zero. -/
theorem skipTaken_spec (b : Bitmap) (hi : i ≤ bitmapSize) :
    i ≤ skipTaken b i ∧ skipTaken b i ≤ bitmapSize ∧
      (∀ j, i ≤ j → j < skipTaken b i → b j = 0#32) ∧
      (skipTaken b i < bitmapSize → b (skipTaken b i) ≠ 0#32) := by
  fun_induction skipTaken b i with
  | case1 i hzero ih =>
    obtain ⟨hge, hle, hskipped, hfound⟩ := ih hzero.1
    refine ⟨by omega, hle, fun j hij hj => ?_, hfound⟩
    by_cases heq : j = i
    · rw [heq, hzero.2]
    · exact hskipped j (by omega) hj
  | case2 i hstop =>
    exact ⟨le_rfl, hi, fun j hij hj => absurd hj (by omega), fun hlt heq => hstop ⟨hlt, heq⟩⟩

/-- The bit found is the lowest one that is set. -/
theorem takeBit_spec (hw : w ≠ 0#32) {rounds fn : ℕ} (hrounds : fn + rounds = 32)
    (hlow : ∀ j < fn, w.getLsbD j = false) :
    ∃ n < 32, takeBit w rounds fn (1#32 <<< fn) = (n, w &&& ~~~(1#32 <<< n)) ∧
      w.getLsbD n = true ∧ ∀ j < n, w.getLsbD j = false := by
  induction rounds generalizing fn with
  | zero =>
    obtain ⟨n, hn, hbit⟩ := exists_bit hw
    rw [hlow n (by omega)] at hbit
    exact Bool.noConfusion hbit
  | succ rounds ih =>
    have hfn : fn < 32 := by omega
    have hmask : 1#32 <<< fn ≠ 0#32 := fun heq => by
      have := congrArg (fun v => v.getLsbD fn) heq
      simp [hfn] at this
    rw [takeBit, if_neg hmask]
    by_cases hbit : w.getLsbD fn = true
    · rw [if_pos ((and_one_shiftLeft_ne_zero w hfn).mpr hbit)]
      exact ⟨fn, hfn, rfl, hbit, hlow⟩
    · rw [if_neg fun hne => hbit ((and_one_shiftLeft_ne_zero w hfn).mp hne), ← BitVec.shiftLeft_add]
      refine ih (by omega) fun j hj => ?_
      by_cases heq : j = fn
      · simpa [heq] using hbit
      · exact hlow j (by omega)

/-! ## The two functions

Each changes the bit of one frame. -/

theorem lt_pagingPages : k < pagingPages ↔ k / 32 < bitmapSize := by
  rw [pagingPages_eq, bitmapSize_eq]
  omega

/-- **`get_free_frame`** takes the lowest free frame, or gives up when there is none. -/
theorem getFreeFrame_spec (b : Bitmap) :
    (getFreeFrame b = (0, b) ∧ ∀ k < pagingPages, isFree b k = false) ∨
    ∃ k < pagingPages, (getFreeFrame b).1 = frameAddr k ∧ isFree b k = true ∧
      (∀ j < k, isFree b j = false) ∧
      ∀ j, isFree (getFreeFrame b).2 j = (isFree b j && decide (j ≠ k)) := by
  obtain ⟨-, hle, hskipped, hfound⟩ := skipTaken_spec b (Nat.zero_le bitmapSize)
  have hbelow : ∀ j, j / 32 < skipTaken b 0 → isFree b j = false := fun j hj => by
    rw [isFree, hskipped _ (Nat.zero_le _) hj]
    simp
  by_cases hend : skipTaken b 0 = bitmapSize
  · refine Or.inl ⟨by simp [getFreeFrame, hend], fun k hk => hbelow k ?_⟩
    rw [hend]
    exact lt_pagingPages.mp hk
  · have hlt : skipTaken b 0 < bitmapSize := by omega
    obtain ⟨n, hn, htake, hbit, hlow⟩ := takeBit_spec (hfound hlt) (show 0 + 32 = 32 from rfl)
      (fun j hj => absurd hj (Nat.not_lt_zero j))
    generalize hi : skipTaken b 0 = i at *
    have hdiv : (n + i * 32) / 32 = i := by omega
    have hmod : (n + i * 32) % 32 = n := by omega
    have hget : getFreeFrame b =
        ((((n + i * 4 * 8) <<< 12) + lowMem) % 2 ^ 32,
          Function.update b i (b i &&& ~~~(1#32 <<< n))) := by
      have htake' : takeBit (b i) 32 0 1#32 = (n, b i &&& ~~~(1#32 <<< n)) := htake
      rw [getFreeFrame, hi, if_neg hend, htake']
    refine Or.inr ⟨n + i * 32, lt_pagingPages.mpr (by omega), ?_, ?_, fun j hj => ?_, fun j => ?_⟩
    · rw [hget]
      rw [bitmapSize_eq] at hlt
      simp only [frameAddr, lowMem, Nat.shiftLeft_eq]
      omega
    · rw [isFree, hdiv, hmod, hbit]
    · by_cases hword : j / 32 = i
      · rw [isFree, hword]
        exact hlow _ (by omega)
      · exact hbelow j (by omega)
    · rw [hget, isFree_update]
      by_cases hword : j / 32 = i
      · have hiff : j % 32 ≠ n ↔ j ≠ n + i * 32 := by omega
        rw [if_pos hword, getLsbD_clear _ (Nat.mod_lt _ (by decide)) hn, isFree, hword]
        simp [hiff]
      · have hne : j ≠ n + i * 32 := by omega
        simp [hword, hne]

/-- **`free_frame`** sets the bit of its frame and no other. -/
theorem freeFrame_spec (b : Bitmap) (hk : k < pagingPages) :
    ∃ b', freeFrame (frameAddr k) b = some b' ∧
      ∀ j, isFree b' j = (isFree b j || decide (j = k)) := by
  have hword := lt_pagingPages.mp hk
  have hframe : ((frameAddr k + 2 ^ 32 - lowMem) % 2 ^ 32) >>> 12 = k := by
    rw [pagingPages_eq] at hk
    simp only [frameAddr, lowMem, Nat.shiftRight_eq_div_pow]
    omega
  have hshift : k >>> 5 = k / 32 := Nat.shiftRight_eq_div_pow k 5
  have hmask : k &&& 0x1f = k % 32 := Nat.and_two_pow_sub_one_eq_mod k 5
  refine ⟨Function.update b (k / 32) (b (k / 32) ||| 1#32 <<< (k % 32)), ?_, fun j => ?_⟩
  · simp only [freeFrame, hframe, hshift, hmask, if_pos hword]
  · rw [isFree_update]
    by_cases heq : j / 32 = k / 32
    · have hiff : j % 32 = k % 32 ↔ j = k := by omega
      rw [if_pos heq, getLsbD_set _ (Nat.mod_lt _ (by decide)), isFree,
        heq]
      simp [hiff]
    · have hne : j ≠ k := fun h => heq (by rw [h])
      simp [heq, hne]

/-! ## Runs -/

/-- What a client of the frames does; a call of `get_free_frame` is labelled with its result. -/
inductive Call where
  | get (frame : ℕ)
  | free (frame : ℕ)
  deriving DecidableEq, Repr

/-- The bitmap, and the frames that were handed out and not freed. -/
structure Sys where
  bitmap : Bitmap
  held : List ℕ

/-- One call; frames that are freed are held. -/
inductive Step : Sys → Call → Sys → Prop where
  | get {s : Sys} : (getFreeFrame s.bitmap).1 ≠ 0 →
      Step s (.get (getFreeFrame s.bitmap).1)
        ⟨(getFreeFrame s.bitmap).2, (getFreeFrame s.bitmap).1 :: s.held⟩
  | get_none {s : Sys} : (getFreeFrame s.bitmap).1 = 0 →
      Step s (.get 0) ⟨(getFreeFrame s.bitmap).2, s.held⟩
  | free {s : Sys} {frame : ℕ} {b : Bitmap} : frame ∈ s.held →
      freeFrame frame s.bitmap = some b → Step s (.free frame) ⟨b, s.held.erase frame⟩

/-- The state `kscm_init_paging` starts with. -/
def Sys.init : Sys := ⟨initBitmap, []⟩

/-- What the frames are for: each is held once, the lowest one that is not held is handed out next,
and a frame that is freed can be handed out again, while nothing changes for the others. -/
structure Exclusive (s : Sys) : Prop where
  nodup : s.held.Nodup
  frames : ∀ f ∈ s.held, ∃ k < 522240, f = lowMem + 4096 * k
  get_zero : (getFreeFrame s.bitmap).1 = 0 ↔ ∀ k < 522240, lowMem + 4096 * k ∈ s.held
  get_least : (getFreeFrame s.bitmap).1 ≠ 0 →
    IsLeast {f | f ∉ s.held ∧ ∃ k < 522240, f = lowMem + 4096 * k} (getFreeFrame s.bitmap).1
  bits : ∀ k < 522240, isFree s.bitmap k = true ↔ lowMem + 4096 * k ∉ s.held
  free : ∀ k < 522240, lowMem + 4096 * k ∈ s.held →
    ∃ b, freeFrame (lowMem + 4096 * k) s.bitmap = some b ∧
      ∀ j, isFree b j = true ↔ isFree s.bitmap j = true ∨ j = k

/-- The frames held are those whose bit is cleared, each listed once. -/
structure Inv (s : Sys) : Prop where
  nodup : s.held.Nodup
  frames : ∀ f ∈ s.held, ∃ k < pagingPages, f = frameAddr k
  bits : ∀ k < pagingPages, isFree s.bitmap k = true ↔ frameAddr k ∉ s.held

theorem inv_init : Inv Sys.init where
  nodup := .nil
  frames _ hf := absurd hf List.not_mem_nil
  bits _ _ := ⟨fun _ => List.not_mem_nil, fun _ => isFree_initBitmap⟩

namespace Inv

variable {s : Sys}

theorem get_zero (hi : Inv s) :
    (getFreeFrame s.bitmap).1 = 0 ↔ ∀ k < pagingPages, frameAddr k ∈ s.held := by
  rcases getFreeFrame_spec s.bitmap with ⟨hget, hnone⟩ | ⟨k, hk, haddr, hfree, -, -⟩
  · refine ⟨fun _ k hk => ?_, fun _ => by rw [hget]⟩
    by_contra hheld
    have hfree := (hi.bits k hk).mpr hheld
    rw [hnone k hk] at hfree
    exact Bool.noConfusion hfree
  · refine ⟨fun h0 => absurd (haddr.symm.trans h0) frameAddr_pos.ne', fun hall => ?_⟩
    exact absurd (hall k hk) ((hi.bits k hk).mp hfree)

theorem get_least (hi : Inv s) (h0 : (getFreeFrame s.bitmap).1 ≠ 0) :
    IsLeast {f | f ∉ s.held ∧ ∃ k < pagingPages, f = frameAddr k} (getFreeFrame s.bitmap).1 := by
  rcases getFreeFrame_spec s.bitmap with ⟨hget, -⟩ | ⟨k, hk, haddr, hfree, hlow, -⟩
  · rw [hget] at h0
    exact absurd rfl h0
  · refine ⟨⟨haddr ▸ (hi.bits k hk).mp hfree, k, hk, haddr⟩, ?_⟩
    rintro _ ⟨hheld, j, hj, rfl⟩
    by_contra hlt
    have hjk : j < k := by
      simp only [haddr, frameAddr] at hlt
      omega
    have hjfree := (hi.bits j hj).mpr hheld
    rw [hlow j hjk] at hjfree
    exact Bool.noConfusion hjfree

/-- **The invariant says what the frames are for.** -/
theorem exclusive (hi : Inv s) : Exclusive s := by
  have hpages := pagingPages_eq
  exact {
    nodup := hi.nodup
    frames := hpages ▸ hi.frames
    get_zero := hpages ▸ hi.get_zero
    get_least := hpages ▸ hi.get_least
    bits := hpages ▸ hi.bits
    free := fun k hk _ => by
      obtain ⟨b, hb, hbits⟩ := freeFrame_spec s.bitmap (hpages.symm ▸ hk)
      exact ⟨b, hb, fun j => by simp [hbits]⟩ }

end Inv

/-- **The step lemma**: every call keeps the bitmap in step with the frames held. -/
theorem inv_step {s t : Sys} {call : Call} (hi : Inv s) (hst : Step s call t) : Inv t := by
  cases hst with
  | get h0 =>
    rcases getFreeFrame_spec s.bitmap with ⟨hget, -⟩ | ⟨k, hk, haddr, hfree, -, hbits⟩
    · rw [hget] at h0
      exact absurd rfl h0
    · have hnew : frameAddr k ∉ s.held := (hi.bits k hk).mp hfree
      rw [haddr]
      refine ⟨List.nodup_cons.mpr ⟨hnew, hi.nodup⟩, fun f hf => ?_, fun j hj => ?_⟩
      · rcases List.mem_cons.mp hf with rfl | hf
        · exact ⟨k, hk, rfl⟩
        · exact hi.frames f hf
      · have hne : j ≠ k ↔ frameAddr j ≠ frameAddr k := frameAddr_injective.ne_iff.symm
        simp [hbits, hi.bits j hj, hne, and_comm]
  | get_none h0 =>
    rcases getFreeFrame_spec s.bitmap with ⟨hget, -⟩ | ⟨k, -, haddr, -⟩
    · rw [hget]
      exact hi
    · exact absurd (haddr.symm.trans h0) frameAddr_pos.ne'
  | @free frame b hmem hfree =>
    obtain ⟨k, hk, rfl⟩ := hi.frames frame hmem
    obtain ⟨b', hb', hbits⟩ := freeFrame_spec s.bitmap hk
    obtain rfl : b' = b := Option.some.inj (hb'.symm.trans hfree)
    refine ⟨hi.nodup.erase _, fun f hf => hi.frames f (List.mem_of_mem_erase hf), fun j hj => ?_⟩
    rw [hi.nodup.mem_erase_iff, hbits, Bool.or_eq_true, hi.bits j hj, decide_eq_true_eq,
      frameAddr_injective.ne_iff]
    tauto

/-- **Runs**: in every state reached from `kscm_init_paging` the frames are exclusive. -/
theorem exclusive_of_run {calls : List Call} {s : Sys} (hr : Runs Step Sys.init calls s) :
    Exclusive s :=
  (hr.invariant (P := Inv) (fun _ _ _ hi hst => inv_step hi hst) inv_init).exclusive

/-- While the first word has a free frame, the lowest of them is taken. -/
theorem Step.of_takeBit {b : Bitmap} {held : List ℕ} {n : ℕ} {v : BitVec 32} (hv : b 0 ≠ 0#32)
    (htake : takeBit (b 0) 32 0 1#32 = (n, v)) (hn : n < 32) :
    Step ⟨b, held⟩ (.get (frameAddr n)) ⟨Function.update b 0 v, frameAddr n :: held⟩ := by
  have hskip : skipTaken b 0 = 0 := by
    rw [skipTaken, if_neg fun hand => hv hand.2]
  have hget : getFreeFrame b = (frameAddr n, Function.update b 0 v) := by
    have haddr : ((n + 0 * 4 * 8) <<< 12 + lowMem) % 2 ^ 32 = frameAddr n := by
      simp only [frameAddr, lowMem, Nat.shiftLeft_eq]
      omega
    rw [getFreeFrame, hskip, if_neg (by rw [bitmapSize_eq]; decide), htake]
    exact congrArg (·, Function.update b 0 v) haddr
  have hst := Step.get (s := ⟨b, held⟩) (by rw [hget]; exact frameAddr_pos.ne')
  rwa [hget] at hst

/-- Two frames are taken, the first is given back, and is taken again. -/
theorem exclusive_of_run_one :
    Exclusive ⟨Function.update initBitmap 0 0xfffffffc#32, [frameAddr 0, frameAddr 1]⟩ := by
  have hfirst : Step ⟨initBitmap, []⟩ (.get (frameAddr 0))
      ⟨Function.update initBitmap 0 0xfffffffe#32, [frameAddr 0]⟩ :=
    .of_takeBit (by decide) (by decide) (by decide)
  have hsecond : Step ⟨Function.update initBitmap 0 0xfffffffe#32, [frameAddr 0]⟩
      (.get (frameAddr 1)) ⟨Function.update (Function.update initBitmap 0 0xfffffffe#32) 0
        0xfffffffc#32, [frameAddr 1, frameAddr 0]⟩ :=
    .of_takeBit (by decide) (by decide) (by decide)
  have hfreed : freeFrame (frameAddr 0) (Function.update initBitmap 0 0xfffffffc#32) =
      some (Function.update initBitmap 0 0xfffffffd#32) := by
    have hframe : ((frameAddr 0 + 2 ^ 32 - lowMem) % 2 ^ 32) >>> 12 = 0 := by decide
    rw [freeFrame, hframe, if_pos (by rw [bitmapSize_eq]; decide), Nat.zero_shiftRight,
      Function.update_self, Function.update_idem]
    rfl
  have hthird : Step ⟨Function.update initBitmap 0 0xfffffffd#32, [frameAddr 1]⟩
      (.get (frameAddr 0)) ⟨Function.update (Function.update initBitmap 0 0xfffffffd#32) 0
        0xfffffffc#32, [frameAddr 0, frameAddr 1]⟩ :=
    .of_takeBit (by decide) (by decide) (by decide)
  rw [Function.update_idem] at hsecond hthird
  have hfree : Step ⟨Function.update initBitmap 0 0xfffffffc#32, [frameAddr 1, frameAddr 0]⟩
      (.free (frameAddr 0)) ⟨Function.update initBitmap 0 0xfffffffd#32, [frameAddr 1]⟩ :=
    .free (List.mem_cons_of_mem _ (List.mem_singleton_self _)) hfreed
  exact exclusive_of_run (.cons hfirst (.cons hsecond (.cons hfree (.single hthird))))

end SchemeOs.Memory
