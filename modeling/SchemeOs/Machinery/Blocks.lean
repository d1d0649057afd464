import SchemeOs.Machinery.Fields

/-!
# Machinery/Blocks — blocks of memory, and an allocator

An allocator keeps what it knows in the memory itself.  Each of its calls is an event, and what it
promises is about the events so far: a block that it grants is apart from those in use, and it does
not write into these.  About the release of something else than a block nothing is promised.
-/

namespace SchemeOs

variable {mem mem' mem'' : Bytes} {a x : Addr} {c : Byte} {u w : List Byte} {i n : ℕ}

/-! ## Bytes one after the other -/

/-- The bytes `w` are at `a`. -/
def BytesAt (mem : Bytes) (a : Addr) (w : List Byte) : Prop :=
  ∀ i (h : i < w.length), mem (a + BitVec.ofNat 32 i) = w[i]

/-- The memory with the bytes `w` written from `a` on. -/
def writeBytes (mem : Bytes) (a : Addr) : List Byte → Bytes
  | [] => mem
  | c :: w => writeBytes (Function.update mem a c) (a + 1) w

theorem add_succ (a : Addr) (i : ℕ) : a + BitVec.ofNat 32 (i + 1) = a + 1 + BitVec.ofNat 32 i := by
  bv_omega

theorem bytesAt_cons : BytesAt mem a (c :: w) ↔ mem a = c ∧ BytesAt mem (a + 1) w := by
  constructor
  · intro h
    refine ⟨?_, fun i hi => ?_⟩
    · have hbyte := h 0 (Nat.succ_pos _)
      rwa [BitVec.add_zero, List.getElem_cons_zero] at hbyte
    · have hbyte := h (i + 1) (by simpa using hi)
      rwa [add_succ, List.getElem_cons_succ] at hbyte
  · rintro ⟨hc, hw⟩ i hi
    cases i with
    | zero => simpa using hc
    | succ i =>
      rw [add_succ, List.getElem_cons_succ]
      exact hw i (by simpa using hi)

/-- Bytes depend on their range. -/
theorem BytesAt.congr (h : BytesAt mem a w) (hn : w.length ≤ n) (hle : n ≤ 2 ^ 32)
    (hsame : SameIn a n mem mem') : BytesAt mem' a w := by
  intro i hi
  rw [hsame _ (inRange_add (Nat.lt_of_lt_of_le hi hn) hle)]
  exact h i hi

/-- One byte is another one. -/
theorem BytesAt.set (h : BytesAt mem a w) (hi : i < 2 ^ 32) (hw : w.length ≤ 2 ^ 32) (c : Byte) :
    BytesAt (Function.update mem (a + BitVec.ofNat 32 i) c) a (w.set i c) := by
  intro j hj
  rw [List.length_set] at hj
  rw [List.getElem_set]
  split_ifs with heq
  · rw [heq, Function.update_self]
  · have hne : a + BitVec.ofNat 32 j ≠ a + BitVec.ofNat 32 i := by bv_omega
    rw [Function.update_of_ne hne]
    exact h j hj

theorem writeBytes_of_not (h : ¬InRange a w.length x) : writeBytes mem a w x = mem x := by
  induction w generalizing mem a with
  | nil => rfl
  | cons c w ih =>
    rw [List.length_cons, inRange_succ, not_or] at h
    rw [writeBytes, ih h.2, Function.update_of_ne h.1]

/-- **The bytes that were written** are there. -/
theorem bytesAt_writeBytes (hw : w.length ≤ 2 ^ 32) : BytesAt (writeBytes mem a w) a w := by
  induction w generalizing mem a with
  | nil => exact fun i hi => absurd hi (Nat.not_lt_zero i)
  | cons c w ih =>
    rw [List.length_cons] at hw
    refine bytesAt_cons.mpr ⟨?_, ih (by omega)⟩
    have hout : ¬InRange (a + 1) w.length a := by
      unfold InRange
      bv_omega
    rw [writeBytes, writeBytes_of_not hout, Function.update_self]

theorem writeBytes_append (mem : Bytes) (a : Addr) (u w : List Byte) :
    writeBytes mem a (u ++ w) =
      writeBytes (writeBytes mem a u) (a + BitVec.ofNat 32 u.length) w := by
  induction u generalizing mem a with
  | nil => simp [writeBytes]
  | cons c u ih => rw [List.cons_append, writeBytes, ih, writeBytes, List.length_cons, add_succ]

theorem repStosb_eq_writeBytes (mem : Bytes) (a : Addr) (c : Byte) (n : ℕ) :
    repStosb mem a c n = writeBytes mem a (List.replicate n c) := by
  induction n generalizing mem a with
  | zero => rfl
  | succ n ih => rw [repStosb, ih, List.replicate_succ, writeBytes]

/-! ## Blocks -/

/-- A block: its address, and the number of bytes that can be used. -/
abbrev Block := Addr × ℕ

/-- Two memories are the same in the blocks. -/
def SameBlocks (blocks : List Block) (mem mem' : Bytes) : Prop :=
  ∀ b ∈ blocks, SameIn b.1 b.2 mem mem'

theorem SameBlocks.trans {blocks : List Block} (h : SameBlocks blocks mem mem')
    (h' : SameBlocks blocks mem' mem'') : SameBlocks blocks mem mem'' :=
  fun b hb => (h b hb).trans (h' b hb)

/-- A block that can be granted while others are in use. -/
structure Fresh (blocks : List Block) (b : Block) : Prop where
  aligned : b.1.toNat % 8 = 0
  fits : b.1.toNat + b.2 ≤ 2 ^ 32
  apart : ∀ c ∈ blocks, RangesApart b.1 b.2 c.1 c.2

/-- A block above those in use. -/
theorem fresh_of_le {blocks : List Block} {b : Block} (haligned : b.1.toNat % 8 = 0)
    (hfits : b.1.toNat + b.2 ≤ 2 ^ 32) (h : ∀ c ∈ blocks, c.1.toNat + c.2 ≤ b.1.toNat) :
    Fresh blocks b :=
  ⟨haligned, hfits, fun c hc => (rangesApart_of_le (h c hc) hfits).symm⟩

/-- A new block is none of those in use. -/
theorem Fresh.ne {blocks : List Block} {b c : Block} (h : Fresh blocks b) (hpos : 0 < b.2)
    (hc : c ∈ blocks) : c ≠ b := by
  rintro rfl
  exact h.apart c hc c.1 (inRange_self hpos) (inRange_self hpos)

/-! ## An allocator

Any allocator that keeps what it knows in memory, and the promises that it may keep. -/

/-- `malloc` and `free`, on a memory that holds what they know. -/
structure Allocator where
  malloc : Bytes → BitVec 32 → Addr × Bytes
  free : Bytes → Addr → Bytes

/-- A call of the allocator, with the memory before and after it. -/
inductive HeapEvent where
  | malloc (size : BitVec 32) (p : Addr) (mem mem' : Bytes)
  | free (p : Addr) (mem mem' : Bytes)

/-- The memory, and the calls of the allocator so far. -/
structure Arena where
  mem : Bytes
  events : List HeapEvent

def Arena.malloc (al : Allocator) (r : Arena) (size : BitVec 32) : Addr × Arena :=
  let (p, mem) := al.malloc r.mem size
  (p, ⟨mem, r.events ++ [.malloc size p r.mem mem]⟩)

def Arena.free (al : Allocator) (r : Arena) (p : Addr) : Arena :=
  let mem := al.free r.mem p
  ⟨mem, r.events ++ [.free p r.mem mem]⟩

/-- The number of bytes in a block: requests are granted in units of eight bytes. -/
def usable (size : BitVec 32) : ℕ := 8 * ((size + 7).toNat / 8)

theorem le_usable {size : BitVec 32} (h : size.toNat < 2 ^ 32 - 7) : size.toNat ≤ usable size := by
  unfold usable
  bv_omega

/-- What the allocator promises. -/
def Obeys : List Block → List HeapEvent → Prop
  | _, [] => True
  | blocks, .malloc size p mem mem' :: es => SameBlocks blocks mem mem' ∧
    if p = 0 then Obeys blocks es
    else Fresh blocks (p, usable size) ∧ Obeys ((p, usable size) :: blocks) es
  | blocks, .free p mem mem' :: es => ∀ k, (p, k) ∈ blocks →
    SameBlocks (blocks.filter (· ≠ (p, k))) mem mem' ∧ Obeys (blocks.filter (· ≠ (p, k))) es

/-- The blocks that were granted. -/
def granted (es : List HeapEvent) : List Block :=
  es.filterMap fun
    | .malloc size p _ _ => if p = 0 then none else some (p, usable size)
    | .free _ _ _ => none

/-- The addresses that were released. -/
def released (es : List HeapEvent) : List Addr :=
  es.filterMap fun
    | .malloc _ _ _ _ => none
    | .free p _ _ => some p

end SchemeOs
