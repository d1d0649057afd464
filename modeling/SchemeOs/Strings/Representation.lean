import Mathlib.Data.List.Pairwise
import SchemeOs.Machinery.Runs
import SchemeOs.Strings.Requests

/-!
# Strings/Representation — runs of the calls that make and change strings

The state is the memory, and a record of the strings that were returned with the characters they
should have.  A string is sound when its object has the type and the fields of a string, and its
block holds the characters with a NUL behind them.  Between the calls anything can happen elsewhere.
-/

namespace SchemeOs.Strings

variable {al : Allocator} {void : Constant} {mem mem' : Bytes}

/-! ## Strings -/

/-- A string that was returned: its object, its block, and the characters it should have. -/
structure Str where
  obj : Addr
  buf : Addr
  size : ℕ
  chars : List Byte

namespace Str

def blocks (x : Str) : List Block := [(x.obj, objSize), (x.buf, x.size)]

/-- Two strings share nothing. -/
def Separate (x y : Str) : Prop := ∀ b ∈ x.blocks, ∀ c ∈ y.blocks, RangesApart b.1 b.2 c.1 c.2

/-- What `string-set!` should do: only the characters that there are can be set. -/
def setChar (x : Str) (i : ℕ) (c : Byte) : Str := { x with chars := x.chars.set i c }

/-- The representation of a string. -/
structure Sound (mem : Bytes) (x : Str) : Prop where
  type : schemeType mem x.obj = typeTag .string
  val : strVal mem x.obj = x.buf
  len : (strLen mem x.obj).toInt = x.chars.length
  room : x.chars.length + 1 ≤ x.size
  fits : x.buf.toNat + x.size ≤ 2 ^ 32
  apart : RangesApart x.buf x.size x.obj objSize
  text : BytesAt mem x.buf (x.chars ++ [0])

variable {x y : Str} {i : ℕ}

instance : Std.Symm Separate := ⟨fun _ _ h b hb c hc => (h c hc b hb).symm⟩

theorem Separate.obj_ne (h : x.Separate y) : x.obj ≠ y.obj := by
  intro heq
  have hin : InRange x.obj objSize x.obj := inRange_self (by decide)
  exact h _ List.mem_cons_self _ List.mem_cons_self x.obj hin (heq ▸ hin)

/-- A string depends on its two blocks. -/
theorem Sound.congr (h : x.Sound mem) (hsame : SameBlocks x.blocks mem mem') : x.Sound mem' := by
  have hobj : SameIn x.obj objSize mem mem' := hsame _ List.mem_cons_self
  have hbuf : SameIn x.buf x.size mem mem' := hsame _ (List.mem_cons_of_mem _ List.mem_cons_self)
  have hfits := h.fits
  exact ⟨(schemeType_congr hobj).trans h.type, (strVal_congr hobj).trans h.val,
    (congrArg _ (strLen_congr hobj)).trans h.len, h.room, hfits, h.apart,
    h.text.congr (by simpa using h.room) (by omega) hbuf⟩

/-- A character that is set. -/
theorem Sound.setChar (h : x.Sound mem) (hi : i < x.chars.length) (c : Byte) :
    (x.setChar i c).Sound (Function.update mem (x.buf + BitVec.ofNat 32 i) c) := by
  have hroom := h.room
  have hfits := h.fits
  have hin : InRange x.buf x.size (x.buf + BitVec.ofNat 32 i) := inRange_add (by omega) (by omega)
  have hobj : SameIn x.obj objSize mem (Function.update mem (x.buf + BitVec.ofNat 32 i) c) :=
    sameIn_update (h.apart _ hin) c
  have hlength : (x.chars ++ [0]).length ≤ 2 ^ 32 := by
    rw [List.length_append, List.length_singleton]
    omega
  have htext := h.text.set (i := i) (by omega) hlength c
  rw [List.set_append_left _ _ hi] at htext
  exact ⟨(schemeType_congr hobj).trans h.type, (strVal_congr hobj).trans h.val,
    ((congrArg _ (strLen_congr hobj)).trans h.len).trans (by simp [Str.setChar]),
    by simpa [Str.setChar] using hroom, hfits, h.apart, htext⟩

end Str

/-! ## States

Memory with the strings that have been returned, whose blocks are apart. -/

/-- The memory, and the strings that were returned. -/
structure State where
  mem : Bytes
  strings : List Str

namespace State

def blocks (s : State) : List Block := s.strings.flatMap Str.blocks

/-- **The invariant**: all strings are sound, and no two of them share anything. -/
structure Sound (s : State) : Prop where
  each : ∀ x ∈ s.strings, x.Sound s.mem
  own : s.strings.Pairwise Str.Separate

variable {s : State} {x y : Str} {i : ℕ}

theorem mem_blocks {b : Block} (hx : x ∈ s.strings) (hb : b ∈ x.blocks) : b ∈ s.blocks :=
  List.mem_flatMap.mpr ⟨x, hx, hb⟩

/-- What happens elsewhere. -/
theorem Sound.frame (h : s.Sound) (hsame : SameBlocks s.blocks s.mem mem') :
    State.Sound ⟨mem', s.strings⟩ :=
  ⟨fun x hx => (h.each x hx).congr fun b hb => hsame b (mem_blocks hx hb), h.own⟩

theorem Sound.separate (h : s.Sound) (hx : x ∈ s.strings) (hy : y ∈ s.strings) (hne : x ≠ y) :
    x.Separate y :=
  h.own.forall hx hy hne

/-- One string with the address of the object. -/
theorem Sound.eq_of_obj (h : s.Sound) (hx : x ∈ s.strings) (hy : y ∈ s.strings)
    (hobj : x.obj = y.obj) : x = y :=
  by_contra fun hne => (h.separate hx hy hne).obj_ne hobj

/-- A character that is set. -/
theorem Sound.setChar (h : s.Sound) (hx : x ∈ s.strings) (hi : i < x.chars.length) (c : Byte) :
    State.Sound ⟨Function.update s.mem (x.buf + BitVec.ofNat 32 i) c,
      s.strings.map fun y => if y.obj = x.obj then y.setChar i c else y⟩ := by
  have hsound := h.each x hx
  have hroom := hsound.room
  have hfits := hsound.fits
  have hin : InRange x.buf x.size (x.buf + BitVec.ofNat 32 i) := inRange_add (by omega) (by omega)
  refine ⟨fun y' hy' => ?_, ?_⟩
  · obtain ⟨y, hy, rfl⟩ := List.mem_map.mp hy'
    by_cases hobj : y.obj = x.obj
    · obtain rfl := h.eq_of_obj hy hx hobj
      simp only [if_true]
      exact hsound.setChar hi c
    · have hne : y ≠ x := fun heq => hobj (congrArg Str.obj heq)
      rw [if_neg hobj]
      refine (h.each y hy).congr fun b hb => sameIn_update (fun hb' => ?_) c
      exact h.separate hy hx hne b hb _ (List.mem_cons_of_mem _ List.mem_cons_self) _ hb' hin
  · refine List.pairwise_map.mpr (h.own.imp fun {y z} hyz => ?_)
    have hblocks (y : Str) :
        (if y.obj = x.obj then y.setChar i c else y).blocks = y.blocks := by split_ifs <;> rfl
    rw [Str.Separate, hblocks, hblocks]
    exact hyz

/-- A string that is made. -/
theorem Sound.extend {blocks : List Block} {size : BitVec 32} {r : Request} {w : List Byte}
    (h : s.Sound) (hblocks : s.blocks ⊆ blocks) (hr : Granted blocks s.mem size r)
    (hl : Leaves r mem' w) (hw : w.length < 2 ^ 31) (hsize : w.length + 1 ≤ usable size) :
    State.Sound ⟨mem', ⟨r.strObj, r.str, usable size, w⟩ :: s.strings⟩ := by
  have hsame : SameBlocks s.blocks s.mem mem' := fun b hb =>
    hr.sameBlocks (fun x hobj hstr => hl.same x hobj fun hx => hstr (hx.mono hsize)) b (hblocks hb)
  have htoNat : (BitVec.ofNat 32 w.length).toNat = w.length := Nat.mod_eq_of_lt (by omega)
  have hlen : (BitVec.ofNat 32 w.length).toInt = w.length := by
    rw [BitVec.toInt_eq_toNat_of_lt (by omega), htoNat]
  refine ⟨List.forall_mem_cons.mpr ⟨?_, (h.frame hsame).each⟩, List.pairwise_cons.mpr ⟨?_, h.own⟩⟩
  · exact ⟨hl.type, hl.val, (congrArg _ hl.len).trans hlen, hsize, hr.str.fits, hr.apart, hl.text⟩
  · intro y hy b hb c hc
    have hc' := hblocks (mem_blocks hy hc)
    simp only [Str.blocks, List.mem_cons, List.not_mem_nil, or_false] at hb
    rcases hb with rfl | rfl
    · exact hr.obj.apart c hc'
    · exact hr.str.apart c (List.mem_cons_of_mem _ hc')

end State

end SchemeOs.Strings
