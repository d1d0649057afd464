import SchemeOs.Machinery.Blocks
import SchemeOs.Strings.Fills
import SchemeOs.Strings.Moves
import SchemeOs.Strings.Objects

/-!
# Strings/Constructors — the functions of `sstring.c` that make strings

Each of them asks for an object and for a block for the characters.  `string` fills the block while
it looks at its arguments: when one is no character it releases what it has, with the pointer that
it has moved on.
-/

namespace SchemeOs.Strings

variable (al : Allocator) (void : Constant) {mem : Bytes} {arena : Arena} {strObj str : Addr}
  {argv : List Addr}

/-! ## What they share

Two requests, one for the object and one for its characters, and the releases when one fails. -/

/-- `scheme_alloc_obj` and `scheme_alloc`: an object, a block, and what they leave. -/
structure Request where
  strObj : Addr
  str : Addr
  arena : Arena

def request (mem : Bytes) (size : BitVec 32) : Request :=
  let (strObj, arena) := Arena.malloc al ⟨mem, []⟩ (BitVec.ofNat 32 objSize)
  let (str, arena) := arena.malloc al size
  ⟨strObj, str, arena⟩

/-- Both blocks are released, and `scheme_void` is returned. -/
def giveUp (arena : Arena) (strObj str : Addr) : Addr × Arena :=
  (void.addr, (arena.free al strObj).free al str)

/-- `SCHEME_SET_TYPE`, `SCHEME_SET_STR` and `SCHEME_SET_STR_LEN` -/
def setString (mem : Bytes) (strObj str : Addr) (len : BitVec 32) : Bytes :=
  store32 (store32 (store16 mem strObj (typeTag .string)) (strObj + 4) str) (strObj + 8) len

/-! ## The constructors -/

/-- `strlen`, which has counted to `cnt`. -/
def strlen (mem : Bytes) (cnt : BitVec 32) (str : Addr) : ℕ → Option (BitVec 32)
  | 0 => none
  | fuel + 1 => if mem str ≠ 0 then strlen mem (cnt + 1) (str + 1) fuel else some cnt

/-- `strcpy` -/
def strcpy (mem : Bytes) (dest src : Addr) : ℕ → Option Bytes
  | 0 => none
  | fuel + 1 =>
    let mem' := Function.update mem dest (mem src)
    if mem src ≠ 0 then strcpy mem' (dest + 1) (src + 1) fuel else some mem'

/-- `scheme_make_string`, which does not look for NULL. -/
def schemeMakeString (fuel : ℕ) (mem : Bytes) (chars : Addr) : Option (Addr × Arena) := do
  let len ← strlen mem 0 chars fuel
  let r := request al mem (len + 1)
  let mem ← strcpy r.arena.mem r.str chars fuel
  some (r.strObj, ⟨setString mem r.strObj r.str len, r.arena.events⟩)

/-- `scheme_alloc_string`, which does not use `fill`. -/
def schemeAllocString (mem : Bytes) (size : BitVec 32) (_fill : Byte) : Addr × Arena :=
  let r := request al mem (size + 1)
  (r.strObj, ⟨setString r.arena.mem r.strObj r.str size, r.arena.events⟩)

/-- The character for `make_string` to fill in, when the second argument is missing, is a character
or is something else. -/
def fillOf : Option Addr → Option Byte
  | none => some 97
  | some obj => if charP obj then some (charOf obj) else none

/-- `make_string`, for one or two arguments. -/
def makeString (mem : Bytes) (length : Addr) (fill : Option Addr) : Addr × Arena :=
  if schemeType mem length = typeTag .integer then
    match fillOf fill with
    | none => (void.addr, ⟨mem, []⟩)
    | some fill =>
      -- the length is read after the request for the object
      let k := intVal (al.malloc mem (BitVec.ofNat 32 objSize)).2 length
      let r := request al mem (k + 1)
      if r.strObj = 0 ∨ r.str = 0 then
        giveUp al void r.arena r.strObj r.str
      else
        let mem := memset r.arena.mem r.str (fill.signExtend 32) k
        let mem := Function.update mem (r.str + k) 0
        (r.strObj, ⟨setString mem r.strObj r.str k, r.arena.events⟩)
  else
    (void.addr, ⟨mem, []⟩)

/-- The loop of `string`. -/
def stringLoop (strObj : Addr) (arena : Arena) (str : Addr) : List Addr → Addr × Arena
  | [] => (strObj, ⟨Function.update arena.mem str 0, arena.events⟩)
  | arg :: argv =>
    if charP arg then
      stringLoop strObj ⟨Function.update arena.mem str (charOf arg), arena.events⟩ (str + 1) argv
    else
      giveUp al void arena strObj str

/-- `string` -/
def string (mem : Bytes) (argv : List Addr) : Addr × Arena :=
  let argc := BitVec.ofNat 32 argv.length
  let r := request al mem (argc + 1)
  if r.strObj = 0 ∨ r.str = 0 then
    giveUp al void r.arena r.strObj r.str
  else
    let arena := ⟨setString r.arena.mem r.strObj r.str argc, r.arena.events⟩
    stringLoop al void r.strObj arena r.str argv

/-- `string_copy`, which sets only the length. -/
def stringCopy (mem : Bytes) (arg : Addr) : Addr × Arena :=
  if schemeType mem arg = typeTag .string then
    let len := strLen (al.malloc mem (BitVec.ofNat 32 objSize)).2 arg
    let r := request al mem len
    if r.strObj = 0 ∨ r.str = 0 then
      giveUp al void r.arena r.strObj r.str
    else
      let mem := memcpy r.arena.mem r.str (strVal r.arena.mem arg) (strLen r.arena.mem arg)
      (r.strObj, ⟨store32 mem (r.strObj + 8) (strLen mem arg), r.arena.events⟩)
  else
    (void.addr, ⟨mem, []⟩)

/-! ## What `string` releases

The pointers alone, for every allocator: the working pointer has moved on with each character. -/

/-- `scheme_void` is returned, and what is released are the blocks that were granted. -/
def Releases (r : Addr × Arena) : Prop :=
  r.1 = void.addr ∧ (released r.2.events).Perm ((granted r.2.events).map Prod.fst)

/-- Both requests are granted. -/
def Grants (mem : Bytes) (size : BitVec 32) : Prop :=
  (request al mem size).strObj ≠ 0 ∧ (request al mem size).str ≠ 0

instance (size : BitVec 32) : Decidable (Grants al mem size) := inferInstanceAs (Decidable (_ ∧ _))

theorem released_giveUp (arena : Arena) (strObj str : Addr) :
    released (giveUp al void arena strObj str).2.events =
      released arena.events ++ [strObj, str] := by
  simp [giveUp, Arena.free, released]

theorem granted_giveUp (arena : Arena) (strObj str : Addr) :
    granted (giveUp al void arena strObj str).2.events = granted arena.events := by
  simp [giveUp, Arena.free, granted]

theorem released_request (mem : Bytes) (size : BitVec 32) :
    released (request al mem size).arena.events = [] := rfl

/-- What was granted, apart from NULL. -/
theorem granted_request (mem : Bytes) (size : BitVec 32) :
    (granted (request al mem size).arena.events).map Prod.fst =
      [(request al mem size).strObj, (request al mem size).str].filter (· ≠ 0) := by
  simp only [request, Arena.malloc, granted, List.nil_append, List.cons_append, List.filterMap_cons,
    List.filterMap_nil, List.filter_cons, List.filter_nil, decide_not]
  split_ifs <;> simp_all

/-- The pointer has moved on to the first argument that is no character. -/
theorem stringLoop_of_exists (strObj : Addr) (arena : Arena) (str : Addr)
    (h : ∃ w ∈ argv, charP w = false) :
    ∃ arena', arena'.events = arena.events ∧ stringLoop al void strObj arena str argv =
      giveUp al void arena' strObj (str + BitVec.ofNat 32 (argv.findIdx (charP · = false))) := by
  induction argv generalizing arena str with
  | nil =>
    obtain ⟨w, hw, -⟩ := h
    exact absurd hw List.not_mem_nil
  | cons arg argv ih =>
    by_cases harg : charP arg = true
    · have hrest : ∃ w ∈ argv, charP w = false := by
        obtain ⟨w, hw, hchar⟩ := h
        rcases List.mem_cons.mp hw with rfl | hw
        · rw [harg] at hchar
          cases hchar
        · exact ⟨w, hw, hchar⟩
      obtain ⟨arena', hevents, heq⟩ :=
        ih ⟨Function.update arena.mem str (charOf arg), arena.events⟩ (str + 1) hrest
      refine ⟨arena', hevents, ?_⟩
      rw [stringLoop, if_pos harg, heq, List.findIdx_cons]
      simp only [harg, Bool.true_eq_false, decide_false, cond_false, add_succ]
    · refine ⟨arena, rfl, ?_⟩
      rw [stringLoop, if_neg harg, List.findIdx_cons]
      simp [harg]

/-- The pointer is where it was when the first argument is no character. -/
theorem add_findIdx_eq (str : Addr) (h : ∃ w ∈ argv, charP w = false)
    (hlen : argv.length < 2 ^ 31) :
    str + BitVec.ofNat 32 (argv.findIdx (charP · = false)) = str ↔
      ∃ w ∈ argv.head?, charP w = false := by
  have hidx : argv.findIdx (charP · = false) < argv.length :=
    List.findIdx_lt_length.mpr (by simpa using h)
  have hzero : str + BitVec.ofNat 32 (argv.findIdx (charP · = false)) = str ↔
      argv.findIdx (charP · = false) = 0 := by
    generalize argv.findIdx (charP · = false) = i at hidx ⊢
    constructor <;> intro _ <;> bv_omega
  rw [hzero]
  cases argv with
  | nil => exact absurd hidx (Nat.not_lt_zero _)
  | cons arg argv => simp [List.findIdx_cons, Bool.cond_eq_ite]

/-- `string` releases the blocks as they were granted when it fails at its first argument. -/
theorem releases_iff (h : ∃ w ∈ argv, charP w = false) (hlen : argv.length < 2 ^ 31) :
    Releases void (string al void mem argv) ↔
      Grants al mem (BitVec.ofNat 32 argv.length + 1) ∧ ∃ w ∈ argv.head?, charP w = false := by
  have hgranted := granted_request al mem (BitVec.ofNat 32 argv.length + 1)
  have hreleased := released_request al mem (BitVec.ofNat 32 argv.length + 1)
  unfold string Releases Grants
  dsimp only
  generalize request al mem (BitVec.ofNat 32 argv.length + 1) = r at hgranted hreleased ⊢
  by_cases hnull : r.strObj = 0 ∨ r.str = 0
  · -- NULL is released, which was not granted
    rw [if_pos hnull, released_giveUp, granted_giveUp, hgranted, hreleased]
    refine iff_of_false (fun hback => ?_) fun hall => hnull.elim hall.1.1 hall.1.2
    have hmem := hback.2.mem_iff (a := 0)
    rcases hnull with hobj | hstr
    · simp [hobj] at hmem
    · simp [hstr] at hmem
  · obtain ⟨hobj, hstr⟩ := not_or.mp hnull
    obtain ⟨arena, hevents, heq⟩ := stringLoop_of_exists al void r.strObj
      ⟨setString r.arena.mem r.strObj r.str (BitVec.ofNat 32 argv.length), r.arena.events⟩ r.str h
    have hkept : [r.strObj, r.str].filter (· ≠ 0) = [r.strObj, r.str] := by
      simpa using ⟨hobj, hstr⟩
    rw [if_neg hnull, heq, released_giveUp, granted_giveUp, hevents, hgranted, hreleased, hkept,
      ← add_findIdx_eq r.str h hlen]
    constructor
    · rintro ⟨-, hperm⟩
      have hone := List.perm_singleton.mp ((List.perm_cons _).mp hperm)
      exact ⟨⟨hobj, hstr⟩, List.singleton_inj.mp hone⟩
    · rintro ⟨-, hadd⟩
      rw [hadd]
      exact ⟨rfl, List.Perm.refl _⟩

end SchemeOs.Strings
