import SchemeOs.Strings.Constructors

/-!
# Strings/Requests — what the constructors leave

A constructor that got its two blocks writes into these and nowhere else.
-/

namespace SchemeOs.Strings

variable {al : Allocator} {void : Constant} {mem mem' : Bytes} {strObj str x dest src : Addr}
  {size len : BitVec 32} {blocks : List Block} {es : List HeapEvent} {w : List Byte}
  {argv : List Addr}

/-! ## Objects -/

theorem charP_of_aligned (h : strObj.toNat % 8 = 0) : charP strObj = false := by
  have hbit : strObj &&& 1 = 0 := by
    refine BitVec.eq_of_toNat_eq ?_
    rw [BitVec.toNat_and]
    change strObj.toNat &&& 1 = 0
    rw [Nat.and_one_is_mod]
    omega
  rw [charP, hbit]
  rfl

theorem setString_of_not (h : ¬InRange strObj objSize x) :
    setString mem strObj str len x = mem x := by
  have h2 : ¬InRange strObj 2 x := fun hx => h (hx.mono (by decide))
  have h4 : ¬InRange (strObj + 4) 4 x :=
    fun hx => h (InRange.inside (k := 4) hx (by decide) (by decide))
  have h8 : ¬InRange (strObj + 8) 4 x :=
    fun hx => h (InRange.inside (k := 8) hx (by decide) (by decide))
  rw [setString, store32_of_not h8, store32_of_not h4, store16_of_not h2]

/-- The three fields, as they were set. -/
theorem setString_fields (mem : Bytes) (str : Addr) (len : BitVec 32) (h : charP strObj = false) :
    schemeType (setString mem strObj str len) strObj = typeTag .string ∧
      strVal (setString mem strObj str len) strObj = str ∧
        strLen (setString mem strObj str len) strObj = len := by
  have h48 : SameIn (strObj + 4) 4 (store32 (store16 mem strObj (typeTag .string)) (strObj + 4) str)
      (setString mem strObj str len) := by
    refine fun x hx => store32_of_not (fun hx' => ?_) len
    unfold InRange at hx hx'
    bv_omega
  have h0 : SameIn strObj 2 (store16 mem strObj (typeTag .string))
      (setString mem strObj str len) := by
    intro x hx
    have h4 : ¬InRange (strObj + 4) 4 x := by
      unfold InRange at hx ⊢
      bv_omega
    have h8 : ¬InRange (strObj + 8) 4 x := by
      unfold InRange at hx ⊢
      bv_omega
    rw [setString, store32_of_not h8, store32_of_not h4]
  refine ⟨?_, ?_, load32_store32 _ _ _⟩
  · rw [schemeType, h, if_neg Bool.false_ne_true, load16_congr h0, load16_store16]
  · rw [strVal, load32_congr h48, load32_store32]

/-! ## Requests

What a constructor may rely on when both of its requests are granted. -/

/-- Two blocks were granted while `blocks` were in use. -/
structure Granted (blocks : List Block) (mem : Bytes) (size : BitVec 32) (r : Request) : Prop where
  same : SameBlocks blocks mem r.arena.mem
  obj : Fresh blocks (r.strObj, objSize)
  str : Fresh ((r.strObj, objSize) :: blocks) (r.str, usable size)

theorem usable_objSize : usable (BitVec.ofNat 32 objSize) = objSize := by decide

/-- The two blocks. -/
theorem granted_of_grants (h : Grants al mem size) : granted (request al mem size).arena.events =
    [((request al mem size).strObj, objSize), ((request al mem size).str, usable size)] := by
  obtain ⟨hobj, hstr⟩ := h
  simp only [request, Arena.malloc] at hobj hstr ⊢
  simp only [granted, List.nil_append, List.cons_append, List.filterMap_cons, List.filterMap_nil,
    if_neg hobj, if_neg hstr, usable_objSize]

/-- **Requests**: when they are granted, by an allocator that keeps its promises so far. -/
theorem granted_of_obeys (h : Grants al mem size)
    (hobeys : Obeys blocks ((request al mem size).arena.events ++ es)) :
    Granted blocks mem size (request al mem size) ∧
      Obeys (((request al mem size).str, usable size) ::
        ((request al mem size).strObj, objSize) :: blocks) es := by
  obtain ⟨hobj, hstr⟩ := h
  simp only [request, Arena.malloc] at hobj hstr hobeys ⊢
  simp only [List.nil_append, List.cons_append, Obeys, usable_objSize, if_neg hobj,
    if_neg hstr] at hobeys
  obtain ⟨hsame, hfresh, hsame', hfresh', hrest⟩ := hobeys
  refine ⟨⟨?_, hfresh, hfresh'⟩, hrest⟩
  exact hsame.trans fun b hb => hsame' b (List.mem_cons_of_mem _ hb)

theorem granted_of_request (h : Grants al mem size)
    (hobeys : Obeys blocks (request al mem size).arena.events) :
    Granted blocks mem size (request al mem size) := by
  have hobeys' : Obeys blocks ((request al mem size).arena.events ++ []) := by
    rwa [List.append_nil]
  exact (granted_of_obeys h hobeys').1

/-- An allocator that grants two blocks and does not write. -/
theorem obeys_request (hmem : ∀ mem size, (al.malloc mem size).2 = mem)
    (hgrants : Grants al mem size)
    (hobj : Fresh blocks ((request al mem size).strObj, objSize))
    (hstr : Fresh (((request al mem size).strObj, objSize) :: blocks)
      ((request al mem size).str, usable size)) :
    Obeys blocks (request al mem size).arena.events := by
  obtain ⟨hobj₀, hstr₀⟩ := hgrants
  simp only [request, Arena.malloc, hmem] at hobj₀ hstr₀ hobj hstr ⊢
  simp only [List.nil_append, List.cons_append, Obeys, usable_objSize, if_neg hobj₀, if_neg hstr₀]
  exact ⟨fun _ _ _ _ => rfl, hobj, fun _ _ _ _ => rfl, hstr, trivial⟩

namespace Granted

variable {r : Request} (h : Granted blocks mem size r)

include h

theorem apart : RangesApart r.str (usable size) r.strObj objSize := h.str.apart _ List.mem_cons_self

/-- What is written into the two blocks. -/
theorem sameBlocks (hmem : ∀ x, ¬InRange r.strObj objSize x → ¬InRange r.str (usable size) x →
    mem' x = r.arena.mem x) : SameBlocks blocks mem mem' := by
  refine h.same.trans fun b hb x hx => hmem x (fun hobj => ?_) fun hstr => ?_
  · exact h.obj.apart b hb x hobj hx
  · exact h.str.apart b (List.mem_cons_of_mem _ hb) x hstr hx

/-- The two blocks, released. -/
theorem sameBlocks_free (hsize : 0 < usable size) {mem₁ mem₂ mem₃ : Bytes}
    (hobeys : Obeys ((r.str, usable size) :: (r.strObj, objSize) :: blocks)
      [.free r.strObj mem₁ mem₂, .free r.str mem₂ mem₃]) : SameBlocks blocks mem₁ mem₃ := by
  have hne : (r.strObj, objSize) ≠ (r.str, usable size) := h.str.ne hsize List.mem_cons_self
  obtain ⟨hobj, hrest⟩ := hobeys objSize (List.mem_cons_of_mem _ List.mem_cons_self)
  obtain ⟨hstr, -⟩ := hrest (usable size)
    (List.mem_filter.mpr ⟨List.mem_cons_self, decide_eq_true hne.symm⟩)
  -- the blocks in use are neither of the two
  have hmem : ∀ b ∈ blocks, b ∈ ((r.str, usable size) :: (r.strObj, objSize) :: blocks).filter
      (· ≠ (r.strObj, objSize)) := fun b hb => List.mem_filter.mpr
    ⟨List.mem_cons_of_mem _ (List.mem_cons_of_mem _ hb),
      decide_eq_true (h.obj.ne (Nat.zero_lt_succ 15) hb)⟩
  refine SameBlocks.trans (fun b hb => hobj b (hmem b hb)) fun b hb => hstr b ?_
  exact List.mem_filter.mpr ⟨hmem b hb,
    decide_eq_true (h.str.ne hsize (List.mem_cons_of_mem _ hb))⟩

end Granted

/-! ## Texts -/

/-- The text `w` is at `src`, with a NUL behind it and none in it. -/
structure TextAt (mem : Bytes) (src : Addr) (w : List Byte) : Prop where
  bytes : BytesAt mem src (w ++ [0])
  noNul : 0 ∉ w

theorem TextAt.congr (h : TextAt mem src w) (hw : w.length < 2 ^ 31)
    (hsame : SameIn src (w.length + 1) mem mem') : TextAt mem' src w :=
  ⟨h.bytes.congr (by simp) (by omega) hsame, h.noNul⟩

theorem strlen_eq (h : TextAt mem src w) (cnt : BitVec 32) (fuel : ℕ) : strlen mem cnt src fuel =
    if w.length < fuel then some (cnt + BitVec.ofNat 32 w.length) else none := by
  obtain ⟨hbytes, hnul⟩ := h
  induction fuel generalizing src cnt w with
  | zero => rfl
  | succ fuel ih =>
    rw [strlen]
    cases w with
    | nil =>
      have hend : mem src = 0 := (bytesAt_cons.mp hbytes).1
      simp [hend]
    | cons c w =>
      obtain ⟨hc, hrest⟩ := bytesAt_cons.mp hbytes
      obtain ⟨hne, hnul⟩ := not_or.mp (mt List.mem_cons.mpr hnul)
      have hfirst : mem src ≠ 0 := fun heq => hne (heq.symm.trans hc)
      have hcnt : cnt + 1 + BitVec.ofNat 32 w.length = cnt + BitVec.ofNat 32 (w.length + 1) := by
        bv_omega
      rw [if_pos hfirst, ih _ hrest hnul, List.length_cons, hcnt]
      simp only [Nat.add_lt_add_iff_right]

theorem strlen_zero (h : TextAt mem src w) (fuel : ℕ) : strlen mem 0 src fuel =
    if w.length < fuel then some (BitVec.ofNat 32 w.length) else none := by
  have hzero : (0 : BitVec 32) + BitVec.ofNat 32 w.length = BitVec.ofNat 32 w.length :=
    BitVec.zero_add _
  rw [strlen_eq h, hzero]

theorem strcpy_eq (h : TextAt mem src w) (hw : w.length < 2 ^ 31)
    (hapart : RangesApart dest (w.length + 1) src (w.length + 1)) (fuel : ℕ) :
    strcpy mem dest src fuel =
      if w.length < fuel then some (writeBytes mem dest (w ++ [0])) else none := by
  induction fuel generalizing mem dest src w with
  | zero => rfl
  | succ fuel ih =>
    obtain ⟨hbytes, hnul⟩ := h
    rw [strcpy]
    cases w with
    | nil =>
      have hend : mem src = 0 := (bytesAt_cons.mp hbytes).1
      simp [hend, writeBytes]
    | cons c w =>
      obtain ⟨hc, hrest⟩ := bytesAt_cons.mp hbytes
      obtain ⟨hne, hnul⟩ := not_or.mp (mt List.mem_cons.mpr hnul)
      have hfirst : mem src ≠ 0 := fun heq => hne (heq.symm.trans hc)
      have hout : ¬InRange (src + 1) (w.length + 1) dest := fun hx =>
        hapart dest (inRange_succ.mpr (.inl rfl)) (inRange_succ.mpr (.inr hx))
      have htext : TextAt (Function.update mem dest c) (src + 1) w :=
        TextAt.congr ⟨hrest, hnul⟩ (Nat.lt_of_succ_lt hw) (sameIn_update hout c)
      have hapart' : RangesApart (dest + 1) (w.length + 1) (src + 1) (w.length + 1) :=
        fun x hx hx' => hapart x (inRange_succ.mpr (.inr hx)) (inRange_succ.mpr (.inr hx'))
      rw [if_pos hfirst, hc, ih htext (Nat.lt_of_succ_lt hw) hapart', List.length_cons]
      simp only [Nat.add_lt_add_iff_right]
      rfl

/-! ## What is left -/

/-- The two blocks hold a string with the characters `w`, and nothing else was written. -/
structure Leaves (r : Request) (mem' : Bytes) (w : List Byte) : Prop where
  type : schemeType mem' r.strObj = typeTag .string
  val : strVal mem' r.strObj = r.str
  len : strLen mem' r.strObj = BitVec.ofNat 32 w.length
  text : BytesAt mem' r.str (w ++ [0])
  same : ∀ x, ¬InRange r.strObj objSize x → ¬InRange r.str (w.length + 1) x →
    mem' x = r.arena.mem x

section

variable {r : Request} (h : Granted blocks mem size r) (hw : w.length + 1 ≤ usable size)

include h hw

/-- First the characters, and then the fields. -/
theorem leaves_setString (hlen : len = BitVec.ofNat 32 w.length) :
    Leaves r (setString (writeBytes r.arena.mem r.str (w ++ [0])) r.strObj r.str len) w := by
  have hfits := h.str.fits
  have hapart : RangesApart r.str (w.length + 1) r.strObj objSize :=
    fun x hx => h.apart x (hx.mono hw)
  obtain ⟨htype, hval, hlen'⟩ := setString_fields (writeBytes r.arena.mem r.str (w ++ [0])) r.str
    len (charP_of_aligned h.obj.aligned)
  refine ⟨htype, hval, hlen'.trans hlen, ?_, fun x hobj hstr => ?_⟩
  · have hbytes : BytesAt (writeBytes r.arena.mem r.str (w ++ [0])) r.str (w ++ [0]) :=
      bytesAt_writeBytes (by simp only [List.length_append, List.length_singleton]; omega)
    exact hbytes.congr (n := w.length + 1) (by simp) (by omega)
      fun x hx => setString_of_not (hapart x hx)
  · rw [setString_of_not hobj, writeBytes_of_not (by simpa using hstr)]

/-- First the fields, and then the characters. -/
theorem leaves_writeBytes : Leaves r (writeBytes
    (setString r.arena.mem r.strObj r.str (BitVec.ofNat 32 w.length)) r.str (w ++ [0])) w := by
  have hfits := h.str.fits
  obtain ⟨htype, hval, hlen⟩ := setString_fields r.arena.mem r.str (BitVec.ofNat 32 w.length)
    (charP_of_aligned h.obj.aligned)
  have hsame : SameIn r.strObj objSize (setString r.arena.mem r.strObj r.str
      (BitVec.ofNat 32 w.length)) (writeBytes (setString r.arena.mem r.strObj r.str
        (BitVec.ofNat 32 w.length)) r.str (w ++ [0])) := by
    refine fun x hx => writeBytes_of_not fun hx' => h.apart x (hx'.mono ?_) hx
    simpa using hw
  refine ⟨(schemeType_congr hsame).trans htype, (strVal_congr hsame).trans hval,
    (strLen_congr hsame).trans hlen, bytesAt_writeBytes ?_, fun x hobj hstr => ?_⟩
  · simp only [List.length_append, List.length_singleton]
    omega
  · rw [writeBytes_of_not (by simpa using hstr), setString_of_not hobj]

end

/-! ## What each constructor returns

Each in terms of the bytes that it leaves, before anything is said of strings. -/

/-- What `scheme_make_string` asks for. -/
theorem schemeMakeString_events (htext : TextAt mem src w) {fuel : ℕ} {r : Addr × Arena}
    (hrun : schemeMakeString al fuel mem src = some r) :
    r.2.events = (request al mem (BitVec.ofNat 32 w.length + 1)).arena.events := by
  rw [schemeMakeString, strlen_zero htext] at hrun
  split_ifs at hrun with hfuel
  · simp only [Option.bind_eq_bind, Option.bind_some] at hrun
    obtain ⟨mem', -, heq⟩ := Option.bind_eq_some_iff.mp hrun
    cases heq
    rfl
  · cases hrun

/-- `scheme_make_string` copies a text that is not in the new block. -/
theorem schemeMakeString_eq (htext : TextAt mem src w) (hw : w.length < 2 ^ 31)
    (hmem : (src, w.length + 1) ∈ blocks)
    (h : Granted blocks mem size (request al mem (BitVec.ofNat 32 w.length + 1)))
    (hsize : w.length + 1 ≤ usable size) (fuel : ℕ) :
    let r := request al mem (BitVec.ofNat 32 w.length + 1)
    schemeMakeString al fuel mem src = if w.length < fuel then
      some (r.strObj, ⟨setString (writeBytes r.arena.mem r.str (w ++ [0])) r.strObj r.str
        (BitVec.ofNat 32 w.length), r.arena.events⟩) else none := by
  intro r
  have htext' : TextAt r.arena.mem src w := htext.congr hw (h.same _ hmem)
  have hapart : RangesApart r.str (w.length + 1) src (w.length + 1) := fun x hx =>
    h.str.apart _ (List.mem_cons_of_mem _ hmem) x (hx.mono hsize)
  rw [schemeMakeString, strlen_zero htext]
  split_ifs with hfuel
  · simp only [Option.bind_eq_bind, Option.bind_some]
    rw [strcpy_eq htext' hw hapart, if_pos hfuel]
    rfl
  · rfl

/-- `make_string` fills up to three characters in, and puts a NUL behind them. -/
theorem fill_eq (mem : Bytes) (str : Addr) (c : Byte) {k : BitVec 32} (hk : k.toNat < 4) :
    Function.update (memset mem str (c.signExtend 32) k) (str + k) 0 =
      writeBytes mem str (List.replicate k.toNat c ++ [0]) := by
  have hwritten : written k = k.toNat := by
    unfold written
    omega
  have hbyte : (c.signExtend 32).setWidth 8 = c := by
    refine BitVec.eq_of_getLsbD_eq fun i hi => ?_
    have h32 : i < 32 := by omega
    rw [BitVec.getLsbD_setWidth, BitVec.getLsbD_signExtend]
    simp [hi, h32]
  rw [memset_eq, hwritten, hbyte, repStosb_eq_writeBytes, writeBytes_append, List.length_replicate,
    BitVec.ofNat_toNat, BitVec.setWidth_eq]
  rfl

/-- `string` copies the characters of its arguments. -/
theorem stringLoop_eq (h : ∀ w ∈ argv, charP w = true) (arena : Arena) (str : Addr) :
    stringLoop al void strObj arena str argv =
      (strObj, ⟨writeBytes arena.mem str (argv.map charOf ++ [0]), arena.events⟩) := by
  induction argv generalizing arena str with
  | nil => rfl
  | cons arg argv ih =>
    rw [stringLoop, if_pos (h arg List.mem_cons_self),
      ih fun w hw => h w (List.mem_cons_of_mem _ hw)]
    rfl

/-- `string` releases the blocks when its first argument is no character. -/
theorem stringLoop_of_head (h : ∃ w ∈ argv.head?, charP w = false) (arena : Arena) (str : Addr) :
    stringLoop al void strObj arena str argv = giveUp al void arena strObj str := by
  cases argv with
  | nil => simp at h
  | cons arg argv =>
    have harg : ¬charP arg = true := by simpa using h
    rw [stringLoop, if_neg harg]

theorem string_of_chars (hgrants : Grants al mem (BitVec.ofNat 32 argv.length + 1))
    (h : ∀ w ∈ argv, charP w = true) :
    let r := request al mem (BitVec.ofNat 32 argv.length + 1)
    string al void mem argv = (r.strObj, ⟨writeBytes (setString r.arena.mem r.strObj r.str
      (BitVec.ofNat 32 argv.length)) r.str (argv.map charOf ++ [0]), r.arena.events⟩) := by
  rw [string, if_neg (not_or.mpr hgrants), stringLoop_eq h]

theorem string_of_head (hgrants : Grants al mem (BitVec.ofNat 32 argv.length + 1))
    (h : ∃ w ∈ argv.head?, charP w = false) :
    let r := request al mem (BitVec.ofNat 32 argv.length + 1)
    string al void mem argv = giveUp al void ⟨setString r.arena.mem r.strObj r.str
      (BitVec.ofNat 32 argv.length), r.arena.events⟩ r.strObj r.str := by
  rw [string, if_neg (not_or.mpr hgrants), stringLoop_of_head h]

section

variable {length : Addr} {fill : Option Addr} {c : Byte}
  (htype : schemeType mem length = typeTag .integer) (hfill : fillOf fill = some c)

include htype hfill

/-- The length is what it was before the request for the object. -/
theorem intVal_of_obeys (hmem : (length, objSize) ∈ blocks)
    (hobeys : Obeys blocks (makeString al void mem length fill).2.events) :
    intVal (al.malloc mem (BitVec.ofNat 32 objSize)).2 length = intVal mem length := by
  have hfirst : ∃ p es, (makeString al void mem length fill).2.events =
      .malloc (BitVec.ofNat 32 objSize) p mem
        (al.malloc mem (BitVec.ofNat 32 objSize)).2 :: es := by
    rw [makeString, if_pos htype, hfill]
    dsimp only
    split_ifs <;> exact ⟨_, _, rfl⟩
  obtain ⟨p, es, heq⟩ := hfirst
  rw [heq] at hobeys
  exact intVal_congr (hobeys.1 _ hmem)

theorem makeString_of_fill {k : BitVec 32}
    (hk : intVal (al.malloc mem (BitVec.ofNat 32 objSize)).2 length = k) (hlt : k.toNat < 4)
    (hgrants : Grants al mem (k + 1)) :
    let r := request al mem (k + 1)
    makeString al void mem length fill = (r.strObj, ⟨setString (writeBytes r.arena.mem r.str
      (List.replicate k.toNat c ++ [0])) r.strObj r.str k, r.arena.events⟩) := by
  rw [makeString, if_pos htype, hfill]
  dsimp only
  rw [hk, if_neg (not_or.mpr hgrants), fill_eq _ _ _ hlt]

end

end SchemeOs.Strings
