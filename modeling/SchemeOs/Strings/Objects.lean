import SchemeOs.Interpreter.Object
import SchemeOs.Machinery.Fields

/-!
# Strings/Objects — string objects in a memory of bytes

An object is a type and a union; for a string the union holds the address of the characters and
their number.  A character is no object but a word with the lowest bit set.  `string-ref` and
`string-set!` compare the index with the length, and not with 0.
-/

namespace SchemeOs.Strings

variable {mem mem' : Bytes} {s k x : Addr} {c : Byte} {n : ℕ} {i : ℤ}

/-! ## Words and objects -/

/-- `SCHEME_CHARP` -/
def charP (obj : Addr) : Bool := obj &&& 1 ≠ 0

/-- `SCHEME_CHAR_TO_OBJ` for a `char`, which is signed. -/
def charToObj (c : Byte) : Addr := (c.signExtend 32 <<< 1) ||| 1

/-- `SCHEME_CHAR_VAL` -/
def charOf (obj : Addr) : Byte := ((obj.sshiftRight 1) &&& 0xff).setWidth 8

/-- The number of a type. -/
def typeTag (t : SchemeType) : BitVec 16 := BitVec.ofNat 16 t.ctorIdx

/-- `SCHEME_TYPE` -/
def schemeType (mem : Bytes) (obj : Addr) : BitVec 16 :=
  if charP obj then typeTag .char else load16 mem obj

/-- `SCHEME_INT_VAL` -/
def intVal (mem : Bytes) (obj : Addr) : BitVec 32 := load32 mem (obj + 4)

/-- `SCHEME_STR_VAL` -/
def strVal (mem : Bytes) (obj : Addr) : Addr := load32 mem (obj + 4)

/-- `SCHEME_STR_LEN` -/
def strLen (mem : Bytes) (obj : Addr) : BitVec 32 := load32 mem (obj + 8)

/-- `sizeof(Scheme_obj_t)` -/
def objSize : ℕ := 16

/-- The address of a constant object.  Objects are aligned, so that it is no character. -/
structure Constant where
  addr : Addr
  aligned : charP addr = false

/-- `string_ref` -/
def stringRef (void : Constant) (mem : Bytes) (str idx : Addr) : Addr :=
  if (intVal mem idx).toInt < (strLen mem str).toInt then
    charToObj (mem (strVal mem str + intVal mem idx))
  else
    void.addr

/-- `string_set` -/
def stringSet (void : Constant) (mem : Bytes) (str idx c : Addr) : Addr × Bytes :=
  if (intVal mem idx).toInt < (strLen mem str).toInt then
    (void.addr, Function.update mem (strVal mem str + intVal mem idx) (charOf c))
  else
    (void.addr, mem)

/-! ## The property -/

/-- `s` is a string of the length `n`; its characters are not in the object itself. -/
structure IsString (mem : Bytes) (s : Addr) (n : ℕ) : Prop where
  type : schemeType mem s = typeTag .string
  len : (strLen mem s).toInt = n
  apart : RangesApart (strVal mem s) n s objSize

/-- `k` is the integer `i`; it is not among the characters of the string `s`. -/
structure IsIndex (mem : Bytes) (s : Addr) (n : ℕ) (k : Addr) (i : ℤ) : Prop where
  type : schemeType mem k = typeTag .integer
  val : (intVal mem k).toInt = i
  apart : RangesApart (strVal mem s) n k objSize

/-- Within the string a character that was set is there, and the other ones are as they were;
outside `scheme_void` is returned and nothing is changed. -/
structure GetsAndSets (void : Constant) (mem : Bytes) (s k : Addr) (n : ℕ) (i : ℤ) (c : Byte) :
    Prop where
  get (hi : 0 ≤ i) (hn : i < n) :
    stringRef void (stringSet void mem s k (charToObj c)).2 s k = charToObj c
  other (hi : 0 ≤ i) (hn : i < n) (k' : Addr) (j : ℤ) (hk : IsIndex mem s n k' j) (hj : 0 ≤ j)
    (hjn : j < n) (hne : j ≠ i) :
    stringRef void (stringSet void mem s k (charToObj c)).2 s k' = stringRef void mem s k'
  outside (h : i < 0 ∨ n ≤ i) : stringRef void mem s k = void.addr ∧
    stringSet void mem s k (charToObj c) = (void.addr, mem)

/-! ## Characters -/

theorem charOf_charToObj (c : Byte) : charOf (charToObj c) = c := by
  refine BitVec.eq_of_getLsbD_eq fun i hi => ?_
  unfold charOf charToObj
  interval_cases i <;> simp [BitVec.getElem_sshiftRight, BitVec.getElem_signExtend]

theorem charP_charToObj (c : Byte) : charP (charToObj c) = true := by
  have h : charToObj c &&& 1 = 1 := by
    refine BitVec.eq_of_getLsbD_eq fun i hi => ?_
    unfold charToObj
    interval_cases i <;> simp
  rw [charP, h]
  rfl

/-! ## Reading and writing

An index is compared with the length as a signed word, so that a negative one is in range. -/

/-- The fields of an object, when the memory changes elsewhere. -/
theorem fields_congr (h : SameIn s objSize mem mem') :
    load16 mem' s = load16 mem s ∧ load32 mem' (s + 4) = load32 mem (s + 4) ∧
      load32 mem' (s + 8) = load32 mem (s + 8) :=
  ⟨load16_congr fun x hx => h x (hx.mono (by decide)),
    load32_congr fun x hx => h x (InRange.inside (k := 4) hx (by decide) (by decide)),
    load32_congr fun x hx => h x (InRange.inside (k := 8) hx (by decide) (by decide))⟩

theorem schemeType_congr (h : SameIn s objSize mem mem') :
    schemeType mem' s = schemeType mem s := by
  rw [schemeType, schemeType, (fields_congr h).1]

theorem strVal_congr (h : SameIn s objSize mem mem') : strVal mem' s = strVal mem s :=
  (fields_congr h).2.1

theorem strLen_congr (h : SameIn s objSize mem mem') : strLen mem' s = strLen mem s :=
  (fields_congr h).2.2

theorem intVal_congr (h : SameIn s objSize mem mem') : intVal mem' s = intVal mem s :=
  (fields_congr h).2.1

theorem toInt_eq_toNat {w : BitVec 32} (h : 0 ≤ w.toInt) : w.toInt = w.toNat := by
  rw [BitVec.toInt_eq_toNat_cond] at h ⊢
  split_ifs at h ⊢ <;> omega

/-- A character of a string is in its range. -/
theorem inRange_index {w : BitVec 32} (hi : 0 ≤ w.toInt) (hn : w.toInt < n) :
    InRange x n (x + w) := by
  have hw := toInt_eq_toNat hi
  have hsub : x + w - x = w := by bv_omega
  rw [InRange, hsub]
  omega

section

variable (hs : IsString mem s n) (hk : IsIndex mem s n k i) (void : Constant) (c : Byte)

include hs hk

theorem stringRef_of_lt (hi : i < n) :
    stringRef void mem s k = charToObj (mem (strVal mem s + intVal mem k)) :=
  if_pos (by rw [hk.val, hs.len]; exact hi)

theorem stringRef_of_le (hi : n ≤ i) : stringRef void mem s k = void.addr :=
  if_neg (by rw [hk.val, hs.len]; exact Int.not_lt.mpr hi)

theorem stringSet_of_lt (hi : i < n) (w : Addr) : stringSet void mem s k w =
    (void.addr, Function.update mem (strVal mem s + intVal mem k) (charOf w)) :=
  if_pos (by rw [hk.val, hs.len]; exact hi)

theorem stringSet_of_le (hi : n ≤ i) (w : Addr) : stringSet void mem s k w = (void.addr, mem) :=
  if_neg (by rw [hk.val, hs.len]; exact Int.not_lt.mpr hi)

/-- Setting a character of the string does not change the string otherwise, nor an index. -/
theorem fields_set (hi : 0 ≤ i) (hn : i < n) {k' : Addr} {j : ℤ} (hk' : IsIndex mem s n k' j) :
    let mem' := Function.update mem (strVal mem s + intVal mem k) c
    (strVal mem' s = strVal mem s ∧ intVal mem' k' = intVal mem k') ∧
      ((strLen mem' s).toInt = n ∧ (intVal mem' k').toInt = j) := by
  intro mem'
  have hval := hk.val
  have hin : InRange (strVal mem s) n (strVal mem s + intVal mem k) :=
    inRange_index (by omega) (by omega)
  have hsame : SameIn s objSize mem mem' := sameIn_update (hs.apart _ hin) c
  have hsame' : SameIn k' objSize mem mem' := sameIn_update (hk'.apart _ hin) c
  rw [strVal_congr hsame, intVal_congr hsame', strLen_congr hsame]
  exact ⟨⟨rfl, rfl⟩, hs.len, hk'.val⟩

/-- A character that is read after one was set. -/
theorem stringRef_stringSet (hi : 0 ≤ i) (hn : i < n) {k' : Addr} {j : ℤ}
    (hk' : IsIndex mem s n k' j) (hj : j < n) :
    stringRef void (stringSet void mem s k (charToObj c)).2 s k' =
      charToObj (Function.update mem (strVal mem s + intVal mem k) c
        (strVal mem s + intVal mem k')) := by
  obtain ⟨⟨hstr, hint⟩, hlen, hval⟩ := fields_set hs hk c hi hn hk'
  rw [stringSet_of_lt hs hk void hn, charOf_charToObj, stringRef, if_pos ?_]
  · rw [hstr, hint]
  · rw [hlen, hval]
    exact hj

/-- **Getting and setting characters** agree for the indices that are not negative. -/
theorem getsAndSets_iff : GetsAndSets void mem s k n i c ↔ 0 ≤ i := by
  constructor
  · intro h
    by_contra hneg
    have hlt : i < n := by omega
    have hvoid := (h.outside (.inl (Int.not_le.mp hneg))).1
    rw [stringRef_of_lt hs hk void hlt] at hvoid
    have hchar := charP_charToObj (mem (strVal mem s + intVal mem k))
    rw [hvoid, void.aligned] at hchar
    cases hchar
  · intro hi
    refine ⟨fun _ hn => ?_, fun _ hn k' j hk' hj hjn hne => ?_, fun h => ?_⟩
    · rw [stringRef_stringSet hs hk void c hi hn hk hn, Function.update_self]
    · have hother : strVal mem s + intVal mem k' ≠ strVal mem s + intVal mem k := by
        intro heq
        have hint : intVal mem k' = intVal mem k := by bv_omega
        exact hne (by rw [← hk'.val, ← hk.val, hint])
      rw [stringRef_stringSet hs hk void c hi hn hk' hjn, stringRef_of_lt hs hk' void hjn,
        Function.update_of_ne hother]
    · have hle : n ≤ i := by omega
      exact ⟨stringRef_of_le hs hk void hle, stringSet_of_le hs hk void hle _⟩

end

/-! ## A string of two characters -/

/-- At 16 the string "hi", with its characters at 64, at 32 the integer 1 and at 48 the integer
-1. -/
def hi : Bytes := fun a =>
  match a.toNat with
  | 16 => 17
  | 20 => 64
  | 24 => 2
  | 32 => 10
  | 36 => 1
  | 48 => 10
  | 52 => 0xff
  | 53 => 0xff
  | 54 => 0xff
  | 55 => 0xff
  | 64 => 104
  | 65 => 105
  | _ => 0

/-- The constant at 128. -/
def constant : Constant := ⟨128, rfl⟩

theorem isString_hi : IsString hi 16 2 :=
  ⟨by decide, by decide, (rangesApart_of_le (by decide) (by decide)).symm⟩

theorem isIndex_one : IsIndex hi 16 2 32 1 :=
  ⟨by decide, by decide, (rangesApart_of_le (by decide) (by decide)).symm⟩

theorem isIndex_neg : IsIndex hi 16 2 48 (-1) :=
  ⟨by decide, by decide, (rangesApart_of_le (by decide) (by decide)).symm⟩

/-- The second character. -/
theorem getsAndSets_iff_one : IsString hi 16 2 ∧ IsIndex hi 16 2 32 1 ∧
    (GetsAndSets constant hi 16 32 2 1 33 ↔ (0 : ℤ) ≤ 1) :=
  ⟨isString_hi, isIndex_one, getsAndSets_iff isString_hi isIndex_one constant 33⟩

/-- The character before the first one: there is something there, and it is changed. -/
theorem not_getsAndSets : ¬∀ (void : Constant) (mem : Bytes) (s k : Addr) (n : ℕ) (i : ℤ)
    (c : Byte), IsString mem s n → IsIndex mem s n k i → GetsAndSets void mem s k n i c := by
  intro h
  have hget := (h constant hi 16 48 2 (-1) 33 isString_hi isIndex_neg).outside (.inl (by decide))
  have hchar : stringRef constant hi 16 48 = charToObj 0 := by decide
  rw [hchar] at hget
  exact absurd hget.1 (by decide)

end SchemeOs.Strings
