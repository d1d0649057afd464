import SchemeOs.Strings.Representation

/-!
# Strings/Calls — the calls that make and change strings, one after the other

The invariant is kept by the calls that meet a condition: their requests are granted, `make-string`
is asked for less than four characters, `string` does not fail after its first argument,
`string-copy` is given no string, `string-set!` no negative index.
-/

namespace SchemeOs.Strings

/-- A call, with the text that `scheme_make_string` is given; or what happens between the calls. -/
inductive Call where
  | schemeMakeString (chars : Addr) (text : List Byte)
  | schemeAllocString (size : BitVec 32) (fill : Byte)
  | makeString (length : Addr) (fill : Option Addr)
  | string (argv : List Addr)
  | stringCopy (arg : Addr)
  | stringSet (str idx c : Addr)
  | other (mem : Bytes)

variable (al : Allocator) (void : Constant)

namespace Call

def run (fuel : ℕ) (mem : Bytes) : Call → Option (Addr × Arena)
  | schemeMakeString chars _ => Strings.schemeMakeString al fuel mem chars
  | schemeAllocString size fill => some (Strings.schemeAllocString al mem size fill)
  | makeString length fill => some (Strings.makeString al void mem length fill)
  | string argv => some (Strings.string al void mem argv)
  | stringCopy arg => some (Strings.stringCopy al void mem arg)
  | stringSet str idx c =>
    let (value, mem) := Strings.stringSet void mem str idx c
    some (value, ⟨mem, []⟩)
  | other mem => some (void.addr, ⟨mem, []⟩)

/-- The blocks in use besides those of the strings: the constant, and what the call reads. -/
def inUse : Call → List Block
  | schemeMakeString chars text => [(void.addr, objSize), (chars, text.length + 1)]
  | makeString length _ => [(void.addr, objSize), (length, objSize)]
  | stringCopy arg => [(void.addr, objSize), (arg, objSize)]
  | _ => [(void.addr, objSize)]

/-- The characters that the string should have that is returned. -/
def contents (s : State) : Call → List Byte
  | schemeMakeString _ text => text
  | schemeAllocString size fill => List.replicate size.toInt.toNat fill
  | makeString length fill =>
    List.replicate (intVal s.mem length).toInt.toNat ((fillOf fill).getD 0)
  | string argv => argv.map charOf
  | stringCopy arg => ((s.strings.find? (·.obj = arg)).map Str.chars).getD []
  | stringSet _ _ _ => []
  | other _ => []

/-- What should happen to a string. -/
def effect (mem : Bytes) : Call → Str → Str
  | stringSet str idx c, x =>
    if x.obj = str then x.setChar (intVal mem idx).toNat (charOf c) else x
  | _, x => x

/-- The text is there, an `int` counts the arguments, and what happens between the calls happens
elsewhere. -/
def Valid (s : State) : Call → Prop
  | schemeMakeString chars text => TextAt s.mem chars text
  | string argv => argv.length < 2 ^ 31
  | other mem => SameBlocks s.blocks s.mem mem
  | _ => True

/-- The condition under which a call keeps the strings sound. -/
def Fits (s : State) : Call → Prop
  | schemeMakeString _ text =>
    text.length < 2 ^ 31 ∧ Grants al s.mem (BitVec.ofNat 32 text.length + 1)
  | schemeAllocString _ _ => False
  | makeString length fill =>
    schemeType s.mem length = typeTag .integer → fillOf fill ≠ none →
      (intVal s.mem length).toNat < 4 ∧ Grants al s.mem (intVal s.mem length + 1)
  | string argv => Grants al s.mem (BitVec.ofNat 32 argv.length + 1) ∧
      ((∀ w ∈ argv, charP w = true) ∨ ∃ w ∈ argv.head?, charP w = false)
  | stringCopy arg => schemeType s.mem arg ≠ typeTag .string
  | stringSet str idx _ => (∃ x ∈ s.strings, x.obj = str) ∧ 0 ≤ (intVal s.mem idx).toInt
  | other _ => True

end Call

/-- The state after a call: when it did not return `scheme_void`, it returned a string. -/
def State.after (s : State) (call : Call) (r : Addr × Arena) : State where
  mem := r.2.mem
  strings :=
    let block := ((granted r.2.events)[1]?).getD (0, 0)
    (if r.1 = void.addr then [] else [⟨r.1, block.1, block.2, call.contents s⟩]) ++
      s.strings.map (call.effect s.mem)

/-- A call that returns, with an allocator that keeps its promises. -/
def Step (s : State) (call : Call) (t : State) : Prop :=
  call.Valid s ∧ ∃ fuel r, call.run al void fuel s.mem = some r ∧
    Obeys (call.inUse void ++ s.blocks) r.2.events ∧ t = s.after void call r

variable {al void} {s t : State} {call : Call} {mem' : Bytes} {size : BitVec 32}

/-! ## What is left after a call -/

theorem sound_after_void (hs : s.Sound) (hsame : SameBlocks s.blocks s.mem mem')
    (heffect : call.effect s.mem = id) (es : List HeapEvent) :
    (s.after void call (void.addr, ⟨mem', es⟩)).Sound := by
  have hafter : s.after void call (void.addr, ⟨mem', es⟩) = ⟨mem', s.strings⟩ := by
    simp [State.after, heffect]
  rw [hafter]
  exact hs.frame hsame

theorem sound_after_made (hs : s.Sound) (hgrants : Grants al s.mem size)
    (hr : Granted (call.inUse void ++ s.blocks) s.mem size (request al s.mem size))
    (hl : Leaves (request al s.mem size) mem' (call.contents s))
    (hw : (call.contents s).length < 2 ^ 31) (hsize : (call.contents s).length + 1 ≤ usable size)
    (heffect : call.effect s.mem = id) :
    (s.after void call ((request al s.mem size).strObj,
      ⟨mem', (request al s.mem size).arena.events⟩)).Sound := by
  have hsub : s.blocks ⊆ call.inUse void ++ s.blocks := List.subset_append_right _ _
  have hmade := hs.extend hsub hr hl hw hsize
  unfold State.after
  simp only [granted_of_grants hgrants, heffect, List.map_id, List.getElem?_cons_succ,
    List.getElem?_cons_zero, Option.getD_some]
  split_ifs with hvoid
  · exact ⟨(List.forall_mem_cons.mp hmade.each).2, (List.pairwise_cons.mp hmade.own).2⟩
  · exact hmade

/-! ## One call

One lemma for each constructor, from what `Strings/Requests` says it returns. -/

/-- The number of bytes that is asked for, for so many characters. -/
theorem le_usable_length {n : ℕ} (h : n < 2 ^ 31) : n + 1 ≤ usable (BitVec.ofNat 32 n + 1) := by
  have hn : (BitVec.ofNat 32 n + 1).toNat = n + 1 := by bv_omega
  rw [← hn]
  exact le_usable (by omega)

theorem sound_schemeMakeString {chars : Addr} {text : List Byte} (hs : s.Sound)
    (hvalid : TextAt s.mem chars text) (hfits : (Call.schemeMakeString chars text).Fits al s)
    {fuel : ℕ} {r : Addr × Arena} (hrun : schemeMakeString al fuel s.mem chars = some r)
    (hobeys : Obeys ((Call.schemeMakeString chars text).inUse void ++ s.blocks) r.2.events) :
    (s.after void (.schemeMakeString chars text) r).Sound := by
  obtain ⟨hlen, hgrants⟩ := hfits
  have hsize := le_usable_length hlen
  rw [schemeMakeString_events hvalid hrun] at hobeys
  have hr := granted_of_request hgrants hobeys
  rw [schemeMakeString_eq hvalid hlen (by simp [Call.inUse]) hr hsize] at hrun
  split_ifs at hrun
  cases hrun
  exact sound_after_made hs hgrants hr (leaves_setString hr hsize rfl) hlen hsize rfl

theorem sound_makeString {length : Addr} {fill : Option Addr} (hs : s.Sound)
    (hfits : (Call.makeString length fill).Fits al s)
    (hobeys : Obeys ((Call.makeString length fill).inUse void ++ s.blocks)
      (makeString al void s.mem length fill).2.events) :
    (s.after void (.makeString length fill) (makeString al void s.mem length fill)).Sound := by
  by_cases htype : schemeType s.mem length = typeTag .integer
  · cases hfill : fillOf fill with
    | none =>
      rw [makeString, if_pos htype, hfill]
      exact sound_after_void hs (fun _ _ _ _ => rfl) rfl _
    | some c =>
      obtain ⟨hlt, hgrants⟩ := hfits htype (by simp [hfill])
      have hk := intVal_of_obeys htype hfill (by simp [Call.inUse]) hobeys
      rw [makeString_of_fill htype hfill hk hlt hgrants] at hobeys ⊢
      have hr := granted_of_request hgrants hobeys
      have hcontents : (Call.makeString length fill).contents s =
          List.replicate (intVal s.mem length).toNat c := by
        have htoInt := BitVec.toInt_eq_toNat_of_lt (x := intVal s.mem length) (by omega)
        rw [Call.contents, hfill, htoInt, Int.toNat_natCast]
        rfl
      have hsize : (intVal s.mem length).toNat + 1 ≤ usable (intVal s.mem length + 1) := by
        have h := le_usable_length (n := (intVal s.mem length).toNat) (by omega)
        rwa [BitVec.ofNat_toNat, BitVec.setWidth_eq] at h
      refine sound_after_made hs hgrants hr ?_ ?_ ?_ rfl
      · rw [hcontents]
        exact leaves_setString hr (by simpa using hsize) (by simp)
      · rw [hcontents, List.length_replicate]
        omega
      · rw [hcontents, List.length_replicate]
        exact hsize
  · rw [makeString, if_neg htype]
    exact sound_after_void hs (fun _ _ _ _ => rfl) rfl _

theorem sound_string {argv : List Addr} (hs : s.Sound) (hlen : argv.length < 2 ^ 31)
    (hfits : (Call.string argv).Fits al s)
    (hobeys : Obeys ((Call.string argv).inUse void ++ s.blocks)
      (string al void s.mem argv).2.events) :
    (s.after void (.string argv) (string al void s.mem argv)).Sound := by
  obtain ⟨hgrants, hchars⟩ := hfits
  have hsize := le_usable_length hlen
  rcases hchars with hall | hhead
  · rw [string_of_chars hgrants hall] at hobeys ⊢
    have hr := granted_of_request hgrants hobeys
    refine sound_after_made hs hgrants hr ?_ (by simpa [Call.contents] using hlen)
      (by simpa [Call.contents] using hsize) rfl
    have hl := leaves_writeBytes (w := argv.map charOf) hr (by simpa using hsize)
    rwa [List.length_map] at hl
  · rw [string_of_head hgrants hhead] at hobeys ⊢
    obtain ⟨hr, hrest⟩ := granted_of_obeys hgrants (by simpa [giveUp, Arena.free] using hobeys)
    have hset : SameBlocks ((Call.string argv).inUse void ++ s.blocks) s.mem (setString
        (request al s.mem (BitVec.ofNat 32 argv.length + 1)).arena.mem
        (request al s.mem (BitVec.ofNat 32 argv.length + 1)).strObj
        (request al s.mem (BitVec.ofNat 32 argv.length + 1)).str (BitVec.ofNat 32 argv.length)) :=
      hr.sameBlocks fun x hobj _ => setString_of_not hobj
    have hfree := hset.trans (hr.sameBlocks_free (by omega) hrest)
    exact sound_after_void hs (fun b hb => hfree b (List.mem_append_right _ hb)) rfl _

theorem sound_stringSet {str idx c : Addr} (hs : s.Sound)
    (hfits : (Call.stringSet str idx c).Fits al s) :
    (s.after void (.stringSet str idx c) ((stringSet void s.mem str idx c).1,
      ⟨(stringSet void s.mem str idx c).2, []⟩)).Sound := by
  obtain ⟨⟨x, hx, rfl⟩, hi⟩ := hfits
  have hsound := hs.each x hx
  have hroom := hsound.room
  have hfits := hsound.fits
  have hidx := toInt_eq_toNat hi
  have hafter (mem' : Bytes) : s.after void (.stringSet x.obj idx c) (void.addr, ⟨mem', []⟩) =
      ⟨mem', s.strings.map fun y =>
        if y.obj = x.obj then y.setChar (intVal s.mem idx).toNat (charOf c) else y⟩ := by
    simp only [State.after, if_true, List.nil_append]
    rfl
  by_cases hlt : (intVal s.mem idx).toInt < (strLen s.mem x.obj).toInt
  · have hin : (intVal s.mem idx).toNat < x.chars.length := by
      rw [hsound.len] at hlt
      omega
    have hset := hs.setChar hx hin (charOf c)
    rw [BitVec.ofNat_toNat, BitVec.setWidth_eq, ← hsound.val] at hset
    rw [stringSet, if_pos hlt, hafter]
    exact hset
  · have hout : x.chars.length ≤ (intVal s.mem idx).toNat := by
      rw [hsound.len] at hlt
      omega
    have hsame : (s.strings.map fun y =>
        if y.obj = x.obj then y.setChar (intVal s.mem idx).toNat (charOf c) else y) =
          s.strings := by
      conv_rhs => rw [← List.map_id s.strings]
      refine List.map_congr_left fun y hy => ?_
      by_cases hobj : y.obj = x.obj
      · obtain rfl := hs.eq_of_obj hy hx hobj
        rw [if_pos rfl, Str.setChar, List.set_eq_of_length_le hout]
        rfl
      · rw [if_neg hobj]
        rfl
    rw [stringSet, if_neg hlt, hafter, hsame]
    exact hs

/-- **One call** that meets the condition. -/
theorem sound_of_step (hs : s.Sound) (hfits : call.Fits al s) (hstep : Step al void s call t) :
    t.Sound := by
  obtain ⟨hvalid, fuel, r, hrun, hobeys, rfl⟩ := hstep
  cases call with
  | schemeMakeString chars text => exact sound_schemeMakeString hs hvalid hfits hrun hobeys
  | schemeAllocString size fill => exact hfits.elim
  | makeString length fill =>
    cases hrun
    exact sound_makeString hs hfits hobeys
  | string argv =>
    cases hrun
    exact sound_string hs hvalid hfits hobeys
  | stringCopy arg =>
    cases hrun
    rw [stringCopy, if_neg hfits]
    exact sound_after_void hs (fun _ _ _ _ => rfl) rfl _
  | stringSet str idx c =>
    cases hrun
    exact sound_stringSet hs hfits
  | other mem =>
    cases hrun
    exact sound_after_void hs hvalid rfl _

/-! ## Runs -/

/-- No string has been returned. -/
def initial (mem : Bytes) : State := ⟨mem, []⟩

theorem sound_initial (mem : Bytes) : (initial mem).Sound :=
  ⟨fun _ hx => absurd hx List.not_mem_nil, List.Pairwise.nil⟩

/-- **The strings are sound** after any number of calls that meet the condition. -/
theorem sound_of_run {mem : Bytes} {calls : List Call}
    (h : Runs (Guarded (fun s call => call.Fits al s) (Step al void)) (initial mem) calls t) :
    t.Sound :=
  h.guarded_invariant (fun _ _ _ hs hfits hstep => sound_of_step hs hfits hstep) (sound_initial mem)

/-! ## Two calls -/

/-- An allocator that grants the blocks at 1024 and 1040, and when there is a string at 1024 those
at 1056 and 1072. -/
def next : Allocator where
  malloc mem size :=
    (if schemeType mem 1024 = typeTag .string then
      if size = BitVec.ofNat 32 objSize then 1056 else 1072
    else
      if size = BitVec.ofNat 32 objSize then 1024 else 1040, mem)
  free mem _ := mem

def letters : List Addr := [charToObj 104, charToObj 105]

/-- The string "hi". -/
def afterString : State :=
  (initial hi).after constant (.string letters) (string next constant hi letters)

theorem grants_letters : Grants next hi 3 := by decide

theorem letters_chars : ∀ w ∈ letters, charP w = true := by
  simp [letters, charP_charToObj]

theorem step_string : Step next constant (initial hi) (.string letters) afterString := by
  refine ⟨by simp [Call.Valid, letters], 0, _, rfl, ?_, rfl⟩
  change Obeys [(128, objSize)] (string next constant hi letters).2.events
  rw [string_of_chars grants_letters letters_chars]
  exact obeys_request (fun _ _ => rfl) grants_letters
    (fresh_of_le (by decide) (by decide) (by decide))
    (fresh_of_le (by decide) (by decide) (by decide))

/-- Its second character is set. -/
def afterSet : State := afterString.after constant (.stringSet 1024 32 (charToObj 33))
  ((stringSet constant afterString.mem 1024 32 (charToObj 33)).1,
    ⟨(stringSet constant afterString.mem 1024 32 (charToObj 33)).2, []⟩)

theorem sound_of_run_two : Runs (Guarded (fun s call => call.Fits next s) (Step next constant))
    (initial hi) [.string letters, .stringSet 1024 32 (charToObj 33)] afterSet ∧
      afterSet.Sound := by
  have hset : Step next constant afterString (.stringSet 1024 32 (charToObj 33)) afterSet :=
    ⟨trivial, 0, _, rfl, trivial, rfl⟩
  have hfits : (Call.stringSet 1024 32 (charToObj 33)).Fits next afterString :=
    ⟨⟨_, List.mem_cons_self, by decide⟩, by decide⟩
  have hletters : (Call.string letters).Fits next (initial hi) :=
    ⟨grants_letters, .inl letters_chars⟩
  have hrun : Runs (Guarded (fun s call => call.Fits next s) (Step next constant))
      (initial hi) [.string letters, .stringSet 1024 32 (charToObj 33)] afterSet :=
    .cons ⟨hletters, step_string⟩ (.single ⟨hfits, hset⟩)
  exact ⟨hrun, sound_of_run hrun⟩

/-- A copy of it. -/
def afterCopy : State :=
  afterString.after constant (.stringCopy 1024) (stringCopy next constant afterString.mem 1024)

theorem grants_copy : Grants next afterString.mem 2 := by decide

theorem step_stringCopy : Step next constant afterString (.stringCopy 1024) afterCopy := by
  refine ⟨trivial, 0, _, rfl, ?_, rfl⟩
  have hevents : (stringCopy next constant afterString.mem 1024).2.events =
      (request next afterString.mem 2).arena.events := by
    have htype : schemeType afterString.mem 1024 = typeTag .string := by decide
    have hlen : strLen (next.malloc afterString.mem (BitVec.ofNat 32 objSize)).2 1024 = 2 := by
      decide
    rw [stringCopy, if_pos htype]
    dsimp only
    rw [hlen, if_neg (not_or.mpr grants_copy)]
  change Obeys [(128, objSize), (1024, objSize), (1024, objSize), (1040, 8)]
    (stringCopy next constant afterString.mem 1024).2.events
  rw [hevents]
  exact obeys_request (fun _ _ => rfl) grants_copy
    (fresh_of_le (by decide) (by decide) (by decide))
    (fresh_of_le (by decide) (by decide) (by decide))

/-- What `string-copy` returns is no string. -/
theorem not_sound_of_run : ¬∀ (al : Allocator) (void : Constant) (mem : Bytes) (calls : List Call)
    (t : State), Runs (Step al void) (initial mem) calls t → t.Sound := by
  intro h
  have hsound := h next constant hi [.string letters, .stringCopy 1024] afterCopy
    (.cons step_string (.single step_stringCopy))
  have htype := (hsound.each _ List.mem_cons_self).type
  revert htype
  decide

end SchemeOs.Strings
