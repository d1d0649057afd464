import SchemeOs.Reader.Display

/-!
# Reader/Prints — which objects are printed

The text of an object is left in the buffer as a string, and counted, exactly when a text is written
for the object and there is neither a port nor a NUL character in it.  Ports are written but not
counted, so the count of a list with ports in it is too small; a NUL ends the string too early.
-/

namespace SchemeOs.Display

variable {w u : List Char} {mem : Mem} {buf des n : ℕ} {a : Atom}

/-! ## The property -/

/-- The text of the object is left in the buffer as a string, and counted. -/
def Prints (obj : Obj) : Prop :=
  ∀ mem buf, StrAt nul (objToString mem buf obj).2 buf (text obj) ∧
    (objToString mem buf obj).1 = (text obj).length

/-- A text is written for the atom. -/
def Atom.Written : Atom → Prop
  | .undefined | .other _ => False
  | _ => True

/-- A text is written for the object. -/
def Obj.Written : Obj → Prop
  | .atom a => a.Written
  | _ => True

/-- The text of the atom is counted, and has no NUL in it. -/
def Atom.Plain : Atom → Prop
  | .char c => c ≠ nul
  | .inputPort | .outputPort => False
  | _ => True

mutual

/-- Nowhere in the object is a port or a NUL character. -/
def Obj.Plain : Obj → Prop
  | .atom a => a.Plain
  | .null => True
  | .pair car cdr => car.Plain ∧ cdr.Plain
  | .vector elems => PlainAll elems

/-- Nowhere in the objects is a port or a NUL character. -/
def PlainAll : List Obj → Prop
  | [] => True
  | obj :: elems => obj.Plain ∧ PlainAll elems

end

/-! ## Texts without NUL -/

theorem hexToAscii_ne_nul : ∀ d < 16, hexToAscii d ≠ nul := by decide

/-- What is left is still a word. -/
theorem skipZeros_lt (ct : ℕ) (hn : n < 2 ^ 32) : (skipZeros ct n).2 < 2 ^ 32 := by
  induction ct generalizing n with
  | zero => exact hn
  | succ ct ih =>
    rw [skipZeros]
    split_ifs
    · exact ih (Nat.mod_lt _ (by decide))
    · exact hn

/-- Hexadecimal digits are no NUL. -/
theorem nul_notMem_hexDigits (ct : ℕ) (hn : n < 2 ^ 32) : nul ∉ hexDigits ct n := by
  induction ct generalizing n with
  | zero => exact List.not_mem_nil
  | succ ct ih =>
    rw [hexDigits, List.mem_cons, not_or]
    exact ⟨(hexToAscii_ne_nul _ (by omega)).symm, ih (Nat.mod_lt _ (by decide))⟩

theorem nul_notMem_itoaUHex (hn : n < 2 ^ 32) : nul ∉ itoaUHex n := by
  unfold itoaUHex
  split_ifs
  · decide
  · exact nul_notMem_hexDigits _ (skipZeros_lt 8 hn)

/-- Neither are decimal ones. -/
theorem nul_notMem_itoaUDec (hn : n < 2 ^ 32) : nul ∉ itoaUDec n := by
  unfold itoaUDec
  split_ifs
  · decide
  · intro hmem
    have hall := (digits_itoaDigits (lt_itoaStart (k := 9) (n := n) (by omega))).1
    exact absurd (List.all_eq_true.mp hall _ hmem) (by decide)

/-- A number that is put into a format brings no NUL. -/
theorem nul_notMem_vsprintf (hn : n < 2 ^ 32) {fmt : List Char} (hfmt : nul ∉ fmt) :
    nul ∉ vsprintf n fmt := by
  fun_induction vsprintf n fmt with
  | case1 fmt ih =>
    simp only [List.mem_cons, not_or] at hfmt
    rw [List.mem_append, not_or]
    exact ⟨nul_notMem_itoaUDec hn, ih hfmt.2.2⟩
  | case2 fmt ih =>
    simp only [List.mem_cons, not_or] at hfmt
    rw [List.mem_append, not_or]
    exact ⟨nul_notMem_itoaUHex hn, ih hfmt.2.2⟩
  | case3 c fmt _ _ ih =>
    rw [List.mem_cons, not_or] at hfmt ⊢
    exact ⟨hfmt.1, ih hfmt.2⟩
  | case4 => exact List.not_mem_nil

theorem nul_notMem_format {fmt : String} (hfmt : nul ∉ fmt.toList) (arg : ℤ) :
    nul ∉ format fmt arg :=
  nul_notMem_vsprintf (by omega) hfmt

/-- A C string ends at the first NUL. -/
theorem nul_notMem_cstr (str : List Char) : nul ∉ cstr str := fun h => by
  simpa using List.mem_takeWhile_imp h

/-- A character is printed as it is, so that NUL is printed, too. -/
theorem nul_notMem_charText {c : Char} : nul ∉ charText c ↔ c ≠ nul := by
  unfold charText
  split_ifs with hspace hnewline
  · subst hspace
    exact iff_of_true (by simp [nul]) (by decide)
  · subst hnewline
    exact iff_of_true (by simp [nul]) (by decide)
  · have hfst : nul ≠ '#' := by decide
    have hsnd : nul ≠ '\\' := by decide
    simp only [List.mem_cons, List.not_mem_nil, or_false, hfst, hsnd, false_or]
    exact ne_comm

theorem nul_notMem_quoted (str : List Char) : nul ∉ '"' :: cstr str ++ ['"'] := by
  have hquote : nul ≠ '"' := by decide
  simp [hquote, nul_notMem_cstr str]

theorem nul_notMem_boolText (b : Bool) : nul ∉ (if b then "#t" else "#f").toList := by
  cases b
  · exact (by simp [nul] : nul ∉ "#f".toList)
  · exact (by simp [nul] : nul ∉ "#t".toList)

/-- The text of a plain atom. -/
theorem nul_notMem_atomText (h : a.Plain) : nul ∉ atomText a := by
  cases a with
  | char c => exact nul_notMem_charText.mpr h
  | env address => exact nul_notMem_format (by simp [nul]) _
  | primProc address => exact nul_notMem_format (by simp [nul]) _
  | cpdProc address => exact nul_notMem_format (by simp [nul]) _
  | int n => exact nul_notMem_format (by simp [nul]) _
  | string str => exact nul_notMem_quoted str
  | symbol str => exact nul_notMem_cstr str
  | inputPort => exact h.elim
  | outputPort => exact h.elim
  | bool b => exact nul_notMem_boolText b
  | undefined => exact List.not_mem_nil
  | other type => exact List.not_mem_nil

theorem nul_notMem_endList (h : nul ∉ w) : nul ∉ endList w := by
  have hparen : nul ≠ ')' := by decide
  rw [endList, List.mem_append, List.mem_singleton, not_or]
  exact ⟨fun hmem => h (List.dropLast_subset _ hmem), hparen⟩

theorem nul_notMem_blank : nul ∉ w ++ ' ' :: u ↔ nul ∉ w ∧ nul ∉ u := by
  have hblank : nul ≠ ' ' := by decide
  simp [hblank]

theorem nul_notMem_dotted : nul ∉ '.' :: ' ' :: w ++ [' '] ↔ nul ∉ w := by
  have hdot : nul ≠ '.' := by decide
  have hblank : nul ≠ ' ' := by decide
  simp [hdot, hblank]

theorem nul_notMem_paren : nul ∉ '(' :: w ↔ nul ∉ w := by
  have hparen : nul ≠ '(' := by decide
  simp [hparen]

theorem nul_notMem_sharp : nul ∉ '#' :: '(' :: w ↔ nul ∉ w := by
  have hsharp : nul ≠ '#' := by decide
  rw [List.mem_cons, not_or, nul_notMem_paren]
  exact and_iff_right hsharp

mutual

/-- A plain object has a text without NUL. -/
theorem nul_notMem_text : ∀ obj : Obj, obj.Plain → nul ∉ text obj
  | .atom _, h => nul_notMem_atomText h
  | .null, _ => by
    rw [text]
    simp [nul]
  | .pair car cdr, h => by
    rw [text]
    refine nul_notMem_endList (nul_notMem_paren.mpr (nul_notMem_blank.mpr ?_))
    exact ⟨nul_notMem_text car h.1, nul_notMem_cellsText cdr h.2⟩
  | .vector elems, h => by
    rw [text]
    exact nul_notMem_endList (nul_notMem_sharp.mpr (nul_notMem_elemsText elems h))

/-- The text of the cells of a list, in plain objects. -/
theorem nul_notMem_cellsText : ∀ obj : Obj, obj.Plain → nul ∉ cellsText obj
  | .atom a, h => by
    rw [cellsText]
    exact nul_notMem_dotted.mpr (nul_notMem_atomText h)
  | .null, _ => by
    rw [cellsText]
    exact List.not_mem_nil
  | .pair car cdr, h => by
    rw [cellsText]
    exact nul_notMem_blank.mpr ⟨nul_notMem_text car h.1, nul_notMem_cellsText cdr h.2⟩
  | .vector elems, h => by
    rw [cellsText]
    refine nul_notMem_dotted.mpr (nul_notMem_endList ?_)
    exact nul_notMem_sharp.mpr (nul_notMem_elemsText elems h)

/-- The text of the elements of a vector, in plain objects. -/
theorem nul_notMem_elemsText : ∀ elems : List Obj, PlainAll elems → nul ∉ elemsText elems
  | [], _ => by
    rw [elemsText]
    exact List.not_mem_nil
  | obj :: elems, h => by
    rw [elemsText]
    exact nul_notMem_blank.mpr ⟨nul_notMem_text obj h.1, nul_notMem_elemsText elems h.2⟩

end

/-! ## Counts

A printer returns the length of its text, less nine for each port in the object. -/

/-- The count for an atom. -/
theorem atomToString_count (mem : Mem) (buf : ℕ) (a : Atom) :
    (atomToString mem buf a).1 + 9 * a.ports = (atomText a).length := by
  by_cases h : a.ports = 0
  · rw [h, atomToString_eq mem buf h]
    rfl
  · cases a with
    | inputPort => rfl
    | outputPort => rfl
    | _ => exact absurd rfl h

/-- The count of a list or vector, from where its printer has come to. -/
theorem closeList_count {r : ℕ × Mem} (hne : w ≠ []) (h : r.1 + 9 * n = buf + w.length)
    (hle : buf ≤ r.1) : (closeList buf r).1 + 9 * n = (endList w).length := by
  have hlen : (endList w).length = w.length := by
    have hpos := List.length_pos_iff.mpr hne
    rw [endList, List.length_append, List.length_dropLast, List.length_singleton]
    omega
  rw [hlen]
  change r.1 - buf + 9 * n = w.length
  omega

/-- The count with the blank behind an element. -/
theorem addBlank_count (des : ℕ) {r : ℕ × Mem} (h : r.1 + 9 * n = w.length) :
    (addBlank des r).1 + 9 * n = des + (w ++ [' ']).length := by
  change des + r.1 + 1 + 9 * n = des + (w ++ [' ']).length
  rw [List.length_append, List.length_singleton]
  omega

theorem le_addBlank (des : ℕ) (r : ℕ × Mem) : des ≤ (addBlank des r).1 :=
  Nat.le_add_right_of_le (Nat.le_add_right des r.1)

mutual

/-- The count misses the nine characters of each port. -/
theorem objToString_count (mem : Mem) (buf : ℕ) : ∀ obj : Obj,
    (objToString mem buf obj).1 + 9 * obj.ports = (text obj).length
  | .atom a => by
    rw [objToString, text, Obj.ports]
    exact atomToString_count mem buf a
  | .null => by
    rw [objToString, text]
    rfl
  | .pair car cdr => by
    have hcar := addBlank_count (buf + 1)
      (objToString_count (writeAt mem buf ['(']) (buf + 1) car)
    have hle := le_addBlank (buf + 1) (objToString (writeAt mem buf ['(']) (buf + 1) car)
    rw [objToString, text, Obj.ports]
    obtain ⟨hcdr, hdes⟩ := cellsToString_count
      (addBlank (buf + 1) (objToString (writeAt mem buf ['(']) (buf + 1) car)).2
      (addBlank (buf + 1) (objToString (writeAt mem buf ['(']) (buf + 1) car)).1 cdr
    refine closeList_count (by exact List.cons_ne_nil _ _) ?_ (by omega)
    rw [List.cons_append, List.length_cons, ← length_blank]
    omega
  | .vector elems => by
    obtain ⟨helems, hdes⟩ := elemsToString_count (writeAt mem buf ['#', '(']) (buf + 2) elems
    rw [objToString, text, Obj.ports]
    refine closeList_count (List.cons_ne_nil _ _) ?_ (by omega)
    rw [List.length_cons, List.length_cons]
    omega

/-- The count for the cells of a list, and how far it has come. -/
theorem cellsToString_count (mem : Mem) (des : ℕ) : ∀ obj : Obj,
    (cellsToString mem des obj).1 + 9 * obj.ports = des + (cellsText obj).length ∧
      des ≤ (cellsToString mem des obj).1
  | .atom a => by
    have ha := addBlank_count (des + 2)
      (atomToString_count (writeAt mem des ['.', ' ']) (des + 2) a)
    have hle := le_addBlank (des + 2) (atomToString (writeAt mem des ['.', ' ']) (des + 2) a)
    rw [cellsToString, cellsText, Obj.ports]
    rw [List.cons_append, List.cons_append, List.length_cons, List.length_cons]
    omega
  | .null => by
    rw [cellsToString, cellsText, Obj.ports]
    exact ⟨rfl, le_rfl⟩
  | .pair car cdr => by
    have hcar := addBlank_count des (objToString_count mem des car)
    have hle := le_addBlank des (objToString mem des car)
    obtain ⟨hcdr, hdes⟩ := cellsToString_count (addBlank des (objToString mem des car)).2
      (addBlank des (objToString mem des car)).1 cdr
    rw [cellsToString, cellsText, Obj.ports, ← length_blank]
    omega
  | .vector elems => by
    obtain ⟨helems, hdes⟩ := elemsToString_count
      (writeAt (writeAt mem des ['.', ' ']) (des + 2) ['#', '(']) (des + 4) elems
    have hlen : (elemsToString (writeAt (writeAt mem des ['.', ' ']) (des + 2) ['#', '(']) (des + 4)
        elems).1 + 9 * portsOf elems = des + 2 + ('#' :: '(' :: elemsText elems).length := by
      rw [List.length_cons, List.length_cons]
      omega
    have hclose := closeList_count (List.cons_ne_nil _ _) hlen (by omega)
    have hblank := addBlank_count (des + 2) hclose
    rw [cellsToString, cellsText, Obj.ports]
    refine ⟨?_, (Nat.le_add_right des 2).trans (le_addBlank _ _)⟩
    rw [List.cons_append, List.cons_append, List.length_cons, List.length_cons]
    omega

/-- The count for the elements of a vector. -/
theorem elemsToString_count (mem : Mem) (des : ℕ) : ∀ elems : List Obj,
    (elemsToString mem des elems).1 + 9 * portsOf elems = des + (elemsText elems).length ∧
      des ≤ (elemsToString mem des elems).1
  | [] => by
    rw [elemsToString, elemsText, portsOf]
    exact ⟨rfl, le_rfl⟩
  | obj :: elems => by
    have hobj := addBlank_count des (objToString_count mem des obj)
    have hle := le_addBlank des (objToString mem des obj)
    obtain ⟨helems, hdes⟩ := elemsToString_count (addBlank des (objToString mem des obj)).2
      (addBlank des (objToString mem des obj)).1 elems
    rw [elemsToString, elemsText, portsOf, ← length_blank]
    omega

end

/-! ## NUL characters that are printed -/

theorem plain_of_atomText (hports : a.ports = 0) (h : nul ∉ atomText a) : a.Plain := by
  cases a with
  | char c => exact nul_notMem_charText.mp h
  | inputPort => exact absurd hports Nat.one_ne_zero
  | outputPort => exact absurd hports Nat.one_ne_zero
  | _ => trivial

theorem nul_notMem_of_endList (h : nul ∉ endList (w ++ [' '])) : nul ∉ w ++ [' '] := by
  have hblank : nul ≠ ' ' := by decide
  rw [endList, List.dropLast_concat, List.mem_append, not_or] at h
  simp [hblank, h.1]

/-- A list ends in a blank before its parenthesis is put there. -/
theorem cellsText_blank : ∀ obj, ∃ u, ' ' :: cellsText obj = u ++ [' ']
  | .atom a => ⟨' ' :: '.' :: ' ' :: atomText a, by rw [cellsText]; rfl⟩
  | .null => ⟨[], by rw [cellsText]; rfl⟩
  | .pair car cdr => by
    obtain ⟨u, hu⟩ := cellsText_blank cdr
    refine ⟨' ' :: text car ++ u, ?_⟩
    rw [cellsText, hu]
    simp
  | .vector elems =>
    ⟨' ' :: '.' :: ' ' :: endList ('#' :: '(' :: elemsText elems), by rw [cellsText]; rfl⟩

/-- So does a vector with elements. -/
theorem elemsText_blank : ∀ elems, elemsText elems = [] ∨ ∃ u, elemsText elems = u ++ [' ']
  | [] => .inl (by rw [elemsText])
  | obj :: elems => by
    right
    rw [elemsText]
    rcases elemsText_blank elems with h | ⟨u, h⟩
    · exact ⟨text obj, by rw [h]⟩
    · refine ⟨text obj ++ ' ' :: u, ?_⟩
      rw [h]
      simp

/-- A list that is printed without NUL has no NUL in its parts. -/
theorem nul_notMem_list {obj : Obj} (h : nul ∉ endList ('(' :: w ++ ' ' :: cellsText obj)) :
    nul ∉ w ∧ nul ∉ cellsText obj := by
  obtain ⟨u, hu⟩ := cellsText_blank obj
  rw [hu, ← List.append_assoc] at h
  have h := nul_notMem_of_endList h
  rw [List.append_assoc, ← hu, List.cons_append, nul_notMem_paren] at h
  exact nul_notMem_blank.mp h

/-- Nor has a vector in its elements. -/
theorem nul_notMem_vector {elems : List Obj}
    (h : nul ∉ endList ('#' :: '(' :: elemsText elems)) : nul ∉ elemsText elems := by
  rcases elemsText_blank elems with hnil | ⟨u, hu⟩
  · rw [hnil]
    exact List.not_mem_nil
  · rw [hu] at h ⊢
    have h : nul ∉ '#' :: '(' :: (u ++ [' ']) := nul_notMem_of_endList (w := '#' :: '(' :: u) h
    exact nul_notMem_sharp.mp h

mutual

/-- An object without ports that has a text without NUL is plain. -/
theorem plain_of_text : ∀ obj : Obj, obj.ports = 0 → nul ∉ text obj → obj.Plain
  | .atom a, hports, h => by
    rw [text] at h
    exact plain_of_atomText hports h
  | .null, _, _ => trivial
  | .pair car cdr, hports, h => by
    obtain ⟨hcar, hcdr⟩ := Nat.add_eq_zero_iff.mp hports
    rw [text] at h
    have h := nul_notMem_list h
    exact ⟨plain_of_text car hcar h.1, plain_of_cellsText cdr hcdr h.2⟩
  | .vector elems, hports, h => by
    rw [text] at h
    exact plain_of_elemsText elems hports (nul_notMem_vector h)

/-- A list that is printed without NUL is plain. -/
theorem plain_of_cellsText : ∀ obj : Obj, obj.ports = 0 → nul ∉ cellsText obj → obj.Plain
  | .atom a, hports, h => by
    rw [cellsText, nul_notMem_dotted] at h
    exact plain_of_atomText hports h
  | .null, _, _ => trivial
  | .pair car cdr, hports, h => by
    obtain ⟨hcar, hcdr⟩ := Nat.add_eq_zero_iff.mp hports
    rw [cellsText, nul_notMem_blank] at h
    exact ⟨plain_of_text car hcar h.1, plain_of_cellsText cdr hcdr h.2⟩
  | .vector elems, hports, h => by
    rw [cellsText, nul_notMem_dotted] at h
    exact plain_of_elemsText elems hports (nul_notMem_vector h)

/-- So is a vector. -/
theorem plain_of_elemsText : ∀ elems : List Obj, portsOf elems = 0 → nul ∉ elemsText elems →
    PlainAll elems
  | [], _, _ => trivial
  | obj :: elems, hports, h => by
    obtain ⟨hobj, helems⟩ := Nat.add_eq_zero_iff.mp hports
    rw [elemsText, nul_notMem_blank] at h
    exact ⟨plain_of_text obj hobj h.1, plain_of_elemsText elems helems h.2⟩

end

mutual

/-- A plain object has no port in it. -/
theorem Obj.Plain.ports_eq : ∀ obj : Obj, obj.Plain → obj.ports = 0
  | .atom a, h => by
    cases a with
    | inputPort => exact h.elim
    | outputPort => exact h.elim
    | _ => rfl
  | .null, _ => rfl
  | .pair car cdr, h => by
    rw [Obj.ports, Obj.Plain.ports_eq car h.1, Obj.Plain.ports_eq cdr h.2]
  | .vector elems, h => PlainAll.ports_eq elems h

theorem PlainAll.ports_eq : ∀ elems : List Obj, PlainAll elems → portsOf elems = 0
  | [], _ => rfl
  | obj :: elems, h => by
    rw [portsOf, Obj.Plain.ports_eq obj h.1, PlainAll.ports_eq elems h.2]

end

/-- What is written is ended by a NUL. -/
theorem Obj.Written.terminator_eq {obj : Obj} (h : obj.Written) : obj.terminator = [nul] := by
  cases obj with
  | atom a =>
    cases a with
    | undefined => exact h.elim
    | other type => exact h.elim
    | _ => rfl
  | _ => rfl

/-- Nothing is written for an atom of which no text is written. -/
theorem not_strAt_of_not_written {obj : Obj} (h : ¬obj.Written) :
    ∃ mem buf, ¬StrAt nul (objToString mem buf obj).2 buf (text obj) := by
  refine ⟨fun _ => 'x', 0, ?_⟩
  have hx : ¬StrAt nul (fun _ => 'x') 0 [] := by
    intro hstr
    have hnul : 'x' = nul := hstr
    exact absurd hnul (by decide)
  cases obj with
  | atom a =>
    cases a with
    | undefined => exact hx
    | other type => exact hx
    | _ => exact (h trivial).elim
  | _ => exact (h trivial).elim

/-- **A plain object is printed** as its text, with the right count. -/
theorem prints_of_plain {obj : Obj} (hwritten : obj.Written) (hplain : obj.Plain) : Prints obj := by
  intro mem buf
  rw [objToString_eq mem buf obj hplain.ports_eq, hwritten.terminator_eq]
  exact ⟨strAt_writeAt (nul_notMem_text obj hplain), rfl⟩

/-- **When the printer leaves the text of an object and counts it**: the object is not one of which
no text is written, and has no port and no NUL character in it. -/
theorem prints_iff (obj : Obj) : Prints obj ↔ obj.Written ∧ obj.Plain := by
  constructor
  · intro h
    have hwritten : obj.Written := by
      by_contra hnot
      obtain ⟨mem, buf, hstr⟩ := not_strAt_of_not_written hnot
      exact hstr (h mem buf).1
    obtain ⟨hstr, hcount⟩ := h (fun _ => nul) 0
    have hports : obj.ports = 0 := by
      have := objToString_count (fun _ => nul) 0 obj
      omega
    exact ⟨hwritten, plain_of_text obj hports hstr.notMem⟩
  · rintro ⟨hwritten, hplain⟩
    exact prints_of_plain hwritten hplain

/-- A port is written but counts for nothing. -/
theorem not_prints : ¬∀ obj, Prints obj := by
  intro h
  have hcount := (h (.atom .inputPort) (fun _ => nul) 0).2
  exact absurd hcount (by decide)

/-! ## Data -/

mutual

/-- Such data are printed as they are: they have no ports. -/
theorem plain_objOf : ∀ d, Tidy d → (objOf d).Plain
  | .char _, h => h
  | .pair car cdr, h => ⟨plain_objOf car h.1, plain_objOf cdr h.2⟩
  | .vector _ fill, h => plain_elemsOf fill h
  | .null, _ | .void, _ | .bool _, _ | .int _, _ | .symbol _, _ | .string _, _ => trivial

theorem plain_elemsOf : ∀ d, TidyList d → PlainAll (elemsOf d)
  | .null, _ => trivial
  | .pair car cdr, h => ⟨plain_objOf car h.1, plain_elemsOf cdr h.2⟩

end

/-- **The printer of data is the printer**: what it gives is left in the buffer, and counted. -/
theorem strAt_schemeObjToString {d : Datum} (h : Tidy d) (mem : Mem) (buf : ℕ) :
    StrAt nul (objToString mem buf (objOf d)).2 buf (schemeObjToString d) ∧
      (objToString mem buf (objOf d)).1 = (schemeObjToString d).length := by
  have hwritten : (objOf d).Written := by cases d <;> trivial
  rw [← text_objOf d h]
  exact prints_of_plain hwritten (plain_objOf d h) mem buf

end SchemeOs.Display
