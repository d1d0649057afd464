import SchemeOs.Machinery.CStrings
import SchemeOs.Reader.RoundTrip

/-!
# Reader/Display — what the printer leaves in its buffer

`scheme_obj_to_string` writes the text of an object into a buffer and returns a count, by which the
list and vector printers advance.  Here the buffer is part of a memory.  Without ports in the object
its text is written, with a NUL behind it unless there is no text for such objects; the text of a
datum is what the printer of data gives.
-/

namespace SchemeOs.Display

/-! ## Objects -/

/-- An object without parts, as the printer sees it.  Addresses are printed, strings are the
characters of their buffers, and `other` is an object of a type for which `scheme_obj_to_string` has
no case, or the empty one of `scheme_void_type`.  The program has no object of that last type:
`scheme_void` and `scheme_eof` keep the type `0` of an environment, printed by its own address. -/
inductive Atom where
  | char (c : Char)
  | env (address : ℕ)
  | primProc (address : ℕ)
  | cpdProc (address : ℕ)
  | int (n : ℤ)
  | string (str : List Char)
  | symbol (str : List Char)
  | inputPort
  | outputPort
  | bool (b : Bool)
  | undefined
  | other (type : ℕ)
  deriving DecidableEq, Repr

/-- An object. -/
inductive Obj where
  | atom (a : Atom)
  | null
  | pair (car cdr : Obj)
  | vector (elems : List Obj)

/-- `'\0'` -/
def nul : Char := Char.ofNat 0

abbrev Mem := ℕ → Char

/-! ## Formatted output -/

/-- The text that `vsprintf` writes for a format with an argument of 32 bits. -/
def vsprintf (arg : ℕ) : List Char → List Char
  | '%' :: 'd' :: fmt => itoaUDec arg ++ vsprintf arg fmt
  | '%' :: 'x' :: fmt => itoaUHex arg ++ vsprintf arg fmt
  | c :: fmt => c :: vsprintf arg fmt
  | [] => []

/-- The text of a format with an argument that is passed as an `unsigned`. -/
def format (fmt : String) (arg : ℤ) : List Char := vsprintf (arg % 2 ^ 32).toNat fmt.toList

/-- `sprintf`: the count, and the memory afterwards. -/
def sprintf (mem : Mem) (buf : ℕ) (fmt : String) (arg : ℤ) : ℕ × Mem :=
  ((format fmt arg).length, writeAt mem buf (format fmt arg ++ [nul]))

/-- The characters of a buffer up to the first NUL. -/
def cstr (str : List Char) : List Char := str.takeWhile (· ≠ nul)

/-- `strcpy`, followed by `strlen` of the copy. -/
def strcpy (mem : Mem) (buf : ℕ) (str : List Char) : ℕ × Mem :=
  ((cstr str).length, writeAt mem buf (cstr str ++ [nul]))

/-! ## The printers

They append to one buffer, and return how far they have come. -/

/-- `scheme_obj_to_string` for a character. -/
def charToString (mem : Mem) (buf : ℕ) (c : Char) : ℕ × Mem :=
  let mem := writeAt mem buf ['#', '\\']
  if c = ' ' then (7, (strcpy mem (buf + 2) "space".toList).2)
  else if c = '\n' then (9, (strcpy mem (buf + 2) "newline".toList).2)
  else (3, writeAt mem (buf + 2) [c, nul])

/-- `scheme_obj_to_string` for an object without parts. -/
def atomToString (mem : Mem) (buf : ℕ) : Atom → ℕ × Mem
  | .char c => charToString mem buf c
  | .env address => sprintf mem buf "#<environment 0x%x>" address
  | .primProc address => sprintf mem buf "#<builtin 0x%x>" address
  | .cpdProc address => sprintf mem buf "#<procedure 0x%x>" address
  | .int n => sprintf mem buf "%d" n
  | .string str =>
    let r := strcpy (writeAt mem buf ['"']) (buf + 1) str
    (r.1 + 2, writeAt r.2 (buf + 1 + r.1) ['"', nul])
  | .symbol str => strcpy mem buf str
  | .inputPort => (0, (strcpy mem buf "#[port i]".toList).2)
  | .outputPort => (0, (strcpy mem buf "#[port o]".toList).2)
  | .bool b => (2, (strcpy mem buf (if b then "#t" else "#f").toList).2)
  | .undefined | .other _ => (0, mem)

/-- The end of both printers: `*(__des - 1) = ')'; *__des = '\0'; return __des - buf`. -/
def closeList (buf : ℕ) (r : ℕ × Mem) : ℕ × Mem :=
  (r.1 - buf, writeAt r.2 (r.1 - 1) [')', nul])

/-- `__des += …; *__des++ = ' '`, for a printer that was called at `__des`. -/
def addBlank (des : ℕ) (r : ℕ × Mem) : ℕ × Mem := (des + r.1 + 1, writeAt r.2 (des + r.1) [' '])

mutual

/-- `scheme_obj_to_string`, with `scheme_list_to_string` for pairs and `scheme_vector_to_string`
for vectors: the count, and the memory afterwards. -/
def objToString (mem : Mem) (buf : ℕ) : Obj → ℕ × Mem
  | .pair car cdr =>
    let r := addBlank (buf + 1) (objToString (writeAt mem buf ['(']) (buf + 1) car)
    closeList buf (cellsToString r.2 r.1 cdr)
  | .vector elems => closeList buf (elemsToString (writeAt mem buf ['#', '(']) (buf + 2) elems)
  | .null => (2, (strcpy mem buf "()".toList).2)
  | .atom a => atomToString mem buf a

/-- What `scheme_list_to_string` does from `p` on: `__des`, and the memory afterwards. -/
def cellsToString (mem : Mem) (des : ℕ) : Obj → ℕ × Mem
  | .pair car cdr =>
    let r := addBlank des (objToString mem des car)
    cellsToString r.2 r.1 cdr
  | .null => (des, mem)
  | .vector elems =>
    let mem := writeAt mem des ['.', ' ']
    addBlank (des + 2)
      (closeList (des + 2) (elemsToString (writeAt mem (des + 2) ['#', '(']) (des + 4) elems))
  | .atom a => addBlank (des + 2) (atomToString (writeAt mem des ['.', ' ']) (des + 2) a)

/-- The loop of `scheme_vector_to_string`. -/
def elemsToString (mem : Mem) (des : ℕ) : List Obj → ℕ × Mem
  | [] => (des, mem)
  | obj :: elems =>
    let r := addBlank des (objToString mem des obj)
    elemsToString r.2 r.1 elems

end

/-! ## Texts -/

/-- The text of a character. -/
def charText (c : Char) : List Char :=
  if c = ' ' then '#' :: '\\' :: "space".toList
  else if c = '\n' then '#' :: '\\' :: "newline".toList
  else ['#', '\\', c]

/-- The text of an object without parts. -/
def atomText : Atom → List Char
  | .char c => charText c
  | .env address => format "#<environment 0x%x>" address
  | .primProc address => format "#<builtin 0x%x>" address
  | .cpdProc address => format "#<procedure 0x%x>" address
  | .int n => format "%d" n
  | .string str => '"' :: cstr str ++ ['"']
  | .symbol str => cstr str
  | .inputPort => "#[port i]".toList
  | .outputPort => "#[port o]".toList
  | .bool b => (if b then "#t" else "#f").toList
  | .undefined | .other _ => []

mutual

/-- The text of an object: that of a list or vector has those of its elements in it. -/
def text : Obj → List Char
  | .pair car cdr => endList ('(' :: text car ++ ' ' :: cellsText cdr)
  | .vector elems => endList ('#' :: '(' :: elemsText elems)
  | .null => "()".toList
  | .atom a => atomText a

/-- The texts of the elements from `p` on, with a blank after each. -/
def cellsText : Obj → List Char
  | .pair car cdr => text car ++ ' ' :: cellsText cdr
  | .null => []
  | .vector elems => '.' :: ' ' :: endList ('#' :: '(' :: elemsText elems) ++ [' ']
  | .atom a => '.' :: ' ' :: atomText a ++ [' ']

/-- The texts of the elements of a vector, with a blank after each. -/
def elemsText : List Obj → List Char
  | [] => []
  | obj :: elems => text obj ++ ' ' :: elemsText elems

end

/-! ## What is written

The text, and behind it at most a NUL: the printers write nothing else into the buffer. -/

/-- The ports that the atom is. -/
def Atom.ports : Atom → ℕ
  | .inputPort | .outputPort => 1
  | _ => 0

mutual

/-- The ports in an object. -/
def Obj.ports : Obj → ℕ
  | .atom a => a.ports
  | .null => 0
  | .pair car cdr => car.ports + cdr.ports
  | .vector elems => portsOf elems

/-- The ports in objects. -/
def portsOf : List Obj → ℕ
  | [] => 0
  | obj :: elems => obj.ports + portsOf elems

end

variable {w u : List Char} {mem : Mem} {buf des n : ℕ} {a : Atom}

/-- The NUL behind a text that is written. -/
def terminator : Atom → List Char
  | .undefined | .other _ => []
  | _ => [nul]

/-- The NUL behind a text that is written. -/
def Obj.terminator : Obj → List Char
  | .atom a => Display.terminator a
  | _ => [nul]

theorem strcpy_eq (mem : Mem) (buf : ℕ) (str : List Char) :
    strcpy mem buf str = ((cstr str).length, writeAt mem buf (cstr str ++ [nul])) := rfl

theorem cstr_eq (h : ∀ c ∈ w, c ≠ nul) : cstr w = w := by
  rw [cstr, List.takeWhile_eq_self_iff]
  simpa using h

theorem charToString_eq (mem : Mem) (buf : ℕ) (c : Char) :
    charToString mem buf c = ((charText c).length, writeAt mem buf (charText c ++ [nul])) := by
  have hspace : cstr "space".toList = "space".toList := cstr_eq (by simp [nul])
  have hnewline : cstr "newline".toList = "newline".toList := cstr_eq (by simp [nul])
  have happend (v : List Char) : writeAt (writeAt mem buf ['#', '\\']) (buf + 2) v =
      writeAt mem buf ('#' :: '\\' :: v) := (writeAt_append mem buf ['#', '\\'] v).symm
  unfold charToString charText
  dsimp only
  split_ifs
  · rw [strcpy_eq, hspace, happend]
    simp
  · rw [strcpy_eq, hnewline, happend]
    simp
  · rw [happend]
    simp

theorem atomToString_string (mem : Mem) (buf : ℕ) (str : List Char) :
    atomToString mem buf (.string str) =
      ((atomText (.string str)).length, writeAt mem buf (atomText (.string str) ++ [nul])) := by
  have happend : writeAt (writeAt mem buf ['"']) (buf + 1) (cstr str ++ [nul]) =
      writeAt mem buf ('"' :: cstr str ++ [nul]) := (writeAt_append mem buf ['"'] _).symm
  have hover := writeAt_overwrite mem buf ('"' :: cstr str) [nul] nul '"'
  rw [List.length_cons, Nat.add_comm (cstr str).length, ← Nat.add_assoc] at hover
  unfold atomToString atomText
  dsimp only
  rw [strcpy_eq, happend]
  dsimp only
  rw [hover]
  simp

theorem atomToString_eq (mem : Mem) (buf : ℕ) (h : a.ports = 0) :
    atomToString mem buf a =
      ((atomText a).length, writeAt mem buf (atomText a ++ terminator a)) := by
  cases a with
  | char c => exact charToString_eq mem buf c
  | env address => rfl
  | primProc address => rfl
  | cpdProc address => rfl
  | int n => rfl
  | string str => exact atomToString_string mem buf str
  | symbol str => rfl
  | inputPort => exact absurd h Nat.one_ne_zero
  | outputPort => exact absurd h Nat.one_ne_zero
  | bool b =>
    have hcstr : cstr (if b then "#t" else "#f").toList = (if b then "#t" else "#f").toList := by
      cases b <;> exact cstr_eq (by simp [nul])
    have hlen : (if b then "#t" else "#f").toList.length = 2 := by cases b <;> rfl
    unfold atomToString atomText
    dsimp only
    rw [strcpy_eq, hcstr, hlen]
    rfl
  | undefined => rfl
  | other type => rfl

theorem terminator_cases (a : Atom) : terminator a = [] ∨ terminator a = [nul] := by
  cases a <;> first | exact .inl rfl | exact .inr rfl

theorem Obj.terminator_cases (obj : Obj) : obj.terminator = [] ∨ obj.terminator = [nul] := by
  cases obj with
  | atom a => exact Display.terminator_cases a
  | null => exact .inr rfl
  | pair car cdr => exact .inr rfl
  | vector elems => exact .inr rfl

/-- The blank comes where the text ends. -/
theorem addBlank_eq (h : u = [] ∨ u = [nul]) :
    addBlank des (w.length, writeAt mem des (w ++ u)) =
      (des + (w ++ [' ']).length, writeAt mem des (w ++ [' '])) := by
  have hlen : des + w.length + 1 = des + (w ++ [' ']).length := by
    rw [List.length_append, List.length_singleton, Nat.add_assoc]
  unfold addBlank
  dsimp only
  rcases h with rfl | rfl
  · rw [List.append_nil, ← writeAt_append, hlen]
  · rw [writeAt_overwrite, hlen]

/-- The last character is overwritten, and a NUL comes behind it. -/
theorem closeList_eq (h : w ≠ []) :
    closeList buf (buf + w.length, writeAt mem buf w) =
      ((endList w).length, writeAt mem buf (endList w ++ [nul])) := by
  obtain ⟨u, c, rfl⟩ : ∃ u c, w = u ++ [c] :=
    ⟨_, _, (List.dropLast_append_getLast h).symm⟩
  have hlen : buf + (u ++ [c]).length - 1 = buf + u.length := by
    rw [List.length_append, List.length_singleton]
    omega
  unfold closeList endList
  dsimp only
  rw [hlen, writeAt_overwrite, List.dropLast_concat, List.append_assoc]
  simp

/-- An element with its blank, and what is written behind it. -/
theorem writeAt_blank (mem : Mem) (des : ℕ) (w u : List Char) :
    writeAt (writeAt mem des (w ++ [' '])) (des + (w ++ [' ']).length) u =
      writeAt mem des (w ++ ' ' :: u) := by
  rw [← writeAt_append, List.append_assoc]
  rfl

theorem length_blank (w u : List Char) :
    (w ++ [' ']).length + u.length = (w ++ ' ' :: u).length := by
  rw [← List.length_append, List.append_assoc]
  rfl

theorem vector_eq (mem : Mem) (buf : ℕ) (w : List Char) :
    closeList buf (buf + 2 + w.length, writeAt (writeAt mem buf ['#', '(']) (buf + 2) w) =
      ((endList ('#' :: '(' :: w)).length,
        writeAt mem buf (endList ('#' :: '(' :: w) ++ [nul])) := by
  have hlen : buf + 2 + w.length = buf + ('#' :: '(' :: w).length := by
    rw [List.length_cons, List.length_cons]
    omega
  have hmem : writeAt (writeAt mem buf ['#', '(']) (buf + 2) w =
      writeAt mem buf ('#' :: '(' :: w) := rfl
  rw [hlen, hmem, closeList_eq (List.cons_ne_nil _ _)]

/-- A part behind a dot. -/
theorem dotted_eq (mem : Mem) (des : ℕ) (h : u = [] ∨ u = [nul]) :
    addBlank (des + 2) (w.length, writeAt (writeAt mem des ['.', ' ']) (des + 2) (w ++ u)) =
      (des + ('.' :: ' ' :: w ++ [' ']).length, writeAt mem des ('.' :: ' ' :: w ++ [' '])) := by
  have hlen : des + 2 + (w ++ [' ']).length = des + ('.' :: ' ' :: w ++ [' ']).length := by
    rw [List.cons_append, List.cons_append, List.length_cons, List.length_cons]
    omega
  rw [addBlank_eq h, hlen]
  rfl

mutual

/-- **What the printer writes** for an object without ports. -/
theorem objToString_eq (mem : Mem) (buf : ℕ) : ∀ obj : Obj, obj.ports = 0 →
    objToString mem buf obj =
      ((text obj).length, writeAt mem buf (text obj ++ obj.terminator))
  | .atom a, h => atomToString_eq mem buf h
  | .null, _ => by
    have hcstr : cstr "()".toList = "()".toList := cstr_eq (by simp [nul])
    rw [objToString, strcpy_eq, hcstr]
    rfl
  | .pair car cdr, h => by
    obtain ⟨hcar, hcdr⟩ := Nat.add_eq_zero_iff.mp h
    have hlen : buf + 1 + (text car ++ [' ']).length + (cellsText cdr).length =
        buf + ('(' :: text car ++ ' ' :: cellsText cdr).length := by
      rw [Nat.add_assoc, length_blank, List.cons_append, List.length_cons]
      omega
    have hmem : writeAt (writeAt mem buf ['(']) (buf + 1) (text car ++ ' ' :: cellsText cdr) =
        writeAt mem buf ('(' :: text car ++ ' ' :: cellsText cdr) := rfl
    rw [objToString, objToString_eq _ _ car hcar, addBlank_eq car.terminator_cases]
    dsimp only
    rw [cellsToString_eq _ _ cdr hcdr, writeAt_blank, hlen, hmem,
      closeList_eq (by exact List.cons_ne_nil _ _)]
    rfl
  | .vector elems, h => by
    rw [objToString, elemsToString_eq _ _ elems h, vector_eq]
    rfl

theorem cellsToString_eq (mem : Mem) (des : ℕ) : ∀ obj : Obj, obj.ports = 0 →
    cellsToString mem des obj = (des + (cellsText obj).length, writeAt mem des (cellsText obj))
  | .atom a, h => by
    rw [cellsToString, atomToString_eq _ _ h, dotted_eq mem des (terminator_cases a)]
    rfl
  | .null, _ => rfl
  | .pair car cdr, h => by
    obtain ⟨hcar, hcdr⟩ := Nat.add_eq_zero_iff.mp h
    rw [cellsToString, objToString_eq _ _ car hcar, addBlank_eq car.terminator_cases]
    dsimp only
    rw [cellsToString_eq _ _ cdr hcdr, writeAt_blank, Nat.add_assoc, length_blank]
    rfl
  | .vector elems, h => by
    rw [cellsToString, elemsToString_eq _ _ elems h, vector_eq, dotted_eq mem des (.inr rfl)]
    rfl

theorem elemsToString_eq (mem : Mem) (des : ℕ) : ∀ elems : List Obj, portsOf elems = 0 →
    elemsToString mem des elems =
      (des + (elemsText elems).length, writeAt mem des (elemsText elems))
  | [], _ => rfl
  | obj :: elems, h => by
    obtain ⟨hobj, helems⟩ := Nat.add_eq_zero_iff.mp h
    rw [elemsToString, objToString_eq _ _ obj hobj, addBlank_eq obj.terminator_cases]
    dsimp only
    rw [elemsToString_eq _ _ elems helems, writeAt_blank, Nat.add_assoc, length_blank]
    rfl

end

/-! ## Data -/

mutual

/-- The object that a datum is built as. -/
def objOf : Datum → Obj
  | .null => .null
  | .void => .atom (.env schemeVoidAddress)
  | .bool b => .atom (.bool b)
  | .int n => .atom (.int n)
  | .char c => .atom (.char c)
  | .symbol name => .atom (.symbol name)
  | .string text => .atom (.string text)
  | .pair car cdr => .pair (objOf car) (objOf cdr)
  | .vector _ fill => .vector (elemsOf fill)

/-- The elements of a vector, from the list that fills it. -/
def elemsOf : Datum → List Obj
  | .pair car cdr => objOf car :: elemsOf cdr
  | _ => []

end

mutual

/-- No string, name or character has a NUL, and vectors are filled from lists. -/
def Tidy : Datum → Prop
  | .char c => c ≠ nul
  | .symbol name => ∀ c ∈ name, c ≠ nul
  | .string text => ∀ c ∈ text, c ≠ nul
  | .pair car cdr => Tidy car ∧ Tidy cdr
  | .vector _ fill => TidyList fill
  | _ => True

/-- The datum is a list of such data. -/
def TidyList : Datum → Prop
  | .null => True
  | .pair car cdr => Tidy car ∧ TidyList cdr
  | _ => False

end

theorem vsprintf_env (n : ℕ) :
    vsprintf n "#<environment 0x%x>".toList = "#<environment 0x".toList ++ itoaUHex n ++ ['>'] := by
  simp [vsprintf]

/-- The text that `sprintf` writes for an environment. -/
theorem format_env (address : ℕ) : format "#<environment 0x%x>" address = envText address := by
  have hmod : ((address : ℤ) % 2 ^ 32).toNat = address % 2 ^ 32 := by omega
  unfold format envText
  rw [hmod]
  exact vsprintf_env _

theorem charText_eq (c : Char) : charText c = SchemeOs.atomToString (.char c) := by
  by_cases hspace : c = ' '
  · subst hspace
    rfl
  · by_cases hnewline : c = '\n'
    · subst hnewline
      rfl
    · rw [charText, if_neg hspace, if_neg hnewline, SchemeOs.atomToString]
      · exact fun heq => hspace heq
      · exact fun heq => hnewline heq

theorem atomText_objOf {d : Datum} (h : Tidy d) (hatom : ∃ a, objOf d = .atom a) :
    text (objOf d) = SchemeOs.atomToString d := by
  cases d with
  | null => obtain ⟨a, ha⟩ := hatom; cases ha
  | void => exact format_env schemeVoidAddress
  | bool b => cases b <;> rfl
  | int n => exact List.append_nil _
  | char c => exact charText_eq c
  | symbol name => exact cstr_eq h
  | string str =>
    change '"' :: cstr str ++ ['"'] = _
    rw [cstr_eq h]
    rfl
  | pair car cdr => obtain ⟨a, ha⟩ := hatom; cases ha
  | vector n fill => obtain ⟨a, ha⟩ := hatom; cases ha

theorem cellsText_atom {d : Datum} (h : Tidy d) (hatom : ∃ a, objOf d = .atom a) :
    cellsText (objOf d) = '.' :: ' ' :: SchemeOs.atomToString d ++ [' '] := by
  rw [← atomText_objOf h hatom]
  obtain ⟨a, ha⟩ := hatom
  rw [ha, cellsText, text]

mutual

/-- The text of the object is what the printer of data gives. -/
theorem text_objOf : ∀ d, Tidy d → text (objOf d) = schemeObjToString d
  | .null, _ => by
    rw [objOf, text]
    rfl
  | .void, h => atomText_objOf h ⟨_, rfl⟩
  | .bool _, h => atomText_objOf h ⟨_, rfl⟩
  | .int _, h => atomText_objOf h ⟨_, rfl⟩
  | .char _, h => atomText_objOf h ⟨_, rfl⟩
  | .symbol _, h => atomText_objOf h ⟨_, rfl⟩
  | .string _, h => atomText_objOf h ⟨_, rfl⟩
  | .pair car cdr, h => by
    rw [objOf, text, schemeObjToString, text_objOf car h.1, cellsText_objOf cdr h.2]
  | .vector n fill, h => by
    rw [objOf, text, schemeObjToString, elemsText_elemsOf fill h]

theorem cellsText_objOf : ∀ d, Tidy d → cellsText (objOf d) = SchemeOs.cellsToString d
  | .null, _ => by
    rw [objOf, cellsText]
    rfl
  | .pair car cdr, h => by
    rw [objOf, cellsText, SchemeOs.cellsToString, text_objOf car h.1, cellsText_objOf cdr h.2]
  | .vector n fill, h => by
    rw [objOf, cellsText, SchemeOs.cellsToString, elemsText_elemsOf fill h]
  | .void, h => cellsText_atom h ⟨_, rfl⟩
  | .bool _, h => cellsText_atom h ⟨_, rfl⟩
  | .int _, h => cellsText_atom h ⟨_, rfl⟩
  | .char _, h => cellsText_atom h ⟨_, rfl⟩
  | .symbol _, h => cellsText_atom h ⟨_, rfl⟩
  | .string _, h => cellsText_atom h ⟨_, rfl⟩

theorem elemsText_elemsOf : ∀ d, TidyList d → elemsText (elemsOf d) = SchemeOs.cellsToString d
  | .null, _ => rfl
  | .pair car cdr, h => by
    rw [elemsOf, elemsText, SchemeOs.cellsToString, text_objOf car h.1, elemsText_elemsOf cdr h.2]

end

end SchemeOs.Display
