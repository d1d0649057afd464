import SchemeOs.Reader.Prints

/-!
# Reader/Formats — `vsprintf`

The loop of `vsprintf` moves its scan pointer in the loop header and once more in the directive
switch, where nothing looks for the end of the format: a percent sign just before the NUL takes the
loop past it.  With any other format the expansion is written, and counted.

Format and strings are in memory; the buffer is an object of its own, and the arguments are the
words of the `va_list`.
-/

namespace SchemeOs.Format

open Display

/-! ## The function -/

/-- The registers of `vsprintf` other than its scan pointer, and the buffer. -/
structure Output where
  str : ℕ
  ct : ℕ
  buf : Mem

/-- `*str++ = c; ct++` -/
def Output.put (o : Output) (c : Char) : Output :=
  ⟨o.str + 1, o.ct + 1, Function.update o.buf o.str c⟩

/-- `_itoaU`; `__itoaU_oct` is empty. -/
def itoaU (numb : ℕ) (buf : Mem) (str radix : ℕ) : Mem :=
  if radix = 8 then buf
  else if radix = 16 then writeAt buf str (itoaUHex numb ++ [nul])
  else writeAt buf str (itoaUDec numb ++ [nul])

/-- `while (*str) { str++; ct++; }` -/
def skipText : ℕ → Output → Option Output
  | 0, _ => none
  | fuel + 1, o =>
    if o.buf o.str = nul then some o else skipText fuel { o with str := o.str + 1, ct := o.ct + 1 }

/-- `while ((*str++ = *pstr++) != 0) ct++;` and `str--` -/
def copyText (mem : Mem) : ℕ → ℕ → Output → Option Output
  | 0, _, _ => none
  | fuel + 1, pstr, o =>
    if mem pstr = nul then some { o with buf := Function.update o.buf o.str nul }
    else copyText mem fuel (pstr + 1) (o.put (mem pstr))

/-- `va_arg`: the next word. -/
def vaArg {α : Type} (ap : List ℕ) (f : ℕ → Option α) : Option (α × List ℕ) :=
  match ap with
  | [] => none
  | n :: ap => (f n).map fun a => (a, ap)

/-- The switch, on the character `c` behind the percent sign. -/
def directive (mem : Mem) (fuel : ℕ) (c : Char) (o : Output) (ap : List ℕ) :
    Option (Output × List ℕ) :=
  match c with
  | '%' => some (o.put '%', ap)
  | 'd' | 'i' => vaArg ap fun n => skipText fuel { o with buf := itoaU n o.buf o.str 10 }
  | 'c' => vaArg ap fun n => some (o.put (Char.ofNat (n % 2 ^ 8)))
  | 's' => vaArg ap fun pstr => copyText mem fuel pstr o
  | 'x' => vaArg ap fun n => skipText fuel { o with buf := itoaU n o.buf o.str 16 }
  | _ => some (o, ap)

/-- The loop of `vsprintf` from the scan pointer `p` on: the addresses of the format that it reads,
and the count with the buffer afterwards. -/
def loop (mem : Mem) : ℕ → ℕ → Output → List ℕ → List ℕ × Option (ℕ × Mem)
  | 0, _, _, _ => ([], none)
  | fuel + 1, p, o, ap =>
    if mem p = nul then ([p], some (o.ct, Function.update o.buf o.str nul))
    else if mem p ≠ '%' then
      let r := loop mem fuel (p + 1) (o.put (mem p)) ap
      (p :: r.1, r.2)
    else match directive mem fuel (mem (p + 1)) o ap with
      | none => ([p, p + 1], none)
      | some (o, ap) =>
        let r := loop mem fuel (p + 2) o ap
        (p :: (p + 1) :: r.1, r.2)

/-- `vsprintf` -/
def vsprintf (mem : Mem) (fuel : ℕ) (buf : Mem) (str format : ℕ) (ap : List ℕ) :
    List ℕ × Option (ℕ × Mem) :=
  loop mem fuel format ⟨str, 0, buf⟩ ap

/-! ## What it is for

The texts that formats expand to with their arguments, and what a caller relies on. -/

/-- The expansion of the format `w`, with the arguments `ap`, which match it, is `u`. -/
inductive Expands (mem : Mem) : List Char → List ℕ → List Char → Prop where
  | nil {ap : List ℕ} : Expands mem [] ap []
  | lit {c : Char} {w u : List Char} {ap : List ℕ} :
      c ≠ '%' → Expands mem w ap u → Expands mem (c :: w) ap (c :: u)
  | percent {w u : List Char} {ap : List ℕ} :
      Expands mem w ap u → Expands mem ('%' :: '%' :: w) ap ('%' :: u)
  | dec {c : Char} {n : ℕ} {w u : List Char} {ap : List ℕ} :
      c = 'd' ∨ c = 'i' → n < 2 ^ 32 → Expands mem w ap u →
        Expands mem ('%' :: c :: w) (n :: ap) (itoaUDec n ++ u)
  | char {n : ℕ} {w u : List Char} {ap : List ℕ} :
      Expands mem w ap u →
        Expands mem ('%' :: 'c' :: w) (n :: ap) (Char.ofNat (n % 2 ^ 8) :: u)
  | string {pstr : ℕ} {v w u : List Char} {ap : List ℕ} :
      StrAt nul mem pstr v → Expands mem w ap u →
        Expands mem ('%' :: 's' :: w) (pstr :: ap) (v ++ u)
  | hex {n : ℕ} {w u : List Char} {ap : List ℕ} :
      n < 2 ^ 32 → Expands mem w ap u →
        Expands mem ('%' :: 'x' :: w) (n :: ap) (itoaUHex n ++ u)
  | unknown {c : Char} {w u : List Char} {ap : List ℕ} :
      c ∉ ['%', 'd', 'i', 'c', 's', 'x'] → Expands mem w ap u →
        Expands mem ('%' :: c :: w) ap u
  | dangling {ap : List ℕ} : Expands mem ['%'] ap []

/-- The format ends in a percent sign that no other one stands before as its own. -/
def EndsOpen : List Char → Bool
  | [] => false
  | ['%'] => true
  | '%' :: _ :: w => EndsOpen w
  | _ :: w => EndsOpen w

/-- A call with the format at `fmt`, of length `len`, leaves `u` with a NUL in any buffer and
returns its length. -/
def Leaves (mem : Mem) (fmt : ℕ) (ap : List ℕ) (u : List Char) : Prop :=
  ∀ str buf, ∃ N, ∀ fuel, N ≤ fuel →
    (vsprintf mem fuel buf str fmt ap).2 = some (u.length, writeAt buf str (u ++ [nul]))

/-- A call reads no more of the format than its `len` characters and the NUL. -/
def StaysInside (mem : Mem) (fmt len : ℕ) (ap : List ℕ) : Prop :=
  ∀ str buf fuel, ∀ p ∈ (vsprintf mem fuel buf str fmt ap).1, fmt ≤ p ∧ p ≤ fmt + len

/-! ## Putting characters -/

variable {mem buf : Mem} {o : Output} {c : Char} {t u v w : List Char} {ap : List ℕ}
  {p str pstr n fuel : ℕ}

/-- The characters `u` have been put, from `str` on; the next cell can hold anything. -/
structure Output.Has (o : Output) (buf : Mem) (str : ℕ) (u : List Char) : Prop where
  str_eq : o.str = str + u.length
  ct_eq : o.ct = u.length
  update_eq : ∀ c, Function.update o.buf o.str c = writeAt buf str (u ++ [c])

namespace Output.Has

theorem start (buf : Mem) (str : ℕ) : (⟨str, 0, buf⟩ : Output).Has buf str [] :=
  ⟨rfl, rfl, fun _ => rfl⟩

/-- What is written from the next cell on comes behind the characters. -/
theorem write (h : o.Has buf str u) (c : Char) (t : List Char) :
    writeAt o.buf o.str (c :: t) = writeAt buf str (u ++ c :: t) := by
  have hlen : o.str + 1 = str + (u ++ [c]).length := by
    rw [h.str_eq, List.length_append, List.length_singleton, Nat.add_assoc]
  rw [writeAt, h.update_eq, hlen, ← writeAt_append, List.append_assoc]
  rfl

theorem put (h : o.Has buf str u) (c : Char) : (o.put c).Has buf str (u ++ [c]) where
  str_eq := by
    rw [Output.put, h.str_eq, List.length_append, List.length_singleton, Nat.add_assoc]
  ct_eq := by rw [Output.put, h.ct_eq, List.length_append, List.length_singleton]
  update_eq d := by
    have hwrite := h.write c [d]
    rw [List.append_assoc]
    exact hwrite

/-- A NUL in the next cell is overwritten. -/
theorem terminate (h : o.Has buf str u) (c : Char) :
    ({ o with buf := Function.update o.buf o.str c } : Output).Has buf str u where
  str_eq := h.str_eq
  ct_eq := h.ct_eq
  update_eq d := by
    rw [← h.update_eq]
    exact Function.update_idem ..

/-- A text with a NUL behind it. -/
theorem text (h : o.Has buf str u) (t : List Char) :
    (⟨o.str + t.length, o.ct + t.length, writeAt o.buf o.str (t ++ [nul])⟩ : Output).Has buf str
      (u ++ t) where
  str_eq := by rw [h.str_eq, List.length_append, Nat.add_assoc]
  ct_eq := by rw [h.ct_eq, List.length_append]
  update_eq d := by
    have hover : Function.update (writeAt o.buf o.str (t ++ [nul])) (o.str + t.length) d =
        writeAt o.buf o.str (t ++ [d]) := writeAt_overwrite o.buf o.str t [] nul d
    rw [hover, List.append_assoc]
    cases t with
    | nil => exact h.write d []
    | cons c t => exact h.write c (t ++ [d])

end Output.Has

/-- The pointer goes to the end of a text. -/
theorem skipText_eq (ht : StrAt nul o.buf o.str t) (hf : t.length < fuel) :
    skipText fuel o = some ⟨o.str + t.length, o.ct + t.length, o.buf⟩ := by
  induction t generalizing o fuel with
  | nil =>
    obtain ⟨fuel, rfl⟩ := Nat.exists_eq_succ_of_ne_zero (Nat.ne_of_gt hf)
    rw [skipText, if_pos (show o.buf o.str = nul from ht)]
    rfl
  | cons c t ih =>
    obtain ⟨fuel, rfl⟩ := Nat.exists_eq_succ_of_ne_zero (Nat.ne_zero_of_lt hf)
    rw [skipText, if_neg (by rw [ht.1]; exact ht.2.1), ih ht.2.2 (Nat.lt_of_succ_lt_succ hf),
      List.length_cons, Nat.add_assoc, Nat.add_assoc, Nat.add_comm 1]

/-- The numeral that `_itoaU` leaves is passed over. -/
theorem skipText_text (ho : o.Has buf str u) (ht : nul ∉ t) :
    ∃ o' : Output, o'.Has buf str (u ++ t) ∧ ∀ fuel, t.length < fuel →
      skipText fuel { o with buf := writeAt o.buf o.str (t ++ [nul]) } = some o' :=
  ⟨_, ho.text t, fun _ hf => skipText_eq (strAt_writeAt ht) hf⟩

/-- The string at `pstr` is copied. -/
theorem copyText_eq (ho : o.Has buf str u) (hv : StrAt nul mem pstr v) :
    ∃ o' : Output, o'.Has buf str (u ++ v) ∧ ∀ fuel, v.length < fuel →
      copyText mem fuel pstr o = some o' := by
  induction v generalizing o u pstr with
  | nil =>
    refine ⟨_, (List.append_nil u).symm ▸ ho.terminate nul, fun fuel hf => ?_⟩
    obtain ⟨fuel, rfl⟩ := Nat.exists_eq_succ_of_ne_zero (Nat.ne_of_gt hf)
    rw [copyText, if_pos (show mem pstr = nul from hv)]
  | cons c v ih =>
    obtain ⟨o', hhas, hcopy⟩ := ih (ho.put c) hv.2.2
    rw [List.append_assoc] at hhas
    refine ⟨o', hhas, fun fuel hf => ?_⟩
    obtain ⟨fuel, rfl⟩ := Nat.exists_eq_succ_of_ne_zero (Nat.ne_zero_of_lt hf)
    rw [copyText, if_neg (by rw [hv.1]; exact hv.2.1), hv.1]
    exact hcopy fuel (Nat.lt_of_succ_lt_succ hf)

/-! ## The loop

One round puts a character or a directive; a format that ends in an open directive is read past. -/

theorem loop_nul (h : mem p = nul) : loop mem (fuel + 1) p o ap =
    ([p], some (o.ct, Function.update o.buf o.str nul)) := by
  rw [loop, if_pos h]

theorem loop_lit (h : mem p = c) (hnul : c ≠ nul) (hc : c ≠ '%') : loop mem (fuel + 1) p o ap =
    (p :: (loop mem fuel (p + 1) (o.put c) ap).1, (loop mem fuel (p + 1) (o.put c) ap).2) := by
  rw [loop, h, if_neg hnul, if_pos hc]

theorem loop_directive {ap' : List ℕ} {o' : Output} (h : mem p = '%')
    (hd : directive mem fuel (mem (p + 1)) o ap = some (o', ap')) :
    loop mem (fuel + 1) p o ap =
      (p :: (p + 1) :: (loop mem fuel (p + 2) o' ap').1, (loop mem fuel (p + 2) o' ap').2) := by
  rw [loop, h, if_neg (by decide), if_neg (fun hne => hne rfl), hd]

theorem endsOpen_lit (hc : c ≠ '%') : EndsOpen (c :: w) = EndsOpen w := by
  rw [EndsOpen]
  · exact fun h => absurd h hc
  · exact fun d u h _ => absurd h hc

theorem endsOpen_directive (c : Char) (w : List Char) :
    EndsOpen ('%' :: c :: w) = EndsOpen w := by
  rw [EndsOpen]

/-- With enough fuel the loop comes from `p` to `p'`. -/
def Goes (mem : Mem) (p : ℕ) (o : Output) (ap : List ℕ) (p' : ℕ) (o' : Output)
    (ap' : List ℕ) : Prop :=
  ∃ k M, ∀ fuel, M ≤ fuel → ∃ before,
    loop mem (fuel + k) p o ap =
      (before ++ (loop mem fuel p' o' ap').1, (loop mem fuel p' o' ap').2)

namespace Goes

variable {p' q : ℕ} {o' o'' : Output} {ap' ap'' : List ℕ}

theorem refl : Goes mem p o ap p o ap := ⟨0, 0, fun _ _ => ⟨[], rfl⟩⟩

theorem lit (h : mem p = c) (hnul : c ≠ nul) (hc : c ≠ '%')
    (hrest : Goes mem (p + 1) (o.put c) ap p' o' ap') : Goes mem p o ap p' o' ap' := by
  obtain ⟨k, M, hM⟩ := hrest
  refine ⟨k + 1, M, fun fuel hf => ?_⟩
  obtain ⟨before, heq⟩ := hM fuel hf
  refine ⟨p :: before, ?_⟩
  rw [← Nat.add_assoc, loop_lit h hnul hc, heq]
  rfl

theorem directive {o₁ : Output} {ap₁ : List ℕ} (M : ℕ) (h : mem p = '%')
    (hd : ∀ fuel, M ≤ fuel → Format.directive mem fuel (mem (p + 1)) o ap = some (o₁, ap₁))
    (hrest : Goes mem (p + 2) o₁ ap₁ p' o' ap') : Goes mem p o ap p' o' ap' := by
  obtain ⟨k, M', hM⟩ := hrest
  refine ⟨k + 1, max M M', fun fuel hf => ?_⟩
  obtain ⟨before, heq⟩ := hM fuel ((Nat.le_max_right M M').trans hf)
  have hle : M ≤ fuel + k := ((Nat.le_max_left M M').trans hf).trans (Nat.le_add_right _ _)
  refine ⟨p :: (p + 1) :: before, ?_⟩
  rw [← Nat.add_assoc, loop_directive h (hd _ hle), heq]
  rfl

end Goes

/-- A character that is no directive. -/
theorem directive_unknown (hc : c ∉ ['%', 'd', 'i', 'c', 's', 'x']) :
    directive mem fuel c o ap = some (o, ap) := by
  simp only [List.mem_cons, List.not_mem_nil, or_false, not_or] at hc
  unfold directive
  split <;> first | rfl | simp_all

theorem directive_dec (hc : c = 'd' ∨ c = 'i') : directive mem fuel c o (n :: ap) =
    (skipText fuel { o with buf := writeAt o.buf o.str (itoaUDec n ++ [nul]) }).map
      fun o => (o, ap) := by
  rcases hc with rfl | rfl <;> rfl

/-- The percent sign that a format ends in, if that is one of its own. -/
def openEnd (w : List Char) : List Char := if EndsOpen w then ['%'] else []

theorem openEnd_lit (hc : c ≠ '%') : openEnd (c :: w) = openEnd w := by
  rw [openEnd, openEnd, endsOpen_lit hc]

theorem openEnd_directive (c : Char) (w : List Char) : openEnd ('%' :: c :: w) = openEnd w := by
  rw [openEnd, openEnd, endsOpen_directive]

/-- The loop comes to the open end of the format, and has put `u` then. -/
def Finishes (mem : Mem) (p : ℕ) (w : List Char) (o : Output) (ap : List ℕ) (buf : Mem) (str : ℕ)
    (u : List Char) : Prop :=
  ∃ q o' ap', q + (openEnd w).length = p + w.length ∧ StrAt nul mem q (openEnd w) ∧
    o'.Has buf str u ∧ Goes mem p o ap q o' ap'

theorem finishes_lit (h : StrAt nul mem p (c :: w)) (hc : c ≠ '%')
    (hrest : Finishes mem (p + 1) w (o.put c) ap buf str u) :
    Finishes mem p (c :: w) o ap buf str u := by
  obtain ⟨q, o', ap', hlen, hopen, hhas, hgoes⟩ := hrest
  rw [← openEnd_lit hc] at hlen hopen
  refine ⟨q, o', ap', ?_, hopen, hhas, hgoes.lit h.1 h.2.1 hc⟩
  rw [hlen, List.length_cons]
  omega

theorem finishes_directive {o₁ : Output} {ap₁ : List ℕ} (M : ℕ)
    (h : StrAt nul mem p ('%' :: c :: w))
    (hd : ∀ fuel, M ≤ fuel → directive mem fuel c o ap = some (o₁, ap₁))
    (hrest : Finishes mem (p + 2) w o₁ ap₁ buf str u) :
    Finishes mem p ('%' :: c :: w) o ap buf str u := by
  obtain ⟨q, o', ap', hlen, hopen, hhas, hgoes⟩ := hrest
  rw [← openEnd_directive c w] at hlen hopen
  rw [← h.2.2.1] at hd
  refine ⟨q, o', ap', ?_, hopen, hhas, hgoes.directive M h.1 hd⟩
  rw [hlen, List.length_cons, List.length_cons]
  omega

/-- **The run of the loop**: what has been put is followed by the expansion. -/
theorem finishes_of_expands (hx : Expands mem w ap u) (hfmt : StrAt nul mem p w)
    (ho : o.Has buf str v) : Finishes mem p w o ap buf str (v ++ u) := by
  induction hx generalizing p o v with
  | nil => exact ⟨p, o, _, rfl, hfmt, (List.append_nil v).symm ▸ ho, .refl⟩
  | @lit c w u ap hc _ ih =>
    have hrest := ih hfmt.2.2 (ho.put c)
    rw [List.append_assoc] at hrest
    exact finishes_lit hfmt hc hrest
  | @percent w u ap _ ih =>
    have hrest := ih hfmt.2.2.2.2 (ho.put '%')
    rw [List.append_assoc] at hrest
    exact finishes_directive 0 hfmt (fun fuel _ => rfl) hrest
  | @dec c n w u ap hc hn _ ih =>
    obtain ⟨o', hhas, hskip⟩ := skipText_text ho (nul_notMem_itoaUDec hn)
    have hrest := ih hfmt.2.2.2.2 hhas
    rw [List.append_assoc] at hrest
    refine finishes_directive ((itoaUDec n).length + 1) hfmt (fun fuel hf => ?_) hrest
    rw [directive_dec hc, hskip fuel hf]
    rfl
  | @char n w u ap _ ih =>
    have hrest := ih hfmt.2.2.2.2 (ho.put (Char.ofNat (n % 2 ^ 8)))
    rw [List.append_assoc] at hrest
    exact finishes_directive 0 hfmt (fun fuel _ => rfl) hrest
  | @string pstr t w u ap ht _ ih =>
    obtain ⟨o', hhas, hcopy⟩ := copyText_eq ho ht
    have hrest := ih hfmt.2.2.2.2 hhas
    rw [List.append_assoc] at hrest
    refine finishes_directive (t.length + 1) hfmt (fun fuel hf => ?_) hrest
    change (copyText mem fuel pstr o).map _ = _
    rw [hcopy fuel hf]
    rfl
  | @hex n w u ap hn _ ih =>
    obtain ⟨o', hhas, hskip⟩ := skipText_text ho (nul_notMem_itoaUHex hn)
    have hrest := ih hfmt.2.2.2.2 hhas
    rw [List.append_assoc] at hrest
    refine finishes_directive ((itoaUHex n).length + 1) hfmt (fun fuel hf => ?_) hrest
    change (skipText fuel { o with buf := writeAt o.buf o.str (itoaUHex n ++ [nul]) }).map _ = _
    rw [hskip fuel hf]
    rfl
  | @unknown c w u ap hc _ ih =>
    exact finishes_directive 0 hfmt (fun fuel _ => directive_unknown hc) (ih hfmt.2.2.2.2 ho)
  | dangling => exact ⟨p, o, _, rfl, hfmt, (List.append_nil v).symm ▸ ho, .refl⟩

/-! ## What is read -/

/-- With a format that does not end in a percent sign of its own, the loop stops at the NUL. -/
theorem reads_of_not_endsOpen (hfmt : StrAt nul mem p w) (hopen : EndsOpen w = false) :
    ∀ x ∈ (loop mem fuel p o ap).1, p ≤ x ∧ x ≤ p + w.length := by
  induction fuel generalizing p w o ap with
  | zero => exact nofun
  | succ fuel ih =>
    cases w with
    | nil =>
      rw [loop_nul (show mem p = nul from hfmt)]
      intro x hx
      rw [List.mem_singleton.mp hx]
      exact ⟨Nat.le_refl p, Nat.le_add_right _ _⟩
    | cons c w =>
      by_cases hc : c = '%'
      · subst hc
        cases w with
        | nil => cases hopen
        | cons d w =>
          intro x hx
          cases hd : directive mem fuel (mem (p + 1)) o ap with
          | none =>
            rw [loop, hfmt.1, if_neg (by decide), if_neg (fun hne => hne rfl), hd] at hx
            simp only [List.mem_cons, List.not_mem_nil, or_false] at hx
            simp only [List.length_cons]
            omega
          | some r =>
            obtain ⟨o', ap'⟩ := r
            rw [loop_directive hfmt.1 hd, List.mem_cons, List.mem_cons] at hx
            simp only [List.length_cons]
            rcases hx with rfl | rfl | hx
            · omega
            · omega
            · have := ih hfmt.2.2.2.2 hopen x hx
              omega
      · rw [endsOpen_lit hc] at hopen
        rw [loop_lit hfmt.1 hfmt.2.1 hc]
        intro x hx
        simp only [List.length_cons]
        rcases List.mem_cons.mp hx with rfl | hx
        · omega
        · have := ih hfmt.2.2 hopen x hx
          omega

/-- A percent sign of its own at the end takes the loop past the NUL. -/
theorem reads_of_percent (hfmt : StrAt nul mem p ['%']) :
    p + 2 ∈ (loop mem (fuel + 2) p o ap).1 := by
  have hd : directive mem (fuel + 1) (mem (p + 1)) o ap = some (o, ap) := by
    rw [show mem (p + 1) = nul from hfmt.2.2]
    exact directive_unknown (by decide)
  rw [loop_directive hfmt.1 hd]
  refine List.mem_cons_of_mem _ (List.mem_cons_of_mem _ ?_)
  rw [loop]
  split_ifs
  · exact List.mem_singleton_self _
  · exact List.mem_cons_self
  · split <;> exact List.mem_cons_self

/-! ## What a call leaves -/

/-- A call with the format at `fmt`, of length `len`, stays inside of it, and leaves the expansion
`u` and returns its length. -/
structure Formats (mem : Mem) (fmt len : ℕ) (ap : List ℕ) (u : List Char) : Prop where
  inside : StaysInside mem fmt len ap
  leaves : Leaves mem fmt ap u

theorem leaves_of_expands {fmt : ℕ} (hx : Expands mem w ap u) (hfmt : StrAt nul mem fmt w)
    (hopen : EndsOpen w = false) : Leaves mem fmt ap u := by
  intro str buf
  obtain ⟨q, o, ap', -, hend, hhas, k, M, hgoes⟩ :=
    finishes_of_expands hx hfmt (Output.Has.start buf str)
  rw [openEnd, hopen, if_neg Bool.false_ne_true] at hend
  refine ⟨M + 1 + k, fun fuel hf => ?_⟩
  obtain ⟨fuel, rfl⟩ : ∃ n, fuel = n + 1 + k := ⟨fuel - 1 - k, by omega⟩
  obtain ⟨before, heq⟩ := hgoes (fuel + 1) (by omega)
  rw [vsprintf, heq, loop_nul (show mem q = nul from hend), hhas.ct_eq, hhas.update_eq]
  rfl

/-- **What `vsprintf` does with a format**: all that it should, just when the format does not end in
a percent sign of its own. -/
theorem formats_iff {fmt : ℕ} (hfmt : StrAt nul mem fmt w) (hx : Expands mem w ap u) :
    Formats mem fmt w.length ap u ↔ EndsOpen w = false := by
  constructor
  · intro h
    by_contra hopen
    rw [Bool.not_eq_false] at hopen
    obtain ⟨q, o, ap', hlen, hend, -, k, M, hgoes⟩ :=
      finishes_of_expands hx hfmt (Output.Has.start (fun _ => nul) 0)
    rw [openEnd, if_pos hopen] at hlen hend
    obtain ⟨before, heq⟩ := hgoes (M + 2) (by omega)
    have hread : q + 2 ∈ (vsprintf mem (M + 2 + k) (fun _ => nul) 0 fmt ap).1 := by
      rw [vsprintf, heq]
      exact List.mem_append_right _ (reads_of_percent hend)
    have hinside := (h.inside 0 (fun _ => nul) (M + 2 + k) _ hread).2
    rw [List.length_singleton] at hlen
    omega
  · intro hopen
    exact ⟨fun _ _ _ => reads_of_not_endsOpen hfmt hopen, leaves_of_expands hx hfmt hopen⟩

/-- The memory with the string `w` at 0. -/
def memOf (w : List Char) : Mem := writeAt (fun _ => nul) 0 (w ++ [nul])

theorem formats_iff_dec : Formats (memOf ['%', 'd']) 0 2 [7] ['7'] :=
  (formats_iff (w := ['%', 'd']) (strAt_writeAt (by decide))
    (.dec (.inl rfl) (by decide) .nil)).mpr rfl

theorem not_formats : ¬∀ (mem : Mem) (fmt : ℕ) (w u : List Char) (ap : List ℕ),
    StrAt nul mem fmt w → Expands mem w ap u → Formats mem fmt w.length ap u := by
  intro h
  have hinside := (h (memOf ['%']) 0 ['%'] [] [] (strAt_writeAt (by decide)) .dangling).inside
  have hread := (hinside 0 (fun _ => nul) 2 2 (reads_of_percent (strAt_writeAt (by decide)))).2
  exact absurd hread (by decide)

end SchemeOs.Format
