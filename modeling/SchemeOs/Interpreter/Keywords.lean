import Mathlib.Tactic.Set
import SchemeOs.Interpreter.Eval

/-!
# Interpreter/Keywords — the search for a keyword

`findKeyword` narrows a window of the table column by column.  While no name is compared past its
terminating zero, the window holds the names that start with what has been read of the key, and at
the end of the key its first name is taken.  Nothing checks that this name ends there as well.
-/

namespace SchemeOs

variable {ext : Externals} {key rest : List Char} {c : Char} {i j k m n : ℕ} {stop stop' : ℕ → Bool}

/-! ## Comparisons -/

/-- The places that `scanFrom` looks at. -/
def comparedFrom (stop : ℕ → Bool) : ℕ → ℕ → List ℕ
  | 0, _ => []
  | n + 1, i => i :: if stop i then [] else comparedFrom stop n (i + 1)

/-- The names and columns that `findKeywordFrom` compares. -/
def comparisons (ext : Externals) : List Char → ℕ → ℕ → ℕ → List (ℕ × ℕ)
  | [], _, _, _ => []
  | c :: key, k, i, j =>
    let i' := scanFrom (fun i => nameChar ext i k = c) (j - i) i
    (comparedFrom (fun i => nameChar ext i k = c) (j - i) i).map (·, k) ++
      if i' = j then
        []
      else
        let n := analyzeFuncs.length - (i' + 1)
        let j' := scanFrom (fun j => nameChar ext j k ≠ c) n (i' + 1)
        (comparedFrom (fun j => nameChar ext j k ≠ c) n (i' + 1)).map (·, k) ++
          comparisons ext key (k + 1) i' j'

/-- The names of the keywords. -/
def keywordNames : List (List Char) := analyzeFuncs.map fun f => f.1.toList

/-- The name of the keyword `i`. -/
def keywordName (i : ℕ) : List Char := keywordNames.getD i []

/-- The handler of the key, where it is a keyword. -/
def keywordOf (key : List Char) : Option Keyword :=
  (analyzeFuncs.find? fun f => f.1.toList = key).map Prod.snd

/-- A comparison within a name and its terminating zero. -/
def WithinName (p : ℕ × ℕ) : Prop := p.1 < keywordNames.length ∧ p.2 ≤ (keywordName p.1).length

instance (p : ℕ × ℕ) : Decidable (WithinName p) := inferInstanceAs (Decidable (_ ∧ _))

/-- The search finds the keywords and nothing else, and compares no name past its end, whatever
lies there. -/
def SearchedRight (key : List Char) : Prop :=
  ∀ ext : Externals, findKeyword ext key = keywordOf key ∧
    ∀ p ∈ comparisons ext key 0 0 analyzeFuncs.length, WithinName p

/-- Prefixes of keywords in whose last column a shorter name follows, and is compared past its
end. -/
def overrunPrefixes : List (List Char) :=
  ["dela", "else", "lambd", "letrec", "let*", "quasiqu"].map String.toList

/-- The key starts so, or it is a prefix of a keyword and none itself. -/
def MisreadKey (key : List Char) : Prop :=
  (∃ p ∈ overrunPrefixes, p <+: key) ∨ (key ∉ keywordNames ∧ ∃ name ∈ keywordNames, key <+: name)

/-! ## The search does not depend on what is past the names -/

theorem scanFrom_spec (stop : ℕ → Bool) (n i : ℕ) : i ≤ scanFrom stop n i ∧
    scanFrom stop n i ≤ i + n ∧ (∀ m, i ≤ m → m < scanFrom stop n i → stop m = false) ∧
    (scanFrom stop n i < i + n → stop (scanFrom stop n i) = true) := by
  induction n generalizing i with
  | zero => exact ⟨le_rfl, le_rfl, fun m hm hlt => absurd hlt (by rw [scanFrom]; omega), fun h => by
      rw [scanFrom] at h; omega⟩
  | succ n ih =>
    rw [scanFrom]
    split_ifs with hstop
    · exact ⟨le_rfl, by omega, fun m hm hlt => by omega, fun _ => hstop⟩
    · obtain ⟨hle, hge, hbefore, hat⟩ := ih (i + 1)
      refine ⟨by omega, by omega, fun m hm hlt => ?_, fun h => hat (by omega)⟩
      rcases Nat.eq_or_lt_of_le hm with rfl | hm
      · exact Bool.eq_false_iff.mpr hstop
      · exact hbefore m hm hlt

theorem scanFrom_congr (stop' : ℕ → Bool) (h : ∀ m ∈ comparedFrom stop n i, stop' m = stop m) :
    scanFrom stop' n i = scanFrom stop n i ∧ comparedFrom stop' n i = comparedFrom stop n i := by
  induction n generalizing i with
  | zero => exact ⟨rfl, rfl⟩
  | succ n ih =>
    rw [comparedFrom, List.forall_mem_cons] at h
    rw [scanFrom, scanFrom, comparedFrom, comparedFrom, h.1]
    by_cases hstop : stop i
    · rw [if_pos hstop, if_pos hstop, if_pos hstop, if_pos hstop]
      exact ⟨rfl, rfl⟩
    · rw [if_neg hstop, if_neg hstop, if_neg hstop, if_neg hstop]
      obtain ⟨hscan, hcompared⟩ := ih (by simpa only [if_neg hstop] using h.2)
      exact ⟨hscan, by rw [hcompared]⟩

/-- A character of a name, or the zero after it. -/
theorem nameChar_eq (h : WithinName (i, k)) (ext ext' : Externals) :
    nameChar ext i k = nameChar ext' i k := by
  obtain ⟨hi, hk⟩ := h
  have hlen : i < analyzeFuncs.length := hi
  obtain ⟨f, hf⟩ : ∃ f, analyzeFuncs[i]? = some f := ⟨_, List.getElem?_eq_getElem hlen⟩
  have hname : keywordName i = f.1.toList := by
    simp only [keywordName, keywordNames, List.getD_eq_getElem?_getD, List.getElem?_map, hf,
      Option.map_some, Option.getD_some]
  rw [hname] at hk
  simp only [nameChar, hf, Option.map_some]
  by_cases heq : k = f.1.toList.length
  · rw [if_pos heq, if_pos heq]
  · rw [if_neg heq, if_neg heq, List.getElem?_eq_getElem (by omega)]
    rfl

theorem findKeywordFrom_congr (ext' : Externals)
    (h : ∀ p ∈ comparisons ext key k i j, WithinName p) :
    findKeywordFrom ext' key k i j = findKeywordFrom ext key k i j ∧
      comparisons ext' key k i j = comparisons ext key k i j := by
  induction key generalizing k i j with
  | nil => exact ⟨rfl, rfl⟩
  | cons c key ih =>
    rw [comparisons] at h
    dsimp only at h
    rw [List.forall_mem_append] at h
    obtain ⟨hi, hrest⟩ := h
    obtain ⟨hscan, hcompared⟩ :=
      scanFrom_congr (fun i => nameChar ext' i k = c) fun m hm => by
        rw [nameChar_eq (hi (m, k) (List.mem_map.mpr ⟨m, hm, rfl⟩)) ext' ext]
    rw [findKeywordFrom, findKeywordFrom, comparisons, comparisons]
    dsimp only
    rw [hscan, hcompared]
    by_cases heq : scanFrom (fun i => nameChar ext i k = c) (j - i) i = j
    · rw [if_pos heq, if_pos heq, if_pos heq, if_pos heq]
      exact ⟨rfl, rfl⟩
    · rw [if_neg heq] at hrest
      rw [if_neg heq, if_neg heq, if_neg heq, if_neg heq]
      rw [List.forall_mem_append] at hrest
      obtain ⟨hj, hkey⟩ := hrest
      obtain ⟨hscan', hcompared'⟩ :=
        scanFrom_congr (fun j => nameChar ext' j k ≠ c) fun m hm => by
          rw [nameChar_eq (hj (m, k) (List.mem_map.mpr ⟨m, hm, rfl⟩)) ext' ext]
      rw [hscan', hcompared', (ih hkey).1, (ih hkey).2]
      exact ⟨rfl, rfl⟩

/-! ## The window

What the loops have narrowed the table to, after some characters of the word. -/

/-- Zeros past the names, and no builtin procedures. -/
def zeroExternals : Externals := ⟨fun _ _ => '\x00', fun _ _ _ => failure⟩

/-- The character of a name with zeros past it. -/
abbrev charAt (i k : ℕ) : Char := nameChar zeroExternals i k

/-- The window holds the names that start with the first `k` characters of the name `i`, and the
search came here without an overrun. -/
structure Window (k i j : ℕ) : Prop where
  lt : i < j
  le : j ≤ keywordNames.length
  column : k ≤ (keywordName i).length
  mem_iff : ∀ m < keywordNames.length, i ≤ m ∧ m < j ↔ (keywordName i).take k <+: keywordName m
  overrun : ∀ p ∈ overrunPrefixes, ¬p <+: (keywordName i).take k

instance (k i j : ℕ) : Decidable (Window k i j) :=
  decidable_of_iff (i < j ∧ j ≤ keywordNames.length ∧ k ≤ (keywordName i).length ∧
    (∀ m < keywordNames.length, i ≤ m ∧ m < j ↔ (keywordName i).take k <+: keywordName m) ∧
    ∀ p ∈ overrunPrefixes, ¬p <+: (keywordName i).take k)
    ⟨fun ⟨h₁, h₂, h₃, h₄, h₅⟩ => ⟨h₁, h₂, h₃, h₄, h₅⟩,
      fun ⟨h₁, h₂, h₃, h₄, h₅⟩ => ⟨h₁, h₂, h₃, h₄, h₅⟩⟩

theorem window_init : Window 0 0 keywordNames.length := by decide +kernel

/-- The end of the window after the name `i` was found in the column `k`. -/
def windowEnd (k i : ℕ) : ℕ :=
  scanFrom (fun j => charAt j k ≠ charAt i k) (analyzeFuncs.length - (i + 1)) (i + 1)

/-- The names compared to find it. -/
def windowCompared (k i : ℕ) : List ℕ :=
  comparedFrom (fun j => charAt j k ≠ charAt i k) (analyzeFuncs.length - (i + 1)) (i + 1)

/-- The search comes to the window of the name `i` with one more column. -/
def Narrows (k i : ℕ) : Prop :=
  Window (k + 1) i (windowEnd k i) ∧ ∀ m ∈ windowCompared k i, WithinName (m, k)

instance (k i : ℕ) : Decidable (Narrows k i) := inferInstanceAs (Decidable (_ ∧ _))

/-- The search compares a name past its end. -/
def Overruns (k i : ℕ) : Prop :=
  (keywordName i).take (k + 1) ∈ overrunPrefixes ∧ ∃ m ∈ windowCompared k i, ¬WithinName (m, k)

instance (k i : ℕ) : Decidable (Overruns k i) := inferInstanceAs (Decidable (_ ∧ _))

/-- The name `i` is the first of its window, and the search came to the column `k`. -/
def Comes (k i : ℕ) : Prop :=
  (∀ m < i, ¬(keywordName i).take (k + 1) <+: keywordName m) ∧
    ∀ p ∈ overrunPrefixes, ¬p <+: (keywordName i).take k

instance (k i : ℕ) : Decidable (Comes k i) := inferInstanceAs (Decidable (_ ∧ _))

/-- **One column**: the window is narrowed to the names with the next character, or a name is
compared past its end. -/
theorem window_step : ∀ i < keywordNames.length, ∀ k < (keywordName i).length, Comes k i →
    Narrows k i ∨ Overruns k i := by
  decide +kernel

theorem keywordOf_name : ∀ i < keywordNames.length,
    keywordOf (keywordName i) = (analyzeFuncs[i]?).map Prod.snd := by
  decide +kernel

/-- A keyword comes before those that it is a prefix of. -/
theorem le_of_prefix : ∀ i < keywordNames.length, ∀ m < keywordNames.length,
    keywordName m <+: keywordName i → m ≤ i := by
  decide +kernel

theorem overrunPrefixes_prefix : ∀ p ∈ overrunPrefixes, ∃ name ∈ keywordNames, p <+: name := by
  decide +kernel

theorem keywordName_mem (hi : i < keywordNames.length) : keywordName i ∈ keywordNames := by
  rw [keywordName, List.getD_eq_getElem?_getD, List.getElem?_eq_getElem hi]
  exact List.getElem_mem hi

theorem exists_keywordName {name : List Char} (h : name ∈ keywordNames) :
    ∃ m < keywordNames.length, keywordName m = name := by
  obtain ⟨m, hm, rfl⟩ := List.getElem_of_mem h
  refine ⟨m, hm, ?_⟩
  rw [keywordName, List.getD_eq_getElem?_getD, List.getElem?_eq_getElem hm]
  rfl

/-- One character more. -/
theorem concat_prefix_iff {u name : List Char} :
    u ++ [c] <+: name ↔ u <+: name ∧ name[u.length]? = some c := by
  constructor
  · rintro ⟨v, rfl⟩
    refine ⟨⟨c :: v, by simp only [List.append_assoc, List.cons_append, List.nil_append]⟩, ?_⟩
    rw [List.append_assoc, List.getElem?_append_right le_rfl, Nat.sub_self]
    rfl
  · rintro ⟨⟨v, rfl⟩, hc⟩
    rw [List.getElem?_append_right le_rfl, Nat.sub_self] at hc
    cases v with
    | nil => cases hc
    | cons d v =>
      cases hc
      exact ⟨v, by simp only [List.append_assoc, List.cons_append, List.nil_append]⟩

/-- A character of a name is compared as such. -/
theorem charAt_eq_iff (h : WithinName (m, k)) (hc : c ≠ '\x00') :
    charAt m k = c ↔ (keywordName m)[k]? = some c := by
  obtain ⟨hm, hk⟩ := h
  have hlen : m < analyzeFuncs.length := hm
  obtain ⟨f, hf⟩ : ∃ f, analyzeFuncs[m]? = some f := ⟨_, List.getElem?_eq_getElem hlen⟩
  have hname : keywordName m = f.1.toList := by
    simp only [keywordName, keywordNames, List.getD_eq_getElem?_getD, List.getElem?_map, hf,
      Option.map_some, Option.getD_some]
  rw [hname] at hk ⊢
  simp only [charAt, nameChar, hf, Option.map_some]
  by_cases heq : k = f.1.toList.length
  · rw [if_pos heq, heq, List.getElem?_eq_none le_rfl]
    exact ⟨fun h => absurd h.symm hc, nofun⟩
  · rw [if_neg heq, List.getElem?_eq_getElem (by omega)]
    exact ⟨fun h => congrArg some h, fun h => Option.some.inj h⟩

theorem mem_comparedFrom (hm : m ∈ comparedFrom stop n i) : i ≤ m ∧ m < i + n := by
  induction n generalizing i with
  | zero => cases hm
  | succ n ih =>
    rw [comparedFrom, List.mem_cons] at hm
    rcases hm with rfl | hm
    · exact ⟨le_rfl, by omega⟩
    · split_ifs at hm
      · cases hm
      · obtain ⟨hle, hlt⟩ := ih hm
        exact ⟨by omega, by omega⟩

/-! ## The search

It goes right exactly for the words that do not take it past the end of a name. -/

/-- The search finds the right handler from the window on, and compares no name past its end. -/
def RightFrom (full key : List Char) (k i j : ℕ) : Prop :=
  findKeywordFrom zeroExternals key k i j = keywordOf full ∧
    ∀ p ∈ comparisons zeroExternals key k i j, WithinName p

/-- What lies past the names does not matter. -/
theorem searchedRight_iff : SearchedRight key ↔ RightFrom key key 0 0 analyzeFuncs.length := by
  refine ⟨fun h => h zeroExternals, fun ⟨hfind, hcompared⟩ ext => ?_⟩
  obtain ⟨heq, heq'⟩ := findKeywordFrom_congr ext hcompared
  exact ⟨heq.trans hfind, heq' ▸ hcompared⟩

theorem keywordOf_eq_none (h : key ∉ keywordNames) : keywordOf key = none := by
  rw [keywordOf, List.find?_eq_none.mpr, Option.map_none]
  intro f hf heq
  exact h (List.mem_map.mpr ⟨f, hf, by simpa using heq⟩)

/-- At the end of the key its first name is taken. -/
theorem rightFrom_nil (hw : Window k i j) :
    RightFrom ((keywordName i).take k) [] k i j ↔ ¬MisreadKey ((keywordName i).take k) := by
  have hi : i < keywordNames.length := hw.lt.trans_le hw.le
  have hname : ∃ name ∈ keywordNames, (keywordName i).take k <+: name :=
    ⟨_, keywordName_mem hi, List.take_prefix k _⟩
  have hmisread : MisreadKey ((keywordName i).take k) ↔ (keywordName i).take k ∉ keywordNames := by
    constructor
    · rintro (⟨p, hp, hprefix⟩ | ⟨hmem, -⟩)
      · exact absurd hprefix (hw.overrun p hp)
      · exact hmem
    · exact fun hmem => .inr ⟨hmem, hname⟩
  rw [hmisread, not_not]
  constructor
  · rintro ⟨hfind, -⟩
    by_contra hmem
    rw [keywordOf_eq_none hmem, findKeywordFrom] at hfind
    rw [Option.map_eq_none_iff, List.getElem?_eq_none_iff] at hfind
    exact absurd hi (by simpa [keywordNames] using hfind)
  · intro hmem
    obtain ⟨m, hm, heq⟩ := exists_keywordName hmem
    have hle := ((hw.mem_iff m hm).mpr (heq ▸ List.prefix_rfl)).1
    have hge := le_of_prefix i hi m hm (heq ▸ List.take_prefix k _)
    obtain rfl : m = i := Nat.le_antisymm hge hle
    exact ⟨by rw [findKeywordFrom, ← heq, keywordOf_name m hi], nofun⟩

/-- The next character is in no name of the window: the search ends, and finds nothing. -/
theorem not_misreadKey_of_none (rest : List Char) (hw : Window k i j) (hc : c ≠ '\x00')
    (hnone : ∀ m, i ≤ m → m < j → charAt m k ≠ c) :
    (keywordName i).take k ++ c :: rest ∉ keywordNames ∧
      ¬MisreadKey ((keywordName i).take k ++ c :: rest) := by
  have hlen : ((keywordName i).take k).length = k := List.length_take_of_le hw.column
  have hno : ∀ name ∈ keywordNames, ¬(keywordName i).take k ++ [c] <+: name := by
    intro name hname hprefix
    obtain ⟨m, hm, rfl⟩ := exists_keywordName hname
    obtain ⟨hu, hget⟩ := concat_prefix_iff.mp hprefix
    rw [hlen] at hget
    obtain ⟨hle, hlt⟩ := (hw.mem_iff m hm).mpr hu
    have hwithin : WithinName (m, k) := ⟨hm, by rw [← hlen]; exact hu.length_le⟩
    exact hnone m hle hlt ((charAt_eq_iff hwithin hc).mpr hget)
  have hcons : (keywordName i).take k ++ [c] <+: (keywordName i).take k ++ c :: rest :=
    ⟨rest, by rw [List.append_assoc]; rfl⟩
  have hfull : ∀ name ∈ keywordNames, ¬(keywordName i).take k ++ c :: rest <+: name :=
    fun name hname hprefix => hno name hname (hcons.trans hprefix)
  refine ⟨fun hmem => hfull _ hmem List.prefix_rfl, ?_⟩
  rintro (⟨p, hp, hprefix⟩ | ⟨-, name, hname, hprefix⟩)
  · obtain ⟨name, hname, hpname⟩ := overrunPrefixes_prefix p hp
    rcases Nat.lt_or_ge k p.length with hk | hk
    · -- the prefix goes beyond the window
      refine hno name hname (.trans ?_ hpname)
      refine List.prefix_of_prefix_length_le hcons hprefix ?_
      rw [List.length_append, hlen, List.length_singleton]
      omega
    · refine hw.overrun p hp (List.prefix_of_prefix_length_le hprefix (List.prefix_append _ _) ?_)
      rw [hlen]
      exact hk
  · exact hfull name hname hprefix

/-- **The search from a window on** is right unless the key is one that is misread. -/
theorem rightFrom_iff (hw : Window k i j) (hnul : '\x00' ∉ rest) :
    RightFrom ((keywordName i).take k ++ rest) rest k i j ↔
      ¬MisreadKey ((keywordName i).take k ++ rest) := by
  induction rest generalizing k i j with
  | nil =>
    rw [List.append_nil]
    exact rightFrom_nil hw
  | cons c rest ih =>
    have hc : c ≠ '\x00' := fun h => hnul (h ▸ List.mem_cons_self)
    have hi : i < keywordNames.length := hw.lt.trans_le hw.le
    have hlen : ((keywordName i).take k).length = k := List.length_take_of_le hw.column
    obtain ⟨hle, hge, hbefore, hat⟩ := scanFrom_spec (fun i => charAt i k = c) (j - i) i
    have hsub : i + (j - i) = j := by have := hw.lt; omega
    rw [hsub] at hge hat
    set i' := scanFrom (fun i => charAt i k = c) (j - i) i with hi'
    have hcolumns : ∀ m, i ≤ m → m < j → WithinName (m, k) := by
      intro m hm hlt
      have hm' : m < keywordNames.length := hlt.trans_le hw.le
      have hprefix := (hw.mem_iff m hm').mp ⟨hm, hlt⟩
      exact ⟨hm', by rw [← hlen]; exact hprefix.length_le⟩
    have hcompared : ∀ p ∈ (comparedFrom (fun i => charAt i k = c) (j - i) i).map (·, k),
        WithinName p := by
      intro p hp
      obtain ⟨m, hm, rfl⟩ := List.mem_map.mp hp
      obtain ⟨hm, hlt⟩ := mem_comparedFrom hm
      exact hcolumns m hm (by omega)
    rcases Nat.eq_or_lt_of_le hge with heq | hlt
    · -- no name of the window goes on with the character
      obtain ⟨hmem, hmisread⟩ := not_misreadKey_of_none rest hw hc fun m hm hlt =>
        of_decide_eq_false (hbefore m hm (heq ▸ hlt))
      refine ⟨fun _ => hmisread, fun _ => ⟨?_, ?_⟩⟩
      · rw [keywordOf_eq_none hmem, findKeywordFrom]
        exact if_pos heq
      · rw [comparisons]
        dsimp only
        rw [← hi', if_pos heq, List.append_nil]
        exact hcompared
    · have hchar : charAt i' k = c := of_decide_eq_true (hat hlt)
      have hwithin := hcolumns i' hle hlt
      have hget := (charAt_eq_iff hwithin hc).mp hchar
      have hprefix : (keywordName i).take k <+: keywordName i' :=
        (hw.mem_iff i' hwithin.1).mp ⟨hle, hlt⟩
      have htake : (keywordName i').take k = (keywordName i).take k := by
        rw [List.prefix_iff_eq_take, hlen] at hprefix
        exact hprefix.symm
      have hk : k < (keywordName i').length := (List.getElem?_eq_some_iff.mp hget).1
      have htake' : (keywordName i').take (k + 1) = (keywordName i).take k ++ [c] := by
        rw [List.take_add_one, htake, hget]
        rfl
      have hcomes : Comes k i' := by
        refine ⟨fun m hm hmprefix => ?_, fun p hp => by rw [htake]; exact hw.overrun p hp⟩
        rw [htake', concat_prefix_iff, hlen] at hmprefix
        have hm' : m < keywordNames.length := hm.trans hwithin.1
        obtain ⟨hle', hlt'⟩ := (hw.mem_iff m hm').mpr hmprefix.1
        have hstop := of_decide_eq_false (hbefore m hle' hm)
        exact hstop ((charAt_eq_iff (hcolumns m hle' hlt') hc).mpr hmprefix.2)
      have hsplit : (keywordName i).take k ++ c :: rest =
          (keywordName i').take (k + 1) ++ rest := by
        rw [htake', List.append_assoc]
        rfl
      -- the rest of the window's search, with the character for the column
      have hfind : findKeywordFrom zeroExternals (c :: rest) k i j =
          findKeywordFrom zeroExternals rest (k + 1) i' (windowEnd k i') := by
        rw [findKeywordFrom]
        dsimp only
        rw [← hi', if_neg hlt.ne, windowEnd, hchar]
      have hcomp : comparisons zeroExternals (c :: rest) k i j =
          (comparedFrom (fun i => charAt i k = c) (j - i) i).map (·, k) ++
            ((windowCompared k i').map (·, k) ++
              comparisons zeroExternals rest (k + 1) i' (windowEnd k i')) := by
        rw [comparisons]
        dsimp only
        rw [← hi', if_neg hlt.ne, windowEnd, windowCompared, hchar]
      rw [hsplit]
      rcases window_step i' hwithin.1 k hk hcomes with ⟨hw', hwithin'⟩ | ⟨hmem, m, hm, hnot⟩
      · rw [← ih hw' fun h => hnul (List.mem_cons_of_mem c h), RightFrom, RightFrom, hfind, hcomp]
        refine and_congr_right fun _ => ?_
        rw [List.forall_mem_append, List.forall_mem_append]
        refine ⟨fun h => h.2.2, fun h => ⟨hcompared, ?_, h⟩⟩
        intro p hp
        obtain ⟨m, hm, rfl⟩ := List.mem_map.mp hp
        exact hwithin' m hm
      · refine ⟨fun h => ?_, fun h => absurd (.inl ⟨_, hmem, List.prefix_append _ _⟩) h⟩
        refine absurd (h.2 (m, k) ?_) hnot
        rw [hcomp]
        refine List.mem_append_right _ (List.mem_append_left _ ?_)
        exact List.mem_map.mpr ⟨m, hm, rfl⟩

/-- **The search finds the keywords and nothing else**, and stays within the names, unless the key
is one that is misread. -/
theorem searchedRight_iff_not_misreadKey (hnul : '\x00' ∉ key) :
    SearchedRight key ↔ ¬MisreadKey key :=
  searchedRight_iff.trans (rightFrom_iff window_init hnul)

theorem searchedRight_iff_not_misreadKey_if :
    SearchedRight "if".toList ↔ ¬MisreadKey "if".toList :=
  searchedRight_iff_not_misreadKey (by decide)

/-- The name `a` of a procedure is taken for `and`. -/
theorem not_searchedRight_a : ¬∀ key : List Char, '\x00' ∉ key → SearchedRight key := by
  intro h
  obtain ⟨hfind, -⟩ := h ['a'] (by decide) zeroExternals
  exact absurd hfind (by decide +kernel)

end SchemeOs
