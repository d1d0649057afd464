import Mathlib.Logic.Function.Basic
import Mathlib.Tactic.SplitIfs
import SchemeOs.Machinery.CStrings
import SchemeOs.Machinery.Ints
import SchemeOs.Machinery.Runs

/-!
# Interpreter/Symbols — the symbol table

`scheme_make_symbol` looks a name up in the chain of its hash value, and otherwise copies it and
puts a new symbol in front of the chain.  The names in the table are copies of its own, so a client
that overwrites its strings does not change them.

The allocator is a parameter: a call is told where the copy and the symbol go if it needs them, and
there is room for the copy there.
-/

namespace SchemeOs.Symbols

/-! ## The table -/

/-- `struct _Htentry` -/
structure Htentry where
  str : ℕ
  symbol : ℕ
  deriving DecidableEq, Repr

/-- The memory of strings, the chains of `_HTable_`, and `SCHEME_SYMBOL_VAL`. -/
structure Table where
  mem : ℕ → UInt8
  chains : ℕ → List Htentry
  symbolVal : ℕ → ℕ

/-- `SYMBOL_HTABLE_SIZE`, and `HTABLE_SIZE` -/
def htableSize : ℤ := 1031

/-- The value of a `char`, which is signed. -/
def charVal (c : UInt8) : ℤ := (c.toNat + 2 ^ 7) % 2 ^ 8 - 2 ^ 7

/-- `strlen`, and the first loop of `_hash_symbol` -/
def strlen (mem : ℕ → UInt8) : ℕ → ℕ → Option ℕ
  | 0, _ => none
  | fuel + 1, s => if mem s = 0 then some 0 else (strlen mem fuel (s + 1)).map (· + 1)

/-- `h += (h << 5) + h + c` -/
def hashStep (c : UInt8) (h : ℤ) : ℤ := toInt (h + (h * 2 ^ 5 + h + charVal c))

/-- The second loop of `_hash_symbol`, from the last character to the first. -/
def hashLoop (mem : ℕ → UInt8) (s : ℕ) : ℕ → ℤ → ℤ
  | 0, h => h
  | i + 1, h => hashLoop mem s i (hashStep (mem (s + i)) h)

/-- `h += (h << 2)`, and the value returned: the shift is one of `unsigned long`. -/
def hashFinish (h : ℤ) : ℕ := (toInt (h + h * 2 ^ 2) % 2 ^ 32 / 2 % htableSize).toNat

/-- `_hash_symbol` -/
def hashSymbol (mem : ℕ → UInt8) (fuel s : ℕ) : Option ℕ :=
  (strlen mem fuel s).map fun n => hashFinish (hashLoop mem s n 0)

/-- `_symbol_eq_p` -/
def symbolEqP (mem : ℕ → UInt8) : ℕ → ℕ → ℕ → Option Bool
  | 0, _, _ => none
  | fuel + 1, a, b =>
    if mem a ≠ 0 ∧ mem b ≠ 0 then
      if mem a ≠ mem b then some false else symbolEqP mem fuel (a + 1) (b + 1)
    else some (mem a = 0 ∧ mem b = 0)

/-- The loop of `scheme_make_symbol` over a chain. -/
def findSymbol (mem : ℕ → UInt8) (fuel str : ℕ) : List Htentry → Option (Option ℕ)
  | [] => some none
  | p :: ps => (symbolEqP mem fuel p.str str).bind fun eq =>
    if eq then some (some p.symbol) else findSymbol mem fuel str ps

/-- `strcpy` of a string of length `n`. -/
def strcpy (mem : ℕ → UInt8) (s str n : ℕ) (x : ℕ) : UInt8 :=
  if s ≤ x ∧ x ≤ s + n then mem (str + (x - s)) else mem x

/-- The end of `scheme_make_symbol`: the copy of the name goes to `s`, and the symbol to `sym`. -/
def Table.insert (t : Table) (k str n s sym : ℕ) : Table where
  mem := strcpy t.mem s str n
  chains := Function.update t.chains k (⟨s, sym⟩ :: t.chains k)
  symbolVal := Function.update t.symbolVal sym s

/-- `scheme_make_symbol`, where `scheme_alloc` would return `s` and `scheme_alloc_obj` `sym`. -/
def schemeMakeSymbol (fuel str s sym : ℕ) (t : Table) : Option (ℕ × Table) := do
  let k ← hashSymbol t.mem fuel str
  match ← findSymbol t.mem fuel str (t.chains k) with
  | some symbol => return (symbol, t)
  | none =>
    let n ← strlen t.mem fuel str
    return (sym, t.insert k str n s sym)

/-! ## The system

A client may write into memory between two calls, but not where the table has its names. -/

/-- The symbol of the name `w`. -/
def Table.Interned (t : Table) (w : List UInt8) (sym : ℕ) : Prop :=
  ∃ k, ∃ p ∈ t.chains k, p.symbol = sym ∧ StrAt 0 t.mem p.str w

/-- The name of the symbol `sym` is `w`. -/
def Table.Named (t : Table) (sym : ℕ) (w : List UInt8) : Prop := StrAt 0 t.mem (t.symbolVal sym) w

/-- An address of a name in the table. -/
def Table.Private (t : Table) (x : ℕ) : Prop :=
  ∃ k, ∃ p ∈ t.chains k, ∃ w, StrAt 0 t.mem p.str w ∧ p.str ≤ x ∧ x ≤ p.str + w.length

/-- There is room for a copy of the string `w` of `str` at `s`, and for a symbol at `sym`. -/
structure Table.Room (t : Table) (str : ℕ) (w : List UInt8) (s sym : ℕ) : Prop where
  unshared : ∀ x, s ≤ x → x ≤ s + w.length → ¬t.Private x
  apart : ∀ x, s ≤ x → x ≤ s + w.length → ¬(str ≤ x ∧ x ≤ str + w.length)
  unused : ∀ k, ∀ p ∈ t.chains k, p.symbol ≠ sym

/-- What a client does: it asks for the symbol of a string and gets one, or writes into its own
memory. -/
inductive Event where
  | makeSymbol (w : List UInt8) (sym : ℕ)
  | write
  deriving DecidableEq, Repr

/-- One call, or one change of memory that is not the table's. -/
inductive Step : Table → Event → Table → Prop where
  | makeSymbol {t t' : Table} {w : List UInt8} {fuel str s sym r : ℕ} :
      StrAt 0 t.mem str w → t.Room str w s sym →
      schemeMakeSymbol fuel str s sym t = some (r, t') → Step t (.makeSymbol w r) t'
  | write {t : Table} {mem : ℕ → UInt8} :
      (∀ x, t.Private x → mem x = t.mem x) → Step t .write { t with mem := mem }

/-- `scheme_init_symbol`: all chains are empty. -/
def Table.init (mem : ℕ → UInt8) (symbolVal : ℕ → ℕ) : Table := ⟨mem, fun _ => [], symbolVal⟩

/-- Equal names have equal symbols and no others do, the names of the symbols are right, and every
call returns. -/
structure Table.Interns (t : Table) (events : List Event) : Prop where
  same : ∀ w w' sym sym', .makeSymbol w sym ∈ events → .makeSymbol w' sym' ∈ events →
    (sym = sym' ↔ w = w')
  named : ∀ w sym, .makeSymbol w sym ∈ events → t.Named sym w
  returns : ∀ str w s sym, StrAt 0 t.mem str w →
    ∃ fuel, (schemeMakeSymbol fuel str s sym t).isSome

/-! ## The loops

On a string that ends within its memory the three loops end, and depend on its characters alone. -/

variable {mem : ℕ → UInt8} {t t' : Table} {w u v : List UInt8}
  {fuel str s sym r a b k : ℕ}

/-- The hash value of a string. -/
def hashOf (w : List UInt8) : ℕ := hashFinish (w.foldr hashStep 0)

theorem strlen_of_strAt (h : StrAt 0 mem str w) (hm : strlen mem fuel str = some k) :
    k = w.length := by
  induction w generalizing str fuel k with
  | nil =>
    cases fuel with
    | zero => cases hm
    | succ fuel =>
      rw [strlen, if_pos (show mem str = 0 from h)] at hm
      exact (Option.some.inj hm).symm
  | cons c w ih =>
    cases fuel with
    | zero => cases hm
    | succ fuel =>
      rw [strlen, if_neg (by rw [h.1]; exact h.2.1)] at hm
      obtain ⟨n, hn, rfl⟩ := Option.map_eq_some_iff.mp hm
      rw [ih h.2.2 hn, List.length_cons]

theorem strlen_eq (h : StrAt 0 mem str w) (hf : w.length < fuel) :
    strlen mem fuel str = some w.length := by
  induction w generalizing str fuel with
  | nil =>
    obtain ⟨fuel, rfl⟩ := Nat.exists_eq_succ_of_ne_zero (Nat.ne_of_gt hf)
    rw [strlen, if_pos (show mem str = 0 from h)]
    rfl
  | cons c w ih =>
    obtain ⟨fuel, rfl⟩ := Nat.exists_eq_succ_of_ne_zero (Nat.ne_zero_of_lt hf)
    rw [strlen, if_neg (by rw [h.1]; exact h.2.1), ih h.2.2 (Nat.lt_of_succ_lt_succ hf)]
    rfl

/-- The first character is the last to be looked at. -/
theorem hashLoop_succ (mem : ℕ → UInt8) (str n : ℕ) (x : ℤ) :
    hashLoop mem str (n + 1) x = hashStep (mem str) (hashLoop mem (str + 1) n x) := by
  induction n generalizing x with
  | zero => rfl
  | succ n ih =>
    rw [hashLoop, ih, hashLoop, Nat.add_assoc str, Nat.add_comm 1 n]

theorem hashLoop_eq (h : StrAt 0 mem str w) (x : ℤ) :
    hashLoop mem str w.length x = w.foldr hashStep x := by
  induction w generalizing str with
  | nil => rfl
  | cons c w ih => rw [List.length_cons, hashLoop_succ, h.1, ih h.2.2, List.foldr_cons]

theorem hashSymbol_of_strAt (h : StrAt 0 mem str w) (hm : hashSymbol mem fuel str = some k) :
    k = hashOf w := by
  obtain ⟨n, hn, rfl⟩ := Option.map_eq_some_iff.mp hm
  rw [strlen_of_strAt h hn, hashLoop_eq h]
  rfl

theorem hashSymbol_eq (h : StrAt 0 mem str w) (hf : w.length < fuel) :
    hashSymbol mem fuel str = some (hashOf w) := by
  rw [hashSymbol, strlen_eq h hf, Option.map_some, hashLoop_eq h]
  rfl

/-- `_symbol_eq_p` decides whether two strings are equal. -/
theorem symbolEqP_of_strAt {eq : Bool} (hu : StrAt 0 mem a u) (hv : StrAt 0 mem b v)
    (hm : symbolEqP mem fuel a b = some eq) : eq = true ↔ u = v := by
  induction fuel generalizing a b u v with
  | zero => cases hm
  | succ fuel ih =>
    rw [symbolEqP] at hm
    cases u with
    | nil =>
      have ha : mem a = 0 := hu
      rw [if_neg fun h => h.1 ha] at hm
      obtain rfl := Option.some.inj hm
      cases v with
      | nil =>
        have hb : mem b = 0 := hv
        simp [ha, hb]
      | cons d v =>
        have hb : mem b ≠ 0 := by rw [hv.1]; exact hv.2.1
        simp [hb]
    | cons c u =>
      have ha : mem a ≠ 0 := by rw [hu.1]; exact hu.2.1
      cases v with
      | nil =>
        have hb : mem b = 0 := hv
        rw [if_neg fun h => h.2 hb] at hm
        obtain rfl := Option.some.inj hm
        simp [ha]
      | cons d v =>
        have hb : mem b ≠ 0 := by rw [hv.1]; exact hv.2.1
        rw [if_pos ⟨ha, hb⟩] at hm
        split_ifs at hm with hne
        · obtain rfl := Option.some.inj hm
          rw [hu.1, hv.1] at hne
          simp [hne]
        · rw [Decidable.not_not, hu.1, hv.1] at hne
          rw [ih hu.2.2 hv.2.2 hm, hne, List.cons_inj_right]

theorem exists_symbolEqP (hu : StrAt 0 mem a u) (hv : StrAt 0 mem b v) (hf : v.length < fuel) :
    ∃ eq, symbolEqP mem fuel a b = some eq := by
  induction fuel generalizing a b u v with
  | zero => exact absurd hf (Nat.not_lt_zero _)
  | succ fuel ih =>
    rw [symbolEqP]
    split_ifs with h
    · exact ⟨false, rfl⟩
    · cases u with
      | nil => exact absurd hu h.1
      | cons c u =>
        cases v with
        | nil => exact absurd hv h.2
        | cons d v => exact ih hu.2.2 hv.2.2 (Nat.lt_of_succ_lt_succ hf)
    · exact ⟨_, rfl⟩

/-- What the loop over a chain finds. -/
theorem findSymbol_of_strAt {ps : List Htentry} {found : Option ℕ} (hstr : StrAt 0 mem str w)
    (hps : ∀ p ∈ ps, ∃ v, StrAt 0 mem p.str v) (hm : findSymbol mem fuel str ps = some found) :
    (∀ sym, found = some sym → ∃ p ∈ ps, p.symbol = sym ∧ StrAt 0 mem p.str w) ∧
      (found = none → ∀ p ∈ ps, ¬StrAt 0 mem p.str w) := by
  induction ps with
  | nil =>
    obtain rfl := Option.some.inj hm
    refine ⟨fun _ h => (nomatch h), fun _ _ hp => (nomatch hp)⟩
  | cons p ps ih =>
    obtain ⟨eq, heq, hm⟩ := Option.bind_eq_some_iff.mp hm
    obtain ⟨v, hv⟩ := hps p List.mem_cons_self
    have hiff := symbolEqP_of_strAt hv hstr heq
    cases eq with
    | true =>
      obtain rfl := Option.some.inj hm
      obtain rfl := hiff.mp rfl
      refine ⟨fun sym h => ⟨p, List.mem_cons_self, Option.some.inj h, hv⟩, fun h => nomatch h⟩
    | false =>
      obtain ⟨hsome, hnone⟩ := ih (fun q hq => hps q (List.mem_cons_of_mem p hq)) hm
      refine ⟨fun sym h => ?_, fun h q hq hw => ?_⟩
      · obtain ⟨q, hq, hqs⟩ := hsome sym h
        exact ⟨q, List.mem_cons_of_mem p hq, hqs⟩
      · rcases List.mem_cons.mp hq with rfl | hq
        · exact absurd (hiff.mpr (hv.unique hw)) Bool.false_ne_true
        · exact hnone h q hq hw

theorem exists_findSymbol {ps : List Htentry} (hstr : StrAt 0 mem str w)
    (hps : ∀ p ∈ ps, ∃ v, StrAt 0 mem p.str v) (hf : w.length < fuel) :
    ∃ found, findSymbol mem fuel str ps = some found := by
  induction ps with
  | nil => exact ⟨none, rfl⟩
  | cons p ps ih =>
    obtain ⟨v, hv⟩ := hps p List.mem_cons_self
    obtain ⟨eq, heq⟩ := exists_symbolEqP hv hstr hf
    rw [findSymbol, heq, Option.bind_some]
    split_ifs
    · exact ⟨_, rfl⟩
    · exact ih fun q hq => hps q (List.mem_cons_of_mem p hq)

/-! ## The invariant

Every symbol of a chain is the only one of its name, and is in the chain of the name's hash value.
-/

/-- An entry is in the chain of the hash value of its name, which is that of its symbol, and a name
has one symbol. -/
structure Inv (t : Table) : Prop where
  chain : ∀ k, ∀ p ∈ t.chains k, ∃ w, StrAt 0 t.mem p.str w ∧ hashOf w = k
  symbolVal : ∀ k, ∀ p ∈ t.chains k, t.symbolVal p.symbol = p.str
  unique : ∀ w sym sym', t.Interned w sym → t.Interned w sym' → sym = sym'

namespace Inv

theorem named {sym : ℕ} (hi : Inv t) (h : t.Interned w sym) : t.Named sym w := by
  obtain ⟨k, p, hp, rfl, hw⟩ := h
  rw [Table.Named, hi.symbolVal k p hp]
  exact hw

/-- **Symbols and names**: equal names have equal symbols, and no others do. -/
theorem same (hi : Inv t) (hu : t.Interned u a) (hv : t.Interned v b) : a = b ↔ u = v := by
  constructor
  · rintro rfl
    exact (hi.named hu).unique (hi.named hv)
  · rintro rfl
    exact hi.unique u a b hu hv

end Inv

theorem inv_init (mem : ℕ → UInt8) (symbolVal : ℕ → ℕ) : Inv (Table.init mem symbolVal) where
  chain _ _ h := nomatch h
  symbolVal _ _ h := nomatch h
  unique _ _ _ h := by
    obtain ⟨_, _, hp, -⟩ := h
    exact nomatch hp

/-- Names are where they were if their memory is the same. -/
theorem strAt_iff_of_private {p : Htentry} (hi : Inv t) (hp : p ∈ t.chains k)
    (hmem : ∀ x, t.Private x → mem x = t.mem x) :
    StrAt 0 mem p.str w ↔ StrAt 0 t.mem p.str w := by
  obtain ⟨v, hv, -⟩ := hi.chain k p hp
  have hv' : StrAt 0 mem p.str v :=
    hv.congr fun x hl hx => hmem x ⟨k, p, hp, v, hv, hl, hx⟩
  constructor
  · intro hw
    exact hv'.unique hw ▸ hv
  · intro hw
    exact hv.unique hw ▸ hv'

theorem write_inv (hi : Inv t) (hmem : ∀ x, t.Private x → mem x = t.mem x) :
    Inv { t with mem := mem } ∧ ∀ w sym, t.Interned w sym ↔
      Table.Interned { t with mem := mem } w sym := by
  have hiff (w : List UInt8) (sym : ℕ) :
      t.Interned w sym ↔ Table.Interned { t with mem := mem } w sym := by
    constructor
    · rintro ⟨k, p, hp, hs, hw⟩
      exact ⟨k, p, hp, hs, (strAt_iff_of_private hi hp hmem).mpr hw⟩
    · rintro ⟨k, p, hp, hs, hw⟩
      exact ⟨k, p, hp, hs, (strAt_iff_of_private hi hp hmem).mp hw⟩
  refine ⟨⟨fun k p hp => ?_, hi.symbolVal, fun w a b ha hb => ?_⟩, hiff⟩
  · obtain ⟨w, hw, hk⟩ := hi.chain k p hp
    exact ⟨w, (strAt_iff_of_private hi hp hmem).mpr hw, hk⟩
  · exact hi.unique w a b ((hiff w a).mpr ha) ((hiff w b).mpr hb)

/-- The copy of the name is outside the names that are there. -/
theorem strcpy_private (hroom : t.Room str w s sym) {x : ℕ} (hx : t.Private x) :
    strcpy t.mem s str w.length x = t.mem x := by
  rw [strcpy, if_neg fun h => hroom.unshared x h.1 h.2 hx]

/-- The copy of a name is the name. -/
theorem strAt_strcpy (hstr : StrAt 0 mem str w) : StrAt 0 (strcpy mem s str w.length) s w := by
  refine hstr.copy fun i hi => ?_
  rw [strcpy, if_pos ⟨Nat.le_add_right _ _, Nat.add_le_add_left hi s⟩, Nat.add_sub_cancel_left]

theorem mem_chains_insert {p : Htentry} {k' : ℕ}
    (h : p ∈ (t.insert k str w.length s sym).chains k') :
    p ∈ t.chains k' ∨ k' = k ∧ p = ⟨s, sym⟩ := by
  by_cases hk : k' = k
  · subst hk
    simp only [Table.insert, Function.update_self, List.mem_cons] at h
    exact h.symm.imp_right fun hp => ⟨rfl, hp⟩
  · simp only [Table.insert, Function.update_of_ne hk] at h
    exact .inl h

theorem mem_chains_insert_of_mem {p : Htentry} {k' : ℕ} (h : p ∈ t.chains k') :
    p ∈ (t.insert k str w.length s sym).chains k' := by
  by_cases hk : k' = k
  · subst hk
    simp only [Table.insert, Function.update_self]
    exact List.mem_cons_of_mem _ h
  · simpa only [Table.insert, Function.update_of_ne hk] using h

theorem mem_chains_insert_self : ⟨s, sym⟩ ∈ (t.insert k str w.length s sym).chains k := by
  simp only [Table.insert, Function.update_self]
  exact List.mem_cons_self

/-- **A new name** has its symbol, and the other names keep theirs. -/
theorem interned_insert_iff (hi : Inv t) (hstr : StrAt 0 t.mem str w)
    (hroom : t.Room str w s sym) : (t.insert k str w.length s sym).Interned v r ↔
      t.Interned v r ∨ v = w ∧ r = sym := by
  have hpriv : ∀ x, t.Private x → strcpy t.mem s str w.length x = t.mem x :=
    fun x hx => strcpy_private hroom hx
  constructor
  · rintro ⟨k', p, hp, rfl, hv⟩
    rcases mem_chains_insert hp with hp | ⟨rfl, rfl⟩
    · exact .inl ⟨k', p, hp, rfl, (strAt_iff_of_private hi hp hpriv).mp hv⟩
    · exact .inr ⟨hv.unique (strAt_strcpy hstr), rfl⟩
  · rintro (⟨k', p, hp, hs, hv⟩ | ⟨rfl, rfl⟩)
    · exact ⟨k', p, mem_chains_insert_of_mem hp, hs, (strAt_iff_of_private hi hp hpriv).mpr hv⟩
    · exact ⟨k, _, mem_chains_insert_self, rfl, strAt_strcpy hstr⟩

theorem insert_inv (hi : Inv t) (hstr : StrAt 0 t.mem str w) (hroom : t.Room str w s sym)
    (hnew : ∀ p ∈ t.chains (hashOf w), ¬StrAt 0 t.mem p.str w) :
    Inv (t.insert (hashOf w) str w.length s sym) where
  chain k p hp := by
    rcases mem_chains_insert hp with hp | ⟨rfl, rfl⟩
    · obtain ⟨v, hv, hk⟩ := hi.chain k p hp
      exact ⟨v, (strAt_iff_of_private hi hp fun x hx => strcpy_private hroom hx).mpr hv, hk⟩
    · exact ⟨w, strAt_strcpy hstr, rfl⟩
  symbolVal k p hp := by
    rcases mem_chains_insert hp with hp | ⟨rfl, rfl⟩
    · exact (Function.update_of_ne (hroom.unused k p hp) _ _).trans (hi.symbolVal k p hp)
    · exact Function.update_self _ _ _
  unique v a b ha hb := by
    -- a name that is there has an entry in the chain of its hash value
    have hno (r : ℕ) : ¬t.Interned w r := by
      rintro ⟨k, p, hp, -, hw⟩
      obtain ⟨v, hv, rfl⟩ := hi.chain k p hp
      obtain rfl := hv.unique hw
      exact hnew p hp hw
    rw [interned_insert_iff hi hstr hroom] at ha hb
    rcases ha with ha | ⟨rfl, rfl⟩ <;> rcases hb with hb | ⟨hv, hb⟩
    · exact hi.unique v a b ha hb
    · exact absurd (hv ▸ ha) (hno a)
    · exact absurd hb (hno b)
    · exact hb.symm

/-- **`scheme_make_symbol`** keeps the invariant, the names that are there keep their symbols, and
the symbol returned is that of the name. -/
theorem makeSymbol_inv (hi : Inv t) (hstr : StrAt 0 t.mem str w) (hroom : t.Room str w s sym)
    (hm : schemeMakeSymbol fuel str s sym t = some (r, t')) :
    Inv t' ∧ (∀ v a, t.Interned v a → t'.Interned v a) ∧ t'.Interned w r := by
  obtain ⟨k, hk, hm⟩ := Option.bind_eq_some_iff.mp hm
  obtain rfl := hashSymbol_of_strAt hstr hk
  obtain ⟨found, hfound, hm⟩ := Option.bind_eq_some_iff.mp hm
  obtain ⟨hsome, hnone⟩ := findSymbol_of_strAt hstr
    (fun p hp => (hi.chain _ p hp).imp fun _ h => h.1) hfound
  cases found with
  | some symbol =>
    obtain ⟨rfl, rfl⟩ := Prod.mk.inj (Option.some.inj hm)
    obtain ⟨p, hp, hs, hw⟩ := hsome _ rfl
    exact ⟨hi, fun _ _ h => h, _, p, hp, hs, hw⟩
  | none =>
    obtain ⟨n, hn, hm⟩ := Option.bind_eq_some_iff.mp hm
    obtain ⟨rfl, rfl⟩ := Prod.mk.inj (Option.some.inj hm)
    obtain rfl := strlen_of_strAt hstr hn
    have hiff (v : List UInt8) (a : ℕ) := interned_insert_iff (k := hashOf w) (v := v) (r := a)
      hi hstr hroom
    exact ⟨insert_inv hi hstr hroom (hnone rfl), fun v a h => (hiff v a).mpr (.inl h),
      (hiff w _).mpr (.inr ⟨rfl, rfl⟩)⟩

/-- A call returns. -/
theorem exists_makeSymbol (hi : Inv t) (hstr : StrAt 0 t.mem str w) (s sym : ℕ) :
    ∃ fuel, (schemeMakeSymbol fuel str s sym t).isSome := by
  have hf : w.length < w.length + 1 := Nat.lt_succ_self _
  obtain ⟨found, hfound⟩ := exists_findSymbol hstr
    (fun p hp => (hi.chain (hashOf w) p hp).imp fun _ h => h.1) hf
  refine ⟨w.length + 1, ?_⟩
  cases found <;> simp [schemeMakeSymbol, hashSymbol_eq hstr hf, hfound, strlen_eq hstr hf]

/-! ## Runs -/

/-- **The run lemma**: the invariant is kept, and so are the symbols that were returned. -/
theorem run_inv {events : List Event} (hr : Runs Step t events t') (hi : Inv t) :
    Inv t' ∧ (∀ v a, t.Interned v a → t'.Interned v a) ∧
      ∀ v a, .makeSymbol v a ∈ events → t'.Interned v a := by
  induction hr with
  | nil => exact ⟨hi, fun _ _ h => h, fun _ _ h => (nomatch h)⟩
  | cons hst _ ih =>
    cases hst with
    | makeSymbol hstr hroom hm =>
      obtain ⟨hi', hkeep, hnew⟩ := makeSymbol_inv hi hstr hroom hm
      obtain ⟨hi'', hkeep', hrest⟩ := ih hi'
      refine ⟨hi'', fun v a h => hkeep' v a (hkeep v a h), fun v a h => ?_⟩
      rcases List.mem_cons.mp h with heq | h
      · obtain ⟨rfl, rfl⟩ := Event.makeSymbol.inj heq
        exact hkeep' _ _ hnew
      · exact hrest v a h
    | write hmem =>
      obtain ⟨hi', hiff⟩ := write_inv hi hmem
      obtain ⟨hi'', hkeep, hrest⟩ := ih hi'
      refine ⟨hi'', fun v a h => hkeep v a ((hiff v a).mp h), fun v a h => ?_⟩
      rcases List.mem_cons.mp h with heq | h
      · exact nomatch heq
      · exact hrest v a h

/-- **Symbols are interned** in every run from the empty table. -/
theorem interns_of_run {symbolVal : ℕ → ℕ} {events : List Event}
    (hr : Runs Step (Table.init mem symbolVal) events t) : t.Interns events := by
  obtain ⟨hi, -, hev⟩ := run_inv hr (inv_init mem symbolVal)
  exact {
    same := fun w w' sym sym' h h' => hi.same (hev w sym h) (hev w' sym' h')
    named := fun w sym h => hi.named (hev w sym h)
    returns := fun str w s sym h => exists_makeSymbol hi h s sym }

/-- The string "a", in a memory that is NUL otherwise. -/
def oneChar : Table := Table.init (Function.update (fun _ => 0) 0 97) fun _ => 0

theorem room_oneChar : oneChar.Room 0 [97] 8 1 where
  unshared x _ _ h := by
    obtain ⟨_, _, hp, -⟩ := h
    exact nomatch hp
  apart x hl _ h := by
    have := h.2
    rw [List.length_singleton] at this
    omega
  unused _ _ hp := nomatch hp

theorem makeSymbol_oneChar :
    schemeMakeSymbol 2 0 8 1 oneChar = some (1, oneChar.insert (hashOf [97]) 0 1 8 1) := rfl

/-- The table after the symbol of "a" is made, when the client has written "b" into its buffer. -/
def rewritten : Table :=
  { oneChar.insert (hashOf [97]) 0 1 8 1 with
    mem := Function.update (oneChar.insert (hashOf [97]) 0 1 8 1).mem 0 98 }

theorem mem_chains_rewritten {k : ℕ} {p : Htentry} (hp : p ∈ rewritten.chains k) : p = ⟨8, 1⟩ := by
  have hp' : p ∈ (oneChar.insert (hashOf [97]) 0 [(97 : UInt8)].length 8 1).chains k := hp
  rcases mem_chains_insert hp' with hp | ⟨-, rfl⟩
  · exact nomatch hp
  · rfl

theorem private_rewritten {x : ℕ} (h : rewritten.Private x) : 8 ≤ x ∧ x ≤ 9 := by
  obtain ⟨k, p, hp, w, hw, hl, hr⟩ := h
  obtain rfl := mem_chains_rewritten hp
  have hname : StrAt 0 rewritten.mem 8 [97] := ⟨rfl, by decide, rfl⟩
  obtain rfl : w = [97] := hw.unique hname
  exact ⟨hl, hr⟩

theorem room_rewritten : rewritten.Room 0 [98] 10 2 where
  unshared x hl _ h := by
    have := private_rewritten h
    omega
  apart x hl _ h := by
    have := h.2
    rw [List.length_singleton] at this
    omega
  unused k p hp := by
    rw [mem_chains_rewritten hp]
    decide

/-- "a" and "b" are interned, from one buffer. -/
theorem interns_of_run_char :
    Table.Interns (rewritten.insert (hashOf [98]) 0 1 10 2)
      [.makeSymbol [97] 1, .write, .makeSymbol [98] 2] := by
  have hfirst : StrAt 0 oneChar.mem 0 [97] := ⟨rfl, by decide, rfl⟩
  have hsecond : StrAt 0 rewritten.mem 0 [98] := ⟨rfl, by decide, rfl⟩
  have hmake : schemeMakeSymbol 2 0 10 2 rewritten =
      some (2, rewritten.insert (hashOf [98]) 0 1 10 2) := rfl
  refine interns_of_run (.cons (.makeSymbol hfirst room_oneChar makeSymbol_oneChar) (.cons ?_
    (.single (.makeSymbol hsecond room_rewritten hmake))))
  refine .write fun x hx => Function.update_of_ne (fun h0 => ?_) _ _
  obtain ⟨k, p, hp, w, -, hl, -⟩ := hx
  rcases mem_chains_insert (w := [97]) hp with hp | ⟨rfl, rfl⟩
  · exact nomatch hp
  · exact absurd (h0 ▸ hl) (by decide)

end SchemeOs.Symbols
