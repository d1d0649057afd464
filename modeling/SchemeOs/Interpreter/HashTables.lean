import SchemeOs.Interpreter.Symbols

/-!
# Interpreter/HashTables — the hash tables of `hash.c`

A table is a record that points to its chains, and `scheme_make_hash` lets every table point to the
one array `_HT_`, which it clears.  `scheme_hash_get` looks for an entry whose key is equal, but
`scheme_hash_put` takes the first entry whose key is not.

The keys are strings in memory, which the tables only point to.  The comparison of a table is a
parameter; allocation succeeds.
-/

namespace SchemeOs.HashTables

open Symbols

/-! ## The functions -/

/-- `struct _HtList`, with a value of type `V`. -/
structure HtList (V : Type) where
  key : ℕ
  val : V

/-- `Scheme_compar_t` -/
abbrev Compar := ℕ → ℕ → ℤ

/-- `_HT_`, and the comparisons of the tables made so far, whose chains are `_HT_`. -/
structure Store (V : Type) where
  ht : ℕ → List (HtList V)
  eqP : List Compar

variable {V : Type}

/-- `scheme_make_hash` -/
def schemeMakeHash (eqP : Compar) (s : Store V) : Store V := ⟨fun _ => [], s.eqP ++ [eqP]⟩

/-- `scheme_hash_get`, for a table with the comparison `eqP`. -/
def schemeHashGet (schemeVoid : V) (mem : ℕ → UInt8) (fuel : ℕ) (eqP : Compar) (key : ℕ)
    (s : Store V) : Option V :=
  (hashSymbol mem fuel key).map fun k =>
    match (s.ht k).find? fun p => eqP key p.key ≠ 0 with
    | some p => p.val
    | none => schemeVoid

/-- The loop of `scheme_hash_put`, and the change of the entry that it stops at. -/
def putChain (eqP : Compar) (key : ℕ) (obj : V) : List (HtList V) → Option (List (HtList V))
  | [] => none
  | p :: ps =>
    if eqP key p.key = 0 then some ({ p with val := obj } :: ps)
    else (putChain eqP key obj ps).map (p :: ·)

/-- `scheme_hash_put` -/
def schemeHashPut (mem : ℕ → UInt8) (fuel : ℕ) (eqP : Compar) (key : ℕ) (obj : V) (s : Store V) :
    Option (Store V) :=
  (hashSymbol mem fuel key).map fun k =>
    { s with
      ht := Function.update s.ht k ((putChain eqP key obj (s.ht k)).getD (⟨key, obj⟩ :: s.ht k)) }

/-! ## The system

Any number of tables, and what a client has put into each of them. -/

/-- What a table is for: a value for each key. -/
abbrev Map (V : Type) := List UInt8 → V

/-- The tables as the code has them, and as finite maps. -/
structure System (V : Type) where
  store : Store V
  maps : List (Map V)

/-- A call: a table is named by its number in the order they were made. -/
inductive Call (V : Type) where
  | make
  | put (t : ℕ) (w : List UInt8) (obj : V)
  | get (t : ℕ) (w : List UInt8)

/-- The comparison is non-zero exactly on equal strings. -/
def Decides (mem : ℕ → UInt8) (eqP : Compar) : Prop :=
  ∀ a b u v, StrAt 0 mem a u → StrAt 0 mem b v → (eqP a b ≠ 0 ↔ u = v)

/-- One call, with its effect on the maps beside. -/
inductive Step (schemeVoid : V) (mem : ℕ → UInt8) : System V → Call V → System V → Prop where
  | make {s : System V} {eqP : Compar} : Decides mem eqP →
      Step schemeVoid mem s .make ⟨schemeMakeHash eqP s.store, s.maps ++ [fun _ => schemeVoid]⟩
  | put {s : System V} {t key fuel : ℕ} {w : List UInt8} {obj : V} {eqP : Compar} {m : Map V}
      {store : Store V} : StrAt 0 mem key w → s.store.eqP[t]? = some eqP → s.maps[t]? = some m →
      schemeHashPut mem fuel eqP key obj s.store = some store →
      Step schemeVoid mem s (.put t w obj) ⟨store, s.maps.set t (Function.update m w obj)⟩
  | get {s : System V} {t : ℕ} {w : List UInt8} : Step schemeVoid mem s (.get t w) s

/-- No table has been made. -/
def System.init (ht : ℕ → List (HtList V)) : System V := ⟨⟨ht, []⟩, []⟩

/-- **Each table behaves as its map**: `scheme_hash_get` returns the map's value for every key. -/
def System.Behaves (schemeVoid : V) (mem : ℕ → UInt8) (s : System V) : Prop :=
  ∀ (t : ℕ) (eqP : Compar) (m : Map V), s.store.eqP[t]? = some eqP → s.maps[t]? = some m →
    ∀ key w fuel, StrAt 0 mem key w → w.length < fuel →
      schemeHashGet schemeVoid mem fuel eqP key s.store = some (m w)

/-- When a call does what it should.  A table is made when all others are empty.  Something is put
into a table when the others have it already, and no other key has the hash value; where both are
`void`, that does no harm. -/
def Harmless (schemeVoid : V) (mem : ℕ → UInt8) (s : System V) : Call V → Prop
  | .make => ∀ m ∈ s.maps, ∀ key w, StrAt 0 mem key w → m w = schemeVoid
  | .put t w obj =>
    (∀ (u : ℕ) (m : Map V), u ≠ t → s.maps[u]? = some m → m w = obj) ∧
      ∀ p ∈ s.store.ht (hashOf w), ∀ v, StrAt 0 mem p.key v → v ≠ w →
        obj = schemeVoid ∧ ∀ m : Map V, s.maps[t]? = some m → m v = schemeVoid
  | .get _ _ => True

/-- All entries of a chain have one key, which belongs there. -/
def Store.Chained (mem : ℕ → UInt8) (s : Store V) : Prop :=
  ∀ k, s.ht k ≠ [] → ∃ w, hashOf w = k ∧ ∀ p ∈ s.ht k, StrAt 0 mem p.key w

/-! ## Chains

All tables share the array of chains, so that a pair is found in any table with its hash value. -/

variable {schemeVoid obj : V} {mem : ℕ → UInt8} {eqP : Compar} {key k fuel t : ℕ}
  {v w : List UInt8} {chain : List (HtList V)} {s s' : System V} {c : Call V}

/-- The value under the key `w` in the chains. -/
def Store.At (mem : ℕ → UInt8) (schemeVoid : V) (s : Store V) (w : List UInt8) (x : V) : Prop :=
  (∃ p ps, s.ht (hashOf w) = p :: ps ∧ StrAt 0 mem p.key w ∧ x = p.val) ∨
    ((∀ p ∈ s.ht (hashOf w), ¬StrAt 0 mem p.key w) ∧ x = schemeVoid)

/-- Where the chains have one key each, `scheme_hash_get` looks at the first entry. -/
theorem schemeHashGet_eq {s : Store V} {x : V} (hd : Decides mem eqP) (hs : s.Chained mem)
    (hkey : StrAt 0 mem key w) (hf : w.length < fuel) :
    schemeHashGet schemeVoid mem fuel eqP key s = some x ↔ s.At mem schemeVoid w x := by
  rw [schemeHashGet, hashSymbol_eq hkey hf, Option.map_some, Option.some_inj]
  unfold Store.At
  cases hchain : s.ht (hashOf w) with
  | nil => simp [eq_comm]
  | cons p ps =>
    obtain ⟨u, -, hu⟩ := hs (hashOf w) (by rw [hchain]; exact List.cons_ne_nil p ps)
    rw [hchain] at hu
    have hp := hu p List.mem_cons_self
    by_cases heq : w = u
    · subst heq
      have hne : eqP key p.key ≠ 0 := (hd _ _ _ _ hkey hp).mpr rfl
      rw [List.find?_cons_of_pos (by simpa using hne)]
      constructor
      · exact fun h => .inl ⟨p, ps, rfl, hp, h.symm⟩
      · rintro (⟨p', ps', heq, -, rfl⟩ | ⟨hnone, -⟩)
        · obtain ⟨rfl, -⟩ := List.cons.inj heq
          rfl
        · exact absurd hp (hnone p List.mem_cons_self)
    · have hnone : (p :: ps).find? (fun p => eqP key p.key ≠ 0) = none := by
        rw [List.find?_eq_none]
        intro q hq
        have hzero : ¬eqP key q.key ≠ 0 := fun h => heq ((hd _ _ _ _ hkey (hu q hq)).mp h)
        simpa using hzero
      rw [hnone]
      constructor
      · exact fun h => .inr ⟨fun q hq hw => heq (hw.unique (hu q hq)), h.symm⟩
      · rintro (⟨p', ps', heq', hw, -⟩ | ⟨-, rfl⟩)
        · obtain ⟨rfl, -⟩ := List.cons.inj heq'
          exact absurd (hw.unique hp) heq
        · rfl

/-- There is one value under a key. -/
theorem Store.At.unique {s : Store V} {x y : V} (hx : s.At mem schemeVoid w x)
    (hy : s.At mem schemeVoid w y) : x = y := by
  rcases hx with ⟨p, ps, hp, hkey, rfl⟩ | ⟨hnone, rfl⟩
  · rcases hy with ⟨q, qs, hq, -, rfl⟩ | ⟨hnone, -⟩
    · rw [hp] at hq
      obtain ⟨rfl, -⟩ := List.cons.inj hq
      rfl
    · exact absurd hkey (hnone p (hp ▸ List.mem_cons_self))
  · rcases hy with ⟨q, qs, hq, hkey, -⟩ | ⟨-, rfl⟩
    · exact absurd hkey (hnone q (hq ▸ List.mem_cons_self))
    · rfl

/-- In a chain of the key itself the loop of `scheme_hash_put` finds nothing. -/
theorem putChain_same (hd : Decides mem eqP) (hkey : StrAt 0 mem key w)
    (h : ∀ p ∈ chain, StrAt 0 mem p.key w) : putChain eqP key obj chain = none := by
  induction chain with
  | nil => rfl
  | cons p ps ih =>
    have hne : eqP key p.key ≠ 0 := (hd _ _ _ _ hkey (h p List.mem_cons_self)).mpr rfl
    rw [putChain, if_neg hne, ih fun q hq => h q (List.mem_cons_of_mem _ hq)]
    rfl

/-- In a chain of another key it stops at the first entry. -/
theorem putChain_other {p : HtList V} (hd : Decides mem eqP) (hkey : StrAt 0 mem key w)
    (hp : StrAt 0 mem p.key v) (hne : v ≠ w) :
    putChain eqP key obj (p :: chain) = some ({ p with val := obj } :: chain) := by
  have hzero : eqP key p.key = 0 := by
    by_contra h
    exact hne ((hd _ _ _ _ hkey hp).mp h).symm
  rw [putChain, if_pos hzero]

/-- In a chain of another key there is nothing under a key. -/
theorem at_of_other (schemeVoid : V) {st : Store V} {z : List UInt8} (hne : v ≠ z)
    (hz : ∀ p ∈ st.ht (hashOf v), StrAt 0 mem p.key z) (x : V) :
    st.At mem schemeVoid v x ↔ x = schemeVoid := by
  constructor
  · rintro (⟨p, ps, hp, hkey, -⟩ | ⟨-, rfl⟩)
    · exact absurd (hkey.unique (hz p (hp ▸ List.mem_cons_self))) hne
    · rfl
  · exact fun h => .inr ⟨fun p hp hkey => hne (hkey.unique (hz p hp)), h⟩

/-- A chain of the key `z` is replaced by one that has the value `obj` in front. -/
theorem at_update {st st' : Store V} {z : List UInt8} {p : HtList V} {ps : List (HtList V)}
    (hst : st'.ht = Function.update st.ht (hashOf z) (p :: ps)) (hval : p.val = obj)
    (hnew : ∀ q ∈ p :: ps, StrAt 0 mem q.key z)
    (hold : ∀ q ∈ st.ht (hashOf z), StrAt 0 mem q.key z) (v : List UInt8) (x : V) :
    st'.At mem schemeVoid v x ↔ if v = z then x = obj else st.At mem schemeVoid v x := by
  have hself : st'.ht (hashOf z) = p :: ps := by rw [hst, Function.update_self]
  by_cases hvz : v = z
  · subst hvz
    rw [if_pos rfl]
    unfold Store.At
    rw [hself]
    constructor
    · rintro (⟨q, qs, heq, -, rfl⟩ | ⟨hnone, -⟩)
      · rw [← (List.cons.inj heq).1, hval]
      · exact absurd (hnew p List.mem_cons_self) (hnone p List.mem_cons_self)
    · exact fun h => .inl ⟨p, ps, rfl, hnew p List.mem_cons_self, h.trans hval.symm⟩
  · rw [if_neg hvz]
    by_cases hhash : hashOf v = hashOf z
    · rw [at_of_other schemeVoid hvz (by rw [hhash, hself]; exact hnew),
        at_of_other schemeVoid hvz (by rw [hhash]; exact hold)]
    · unfold Store.At
      rw [hst, Function.update_of_ne hhash]

/-! ## One call -/

/-- Between calls, tables behave when the values in the chains are those of the maps. -/
theorem behaves_iff (hlen : s.store.eqP.length = s.maps.length)
    (hd : ∀ eqP ∈ s.store.eqP, Decides mem eqP) (hs : s.store.Chained mem) :
    s.Behaves schemeVoid mem ↔ ∀ (t : ℕ) (m : Map V), s.maps[t]? = some m →
      ∀ key w, StrAt 0 mem key w → s.store.At mem schemeVoid w (m w) := by
  constructor
  · intro h t m hm key w hkey
    obtain ⟨ht, -⟩ := List.getElem?_eq_some_iff.mp hm
    have heqP : s.store.eqP[t]? = some s.store.eqP[t] := List.getElem?_eq_getElem (by omega)
    have hget := h t _ _ heqP hm key w (w.length + 1) hkey (Nat.lt_succ_self _)
    exact (schemeHashGet_eq (hd _ (List.getElem_mem _)) hs hkey (Nat.lt_succ_self _)).mp hget
  · intro h t eqP m heqP hm key w fuel hkey hf
    exact (schemeHashGet_eq (hd eqP (List.mem_of_getElem? heqP)) hs hkey hf).mpr
      (h t m hm key w hkey)

/-- What a call of `scheme_hash_put` changes: the value under the key, or under the other key that
the chain has. -/
theorem schemeHashPut_spec (schemeVoid : V) {st st' : Store V} (hd : Decides mem eqP)
    (hs : st.Chained mem) (hkey : StrAt 0 mem key w)
    (hput : schemeHashPut mem fuel eqP key obj st = some st') :
    st'.eqP = st.eqP ∧ st'.Chained mem ∧ ∃ z, (∃ a, StrAt 0 mem a z) ∧ hashOf z = hashOf w ∧
      (∀ p ∈ st.ht (hashOf w), StrAt 0 mem p.key z) ∧ (z ≠ w → st.ht (hashOf w) ≠ []) ∧
      ∀ v x, st'.At mem schemeVoid v x ↔ if v = z then x = obj else st.At mem schemeVoid v x := by
  obtain ⟨k, hk, rfl⟩ := Option.map_eq_some_iff.mp hput
  obtain rfl := hashSymbol_of_strAt hkey hk
  obtain ⟨z, hz, hzkey, hzne, p, ps, hchain, hval, hnew⟩ : ∃ z, hashOf z = hashOf w ∧
      (∀ p ∈ st.ht (hashOf w), StrAt 0 mem p.key z) ∧ (z ≠ w → st.ht (hashOf w) ≠ []) ∧
      ∃ p ps, (putChain eqP key obj (st.ht (hashOf w))).getD (⟨key, obj⟩ :: st.ht (hashOf w)) =
        p :: ps ∧ p.val = obj ∧ ∀ q ∈ p :: ps, StrAt 0 mem q.key z := by
    by_cases hsame : ∀ p ∈ st.ht (hashOf w), StrAt 0 mem p.key w
    · refine ⟨w, rfl, hsame, fun hne => absurd rfl hne, ⟨key, obj⟩, st.ht (hashOf w), ?_, rfl, ?_⟩
      · rw [putChain_same hd hkey hsame]
        rfl
      · intro q hq
        rcases List.mem_cons.mp hq with rfl | hq
        · exact hkey
        · exact hsame q hq
    · have hne : st.ht (hashOf w) ≠ [] := by
        intro hnil
        rw [hnil] at hsame
        exact hsame nofun
      obtain ⟨z, hz, hzkey⟩ := hs _ hne
      obtain ⟨p, ps, hchain⟩ := List.exists_cons_of_ne_nil hne
      have hzw : z ≠ w := by
        rintro rfl
        exact hsame hzkey
      refine ⟨z, hz, hzkey, fun _ => hne, { p with val := obj }, ps, ?_, rfl, ?_⟩
      · rw [hchain, putChain_other hd hkey (hzkey p (hchain ▸ List.mem_cons_self)) hzw]
        rfl
      · rw [hchain] at hzkey
        intro q hq
        rcases List.mem_cons.mp hq with rfl | hq
        · exact hzkey p List.mem_cons_self
        · exact hzkey q (List.mem_cons_of_mem _ hq)
  rw [hchain]
  refine ⟨rfl, fun k hne => ?_, z, ⟨p.key, hnew p List.mem_cons_self⟩, hz, hzkey, hzne, ?_⟩
  · by_cases hk : k = hashOf w
    · subst hk
      simp only [Function.update_self]
      exact ⟨z, hz, hnew⟩
    · simp only [Function.update_of_ne hk] at hne ⊢
      exact hs k hne
  · rw [← hz] at hzkey
    exact at_update (by rw [hz]) hval hnew hzkey

/-- The invariant, but for what the tables are to do. -/
structure System.Linked (mem : ℕ → UInt8) (s : System V) : Prop where
  length_eq : s.store.eqP.length = s.maps.length
  decides : ∀ eqP ∈ s.store.eqP, Decides mem eqP
  chained : s.maps ≠ [] → s.store.Chained mem

theorem linked_init (ht : ℕ → List (HtList V)) : (System.init ht).Linked mem :=
  ⟨rfl, nofun, fun h => absurd rfl h⟩

theorem linked_make (schemeVoid : V) (h : s.Linked mem) (hd : Decides mem eqP) :
    System.Linked mem ⟨schemeMakeHash eqP s.store, s.maps ++ [fun _ => schemeVoid]⟩ where
  length_eq := by
    rw [schemeMakeHash, List.length_append, List.length_append, h.length_eq]
    rfl
  decides e he := (List.mem_append.mp he).elim (h.decides e) fun he =>
    List.mem_singleton.mp he ▸ hd
  chained _ k hne := absurd rfl hne

theorem linked_put {m : Map V} {st : Store V} (h : s.Linked mem) (hm : s.maps[t]? = some m)
    (heqP : s.store.eqP[t]? = some eqP) (hkey : StrAt 0 mem key w)
    (hput : schemeHashPut mem fuel eqP key obj s.store = some st) :
    System.Linked mem ⟨st, s.maps.set t (Function.update m w obj)⟩ := by
  have hmaps : s.maps ≠ [] := List.ne_nil_of_mem (List.mem_of_getElem? hm)
  obtain ⟨hst, hchained, -⟩ := schemeHashPut_spec obj
    (h.decides eqP (List.mem_of_getElem? heqP)) (h.chained hmaps) hkey hput
  refine ⟨?_, ?_, fun _ => hchained⟩
  · rw [hst, List.length_set]
    exact h.length_eq
  · rw [hst]
    exact h.decides

theorem linked_step (h : s.Linked mem) (hst : Step schemeVoid mem s c s') : s'.Linked mem := by
  cases hst with
  | make hd => exact linked_make schemeVoid h hd
  | put hkey heqP hm hput => exact linked_put h hm heqP hkey hput
  | get => exact h

/-- A new table is empty, and so are all others. -/
theorem harmless_make (h : s.Linked mem) (hd : Decides mem eqP) :
    Harmless schemeVoid mem s .make ↔
      System.Behaves schemeVoid mem
        ⟨schemeMakeHash eqP s.store, s.maps ++ [fun _ => schemeVoid]⟩ := by
  have hlinked := linked_make schemeVoid h hd
  have hempty (v : List UInt8) (x : V) :
      (schemeMakeHash eqP s.store).At mem schemeVoid v x ↔ x = schemeVoid :=
    ⟨fun hat => hat.elim (fun ⟨p, ps, hp, _⟩ => nomatch hp) fun hat => hat.2,
      fun hx => .inr ⟨nofun, hx⟩⟩
  rw [behaves_iff hlinked.length_eq hlinked.decides
    (hlinked.chained (List.append_ne_nil_of_right_ne_nil _ (List.cons_ne_nil _ _)))]
  constructor
  · intro hvoid t m hm key w hkey
    rw [hempty]
    rcases List.mem_append.mp (List.mem_of_getElem? hm) with hm | hm
    · exact hvoid m hm key w hkey
    · rw [List.mem_singleton.mp hm]
  · intro hat m hm key w hkey
    obtain ⟨t, ht⟩ := List.mem_iff_getElem?.mp (List.mem_append_left [fun _ => schemeVoid] hm)
    exact (hempty w _).mp (hat t m ht key w hkey)

/-- A value put under `w`, where the chain is that of `z`, changes what all tables have under `z`.
-/
theorem behaves_put {m : Map V} {st : Store V} {z : List UInt8} (h : s.Linked mem)
    (hs : s.Behaves schemeVoid mem) (hm : s.maps[t]? = some m)
    (hlinked : System.Linked mem ⟨st, s.maps.set t (Function.update m w obj)⟩)
    (hchained : st.Chained mem) (hkey : StrAt 0 mem key w) {a : ℕ} (ha : StrAt 0 mem a z)
    (hvoid : z ≠ w → ∀ x, s.store.At mem schemeVoid w x ↔ x = schemeVoid)
    (hat : ∀ v x, st.At mem schemeVoid v x ↔
      if v = z then x = obj else s.store.At mem schemeVoid v x) :
    System.Behaves schemeVoid mem ⟨st, s.maps.set t (Function.update m w obj)⟩ ↔
      (∀ u m', u ≠ t → s.maps[u]? = some m' → m' z = obj) ∧
        (z ≠ w → m z = obj ∧ obj = schemeVoid) := by
  rw [behaves_iff h.length_eq h.decides
    (h.chained (List.ne_nil_of_mem (List.mem_of_getElem? hm)))] at hs
  have hself : (s.maps.set t (Function.update m w obj))[t]? = some (Function.update m w obj) :=
    List.getElem?_set_self (List.getElem?_eq_some_iff.mp hm).1
  have hother {u : ℕ} (hu : u ≠ t) : (s.maps.set t (Function.update m w obj))[u]? = s.maps[u]? :=
    List.getElem?_set_ne (Ne.symm hu)
  rw [behaves_iff hlinked.length_eq hlinked.decides hchained]
  constructor
  · intro hb
    refine ⟨fun u m' hut hu => ?_, fun hzw => ⟨?_, ?_⟩⟩
    · have hat' := (hat z _).mp (hb u m' ((hother hut).trans hu) a z ha)
      rwa [if_pos rfl] at hat'
    · have hat' := (hat z _).mp (hb t _ hself a z ha)
      rwa [if_pos rfl, Function.update_of_ne hzw] at hat'
    · have hat' := (hat w _).mp (hb t _ hself key w hkey)
      rwa [if_neg (Ne.symm hzw), Function.update_self, hvoid hzw] at hat'
  · rintro ⟨hothers, hforeign⟩ u m' hu key' v hv
    rw [hat]
    by_cases hut : u = t
    · subst hut
      obtain rfl := Option.some.inj (hself.symm.trans hu)
      split_ifs with hvz
      · subst hvz
        by_cases hvw : v = w
        · rw [hvw, Function.update_self]
        · rw [Function.update_of_ne hvw]
          exact (hforeign hvw).1
      · by_cases hvw : v = w
        · subst hvw
          rw [Function.update_self, hvoid (Ne.symm hvz)]
          exact (hforeign (Ne.symm hvz)).2
        · rw [Function.update_of_ne hvw]
          exact hs u m hm key' v hv
    · rw [hother hut] at hu
      split_ifs with hvz
      · rw [hvz]
        exact hothers u m' hut hu
      · exact hs u m' hu key' v hv

/-- A value that is put does no harm when all tables have it where it is stored. -/
theorem harmless_put {m : Map V} {st : Store V} (h : s.Linked mem)
    (hs : s.Behaves schemeVoid mem) (hm : s.maps[t]? = some m)
    (heqP : s.store.eqP[t]? = some eqP) (hkey : StrAt 0 mem key w)
    (hput : schemeHashPut mem fuel eqP key obj s.store = some st) :
    Harmless schemeVoid mem s (.put t w obj) ↔
      System.Behaves schemeVoid mem ⟨st, s.maps.set t (Function.update m w obj)⟩ := by
  have hchained := h.chained (List.ne_nil_of_mem (List.mem_of_getElem? hm))
  obtain ⟨-, hchained', z, ⟨a, ha⟩, hz, hzkey, hzne, hat⟩ := schemeHashPut_spec schemeVoid
    (h.decides eqP (List.mem_of_getElem? heqP)) hchained hkey hput
  have hvoid (hzw : z ≠ w) := at_of_other schemeVoid (Ne.symm hzw) hzkey
  rw [behaves_put h hs hm (linked_put h hm heqP hkey hput) hchained' hkey ha hvoid hat]
  rw [behaves_iff h.length_eq h.decides hchained] at hs
  by_cases hzw : z = w
  · -- the chain is that of the key: what is put is there for all tables
    subst hzw
    refine ⟨fun hharm => ⟨hharm.1, fun hne => absurd rfl hne⟩, fun hb => ⟨hb.1, ?_⟩⟩
    exact fun p hp v hv hne => absurd (hv.unique (hzkey p hp)) hne
  · -- the chain has another key, whose value is overwritten
    constructor
    · rintro ⟨-, hforeign⟩
      obtain ⟨p, hp⟩ := List.exists_mem_of_ne_nil _ (hzne hzw)
      obtain ⟨hobj, hmz⟩ := hforeign p hp z (hzkey p hp) hzw
      have hmobj : m z = obj := (hmz m hm).trans hobj.symm
      refine ⟨fun u m' _ hu => ?_, fun _ => ⟨hmobj, hobj⟩⟩
      exact ((hs u m' hu a z ha).unique (hs t m hm a z ha)).trans hmobj
    · rintro ⟨-, hforeign⟩
      obtain ⟨hmobj, hobj⟩ := hforeign hzw
      refine ⟨fun u m' _ hu => ?_, fun p hp v hv _ => ⟨hobj, fun m' hm' => ?_⟩⟩
      · exact ((hvoid hzw _).mp (hs u m' hu key w hkey)).trans hobj.symm
      · obtain rfl := Option.some.inj (hm.symm.trans hm')
        rw [hv.unique (hzkey p hp), hmobj, hobj]

/-- **One call** leaves tables that behave just when it is harmless. -/
theorem harmless_iff (h : s.Linked mem) (hs : s.Behaves schemeVoid mem)
    (hst : Step schemeVoid mem s c s') :
    Harmless schemeVoid mem s c ↔ s'.Behaves schemeVoid mem := by
  cases hst with
  | make hd => exact harmless_make h hd
  | put hkey heqP hm hput => exact harmless_put h hs hm heqP hkey hput
  | get => exact iff_of_true trivial hs

/-! ## Runs -/

/-- **The hash tables**: in just those runs whose calls are all harmless, each table behaves as its
own map after every call. -/
theorem behaves_of_run {calls : List (Call V)} {ht : ℕ → List (HtList V)} :
    Runs (Guarded (Harmless schemeVoid mem) (Step schemeVoid mem)) (.init ht) calls s ↔
      Runs (fun s c s' => Step schemeVoid mem s c s' ∧ s'.Behaves schemeVoid mem) (.init ht)
        calls s :=
  Runs.guard_exact (I := fun s => s.Linked mem ∧ s.Behaves schemeVoid mem)
    (fun _ _ _ hI hst => harmless_iff hI.1 hI.2 hst)
    (fun _ _ _ hI hst hP => ⟨linked_step hI.1 hst, hP⟩)
    ⟨linked_init ht, nofun⟩

/-- The memory with the string `"a"` at 0. -/
def aMemory (x : ℕ) : UInt8 := if x = 0 then 0x61 else 0

/-- A comparison that looks at the first characters. -/
def aCompar (a b : ℕ) : ℤ := if aMemory a = aMemory b then 1 else 0

theorem aString {a : ℕ} {w : List UInt8} (h : StrAt 0 aMemory a w) :
    w = if a = 0 then [0x61] else [] := by
  have hempty {b : ℕ} (hb : b ≠ 0) : StrAt 0 aMemory b [] := if_neg hb
  split_ifs with ha
  · subst ha
    exact h.unique ⟨rfl, by decide, hempty Nat.one_ne_zero⟩
  · exact h.unique (hempty ha)

theorem decides_aCompar : Decides aMemory aCompar := by
  intro a b u v hu hv
  rw [aString hu, aString hv]
  unfold aCompar aMemory
  by_cases ha : a = 0 <;> by_cases hb : b = 0 <;> simp [ha, hb]

/-- One table has been made. -/
def oneTable : System ℕ := ⟨⟨fun _ => [], [aCompar]⟩, [fun _ => 0]⟩

/-- A value is put into a table, and then another table is made. -/
theorem not_behaves : ¬∀ (calls : List (Call ℕ)) (s : System ℕ) (ht : ℕ → List (HtList ℕ)),
    Runs (Step 0 aMemory) (.init ht) calls s → s.Behaves 0 aMemory := by
  intro h
  have hkey : StrAt 0 aMemory 0 [0x61] := ⟨rfl, by decide, rfl⟩
  have hmake : Step 0 aMemory (.init fun _ => []) .make oneTable := .make decides_aCompar
  obtain ⟨store, hput⟩ : ∃ store, schemeHashPut aMemory 2 aCompar 0 7 oneTable.store = some store :=
    ⟨_, by rw [schemeHashPut, hashSymbol_eq hkey (by decide)]; rfl⟩
  have hstep : Step 0 aMemory oneTable (.put 0 [0x61] 7) _ := .put hkey rfl rfl hput
  have hrun := (Runs.single hmake).append (Runs.single hstep)
  have hlinked := linked_step (linked_step (linked_init _) hmake) hstep
  have hbehaves := h _ _ _ (hrun.append (Runs.single (.make decides_aCompar)))
  have hvoid := (harmless_make hlinked decides_aCompar).mpr hbehaves _ List.mem_cons_self 0 _ hkey
  rw [Function.update_self] at hvoid
  exact absurd hvoid (by decide)

end SchemeOs.HashTables
