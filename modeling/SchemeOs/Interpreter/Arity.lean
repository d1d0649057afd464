import SchemeOs.Interpreter.Keywords
import SchemeOs.Interpreter.Stores
import SchemeOs.Machinery.Ensures

/-!
# Interpreter/Arity — procedures and the number of their arguments

`schemeExtendEnv` walks the parameters and takes a value for each.  Nothing counts the values: with
too few of them it takes the car of `schemeNull`, and with too many it leaves the others out.
-/

namespace SchemeOs

variable {ext : Externals} {m m' : Memory} {xs ws : List Ptr}
  {vars vals args proc body base tail p : Ptr} {n k b i : ℕ}

/-- A procedure with the parameters `xs`, and with one more that takes the rest if `tail` is a
name. -/
structure ProcedureAt (H : Heap) (proc vars body base : Ptr) (xs : List Ptr) (tail : Ptr) :
    Prop where
  type : H.type? proc = some .cpdProc
  parts : H.cpdProc? proc = some (vars, body, base)
  params : H.Spine vars xs tail
  tail : tail = schemeNull ∨ H.type? tail = some .symbol

/-- The procedure takes `ws.length` arguments. -/
def Takes (H : Heap) (xs : List Ptr) (tail : Ptr) (ws : List Ptr) : Prop :=
  if H.type? tail = some .symbol then xs.length ≤ ws.length else ws.length = xs.length

instance (H : Heap) (xs : List Ptr) (tail : Ptr) (ws : List Ptr) : Decidable (Takes H xs tail ws) :=
  inferInstanceAs (Decidable
    (if H.type? tail = some .symbol then xs.length ≤ ws.length else ws.length = xs.length))

/-- The slots of a new frame: the parameters with the arguments, and the last one with the rest. -/
def boundSlots (H : Heap) (xs : List Ptr) (tail : Ptr) (ws : List Ptr) (rest : Ptr) :
    List Binding :=
  Stores.zipBindings xs (ws.take xs.length) ++
    if H.type? tail = some .symbol then [⟨tail, rest⟩] else []

/-- **The number of arguments is respected**: the procedure binds each parameter to its argument and
the last one to the rest, or it has another number of arguments, is not applied, and no frame is
made. -/
structure RespectsArity (ext : Externals) (m : Memory) (proc vars base args : Ptr) (xs : List Ptr)
    (tail : Ptr) (ws : List Ptr) : Prop where
  binds (h : Takes m.heap xs tail ws) : ∃ rest m',
    m.heap.Spine args (ws.take xs.length) rest ∧ m.heap.Spine rest (ws.drop xs.length) schemeNull ∧
      Ends (fun n => schemeExtendEnv n vars args base) m m.fresh m' ∧
        (Frame.extension m (boundSlots m.heap xs tail ws rest) base).In m'
  fails (h : ¬Takes m.heap xs tail ws) :
    Ends (fun n => schemeApply ext n proc args) m schemeVoid m ∧
      ∀ e m', ¬Ends (fun n => schemeExtendEnv n vars args base) m e m'

/-! ## Too few arguments -/

theorem ensures_readMem {α : Type} {f : Memory → Option α} :
    Ensures (readMem f) m fun a m' => m' = m ∧ f m = some a := by
  rintro a m' hrun
  obtain ⟨a, ha, heq⟩ := Option.map_eq_some_iff.mp hrun
  cases heq
  exact ⟨rfl, ha⟩

/-- Counting the formals only reads. -/
theorem ensures_countVars : Ensures (countVars n p k) m fun _ m' => m' = m := by
  induction n generalizing p k with
  | zero => exact .of_failure
  | succ n ih =>
    rw [countVars]
    refine .bind ensures_readMem ?_
    rintro t m' ⟨rfl, -⟩
    refine .ite (fun _ => .bind ensures_readMem ?_) fun _ => .of_pure rfl
    rintro q m₁ ⟨rfl, -⟩
    exact ih

/-- Writing a slot changes no object. -/
theorem ensures_writeSlot {s : Binding} :
    Ensures (writeSlot b i s) m fun _ m' => m'.heap = m.heap := by
  rintro ⟨⟩ m' hrun
  obtain ⟨slots, -, hif⟩ := Option.bind_eq_some_iff.mp hrun
  split_ifs at hif
  cases hif
  rfl

/-- **With too few arguments** the loop over the parameters takes the car of `schemeNull`. -/
theorem fillSlots_few (hnull : m.heap.car? schemeNull = none) (hvars : m.heap.Spine vars xs tail)
    (hvals : m.heap.Spine vals ws schemeNull) (h : ws.length < xs.length) :
    Ensures (fillSlots b n i vars vals) m fun _ _ => False := by
  induction n generalizing m i vars vals xs ws with
  | zero => exact .of_failure
  | succ n ih =>
    obtain ⟨x, xs, rfl⟩ := List.exists_cons_of_length_pos (Nat.zero_lt_of_lt h)
    obtain ⟨hpair, hcar, vars', hcdr, hvars'⟩ := hvars
    rw [fillSlots]
    refine .run_bind (run_schemeType hpair) ?_
    rw [if_pos rfl]
    refine .run_bind (run_schemeCar hcar) ?_
    cases ws with
    | nil =>
      obtain rfl : vals = schemeNull := hvals
      refine .bind ensures_readMem ?_
      rintro v m' ⟨rfl, hval⟩
      exact nomatch hnull.symm.trans hval
    | cons w ws =>
      obtain ⟨-, hval, vals', hcdr', hvals'⟩ := hvals
      refine .run_bind (run_schemeCar hval) (.bind ensures_writeSlot ?_)
      rintro ⟨⟩ m' hheap
      rw [← hheap] at hnull hcdr hcdr' hvars' hvals'
      exact .run_bind (run_schemeCdr hcdr) (.run_bind (run_schemeCdr hcdr')
        (ih hnull hvars' hvals' (Nat.lt_of_succ_lt_succ h)))

/-- With fewer arguments than formals there is no new environment. -/
theorem schemeExtendEnv_few (hnull : m.heap.car? schemeNull = none)
    (hvars : m.heap.Spine vars xs tail) (hvals : m.heap.Spine vals ws schemeNull)
    (h : ws.length < xs.length) :
    Ensures (schemeExtendEnv n vars vals base) m fun _ _ => False := by
  rw [schemeExtendEnv]
  refine .bind ensures_countVars ?_
  rintro ⟨k, p⟩ m' rfl
  refine .bind ensures_readMem ?_
  rintro t m₁ ⟨rfl, -⟩
  exact .run_bind run_allocBlock (.run_bind run_allocBindings
    (.bind (fillSlots_few hnull hvars hvals h) fun _ _ => False.elim))

/-- So the call comes to no value. -/
theorem schemeApply_few (hnull : m.heap.car? schemeNull = none)
    (hproc : ProcedureAt m.heap proc vars body base xs tail)
    (hargs : m.heap.Spine args ws schemeNull) (h : ws.length < xs.length) :
    Ensures (schemeApply ext n proc args) m fun _ _ => False := by
  cases n with
  | zero => exact .of_failure
  | succ n =>
    rw [schemeApply]
    exact .run_bind (run_schemeType hproc.type) (.run_bind (run_schemeProc hproc.parts)
      (.bind (schemeExtendEnv_few hnull hproc.params hargs h) fun _ _ => False.elim))

/-! ## Enough arguments -/

/-- A list taken apart behind its first elements. -/
theorem Heap.Spine.split {H : Heap} (h : H.Spine p ws base) (i : ℕ) :
    ∃ rest, H.Spine p (ws.take i) rest ∧ H.Spine rest (ws.drop i) base := by
  induction i generalizing p ws with
  | zero => exact ⟨p, by rw [List.take_zero]; rfl, by rwa [List.drop_zero]⟩
  | succ i ih =>
    cases ws with
    | nil => exact ⟨p, rfl, h⟩
    | cons w ws =>
      obtain ⟨hpair, hcar, q, hcdr, hq⟩ := h
      obtain ⟨rest, htake, hdrop⟩ := ih hq
      exact ⟨rest, ⟨hpair, hcar, q, hcdr, htake⟩, hdrop⟩

/-- **With enough arguments** there is a frame for them, and the rest is left out if nothing takes
it. -/
theorem schemeExtendEnv_enough (base : Ptr)
    (hnull : ∃ t, m.heap.type? schemeNull = some t ∧ t ≠ .pair)
    (hvars : m.heap.Spine vars xs tail)
    (htail : tail = schemeNull ∨ m.heap.type? tail = some .symbol)
    (hargs : m.heap.Spine args ws schemeNull) (h : xs.length ≤ ws.length) : ∃ rest m',
      m.heap.Spine args (ws.take xs.length) rest ∧
        m.heap.Spine rest (ws.drop xs.length) schemeNull ∧
          Ends (fun n => schemeExtendEnv n vars args base) m m.fresh m' ∧
            (Frame.extension m (boundSlots m.heap xs tail ws rest) base).In m' := by
  obtain ⟨rest, htake, hdrop⟩ := hargs.split xs.length
  obtain ⟨t, ht, hpair⟩ : ∃ t, m.heap.type? tail = some t ∧ t ≠ .pair := by
    rcases htail with rfl | htail
    · exact hnull
    · exact ⟨.symbol, htail, nofun⟩
  have hlen : (ws.take xs.length).length = xs.length := List.length_take_of_le h
  have hvar := Stores.map_var_zipBindings hlen
  have hval := Stores.map_val_zipBindings hlen
  obtain ⟨m', hends, hin, -⟩ := schemeExtendEnv_ends base hpair ht (hvar.symm ▸ hvars)
    (hval.symm ▸ htake)
  refine ⟨rest, m', htake, hdrop, hends, ?_⟩
  have hslots : boundSlots m.heap xs tail ws rest =
      Stores.zipBindings xs (ws.take xs.length) ++ restSlot t tail rest := by
    simp only [boundSlots, restSlot, ht, Option.some.injEq]
  rw [hslots]
  exact hin

/-! ## The number of arguments -/

/-- **The number of arguments is respected** exactly when it is the right one. -/
theorem respectsArity_iff (hm : Constants m.heap)
    (hproc : ProcedureAt m.heap proc vars body base xs tail)
    (hargs : m.heap.Spine args ws schemeNull) :
    RespectsArity ext m proc vars base args xs tail ws ↔ Takes m.heap xs tail ws := by
  obtain ⟨t, hobj, ht⟩ := hm.null
  have hcar : m.heap.car? schemeNull = none := by
    rw [Heap.car?, hobj]
  have hnull : ∃ t, m.heap.type? schemeNull = some t ∧ t ≠ .pair := by
    refine ⟨t, Heap.type?_of_obj? hobj, ?_⟩
    rintro rfl
    exact absurd ht (by decide)
  have hle : Takes m.heap xs tail ws → xs.length ≤ ws.length := by
    intro h
    rw [Takes] at h
    split_ifs at h
    · exact h
    · exact h.ge
  constructor
  · intro h
    by_contra hne
    obtain ⟨happly, hframe⟩ := h.fails hne
    rcases Nat.lt_or_ge ws.length xs.length with hlt | hge
    · exact Ensures.not_ends (fun n => schemeApply_few hcar hproc hargs hlt) happly
    · obtain ⟨_, m', -, -, hends, -⟩ :=
        schemeExtendEnv_enough base hnull hproc.params hproc.tail hargs hge
      exact hframe _ m' hends
  · intro h
    exact ⟨fun _ => schemeExtendEnv_enough base hnull hproc.params hproc.tail hargs (hle h),
      fun hne => absurd h hne⟩

/-- The objects of `(lambda (x) x)`, a procedure of the global environment, and of its arguments
`(5)` and `(5 5)`. -/
def arityMemory : Memory :=
  { Memory.init with objs := Memory.init.objs ++
    [⟨.symbol, .symbol ['x']⟩, ⟨.pair, .pair (.obj 6) (some schemeNull)⟩,
     ⟨.variableExpr, .pair (.obj 6) none⟩, ⟨.sequenceExpr, .pair (.obj 8) (some schemeNull)⟩,
     ⟨.cpdProc, .cpdProc (.obj 7) (.obj 9) schemeGlobalEnvironment⟩, ⟨.integer, .int 5⟩,
     ⟨.pair, .pair (.obj 11) (some schemeNull)⟩, ⟨.pair, .pair (.obj 11) (some (.obj 12))⟩] }

theorem constants_arityMemory : Constants arityMemory.heap :=
  ⟨⟨.null, rfl, .inl rfl⟩, rfl, rfl⟩

theorem procedureAt_arityMemory : ProcedureAt arityMemory.heap (.obj 10) (.obj 7) (.obj 9)
    schemeGlobalEnvironment [.obj 6] schemeNull :=
  ⟨rfl, rfl, ⟨rfl, rfl, schemeNull, rfl, rfl⟩, .inl rfl⟩

theorem respectsArity_iff_one :
    RespectsArity zeroExternals arityMemory (.obj 10) (.obj 7) schemeGlobalEnvironment (.obj 12)
      [.obj 6] schemeNull [.obj 11] ↔ Takes arityMemory.heap [.obj 6] schemeNull [.obj 11] :=
  respectsArity_iff constants_arityMemory procedureAt_arityMemory
    ⟨rfl, rfl, schemeNull, rfl, rfl⟩

/-- Of two arguments for one parameter the second is left out. -/
theorem not_respectsArity_two : ¬∀ (m : Memory) (proc vars body base args : Ptr) (xs : List Ptr)
    (tail : Ptr) (ws : List Ptr), Constants m.heap →
      ProcedureAt m.heap proc vars body base xs tail → m.heap.Spine args ws schemeNull →
        RespectsArity zeroExternals m proc vars base args xs tail ws := by
  intro h
  have hargs : arityMemory.heap.Spine (.obj 13) [.obj 11, .obj 11] schemeNull :=
    ⟨rfl, rfl, .obj 12, rfl, rfl, rfl, schemeNull, rfl, rfl⟩
  obtain ⟨-, hframe⟩ := (h arityMemory _ _ _ _ _ _ _ _ constants_arityMemory
    procedureAt_arityMemory hargs).fails (by decide)
  obtain ⟨_, m', -, -, hends, -⟩ := schemeExtendEnv_enough schemeGlobalEnvironment
    ⟨.null, rfl, nofun⟩ procedureAt_arityMemory.params (.inl rfl) hargs (by decide)
  exact hframe _ m' hends

end SchemeOs
