import SchemeOs.Interpreter.Frames

/-!
# Interpreter/FrameOps — what the operations on environments do to frames

`schemeDefineVar` binds a name in the frame of its environment and leaves all others alone,
`schemeExtendEnv` makes one new frame, and `schemeLookupVar` looks a name up in the scopes that the
frames represent.
-/

namespace SchemeOs

variable {m m' : Memory} {f : Frame} {x v : Ptr}

/-- Outside the record `r` and the block `b` everything of `m` is the same in `m'`. -/
structure SameBut (m m' : Memory) (r b : ℕ) : Prop where
  objs : m'.objs = m.objs
  bindings : ∀ r', r' ≠ r → m'.bindings[r']? = m.bindings[r']?
  blocks : ∀ b' < m.blocks.length, b' ≠ b → m'.block? b' = m.block? b'

theorem env?_congr (h : m'.objs = m.objs) (e : Ptr) : m'.env? e = m.env? e := by
  cases e <;> simp [Memory.env?, Memory.heap, Heap.obj?, h]

/-- A frame apart from the one that was changed is still there. -/
theorem SameBut.keeps {g : Frame} (h : SameBut m m' f.record f.block) (hg : g.In m)
    (happart : f.Apart g) : g.In m' :=
  hg.congr (env?_congr h.objs _) (h.bindings _ happart.2.1.symm)
    (h.blocks _ hg.block_lt happart.2.2.symm)

/-! ## Defining a name

A name that is bound gets the new value, a new one takes the next slot, and a full block is copied
into a larger one before. -/

/-- A name that the frame binds gets its new value in place. -/
theorem schemeDefineVar_bound (hf : f.In m) (hx : x ∈ f.slots.map Binding.var) :
    ∃ m', (schemeDefineVar x v f.env).run m = some (x, m') ∧
      (f.define x v m.blocks.length).In m' ∧ SameBut m m' f.record f.block := by
  obtain ⟨rest, hblock, hlen⟩ := hf.block
  obtain ⟨k, w, -, hfind, -, hlt, hset⟩ := exists_slot rest hx
  have hgrows : ¬ f.Grows x := fun h => h.1 hx
  have hwrite := run_writeSlot (s := ⟨x, v⟩) hblock hlt
  rw [hset] at hwrite
  refine ⟨m.setBlock f.block ((setBinding f.slots x v).map some ++ rest), ?_, ⟨hf.env, ?_, rest, ?_,
    ?_⟩, ⟨rfl, fun _ _ => rfl, fun b _ hb => block?_setBlock_of_ne hb⟩⟩
  · simp [schemeDefineVar, run_schemeEnv hf.env, run_loadBindings hf.record, run_loadBlock hblock,
      hfind, hwrite]
  · rw [Frame.slots_define, length_setBinding_of_mem hx, Frame.maxBind_define, if_neg hgrows,
      Frame.block_define, if_neg hgrows]
    exact hf.record
  · rw [Frame.block_define, if_neg hgrows, Frame.slots_define, block?_setBlock_self hf.block_lt]
  · rw [Frame.slots_define, length_setBinding_of_mem hx, Frame.maxBind_define, if_neg hgrows, hlen]

/-- A new name takes the next slot of the block. -/
theorem schemeDefineVar_new (hf : f.In m) (hx : x ∉ f.slots.map Binding.var)
    (hroom : f.slots.length ≠ f.maxBind) :
    ∃ m', (schemeDefineVar x v f.env).run m = some (x, m') ∧
      (f.define x v m.blocks.length).In m' ∧ SameBut m m' f.record f.block := by
  obtain ⟨rest, hblock, hlen⟩ := hf.block
  obtain ⟨o, rest, rfl⟩ : ∃ o rest', rest = o :: rest' :=
    List.exists_cons_of_ne_nil fun h => hroom (by simpa [h] using hlen)
  have hgrows : ¬ f.Grows x := fun h => hroom h.2
  have hfind := findSlot_of_notMem (o :: rest) hx
  have hstore := run_storeBindings (b := ⟨f.slots.length + 1, f.maxBind, f.block⟩) hf.record_lt
  have hwrite : (writeSlot f.block f.slots.length ⟨x, v⟩).run (m.setBindings f.record
      ⟨f.slots.length + 1, f.maxBind, f.block⟩) = some ((), _) := run_writeSlot hblock (by simp)
  rw [set_next hx] at hwrite
  refine ⟨(m.setBindings f.record ⟨f.slots.length + 1, f.maxBind, f.block⟩).setBlock f.block
    ((setBinding f.slots x v).map some ++ rest), ?_, ⟨hf.env, ?_, rest, ?_, ?_⟩,
    ⟨rfl, fun r hr => bindings_setBindings_of_ne hr, fun b _ hb => block?_setBlock_of_ne hb⟩⟩
  · simp [schemeDefineVar, run_schemeEnv hf.env, run_loadBindings hf.record, run_loadBlock hblock,
      hfind, hroom, hstore, hwrite]
  · rw [Frame.slots_define, length_setBinding_of_notMem hx, Frame.maxBind_define, if_neg hgrows,
      Frame.block_define, if_neg hgrows]
    exact bindings_setBindings_self hf.record_lt
  · rw [Frame.block_define, if_neg hgrows, Frame.slots_define]
    exact block?_setBlock_self hf.block_lt
  · rw [Frame.slots_define, length_setBinding_of_notMem hx, Frame.maxBind_define, if_neg hgrows]
    simp only [List.length_cons] at hlen
    omega

/-- **A new name in a full block**: the slots move to a larger block, none lost. -/
theorem schemeDefineVar_grow (hf : f.In m) (hgrows : f.Grows x) :
    ∃ m', (schemeDefineVar x v f.env).run m = some (x, m') ∧
      (f.define x v m.blocks.length).In m' ∧ SameBut m m' f.record f.block := by
  obtain ⟨rest, hblock, hlen⟩ := hf.block
  have hfull := hgrows.2
  obtain rfl : rest = [] := List.length_eq_zero_iff.mp (by omega)
  rw [List.append_nil] at hblock
  have hfind := findSlot_of_notMem [] hgrows.1
  rw [List.append_nil] at hfind
  have hgrow := run_growBlock hblock
  rw [List.length_map] at hgrow
  have hnew : (m.grown f.block (f.slots.map some)).block? m.blocks.length =
      some (f.slots.map some ++ none :: List.replicate 31 none) := block?_grown_new hblock
  set g := m.grown f.block (f.slots.map some)
  set r : Bindings := ⟨f.slots.length + 1, f.slots.length + bindingSlotsSize, m.blocks.length⟩
    with hr
  have hstore : (storeBindings f.record r).run g = some ((), _) := run_storeBindings hf.record_lt
  have hwrite : (writeSlot m.blocks.length f.slots.length ⟨x, v⟩).run (g.setBindings f.record r) =
      some ((), _) := run_writeSlot hnew (by simp)
  rw [set_next hgrows.1] at hwrite
  refine ⟨(g.setBindings f.record r).setBlock m.blocks.length
    ((setBinding f.slots x v).map some ++ List.replicate 31 none), ?_,
    ⟨hf.env, ?_, List.replicate 31 none, ?_, ?_⟩,
    ⟨rfl, fun k hk => bindings_setBindings_of_ne hk, fun b hlt hb => ?_⟩⟩
  · simp [schemeDefineVar, run_schemeEnv hf.env, run_loadBindings hf.record, run_loadBlock hblock,
      hfind, ← hfull, hgrow, ← hr, hstore, hwrite]
  · rw [Frame.slots_define, length_setBinding_of_notMem hgrows.1, Frame.maxBind_define,
      if_pos hgrows, Frame.block_define, if_pos hgrows, ← hfull]
    exact bindings_setBindings_self hf.record_lt
  · rw [Frame.block_define, if_pos hgrows, Frame.slots_define]
    exact block?_setBlock_self (block_lt hnew)
  · rw [Frame.slots_define, length_setBinding_of_notMem hgrows.1, Frame.maxBind_define,
      if_pos hgrows, List.length_replicate, hfull, bindingSlotsSize]
  · exact (block?_setBlock_of_ne hlt.ne).trans (block?_grown_of_ne hlt hb)

/-- **Defining a name** binds it in the frame of the environment and changes no other frame. -/
theorem schemeDefineVar_spec (hf : f.In m) :
    ∃ m', (schemeDefineVar x v f.env).run m = some (x, m') ∧
      (f.define x v m.blocks.length).In m' ∧ SameBut m m' f.record f.block := by
  by_cases hx : x ∈ f.slots.map Binding.var
  · exact schemeDefineVar_bound hf hx
  · by_cases hroom : f.slots.length = f.maxBind
    · exact schemeDefineVar_grow hf ⟨hx, hroom⟩
    · exact schemeDefineVar_new hf hx hroom

/-! ## Extending an environment -/

/-- The slot of a parameter that takes the rest of the values. -/
def restSlot (t : SchemeType) (tail rest : Ptr) : List Binding :=
  if t = .symbol then [⟨tail, rest⟩] else []

theorem countVars_ends {t : SchemeType} (ht : t ≠ .pair) {q : Ptr} (hq : m.heap.type? q = some t)
    {ps : List Ptr} {p : Ptr} (k : ℕ) (hp : m.heap.Spine p ps q) :
    Ends (fun n => countVars n p k) m (k + ps.length, q) m := by
  induction ps generalizing p k with
  | nil =>
    obtain rfl : p = q := hp
    exact Ends.succ (Ends.run_bind (run_schemeType hq) (Ends.ite_neg ht Ends.pure))
  | cons x ps ih =>
    obtain ⟨hpair, -, r, hcdr, hr⟩ := hp
    rw [List.length_cons, Nat.add_comm ps.length 1, ← Nat.add_assoc]
    refine Ends.succ (Ends.run_bind (run_schemeType hpair) (Ends.ite_pos rfl ?_))
    exact Ends.run_bind (run_schemeCdr hcdr) (ih (k + 1) hr)

/-- The slots after `done` are filled with the parameters and their values. -/
theorem fillSlots_ends {t : SchemeType} (ht : t ≠ .pair) {b : ℕ} {tail rest : Ptr}
    {bs done : List Binding} {room : List (Option Binding)} {vars vals : Ptr}
    (htail : m.heap.type? tail = some t) (hvars : m.heap.Spine vars (bs.map Binding.var) tail)
    (hvals : m.heap.Spine vals (bs.map Binding.val) rest)
    (hblock : m.block? b = some (done.map some ++ room)) (hroom : bs.length ≤ room.length) :
    Ends (fun n => fillSlots b n done.length vars vals) m ((done ++ bs).length, tail, rest)
      (m.setBlock b ((done ++ bs).map some ++ room.drop bs.length)) := by
  induction bs generalizing m done room vars vals with
  | nil =>
    obtain rfl : vars = tail := hvars
    obtain rfl : vals = rest := hvals
    rw [List.append_nil, List.length_nil, List.drop_zero, setBlock_self hblock]
    exact Ends.succ (Ends.run_bind (run_schemeType htail) (Ends.ite_neg ht Ends.pure))
  | cons s bs ih =>
    obtain ⟨hpair, hvar, vars', hcdr, hvars⟩ := hvars
    obtain ⟨-, hval, vals', hcdr', hvals⟩ := hvals
    obtain ⟨o, room, rfl⟩ : ∃ o room', room = o :: room' :=
      List.exists_cons_of_length_pos (by simp only [List.length_cons] at hroom; omega)
    have hwrite : (writeSlot b done.length s).run m = some ((), _) :=
      run_writeSlot hblock (by simp)
    rw [set_snoc] at hwrite
    set m' := m.setBlock b ((done ++ [s]).map some ++ room)
    have hext : m.heap.Sub m'.heap := fun _ _ h => h
    have hih := @ih m' (done ++ [s]) room vars' vals' htail (hvars.sub hext)
      (hvals.sub hext) (block?_setBlock_self (block_lt hblock)) (by simpa using hroom)
    rw [setBlock_setBlock, List.append_assoc, List.singleton_append, List.length_append,
      List.length_singleton] at hih
    refine Ends.succ (Ends.run_bind (run_schemeType hpair) (Ends.ite_pos rfl ?_))
    refine Ends.run_bind (run_schemeCar hvar) (Ends.run_bind (run_schemeCar hval)
      (Ends.run_bind hwrite ?_))
    exact Ends.run_bind (run_schemeCdr hcdr) (Ends.run_bind (run_schemeCdr hcdr') hih)

/-- The environment that `schemeExtendEnv` makes in the memory `m`: it binds `bs`, in a block with
room for a multiple of `bindingSlotsSize`. -/
def Frame.extension (m : Memory) (bs : List Binding) (enclosing : Ptr) : Frame where
  env := m.fresh
  record := m.bindings.length
  block := m.blocks.length
  maxBind := (bs.length + bindingSlotsSize - 1) / bindingSlotsSize * bindingSlotsSize
  params := bs.map Binding.var
  slots := bs
  enclosing := enclosing
  named := ⟨[], by simp⟩

/-- Everything of `m` is the same in `m'`, which may hold more. -/
structure Grown (m m' : Memory) : Prop where
  objs : m.heap.Sub m'.heap
  bindings : ∀ r < m.bindings.length, m'.bindings[r]? = m.bindings[r]?
  blocks : ∀ b < m.blocks.length, m'.block? b = m.block? b

theorem env?_push {name enclosing : Ptr} {r : ℕ} :
    (m.push ⟨.env, .env name r enclosing⟩).env? m.fresh = some (r, enclosing) := by
  rw [Memory.env?, Memory.obj?_push_fresh]

theorem env?_of_sub (h : m.heap.Sub m'.heap) {e enclosing : Ptr} {r : ℕ}
    (he : m.env? e = some (r, enclosing)) : m'.env? e = some (r, enclosing) := by
  unfold Memory.env? at he
  split at he
  · next t name r' enc heq => rw [Memory.env?, h e _ heq]; exact he
  · simp at he

/-- All frames are still there in a memory that has grown. -/
theorem Grown.keeps {g : Frame} (h : Grown m m') (hg : g.In m) : g.In m' := by
  obtain ⟨rest, hblock, hlen⟩ := hg.block
  exact ⟨env?_of_sub h.objs hg.env, (h.bindings _ hg.record_lt).trans hg.record, rest,
    (h.blocks _ hg.block_lt).trans hblock, hlen⟩

/-- **Extending an environment** makes one new frame, which binds the parameters to the values. -/
theorem schemeExtendEnv_ends (base : Ptr) {t : SchemeType} (ht : t ≠ .pair) {tail rest : Ptr}
    {bs : List Binding} {vars vals : Ptr} (htail : m.heap.type? tail = some t)
    (hvars : m.heap.Spine vars (bs.map Binding.var) tail)
    (hvals : m.heap.Spine vals (bs.map Binding.val) rest) :
    ∃ m', Ends (fun n => schemeExtendEnv n vars vals base) m m.fresh m' ∧
      (Frame.extension m (bs ++ restSlot t tail rest) base).In m' ∧ Grown m m' := by
  have hcount := countVars_ends ht htail 0 hvars
  rw [List.length_map, Nat.zero_add] at hcount
  set slots := bs ++ restSlot t tail rest with hslots
  set max := (slots.length + bindingSlotsSize - 1) / bindingSlotsSize * bindingSlotsSize with hmax
  have hroom : slots.length ≤ max := by
    rw [hmax, bindingSlotsSize]
    omega
  have hcnt : (if t = .symbol then bs.length + 1 else bs.length) = slots.length := by
    rw [hslots, restSlot, List.length_append]
    split_ifs <;> rfl
  set b := m.blocks.length
  set m₁ := (m.newBlock max).newBindings ⟨slots.length, max, b⟩
  have hlen : bs.length ≤ slots.length := by rw [hslots, List.length_append]; omega
  have hext : m.heap.Sub m₁.heap := fun _ _ h => h
  have hnew : m₁.block? b = some (([] : List Binding).map some ++ List.replicate max none) :=
    block?_newBlock_new
  have hfill := fillSlots_ends ht (hext.type? htail) (hvars.sub hext) (hvals.sub hext) hnew
    (by rw [List.length_replicate]; omega)
  simp only [List.nil_append, List.length_nil, List.drop_replicate] at hfill
  refine ⟨(m₁.setBlock b (slots.map some ++ List.replicate (max - slots.length) none)).push
    ⟨.env, .env schemeNull m.bindings.length base⟩, ?_, ?_, ?_⟩
  · refine hcount.bind (Ends.run_bind (run_schemeType htail) ?_)
    simp only [hcnt]
    refine Ends.run_bind run_allocBlock (Ends.run_bind run_allocBindings (hfill.bind
      (Ends.run_bind (run_schemeType htail) ?_)))
    by_cases hsym : t = .symbol
    · have hs : slots = bs ++ [⟨tail, rest⟩] := by rw [hslots, restSlot, if_pos hsym]
      have hmore : max - bs.length = max - slots.length + 1 := by
        rw [hs, List.length_append, List.length_singleton] at hroom ⊢
        omega
      rw [hmore, List.replicate_succ]
      have hwrite : (writeSlot b bs.length ⟨tail, rest⟩).run (m₁.setBlock b (bs.map some ++
          none :: List.replicate (max - slots.length) none)) = some ((), _) :=
        run_writeSlot (block?_setBlock_self (block_lt hnew)) (by simp)
      rw [setBlock_setBlock, set_snoc, ← hs] at hwrite
      exact Ends.ite_pos hsym (Ends.run_bind hwrite (Ends.of_run rfl))
    · have hs : slots = bs := by rw [hslots, restSlot, if_neg hsym, List.append_nil]
      rw [hs]
      exact Ends.ite_neg hsym (Ends.of_run rfl)
  · refine ⟨env?_push, ?_, _, block?_setBlock_self (block_lt hnew), ?_⟩
    · exact List.getElem?_concat_length
    · rw [List.length_replicate]
      exact Nat.add_sub_cancel' hroom
  · refine ⟨fun p o hp => Memory.heap_push p o (hext p o hp), fun r hr => ?_, fun c hc => ?_⟩
    · exact List.getElem?_append_left hr
    · exact (block?_setBlock_of_ne hc.ne).trans (block?_newBlock_of_lt hc)

end SchemeOs
