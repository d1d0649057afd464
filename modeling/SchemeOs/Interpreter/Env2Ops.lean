import SchemeOs.Interpreter.Env2

/-!
# Interpreter/Env2Ops — what the operations of `USE_ENV2` do to an environment

`Env2.In` says that the slots of an environment lie in its block.  Defining a name and assigning it
change the slots of that environment only, and an extension makes one more.
-/

namespace SchemeOs

variable {m m' : Memory2} {e : ℕ} {env env' : Env2} {slots : List Binding} {x v : Ptr}

/-- The environment `e` of the memory is `env`, with `slots` in use. -/
structure Env2.In (m : Memory2) (e : ℕ) (env : Env2) (slots : List Binding) : Prop where
  get : m.envs[e]? = some env
  cnt : env.bindCnt = slots.length
  block : ∃ rest, m.mem.block? env.bindings = some (slots.map some ++ rest) ∧
    slots.length + rest.length = env.maxBind

theorem Env2.In.lt (h : env.In m e slots) : e < m.envs.length :=
  (List.getElem?_eq_some_iff.mp h.get).1

theorem Env2.In.block_lt (h : env.In m e slots) : env.bindings < m.mem.blocks.length := by
  obtain ⟨rest, hblock, -⟩ := h.block
  exact SchemeOs.block_lt hblock

/-- Outside the environment `e` and the block `b` everything of `m` is the same in `m'`. -/
structure SameBut2 (m m' : Memory2) (e b : ℕ) : Prop where
  size : m'.envs.length = m.envs.length
  envs : ∀ e', e' ≠ e → m'.envs[e']? = m.envs[e']?
  blocks : ∀ b' < m.mem.blocks.length, b' ≠ b → m'.mem.block? b' = m.mem.block? b'

/-- An environment apart from the one that was changed is as it was. -/
theorem SameBut2.keeps {e' : ℕ} (h : SameBut2 m m' e env.bindings) (hin : env'.In m e' slots)
    (he : e' ≠ e) (hb : env'.bindings ≠ env.bindings) : env'.In m' e' slots where
  get := (h.envs e' he).trans hin.get
  cnt := hin.cnt
  block := by
    obtain ⟨rest, hblock, hlen⟩ := hin.block
    exact ⟨rest, (h.blocks _ (SchemeOs.block_lt hblock) hb).trans hblock, hlen⟩

/-- What the operations that change an environment leave of it: the slots, in its own block or a new
one, and the environment around it. -/
structure Rebound (m m' : Memory2) (e : ℕ) (env env' : Env2) (slots : List Binding) : Prop where
  here : env'.In m' e slots
  enclosing : env'.enclosing = env.enclosing
  block : env'.bindings = env.bindings ∨ env'.bindings = m.mem.blocks.length
  others : SameBut2 m m' e env.bindings

/-! ## Defining and assigning a name -/

/-- A bound name gets its new value in place. -/
theorem rebound_setBinding (h : env.In m e slots) (hx : x ∈ slots.map Binding.var) :
    ∃ w pre full mem, findBinding slots x = some w ∧ m.mem.block? env.bindings = some full ∧
      findSlot x env.bindCnt full = some (some pre) ∧ slotVal full pre = some w ∧
      (writeSlot env.bindings pre ⟨x, v⟩).run m.mem = some ((), mem) ∧
      Rebound m { m with mem := mem } e env env (setBinding slots x v) := by
  obtain ⟨rest, hblock, hlen⟩ := h.block
  obtain ⟨k, w, hw, hfind, hval, hlt, hset⟩ := exists_slot rest hx
  rw [← h.cnt] at hfind
  have hwrite := run_writeSlot (s := ⟨x, v⟩) hblock hlt
  rw [hset] at hwrite
  have hlength := length_setBinding_of_mem (v := v) hx
  refine ⟨w, k, _, m.mem.setBlock env.bindings ((setBinding slots x v).map some ++ rest), hw,
    hblock, hfind, hval, hwrite, ⟨h.get, ?_, rest, ?_, ?_⟩, rfl, .inl rfl,
    ⟨rfl, fun _ _ => rfl, fun b _ hb => block?_setBlock_of_ne hb⟩⟩
  · rw [hlength, h.cnt]
  · exact block?_setBlock_self h.block_lt
  · rw [hlength, hlen]

theorem schemeDefineVar2_bound (h : env.In m e slots) (hx : x ∈ slots.map Binding.var) :
    ∃ m' env', (schemeDefineVar2 x v e).run m = some (x, m') ∧
      Rebound m m' e env env' (setBinding slots x v) := by
  obtain ⟨w, pre, rest, mem, -, hblock, hfind, -, hwrite, hrebound⟩ :=
    rebound_setBinding (v := v) h hx
  refine ⟨_, env, ?_, hrebound⟩
  simp [schemeDefineVar2, run_loadEnv h.get, run_onMem (run_loadBlock hblock), hfind,
    run_onMem hwrite]

/-- A new name takes the next slot of the block. -/
theorem schemeDefineVar2_new (h : env.In m e slots) (hx : x ∉ slots.map Binding.var)
    (hroom : env.bindCnt ≠ env.maxBind) :
    ∃ m' env', (schemeDefineVar2 x v e).run m = some (x, m') ∧
      Rebound m m' e env env' (setBinding slots x v) := by
  obtain ⟨rest, hblock, hlen⟩ := h.block
  obtain ⟨o, rest, rfl⟩ : ∃ o rest', rest = o :: rest' := by
    refine List.exists_cons_of_ne_nil fun hnil => hroom ?_
    rw [h.cnt, ← hlen, hnil, List.length_nil, Nat.add_zero]
  have hfind := findSlot_of_notMem (o :: rest) hx
  rw [← h.cnt] at hfind
  have hstore : (storeEnv e { env with bindCnt := env.bindCnt + 1 }).run m = some ((), _) :=
    run_storeEnv h.lt
  have hwrite : (writeSlot env.bindings env.bindCnt ⟨x, v⟩).run
      (m.setEnv e { env with bindCnt := env.bindCnt + 1 }).mem = some ((), _) :=
    run_writeSlot hblock (by simp [h.cnt])
  rw [h.cnt, set_next hx, ← h.cnt] at hwrite
  have hlength := length_setBinding_of_notMem (v := v) hx
  refine ⟨⟨m.mem.setBlock env.bindings ((setBinding slots x v).map some ++ rest),
    m.envs.set e { env with bindCnt := env.bindCnt + 1 }⟩,
    { env with bindCnt := env.bindCnt + 1 }, ?_, ⟨List.getElem?_set_self h.lt, ?_, rest, ?_, ?_⟩,
    rfl, .inl rfl, ⟨List.length_set, fun e' he' => List.getElem?_set_ne (Ne.symm he'),
      fun b _ hb => block?_setBlock_of_ne hb⟩⟩
  · simp [schemeDefineVar2, run_loadEnv h.get, run_onMem (run_loadBlock hblock), hfind, hroom,
      hstore, run_onMem hwrite]
    exact ⟨rfl, rfl⟩
  · rw [hlength, ← h.cnt]
  · exact block?_setBlock_self h.block_lt
  · rw [hlength]
    simp only [List.length_cons] at hlen
    change _ = env.maxBind
    omega

/-- **A new name in a full block**: the slots move to a larger block. -/
theorem schemeDefineVar2_grow (h : env.In m e slots) (hx : x ∉ slots.map Binding.var)
    (hfull : env.bindCnt = env.maxBind) :
    ∃ m' env', (schemeDefineVar2 x v e).run m = some (x, m') ∧
      Rebound m m' e env env' (setBinding slots x v) := by
  obtain ⟨rest, hblock, hlen⟩ := h.block
  have hcnt := h.cnt
  obtain rfl : rest = [] := List.length_eq_zero_iff.mp (by omega)
  rw [List.append_nil] at hblock
  have hfind := findSlot_of_notMem [] hx
  rw [List.append_nil, ← hcnt] at hfind
  have hgrow := run_growBlock hblock
  rw [List.length_map, ← hcnt] at hgrow
  have hnew : (m.mem.grown env.bindings (slots.map some)).block? m.mem.blocks.length =
      some (slots.map some ++ none :: List.replicate 31 none) := block?_grown_new hblock
  set g := m.mem.grown env.bindings (slots.map some)
  set env' : Env2 := { env with
    bindCnt := env.bindCnt + 1
    maxBind := env.bindCnt + bindingSlotsSize
    bindings := m.mem.blocks.length } with henv'
  have hstore : (storeEnv e env').run ⟨g, m.envs⟩ = some ((), _) := run_storeEnv h.lt
  have hwrite : (writeSlot m.mem.blocks.length env.bindCnt ⟨x, v⟩).run
      (Memory2.setEnv ⟨g, m.envs⟩ e env').mem = some ((), _) :=
    run_writeSlot hnew (by simp [hcnt])
  rw [hcnt, set_next hx, ← hcnt] at hwrite
  have hlength := length_setBinding_of_notMem (v := v) hx
  refine ⟨⟨g.setBlock m.mem.blocks.length ((setBinding slots x v).map some ++
      List.replicate 31 none), m.envs.set e env'⟩, env', ?_,
    ⟨List.getElem?_set_self h.lt, ?_, List.replicate 31 none, ?_, ?_⟩, rfl, .inr rfl,
    ⟨List.length_set, fun e' he' => List.getElem?_set_ne (Ne.symm he'), fun b hlt hb => ?_⟩⟩
  · simp [schemeDefineVar2, growEnv, run_loadEnv h.get, run_onMem (run_loadBlock hblock), hfind,
      ← hfull, run_onMem hgrow, ← henv', hstore, run_onMem hwrite]
    exact ⟨rfl, rfl⟩
  · rw [hlength, ← hcnt]
  · exact block?_setBlock_self (block_lt hnew)
  · rw [hlength, ← hcnt, List.length_replicate]
    rfl
  · exact (block?_setBlock_of_ne hlt.ne).trans (block?_grown_of_ne hlt hb)

/-- **Defining a name** binds it in the environment, and changes no other. -/
theorem schemeDefineVar2_spec (h : env.In m e slots) (x v : Ptr) :
    ∃ m' env', (schemeDefineVar2 x v e).run m = some (x, m') ∧
      Rebound m m' e env env' (setBinding slots x v) := by
  by_cases hx : x ∈ slots.map Binding.var
  · exact schemeDefineVar2_bound h hx
  · by_cases hroom : env.bindCnt = env.maxBind
    · exact schemeDefineVar2_grow h hx hroom
    · exact schemeDefineVar2_new h hx hroom

/-- **Assigning a name** that the environment binds returns its value and binds it anew. -/
theorem schemeSetVar2_bound (h : env.In m e slots) (hx : x ∈ slots.map Binding.var) :
    ∃ w m' env', findBinding slots x = some w ∧ (schemeSetVar2 x v e).run m = some (w, m') ∧
      Rebound m m' e env env' (setBinding slots x v) := by
  obtain ⟨w, pre, full, mem, hw, hblock, hfind, hval, hwrite, hrebound⟩ :=
    rebound_setBinding (v := v) h hx
  refine ⟨w, _, env, hw, ?_, hrebound⟩
  simp [schemeSetVar2, run_loadEnv h.get, run_onMem (run_loadBlock hblock), hfind, hval,
    run_onMem hwrite]

theorem schemeSetVar2_unbound (h : env.In m e slots) (hx : x ∉ slots.map Binding.var) :
    (schemeSetVar2 x v e).run m = some (schemeVoid, m) := by
  obtain ⟨rest, hblock, -⟩ := h.block
  have hfind := findSlot_of_notMem rest hx
  rw [← h.cnt] at hfind
  simp [schemeSetVar2, run_loadEnv h.get, run_onMem (run_loadBlock hblock), hfind]

/-! ## Lookup in one environment -/

theorem schemeLookupVar2_found (h : env.In m e slots) (hx : x ∈ slots.map Binding.var) :
    ∃ w, findBinding slots x = some w ∧ Ends (fun n => schemeLookupVar2 n x e) m w m := by
  obtain ⟨w, pre, full, mem, hw, hblock, hfind, hval, -⟩ := rebound_setBinding (v := x) h hx
  refine ⟨w, hw, Ends.succ (Ends.run_bind (run_loadEnv h.get)
    (Ends.run_bind (run_onMem (run_loadBlock hblock)) ?_))⟩
  rw [hfind]
  change Ends (fun _ => (liftM (slotVal full pre) : Comp2 Ptr)) m w m
  rw [hval]
  exact Ends.pure

/-- A name that the environment does not bind is looked up in the one around it. -/
theorem schemeLookupVar2_enclosing {o : ℕ} (h : env.In m e slots) (hx : x ∉ slots.map Binding.var)
    (ho : env.enclosing = some o) (hv : Ends (fun n => schemeLookupVar2 n x o) m v m) :
    Ends (fun n => schemeLookupVar2 n x e) m v m := by
  obtain ⟨rest, hblock, -⟩ := h.block
  refine Ends.succ (Ends.run_bind (run_loadEnv h.get)
    (Ends.run_bind (run_onMem (run_loadBlock hblock)) ?_))
  rw [h.cnt, findSlot_of_notMem rest hx, ho]
  exact hv

/-- The outermost environment. -/
theorem schemeLookupVar2_outermost (h : env.In m e slots) (hx : x ∉ slots.map Binding.var)
    (ho : env.enclosing = none) : Ends (fun n => schemeLookupVar2 n x e) m schemeVoid m := by
  obtain ⟨rest, hblock, -⟩ := h.block
  refine Ends.succ (Ends.run_bind (run_loadEnv h.get)
    (Ends.run_bind (run_onMem (run_loadBlock hblock)) ?_))
  rw [h.cnt, findSlot_of_notMem rest hx, ho]
  exact Ends.pure

/-! ## Extending an environment -/

/-- What an extension of `base` leaves: a new environment inside it, and the others, but for the
count of `base`, as they were. -/
structure Extended (m m' : Memory2) (base : ℕ) (slots : List Binding) : Prop where
  size : m'.envs.length = m.envs.length + 1
  new : ∃ env' : Env2, env'.In m' m.envs.length slots ∧ env'.enclosing = some base ∧
    env'.bindings = m.mem.blocks.length
  others : ∀ (e' : ℕ) (env' : Env2) (slots' : List Binding), env'.In m e' slots' →
    ∃ env'' : Env2, env''.In m' e' slots' ∧ env''.enclosing = env'.enclosing ∧
      env''.bindings = env'.bindings

/-- The slots of the block of an environment that binds `cnt` names. -/
def roomFor (cnt : ℕ) : ℕ := (cnt + bindingSlotsSize - 1) / bindingSlotsSize * bindingSlotsSize

theorem le_roomFor (cnt : ℕ) : cnt ≤ roomFor cnt := by
  rw [roomFor, bindingSlotsSize]
  omega

/-- The memory that an extension leaves, whose block holds the slots. -/
def Memory2.extended (m : Memory2) (base : ℕ) (env : Env2) (slots : List Binding) : Memory2 :=
  let max := roomFor slots.length
  { mem := (m.mem.newBlock max).setBlock m.mem.blocks.length
      (slots.map some ++ List.replicate (max - slots.length) none)
    envs := m.envs.set base { env with refCnt := env.refCnt + 1 } ++
      [⟨0, env.deepth + 1, slots.length, max, some base, m.mem.blocks.length⟩] }

theorem extended_spec {slots' : List Binding} (h : env.In m e slots') (slots : List Binding) :
    Extended m (m.extended e env slots) e slots := by
  have hblock : (m.extended e env slots).mem.block? m.mem.blocks.length = some (slots.map some ++
      List.replicate (roomFor slots.length - slots.length) none) :=
    block?_setBlock_self (block_lt block?_newBlock_new)
  refine ⟨?_, ⟨⟨0, env.deepth + 1, slots.length, roomFor slots.length, some e,
    m.mem.blocks.length⟩, ⟨?_, rfl, _, hblock, ?_⟩, rfl, rfl⟩, fun e' env' slots' hin => ?_⟩
  · rw [Memory2.extended, List.length_append, List.length_set, List.length_singleton]
  · rw [Memory2.extended, List.getElem?_append_right (by rw [List.length_set]), List.length_set,
      Nat.sub_self]
    rfl
  · rw [List.length_replicate]
    exact Nat.add_sub_cancel' (le_roomFor _)
  · obtain ⟨rest, hblock, hlen⟩ := hin.block
    have hkept : (m.extended e env slots).mem.block? env'.bindings =
        some (slots'.map some ++ rest) :=
      (block?_setBlock_of_ne hin.block_lt.ne).trans
        ((block?_newBlock_of_lt hin.block_lt).trans hblock)
    have hold : (m.extended e env slots).envs[e']? =
        (m.envs.set e { env with refCnt := env.refCnt + 1 })[e']? :=
      List.getElem?_append_left (by rw [List.length_set]; exact hin.lt)
    by_cases he : e' = e
    · subst he
      obtain rfl : env = env' := Option.some.inj (h.get.symm.trans hin.get)
      exact ⟨_, ⟨hold.trans (List.getElem?_set_self h.lt), hin.cnt, rest, hkept, hlen⟩, rfl, rfl⟩
    · exact ⟨env', ⟨hold.trans ((List.getElem?_set_ne (Ne.symm he)).trans hin.get), hin.cnt, rest,
        hkept, hlen⟩, rfl, rfl⟩

/-- **Extending an environment** makes one inside it, which binds the parameters to the values. -/
theorem schemeExtendEnv2_ends {t : SchemeType} (h : env.In m e slots) (ht : t ≠ .pair)
    {tail rest : Ptr} {bs : List Binding} {vars vals : Ptr}
    (htail : m.mem.heap.type? tail = some t)
    (hvars : m.mem.heap.Spine vars (bs.map Binding.var) tail)
    (hvals : m.mem.heap.Spine vals (bs.map Binding.val) rest) :
    Ends (fun n => schemeExtendEnv2 n vars vals e) m m.envs.length
      (m.extended e env (bs ++ restSlot t tail rest)) := by
  have hcount := countVars_ends ht htail 0 hvars
  rw [List.length_map, Nat.zero_add] at hcount
  set slots' := bs ++ restSlot t tail rest with hslots
  set max := roomFor slots'.length
  have hroom : slots'.length ≤ max := le_roomFor _
  have hcnt : (if t = .symbol then bs.length + 1 else bs.length) = slots'.length := by
    rw [hslots, restSlot, List.length_append]
    split_ifs <;> rfl
  set b := m.mem.blocks.length with hb
  set m₁ := m.mem.newBlock max with hm₁
  set envs := m.envs.set e { env with refCnt := env.refCnt + 1 } ++
    [⟨0, env.deepth + 1, slots'.length, max, some e, b⟩] with henvs
  have hlen : bs.length ≤ slots'.length := by rw [hslots, List.length_append]; omega
  have hnew : m₁.block? b = some (([] : List Binding).map some ++ List.replicate max none) :=
    block?_newBlock_new
  have hfill := fillSlots_ends (m := m₁) ht htail hvars hvals hnew
    (by rw [List.length_replicate]; omega)
  simp only [List.nil_append, List.length_nil, List.drop_replicate] at hfill
  have hstore : (storeEnv e { env with refCnt := env.refCnt + 1 }).run m = some ((), _) :=
    run_storeEnv h.lt
  have halloc : (allocEnv ⟨0, env.deepth + 1, slots'.length, max, some e, b⟩).run
      ⟨m₁, m.envs.set e { env with refCnt := env.refCnt + 1 }⟩ =
        some (m.envs.length, ⟨m₁, envs⟩) := by
    rw [run_allocEnv, List.length_set]
    rfl
  refine hcount.onMem.bind (Ends.run_bind (run_onMem (run_schemeType htail)) ?_)
  simp only [hcnt]
  refine Ends.run_bind (run_loadEnv h.get) (Ends.run_bind hstore
    (Ends.run_bind (run_onMem run_allocBlock) (Ends.run_bind halloc
      ((Ends.onMem (m := ⟨m₁, envs⟩) hfill).bind
        (Ends.run_bind (run_onMem (run_schemeType htail)) ?_)))))
  by_cases hsym : t = .symbol
  · have hs : slots' = bs ++ [⟨tail, rest⟩] := by rw [hslots, restSlot, if_pos hsym]
    have hmore : max - bs.length = max - slots'.length + 1 := by
      rw [hs, List.length_append, List.length_singleton] at hroom ⊢
      omega
    rw [hmore, List.replicate_succ]
    have hwrite : (writeSlot b bs.length ⟨tail, rest⟩).run (m₁.setBlock b (bs.map some ++
        none :: List.replicate (max - slots'.length) none)) = some ((), _) :=
      run_writeSlot (block?_setBlock_self (block_lt hnew)) (by simp)
    rw [setBlock_setBlock, set_snoc, ← hs] at hwrite
    exact Ends.ite_pos hsym (Ends.run_bind (run_onMem hwrite) (Ends.of_run rfl))
  · have hs : slots' = bs := by rw [hslots, restSlot, if_neg hsym, List.append_nil]
    have hdone : m.extended e env slots' =
        ⟨m₁.setBlock b (bs.map some ++ List.replicate (max - bs.length) none), envs⟩ := by
      rw [← hs]
      rfl
    rw [hdone]
    exact Ends.ite_neg hsym (Ends.of_run rfl)

end SchemeOs
