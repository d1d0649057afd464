import SchemeOs.Interpreter.ArgumentVectors
import SchemeOs.Machinery.Refines

/-!
# Interpreter/Exhaustion — allocations that fail

`scheme_alloc_obj` is `kmalloc`, which returns NULL when there is no memory left.  The functions
that allocate compare what they got with `scheme_void` instead, which it never is, and go on with
the pointer.  Here an allocation may be refused, and the trace tells which were, which objects were
freed, and whether a field was accessed through NULL.  When none is refused the functions do what
those of `Builtins` do.
-/

namespace SchemeOs

open Traced

namespace Exhaustion

/-- What is traced. -/
inductive Event where
  | granted (p : Ptr)
  | refused
  | null
  | freed (p : Ptr)
  deriving DecidableEq, Repr

/-- The memory, and how often an object was asked for. -/
structure Store where
  memory : Memory
  requests : ℕ

abbrev Prog := Traced Event Store

/-- A computation on the memory. -/
def onMemory {α : Type} (k : Comp α) : Prog α :=
  lift fun s => (k s.memory).map fun r => (r.1, { s with memory := r.2 })

/-- What an allocation does: which requests are granted, and what the new object holds then. -/
structure Supply where
  grant : ℕ → Bool
  stale : Memory → Obj

variable (sup : Supply)

/-- `scheme_alloc_obj`: NULL is `none`. -/
def schemeAllocObj : Prog (Option Ptr) := fun s =>
  if sup.grant s.requests then
    (some (some s.memory.fresh, ⟨s.memory.push (sup.stale s.memory), s.requests + 1⟩),
      [.granted s.memory.fresh])
  else
    (some (none, ⟨s.memory, s.requests + 1⟩), [.refused])

/-- The object that a field of is accessed. -/
def deref : Option Ptr → Prog Ptr
  | some p => return p
  | none => do
    Traced.emit .null
    lift failure

/-- The assignments to the fields of a new object. -/
def fill (p : Option Ptr) (o : Obj) : Prog Ptr := do
  let p ← deref p
  onMemory (Builtins.schemeAssign p o)
  return p

/-- `while (!SCHEME_NULLP(l)) { p = l; l = SCHEME_CDR(l); scheme_free_obj(p); }` -/
def freeFrom : ℕ → Ptr → Prog Unit
  | 0, _ => lift failure
  | n + 1, l =>
    if l = schemeNull then
      return
    else do
      let cdr ← onMemory (schemeCdr l)
      Traced.emit (.freed l)
      freeFrom n cdr

/-- What `list` and `append` do when the new object is `scheme_void`.  To set the cdr of the empty
list has no effect. -/
def unwind (n : ℕ) (l q : Ptr) : Prog Ptr := do
  if q ≠ schemeNull then
    onMemory (schemeSetCdr q schemeNull)
  freeFrom n l
  return schemeVoid

/-- A function that allocates one object and fills it in. -/
def make (o : Obj) : Prog Ptr := do
  let p ← schemeAllocObj sup
  if p = some schemeVoid then
    return schemeVoid
  else
    fill p o

def schemeMakeIntegerNumb (n : ℤ) : Prog Ptr := make sup ⟨.integer, .int n⟩

def cons (car cdr : Ptr) : Prog Ptr := make sup ⟨.pair, .pair car (some cdr)⟩

def length (n : ℕ) (l : Ptr) : Prog Ptr := do
  let r ← onMemory (Builtins.walk n 0 l)
  if r.2 ≠ schemeNull then
    return schemeVoid
  else
    make sup ⟨.integer, .int r.1⟩

/-- The loop of `list`. -/
def listFrom (n : ℕ) : List Ptr → Ptr → Ptr → Prog Ptr
  | [], l, _ => return l
  | obj :: args, l, q => do
    let p ← schemeAllocObj sup
    if p = some schemeVoid then
      unwind n l q
    else
      if l ≠ schemeNull then
        let car ← onMemory (schemeCar q)
        onMemory (Builtins.schemeAssign q ⟨.pair, .pair car p⟩)
      let p ← fill p ⟨.pair, .pair obj none⟩
      listFrom n args (if l = schemeNull then p else l) p

def list (n : ℕ) (args : List Ptr) : Prog Ptr := listFrom sup n args schemeNull schemeNull

/-- `*p = *s; s = SCHEME_CDR(s);` for a new `p`, which is linked then. -/
def copyCell (n : ℕ) (l q s : Ptr) (rest : Ptr → Ptr → Ptr → Prog Ptr) : Prog Ptr := do
  let p ← schemeAllocObj sup
  if p = some schemeVoid then
    unwind n l q
  else
    let p ← deref p
    onMemory do Builtins.schemeAssign p (← Builtins.schemeObj s)
    let s ← onMemory (schemeCdr s)
    let l ← onMemory (Builtins.link l q p)
    rest l p s

/-- The loop of `append` with `argv` at `argv[k]`. -/
def appendFrom (argv : ℕ → Ptr) : ℕ → ℕ → ℕ → Ptr → Ptr → Ptr → Prog Ptr
  | 0, _, _, _, _, _ => lift failure
  | n + 1, argc, k, l, q, s =>
    if argc ≤ 1 then
      return l
    else do
      if (← onMemory (schemeType s)) = .pair then
        copyCell sup n l q s fun l q s => appendFrom argv n argc k l q s
      else if s ≠ schemeNull then
        return schemeVoid
      else if argc - 1 ≤ 1 then
        let l ← onMemory (Builtins.link l q (argv k))
        appendFrom argv n (argc - 1) (k + 1) l (argv k) (argv k)
      else
        copyCell sup n l q (argv k) fun l q s => appendFrom argv n (argc - 1) (k + 1) l q s

def append (n argc : ℕ) (argv : ℕ → Ptr) : Prog Ptr :=
  appendFrom sup argv n argc 0 schemeNull schemeNull (argv 0)

/-! ## The property -/

/-- The functions, with their arguments. -/
inductive Call where
  | cons (car cdr : Ptr)
  | list (args : List Ptr)
  | length (l : Ptr)
  | append (argc : ℕ) (argv : ℕ → Ptr)
  | schemeMakeIntegerNumb (n : ℤ)

/-- The function of a call, with fuel for its loops. -/
def Call.body (n : ℕ) : Call → Prog Ptr
  | .cons car cdr => Exhaustion.cons sup car cdr
  | .list args => Exhaustion.list sup n args
  | .length l => Exhaustion.length sup n l
  | .append argc argv => Exhaustion.append sup n argc argv
  | .schemeMakeIntegerNumb val => Exhaustion.schemeMakeIntegerNumb sup val

def Event.granted? : Event → Option Ptr
  | .granted p => some p
  | _ => none

def Event.freed? : Event → Option Ptr
  | .freed p => some p
  | _ => none

/-- The computation returns `scheme_void` and leaves all objects as they are, without an access
through NULL, and what it frees is what it had allocated. -/
structure Unwinds (x : Prog Ptr) (s : Store) : Prop where
  void : ∃ t, (x.run s).1 = some (schemeVoid, t) ∧ s.memory.heap.Sub t.memory.heap
  access : .null ∉ x.trace s
  frees : ((x.trace s).filterMap Event.freed?).Perm ((x.trace s).filterMap Event.granted?)

/-! ## What happens after a refusal

A refused request gives NULL, and each of the functions goes on with it until it reads or writes
through it. -/

variable {sup : Supply} {x y : Prog Ptr} {s : Store} {l q r : Ptr} {o : Obj} {n k argc : ℕ}
  {args : List Ptr} {argv : ℕ → Ptr} {α : Type}

/-- In the run from the state `s`, a refusal comes with an access through NULL. -/
def Careless (x : Prog α) (s : Store) : Prop := .refused ∈ x.trace s → .null ∈ x.trace s

namespace Careless

theorem of_events {x : Prog α} (h : EachEvent (· ≠ .refused) x) : Careless x s :=
  fun hs => absurd rfl (h s _ hs)

theorem of_pure {a : α} : Careless (pure a) s := of_events .of_pure

theorem of_failure : Careless (lift failure : Prog α) s := of_events .of_lift

/-- **Sequencing**: the access is in the part that the refusal is in. -/
theorem bind {β : Type} {x : Prog α} {f : α → Prog β} (hx : Careless x s)
    (hf : ∀ a t, (x.run s).1 = some (a, t) → Careless (f a) t) : Careless (x >>= f) s := by
  have htrace : (x >>= f).trace s = (next (x.trace s) f (x.run s).1).2 := rfl
  unfold Careless
  rw [htrace]
  cases hres : (x.run s).1 with
  | none => exact hx
  | some r =>
    intro hs
    rcases List.mem_append.mp hs with hs | hs
    · exact List.mem_append_left _ (hx hs)
    · exact List.mem_append_right _ (hf r.1 r.2 hres hs)

/-- A computation on the memory, and what comes after it. -/
theorem onMemory_bind {β : Type} {k : Comp α} {f : α → Prog β}
    (hf : ∀ a m, k.run s.memory = some (a, m) → Careless (f a) ⟨m, s.requests⟩) :
    Careless (onMemory k >>= f) s := by
  refine bind (of_events .of_lift) fun a t hrun => ?_
  obtain ⟨⟨b, m⟩, hk, heq⟩ := Option.map_eq_some_iff.mp hrun
  cases heq
  exact hf b m hk

theorem ite {p : Prop} [Decidable p] (hx : p → Careless x s) (hy : ¬p → Careless y s) :
    Careless (if p then x else y) s := by
  split
  · next h => exact hx h
  · next h => exact hy h

end Careless

theorem trace_onMemory_bind {β : Type} {k : Comp α} {f : α → Prog β} {a : α} {m : Memory}
    (h : k.run s.memory = some (a, m)) :
    (onMemory k >>= f).trace s = (f a).trace ⟨m, s.requests⟩ := by
  have hrun : StateT.run (fun s => (k s.memory).map fun r => (r.1, { s with memory := r.2 })) s =
      some (a, (⟨m, s.requests⟩ : Store)) := Option.map_eq_some_iff.mpr ⟨_, h, rfl⟩
  rw [trace, onMemory, lift_bind_of_run hrun]
  rfl

/-- An allocation that is granted. -/
theorem trace_alloc_granted {f : Option Ptr → Prog Ptr} (h : sup.grant s.requests = true) :
    (schemeAllocObj sup >>= f).trace s = .granted s.memory.fresh ::
      (f (some s.memory.fresh)).trace ⟨s.memory.push (sup.stale s.memory), s.requests + 1⟩ := by
  change (next (schemeAllocObj sup s).2 f (schemeAllocObj sup s).1).2 = _
  rw [schemeAllocObj, if_pos h]
  rfl

/-- An allocation that is refused. -/
theorem trace_alloc_refused {f : Option Ptr → Prog Ptr} (h : ¬sup.grant s.requests = true) :
    (schemeAllocObj sup >>= f).trace s =
      .refused :: (f none).trace ⟨s.memory, s.requests + 1⟩ := by
  change (next (schemeAllocObj sup s).2 f (schemeAllocObj sup s).1).2 = _
  rw [schemeAllocObj, if_neg h]
  rfl

/-- **After an allocation**: what follows a refusal makes the access, or what follows the new object
does when it is refused something. -/
theorem careless_alloc {f : Option Ptr → Prog Ptr}
    (hnull : .null ∈ (f none).trace ⟨s.memory, s.requests + 1⟩)
    (hf : Careless (f (some s.memory.fresh))
      ⟨s.memory.push (sup.stale s.memory), s.requests + 1⟩) :
    Careless (schemeAllocObj sup >>= f) s := by
  unfold Careless
  by_cases h : sup.grant s.requests = true
  · rw [trace_alloc_granted h]
    exact fun hs => .tail _ (hf ((List.mem_cons.mp hs).resolve_left nofun))
  · rw [trace_alloc_refused h]
    exact fun _ => .tail _ hnull

theorem null_mem_deref {f : Ptr → Prog Ptr} : .null ∈ (deref none >>= f).trace s :=
  mem_trace_bind (mem_trace_bind (.head _))

theorem null_mem_fill : .null ∈ (fill none o).trace s := null_mem_deref

/-- An object that was filled in holds what it was filled in with. -/
theorem of_run_fill {p a : Ptr} {t : Store} (h : ((fill (some p) o).run s).1 = some (a, t)) :
    a = p ∧ t.memory.heap.obj? p = some o := by
  have hrun : (fill (some p) o).result.run s = some (a, t) := h
  simp only [fill, deref, result_bind, result_pure, pure_bind, onMemory, result_lift] at hrun
  rw [StateT.run_bind] at hrun
  obtain ⟨⟨u, t'⟩, hassign, hrun⟩ := Option.bind_eq_some_iff.mp hrun
  cases hrun
  obtain ⟨⟨u', m⟩, hmemory, heq⟩ := Option.map_eq_some_iff.mp hassign
  cases heq
  obtain ⟨o', hobj, heq⟩ := Option.map_eq_some_iff.mp hmemory
  cases heq
  exact ⟨rfl, Memory.obj?_modify_self hobj⟩

theorem events_fill {p : Ptr} : EachEvent (· ≠ .refused) (fill (some p) o) :=
  .bind .of_pure fun _ => .bind .of_lift fun _ => .of_pure

theorem events_freeFrom : EachEvent (· ≠ .refused) (freeFrom n l) := by
  induction n generalizing l with
  | zero => exact .of_lift
  | succ n ih =>
    refine .ite (fun _ => .of_pure) fun _ => .bind .of_lift fun _ => ?_
    exact .bind (.of_emit nofun) fun _ => ih

theorem events_unwind : EachEvent (· ≠ .refused) (unwind n l q) := by
  have hrest : EachEvent (· ≠ .refused)
      (freeFrom n l >>= fun _ => pure schemeVoid : Prog Ptr) :=
    .bind events_freeFrom fun _ => .of_pure
  exact .ite (fun _ => .bind .of_lift fun _ => hrest) fun _ => hrest

/-! ## The functions -/

theorem careless_make : Careless (make sup o) s := by
  refine careless_alloc null_mem_fill (.of_events ?_)
  exact .ite (fun _ => .of_pure) fun _ => events_fill

theorem careless_length : Careless (length sup n l) s :=
  .onMemory_bind fun _ _ _ => .ite (fun _ => .of_pure) fun _ => careless_make

/-- The last pair of the list so far is a pair, so that the new object is linked to it. -/
theorem careless_listFrom
    (hq : l ≠ schemeNull → ∃ t a c, s.memory.heap.obj? q = some ⟨t, .pair a c⟩) :
    Careless (listFrom sup n args l q) s := by
  induction args generalizing l q s with
  | nil => exact .of_pure
  | cons obj args ih =>
    have hfill (s : Store) (p : Option Ptr) : Careless (fill p ⟨.pair, .pair obj none⟩ >>= fun p =>
        listFrom sup n args (if l = schemeNull then p else l) p) s := by
      cases p with
      | none => exact fun _ => null_mem_deref
      | some p =>
        refine .bind (.of_events events_fill) fun a t hrun => ih fun _ => ?_
        obtain ⟨rfl, hobj⟩ := of_run_fill hrun
        exact ⟨_, _, _, hobj⟩
    refine careless_alloc ?_ (.ite (fun _ => .of_events events_unwind) fun _ => ?_)
    · rw [if_neg nofun]
      by_cases hl : l = schemeNull
      · rw [if_neg (not_not.mpr hl)]
        exact null_mem_deref
      · obtain ⟨t, a, c, hobj⟩ := hq hl
        have hassign (m : Memory) (o : Obj) (h : m.heap.obj? q = some ⟨t, .pair a c⟩) :
            (Builtins.schemeAssign q o).run m = some ((), m.modify q fun _ => o) :=
          Option.map_eq_some_iff.mpr ⟨_, h, rfl⟩
        rw [if_pos hl, trace_onMemory_bind (s := ⟨s.memory, s.requests + 1⟩)
            (run_schemeCar (Heap.car?_of_obj? hobj)),
          trace_onMemory_bind (s := ⟨s.memory, s.requests + 1⟩) (hassign _ _ hobj)]
        exact null_mem_deref
    · refine .ite (fun _ => ?_) fun _ => hfill _ _
      exact .onMemory_bind fun _ _ _ => .onMemory_bind fun _ _ _ => hfill _ _

theorem careless_copyCell {rest : Ptr → Ptr → Ptr → Prog Ptr}
    (hrest : ∀ l q r s, Careless (rest l q r) s) : Careless (copyCell sup n l q r rest) s := by
  refine careless_alloc null_mem_deref (.ite (fun _ => .of_events events_unwind) fun _ => ?_)
  refine .onMemory_bind fun _ _ _ => .onMemory_bind fun _ _ _ => .onMemory_bind fun _ _ _ => ?_
  exact hrest _ _ _ _

theorem careless_appendFrom : Careless (appendFrom sup argv n argc k l q r) s := by
  induction n generalizing argc k l q r s with
  | zero => exact .of_failure
  | succ n ih =>
    refine .ite (fun _ => .of_pure) fun _ => .onMemory_bind fun _ _ _ => ?_
    refine .ite (fun _ => careless_copyCell fun _ _ _ _ => ih) fun _ => ?_
    refine .ite (fun _ => .of_pure) fun _ => ?_
    refine .ite (fun _ => .onMemory_bind fun _ _ _ => ih) fun _ => ?_
    exact careless_copyCell fun _ _ _ _ => ih

theorem careless_body (call : Call) : Careless (call.body sup n) s := by
  cases call with
  | cons car cdr => exact careless_make
  | list args => exact careless_listFrom fun h => absurd rfl h
  | length l => exact careless_length
  | append argc argv => exact careless_appendFrom
  | schemeMakeIntegerNumb val => exact careless_make

/-- **No refusal is survived**: whatever the call is and wherever in it the refusal comes, a field
is accessed through NULL. -/
theorem not_unwinds (call : Call) (h : .refused ∈ (call.body sup n).trace s) :
    ¬Unwinds (call.body sup n) s :=
  fun hunwinds => hunwinds.access (careless_body call h)

/-- No memory at all, and memory for one object. -/
def supply (cells : ℕ) : Supply := ⟨fun k => k < cells, fun _ => ⟨.undefined, .const⟩⟩

/-- The second pair of a list is refused. -/
theorem not_unwinds_list :
    .refused ∈ (Call.body (supply 1) 0 (.list [schemeTrue, schemeTrue])).trace ⟨.init, 0⟩ ∧
      ¬Unwinds (Call.body (supply 1) 0 (.list [schemeTrue, schemeTrue])) ⟨.init, 0⟩ :=
  have h : .refused ∈
      (Call.body (supply 1) 0 (.list [schemeTrue, schemeTrue])).trace ⟨.init, 0⟩ := by decide
  ⟨h, not_unwinds _ h⟩

/-- The pair of `cons` is refused. -/
theorem not_always_unwinds : ¬∀ (sup : Supply) (n : ℕ) (call : Call) (s : Store),
    .refused ∈ (call.body sup n).trace s → Unwinds (call.body sup n) s := by
  intro h
  have hunwinds := h (supply 0) 0 (.cons schemeTrue schemeTrue) ⟨.init, 0⟩ (by decide)
  exact hunwinds.access (by decide)

/-! ## With enough memory

The same bodies with an allocator that always grants are the primitives of `Interpreter/Builtins`.
-/

/-- The function of `Builtins` for a call. -/
def Call.builtin (n : ℕ) : Call → Comp Ptr
  | .cons car cdr => (Builtins.cons n 2 fun k => if k = 0 then car else cdr).result
  | .list args => (Builtins.list n args.length fun k => args.getD k schemeVoid).result
  | .length l => (Builtins.length n 1 fun _ => l).result
  | .append argc argv => (Builtins.append n argc argv).result
  | .schemeMakeIntegerNumb val => SchemeOs.schemeAllocObj ⟨.integer, .int val⟩

/-- The memory of a store, which has at least `scheme_null` and `scheme_void`. -/
def Holds (m : Memory) (s : Store) : Prop := s.memory = m ∧ 1 < m.objs.length

theorem modify_push_fresh (m : Memory) (o o' : Obj) :
    (m.push o).modify m.fresh (fun _ => o') = m.push o' := by
  have hlt : m.objs.length < (m.objs ++ [o]).length := by simp
  simp [Memory.push, Memory.modify, Memory.fresh, List.modify_eq_take_cons_drop hlt]

/-- An object is changed, and another one is made. -/
theorem modify_push {m : Memory} (h : m.heap.obj? q = some o) (o' : Obj) (f : Obj → Obj) :
    (m.push o').modify q f = (m.modify q f).push o' := by
  cases q with
  | char c => rfl
  | obj a =>
    have hlt : a < m.objs.length := (List.getElem?_eq_some_iff.mp h).1
    have hlt' : a < (m.objs ++ [o']).length := by
      rw [List.length_append]
      omega
    simp only [Memory.push, Memory.modify, List.modify_eq_take_cons_drop hlt,
      List.modify_eq_take_cons_drop hlt', List.getElem_append_left hlt,
      List.take_append_of_le_length hlt.le, List.drop_append_of_le_length hlt, List.append_assoc,
      List.cons_append]

/-- What an object is changed to depends on the object. -/
theorem modify_congr {m : Memory} {f g : Obj → Obj} (h : m.heap.obj? q = some o) (hfg : f o = g o) :
    m.modify q f = m.modify q g := by
  cases q with
  | char c => rfl
  | obj a =>
    obtain ⟨hlt, hget⟩ := List.getElem?_eq_some_iff.mp h
    simp [Memory.modify, List.modify_eq_take_cons_drop hlt, hget, hfg]

theorem length_modify (m : Memory) (q : Ptr) (f : Obj → Obj) :
    (m.modify q f).objs.length = m.objs.length := by
  cases q <;> simp [Memory.modify]

theorem fresh_modify (m : Memory) (q : Ptr) (f : Obj → Obj) : (m.modify q f).fresh = m.fresh := by
  cases q <;> simp [Memory.modify, Memory.fresh]

/-- An object is changed before a new one is filled in, or after that. -/
theorem modify_modify_fresh {m : Memory} {f g : Obj → Obj} (h : m.heap.obj? q = some o)
    (hfg : f o = g o) (stale o' : Obj) :
    ((m.push stale).modify q f).modify m.fresh (fun _ => o') = (m.push o').modify q g := by
  have hpush : (m.push o').heap.obj? q = some o := Memory.heap_push q _ h
  rw [modify_push h, ← fresh_modify m q f, modify_push_fresh, ← modify_push h,
    modify_congr hpush hfg]

theorem fresh_ne_void {m : Memory} (h : 1 < m.objs.length) : some m.fresh ≠ some schemeVoid := by
  intro heq
  have hlength : m.objs.length = 1 := Ptr.obj.inj (Option.some.inj heq)
  omega

/-- A computation on the memory that keeps its objects. -/
theorem refines_onMemory {k : Comp α}
    (hk : ∀ m, Ensures k m fun _ m' => m.objs.length ≤ m'.objs.length) :
    Refines Holds k (onMemory k).result := by
  rintro m s ⟨rfl, hlength⟩ a m' hrun
  exact ⟨⟨m', s.requests⟩, Option.map_eq_some_iff.mpr ⟨_, hrun, rfl⟩, rfl,
    Nat.lt_of_lt_of_le hlength (hk _ _ _ hrun)⟩

theorem ensures_read {f : Memory → Option α} (m : Memory) :
    Ensures (readMem f) m fun _ m' => m' = m := by
  intro a m' hrun
  obtain ⟨b, -, heq⟩ := Option.map_eq_some_iff.mp hrun
  cases heq
  rfl

theorem ensures_walk {len : ℕ} (m : Memory) :
    Ensures (Builtins.walk n len l) m fun _ m' => m' = m := by
  induction n generalizing len l with
  | zero => exact .of_failure
  | succ n ih =>
    refine .bind (ensures_read m) ?_
    rintro t m' rfl
    refine .ite (fun _ => ?_) fun _ => .of_pure rfl
    refine .bind (ensures_read m') ?_
    rintro r m'' rfl
    exact ih

/-- An object that is filled in. -/
theorem run_fill {p : Ptr} {o' : Obj} (h : s.memory.heap.obj? p = some o') :
    (fill (some p) o).result.run s =
      some (p, ⟨s.memory.modify p fun _ => o, s.requests⟩) := by
  have hassign : (onMemory (Builtins.schemeAssign p o)).result.run s =
      some ((), ⟨s.memory.modify p fun _ => o, s.requests⟩) :=
    Option.map_eq_some_iff.mpr ⟨_, Option.map_eq_some_iff.mpr ⟨_, h, rfl⟩, rfl⟩
  simp only [fill, deref, result_bind, result_pure, pure_bind]
  exact run_bind_of_run hassign

theorem ensures_link {p : Ptr} (m : Memory) : Ensures (Builtins.link l q p) m
    fun _ m' => m.objs.length ≤ m'.objs.length := by
  refine .ite (fun _ => .of_pure (Nat.le_refl _)) fun _ => .bind (R := fun _ m' =>
    m.objs.length ≤ m'.objs.length) ?_ fun _ m' h => .of_pure h
  intro a m' hrun
  obtain ⟨car, -, heq⟩ := Option.map_eq_some_iff.mp hrun
  cases heq
  rw [length_modify]

section Supplied

variable (hgrant : ∀ k, sup.grant k = true)

include hgrant

theorem run_alloc_bind {f : Option Ptr → Prog α} :
    (schemeAllocObj sup >>= f).result.run s = (f (some s.memory.fresh)).result.run
      ⟨s.memory.push (sup.stale s.memory), s.requests + 1⟩ := by
  rw [result_bind]
  refine run_bind_of_run ?_
  change (schemeAllocObj sup s).1 = _
  rw [schemeAllocObj, if_pos (hgrant _)]

theorem refines_make : Refines Holds (SchemeOs.schemeAllocObj o) (make sup o).result := by
  rintro m s ⟨rfl, hlength⟩ a m' hrun
  cases hrun
  rw [make, run_alloc_bind hgrant, if_neg (fresh_ne_void hlength),
    run_fill Memory.obj?_push_fresh, modify_push_fresh]
  exact ⟨_, rfl, rfl, by simp [Memory.push]; omega⟩

theorem refines_length : Refines Holds ((Call.length l).builtin n)
    ((Call.length l).body sup n).result := by
  simp only [Call.builtin, Call.body, Builtins.length, Builtins.arg, length, result_bind,
    result_emit, result_pure, result_lift, result_ite, pure_bind]
  refine .bind (refines_onMemory fun m => ?_) fun r => ?_
  · exact (ensures_walk m).mono fun _ m' hm' => hm' ▸ Nat.le_refl _
  · exact .ite Iff.rfl (.of_pure _) (refines_make hgrant)

/-- One more object of the list. -/
theorem run_listFrom_cons {obj a : Ptr} {c : Option Ptr} (hlength : 1 < s.memory.objs.length)
    (hq : l ≠ schemeNull → s.memory.heap.obj? q = some ⟨.pair, .pair a c⟩) :
    (listFrom sup n (obj :: args) l q).result.run s =
      (listFrom sup n args (if l = schemeNull then s.memory.fresh else l)
        s.memory.fresh).result.run
          ⟨if l = schemeNull then s.memory.push ⟨.pair, .pair obj none⟩
            else (s.memory.push ⟨.pair, .pair obj none⟩).modify q fun o =>
              { o with u := .pair a (some s.memory.fresh) }, s.requests + 1⟩ := by
  rw [listFrom, run_alloc_bind hgrant, if_neg (fresh_ne_void hlength)]
  by_cases hl : l = schemeNull
  · rw [if_neg (not_not.mpr hl), result_bind,
      run_bind_of_run (run_fill Memory.obj?_push_fresh), modify_push_fresh]
    simp only [if_pos hl]
  · have hq := hq hl
    have hstale := Memory.heap_push (o := sup.stale s.memory) q _ hq
    have hcar : (onMemory (schemeCar q)).result.run
        ⟨s.memory.push (sup.stale s.memory), s.requests + 1⟩ =
          some (a, ⟨s.memory.push (sup.stale s.memory), s.requests + 1⟩) :=
      Option.map_eq_some_iff.mpr ⟨_, run_schemeCar (Heap.car?_of_obj? hstale), rfl⟩
    have hassign : (onMemory (Builtins.schemeAssign q
        ⟨.pair, .pair a (some s.memory.fresh)⟩)).result.run
          ⟨s.memory.push (sup.stale s.memory), s.requests + 1⟩ =
        some ((), ⟨(s.memory.push (sup.stale s.memory)).modify q fun _ =>
          ⟨.pair, .pair a (some s.memory.fresh)⟩, s.requests + 1⟩) :=
      Option.map_eq_some_iff.mpr ⟨_, Option.map_eq_some_iff.mpr ⟨_, hstale, rfl⟩, rfl⟩
    have hfresh : ((s.memory.push (sup.stale s.memory)).modify q fun _ =>
        ⟨.pair, .pair a (some s.memory.fresh)⟩).heap.obj? s.memory.fresh =
          some (sup.stale s.memory) := by
      rw [Memory.obj?_modify_of_ne (Memory.ne_fresh hq).symm, Memory.obj?_push_fresh]
    rw [if_pos hl, result_bind, run_bind_of_run hcar, result_bind, run_bind_of_run hassign,
      result_bind, run_bind_of_run (run_fill hfresh), modify_modify_fresh
        (g := fun o => { o with u := .pair a (some s.memory.fresh) }) hq rfl]
    simp only [if_neg hl]

theorem refines_listFrom {k : ℕ} (hlength : 1 < s.memory.objs.length)
    (hq : l ≠ schemeNull → ∃ a c, s.memory.heap.obj? q = some ⟨.pair, .pair a c⟩)
    (hargs : ∀ i x, args[i]? = some x → argv (k + i) = x) {p : Ptr} {m : Memory}
    (hrun : (Builtins.listFrom argv args.length k l q).result.run s.memory = some (p, m)) :
    ∃ r, (listFrom sup n args l q).result.run s = some (p, ⟨m, r⟩) := by
  induction args generalizing l q s k with
  | nil =>
    cases hrun
    exact ⟨_, rfl⟩
  | cons obj args ih =>
    have hobj : argv k = obj := hargs 0 obj rfl
    have hrest (i : ℕ) (x : Ptr) (hx : args[i]? = some x) : argv (k + 1 + i) = x := by
      rw [Nat.add_assoc, Nat.add_comm 1 i]
      exact hargs (i + 1) x hx
    have hpushed : 1 < (s.memory.push ⟨.pair, .pair obj none⟩).objs.length := by
      rw [Memory.push, List.length_append]
      omega
    simp only [List.length_cons, Builtins.listFrom, Builtins.arg, result_bind, result_emit,
      result_pure, result_lift, result_ite, pure_bind, hobj] at hrun
    rw [run_bind_of_run run_schemeAllocObj] at hrun
    by_cases hl : l = schemeNull
    · rw [if_pos hl] at hrun
      rw [run_listFrom_cons hgrant (a := l) (c := none) hlength fun hne => absurd hl hne]
      simp only [if_pos hl]
      exact ih (s := ⟨s.memory.push ⟨.pair, .pair obj none⟩, s.requests + 1⟩) hpushed
        (fun _ => ⟨_, _, Memory.obj?_push_fresh⟩) hrest hrun
    · obtain ⟨a, c, hpair⟩ := hq hl
      have hpair' := Memory.heap_push (o := ⟨.pair, .pair obj none⟩) q _ hpair
      rw [if_neg hl, run_bind_of_run (run_schemeSetCdr (Heap.car?_of_obj? hpair'))] at hrun
      rw [run_listFrom_cons hgrant hlength fun _ => hpair]
      simp only [if_neg hl]
      refine ih ?_ (fun _ => ⟨obj, none, ?_⟩) hrest hrun
      · rw [length_modify]
        exact hpushed
      · rw [Memory.obj?_modify_of_ne (Memory.ne_fresh hpair).symm, Memory.obj?_push_fresh]

/-- One more object of `append`. -/
theorem refines_copyCell {rest : Ptr → Ptr → Ptr → Prog Ptr} {rest' : Ptr × Ptr × Ptr → Comp Ptr}
    (hrest : ∀ l q r, Refines Holds (rest' (l, q, r)) (rest l q r).result) :
    Refines Holds (Builtins.copyCell l q r >>= rest') (copyCell sup n l q r rest).result := by
  rintro m s ⟨rfl, hlength⟩ p m' hrun
  unfold Builtins.copyCell at hrun
  simp only [bind_assoc, pure_bind] at hrun
  rw [StateT.run_bind] at hrun
  obtain ⟨⟨o, m₁⟩, hobj, hrun⟩ := Option.bind_eq_some_iff.mp hrun
  obtain ⟨o', hr, heq⟩ := Option.map_eq_some_iff.mp hobj
  cases heq
  rw [run_bind_of_run run_schemeAllocObj] at hrun
  have hstale := Memory.heap_push (o := sup.stale s.memory) r _ hr
  have hassign : (onMemory do
      Builtins.schemeAssign s.memory.fresh (← Builtins.schemeObj r)).result.run
        ⟨s.memory.push (sup.stale s.memory), s.requests + 1⟩ =
      some ((), ⟨s.memory.push o, s.requests + 1⟩) := by
    have hread : (Builtins.schemeObj r).run (s.memory.push (sup.stale s.memory)) =
        some (o, s.memory.push (sup.stale s.memory)) := run_readMem hstale
    have hwrite : (Builtins.schemeAssign s.memory.fresh o).run
        (s.memory.push (sup.stale s.memory)) = some ((), s.memory.push o) := by
      rw [← modify_push_fresh s.memory (sup.stale s.memory) o]
      exact Option.map_eq_some_iff.mpr ⟨_, Memory.obj?_push_fresh, rfl⟩
    exact Option.map_eq_some_iff.mpr
      ⟨((), s.memory.push o), (run_bind_of_run hread).trans hwrite, rfl⟩
  have hpushed : Holds (s.memory.push o) ⟨s.memory.push o, s.requests + 1⟩ := by
    refine ⟨rfl, ?_⟩
    rw [Memory.push, List.length_append]
    omega
  have hafter : Refines Holds (schemeCdr r >>= fun s' => Builtins.link l q s.memory.fresh >>=
      fun l => rest' (l, s.memory.fresh, s')) (onMemory (schemeCdr r) >>= fun s' =>
        onMemory (Builtins.link l q s.memory.fresh) >>= fun l =>
          rest l s.memory.fresh s').result := by
    simp only [result_bind]
    refine .bind (refines_onMemory fun m => ?_) fun s' => ?_
    · exact (ensures_read m).mono fun _ m' hm' => hm' ▸ Nat.le_refl _
    · exact .bind (refines_onMemory ensures_link) fun l => hrest _ _ _
  obtain ⟨t, ht, hholds⟩ := hafter _ _ hpushed p m' hrun
  refine ⟨t, ?_, hholds⟩
  rw [copyCell, run_alloc_bind hgrant, if_neg (fresh_ne_void hlength)]
  simp only [deref]
  rw [result_bind, result_pure, pure_bind, result_bind, run_bind_of_run hassign]
  exact ht

theorem refines_appendFrom {k : ℕ} : Refines Holds (Builtins.appendFrom argv n argc k l q r).result
    (appendFrom sup argv n argc k l q r).result := by
  induction n generalizing argc k l q r with
  | zero => exact .of_failure
  | succ n ih =>
    simp only [Builtins.appendFrom, appendFrom, Builtins.arg, result_ite, result_bind, result_emit,
      result_pure, result_lift, pure_bind]
    refine .ite Iff.rfl (.of_pure _) (.bind (refines_onMemory fun m => ?_) fun t => ?_)
    · exact (ensures_read m).mono fun _ m' hm' => hm' ▸ Nat.le_refl _
    · refine .ite Iff.rfl (refines_copyCell hgrant fun _ _ _ => ih) (.ite Iff.rfl (.of_pure _) ?_)
      refine .ite Iff.rfl (.bind (refines_onMemory ensures_link) fun _ => ih) ?_
      exact refines_copyCell hgrant fun _ _ _ => ih

/-- **With enough memory** each function does what that of `Builtins` does. -/
theorem refines_body (call : Call) (n : ℕ) (hlength : 1 < s.memory.objs.length) {p : Ptr}
    {m : Memory} (hrun : (call.builtin n).run s.memory = some (p, m)) :
    ∃ k, (call.body sup n).result.run s = some (p, ⟨m, k⟩) := by
  have hof {k : Comp Ptr} {x : Prog Ptr} (h : Refines Holds k x.result)
      (hk : k.run s.memory = some (p, m)) : ∃ k, x.result.run s = some (p, ⟨m, k⟩) := by
    obtain ⟨t, ht, rfl, -⟩ := h _ s ⟨rfl, hlength⟩ p m hk
    exact ⟨t.requests, ht⟩
  cases call with
  | cons car cdr =>
    have heq : (Call.cons car cdr).builtin n =
        SchemeOs.schemeAllocObj ⟨.pair, .pair car (some cdr)⟩ := by
      simp [Call.builtin, Builtins.cons, Builtins.arg, schemeMakePair]
    exact hof (refines_make hgrant) (heq ▸ hrun)
  | list args =>
    refine refines_listFrom hgrant hlength (fun h => absurd rfl h) (fun i x hx => ?_) hrun
    rw [Nat.zero_add, List.getD_eq_getElem?_getD, hx]
    rfl
  | length l => exact hof (refines_length hgrant) hrun
  | append argc argv =>
    have heq : (Call.append argc argv).builtin n =
        (Builtins.appendFrom argv n argc 0 schemeNull schemeNull (argv 0)).result := by
      simp [Call.builtin, Builtins.append, Builtins.arg]
    exact hof (refines_appendFrom hgrant) (heq ▸ hrun)
  | schemeMakeIntegerNumb val => exact hof (refines_make hgrant) hrun

end Supplied

end Exhaustion

end SchemeOs
