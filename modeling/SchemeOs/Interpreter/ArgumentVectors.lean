import SchemeOs.Interpreter.Builtins
import SchemeOs.Interpreter.Effects

/-!
# Interpreter/ArgumentVectors — which words of the vector are read

A primitive that is called with the number of arguments it was registered for should read no word
behind them.  The functions are gone through one by one: all but four look only at arguments that
the bounds promise or that their own count does.
-/

namespace SchemeOs

open Traced

variable {ext : Callees} {beyond argv : ℕ → Ptr} {m : Memory} {primProc arg l q s : Ptr}
  {args : List Ptr} {n argc k i : ℕ} {p : Primitive} {op : Char}

/-! ## The property

A primitive is given the vector of its arguments by its address, and every read of it is an event.
The calls that are judged are those that the bounds of the primitive let through. -/

/-- The word lies in the vector. -/
def Event.Within (argc : ℕ) : Event → Prop
  | .call => True
  | .argv k => k < argc

namespace Primitive

/-- The number of arguments is one that the primitive was registered for. -/
def Admits (p : Primitive) (argc : ℕ) : Prop := p.mina ≤ argc ∧ (p.maxa = -1 ∨ (argc : ℤ) ≤ p.maxa)

/-- The function of the primitive is called for the right numbers of arguments only, with others
`scheme_void` is returned, and no word behind the vector is read. -/
structure Guarded (ext : Callees) (beyond : ℕ → Ptr) (m : Memory) (primProc arg : Ptr)
    (p : Primitive) (argc : ℕ) : Prop where
  calls (n : ℕ) (hn : argc < n) :
    .call ∈ (schemeApplyPrimProc ext beyond n primProc arg).trace m ↔ p.Admits argc
  void (h : ¬p.Admits argc) :
    Ends (fun n => (schemeApplyPrimProc ext beyond n primProc arg).result) m schemeVoid m
  reads (n k : ℕ) (h : .argv k ∈ (schemeApplyPrimProc ext beyond n primProc arg).trace m) : k < argc

/-- The primitives that read their first argument without having asked for one. -/
def readsFirst : List Primitive :=
  [⟨"read-char", Builtins.readChar, 0, 1⟩, ⟨"peek-char", Builtins.peekChar, 0, 1⟩,
   ⟨"-", Builtins.subtraction, 0, -1⟩, ⟨"append", fun _ => Builtins.append, 0, -1⟩]

end Primitive

/-! ## The functions

One lemma for each function: which reads of the vector it makes. -/

namespace Builtins

variable {α : Type} {f : Ptr → Body α}

theorem arg_bind (h : k < argc) (hf : ∀ obj, EachEvent (Event.Within argc) (f obj)) :
    EachEvent (Event.Within argc) (Builtins.arg argv k >>= f) :=
  .bind (.bind (.of_emit h) fun _ => .of_pure) hf

/-- A function that reads its first argument, and then does what leaves no events. -/
theorem first (h : 0 < argc) {g : Ptr → Comp α} :
    EachEvent (Event.Within argc) (Builtins.arg argv 0 >>= fun obj => lift (g obj)) :=
  arg_bind h fun _ => .of_lift

theorem events_typeP {t : SchemeType → Bool} (h : 0 < argc) :
    EachEvent (Event.Within argc) (typeP t n argc argv) :=
  arg_bind h fun _ => .lift_bind fun _ => .of_pure

theorem events_read : EachEvent (Event.Within argc) (read ext n argc argv) := by
  refine .ite (fun _ => .bind .of_pure fun _ => .of_lift) fun hne => ?_
  exact arg_bind (Nat.pos_of_ne_zero hne) fun _ => .of_lift

theorem events_fold (rslt : Ptr) {cnt : ℕ} (h : k + cnt ≤ argc) :
    EachEvent (Event.Within argc) (fold ext op argv rslt cnt k) := by
  induction cnt generalizing k with
  | zero => exact .of_pure
  | succ cnt ih => exact arg_bind (by omega) fun _ => .lift_bind fun _ => ih (by omega)

theorem events_foldRest (n : ℕ) {unit : ℤ} (h : 0 < argc) :
    EachEvent (Event.Within argc) (foldRest ext op unit n argc argv) := by
  refine .ite (fun _ => .lift_bind fun rslt => events_fold rslt (by omega)) fun _ => ?_
  exact arg_bind h fun _ => .lift_bind fun rslt => events_fold rslt (by omega)

theorem events_makeFilled {size : Ptr} {c : Char} :
    EachEvent (Event.Within argc) (makeString.makeFilled size c) :=
  .lift_bind fun _ => .ite (fun _ => .of_lift) fun _ => .of_lift

theorem events_makeString (h : 0 < argc) :
    EachEvent (Event.Within argc) (makeString n argc argv) := by
  refine arg_bind h fun size => .lift_bind fun t => .ite (fun _ => .of_pure) fun _ => ?_
  refine .ite (fun _ => events_makeFilled) fun hne => arg_bind (by omega) fun obj => ?_
  cases obj with
  | char c => exact events_makeFilled
  | obj a => exact .of_pure

theorem events_stringFrom {strObj : Ptr} {cnt : ℕ} {str : List Char} (h : k + cnt ≤ argc) :
    EachEvent (Event.Within argc) (stringFrom argv strObj cnt k str) := by
  induction cnt generalizing k str with
  | zero => exact .lift_bind fun _ => .of_pure
  | succ cnt ih =>
    refine arg_bind (by omega) fun obj => ?_
    cases obj with
    | char c => exact ih (by omega)
    | obj a => exact .ite (fun _ => .of_pure) fun _ => .of_lift

theorem events_listFrom {cnt : ℕ} (h : k + cnt ≤ argc) :
    EachEvent (Event.Within argc) (listFrom argv cnt k l q) := by
  induction cnt generalizing k l q with
  | zero => exact .of_pure
  | succ cnt ih =>
    refine arg_bind (by omega) fun obj => .lift_bind fun p => ?_
    exact .ite (fun _ => ih (by omega)) fun _ => .lift_bind fun _ => ih (by omega)

/-- The lists that are left and the place in the vector go together. -/
theorem events_appendFrom {cnt : ℕ} (h : k + cnt ≤ argc) :
    EachEvent (Event.Within argc) (appendFrom argv n cnt k l q s) := by
  induction n generalizing cnt k l q s with
  | zero => exact .of_lift
  | succ n ih =>
    refine .ite (fun _ => .of_pure) fun hmore => .lift_bind fun t => ?_
    refine .ite (fun _ => .lift_bind fun r => ih h) fun _ => .ite (fun _ => .of_pure) fun _ => ?_
    refine arg_bind (by omega) fun s => .ite (fun _ => ?_) fun _ => ?_
    · exact .lift_bind fun l => ih (by omega)
    · exact .lift_bind fun r => ih (by omega)

end Builtins

/-! ## The primitives -/

namespace Primitive

open Builtins

/-- Called with a number of arguments that it was registered for, and with one at least if it reads
its first argument without asking, the function reads no word behind the vector. -/
def Sound (p : Primitive) : Prop :=
  ∀ ext n argc argv, p.Admits argc → (p ∈ readsFirst → 0 < argc) →
    EachEvent (Event.Within argc) (p.builtin ext n argc argv)

theorem Sound.of_admits {name : String} {b : Callees → Builtin} {mina maxa : ℤ}
    (h : ∀ ext n (argc : ℕ) argv, mina ≤ (argc : ℤ) →
      EachEvent (Event.Within argc) (b ext n argc argv)) : Sound ⟨name, b, mina, maxa⟩ :=
  fun ext n argc argv hadmits _ => h ext n argc argv hadmits.1

/-- A primitive that returns without having looked at its arguments. -/
theorem Sound.const {name : String} {g : Callees → Ptr} {mina maxa : ℤ} :
    Sound ⟨name, fun ext _ _ _ => pure (g ext), mina, maxa⟩ := .of_admits fun _ _ _ _ _ => .of_pure

theorem Sound.noReturn {name : String} {mina maxa : ℤ} :
    Sound ⟨name, fun _ => Builtins.noReturn, mina, maxa⟩ := .of_admits fun _ _ _ _ _ => .of_lift

theorem Sound.typeP {name : String} {t : SchemeType → Bool} {maxa : ℤ} :
    Sound ⟨name, fun _ => Builtins.typeP t, 1, maxa⟩ :=
  .of_admits fun _ _ _ _ h => events_typeP (by omega)

theorem sound_env : ∀ p ∈ schemeInitEnv, p.Sound := by
  simp only [schemeInitEnv, List.forall_mem_cons]
  exact ⟨.const, .const, .const, fun _ h => nomatch h⟩

theorem sound_read : ∀ p ∈ schemeInitRead, p.Sound := by
  simp only [schemeInitRead, List.forall_mem_cons]
  refine ⟨.of_admits fun _ _ _ _ _ => events_read, ?_, ?_, ?_, .const, fun _ h => nomatch h⟩
  · intro ext n argc argv _ hfirst
    exact arg_bind (hfirst (.head _)) fun _ => .lift_bind fun _ => .of_pure
  · intro ext n argc argv _ hfirst
    exact arg_bind (hfirst (.tail _ (.head _))) fun _ => .lift_bind fun _ => .of_pure
  · exact .of_admits fun _ _ _ _ h => arg_bind (by omega) fun _ => .lift_bind fun _ => .of_pure

theorem sound_port : ∀ p ∈ schemeInitPort, p.Sound := by
  simp only [schemeInitPort, List.forall_mem_cons]
  exact ⟨.typeP, .typeP, .const, .const, .noReturn, .noReturn, .noReturn, .noReturn, .noReturn,
    .noReturn, fun _ h => nomatch h⟩

theorem sound_bool : ∀ p ∈ schemeInitBool, p.Sound := by
  simp only [schemeInitBool, List.forall_mem_cons]
  refine ⟨.of_admits fun _ _ _ _ h => ?_, .of_admits fun _ _ _ _ h => ?_,
    .of_admits fun _ _ _ _ h => ?_, fun _ h => nomatch h⟩
  all_goals exact arg_bind (by omega) fun _ => .of_pure

theorem sound_number : ∀ p ∈ schemeInitNumber, p.Sound := by
  simp only [schemeInitNumber, List.forall_mem_cons]
  refine ⟨.typeP, .typeP, .typeP, .typeP, .const, .const, .of_admits fun _ _ _ _ _ => ?_, ?_,
    .of_admits fun _ _ _ _ _ => ?_, .of_admits fun _ n _ _ h => ?_, fun _ h => nomatch h⟩
  · exact .lift_bind fun rslt => events_fold rslt (by omega)
  · intro ext n argc argv _ hfirst
    exact events_foldRest n (hfirst (.tail _ (.tail _ (.head _))))
  · exact .lift_bind fun rslt => events_fold rslt (by omega)
  · exact events_foldRest n (by omega)

theorem sound_string : ∀ p ∈ schemeInitString, p.Sound := by
  simp only [schemeInitString, List.forall_mem_cons]
  refine ⟨.of_admits fun _ _ _ _ h => events_makeString (by omega),
    .of_admits fun _ _ _ _ _ => ?_, .typeP, .of_admits fun _ _ _ _ h => ?_,
    .of_admits fun _ _ _ _ h => ?_, .of_admits fun _ _ _ _ h => ?_, .of_admits fun _ _ _ _ h => ?_,
    .of_admits fun _ _ _ _ h => ?_, .const, .const, .const, .const, .const, .const, .const, .const,
    .const, .const, .const, .const, .of_admits fun _ _ _ _ h => ?_, .const, fun _ h => nomatch h⟩
  · exact .lift_bind fun _ => events_stringFrom (by omega)
  · exact arg_bind (by omega) fun _ => .lift_bind fun _ => .lift_bind fun _ => .of_lift
  · refine arg_bind (by omega) fun _ => .lift_bind fun _ => arg_bind (by omega) fun _ => ?_
    refine .lift_bind fun _ => .ite (fun _ => ?_) fun _ => .of_pure
    exact .ite (fun _ => .of_lift) fun _ => .of_pure
  · refine arg_bind (by omega) fun _ => .lift_bind fun _ => arg_bind (by omega) fun _ => ?_
    refine .lift_bind fun _ => .ite (fun _ => arg_bind (by omega) fun obj => ?_) fun _ => .of_pure
    cases obj with
    | char c => exact .ite (fun _ => .of_lift) fun _ => .lift_bind fun _ => .of_pure
    | obj a => exact .of_lift
  · refine arg_bind (by omega) fun _ => .lift_bind fun _ => arg_bind (by omega) fun _ => ?_
    exact .lift_bind fun _ => .of_pure
  · refine arg_bind (by omega) fun _ => .lift_bind fun _ => arg_bind (by omega) fun _ => ?_
    exact .lift_bind fun _ => .of_pure
  · refine arg_bind (by omega) fun _ => .lift_bind fun _ => .ite (fun _ => .of_pure) fun _ => ?_
    exact .lift_bind fun _ => .lift_bind fun _ => .of_lift

theorem sound_list : ∀ p ∈ schemeInitList, p.Sound := by
  simp only [schemeInitList, List.forall_mem_cons]
  refine ⟨.of_admits fun _ _ _ _ h => ?_, .of_admits fun _ _ _ _ h => first (by omega),
    .of_admits fun _ _ _ _ h => first (by omega), .of_admits fun _ _ _ _ h => ?_,
    .of_admits fun _ _ _ _ h => ?_, .of_admits fun _ _ _ _ h => ?_, .of_admits fun _ _ _ _ h => ?_,
    .of_admits fun _ _ _ _ _ => events_listFrom (by omega), .of_admits fun _ _ _ _ h => ?_, ?_,
    .noReturn, fun _ h => nomatch h⟩
  · exact arg_bind (by omega) fun _ => arg_bind (by omega) fun _ => .of_lift
  · exact arg_bind (by omega) fun _ => arg_bind (by omega) fun _ => .lift_bind fun _ => .of_pure
  · exact arg_bind (by omega) fun _ => arg_bind (by omega) fun _ => .lift_bind fun _ => .of_pure
  · exact arg_bind (by omega) fun _ => .of_pure
  · exact arg_bind (by omega) fun _ => .lift_bind fun _ => .of_pure
  · refine arg_bind (by omega) fun _ => .lift_bind fun _ => .ite (fun _ => .of_pure) fun _ => ?_
    exact .of_lift
  · intro ext n argc argv _ hfirst
    have hpos := hfirst (.tail _ (.tail _ (.tail _ (.head _))))
    exact arg_bind hpos fun s => events_appendFrom (by omega)

theorem sound_symbol : ∀ p ∈ schemeInitSymbol, p.Sound := by
  simp only [schemeInitSymbol, List.forall_mem_cons]
  refine ⟨.typeP, .of_admits fun _ _ _ _ h => ?_, .of_admits fun _ _ _ _ h => ?_,
    .of_admits fun _ _ _ _ h => ?_, fun _ h => nomatch h⟩
  · exact arg_bind (by omega) fun _ => arg_bind (by omega) fun _ => .of_pure
  · exact arg_bind (by omega) fun _ => .lift_bind fun _ => .of_lift
  · exact arg_bind (by omega) fun _ => .lift_bind fun _ => .of_lift

theorem sound_of_registered : ∀ p ∈ registered, p.Sound := by
  simp only [registered, List.forall_mem_append]
  exact ⟨⟨⟨⟨⟨⟨⟨sound_env, sound_read⟩, sound_port⟩, sound_bool⟩, sound_number⟩, sound_string⟩,
    sound_list⟩, sound_symbol⟩

/-- Such a primitive takes no arguments as well as many, and then reads the first nevertheless. -/
theorem trace_of_readsFirst (hp : p ∈ readsFirst) (ext : Callees) (n : ℕ) (argv : ℕ → Ptr)
    (m : Memory) : p.mina = 0 ∧ p.maxa ≠ 0 ∧ .argv 0 ∈ (p.builtin ext n 0 argv).trace m := by
  simp only [readsFirst, List.mem_cons, List.not_mem_nil, or_false] at hp
  rcases hp with rfl | rfl | rfl | rfl
  all_goals exact ⟨rfl, by decide, mem_trace_bind (.head _)⟩

/-- The bounds with which primitives are registered. -/
theorem bounds_of_registered : ∀ p ∈ registered, -1 ≤ p.maxa ∧ (p.maxa = 0 → p.mina = 0) := by
  decide

/-! ## The call -/

/-- The empty list is not a pair. -/
theorem null_ne_pair (hm : HasConstants m.heap) : m.heap.type? schemeNull ≠ some .pair := by
  obtain ⟨t, ht, hor⟩ := hm.null
  rw [Heap.type?_of_obj? ht]
  rintro ⟨⟩
  rcases hor with h | h
  · cases h
  · exact absurd h (by decide)

/-- The elements are found with fuel for each of them. -/
theorem run_listElements (hm : HasConstants m.heap) (h : m.heap.Spine arg args schemeNull) :
    (listElements n arg).run m = if args.length < n then some (args, m) else none := by
  induction n generalizing arg args with
  | zero => rfl
  | succ n ih =>
    rw [listElements]
    cases args with
    | nil =>
      rw [if_pos (show arg = schemeNull from h),
        if_pos (show ([] : List Ptr).length < n + 1 from Nat.succ_pos n)]
      rfl
    | cons x xs =>
      obtain ⟨htype, hcar, r, hcdr, hr⟩ := h
      have hne : arg ≠ schemeNull := by
        rintro rfl
        exact null_ne_pair hm htype
      rw [if_neg hne, run_bind_of_run (run_schemeCar hcar), run_bind_of_run (run_schemeCdr hcdr),
        StateT.run_bind, ih hr, List.length_cons]
      by_cases hlt : xs.length < n
      · rw [if_pos hlt, if_pos (Nat.succ_lt_succ hlt)]
        rfl
      · rw [if_neg hlt, if_neg (fun h => hlt (Nat.lt_of_succ_lt_succ h))]
        rfl

section Apply

variable (hm : HasConstants m.heap) (hi : registered[i]? = some p)
  (hproc : m.heap.primProc? primProc = some (i, p.mina, p.maxa))
  (hargs : m.heap.Spine arg args schemeNull)

include hm hargs

/-- Without fuel for the list nothing is traced. -/
theorem trace_of_le (hn : n ≤ args.length) :
    (schemeApplyPrimProc ext beyond n primProc arg).trace m = [] := by
  have hrun := run_listElements (n := n) hm hargs
  rw [if_neg (Nat.not_lt.mpr hn)] at hrun
  rw [trace, schemeApplyPrimProc, lift_bind_of_none hrun]

include hi hproc

/-- The bounds are tested as the code tests them, and the call follows. -/
theorem run_apply (hn : args.length < n) :
    (schemeApplyPrimProc ext beyond n primProc arg).run m =
      if 0 < p.maxa ∧ p.maxa < args.length ∨ (args.length : ℤ) < p.mina then
        (some (schemeVoid, m), [])
      else
        (((p.builtin ext n args.length (words args beyond)).run m).1,
          .call :: (p.builtin ext n args.length (words args beyond)).trace m) := by
  have hrun := run_listElements (n := n) hm hargs
  rw [if_pos hn] at hrun
  rw [schemeApplyPrimProc, lift_bind_of_run hrun,
    lift_bind_of_run (k := schemePrim primProc) (run_readMem hproc)]
  dsimp only
  rw [hi]
  by_cases hmax : 0 < p.maxa ∧ p.maxa < args.length
  · rw [if_pos hmax, if_pos (Or.inl hmax)]
    rfl
  · rw [if_neg hmax]
    by_cases hmin : (args.length : ℤ) < p.mina
    · rw [if_pos hmin, if_pos (Or.inr hmin)]
      rfl
    · rw [if_neg hmin, if_neg (not_or.mpr ⟨hmax, hmin⟩), trace]
      rfl

/-- The trace of a call that the bounds let through. -/
theorem trace_call (ext : Callees) (beyond : ℕ → Ptr) (hn : args.length < n)
    (h : ¬(0 < p.maxa ∧ p.maxa < args.length ∨ (args.length : ℤ) < p.mina)) :
    (schemeApplyPrimProc ext beyond n primProc arg).trace m =
      .call :: (p.builtin ext n args.length (words args beyond)).trace m := by
  rw [trace, run_apply hm hi hproc hargs hn, if_neg h]

/-- A guarded primitive is called with the right numbers of arguments, and has those it reads. -/
theorem of_guarded (h : Guarded ext beyond m primProc arg p args.length) :
    (p.maxa = 0 → args = []) ∧ (p ∈ readsFirst → args ≠ []) := by
  obtain ⟨-, hzero⟩ := bounds_of_registered p (List.mem_of_getElem? hi)
  constructor
  · intro hmax
    by_contra hne
    have hpos := List.length_pos_iff.mpr hne
    have htrace := trace_call hm hi hproc hargs ext beyond (Nat.lt_succ_self _)
      (by rw [hmax, hzero hmax]; omega)
    have hcall := (h.calls _ (Nat.lt_succ_self _)).mp (by rw [htrace]; exact List.mem_cons_self)
    have hle := hcall.2
    rw [hmax] at hle
    omega
  · rintro hfirst rfl
    obtain ⟨hmin, hmax, hread⟩ := trace_of_readsFirst hfirst ext 1 (words [] beyond) m
    have htrace := trace_call hm hi hproc hargs ext beyond Nat.one_pos
      (by rw [hmin, List.length_nil]; omega)
    have hlt := h.reads 1 0 (by rw [htrace]; exact List.mem_cons_of_mem _ hread)
    exact Nat.not_lt_zero 0 hlt

/-- **When a primitive is guarded**: with a bound of no arguments it gets none, and if it reads its
first argument without asking it gets one. -/
theorem guarded_iff (ext : Callees) (beyond : ℕ → Ptr) :
    Guarded ext beyond m primProc arg p args.length ↔
      (p.maxa = 0 → args = []) ∧ (p ∈ readsFirst → args ≠ []) := by
  refine ⟨of_guarded hm hi hproc hargs, fun ⟨hmax, hfirst⟩ => ?_⟩
  have hmem := List.mem_of_getElem? hi
  obtain ⟨hbound, -⟩ := bounds_of_registered p hmem
  have htest : (0 < p.maxa ∧ p.maxa < args.length ∨ (args.length : ℤ) < p.mina) ↔
      ¬p.Admits args.length := by
    have hnil (h0 : p.maxa = 0) : args.length = 0 := by rw [hmax h0, List.length_nil]
    unfold Admits
    omega
  refine ⟨fun n hn => ?_, fun hno => ?_, fun n k hk => ?_⟩
  · by_cases hadmits : p.Admits args.length
    · rw [trace_call hm hi hproc hargs ext beyond hn (by rw [htest]; exact not_not.mpr hadmits)]
      exact iff_of_true List.mem_cons_self hadmits
    · rw [trace, run_apply hm hi hproc hargs hn, if_pos (htest.mpr hadmits)]
      exact iff_of_false List.not_mem_nil hadmits
  · refine ⟨args.length + 1, fun n hn => ?_⟩
    change ((schemeApplyPrimProc ext beyond n primProc arg).run m).1 = _
    rw [run_apply hm hi hproc hargs hn, if_pos (htest.mpr hno)]
  · rcases Nat.lt_or_ge args.length n with hn | hn
    · by_cases hadmits : p.Admits args.length
      · rw [trace_call hm hi hproc hargs ext beyond hn (by rw [htest]; exact not_not.mpr hadmits),
          List.mem_cons] at hk
        rcases hk with hk | hk
        · cases hk
        · exact sound_of_registered p hmem ext n _ _ hadmits
            (fun h => List.length_pos_iff.mpr (hfirst h)) m _ hk
      · rw [trace, run_apply hm hi hproc hargs hn, if_pos (htest.mpr hadmits)] at hk
        cases hk
    · rw [trace_of_le hm hargs hn] at hk
      cases hk

end Apply

/-- The primitives, as the evaluator takes them. -/
def externals (past : ℕ → ℕ → Char) (ext : Callees) (beyond : ℕ → Ptr) : Externals where
  past := past
  builtin n b args :=
    match registered[b]? with
    | none => failure
    | some p => (p.builtin ext n args.length (words args beyond)).result

/-- Without its trace this is the call that the evaluator makes. -/
theorem result_schemeApplyPrimProc (past : ℕ → ℕ → Char) (ext : Callees) (beyond : ℕ → Ptr)
    (n : ℕ) (primProc arg : Ptr) :
    (schemeApplyPrimProc ext beyond n primProc arg).result =
      SchemeOs.schemeApplyPrimProc (externals past ext beyond) n primProc arg := by
  unfold schemeApplyPrimProc SchemeOs.schemeApplyPrimProc
  rw [result_bind, result_lift]
  refine congrArg _ (funext fun argv => ?_)
  rw [result_bind, result_lift]
  refine congrArg _ (funext fun r => ?_)
  obtain ⟨b, mina, maxa⟩ := r
  rw [result_ite, result_ite, result_bind, result_emit]
  simp only [result_pure, pure_bind, externals]
  cases registered[b]? <;> rfl

/-- Callees that never return. -/
def idle : Callees where
  currentInputPort := schemeNull
  currentOutputPort := schemeNull
  getChar _ := failure
  peekChar _ := failure
  readForm _ _ := failure
  makeSymbol _ := failure
  binaryDbl _ _ _ := failure
  stale _ := ⟨.undefined, .const⟩

/-- A memory with the primitive `not` and a list of one argument. -/
def notMemory : Memory :=
  (Memory.init.push ⟨.primProc, .primProc 20 1 1⟩).push ⟨.pair, .pair schemeTrue (some schemeNull)⟩

theorem guarded_iff_not : Guarded idle (fun _ => schemeNull) notMemory (.obj 6) (.obj 7)
      ⟨"not", fun _ => Builtins.not, 1, 1⟩ [schemeTrue].length ↔
    ((1 : ℤ) = 0 → [schemeTrue] = []) ∧
      (⟨"not", fun _ => Builtins.not, 1, 1⟩ ∈ readsFirst → [schemeTrue] ≠ []) := by
  have hm : HasConstants notMemory.heap := ⟨⟨.null, rfl, .inl rfl⟩, rfl, rfl, rfl⟩
  have hi : registered[20]? = some ⟨"not", fun _ => Builtins.not, 1, 1⟩ := rfl
  have hproc : notMemory.heap.primProc? (.obj 6) = some (20, 1, 1) := rfl
  have hargs : notMemory.heap.Spine (.obj 7) [schemeTrue] schemeNull :=
    ⟨rfl, rfl, schemeNull, rfl, rfl⟩
  exact guarded_iff hm hi hproc hargs idle fun _ => schemeNull

/-- The difference of no numbers is that of a word behind the vector. -/
theorem not_guarded : ¬∀ (ext : Callees) (beyond : ℕ → Ptr) (m : Memory) (primProc arg : Ptr)
    (args : List Ptr) (i : ℕ) (p : Primitive), HasConstants m.heap → registered[i]? = some p →
      m.heap.primProc? primProc = some (i, p.mina, p.maxa) → m.heap.Spine arg args schemeNull →
        Guarded ext beyond m primProc arg p args.length := by
  intro h
  have hm : HasConstants (Memory.init.push ⟨.primProc, .primProc 28 0 (-1)⟩).heap :=
    ⟨⟨.null, rfl, .inl rfl⟩, rfl, rfl, rfl⟩
  have hi : registered[28]? = some ⟨"-", subtraction, 0, -1⟩ := rfl
  have hproc : (Memory.init.push ⟨.primProc, .primProc 28 0 (-1)⟩).heap.primProc? (.obj 6) =
      some (28, 0, -1) := rfl
  have hargs : (Memory.init.push ⟨.primProc, .primProc 28 0 (-1)⟩).heap.Spine schemeNull []
      schemeNull := rfl
  have hguarded := h idle (fun _ => schemeNull) _ _ _ [] 28 _ hm hi hproc hargs
  exact (of_guarded hm hi hproc hargs hguarded).2 (.tail _ (.tail _ (.head _))) rfl

end Primitive

end SchemeOs
