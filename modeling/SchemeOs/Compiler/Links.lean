import Mathlib.Data.List.Nodup
import Mathlib.Tactic.SplitIfs
import SchemeOs.Compiler.Emits
import SchemeOs.Compiler.Machine

/-!
# Compiler/Links — the labels of compiled code

The labels of an expression's code are those that the counter runs through while it is compiled, so
no label of a program occurs twice, and a jump to it goes where it stands: compiled programs are
`Linked`.
-/

namespace SchemeOs.Compiler

variable {prog c c' : List Code} {env : CompileTimeEnvt} {k : List Code} {l n m : ℕ}

/-! ## Linked code -/

mutual

/-- Each label in the code, which is followed by `k`, stands where a jump to it goes. -/
def Linked (prog : List Code) (env : CompileTimeEnvt) (k : List Code) : List Code → Prop
  | [] => True
  | c :: cs => LinkedIn prog env (cs ++ k) c ∧ Linked prog env k cs

/-- `Linked`, for one instruction. -/
def LinkedIn (prog : List Code) (env : CompileTimeEnvt) (k : List Code) : Code → Prop
  | .label l => findLabel l (topEnvt prog) [] prog = some (env, k)
  | .ifTrue con alt => Linked prog env k con ∧ Linked prog env k alt
  | .ifFalse con alt => Linked prog env k con ∧ Linked prog env k alt
  | .makeClosure _ formals body => Linked prog (bodyEnvt env formals body) [] body
  | _ => True

end

theorem linked_append (c c' : List Code) :
    Linked prog env k (c ++ c') ↔ Linked prog env (c' ++ k) c ∧ Linked prog env k c' := by
  induction c with
  | nil => simp [Linked]
  | cons i c ih => simp only [List.cons_append, Linked, ih, List.append_assoc, and_assoc]

theorem linked_singleton (i : Code) : Linked prog env k [i] ↔ LinkedIn prog env k i := by
  simp [Linked]

/-! ## Labels -/

mutual

/-- The labels in the code, those in blocks and closures included. -/
def labels : List Code → List ℕ
  | [] => []
  | c :: cs => labelsIn c ++ labels cs

/-- The labels in an instruction. -/
def labelsIn : Code → List ℕ
  | .label l => [l]
  | .ifTrue con alt => labels con ++ labels alt
  | .ifFalse con alt => labels con ++ labels alt
  | .makeClosure _ _ body => labels body
  | _ => []

end

@[simp] theorem labels_append (c c' : List Code) : labels (c ++ c') = labels c ++ labels c' := by
  induction c with
  | nil => rfl
  | cons i c ih => rw [List.cons_append, labels, labels, ih, List.append_assoc]

mutual

theorem findLabel_isSome : (c : List Code) → {env : CompileTimeEnvt} → {k : List Code} →
    ((findLabel l env k c).isSome ↔ l ∈ labels c)
  | [], _, _ => by simp [findLabel, labels]
  | i :: c, _, _ => by
    rw [findLabel, labels, Option.isSome_or, Bool.or_eq_true, List.mem_append, findIn_isSome i,
      findLabel_isSome c]

theorem findIn_isSome : (i : Code) → {env : CompileTimeEnvt} → {k : List Code} →
    ((findIn l env k i).isSome ↔ l ∈ labelsIn i)
  | .label m, _, _ => by
    rw [findIn, labelsIn, List.mem_singleton]
    split_ifs with h
    · simp [h]
    · simp [Ne.symm h]
  | .ifTrue con alt, _, _ => by
    rw [findIn, labelsIn, Option.isSome_or, Bool.or_eq_true, List.mem_append,
      findLabel_isSome con, findLabel_isSome alt]
  | .ifFalse con alt, _, _ => by
    rw [findIn, labelsIn, Option.isSome_or, Bool.or_eq_true, List.mem_append,
      findLabel_isSome con, findLabel_isSome alt]
  | .makeClosure _ _ body, _, _ => by rw [findIn, labelsIn, findLabel_isSome body]
  | .fetchConst _, _, _ => by simp [findIn, labelsIn]
  | .lookupVar _, _, _ => by simp [findIn, labelsIn]
  | .newBind _, _, _ => by simp [findIn, labelsIn]
  | .reBind _, _, _ => by simp [findIn, labelsIn]
  | .leaveProc, _, _ => by simp [findIn, labelsIn]
  | .apply, _, _ => by simp [findIn, labelsIn]
  | .callBuiltin _ _, _, _ => by simp [findIn, labelsIn]
  | .pushCont _, _, _ => by simp [findIn, labelsIn]
  | .push, _, _ => by simp [findIn, labelsIn]
  | .moveSp _, _, _ => by simp [findIn, labelsIn]
  | .accStack _, _, _ => by simp [findIn, labelsIn]
  | .goto _, _, _ => by simp [findIn, labelsIn]
  | .blankLn, _, _ => by simp [findIn, labelsIn]
  | .nop, _, _ => by simp [findIn, labelsIn]

end

/-- Where distinct labels are searched one part after the other, each is found in its part. -/
theorem or_eq_of_mem {α : Type} {f g h : ℕ → Option α} {ls ls' : List ℕ}
    (hf : ∀ l, (f l).isSome ↔ l ∈ ls) (hnodup : (ls ++ ls').Nodup)
    (hh : ∀ l ∈ ls ++ ls', h l = (f l).or (g l)) :
    (∀ l ∈ ls, h l = f l) ∧ ∀ l ∈ ls', h l = g l := by
  refine ⟨fun l hl => ?_, fun l hl => ?_⟩
  · rw [hh l (List.mem_append_left _ hl)]
    obtain ⟨a, ha⟩ := Option.isSome_iff_exists.mp ((hf l).mpr hl)
    rw [ha]
    rfl
  · have hnot : ¬ (f l).isSome := fun hsome =>
      List.disjoint_of_nodup_append hnodup ((hf l).mp hsome) hl
    rw [hh l (List.mem_append_right _ hl), Option.not_isSome_iff_eq_none.mp hnot]
    rfl

mutual

/-- **Code with distinct labels is linked** where they are found in it. -/
theorem linked_of_nodup : (c : List Code) → {env : CompileTimeEnvt} → {k : List Code} →
    (labels c).Nodup →
    (∀ l ∈ labels c, findLabel l (topEnvt prog) [] prog = findLabel l env k c) →
      Linked prog env k c
  | [], _, _, _, _ => trivial
  | i :: c, _, _, hnodup, hfind => by
    rw [labels] at hnodup hfind
    obtain ⟨h₁, h₂⟩ := or_eq_of_mem (fun _ => findIn_isSome i) hnodup hfind
    exact ⟨linkedIn_of_nodup i hnodup.of_append_left h₁,
      linked_of_nodup c hnodup.of_append_right h₂⟩

theorem linkedIn_of_nodup : (i : Code) → {env : CompileTimeEnvt} → {k : List Code} →
    (labelsIn i).Nodup →
    (∀ l ∈ labelsIn i, findLabel l (topEnvt prog) [] prog = findIn l env k i) →
      LinkedIn prog env k i
  | .label l, _, _, _, hfind => by
    have := hfind l (List.mem_singleton_self l)
    rwa [findIn, if_pos rfl] at this
  | .ifTrue con alt, _, _, hnodup, hfind => by
    rw [labelsIn] at hnodup hfind
    obtain ⟨h₁, h₂⟩ := or_eq_of_mem (fun _ => findLabel_isSome con) hnodup hfind
    exact ⟨linked_of_nodup con hnodup.of_append_left h₁,
      linked_of_nodup alt hnodup.of_append_right h₂⟩
  | .ifFalse con alt, _, _, hnodup, hfind => by
    rw [labelsIn] at hnodup hfind
    obtain ⟨h₁, h₂⟩ := or_eq_of_mem (fun _ => findLabel_isSome con) hnodup hfind
    exact ⟨linked_of_nodup con hnodup.of_append_left h₁,
      linked_of_nodup alt hnodup.of_append_right h₂⟩
  | .makeClosure _ _ body, _, _, hnodup, hfind => linked_of_nodup body hnodup hfind
  | .fetchConst _, _, _, _, _ => trivial
  | .lookupVar _, _, _, _, _ => trivial
  | .newBind _, _, _, _, _ => trivial
  | .reBind _, _, _, _, _ => trivial
  | .leaveProc, _, _, _, _ => trivial
  | .apply, _, _, _, _ => trivial
  | .callBuiltin _ _, _, _, _, _ => trivial
  | .pushCont _, _, _, _, _ => trivial
  | .push, _, _, _, _ => trivial
  | .moveSp _, _, _, _, _ => trivial
  | .accStack _, _, _, _, _ => trivial
  | .goto _, _, _, _, _ => trivial
  | .blankLn, _, _, _, _ => trivial
  | .nop, _, _, _, _ => trivial

end

/-! ## Labels of compiled code

The counter of the compiler only grows, so that no label is used twice. -/

/-- The labels `ls` differ, and are taken from `n` up to `m`. -/
structure Fresh (n m : ℕ) (ls : List ℕ) : Prop where
  le : n ≤ m
  nodup : ls.Nodup
  bounds : ∀ l ∈ ls, n ≤ l ∧ l < m

namespace Fresh

variable {i : ℕ} {ls ls' : List ℕ}

theorem nil (n : ℕ) : Fresh n n [] := ⟨Nat.le_refl n, .nil, fun _ hl => absurd hl List.not_mem_nil⟩

theorem single (n : ℕ) : Fresh n (n + 1) [n] where
  le := Nat.le_succ n
  nodup := List.nodup_singleton n
  bounds l hl := by
    rw [List.mem_singleton.mp hl]
    omega

/-- Labels taken one part after the other. -/
theorem append (h : Fresh n m ls) (h' : Fresh m i ls') : Fresh n i (ls ++ ls') where
  le := Nat.le_trans h.le h'.le
  nodup := by
    refine List.nodup_append.mpr ⟨h.nodup, h'.nodup, fun a ha b hb => ?_⟩
    have := h.bounds a ha
    have := h'.bounds b hb
    omega
  bounds l hl := by
    have := h.le
    have := h'.le
    rcases List.mem_append.mp hl with hl | hl
    · have := h.bounds l hl
      omega
    · have := h'.bounds l hl
      omega

/-- The first label is placed behind the others. -/
theorem concat (h : Fresh (n + 1) m ls) : Fresh n m (ls ++ [n]) where
  le := Nat.le_of_succ_le h.le
  nodup := by
    refine List.nodup_append.mpr ⟨h.nodup, List.nodup_singleton n, fun a ha b hb => ?_⟩
    have := h.bounds a ha
    rw [List.mem_singleton.mp hb]
    omega
  bounds l hl := by
    have := h.le
    rcases List.mem_append.mp hl with hl | hl
    · have := h.bounds l hl
      omega
    · rw [List.mem_singleton.mp hl]
      omega

/-- A label that is not used. -/
theorem skip (h : Fresh (n + 1) m ls) : Fresh n m ls where
  le := Nat.le_of_succ_le h.le
  nodup := h.nodup
  bounds l hl := by
    have := h.bounds l hl
    omega

end Fresh

theorem labels_header (args : List Sym) : labels (header args) = [] := by
  rw [header]
  induction args.zipIdx with
  | nil => rfl
  | cons vi rest ih =>
    rw [List.flatMap_cons, labels_append, ih]
    rfl

theorem labels_withTail {tail : List Code} {cs : List (List Code)} (ht : labels tail = []) :
    labels (withTail tail cs) = labels cs.flatten :=
  collect_withTail labels_append rfl ht

theorem labels_removeLast {t : Code} {cs : List (List Code)} (ht : labels [t] = []) (h : cs ≠ []) :
    labels (removeLast (withTail [t] cs)) = labels cs.flatten :=
  collect_removeLast labels_append rfl ht h

mutual

/-- **The labels of compiled code** are fresh. -/
theorem fresh_expr : (e : Expr) → {istail : Bool} → {n m : ℕ} → {c : List Code} →
    compileExprM istail e n = some (c, m) → Fresh n m (labels c)
  | .variable _, _, n, _, _, h => by
    obtain ⟨rfl, rfl⟩ := emits_variable.mp h
    exact .nil _
  | .quote _, _, _, _, _, h => by
    obtain ⟨rfl, rfl⟩ := emits_quote.mp h
    exact .nil _
  | .selfEval _, _, _, _, _, h => by
    obtain ⟨rfl, rfl⟩ := emits_selfEval.mp h
    exact .nil _
  | .procCall func args, istail, _, _, _, h => by
    have htail : labels [.push, .blankLn] = [] := rfl
    cases hs : builtinSym func with
    | some s =>
      obtain ⟨cs, hcs, rfl⟩ := (emits_builtin hs).mp h
      have hlabels : labels (withTail [.push, .blankLn] cs ++
          [.callBuiltin s args.length, .moveSp args.length, .blankLn]) = labels cs.flatten := by
        simp [labels_withTail htail, labels, labelsIn]
      rw [hlabels]
      cases istail with
      | true => exact fresh_seq args hcs
      | false => exact (fresh_seq args hcs).skip
    | none =>
      obtain ⟨cs, k, op, hcs, hop, rfl⟩ := (emits_procCall hs).mp h
      have happ := (fresh_seq args hcs).append (fresh_expr func hop)
      cases istail with
      | true => simpa [labels_withTail htail, labels, labelsIn] using happ
      | false => simpa [labels_withTail htail, labels, labelsIn] using happ.concat
  | .sequence es, _, _, _, _, h => by
    obtain ⟨cs, hcs, rfl⟩ := emits_sequence.mp h
    exact fresh_seq es hcs
  | .lambda _ es, _, _, _, _, h => by
    obtain ⟨cs, hcs, rfl⟩ := emits_lambda.mp h
    simpa [labels, labelsIn] using fresh_seq es hcs
  | .defvar _ e, _, _, _, _, h => by
    obtain ⟨c, hc, rfl⟩ := emits_defvar.mp h
    simpa [labels, labelsIn] using fresh_expr e hc
  | .defun _ _ es, _, _, _, _, h => by
    obtain ⟨cs, hcs, rfl⟩ := emits_defun.mp h
    simpa [labels, labelsIn, labels_header] using fresh_seq es hcs
  | .defun2 _ _ _ es, _, _, _, _, h => by
    obtain ⟨cs, hcs, rfl⟩ := emits_defun2.mp h
    simpa [labels, labelsIn] using fresh_seq es hcs
  | .assign _ e, _, _, _, _, h => by
    obtain ⟨c, hc, rfl⟩ := emits_assign.mp h
    simpa [labels, labelsIn] using fresh_expr e hc
  | .branch test thenExp elseExp, _, _, _, _, h => by
    obtain ⟨_, _, _, _, _, hTest, hThen, hElse, rfl⟩ := emits_branch.mp h
    have happ := (fresh_expr test hTest).append
      ((fresh_expr thenExp hThen).append (fresh_expr elseExp hElse))
    simpa [labels, labelsIn] using happ
  | .cond clauses, _, _, _, _, h => by
    obtain ⟨c', hc', rfl⟩ := emits_cond.mp h
    simpa [labels, labelsIn] using (fresh_clauses clauses hc').concat
  | .and [], _, _, _, _, h => by
    obtain ⟨rfl, rfl⟩ := emits_and_nil.mp h
    exact .nil _
  | .and (e :: es), _, _, _, _, h => by
    obtain ⟨cs, k, hcs, rfl, rfl⟩ := emits_and.mp h
    rw [labels_append, labels_removeLast rfl (ne_nil_of_compileSeq hcs)]
    exact (fresh_seq (e :: es) hcs).append (.single k)
  | .or [], _, _, _, _, h => by
    obtain ⟨rfl, rfl⟩ := emits_or_nil.mp h
    exact .nil _
  | .or (e :: es), _, _, _, _, h => by
    obtain ⟨cs, k, hcs, rfl, rfl⟩ := emits_or.mp h
    rw [labels_append, labels_removeLast rfl (ne_nil_of_compileSeq hcs)]
    exact (fresh_seq (e :: es) hcs).append (.single k)

theorem fresh_seq : (es : List Expr) → {istail : Bool} → {n m : ℕ} → {cs : List (List Code)} →
    compileSeq istail es n = some (cs, m) → Fresh n m (labels cs.flatten)
  | [], _, _, _, _, h => by
    obtain ⟨rfl, rfl⟩ := emits_seq_nil.mp h
    exact .nil _
  | e :: es, _, _, _, _, h => by
    obtain ⟨c, _, cs, hc, hcs, rfl⟩ := emits_seq_cons.mp h
    rw [List.flatten_cons, labels_append]
    exact (fresh_expr e hc).append (fresh_seq es hcs)

theorem fresh_clauses : (clauses : List (Expr × List Expr)) → {istail : Bool} → {l n m : ℕ} →
    {c : List Code} → compileClauses istail l clauses n = some (c, m) → Fresh n m (labels c)
  | [], _, _, _, _, _, h => by
    obtain ⟨rfl, rfl⟩ := emits_clauses_nil.mp h
    exact .nil _
  | (tst, seq) :: clauses, _, _, _, _, _, h => by
    obtain ⟨t, _, cs, _, rest, ht, hcs, hrest, rfl⟩ := emits_clauses_cons.mp h
    have happ := (fresh_expr tst ht).append
      ((fresh_seq seq hcs).append (fresh_clauses clauses hrest))
    simpa [labels, labelsIn] using happ

end

/-- **Compiled programs are linked.** -/
theorem linked_compile {exps : List Expr} (h : compile exps = some prog) :
    Linked prog (topEnvt prog) [] prog := by
  obtain ⟨⟨code, m⟩, hcode, rfl⟩ := Option.map_eq_some_iff.mp h
  exact linked_of_nodup code (fresh_expr _ hcode).nodup fun _ _ => rfl

end SchemeOs.Compiler
