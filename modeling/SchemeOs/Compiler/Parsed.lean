import Mathlib
import SchemeOs.Compiler.Definitions
import SchemeOs.Compiler.Parser

/-!
# Compiler/Parsed — what the parser builds

The programs that the parser builds are the grammatical ones whose parts have a spelling
(`parsed_iff`): each has tokens that parse back to it.  No other value reaches the compiler.
-/

namespace SchemeOs.Compiler

/-! ## Spellings

The tokens with data may be those with a property `Q` only. -/

/-- A name, and not `Nil`. -/
def Sym.Named (Q : Token → Prop) : Sym → Prop
  | .nil => False
  | .sym s => Q (.id s)

/-- The data that evaluate to themselves. -/
def Datum.Literal (Q : Token → Prop) : Datum → Prop
  | .boolean b => Q (.boolean b)
  | .number n => Q (.number n)
  | .character c => Q (.character c)
  | .string s => Q (.string s)
  | _ => False

mutual

/-- The data that `Datum` builds. -/
def Datum.Readable (Q : Token → Prop) : Datum → Prop
  | .void => False
  | .boolean b => Q (.boolean b)
  | .number n => Q (.number n)
  | .character c => Q (.character c)
  | .string s => Q (.string s)
  | .symbol s => s.Named Q
  | .list data => AllReadable Q data
  | .sExp data last => AllReadable Q data ∧ last.Readable Q
  | .abbrev _ _ => False
  | .vector _ => False

/-- `Datum_star`. -/
def AllReadable (Q : Token → Prop) : List Datum → Prop
  | [] => True
  | d :: data => d.Readable Q ∧ AllReadable Q data

end

mutual

/-- The parts of the expression are such as the parser builds. -/
def Spelled (Q : Token → Prop) : Expr → Prop
  | .variable s => s.Named Q
  | .quote d => d.Readable Q
  | .selfEval d => d.Literal Q
  | .procCall func args => Spelled Q func ∧ AllSpelled Q args
  | .sequence exps => AllSpelled Q exps
  | .lambda formals body => (∀ x ∈ formals.names, x.Named Q) ∧ AllSpelled Q body
  | .defvar name exp => name.Named Q ∧ Spelled Q exp
  | .defun name args body => name.Named Q ∧ (∀ x ∈ args, x.Named Q) ∧ AllSpelled Q body
  | .defun2 name args larg body =>
    name.Named Q ∧ args ≠ [] ∧ (∀ x ∈ args, x.Named Q) ∧ larg.Named Q ∧ AllSpelled Q body
  | .branch test thenExp elseExp => Spelled Q test ∧ Spelled Q thenExp ∧ Spelled Q elseExp
  | .assign var exp => var.Named Q ∧ Spelled Q exp
  | .cond clauses => clauses ≠ [] ∧ ClausesSpelled Q clauses
  | .case key clauses els => Spelled Q key ∧ CaseClausesSpelled Q clauses ∧ els = []
  | .and exps => AllSpelled Q exps
  | .or exps => AllSpelled Q exps
  | .let binds body => BindingsSpelled Q binds ∧ AllSpelled Q body

/-- `Spelled`, for every expression of a sequence. -/
def AllSpelled (Q : Token → Prop) : List Expr → Prop
  | [] => True
  | exp :: exps => Spelled Q exp ∧ AllSpelled Q exps

/-- `CondClause_plus`; the test of an `else` clause is `#t`. -/
def ClausesSpelled (Q : Token → Prop) : List (Expr × List Expr) → Prop
  | [] => True
  | (tst, seq) :: clauses => Spelled Q tst ∧ AllSpelled Q seq ∧ ClausesSpelled Q clauses

/-- `CaseClause_star`; the data of an `else` clause are `[Void]`. -/
def CaseClausesSpelled (Q : Token → Prop) : List (List Datum × List Expr) → Prop
  | [] => True
  | (data, seq) :: clauses =>
    (data = [.void] ∨ AllReadable Q data) ∧ seq ≠ [] ∧ AllSpelled Q seq ∧
      CaseClausesSpelled Q clauses

/-- `Bindings`. -/
def BindingsSpelled (Q : Token → Prop) : List (Sym × Expr) → Prop
  | [] => True
  | (x, exp) :: binds => x.Named Q ∧ Spelled Q exp ∧ BindingsSpelled Q binds

end

/-- A token without data, or the token `#t`, which an `else` clause of `cond` stands for. -/
def Token.Plain : Token → Prop
  | .id _ => False
  | .string _ => False
  | .boolean b => b = true
  | .character _ => False
  | .number _ => False
  | _ => True

namespace Parser

open Parsing

variable {Q : Token → Prop} {b : Bool} {ts : List Token} {es : List Expr} {v : AbsSyn}
  {ws : List AbsSyn}

/-! ## What each symbol stands for

One property for each symbol of the grammar, kept by every action. -/

/-- An expression, with definitions if `b`. -/
def IsExpr (Q : Token → Prop) (b : Bool) (v : AbsSyn) : Prop :=
  ∃ e, v = .expr e ∧ Grammatical b e ∧ Spelled Q e

/-- Expressions, with definitions if `b`. -/
def IsExprs (Q : Token → Prop) (b : Bool) (v : AbsSyn) : Prop :=
  ∃ es, v = .exprs es ∧ AllGrammatical b es ∧ AllSpelled Q es

/-- The values of the nonterminals. -/
def IsValue (Q : Token → Prop) : Nonterminal → AbsSyn → Prop
  | .start | .exprs | .body | .definitions => IsExprs Q true
  | .expr0s | .operands => IsExprs Q false
  | .elseClause => fun v =>
    ∃ es, v = .exprs es ∧ es ≠ [] ∧ AllGrammatical false es ∧ AllSpelled Q es
  | .expr | .definition => IsExpr Q true
  | .expr0 | .literal | .quotation | .procCall | .operator | .lambda | .ifExp | .assignment
  | .derivedExpr => IsExpr Q false
  | .datum => fun v => ∃ d, v = .datum d ∧ d.Readable Q
  | .datumStar | .datumPlus => fun v => ∃ ds, v = .data ds ∧ AllReadable Q ds
  | .formals => fun v => ∃ f, v = .formals f ∧ ∀ x ∈ f.names, x.Named Q
  | .varStar => fun v => ∃ xs, v = .syms xs ∧ ∀ x ∈ xs, x.Named Q
  | .varPlus => fun v => ∃ xs, v = .syms xs ∧ xs ≠ [] ∧ ∀ x ∈ xs, x.Named Q
  | .var => fun v => ∃ x, v = .sym x ∧ x.Named Q
  | .condClause => fun v => ∃ c, v = .condClause c ∧ ClausesGrammatical [c] ∧ ClausesSpelled Q [c]
  | .condClauseStar => fun v =>
    ∃ cs, v = .condClauses cs ∧ ClausesGrammatical cs ∧ ClausesSpelled Q cs
  | .condClausePlus => fun v =>
    ∃ cs, v = .condClauses cs ∧ cs ≠ [] ∧ ClausesGrammatical cs ∧ ClausesSpelled Q cs
  | .caseClause => fun v =>
    ∃ c, v = .caseClause c ∧ CaseClausesGrammatical [c] ∧ CaseClausesSpelled Q [c]
  | .caseClauseStar => fun v =>
    ∃ cs, v = .caseClauses cs ∧ CaseClausesGrammatical cs ∧ CaseClausesSpelled Q cs
  | .bind => fun v => ∃ x, v = .bind x ∧ BindingsGrammatical [x] ∧ BindingsSpelled Q [x]
  | .bindings => fun v => ∃ bs, v = .binds bs ∧ BindingsGrammatical bs ∧ BindingsSpelled Q bs

/-- The values of the symbols. -/
def IsValueOf (Q : Token → Prop) : Letter Terminal Nonterminal → AbsSyn → Prop
  | .terminal t, v => ∃ tk, v = .token tk ∧ kind tk = some t ∧ Q tk
  | .nonterminal n, v => IsValue Q n v

theorem isValueOf_nonterminal {n : Nonterminal} : IsValueOf Q (nt n) v ↔ IsValue Q n v := Iff.rfl

/-- A terminal whose tokens are those that `mk` makes, with data. -/
theorem isValueOf_terminal {α : Type} {t : Terminal} {mk : α → Token}
    (hkind : ∀ tk, kind tk = some t ↔ ∃ a, tk = mk a) :
    IsValueOf Q (tm t) v ↔ ∃ a, v = .token (mk a) ∧ Q (mk a) := by
  constructor
  · rintro ⟨tk, rfl, hk, hQ⟩
    obtain ⟨a, rfl⟩ := (hkind tk).mp hk
    exact ⟨a, rfl, hQ⟩
  · rintro ⟨a, rfl, hQ⟩
    exact ⟨_, rfl, (hkind _).mpr ⟨a, rfl⟩, hQ⟩

theorem isValueOf_bool :
    IsValueOf Q (tm .bool) v ↔ ∃ b, v = .token (.boolean b) ∧ Q (.boolean b) :=
  isValueOf_terminal fun tk => by cases tk <;> simp [kind]

theorem isValueOf_number :
    IsValueOf Q (tm .number) v ↔ ∃ n, v = .token (.number n) ∧ Q (.number n) :=
  isValueOf_terminal fun tk => by cases tk <;> simp [kind]

theorem isValueOf_char :
    IsValueOf Q (tm .char) v ↔ ∃ c, v = .token (.character c) ∧ Q (.character c) :=
  isValueOf_terminal fun tk => by cases tk <;> simp [kind]

theorem isValueOf_string :
    IsValueOf Q (tm .string) v ↔ ∃ s, v = .token (.string s) ∧ Q (.string s) :=
  isValueOf_terminal fun tk => by cases tk <;> simp [kind]

theorem isValueOf_id : IsValueOf Q (tm .id) v ↔ ∃ s, v = .token (.id s) ∧ Q (.id s) :=
  isValueOf_terminal fun tk => by cases tk <;> simp [kind]

/-- The action makes a value of `n` from these values and values of the other symbols. -/
def Makes (Q : Token → Prop) (vs : List AbsSyn) (Xs : List (Letter Terminal Nonterminal))
    (act : List AbsSyn → Option AbsSyn) (n : Nonterminal) : Prop :=
  ∀ ws, List.Forall₂ (IsValueOf Q) Xs ws → ∃ v, act (vs ++ ws) = some v ∧ IsValue Q n v

variable {Xs : List (Letter Terminal Nonterminal)} {act : List AbsSyn → Option AbsSyn}
  {n : Nonterminal} {vs : List AbsSyn}

theorem makes_nil : Makes Q vs [] act n ↔ ∃ v, act vs = some v ∧ IsValue Q n v := by
  simp only [Makes, List.forall₂_nil_left_iff, forall_eq, List.append_nil]

theorem makes_cons {X : Letter Terminal Nonterminal} :
    Makes Q vs (X :: Xs) act n ↔ ∀ v, IsValueOf Q X v → Makes Q (vs ++ [v]) Xs act n := by
  simp only [Makes, List.forall₂_cons_left_iff, List.append_assoc, List.singleton_append]
  constructor
  · exact fun h v hv ws hws => h (v :: ws) ⟨v, ws, hv, hws, rfl⟩
  · rintro h _ ⟨v, ws, hv, hws, rfl⟩
    exact h v hv ws hws

/-- The actions of all productions make values. -/
def AllMake (Q : Token → Prop) (ps : List (Production Terminal Nonterminal AbsSyn)) : Prop :=
  ∀ p ∈ ps, Makes Q [] p.rhs p.act p.lhs

theorem allMake_nil : AllMake Q [] ↔ True := iff_true_intro (List.forall_mem_nil _)

theorem allMake_cons {p : Production Terminal Nonterminal AbsSyn}
    {ps : List (Production Terminal Nonterminal AbsSyn)} :
    AllMake Q (p :: ps) ↔ Makes Q [] p.rhs p.act p.lhs ∧ AllMake Q ps :=
  List.forall_mem_cons

theorem AllMake.append {ps qs : List (Production Terminal Nonterminal AbsSyn)} (h : AllMake Q ps)
    (h' : AllMake Q qs) : AllMake Q (ps ++ qs) :=
  List.forall_mem_append.mpr ⟨h, h'⟩

theorem grammatical_of_false {e : Expr} (h : Grammatical false e) : Grammatical true e := by
  cases e with
  | defvar _ _ => exact ⟨rfl, h.2⟩
  | defun _ _ _ => exact ⟨rfl, h.2⟩
  | defun2 _ _ _ _ => exact ⟨rfl, h.2⟩
  | _ => exact h

theorem makes_exprProductions : AllMake Q exprProductions := by
  simp +contextual [-Bool.exists_bool, exprProductions, allMake_cons, allMake_nil, makes_cons,
    makes_nil, isValueOf_nonterminal, isValueOf_bool, isValueOf_number, isValueOf_char,
    isValueOf_string, IsValue, IsExpr, IsExprs, AllGrammatical, AllSpelled, Grammatical, Spelled,
    grammatical_of_false, Datum.Literal]

theorem makes_datumProductions : AllMake Q datumProductions := by
  simp +contextual [-Bool.exists_bool, datumProductions, allMake_cons, allMake_nil, makes_cons,
    makes_nil, isValueOf_nonterminal, isValueOf_bool, isValueOf_number, isValueOf_char,
    isValueOf_string, isValueOf_id, IsValue, IsExpr, Grammatical, Spelled, Datum.Readable,
    AllReadable, Sym.Named]

theorem makes_procProductions : AllMake Q procProductions := by
  simp -iota only [procProductions, allMake_cons, makes_cons, makes_nil, List.nil_append,
    List.cons_append]
  refine ⟨?_, ?_, ?_, ?_, ?_, ?_, ?_, ?_, ?_, ?_, ?_, ?_, ?_, ?_, ?_, ?_, ?_, ?_,
    List.forall_mem_nil _⟩
  · rintro _ - _ ⟨func, rfl, hg, hs⟩ _ ⟨args, rfl, hgs, hss⟩ _ -
    exact ⟨_, rfl, _, rfl, ⟨hg, hgs⟩, hs, hss⟩
  · rintro _ h
    exact ⟨_, rfl, h⟩
  · exact ⟨_, rfl, _, rfl, trivial, trivial⟩
  · rintro _ ⟨es, rfl, hgs, hss⟩ _ ⟨e, rfl, hg, hs⟩
    exact ⟨_, rfl, _, rfl, ⟨hg, hgs⟩, hs, hss⟩
  · rintro _ - _ - _ ⟨f, rfl, hf⟩ _ ⟨es, rfl, hgs, hss⟩ _ -
    exact ⟨_, rfl, _, rfl, hgs, hf, hss⟩
  · rintro _ ⟨x, rfl, hx⟩
    exact ⟨_, rfl, _, rfl, List.forall_mem_singleton.mpr hx⟩
  · rintro _ - _ ⟨xs, rfl, hxs⟩ _ -
    exact ⟨_, rfl, _, rfl, hxs⟩
  · rintro _ - _ ⟨xs, rfl, -, hxs⟩ _ - _ ⟨x, rfl, hx⟩ _ -
    exact ⟨_, rfl, _, rfl, List.forall_mem_append.mpr ⟨hxs, List.forall_mem_singleton.mpr hx⟩⟩
  · exact ⟨_, rfl, _, rfl, List.forall_mem_nil _⟩
  · rintro _ ⟨x, rfl, hx⟩ _ ⟨xs, rfl, hxs⟩
    exact ⟨_, rfl, _, rfl, List.forall_mem_cons.mpr ⟨hx, hxs⟩⟩
  · rintro _ ⟨x, rfl, hx⟩
    exact ⟨_, rfl, _, rfl, List.cons_ne_nil _ _, List.forall_mem_singleton.mpr hx⟩
  · rintro _ ⟨x, rfl, hx⟩ _ ⟨xs, rfl, -, hxs⟩
    exact ⟨_, rfl, _, rfl, List.cons_ne_nil _ _, List.forall_mem_cons.mpr ⟨hx, hxs⟩⟩
  · intro _ h
    obtain ⟨s, rfl, hs⟩ := isValueOf_id.mp h
    exact ⟨_, rfl, _, rfl, hs⟩
  · rintro _ h
    exact ⟨_, rfl, h⟩
  · rintro _ - _ - _ ⟨x, rfl, hx⟩ _ ⟨e, rfl, hg, hs⟩ _ -
    exact ⟨_, rfl, _, rfl, ⟨rfl, hg⟩, hx, hs⟩
  · rintro _ - _ - _ - _ ⟨x, rfl, hx⟩ _ ⟨xs, rfl, hxs⟩ _ - _ ⟨es, rfl, hgs, hss⟩ _ -
    exact ⟨_, rfl, _, rfl, ⟨rfl, hgs⟩, hx, hxs, hss⟩
  · rintro _ - _ - _ - _ ⟨x, rfl, hx⟩ _ ⟨xs, rfl, hne, hxs⟩ _ - _ ⟨y, rfl, hy⟩ _ - _
      ⟨es, rfl, hgs, hss⟩ _ -
    exact ⟨_, rfl, _, rfl, ⟨rfl, hgs⟩, hx, hne, hxs, hy, hss⟩
  · exact ⟨_, rfl, _, rfl, trivial, trivial⟩

theorem makes_derivedProductions : AllMake Q derivedProductions := by
  simp -iota only [derivedProductions, allMake_cons, makes_cons, makes_nil, List.nil_append,
    List.cons_append]
  refine ⟨?_, ?_, ?_, ?_, ?_, ?_, ?_, ?_, ?_, ?_, List.forall_mem_nil _⟩
  · rintro _ - _ - _ ⟨test, rfl, hg, hs⟩ _ ⟨e, rfl, hg', hs'⟩ _ ⟨e', rfl, hg'', hs''⟩ _ -
    exact ⟨_, rfl, _, rfl, ⟨hg, hg', hg''⟩, hs, hs', hs''⟩
  · rintro _ - _ - _ ⟨x, rfl, hx⟩ _ ⟨e, rfl, hg, hs⟩ _ -
    exact ⟨_, rfl, _, rfl, hg, hx, hs⟩
  · rintro _ - _ - _ ⟨cs, rfl, hne, hg, hs⟩ _ -
    exact ⟨_, rfl, _, rfl, hg, hne, hs⟩
  · rintro _ - _ - _ ⟨key, rfl, hg, hs⟩ _ ⟨cs, rfl, hgs, hss⟩ _ -
    exact ⟨_, rfl, _, rfl, ⟨hg, hgs, trivial⟩, hs, hss, rfl⟩
  · rintro _ - _ - _ ⟨es, rfl, hg, hs⟩ _ -
    exact ⟨_, rfl, _, rfl, hg, hs⟩
  · rintro _ - _ - _ ⟨es, rfl, hg, hs⟩ _ -
    exact ⟨_, rfl, _, rfl, hg, hs⟩
  · rintro _ - _ - _ - _ ⟨bs, rfl, hg, hs⟩ _ - _ ⟨es, rfl, hgs, hss⟩ _ -
    exact ⟨_, rfl, _, rfl, ⟨hg, hgs⟩, hs, hss⟩
  · rintro _ - _ ⟨test, rfl, hg, hs⟩ _ ⟨e, rfl, hg', hs'⟩ _ ⟨es, rfl, hgs, hss⟩ _ -
    exact ⟨_, rfl, _, rfl, ⟨hg, ⟨hg', hgs⟩, trivial⟩, hs, ⟨hs', hss⟩, trivial⟩
  · rintro _ - _ ⟨test, rfl, hg, hs⟩ _ -
    exact ⟨_, rfl, _, rfl, ⟨hg, trivial, trivial⟩, hs, trivial, trivial⟩
  · rintro _ - _ ⟨test, rfl, hg, hs⟩ _ - _ ⟨e, rfl, hg', hs'⟩ _ -
    exact ⟨_, rfl, _, rfl, ⟨hg, ⟨hg', trivial⟩, trivial⟩, hs, ⟨hs', trivial⟩, trivial⟩

theorem makes_clauseProductions (hQ : Q (.boolean true)) : AllMake Q clauseProductions := by
  simp -iota only [clauseProductions, allMake_cons, makes_cons, makes_nil, List.nil_append,
    List.cons_append]
  refine ⟨?_, ?_, ?_, ?_, ?_, ?_, ?_, ?_, ?_, ?_, ?_, ?_, List.forall_mem_nil _⟩
  · rintro _ ⟨es, rfl, -, hgs, hss⟩
    exact ⟨_, rfl, _, rfl, ⟨trivial, hgs, trivial⟩, hQ, hss, trivial⟩
  · rintro _ - _ - _ ⟨e, rfl, hg, hs⟩ _ ⟨es, rfl, hgs, hss⟩ _ -
    exact ⟨_, rfl, _, rfl, List.cons_ne_nil _ _, ⟨hg, hgs⟩, hs, hss⟩
  · exact ⟨_, rfl, _, rfl, trivial, trivial⟩
  · rintro _ ⟨c, rfl, hg, hs⟩ _ ⟨cs, rfl, hgs, hss⟩
    exact ⟨_, rfl, _, rfl, ⟨hg.1, hg.2.1, hgs⟩, hs.1, hs.2.1, hss⟩
  · rintro _ ⟨c, rfl, hg, hs⟩ _ ⟨cs, rfl, hgs, hss⟩
    exact ⟨_, rfl, _, rfl, List.cons_ne_nil _ _, ⟨hg.1, hg.2.1, hgs⟩, hs.1, hs.2.1, hss⟩
  · rintro _ - _ - _ ⟨ds, rfl, hds⟩ _ - _ ⟨e, rfl, hg, hs⟩ _ ⟨es, rfl, hgs, hss⟩ _ -
    exact ⟨_, rfl, _, rfl, ⟨⟨hg, hgs⟩, trivial⟩, .inr hds, List.cons_ne_nil _ _, ⟨hs, hss⟩, trivial⟩
  · rintro _ ⟨es, rfl, hne, hgs, hss⟩
    exact ⟨_, rfl, _, rfl, ⟨hgs, trivial⟩, .inl rfl, hne, hss, trivial⟩
  · exact ⟨_, rfl, _, rfl, trivial, trivial⟩
  · rintro _ ⟨c, rfl, hg, hs⟩ _ ⟨cs, rfl, hgs, hss⟩
    exact ⟨_, rfl, _, rfl, ⟨hg.1, hgs⟩, hs.1, hs.2.1, hs.2.2.1, hss⟩
  · rintro _ - _ ⟨x, rfl, hx⟩ _ ⟨e, rfl, hg, hs⟩ _ -
    exact ⟨_, rfl, _, rfl, ⟨hg, trivial⟩, hx, hs, trivial⟩
  · exact ⟨_, rfl, _, rfl, trivial, trivial⟩
  · rintro _ ⟨c, rfl, hg, hs⟩ _ ⟨cs, rfl, hgs, hss⟩
    exact ⟨_, rfl, _, rfl, ⟨hg.1, hgs⟩, hs.1, hs.2.1, hss⟩

theorem makes_productions (hQ : Q (.boolean true)) : AllMake Q productions :=
  (((makes_exprProductions.append makes_datumProductions).append makes_procProductions).append
    makes_derivedProductions).append (makes_clauseProductions hQ)

/-- What symbols derive are values of them. -/
theorem forall₂_of_derives (hQ : Q (.boolean true)) (hts : ∀ tk ∈ ts, Q tk)
    (h : grammar.Derives Xs ts ws) : List.Forall₂ (IsValueOf Q) Xs ws := by
  have hleaf : ∀ t tk, kind tk = some t → Q tk → IsValueOf Q (.terminal t) (.token tk) :=
    fun t tk hk htk => ⟨tk, rfl, hk, htk⟩
  refine h.forall₂ hts hleaf fun p hp ws v hws hv => ?_
  obtain ⟨w, hw, hvalue⟩ := makes_productions hQ p hp ws hws
  obtain rfl : w = v := Option.some.inj (hw.symm.trans hv)
  exact hvalue

theorem isValue_of_derives (hQ : Q (.boolean true)) (hts : ∀ tk ∈ ts, Q tk)
    (h : grammar.Derives [nt n] ts [v]) : IsValue Q n v :=
  (List.forall₂_cons.mp (forall₂_of_derives hQ hts h)).1

/-! ## Tokens -/

/-- The tokens of a name. -/
def symTokens : Sym → List Token
  | .nil => []
  | .sym s => [.id s]

/-- The tokens of names. -/
def symsTokens (xs : List Sym) : List Token := xs.flatMap symTokens

/-- The tokens of formals. -/
def formalsTokens : Formals → List Token
  | .args xs => .leftpar :: (symsTokens xs ++ [.rightpar])
  | .args2 [] x => symTokens x
  | .args2 (x :: xs) y =>
    .leftpar :: (symsTokens (x :: xs) ++ .point :: (symTokens y ++ [.rightpar]))

mutual

/-- The tokens of a datum. -/
def datumTokens : Datum → List Token
  | .void => []
  | .boolean b => [.boolean b]
  | .number n => [.number n]
  | .character c => [.character c]
  | .string s => [.string s]
  | .symbol s => symTokens s
  | .list data => .leftpar :: (dataTokens data ++ [.rightpar])
  | .sExp data last => .leftpar :: (dataTokens data ++ .point :: (datumTokens last ++ [.rightpar]))
  | .abbrev _ _ => []
  | .vector _ => []

/-- The tokens of data. -/
def dataTokens : List Datum → List Token
  | [] => []
  | d :: data => datumTokens d ++ dataTokens data

end

/-- The tokens in front of the expressions of a clause of `case`. -/
def selectorTokens : List Datum → List Token
  | [.void] => [.else]
  | data => .leftpar :: (dataTokens data ++ [.rightpar])

mutual

/-- The tokens of an expression. -/
def exprTokens : Expr → List Token
  | .variable s => symTokens s
  | .quote d => .quote :: datumTokens d
  | .selfEval d => datumTokens d
  | .procCall func args => .leftpar :: (exprTokens func ++ (operandsTokens args ++ [.rightpar]))
  | .sequence _ => []
  | .lambda f body =>
    .leftpar :: .expLambda :: (formalsTokens f ++ (exprsTokens body ++ [.rightpar]))
  | .defvar x e => .leftpar :: .define :: (symTokens x ++ (exprTokens e ++ [.rightpar]))
  | .defun x xs body =>
    .leftpar :: .define :: .leftpar :: (symTokens x ++ (symsTokens xs ++ .rightpar ::
      (exprsTokens body ++ [.rightpar])))
  | .defun2 x xs y body =>
    .leftpar :: .define :: .leftpar :: (symTokens x ++ (symsTokens xs ++ .point :: (symTokens y ++
      .rightpar :: (exprsTokens body ++ [.rightpar]))))
  | .branch test thenExp elseExp =>
    .leftpar :: .expIf :: (exprTokens test ++ (exprTokens thenExp ++ (exprTokens elseExp ++
      [.rightpar])))
  | .assign x e => .leftpar :: .expSet :: (symTokens x ++ (exprTokens e ++ [.rightpar]))
  | .cond clauses => .leftpar :: .expCond :: (clausesTokens clauses ++ [.rightpar])
  | .case key clauses _ =>
    .leftpar :: .expCase :: (exprTokens key ++ (caseClausesTokens clauses ++ [.rightpar]))
  | .and es => .leftpar :: .expAnd :: (exprsTokens es ++ [.rightpar])
  | .or es => .leftpar :: .expOr :: (exprsTokens es ++ [.rightpar])
  | .let binds body =>
    .leftpar :: .let :: .leftpar :: (bindsTokens binds ++ .rightpar :: (exprsTokens body ++
      [.rightpar]))

/-- The tokens of expressions. -/
def exprsTokens : List Expr → List Token
  | [] => []
  | e :: es => exprTokens e ++ exprsTokens es

/-- The tokens of operands, of which the last one is first in the list. -/
def operandsTokens : List Expr → List Token
  | [] => []
  | e :: es => operandsTokens es ++ exprTokens e

/-- The tokens of the clauses of `cond`. -/
def clausesTokens : List (Expr × List Expr) → List Token
  | [] => []
  | (test, es) :: clauses =>
    .leftpar :: (exprTokens test ++ (exprsTokens es ++ .rightpar :: clausesTokens clauses))

/-- The tokens of the clauses of `case`. -/
def caseClausesTokens : List (List Datum × List Expr) → List Token
  | [] => []
  | (data, es) :: clauses =>
    .leftpar :: (selectorTokens data ++ (exprsTokens es ++ .rightpar :: caseClausesTokens clauses))

/-- The tokens of bindings. -/
def bindsTokens : List (Sym × Expr) → List Token
  | [] => []
  | (x, e) :: binds => .leftpar :: (symTokens x ++ (exprTokens e ++ .rightpar :: bindsTokens binds))

end

/-! ## Which tokens -/

section Tokens

/-- All tokens have the property. -/
def Within (Q : Token → Prop) (ts : List Token) : Prop := ∀ tk ∈ ts, Q tk

theorem within_nil : Within Q [] := List.forall_mem_nil _

theorem within_singleton {tk : Token} : Within Q [tk] ↔ Q tk := List.forall_mem_singleton

theorem within_cons {tk : Token} : Within Q (tk :: ts) ↔ Q tk ∧ Within Q ts := List.forall_mem_cons

theorem within_append {us : List Token} : Within Q (ts ++ us) ↔ Within Q ts ∧ Within Q us :=
  List.forall_mem_append

theorem within_symTokens {x : Sym} (hx : x.Named Q) : Within Q (symTokens x) := by
  cases x with
  | nil => exact hx.elim
  | sym s => exact within_singleton.mpr hx

theorem within_symsTokens {xs : List Sym} (hxs : ∀ x ∈ xs, x.Named Q) :
    Within Q (symsTokens xs) := by
  intro tk htk
  obtain ⟨x, hx, htk⟩ := List.mem_flatMap.mp htk
  exact within_symTokens (hxs x hx) tk htk

theorem within_literalTokens {d : Datum} (h : d.Literal Q) : Within Q (datumTokens d) := by
  cases d with
  | boolean b => exact within_singleton.mpr h
  | number n => exact within_singleton.mpr h
  | character c => exact within_singleton.mpr h
  | string s => exact within_singleton.mpr h
  | _ => exact h.elim

theorem within_formalsTokens (hQ : ∀ tk : Token, tk.Plain → Q tk)
    {f : Formals} (hf : ∀ x ∈ f.names, x.Named Q) :
    Within Q (formalsTokens f) := by
  cases f with
  | args xs =>
    simp only [formalsTokens, within_cons, within_append]
    exact ⟨hQ _ trivial, within_symsTokens hf, hQ _ trivial, within_nil⟩
  | args2 xs y =>
    obtain ⟨hxs, hy⟩ := List.forall_mem_append.mp hf
    rw [List.forall_mem_singleton] at hy
    cases xs with
    | nil => exact within_symTokens hy
    | cons x xs =>
      simp only [formalsTokens, within_cons, within_append]
      exact ⟨hQ _ trivial, within_symsTokens hxs, hQ _ trivial, within_symTokens hy, hQ _ trivial,
        within_nil⟩

mutual

theorem within_datumTokens (hQ : ∀ tk : Token, tk.Plain → Q tk) :
    (d : Datum) → d.Readable Q → Within Q (datumTokens d)
  | .void, h => h.elim
  | .boolean _, h => within_singleton.mpr h
  | .number _, h => within_singleton.mpr h
  | .character _, h => within_singleton.mpr h
  | .string _, h => within_singleton.mpr h
  | .symbol _, h => within_symTokens h
  | .list data, h => by
    simp only [datumTokens, within_cons, within_append]
    exact ⟨hQ _ trivial, within_dataTokens hQ data h, hQ _ trivial, within_nil⟩
  | .sExp data last, h => by
    simp only [datumTokens, within_cons, within_append]
    exact ⟨hQ _ trivial, within_dataTokens hQ data h.1, hQ _ trivial,
      within_datumTokens hQ last h.2, hQ _ trivial, within_nil⟩
  | .abbrev _ _, h => h.elim
  | .vector _, h => h.elim

theorem within_dataTokens (hQ : ∀ tk : Token, tk.Plain → Q tk) :
    (data : List Datum) → AllReadable Q data → Within Q (dataTokens data)
  | [], _ => within_nil
  | d :: data, h =>
    within_append.mpr ⟨within_datumTokens hQ d h.1, within_dataTokens hQ data h.2⟩

end

theorem within_selectorTokens (hQ : ∀ tk : Token, tk.Plain → Q tk)
    {data : List Datum} (h : data = [.void] ∨ AllReadable Q data) :
    Within Q (selectorTokens data) := by
  rw [selectorTokens.eq_def]
  split
  · exact within_singleton.mpr (hQ _ trivial)
  · next hne =>
    simp only [within_cons, within_append]
    exact ⟨hQ _ trivial, within_dataTokens hQ data (h.resolve_left hne), hQ _ trivial,
      within_nil⟩

mutual

theorem within_exprTokens (hQ : ∀ tk : Token, tk.Plain → Q tk) :
    (e : Expr) → Spelled Q e → Within Q (exprTokens e)
  | .variable _, h => within_symTokens h
  | .quote d, h => within_cons.mpr ⟨hQ _ trivial, within_datumTokens hQ d h⟩
  | .selfEval _, h => within_literalTokens h
  | .procCall func args, h => by
    simp only [exprTokens, within_cons, within_append]
    exact ⟨hQ _ trivial, within_exprTokens hQ func h.1, within_operandsTokens hQ args h.2,
      hQ _ trivial, within_nil⟩
  | .sequence _, _ => within_nil
  | .lambda f body, h => by
    simp only [exprTokens, within_cons, within_append]
    exact ⟨hQ _ trivial, hQ _ trivial, within_formalsTokens hQ h.1, within_exprsTokens hQ body h.2,
      hQ _ trivial, within_nil⟩
  | .defvar x e, h => by
    simp only [exprTokens, within_cons, within_append]
    exact ⟨hQ _ trivial, hQ _ trivial, within_symTokens h.1, within_exprTokens hQ e h.2,
      hQ _ trivial, within_nil⟩
  | .defun x xs body, h => by
    simp only [exprTokens, within_cons, within_append]
    exact ⟨hQ _ trivial, hQ _ trivial, hQ _ trivial, within_symTokens h.1, within_symsTokens h.2.1,
      hQ _ trivial, within_exprsTokens hQ body h.2.2, hQ _ trivial, within_nil⟩
  | .defun2 x xs y body, h => by
    simp only [exprTokens, within_cons, within_append]
    exact ⟨hQ _ trivial, hQ _ trivial, hQ _ trivial, within_symTokens h.1,
      within_symsTokens h.2.2.1,
      hQ _ trivial, within_symTokens h.2.2.2.1, hQ _ trivial, within_exprsTokens hQ body h.2.2.2.2,
      hQ _ trivial, within_nil⟩
  | .branch test thenExp elseExp, h => by
    simp only [exprTokens, within_cons, within_append]
    exact ⟨hQ _ trivial, hQ _ trivial, within_exprTokens hQ test h.1,
      within_exprTokens hQ thenExp h.2.1, within_exprTokens hQ elseExp h.2.2, hQ _ trivial,
      within_nil⟩
  | .assign x e, h => by
    simp only [exprTokens, within_cons, within_append]
    exact ⟨hQ _ trivial, hQ _ trivial, within_symTokens h.1, within_exprTokens hQ e h.2,
      hQ _ trivial, within_nil⟩
  | .cond clauses, h => by
    simp only [exprTokens, within_cons, within_append]
    exact ⟨hQ _ trivial, hQ _ trivial, within_clausesTokens hQ clauses h.2, hQ _ trivial,
      within_nil⟩
  | .case key clauses _, h => by
    simp only [exprTokens, within_cons, within_append]
    exact ⟨hQ _ trivial, hQ _ trivial, within_exprTokens hQ key h.1,
      within_caseClausesTokens hQ clauses h.2.1, hQ _ trivial, within_nil⟩
  | .and es, h => by
    simp only [exprTokens, within_cons, within_append]
    exact ⟨hQ _ trivial, hQ _ trivial, within_exprsTokens hQ es h, hQ _ trivial, within_nil⟩
  | .or es, h => by
    simp only [exprTokens, within_cons, within_append]
    exact ⟨hQ _ trivial, hQ _ trivial, within_exprsTokens hQ es h, hQ _ trivial, within_nil⟩
  | .let binds body, h => by
    simp only [exprTokens, within_cons, within_append]
    exact ⟨hQ _ trivial, hQ _ trivial, hQ _ trivial, within_bindsTokens hQ binds h.1, hQ _ trivial,
      within_exprsTokens hQ body h.2, hQ _ trivial, within_nil⟩

theorem within_exprsTokens (hQ : ∀ tk : Token, tk.Plain → Q tk) :
    (es : List Expr) → AllSpelled Q es → Within Q (exprsTokens es)
  | [], _ => within_nil
  | e :: es, h => within_append.mpr ⟨within_exprTokens hQ e h.1, within_exprsTokens hQ es h.2⟩

theorem within_operandsTokens (hQ : ∀ tk : Token, tk.Plain → Q tk) :
    (es : List Expr) → AllSpelled Q es →
    Within Q (operandsTokens es)
  | [], _ => within_nil
  | e :: es, h => within_append.mpr ⟨within_operandsTokens hQ es h.2, within_exprTokens hQ e h.1⟩

theorem within_clausesTokens (hQ : ∀ tk : Token, tk.Plain → Q tk) :
    (cs : List (Expr × List Expr)) → ClausesSpelled Q cs →
    Within Q (clausesTokens cs)
  | [], _ => within_nil
  | (test, es) :: cs, h => by
    simp only [clausesTokens, within_cons, within_append]
    exact ⟨hQ _ trivial, within_exprTokens hQ test h.1, within_exprsTokens hQ es h.2.1,
      hQ _ trivial, within_clausesTokens hQ cs h.2.2⟩

theorem within_caseClausesTokens (hQ : ∀ tk : Token, tk.Plain → Q tk) :
    (cs : List (List Datum × List Expr)) → CaseClausesSpelled Q cs →
    Within Q (caseClausesTokens cs)
  | [], _ => within_nil
  | (data, es) :: cs, h => by
    simp only [caseClausesTokens, within_cons, within_append]
    exact ⟨hQ _ trivial, within_selectorTokens hQ h.1, within_exprsTokens hQ es h.2.2.1,
      hQ _ trivial, within_caseClausesTokens hQ cs h.2.2.2⟩

theorem within_bindsTokens (hQ : ∀ tk : Token, tk.Plain → Q tk) :
    (bs : List (Sym × Expr)) → BindingsSpelled Q bs →
    Within Q (bindsTokens bs)
  | [], _ => within_nil
  | (x, e) :: bs, h => by
    simp only [bindsTokens, within_cons, within_append]
    exact ⟨hQ _ trivial, within_symTokens h.1, within_exprTokens hQ e h.2.1, hQ _ trivial,
      within_bindsTokens hQ bs h.2.2⟩

end

end Tokens

/-! ## They derive what they are the tokens of

By induction on the program, one production for each constructor. -/

theorem derives_tm (tk : Token) {t : Terminal} (hk : kind tk = some t) :
    grammar.Derives [tm t] [tk] [.token tk] :=
  .terminal hk .nil

theorem derives_leftpar : grammar.Derives [tm .leftpar] [.leftpar] [.token .leftpar] :=
  derives_tm .leftpar rfl

theorem derives_rightpar : grammar.Derives [tm .rightpar] [.rightpar] [.token .rightpar] :=
  derives_tm .rightpar rfl

/-- A derivation by the production `k`. -/
theorem derives_nt (k : ℕ) {p : Production Terminal Nonterminal AbsSyn}
    (hp : productions[k]? = some p) (h : grammar.Derives p.rhs ts ws) (hact : p.act ws = some v) :
    grammar.Derives [nt p.lhs] ts [v] :=
  .single hp h hact

theorem derives_var {x : Sym} (hx : x.Named Q) :
    grammar.Derives [nt .var] (symTokens x) [.sym x] := by
  cases x with
  | nil => exact hx.elim
  | sym s => exact derives_nt 44 rfl (derives_tm (.id s) rfl) rfl

theorem derives_varStar {xs : List Sym} (hxs : ∀ x ∈ xs, x.Named Q) :
    grammar.Derives [nt .varStar] (symsTokens xs) [.syms xs] := by
  induction xs with
  | nil => exact derives_nt 40 rfl .nil rfl
  | cons x xs ih =>
    rw [List.forall_mem_cons] at hxs
    exact derives_nt 41 rfl ((derives_var hxs.1).cons (ih hxs.2)) rfl

theorem derives_varPlus {x : Sym} {xs : List Sym} (hxs : ∀ y ∈ x :: xs, y.Named Q) :
    grammar.Derives [nt .varPlus] (symsTokens (x :: xs)) [.syms (x :: xs)] := by
  induction xs generalizing x with
  | nil =>
    have hx := derives_nt 42 rfl (derives_var (hxs x List.mem_cons_self)) rfl
    rwa [← List.append_nil (symTokens x)] at hx
  | cons y xs ih =>
    rw [List.forall_mem_cons] at hxs
    exact derives_nt 43 rfl ((derives_var hxs.1).cons (ih hxs.2)) rfl

theorem derives_formals {f : Formals} (hf : ∀ x ∈ f.names, x.Named Q) :
    grammar.Derives [nt .formals] (formalsTokens f) [.formals f] := by
  cases f with
  | args xs =>
    exact derives_nt 38 rfl (derives_leftpar.cons ((derives_varStar hf).cons derives_rightpar)) rfl
  | args2 xs y =>
    obtain ⟨hxs, hy⟩ := List.forall_mem_append.mp hf
    have hvar := derives_var (List.forall_mem_singleton.mp hy)
    cases xs with
    | nil => exact derives_nt 37 rfl hvar rfl
    | cons x xs =>
      exact derives_nt 39 rfl (derives_leftpar.cons ((derives_varPlus hxs).cons
        ((derives_tm .point rfl).cons (hvar.cons derives_rightpar)))) rfl

mutual

theorem derives_datum : (d : Datum) → d.Readable Q →
    grammar.Derives [nt .datum] (datumTokens d) [.datum d]
  | .void, h => h.elim
  | .boolean b, _ => derives_nt 21 rfl (derives_tm (.boolean b) rfl) rfl
  | .number n, _ => derives_nt 22 rfl (derives_tm (.number n) rfl) rfl
  | .character c, _ => derives_nt 23 rfl (derives_tm (.character c) rfl) rfl
  | .string s, _ => derives_nt 24 rfl (derives_tm (.string s) rfl) rfl
  | .symbol .nil, h => h.elim
  | .symbol (.sym s), _ => derives_nt 25 rfl (derives_tm (.id s) rfl) rfl
  | .list data, h =>
    derives_nt 26 rfl (derives_leftpar.cons ((derives_data data h).cons derives_rightpar)) rfl
  | .sExp data last, h =>
    derives_nt 27 rfl (derives_leftpar.cons ((derives_data data h.1).cons
      ((derives_tm .point rfl).cons ((derives_datum last h.2).cons derives_rightpar)))) rfl
  | .abbrev _ _, h => h.elim
  | .vector _, h => h.elim

theorem derives_data : (data : List Datum) → AllReadable Q data →
    grammar.Derives [nt .datumStar] (dataTokens data) [.data data]
  | [], _ => derives_nt 28 rfl .nil rfl
  | d :: data, h => derives_nt 29 rfl ((derives_datum d h.1).cons (derives_data data h.2)) rfl

end

theorem derives_literal {d : Datum} (hd : d.Literal Q) :
    grammar.Derives [nt .literal] (datumTokens d) [.expr (.selfEval d)] := by
  cases d with
  | boolean b => exact derives_nt 15 rfl (derives_tm (.boolean b) rfl) rfl
  | number n => exact derives_nt 16 rfl (derives_tm (.number n) rfl) rfl
  | character c => exact derives_nt 17 rfl (derives_tm (.character c) rfl) rfl
  | string s => exact derives_nt 18 rfl (derives_tm (.string s) rfl) rfl
  | _ => exact hd.elim

/-- `Expr`, or `Expr0` if no definition is allowed. -/
def exprNt : Bool → Nonterminal
  | true => .expr
  | false => .expr0

/-- `Exprs`, or `Expr0s` if no definition is allowed. -/
def exprsNt : Bool → Nonterminal
  | true => .exprs
  | false => .expr0s

theorem derives_of_expr0 (h : grammar.Derives [nt .expr0] ts [v]) :
    grammar.Derives [nt (exprNt b)] ts [v] := by
  cases b with
  | false => exact h
  | true => exact derives_nt 3 rfl h rfl

/-- An `Expr0` by the production `k`. -/
theorem derives_expr0 (k : ℕ) {rhs : List (Letter Terminal Nonterminal)}
    {act : List AbsSyn → Option AbsSyn} (hp : productions[k]? = some ⟨.expr0, rhs, act⟩)
    (h : grammar.Derives rhs ts ws) (hact : act ws = some v) :
    grammar.Derives [nt (exprNt b)] ts [v] :=
  derives_of_expr0 (derives_nt k hp h hact)

theorem derives_exprs_nil : grammar.Derives [nt (exprsNt b)] [] [.exprs []] := by
  cases b with
  | false => exact derives_nt 12 rfl .nil rfl
  | true => exact derives_nt 1 rfl .nil rfl

theorem derives_exprs_cons {e : Expr} {us : List Token}
    (h : grammar.Derives [nt (exprNt b)] ts [.expr e])
    (hs : grammar.Derives [nt (exprsNt b)] us [.exprs es]) :
    grammar.Derives [nt (exprsNt b)] (ts ++ us) [.exprs (e :: es)] := by
  cases b with
  | false => exact derives_nt 13 rfl (h.cons hs) rfl
  | true => exact derives_nt 2 rfl (h.cons hs) rfl

theorem derives_body (h : grammar.Derives [nt (exprsNt true)] ts [.exprs es]) :
    grammar.Derives [nt .body] ts [.exprs es] :=
  derives_nt 45 rfl h rfl

theorem derives_condClause_nil {test : Expr} (h : grammar.Derives [nt .expr0] ts [.expr test]) :
    grammar.Derives [nt .condClause] (.leftpar :: (ts ++ [.rightpar])) [.condClause (test, [])] :=
  derives_nt 58 rfl (derives_leftpar.cons (h.cons derives_rightpar)) rfl

theorem derives_condClause_cons {test e : Expr} {us vs : List Token}
    (h : grammar.Derives [nt .expr0] ts [.expr test])
    (he : grammar.Derives [nt .expr0] us [.expr e])
    (hes : grammar.Derives [nt .expr0s] vs [.exprs es]) :
    grammar.Derives [nt .condClause] (.leftpar :: (ts ++ (us ++ (vs ++ [.rightpar]))))
      [.condClause (test, e :: es)] :=
  derives_nt 57 rfl (derives_leftpar.cons (h.cons (he.cons (hes.cons derives_rightpar)))) rfl

/-- A first clause, for `CondClause_star` and `CondClause_plus`. -/
theorem derives_clauses_cons {c : Expr × List Expr} {cs : List (Expr × List Expr)} {us : List Token}
    (h : grammar.Derives [nt .condClause] ts [.condClause c])
    (hs : grammar.Derives [nt .condClauseStar] us [.condClauses cs]) :
    grammar.Derives [nt .condClauseStar] (ts ++ us) [.condClauses (c :: cs)] ∧
      grammar.Derives [nt .condClausePlus] (ts ++ us) [.condClauses (c :: cs)] :=
  ⟨derives_nt 63 rfl (h.cons hs) rfl, derives_nt 64 rfl (h.cons hs) rfl⟩

theorem derives_caseClause {data : List Datum} {e : Expr} {us : List Token}
    (hdata : data = [.void] ∨ AllReadable Q data) (he : grammar.Derives [nt .expr0] ts [.expr e])
    (hes : grammar.Derives [nt .expr0s] us [.exprs es]) :
    grammar.Derives [nt .caseClause]
      (.leftpar :: (selectorTokens data ++ (ts ++ (us ++ [.rightpar]))))
      [.caseClause (data, e :: es)] := by
  rcases hdata with rfl | hdata
  · have helse := derives_nt 61 rfl (derives_leftpar.cons ((derives_tm .else rfl).cons
      (he.cons (hes.cons derives_rightpar)))) rfl
    exact derives_nt 66 rfl helse rfl
  · have hselector : selectorTokens data = .leftpar :: (dataTokens data ++ [.rightpar]) := by
      rw [selectorTokens]
      rintro rfl
      exact hdata.1
    rw [hselector, List.cons_append, List.append_assoc]
    exact derives_nt 65 rfl (derives_leftpar.cons (derives_leftpar.cons
      ((derives_data data hdata).cons (derives_rightpar.cons
        (he.cons (hes.cons derives_rightpar)))))) rfl

mutual

theorem derives_expr : (e : Expr) → {b : Bool} → Grammatical b e → Spelled Q e →
    grammar.Derives [nt (exprNt b)] (exprTokens e) [.expr e]
  | .variable _, _, _, hs => derives_expr0 5 rfl (derives_var hs) rfl
  | .quote d, _, _, hs =>
    derives_expr0 6 rfl (derives_nt 14 rfl (derives_nt 19 rfl
      ((derives_tm .quote rfl).cons (derives_datum d hs)) rfl) rfl) rfl
  | .selfEval _, _, _, hs => derives_expr0 6 rfl (derives_literal hs) rfl
  | .procCall func args, _, hg, hs => by
    have hfunc := derives_nt 33 rfl (derives_expr func hg.1 hs.1) rfl
    exact derives_expr0 7 rfl (derives_nt 32 rfl (derives_leftpar.cons (hfunc.cons
      ((derives_operands args hg.2 hs.2).cons derives_rightpar))) rfl) rfl
  | .sequence _, _, hg, _ => hg.elim
  | .lambda f body, _, hg, hs =>
    derives_expr0 8 rfl (derives_nt 36 rfl (derives_leftpar.cons ((derives_tm .expLambda rfl).cons
      ((derives_formals hs.1).cons ((derives_body (derives_exprs body hg hs.2)).cons
        derives_rightpar)))) rfl) rfl
  | .defvar _ _, false, hg, _ => absurd hg.1 Bool.false_ne_true
  | .defvar x e, true, hg, hs =>
    derives_nt 4 rfl (derives_nt 46 rfl (derives_leftpar.cons ((derives_tm .define rfl).cons
      ((derives_var hs.1).cons ((derives_expr e hg.2 hs.2).cons derives_rightpar)))) rfl) rfl
  | .defun _ _ _, false, hg, _ => absurd hg.1 Bool.false_ne_true
  | .defun x xs body, true, hg, hs =>
    derives_nt 4 rfl (derives_nt 47 rfl (derives_leftpar.cons ((derives_tm .define rfl).cons
      (derives_leftpar.cons ((derives_var hs.1).cons ((derives_varStar hs.2.1).cons
        (derives_rightpar.cons ((derives_body (derives_exprs body hg.2 hs.2.2)).cons
          derives_rightpar))))))) rfl) rfl
  | .defun2 _ _ _ _, false, hg, _ => absurd hg.1 Bool.false_ne_true
  | .defun2 _ [] _ _, _, _, hs => absurd rfl hs.2.1
  | .defun2 x (y :: xs) z body, true, hg, hs =>
    derives_nt 4 rfl (derives_nt 48 rfl (derives_leftpar.cons ((derives_tm .define rfl).cons
      (derives_leftpar.cons ((derives_var hs.1).cons ((derives_varPlus hs.2.2.1).cons
        ((derives_tm .point rfl).cons ((derives_var hs.2.2.2.1).cons (derives_rightpar.cons
          ((derives_body (derives_exprs body hg.2 hs.2.2.2.2)).cons derives_rightpar))))))))) rfl)
      rfl
  | .branch test thenExp elseExp, _, hg, hs => by
    have htest := derives_expr test hg.1 hs.1
    have hthen := derives_expr thenExp hg.2.1 hs.2.1
    have helse := derives_expr elseExp hg.2.2 hs.2.2
    exact derives_expr0 9 rfl (derives_nt 50 rfl (derives_leftpar.cons ((derives_tm .expIf rfl).cons
      (htest.cons (hthen.cons (helse.cons derives_rightpar))))) rfl) rfl
  | .assign x e, _, hg, hs =>
    derives_expr0 10 rfl (derives_nt 51 rfl (derives_leftpar.cons ((derives_tm .expSet rfl).cons
      ((derives_var hs.1).cons ((derives_expr e hg hs.2).cons derives_rightpar)))) rfl) rfl
  | .cond clauses, _, hg, hs => by
    have hclauses := (derives_clauses clauses hg hs.2).2 hs.1
    exact derives_expr0 11 rfl (derives_nt 52 rfl (derives_leftpar.cons
      ((derives_tm .expCond rfl).cons (hclauses.cons derives_rightpar))) rfl) rfl
  | .case key clauses [], _, hg, hs => by
    have hclauses := derives_caseClauses clauses hg.2.1 hs.2.1
    exact derives_expr0 11 rfl (derives_nt 53 rfl (derives_leftpar.cons
      ((derives_tm .expCase rfl).cons ((derives_expr key hg.1 hs.1).cons
        (hclauses.cons derives_rightpar)))) rfl) rfl
  | .case _ _ (_ :: _), _, _, hs => absurd hs.2.2 (List.cons_ne_nil _ _)
  | .and es, _, hg, hs =>
    derives_expr0 11 rfl (derives_nt 54 rfl (derives_leftpar.cons ((derives_tm .expAnd rfl).cons
      ((derives_exprs es hg hs).cons derives_rightpar))) rfl) rfl
  | .or es, _, hg, hs =>
    derives_expr0 11 rfl (derives_nt 55 rfl (derives_leftpar.cons ((derives_tm .expOr rfl).cons
      ((derives_exprs es hg hs).cons derives_rightpar))) rfl) rfl
  | .let binds body, _, hg, hs => by
    have hbody := derives_body (derives_exprs body hg.2 hs.2)
    exact derives_expr0 11 rfl (derives_nt 56 rfl (derives_leftpar.cons ((derives_tm .let rfl).cons
      (derives_leftpar.cons ((derives_binds binds hg.1 hs.1).cons (derives_rightpar.cons
        (hbody.cons derives_rightpar)))))) rfl) rfl

theorem derives_exprs : (es : List Expr) → {b : Bool} → AllGrammatical b es → AllSpelled Q es →
    grammar.Derives [nt (exprsNt b)] (exprsTokens es) [.exprs es]
  | [], _, _, _ => derives_exprs_nil
  | e :: es, _, hg, hs => derives_exprs_cons (derives_expr e hg.1 hs.1) (derives_exprs es hg.2 hs.2)

theorem derives_operands : (es : List Expr) → AllGrammatical false es → AllSpelled Q es →
    grammar.Derives [nt .operands] (operandsTokens es) [.exprs es]
  | [], _, _ => derives_nt 34 rfl .nil rfl
  | e :: es, hg, hs =>
    derives_nt 35 rfl ((derives_operands es hg.2 hs.2).cons (derives_expr e hg.1 hs.1)) rfl

theorem derives_clauses : (cs : List (Expr × List Expr)) → ClausesGrammatical cs →
    ClausesSpelled Q cs →
      grammar.Derives [nt .condClauseStar] (clausesTokens cs) [.condClauses cs] ∧
      (cs ≠ [] → grammar.Derives [nt .condClausePlus] (clausesTokens cs) [.condClauses cs])
  | [], _, _ => ⟨derives_nt 62 rfl .nil rfl, fun h => absurd rfl h⟩
  | (test, []) :: cs, hg, hs => by
    have hclause := derives_condClause_nil (derives_expr test hg.1 hs.1)
    have hcons := derives_clauses_cons hclause (derives_clauses cs hg.2.2 hs.2.2).1
    rw [List.cons_append, List.append_assoc] at hcons
    exact ⟨hcons.1, fun _ => hcons.2⟩
  | (test, e :: es) :: cs, hg, hs => by
    have hclause := derives_condClause_cons (derives_expr test hg.1 hs.1)
      (derives_expr e hg.2.1.1 hs.2.1.1) (derives_exprs es hg.2.1.2 hs.2.1.2)
    have hcons := derives_clauses_cons hclause (derives_clauses cs hg.2.2 hs.2.2).1
    simp only [List.cons_append, List.append_assoc, List.nil_append] at hcons
    rw [clausesTokens, exprsTokens, List.append_assoc]
    exact ⟨hcons.1, fun _ => hcons.2⟩

theorem derives_caseClauses : (cs : List (List Datum × List Expr)) → CaseClausesGrammatical cs →
    CaseClausesSpelled Q cs →
      grammar.Derives [nt .caseClauseStar] (caseClausesTokens cs) [.caseClauses cs]
  | [], _, _ => derives_nt 67 rfl .nil rfl
  | (_, []) :: _, _, hs => absurd rfl hs.2.1
  | (data, e :: es) :: cs, hg, hs => by
    have hclause := derives_caseClause hs.1 (derives_expr e hg.1.1 hs.2.2.1.1)
      (derives_exprs es hg.1.2 hs.2.2.1.2)
    have hcons := derives_nt 68 rfl (hclause.cons (derives_caseClauses cs hg.2 hs.2.2.2)) rfl
    simp only [List.cons_append, List.append_assoc, List.nil_append] at hcons
    rw [caseClausesTokens, exprsTokens, List.append_assoc]
    exact hcons

theorem derives_binds : (bs : List (Sym × Expr)) → BindingsGrammatical bs → BindingsSpelled Q bs →
    grammar.Derives [nt .bindings] (bindsTokens bs) [.binds bs]
  | [], _, _ => derives_nt 70 rfl .nil rfl
  | (x, e) :: bs, hg, hs => by
    have hbind := derives_nt 69 rfl (derives_leftpar.cons ((derives_var hs.1).cons
      ((derives_expr e hg.1 hs.2.1).cons derives_rightpar))) rfl
    have hcons := derives_nt 71 rfl (hbind.cons (derives_binds bs hg.2 hs.2.2)) rfl
    simp only [List.cons_append, List.append_assoc, List.nil_append] at hcons
    exact hcons

end

/-! ## Parsed programs -/

/-- **Every program has a text**: the parser gives a grammatical program back from its tokens. -/
theorem scmParser_exprsTokens {es : List Expr} (hg : AllGrammatical true es)
    (hs : AllSpelled Q es) :
    scmParser (exprsTokens es) = some es :=
  scmParser_of_derives (derives_exprs es hg hs)

theorem spelled_of_scmParser (hQ : Q (.boolean true)) (hts : ∀ tk ∈ ts, Q tk)
    (h : scmParser ts = some es) : AllGrammatical true es ∧ AllSpelled Q es := by
  obtain ⟨es', hes, hg, hs⟩ := isValue_of_derives hQ hts (derives_of_scmParser h)
  cases hes
  exact ⟨hg, hs⟩

/-- **What the parser builds** of tokens with the property `Q`: the grammatical programs whose parts
have a spelling in such tokens.  Each is what its own tokens are parsed to. -/
theorem parsed_iff (hQ : ∀ tk : Token, tk.Plain → Q tk) (es : List Expr) :
    ((∃ ts, (∀ tk ∈ ts, Q tk) ∧ scmParser ts = some es) ↔
      AllGrammatical true es ∧ AllSpelled Q es) ∧
    (AllGrammatical true es → AllSpelled Q es → scmParser (exprsTokens es) = some es) := by
  refine ⟨⟨?_, ?_⟩, scmParser_exprsTokens⟩
  · rintro ⟨ts, hts, h⟩
    exact spelled_of_scmParser (hQ _ rfl) hts h
  · rintro ⟨hg, hs⟩
    exact ⟨exprsTokens es, within_exprsTokens hQ es hs, scmParser_exprsTokens hg hs⟩

/-- `(define x '(1))`, of tokens whose only name is `x` and whose only number is 1. -/
theorem parsed_iff_definition :
    (∃ ts, (∀ tk ∈ ts, tk.Plain ∨ tk = .id ['x'] ∨ tk = .number 1) ∧
      scmParser ts = some [.defvar (.sym ['x']) (.quote (.list [.number 1]))]) ∧
    scmParser (exprsTokens [.defvar (.sym ['x']) (.quote (.list [.number 1]))]) =
      some [.defvar (.sym ['x']) (.quote (.list [.number 1]))] := by
  have hg : AllGrammatical true [.defvar (.sym ['x']) (.quote (.list [.number 1]))] :=
    ⟨⟨rfl, trivial⟩, trivial⟩
  have hs : AllSpelled (fun tk => tk.Plain ∨ tk = .id ['x'] ∨ tk = .number 1)
      [.defvar (.sym ['x']) (.quote (.list [.number 1]))] :=
    ⟨⟨.inr (.inl rfl), .inr (.inr rfl), trivial⟩, trivial⟩
  have h := parsed_iff (Q := fun tk => tk.Plain ∨ tk = .id ['x'] ∨ tk = .number 1)
    (fun _ hplain => .inl hplain) [.defvar (.sym ['x']) (.quote (.list [.number 1]))]
  exact ⟨h.1.mpr ⟨hg, hs⟩, h.2 hg hs⟩

/-! ## Where the parser stops -/

theorem isSome_act {p : Production Terminal Nonterminal AbsSyn} (hp : p ∈ productions)
    (h : grammar.Derives p.rhs ts ws) : (p.act ws).isSome := by
  obtain ⟨v, hv, -⟩ := makes_productions (Q := fun _ => True) trivial p hp ws
    (forall₂_of_derives trivial (fun _ _ => trivial) h)
  exact Option.isSome_iff_exists.mpr ⟨v, hv⟩

/-- **The parser stops**, with the expressions or at a token that it rejects: it always has a state
to go on with after a reduction, and no action fails. -/
theorem scmParser_stops (ts : List Token) :
    ∃ c, Relation.ReflTransGen (Table.Steps grammar table) (Table.init ts) c ∧
      ((∃ es, Table.step grammar table c = some (.inl (.exprs es)) ∧ scmParser ts = some es) ∨
        Table.Rejects grammar table c ∧ scmParser ts = none) := by
  obtain ⟨c, hrun, hstop⟩ := ranking.exists_stop (Table.init ts)
  refine ⟨c, hrun, ?_⟩
  cases hstep : Table.step grammar table c with
  | none =>
    refine .inr ⟨?_, ?_⟩
    · exact viable.rejects sound (fun p hp _ _ h => isSome_act hp h) hrun hstep
    · rw [scmParser, Table.parse_eq_none_of_steps hrun hstep]
  | some r =>
    cases r with
    | inl v =>
      have haccepts := Table.accepts_of_steps hrun hstep
      obtain ⟨es, rfl, -⟩ := isValue_of_derives (Q := fun _ => True) trivial
        (fun _ _ => trivial) (sound.derives haccepts)
      exact .inl ⟨es, rfl, scmParser_eq_some.mpr (parse_iff_accepts.mpr haccepts)⟩
    | inr d => exact absurd hstep (hstop d)

end Parser

end SchemeOs.Compiler
