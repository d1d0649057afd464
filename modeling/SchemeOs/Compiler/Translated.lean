import SchemeOs.Compiler.Accepted
import SchemeOs.Compiler.Scanner
import SchemeOs.Compiler.Supported

/-!
# Compiler/Translated — from a text to C

The passes of `tst_scm2c.hs`, one after another.  A program comes of a text when the parser builds
it from tokens that the lexer makes (`readProgram_iff`), and a text becomes C when its program is
accepted in the frame of what it defines (`translated_iff`): the compiler rejects nothing that the
converter would take.
-/

namespace SchemeOs.Compiler

open Scanner

variable {env : CompileTimeEnvt} {es : List Expr}

/-! ## Programs -/

/-- `scmParser . alexScanTokens`. -/
def readProgram (cs : List Char) : Option (List Expr) := (alexScanTokens cs).bind Parser.scmParser

/-- A text of a program. -/
def programText (es : List Expr) : List Char := text (Parser.exprsTokens es)

theorem lexable_of_plain {tk : Token} (h : tk.Plain) : Lexable tk := by
  cases tk with
  | id s => exact h.elim
  | string s => exact h.elim
  | number n => exact h.elim
  | _ => trivial

theorem readProgram_programText (hg : AllGrammatical true es) (hs : AllSpelled Lexable es) :
    readProgram (programText es) = some es := by
  have htokens := Parser.within_exprsTokens (fun _ => lexable_of_plain) es hs
  rw [readProgram, programText, alexScanTokens_text htokens, Option.bind_some,
    Parser.scmParser_exprsTokens hg hs]

/-- **The programs that texts stand for** are the grammatical ones whose identifiers are in lower
case and not `=>`, whose strings have no newline, and whose numbers are of 32 bits. -/
theorem readProgram_iff (es : List Expr) :
    (∃ cs, readProgram cs = some es) ↔ AllGrammatical true es ∧ AllSpelled Lexable es := by
  constructor
  · rintro ⟨cs, hcs⟩
    obtain ⟨ts, hts, hparse⟩ := Option.bind_eq_some_iff.mp hcs
    exact Parser.spelled_of_scmParser trivial (lexable_of_alexScanTokens hts) hparse
  · rintro ⟨hg, hs⟩
    exact ⟨programText es, readProgram_programText hg hs⟩

/-! ## Code -/

mutual

theorem supported_of_accepted : (e : Expr) → {env : CompileTimeEnvt} → Accepted env e → Supported e
  | .variable _, _, _ => trivial
  | .quote _, _, _ => trivial
  | .selfEval _, _, _ => trivial
  | .procCall func args, _, h => by
    rw [Accepted] at h
    refine ⟨allSupported_of_accepted args h.1, ?_⟩
    cases hs : builtinSym func with
    | some s => exact supported_of_builtinSym hs
    | none => exact supported_of_accepted func (h.2 (hs ▸ rfl))
  | .sequence es, _, h => allSupported_of_accepted es h
  | .defvar _ e, _, h => supported_of_accepted e h.2
  | .defun _ _ es, _, h => allSupported_of_accepted es h.2.2
  | .assign _ e, _, h => supported_of_accepted e h.2
  | .branch test thenExp elseExp, _, h =>
    ⟨supported_of_accepted test h.1, supported_of_accepted thenExp h.2.1,
      supported_of_accepted elseExp h.2.2⟩
  | .cond clauses, _, h => clausesSupported_of_accepted clauses h
  | .and es, _, h => allSupported_of_accepted es h
  | .or es, _, h => allSupported_of_accepted es h
  | .lambda _ _, _, h => h.elim
  | .defun2 _ _ _ _, _, h => h.elim
  | .case _ _ _, _, h => h.elim
  | .let _ _, _, h => h.elim

theorem allSupported_of_accepted : (es : List Expr) → {env : CompileTimeEnvt} →
    AllAccepted env es → AllSupported es
  | [], _, _ => trivial
  | e :: es, _, h => ⟨supported_of_accepted e h.1, allSupported_of_accepted es h.2⟩

theorem clausesSupported_of_accepted : (clauses : List (Expr × List Expr)) →
    {env : CompileTimeEnvt} → ClausesAccepted env clauses → ClausesSupported clauses
  | [], _, _ => trivial
  | (tst, seq) :: clauses, _, h =>
    ⟨supported_of_accepted tst h.1, allSupported_of_accepted seq h.2.1,
      clausesSupported_of_accepted clauses h.2.2⟩

end

/-! ## C

The scanner, the parser, the compiler and the converter, one after the other. -/

/-- `compile`, and then `convert`, take what is accepted. -/
theorem exists_statements_iff (es : List Expr) :
    (∃ fuel, ((compile es).bind (convert fuel)).isSome) ↔
      AllAccepted (.envtFrame .nullEnvt (spineSeq es)) es := by
  have hconvert : ∀ {cs : List (List Code)} {m : ℕ}, compileSeq true es 0 = some (cs, m) →
      ((∃ fuel, (convert fuel cs.flatten).isSome) ↔
        AllAccepted (.envtFrame .nullEnvt (spineSeq es)) es) := by
    intro cs m hcs
    rw [exists_convert_iff, topEnvt, allConvert_seq es hcs, scanForNewbind_seq es hcs]
  constructor
  · rintro ⟨fuel, h⟩
    obtain ⟨stmts, hstmts⟩ := Option.isSome_iff_exists.mp h
    obtain ⟨code, hcode, hc⟩ := Option.bind_eq_some_iff.mp hstmts
    obtain ⟨⟨code, m⟩, hrun, rfl⟩ := Option.map_eq_some_iff.mp hcode
    obtain ⟨cs, hcs, rfl⟩ := emits_sequence.mp hrun
    exact (hconvert hcs).mp ⟨fuel, Option.isSome_iff_exists.mpr ⟨stmts, hc⟩⟩
  · intro h
    obtain ⟨cs, m, hcs, hcode⟩ := exists_compile_of_supported (allSupported_of_accepted es h)
    obtain ⟨fuel, hfuel⟩ := (hconvert hcs).mpr h
    exact ⟨fuel, by rwa [hcode, Option.bind_some]⟩

/-- `convert "test" . compile . scmParser . alexScanTokens`: the statements of the run code. -/
def translate (fuel : ℕ) (cs : List Char) : Option (List Stmt) :=
  (readProgram cs).bind fun es => (compile es).bind (convert fuel)

/-- **Which texts become C**: those of a program that is accepted in the frame of what it defines;
and each program that is grammatical, spelled and accepted has such a text. -/
theorem translated_iff :
    (∀ cs, (∃ fuel, (translate fuel cs).isSome) ↔ ∃ es, readProgram cs = some es ∧
      AllAccepted (.envtFrame .nullEnvt (spineSeq es)) es) ∧
    ∀ es, (∃ cs fuel, readProgram cs = some es ∧ (translate fuel cs).isSome) ↔
      AllGrammatical true es ∧ AllSpelled Lexable es ∧
        AllAccepted (.envtFrame .nullEnvt (spineSeq es)) es := by
  have htranslate : ∀ {cs : List Char} {es : List Expr}, readProgram cs = some es → ∀ fuel,
      translate fuel cs = (compile es).bind (convert fuel) := by
    intro cs es hread fuel
    rw [translate, hread, Option.bind_some]
  refine ⟨fun cs => ?_, fun es => ?_⟩
  · constructor
    · rintro ⟨fuel, h⟩
      cases hread : readProgram cs with
      | none =>
        rw [translate, hread] at h
        cases h
      | some es => exact ⟨es, rfl, (exists_statements_iff es).mp ⟨fuel, htranslate hread fuel ▸ h⟩⟩
    · rintro ⟨es, hread, haccepted⟩
      obtain ⟨fuel, hfuel⟩ := (exists_statements_iff es).mpr haccepted
      exact ⟨fuel, by rwa [htranslate hread]⟩
  · constructor
    · rintro ⟨cs, fuel, hread, h⟩
      obtain ⟨ts, hts, hparse⟩ := Option.bind_eq_some_iff.mp hread
      obtain ⟨hg, hs⟩ :=
        Parser.spelled_of_scmParser trivial (lexable_of_alexScanTokens hts) hparse
      exact ⟨hg, hs, (exists_statements_iff es).mp ⟨fuel, htranslate hread fuel ▸ h⟩⟩
    · rintro ⟨hg, hs, haccepted⟩
      obtain ⟨fuel, hfuel⟩ := (exists_statements_iff es).mpr haccepted
      have hread := readProgram_programText hg hs
      exact ⟨programText es, fuel, hread, by rwa [htranslate hread]⟩

end SchemeOs.Compiler
