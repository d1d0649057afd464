import Mathlib.Data.List.Basic
import Mathlib.Data.Nat.Notation

/-!
# Machinery/Lexing — the longest word that a rule accepts

A lexer with rules: it takes the longest word at the beginning of the text that some rule accepts,
and the action of the first such rule.  `Scans` says so as a relation (`scan_iff`), by which a text
of words with a separator behind each is scanned word by word.
-/

namespace SchemeOs.Lexing

variable {α τ : Type*}

/-- Which words a rule accepts, and what they become: nothing or a token; an action may fail. -/
structure LexRule (α τ : Type*) where
  accepts : List α → Bool
  action : List α → Option (Option τ)

variable {rules : List (LexRule α τ)} {r : LexRule α τ} {w u cs : List α} {ts : List τ} {n k : ℕ}
  {t : τ} {o : Option τ} {c : α}

/-- The first rule that accepts the word. -/
def firstRule (rules : List (LexRule α τ)) (w : List α) : Option (LexRule α τ) :=
  rules.find? fun r => r.accepts w

theorem firstRule_eq_none_iff : firstRule rules w = none ↔ ∀ r ∈ rules, r.accepts w = false := by
  rw [firstRule, List.find?_eq_none]
  exact forall₂_congr fun r _ => iff_of_eq (Bool.not_eq_true _)

theorem mem_of_firstRule (h : firstRule rules w = some r) : r ∈ rules :=
  List.mem_of_find?_eq_some h

theorem accepts_of_firstRule (h : firstRule rules w = some r) : r.accepts w = true :=
  List.find?_some (p := fun r : LexRule α τ => r.accepts w) h

theorem firstRule_append {rules' : List (LexRule α τ)} (h : firstRule rules w = none) :
    firstRule (rules ++ rules') w = firstRule rules' w := by
  rw [firstRule, List.find?_append]
  change (firstRule rules w).or _ = _
  rw [h, Option.none_or]
  rfl

theorem firstRule_append_of_some {rules' : List (LexRule α τ)} (h : firstRule rules w = some r) :
    firstRule (rules ++ rules') w = some r := by
  rw [firstRule, List.find?_append]
  change (firstRule rules w).or _ = _
  rw [h, Option.some_or]

theorem firstRule_cons_of_accepts (h : r.accepts w = true) : firstRule (r :: rules) w = some r :=
  List.find?_cons_of_pos h

theorem firstRule_cons_of_not (h : r.accepts w = false) :
    firstRule (r :: rules) w = firstRule rules w :=
  List.find?_cons_of_neg (Bool.eq_false_iff.mp h)

/-- The length of the longest word, of at most `n`, that a rule accepts. -/
def longestUpTo (rules : List (LexRule α τ)) (cs : List α) : ℕ → Option ℕ
  | 0 => none
  | n + 1 =>
    if (firstRule rules (cs.take (n + 1))).isSome then some (n + 1) else longestUpTo rules cs n

/-- The tokens of the text, in at most `n` words. -/
def scanUpTo (rules : List (LexRule α τ)) : ℕ → List α → Option (List τ)
  | _, [] => some []
  | 0, _ :: _ => none
  | n + 1, c :: cs =>
    (longestUpTo rules (c :: cs) (cs.length + 1)).bind fun k =>
      (firstRule rules ((c :: cs).take k)).bind fun r =>
        (r.action ((c :: cs).take k)).bind fun o =>
          (scanUpTo rules n ((c :: cs).drop k)).map fun ts => o.toList ++ ts

/-- The tokens of the text. -/
def scan (rules : List (LexRule α τ)) (cs : List α) : Option (List τ) :=
  scanUpTo rules cs.length cs

/-! ## As a relation

Longest match with the first of the rules that accept it, and the scan as a sequence of these. -/

/-- The rule takes the word, and none takes more of the text. -/
structure Munches (rules : List (LexRule α τ)) (r : LexRule α τ) (w cs : List α) : Prop where
  ne_nil : w ≠ []
  first : firstRule rules w = some r
  longest : ∀ u, u ≠ [] → u <+: cs → firstRule rules (w ++ u) = none

/-- The tokens of the text. -/
inductive Scans (rules : List (LexRule α τ)) : List α → List τ → Prop where
  | nil : Scans rules [] []
  | cons {r : LexRule α τ} {w cs : List α} {o : Option τ} {ts : List τ} : Munches rules r w cs →
      r.action w = some o → Scans rules cs ts → Scans rules (w ++ cs) (o.toList ++ ts)

theorem longestUpTo_eq_some : longestUpTo rules cs n = some k ↔
    0 < k ∧ k ≤ n ∧ (firstRule rules (cs.take k)).isSome ∧
      ∀ m, k < m → m ≤ n → firstRule rules (cs.take m) = none := by
  induction n with
  | zero =>
    refine ⟨fun h => absurd h (by simp [longestUpTo]), fun h => ?_⟩
    omega
  | succ n ih =>
    rw [longestUpTo]
    split
    · next hsome =>
      constructor
      · intro h
        cases h
        exact ⟨Nat.succ_pos n, Nat.le_refl _, hsome, fun m hm hn => by omega⟩
      · rintro ⟨-, hle, -, hnone⟩
        by_contra hne
        have hlt : k < n + 1 := by
          have : n + 1 ≠ k := fun h => hne (congrArg some h)
          omega
        rw [hnone (n + 1) hlt (Nat.le_refl _)] at hsome
        cases hsome
    · next hnone =>
      rw [ih]
      constructor
      · rintro ⟨hpos, hle, hsome, hall⟩
        refine ⟨hpos, by omega, hsome, fun m hm hn => ?_⟩
        by_cases hmn : m = n + 1
        · subst hmn
          exact Option.not_isSome_iff_eq_none.mp hnone
        · exact hall m hm (by omega)
      · rintro ⟨hpos, hle, hsome, hall⟩
        have hne : k ≠ n + 1 := by
          rintro rfl
          exact hnone hsome
        exact ⟨hpos, by omega, hsome, fun m hm hn => hall m hm (by omega)⟩

theorem Munches.longestUpTo (h : Munches rules r w cs) :
    longestUpTo rules (w ++ cs) (w ++ cs).length = some w.length := by
  rw [longestUpTo_eq_some]
  refine ⟨List.length_pos_iff.mpr h.ne_nil, by simp, ?_, fun m hm hn => ?_⟩
  · rw [List.take_left, h.first, Option.isSome_some]
  · obtain ⟨i, rfl⟩ := Nat.exists_eq_add_of_le (Nat.le_of_lt hm)
    rw [List.take_length_add_append]
    refine h.longest _ (fun hnil => ?_) (List.take_prefix i cs)
    have hlength := congrArg List.length hnil
    rw [List.length_take, List.length_nil] at hlength
    rw [List.length_append] at hn
    omega

theorem munches_of_longestUpTo (h : Lexing.longestUpTo rules cs cs.length = some k)
    (hr : firstRule rules (cs.take k) = some r) : Munches rules r (cs.take k) (cs.drop k) := by
  obtain ⟨hpos, hle, -, hall⟩ := longestUpTo_eq_some.mp h
  refine ⟨fun hnil => ?_, hr, fun u hu hprefix => ?_⟩
  · have hlength := congrArg List.length hnil
    rw [List.length_take, List.length_nil] at hlength
    omega
  · have htake : cs.take (k + u.length) = cs.take k ++ u := by
      rw [List.take_add, List.prefix_iff_eq_take.mp hprefix, List.length_take]
      congr 2
      have hlength := hprefix.length_le
      omega
    rw [← htake]
    have hlength := hprefix.length_le
    have hupos := List.length_pos_iff.mpr hu
    rw [List.length_drop] at hlength
    exact hall _ (by omega) (by omega)

theorem scans_of_scanUpTo (h : scanUpTo rules n cs = some ts) : Scans rules cs ts := by
  induction n generalizing cs ts with
  | zero =>
    cases cs with
    | nil =>
      cases h
      exact .nil
    | cons c cs => cases h
  | succ n ih =>
    cases cs with
    | nil =>
      cases h
      exact .nil
    | cons c cs =>
      obtain ⟨k, hk, h⟩ := Option.bind_eq_some_iff.mp h
      obtain ⟨r, hr, h⟩ := Option.bind_eq_some_iff.mp h
      obtain ⟨o, ho, h⟩ := Option.bind_eq_some_iff.mp h
      obtain ⟨us, hus, rfl⟩ := Option.map_eq_some_iff.mp h
      have hscans := Scans.cons (munches_of_longestUpTo hk hr) ho (ih hus)
      rwa [List.take_append_drop] at hscans

theorem Scans.scanUpTo (h : Scans rules cs ts) (hn : cs.length ≤ n) :
    scanUpTo rules n cs = some ts := by
  induction h generalizing n with
  | nil => cases n <;> rfl
  | @cons r w cs o ts hmunches hact _ ih =>
    have hpos := List.length_pos_iff.mpr hmunches.ne_nil
    rw [List.length_append] at hn
    obtain ⟨n, rfl⟩ : ∃ m, n = m + 1 := ⟨n - 1, by omega⟩
    have hlongest := hmunches.longestUpTo
    have htake : (w ++ cs).take w.length = w := List.take_left
    have hdrop : (w ++ cs).drop w.length = cs := List.drop_left
    generalize htext : w ++ cs = text at hlongest htake hdrop
    cases text with
    | nil => exact absurd (List.append_eq_nil_iff.mp htext).1 hmunches.ne_nil
    | cons c text =>
      rw [List.length_cons] at hlongest
      rw [Lexing.scanUpTo, hlongest, Option.bind_some, htake, hmunches.first, Option.bind_some,
        hact, Option.bind_some, hdrop, ih (by omega), Option.map_some]

theorem scan_iff : scan rules cs = some ts ↔ Scans rules cs ts :=
  ⟨scans_of_scanUpTo, fun h => h.scanUpTo (Nat.le_refl _)⟩

/-- What the actions make of the words they get holds of all tokens. -/
theorem Scans.forall {P : τ → Prop} (h : Scans rules cs ts)
    (hP : ∀ r w t, firstRule rules w = some r → r.action w = some (some t) → P t) :
    ∀ t ∈ ts, P t := by
  induction h with
  | nil => exact List.forall_mem_nil _
  | @cons r w cs o ts hmunches hact _ ih =>
    rw [List.forall_mem_append]
    refine ⟨fun t ht => ?_, ih⟩
    rw [Option.mem_toList] at ht
    exact hP r w t hmunches.first (ht ▸ hact)

/-! ## Separated words -/

/-- A separator behind a word ends it, if no rule accepts them both. -/
theorem Munches.of_separated (hw : w ≠ []) (hfirst : firstRule rules w = some r)
    (hsep : ∀ u, firstRule rules (w ++ c :: u) = none) : Munches rules r w (c :: cs) where
  ne_nil := hw
  first := hfirst
  longest := by
    intro u hu hprefix
    obtain ⟨d, u, rfl⟩ := List.exists_cons_of_ne_nil hu
    obtain ⟨rfl, -⟩ := List.cons_prefix_cons.mp hprefix
    exact hsep u

/-- A word is skipped. -/
theorem Scans.skip (hw : Munches rules r w cs) (hact : r.action w = some none)
    (h : Scans rules cs ts) : Scans rules (w ++ cs) ts :=
  .cons hw hact h

/-- A word is a token. -/
theorem Scans.token (hw : Munches rules r w cs) (hact : r.action w = some (some t))
    (h : Scans rules cs ts) : Scans rules (w ++ cs) (t :: ts) :=
  .cons hw hact h

end SchemeOs.Lexing
