import SchemeOs.Machinery.Coupled
import SchemeOs.Reader.Parser

/-!
# Reader/Depth — where the parser stops

The functions of the parser stop at the marker after the tokens, and step past it.  The one for the
outermost list is the last to look at a token, but one that is called for a list inside of another,
or for what a quote mark inside of a list is about, returns to a loop that goes on behind the
marker.  Where the tokens leave at most one list open, and no quote mark at their end in it, no
slot behind the marker is looked at.
-/

namespace SchemeOs

/-- How many lists the token opens. -/
def TokenType.weight : TokenType → ℤ
  | .leftPar | .leftSharpar => 1
  | .rightPar => -1
  | _ => 0

/-- How many lists the tokens leave open. -/
def balance (ts : List TokenType) : ℤ := (ts.map TokenType.weight).sum

theorem balance_cons (t : TokenType) (ts : List TokenType) :
    balance (t :: ts) = t.weight + balance ts := List.sum_cons

theorem balance_append (ts us : List TokenType) :
    balance (ts ++ us) = balance ts + balance us := by
  rw [balance, List.map_append, List.sum_append]
  rfl

/-- No list is left open inside of another, and no quote mark inside of one. -/
structure Contained (ts : List TokenType) : Prop where
  le : balance ts ≤ 1
  mark : ts.getLast? = some .quote → balance ts ≤ 0

/-- Both cursors are at a token, or at the marker, with no more than `d` lists open. -/
def Inside (ts : List TokenType) (d : ℤ) (k k' : ℕ) : Prop :=
  k' = k ∧ k ≤ ts.length ∧ d + balance (ts.drop k) ≤ balance ts

/-- The cursors when `d` lists are open.  Where none is, no token is looked at any more. -/
def Left (ts : List TokenType) (d : ℤ) (k k' : ℕ) : Prop := k' = k ∧ (d ≤ 0 ∨ Inside ts d k k')

/-- The cursors at a token of the type `t`. -/
def Seen (ts : List TokenType) (d : ℤ) (t : TokenType) (k k' : ℕ) : Prop :=
  Inside ts d k k' ∧ (ts[k]? = some t ∨ k = ts.length ∧ t = .tagEnd)

variable {ts : List TokenType} {b b' : Buffers} {d : ℤ} {t : TokenType} {k k' n : ℕ}

theorem Inside.left (h : Inside ts d k k') : Left ts d k k' := ⟨h.1, .inr h⟩

theorem Left.inside (h : Left ts d k k') (hd : 0 < d) : Inside ts d k k' :=
  h.2.resolve_left (not_le.mpr hd)

theorem Inside.mono {d' : ℤ} (h : Inside ts d k k') (hd : d' ≤ d) : Inside ts d' k k' :=
  ⟨h.1, h.2.1, (add_le_add_left hd _).trans h.2.2⟩

theorem Seen.next (h : Seen ts d t k k') (ht : t ≠ .tagEnd) :
    ts[k]? = some t ∧ Inside ts (d + t.weight) (k + 1) (k' + 1) := by
  obtain ⟨⟨rfl, -, hbal⟩, hk | ⟨-, rfl⟩⟩ := h
  · obtain ⟨hlt, hget⟩ := List.getElem?_eq_some_iff.mp hk
    rw [List.drop_eq_getElem_cons hlt, hget, balance_cons] at hbal
    exact ⟨hk, rfl, hlt, by linarith⟩
  · exact absurd rfl ht

end SchemeOs
