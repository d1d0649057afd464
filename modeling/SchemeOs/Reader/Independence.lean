import SchemeOs.Reader.History
import SchemeOs.Reader.Steady

/-!
# Reader/Independence — reads after other reads

What a read gives may depend on the reads before it, which have left their tokens and characters in
the arrays.  That of a steady text does not.
-/

namespace SchemeOs

variable {port : List Char} {b b' : Buffers} {d : Datum}

/-- The arrays after earlier reads. -/
inductive History : Buffers → Prop where
  | init : History .init
  | read {b b' : Buffers} {n : ℕ} {port port' : List Char} {d : Datum} : History b →
      schemeRead n b port = some (d, b', port') → History b'

/-- The arrays after a read that ends, else as they are. -/
def Buffers.after (b : Buffers) (n : ℕ) (port : List Char) : Buffers :=
  ((schemeRead n b port).map fun r => r.2.1).getD b

theorem History.after (hb : History b) (n : ℕ) (port : List Char) : History (b.after n port) := by
  unfold Buffers.after
  match h : schemeRead n b port with
  | none => exact hb
  | some (d, b', port') => exact .read hb h

end SchemeOs
