import SchemeOs.Strings.Moves

/-!
# Console/Print — `console_print` and the cursor

The console keeps its cursor in 8-bit coordinates; `console_print` has the address of the cursor's
cell beside them and moves the two separately, for a character, a newline, a carriage return and a
scroll.  They stay together, and the characters go where a terminal of the same size puts them.
-/

namespace SchemeOs.Console

open Strings

/-! ## The console -/

/-- `struct console` -/
structure Attr where
  curX : ℕ
  curY : ℕ
  curP : ℕ
  cols : ℕ
  lines : ℕ
  pgVbuff : Addr

/-- `_g_con_attr`, and the memory. -/
structure Video where
  attr : Attr
  mem : Bytes

/-- The bytes of `n` units of video memory. -/
def units (n : ℕ) : Addr := BitVec.ofNat 32 (2 * n)

/-- The address of a cell. -/
def Attr.cell (a : Attr) (row col : ℕ) : Addr := a.pgVbuff + units (row * a.cols + col)

/-- `scroll_down` -/
def scrollDown (lines : ℕ) (v : Video) : Video where
  mem := memmove v.mem v.attr.pgVbuff (v.attr.pgVbuff + units (v.attr.cols * lines)) 0x1000
  attr := { v.attr with
    curY := (v.attr.curY + 2 ^ 8 - lines) % 2 ^ 8
    curP := (v.attr.curP + 2 ^ 16 - lines * v.attr.cols % 2 ^ 16) % 2 ^ 16 }

/-- `*vp = vc`, with the attribute `0x0f`. -/
def writeUnit (mem : Bytes) (vp : Addr) (ascii : Byte) : Bytes :=
  Function.update (Function.update mem vp ascii) (vp + 1) 0x0f

/-- The variables of `console_print`. -/
structure Loop extends Video where
  vp : Addr
  ct : ℕ

/-- The switch of `console_print`. -/
def Loop.switch (s : Loop) (ascii : Byte) : Loop :=
  if ascii = 0x0a then
    { s with
      attr := { s.attr with curY := (s.attr.curY + 1) % 2 ^ 8, curX := 0 }
      vp := s.vp + units s.attr.cols - units s.attr.curX }
  else if ascii = 0x0d then
    { s with attr := { s.attr with curX := 0 }, vp := s.vp - units s.attr.curX }
  else
    let curX := (s.attr.curX + 1) % 2 ^ 8
    { s with
      attr := if s.attr.cols ≤ curX then
          { s.attr with curX := 0, curY := (s.attr.curY + 1) % 2 ^ 8 }
        else { s.attr with curX := curX }
      mem := writeUnit s.mem s.vp ascii
      vp := s.vp + units 1 }

/-- What follows the switch. -/
def Loop.scroll (s : Loop) : Loop :=
  if s.attr.lines ≤ s.attr.curY then
    { toVideo := scrollDown 1 s.toVideo, vp := s.vp - units s.attr.cols, ct := s.ct + 1 }
  else { s with ct := s.ct + 1 }

/-- The loop of `console_print`, over a string that is read up to its NUL. -/
def Loop.print (s : Loop) : List Byte → Loop
  | [] => s
  | c :: buf => if c = 0 then s else ((s.switch c).scroll).print buf

/-- `console_print` up to its loop. -/
def Video.enter (v : Video) : Loop := ⟨v, v.attr.cell v.attr.curY v.attr.curX, 0⟩

/-- `console_print`: the value that it returns, and the console afterwards. -/
def consolePrint (v : Video) (buf : List Byte) : ℕ × Video :=
  let s := v.enter.print buf
  (s.ct, { s.toVideo with attr := { s.attr with
    curP := (s.attr.curY * s.attr.cols + s.attr.curX) % 2 ^ 16 } })

/-- Calls one after the other. -/
def Video.calls (v : Video) (bufs : List (List Byte)) : Video :=
  bufs.foldl (fun v buf => (consolePrint v buf).2) v

/-! ## The terminal

What the console is for: a screen of cells with a cursor, which scrolls by a line. -/

/-- The cursor of a terminal. -/
structure Terminal where
  row : ℕ
  col : ℕ
  deriving DecidableEq, Repr

/-- A terminal scrolls when the cursor has left its last line. -/
def Terminal.scroll (lines : ℕ) (t : Terminal) : Terminal :=
  if t.row = lines then { t with row := t.row - 1 } else t

/-- Where the cursor goes: to the next line, to the start of the line, or one cell on, which can be
the first one of the next line. -/
def Terminal.next (cols lines : ℕ) (t : Terminal) (c : Byte) : Terminal :=
  if c = 0x0a then Terminal.scroll lines ⟨t.row + 1, 0⟩
  else if c = 0x0d then ⟨t.row, 0⟩
  else if t.col + 1 = cols then Terminal.scroll lines ⟨t.row + 1, 0⟩
  else ⟨t.row, t.col + 1⟩

/-- The cursor after the characters `w`. -/
def Terminal.after (cols lines : ℕ) (t : Terminal) (w : List Byte) : Terminal :=
  w.foldl (Terminal.next cols lines) t

/-- A character that takes a cell. -/
def Printable (c : Byte) : Prop := c ≠ 0x0a ∧ c ≠ 0x0d

/-- The cell at `p` has got the character `c`, in white on black, and no other byte has
changed. -/
structure Stored (before after : Bytes) (p : Addr) (c : Byte) : Prop where
  ascii : after p = c
  attr : after (p + 1) = 0x0f
  other : ∀ x, x ≠ p → x ≠ p + 1 → after x = before x

/-- A screen of at most 255 columns and 25 lines, with the cursor inside of it. -/
structure Attr.Sound (a : Attr) : Prop where
  cols_pos : 1 ≤ a.cols
  cols_le : a.cols ≤ 255
  lines_eq : a.lines = 25
  curX_lt : a.curX < a.cols
  curY_lt : a.curY < a.lines

/-- The cursor of the console. -/
def Attr.cursor (a : Attr) : Terminal := ⟨a.curY, a.curX⟩

/-- The same screen, with another cursor. -/
structure Attr.Same (a b : Attr) : Prop where
  cols_eq : b.cols = a.cols
  lines_eq : b.lines = a.lines
  page_eq : b.pgVbuff = a.pgVbuff

/-- Between two characters, on the screen `a`: the cursor is the terminal's, inside the screen, and
the pointer is at its cell. -/
structure Loop.Follows (s : Loop) (a : Attr) (t : Terminal) : Prop where
  same : a.Same s.attr
  sound : s.attr.Sound
  cursor_eq : s.attr.cursor = t
  vp_eq : s.vp = a.cell s.attr.curY s.attr.curX

/-! ## One character -/

variable {a : Attr} {s : Loop} {t : Terminal} {v : Video} {c : Byte} {u w : List Byte}
  {bufs : List (List Byte)} {m n : ℕ}

theorem units_add (m n : ℕ) : units (m + n) = units m + units n := by
  rw [units, units, units, Nat.mul_add, BitVec.ofNat_add]

theorem cell_add (a : Attr) (row col n : ℕ) : a.cell row col + units n = a.cell row (col + n) := by
  rw [Attr.cell, Attr.cell, BitVec.add_assoc, ← units_add, Nat.add_assoc]

/-- Where the terminal's cursor is before it scrolls. -/
def Terminal.move (cols : ℕ) (t : Terminal) (c : Byte) : Terminal :=
  if c = 0x0a then ⟨t.row + 1, 0⟩
  else if c = 0x0d then ⟨t.row, 0⟩
  else if t.col + 1 = cols then ⟨t.row + 1, 0⟩
  else ⟨t.row, t.col + 1⟩

/-- What `console_print` does in the string `u ++ w` behind `u`, when a terminal has its cursor at
`t`: it follows the terminal, the next character is stored in the terminal's cell if it takes one,
and the call returns the length of the string. -/
structure Prints (v : Video) (u w : List Byte) (t : Terminal) : Prop where
  follows : (v.enter.print u).Follows v.attr t
  stores : ∀ c ∈ w.head?, Printable c →
    Stored (v.enter.print u).mem ((v.enter.print u).switch c).mem (v.attr.cell t.row t.col) c
  returns : (consolePrint v (u ++ w)).1 = (u ++ w).length

/-- The bytes that `scroll_down` moves: a page of `0x1000`, whatever the size of the screen. -/
theorem scrollDown_mem (hpage : v.attr.pgVbuff.toNat + 2 * v.attr.cols + 0x1000 ≤ 2 ^ 32)
    (x : Addr) : (scrollDown 1 v).mem x = if InRange v.attr.pgVbuff 0x1000 x then
      v.mem (x + units v.attr.cols) else v.mem x := by
  have hsrc : (v.attr.pgVbuff + units v.attr.cols).toNat =
      v.attr.pgVbuff.toNat + 2 * v.attr.cols := by
    rw [units, BitVec.toNat_add, BitVec.toNat_ofNat]
    omega
  change memmove v.mem v.attr.pgVbuff (v.attr.pgVbuff + units (v.attr.cols * 1)) 0x1000 x = _
  rw [Nat.mul_one, memmove_apply v.mem (by change _ + 4096 ≤ _; omega)
    (by rw [hsrc]; change _ + 4096 ≤ _; omega)]
  change (if InRange v.attr.pgVbuff 4096 x then _ else _) = _
  split_ifs with hx
  · have hup : ¬v.attr.pgVbuff > v.attr.pgVbuff + units v.attr.cols := by
      rw [gt_iff_lt, BitVec.lt_def, hsrc]
      omega
    rw [origin, if_neg fun h => hup h.1, BitVec.add_assoc, BitVec.add_comm (units v.attr.cols),
      ← BitVec.add_assoc, add_toNat_sub]
  · rfl

/-- **A scroll moves every line up** just when the screen has at most 85 columns. -/
theorem scrollDown_moves_iff (hpage : a.pgVbuff.toNat + 2 * a.cols + 0x1000 ≤ 2 ^ 32)
    (hcols : a.cols ≤ 255) :
    (∀ mem, ∀ row < 24, ∀ col < a.cols,
      (scrollDown 1 ⟨a, mem⟩).mem (a.cell row col) = mem (a.cell (row + 1) col)) ↔ a.cols ≤ 85 := by
  have hdist {k : ℕ} (hk : k < 2 ^ 16) : (a.pgVbuff + units k - a.pgVbuff).toNat = 2 * k :=
    toNat_add_sub (by omega)
  have hbelow (row col : ℕ) : a.cell row col + units a.cols = a.cell (row + 1) col := by
    rw [cell_add, Attr.cell, Attr.cell, Nat.succ_mul]
    congr 2
    omega
  constructor
  · intro h
    by_contra hwide
    have hlast : ¬InRange a.pgVbuff 0x1000 (a.cell 23 (a.cols - 1)) := by
      rw [InRange, Attr.cell, hdist (by omega)]
      omega
    have hne : a.cell 24 (a.cols - 1) ≠ a.cell 23 (a.cols - 1) := by
      intro heq
      have hsub := congrArg (fun x => (x - a.pgVbuff).toNat) heq
      simp only [Attr.cell] at hsub
      rw [hdist (by omega), hdist (by omega)] at hsub
      omega
    have hmoved := h (Function.update (fun _ => 0) (a.cell 24 (a.cols - 1)) 1) 23 (by decide)
      (a.cols - 1) (by omega)
    rw [scrollDown_mem hpage, if_neg hlast, Function.update_self] at hmoved
    have hstays : Function.update (fun _ => 0 : Bytes) (a.cell 24 (a.cols - 1)) 1
        (a.cell 23 (a.cols - 1)) = 0 := Function.update_of_ne (Ne.symm hne) _ _
    exact absurd (hstays.symm.trans hmoved) (by decide)
  · intro hle mem row hrow col hcol
    have hin : InRange a.pgVbuff 0x1000 (a.cell row col) := by
      have hmul : row * a.cols ≤ 23 * a.cols := Nat.mul_le_mul_right _ (by omega)
      rw [InRange, Attr.cell, hdist (by omega)]
      omega
    rw [scrollDown_mem hpage, if_pos hin]
    exact congrArg mem (hbelow row col)

end SchemeOs.Console
