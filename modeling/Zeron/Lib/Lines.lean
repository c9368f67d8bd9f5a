import Zeron.Lib.Utf8

/-!
# Lines of a file

The lines of a byte file as buffered readers give them: what a newline ends, without a carriage
return before it, and what stands after the last newline.
-/

namespace Zeron.Lib.Lines

def newline : UInt8 := 0x0A

def carriageReturn : UInt8 := 0x0D

def chomp (line : Bytes) : Bytes :=
  if line.getLast? = some carriageReturn then line.dropLast else line

/-- The lines of the bytes that follow the line read so far. -/
def linesFrom : Bytes → Bytes → List Bytes
  | line, [] => if line = [] then [] else [line]
  | line, byte :: bytes =>
      if byte = newline then chomp line :: linesFrom [] bytes else linesFrom (line ++ [byte]) bytes

def lines (file : Bytes) : List Bytes := linesFrom [] file

/-- The file ends inside a line. -/
def endsMidLine (file : Bytes) : Bool := file.getLast?.any fun byte => byte ≠ newline

theorem chomp_of_not_mem {line : Bytes} (h : carriageReturn ∉ line) : chomp line = line := by
  unfold chomp
  rw [if_neg fun hlast => h (List.mem_of_getLast? hlast)]

theorem linesFrom_segment {segment : Bytes} (h : newline ∉ segment) (line rest : Bytes) :
    linesFrom line (segment ++ rest) = linesFrom (line ++ segment) rest := by
  induction segment generalizing line with
  | nil => simp
  | cons byte segment ih =>
      rw [List.mem_cons, not_or] at h
      rw [List.cons_append, linesFrom, if_neg (Ne.symm h.1), ih h.2, List.append_assoc]
      rfl

theorem linesFrom_newline (line start rest : Bytes) :
    linesFrom line (start ++ newline :: rest)
      = linesFrom line (start ++ [newline]) ++ lines rest := by
  induction start generalizing line with
  | nil => simp [linesFrom, lines]
  | cons byte start ih =>
      rw [List.cons_append, List.cons_append, linesFrom, linesFrom]
      split
      · rw [ih, List.cons_append]
      · exact ih _

/-- A file that ends at a line's end is read apart from what is written after it. -/
theorem lines_append {file : Bytes} (h : endsMidLine file = false) (rest : Bytes) :
    lines (file ++ rest) = lines file ++ lines rest := by
  obtain rfl | ⟨start, last, rfl⟩ := List.eq_nil_or_concat file
  · rfl
  · have hlast : last = newline := by simpa [endsMidLine] using h
    rw [hlast, List.concat_eq_append, List.append_assoc]
    exact linesFrom_newline [] start rest

theorem lines_line {line : Bytes} (hnewline : newline ∉ line) (hreturn : carriageReturn ∉ line) :
    lines (line ++ [newline]) = [line] := by
  rw [lines, linesFrom_segment hnewline, linesFrom, if_pos rfl, List.nil_append,
    chomp_of_not_mem hreturn]
  rfl

theorem lines_torn {line : Bytes} (hnewline : newline ∉ line) :
    lines line = if line = [] then [] else [line] := by
  have h := linesFrom_segment hnewline [] []
  rw [List.append_nil, List.nil_append] at h
  exact h

theorem linesFrom_append_newline {file : Bytes} (hfile : carriageReturn ∉ file) {line : Bytes}
    (hline : carriageReturn ∉ line) :
    linesFrom line (file ++ [newline]) = linesFrom line file ∨
      linesFrom line (file ++ [newline]) = linesFrom line file ++ [[]] := by
  induction file generalizing line with
  | nil =>
      by_cases hempty : line = []
      · right
        simp [linesFrom, hempty, chomp]
      · left
        simp [linesFrom, hempty, chomp_of_not_mem hline]
  | cons byte file ih =>
      rw [List.mem_cons, not_or] at hfile
      rw [List.cons_append, linesFrom, linesFrom]
      split
      · have hnil : carriageReturn ∉ ([] : Bytes) := List.not_mem_nil
        obtain h | h := ih hfile.2 hnil
        · exact .inl (by rw [h])
        · exact .inr (by rw [h, List.cons_append])
      · exact ih hfile.2 (by simp [hline, hfile.1])

/-- A newline closes the last line, or adds an empty one. -/
theorem lines_append_newline {file : Bytes} (h : carriageReturn ∉ file) :
    lines (file ++ [newline]) = lines file ∨ lines (file ++ [newline]) = lines file ++ [[]] :=
  linesFrom_append_newline h (by simp)

theorem endsMidLine_newline (file : Bytes) : endsMidLine (file ++ [newline]) = false := by
  simp [endsMidLine]

end Zeron.Lib.Lines
