import DeltaForm.Span

/-!
# Lines of a source text

A source text is cut into lines at its newlines. `Lines` is the table of the offsets at which lines
start. `Lines.locate` looks a byte offset up in it and gives a line and a column, both counted from
one; columns count bytes. `Lines.text?` is the text of a line, sliced out of the source between two
starts, without its newline and without the carriage returns before it.
-/

namespace DeltaForm

/-- A line and a column, both counted from one. -/
structure Location where
  /-- Number of the line. -/
  line : Nat
  /-- Number of the byte in the line. -/
  column : Nat
  deriving DecidableEq, Repr

/-- The number of entries at the front of a table for which `p` holds, if it holds for none after
them. The search halves the range in which it ends: `p` holds before `low` and fails from `high`
on. -/
def partitionPoint (p : Nat → Bool) (table : Array Nat) (low high : Nat) (h : high ≤ table.size) :
    Nat :=
  if hlt : low < high then
    have hmiddle : low + (high - low) / 2 < high := by omega
    if p table[low + (high - low) / 2] then
      partitionPoint p table (low + (high - low) / 2 + 1) high h
    else partitionPoint p table low (low + (high - low) / 2) (by omega)
  else low
termination_by high - low

theorem partitionPoint_le {p : Nat → Bool} {table : Array Nat} {low high : Nat}
    (hle : low ≤ high) (h : high ≤ table.size) : partitionPoint p table low high h ≤ high := by
  fun_induction partitionPoint p table low high h with
  | case1 low high h hlt hmiddle hp ih => exact ih hmiddle
  | case2 low high h hlt hmiddle hp ih => exact Nat.le_trans (ih (by omega)) (Nat.le_of_lt hmiddle)
  | case3 low high h hlt => exact hle

/-- The table of the lines of a source text. -/
structure Lines where
  /-- Offset at which each line starts. -/
  starts : Array Nat
  /-- The first line starts where the source does. -/
  first : starts[0]? = some 0
  /-- Each line starts after the ones above it. -/
  increasing : starts.toList.Pairwise (· < ·)

namespace Lines

/-- The offsets of the newlines in a text that starts at `offset`. -/
def newlines (offset : Nat) : List Char → List Nat
  | [] => []
  | c :: cs =>
    if c = '\n' then offset :: newlines (offset + c.utf8Size) cs
    else newlines (offset + c.utf8Size) cs

theorem le_of_mem_newlines {n : Nat} {offset : Nat} {cs : List Char} (h : n ∈ newlines offset cs) :
    offset ≤ n := by
  fun_induction newlines offset cs with
  | case1 => cases h
  | case2 offset cs ih =>
    cases h with
    | head => exact Nat.le_refl _
    | tail _ h => exact Nat.le_of_add_right_le (ih h)
  | case3 offset c cs hc ih => exact Nat.le_of_add_right_le (ih h)

theorem pairwise_newlines (offset : Nat) (cs : List Char) :
    (newlines offset cs).Pairwise (· < ·) := by
  fun_induction newlines offset cs with
  | case1 => exact .nil
  | case2 offset cs ih =>
    refine .cons (fun n hn => ?_) ih
    exact Nat.lt_of_lt_of_le (Nat.lt_add_of_pos_right (Char.utf8Size_pos _)) (le_of_mem_newlines hn)
  | case3 offset c cs hc ih => exact ih

/-- The lines of a source text: one starts at its beginning, the others after its newlines. -/
def ofSource (source : String) : Lines where
  starts := (0 :: (newlines 0 source.toList).map (· + 1)).toArray
  first := rfl
  increasing := by
    refine .cons (fun n hn => ?_) ((pairwise_newlines 0 _).map _ fun _ _ => Nat.succ_lt_succ)
    obtain ⟨m, -, rfl⟩ := List.mem_map.1 hn
    exact Nat.succ_pos m

variable (ls : Lines)

/-- The number of lines. -/
def count : Nat := ls.starts.size

theorem count_pos : 0 < ls.count := (Array.getElem?_eq_some_iff.1 ls.first).1

/-- The number of lines that start at or before an offset. -/
def started (offset : Nat) : Nat :=
  partitionPoint (· ≤ offset) ls.starts 0 ls.starts.size (Nat.le_refl _)

theorem started_le (offset : Nat) : ls.started offset ≤ ls.count :=
  partitionPoint_le (Nat.zero_le _) _

/-- The line and column of a byte offset: the last line that starts at or before it. -/
def locate (offset : Nat) : Location :=
  let line := max (ls.started offset) 1
  have hline : line - 1 < ls.starts.size :=
    Nat.sub_one_lt_of_le (Nat.le_max_right _ _) (Nat.max_le.2 ⟨ls.started_le offset, ls.count_pos⟩)
  ⟨line, offset - ls.starts[line - 1] + 1⟩

/-- The text of a line, counted from one, without the carriage returns at its end. -/
def text? (source : String) (line : Nat) : Option String :=
  match line with
  | 0 => none
  | k + 1 => do
    let start ← ls.starts[k]?
    let stop := (ls.starts[k + 1]?.map (· - 1)).getD source.utf8ByteSize
    let text ← Span.slice? source ⟨start, stop⟩
    return String.ofList (text.toList.reverse.dropWhile (· = '\r')).reverse

end Lines

end DeltaForm
