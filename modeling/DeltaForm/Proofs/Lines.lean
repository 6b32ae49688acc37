import DeltaForm.Lines
import Mathlib.Data.List.DropRight
import Mathlib.Data.Nat.SuccPred
import Mathlib.Data.Prod.Lex
import Mathlib.Order.Interval.Set.Monotone

/-!
# Lines and columns by counting

`Lines` keeps a table of the places where lines start, and looks offsets up in it. What it answers
is compared with the source itself: the line of an offset counts the newlines among the bytes before
it, and its column counts the bytes after the last of them (`Location.after`). An offset may stand
inside a character, so the count is one of bytes; no byte of another character is that of a newline.

The texts of the lines are what is left of the characters of the source between its newlines: a
slice from one start of the table to the next is cut between characters, so it is never refused.
-/

namespace DeltaForm

/-! ### The bytes of a text -/

variable {c : Char} {cs ds : List Char}

/-- The bytes of a text in UTF-8. -/
def bytes (cs : List Char) : List UInt8 := cs.flatMap String.utf8EncodeChar

/-- The byte of a newline. -/
def newline : UInt8 := 10

theorem bytes_toList (source : String) : source.toUTF8.data.toList = bytes source.toList := by
  rw [String.toUTF8_eq_toByteArray, ← String.utf8Encode_toList, List.utf8Encode,
    List.data_toByteArray, List.toList_toArray, bytes]

theorem length_bytes_toList (source : String) :
    (bytes source.toList).length = source.utf8ByteSize := by
  rw [← bytes_toList, String.toUTF8_eq_toByteArray, ← String.size_toByteArray]
  rfl

theorem length_bytes (cs : List Char) : (bytes cs).length = (String.ofList cs).utf8ByteSize := by
  rw [← length_bytes_toList, String.toList_ofList]

theorem bytes_cons : bytes (c :: cs) = String.utf8EncodeChar c ++ bytes cs := List.flatMap_cons

theorem bytes_append : bytes (cs ++ ds) = bytes cs ++ bytes ds := List.flatMap_append

theorem bytes_newline : bytes ('\n' :: cs) = newline :: bytes cs := rfl

theorem newline_notMem_utf8EncodeChar (h : c ≠ '\n') : newline ∉ String.utf8EncodeChar c := by
  have hval : c.val.toNat ≠ 10 := fun hval => h (Char.ext (UInt32.toNat_inj.1 hval))
  intro hmem
  simp only [String.utf8EncodeChar, newline] at hmem
  generalize c.val.toNat = v at hval hmem
  -- a character of one byte is that byte, and the bytes of the others are all above 127
  split_ifs at hmem <;> simp [← UInt8.toNat_inj] at hmem <;> omega

theorem count_bytes (cs : List Char) : (bytes cs).count newline = cs.count '\n' := by
  induction cs with
  | nil => rfl
  | cons c cs ih =>
    by_cases hc : c = '\n'
    · rw [hc, bytes_newline, List.count_cons_self, List.count_cons_self, ih]
    · rw [bytes_cons, List.count_append, List.count_eq_zero.2 (newline_notMem_utf8EncodeChar hc),
        List.count_cons_of_ne hc, ih, Nat.zero_add]

/-! ### Locations by counting -/

namespace Location

variable {bs : List UInt8} {b : UInt8}

/-- The location after some bytes of a source: a line more for each newline among them, and a column
more for each byte after the last one. -/
def after (bs : List UInt8) : Location :=
  ⟨1 + bs.count newline, 1 + (bs.rtakeWhile (· ≠ newline)).length⟩

theorem after_concat_newline (bs : List UInt8) :
    after (bs ++ [newline]) = ⟨(after bs).line + 1, 1⟩ := by
  simp [after, List.rtakeWhile_concat_neg, Nat.add_assoc]

theorem after_concat (h : b ≠ newline) :
    after (bs ++ [b]) = ⟨(after bs).line, (after bs).column + 1⟩ := by
  simp [after, List.rtakeWhile_concat_pos, h, Nat.add_assoc]

/-- A location as a pair, the line before the column. -/
def pair (l : Location) : ℕ ×ₗ ℕ := toLex (l.line, l.column)

theorem pair_after_lt (bs : List UInt8) (b : UInt8) :
    (after bs).pair < (after (bs ++ [b])).pair := by
  rw [pair, pair, Prod.Lex.toLex_lt_toLex]
  by_cases hb : b = newline
  · rw [hb, after_concat_newline]
    exact .inl (Nat.lt_succ_self _)
  · rw [after_concat hb]
    exact .inr ⟨rfl, Nat.lt_succ_self _⟩

end Location

/-! ### Slices -/

theorem pos?_of_append {source s t : String} (h : source = s ++ t) :
    ∃ p : source.Pos, source.pos? s.rawEndPos = some p ∧ p.Splits s t := by
  have hvalid : String.Pos.Raw.IsValidForSlice source.toSlice s.rawEndPos :=
    (String.Pos.Raw.isValid_iff_exists_append.2 ⟨s, t, h, rfl⟩).toSlice
  rw [String.pos?, String.Slice.pos?, dif_pos (String.Pos.Raw.isValidForSlice_eq_true_iff.2 hvalid),
    Option.map_some]
  exact ⟨_, rfl, h, rfl⟩

/-- The bytes of a stretch of characters are sliced out as these characters. -/
theorem Span.slice?_of_append {source front piece back : String}
    (h : source = front ++ piece ++ back) :
    slice? source ⟨front.utf8ByteSize, (front ++ piece).utf8ByteSize⟩ = some piece := by
  obtain ⟨start, hstart, hfront⟩ := pos?_of_append (h.trans (String.append_assoc ..))
  obtain ⟨stop, hstop, hback⟩ := pos?_of_append h
  obtain ⟨hle, hpiece⟩ := String.copy_slice_eq_iff_splits.2 ⟨front, back, hfront, hback⟩
  simp only [String.rawEndPos] at hstart hstop
  simp only [slice?, hstart, hstop, String.slice?, dif_pos hle, Option.bind_eq_bind,
    Option.bind_some, Option.pure_def, hpiece]

/-! ### Looking up an offset -/

/-- The search ends at the only place before which `p` holds and from which on it fails. -/
theorem partitionPoint_eq {p : ℕ → Bool} {table : Array ℕ} {low high k : ℕ}
    (hp : ∀ i (hi : i < table.size), p table[i] = true ↔ i < k) (h : high ≤ table.size)
    (hlow : low ≤ k) (hhigh : k ≤ high) : partitionPoint p table low high h = k := by
  fun_induction partitionPoint p table low high h with
  | case1 low high h hlt hmiddle hholds ih => exact ih ((hp _ _).1 hholds) hhigh
  | case2 low high h hlt hmiddle hfails ih =>
    exact ih hlow (Nat.not_lt.1 fun hlt => hfails ((hp _ _).2 hlt))
  | case3 low high h hlt => exact Nat.le_antisymm hlow (hhigh.trans (Nat.not_lt.1 hlt))

namespace Lines

section Table

variable {ls : Lines} {offset start i k : ℕ}

theorem starts_le (hik : i ≤ k) (hk : k < ls.starts.size) : ls.starts[i] ≤ ls.starts[k] := by
  cases Nat.eq_or_lt_of_le hik with
  | inl heq => simp only [heq, Nat.le_refl]
  | inr hlt => exact (List.pairwise_iff_getElem.1 ls.increasing i k (hlt.trans hk) hk hlt).le

/-- An offset belongs to the line that starts at or before it, if the next one starts after it. -/
theorem locate_of_starts (hstart : ls.starts[k]? = some start) (hle : start ≤ offset)
    (hnext : ∀ next, ls.starts[k + 1]? = some next → offset < next) :
    ls.locate offset = ⟨k + 1, offset - start + 1⟩ := by
  obtain ⟨hk, rfl⟩ := Array.getElem?_eq_some_iff.1 hstart
  have hp : ∀ i (hi : i < ls.starts.size), decide (ls.starts[i] ≤ offset) = true ↔ i < k + 1 := by
    intro i hi
    rw [decide_eq_true_iff]
    refine ⟨fun hstarted => ?_, fun hik => (starts_le (Nat.lt_succ_iff.1 hik) hk).trans hle⟩
    by_contra! hki
    have hlt := hnext _ (Array.getElem?_eq_getElem (Nat.lt_of_le_of_lt hki hi))
    exact hlt.not_ge ((starts_le hki hi).trans hstarted)
  have hstarted : ls.started offset = k + 1 := partitionPoint_eq hp _ (Nat.zero_le _) hk
  simp only [locate, hstarted, Nat.max_eq_left (Nat.le_add_left 1 k), Nat.add_sub_cancel]

end Table

/-! ### The table of a source -/

variable {offset k : ℕ} {source : String} {bs bs' : List UInt8}

theorem newlines_eq : newlines offset cs = (bytes cs).idxsOf newline offset := by
  induction cs generalizing offset with
  | nil => rfl
  | cons c cs ih =>
    by_cases hc : c = '\n'
    · rw [hc, bytes_newline, List.idxsOf_cons, if_pos (beq_self_eq_true _), ← ih]
      rfl
    · have hnone : (String.utf8EncodeChar c).idxsOf newline offset = [] := by
        rw [← List.length_eq_zero_iff, List.length_idxsOf, List.count_eq_zero]
        exact newline_notMem_utf8EncodeChar hc
      rw [newlines, if_neg hc, bytes_cons, List.idxsOf_append, hnone, List.nil_append,
        String.length_utf8EncodeChar, ih]

theorem toList_starts (source : String) : (ofSource source).starts.toList =
    0 :: ((bytes source.toList).idxsOf newline).map (· + 1) := by
  rw [← newlines_eq]
  rfl

theorem count_ofSource (source : String) :
    (ofSource source).count = 1 + source.toList.count '\n' := by
  rw [count, ← Array.length_toList, toList_starts, List.length_cons, List.length_map,
    List.length_idxsOf, count_bytes, Nat.add_comm]

theorem idxsOf_append_newline :
    ((bs ++ newline :: bs').idxsOf newline)[bs.count newline]? = some bs.length := by
  rw [List.idxsOf_append, List.getElem?_append_right (List.length_idxsOf ..).le, List.length_idxsOf,
    Nat.sub_self, List.idxsOf_cons, if_pos (beq_self_eq_true _), Nat.zero_add]
  rfl

/-- The line on which some bytes end starts after the last newline among them. -/
theorem getElem?_starts (h : bytes source.toList = bs ++ bs') :
    (ofSource source).starts[bs.count newline]? =
      some (bs.rdropWhile (· ≠ newline)).length := by
  rw [← Array.getElem?_toList, toList_starts, h]
  clear h
  -- from the back: only a newline moves the start, and bytes after it belong to what follows
  induction bs using List.reverseRecOn generalizing bs' with
  | nil => rfl
  | append_singleton bs b ih =>
    rw [List.append_assoc, List.singleton_append]
    by_cases hb : b = newline
    · rw [hb, List.rdropWhile_concat_neg _ _ _ (by simp), List.count_append,
        List.count_singleton_self, List.getElem?_cons_succ, List.getElem?_map,
        idxsOf_append_newline, Option.map_some, List.length_append, List.length_singleton]
    · rw [List.rdropWhile_concat_pos _ _ _ (by simpa using hb), List.count_append,
        List.count_singleton, if_neg (by simpa using hb), Nat.add_zero, ih]

theorem lt_of_getElem?_starts {next : ℕ} (h : bytes source.toList = bs ++ bs')
    (hnext : (ofSource source).starts[bs.count newline + 1]? = some next) : bs.length < next := by
  rw [← Array.getElem?_toList, toList_starts, h, List.getElem?_cons_succ, List.getElem?_map,
    List.idxsOf_append, List.getElem?_append_right (List.length_idxsOf ..).le,
    Option.map_eq_some_iff] at hnext
  obtain ⟨n, hn, rfl⟩ := hnext
  have hle := List.ge_of_mem_idxsOf n (List.mem_of_getElem? hn)
  omega

theorem locate_ofSource (h : offset ≤ source.utf8ByteSize) :
    (ofSource source).locate offset = .after (source.toUTF8.data.toList.take offset) := by
  rw [bytes_toList]
  rw [← length_bytes_toList] at h
  have hsplit := (List.take_append_drop offset (bytes source.toList)).symm
  have hlength := List.length_take_of_le h
  generalize (bytes source.toList).take offset = bs at hsplit hlength ⊢
  -- the bytes before the offset are those up to the last newline and those of the line
  have hline := congrArg List.length
    (List.rdropWhile_append_rtakeWhile (p := (· ≠ newline)) (l := bs))
  rw [List.length_append] at hline
  rw [locate_of_starts (getElem?_starts hsplit) (by omega)
    fun next hnext => hlength ▸ lt_of_getElem?_starts hsplit hnext, Location.after]
  congr 1 <;> omega

theorem strictMonoOn_locate_ofSource (source : String) :
    StrictMonoOn (fun offset => ((ofSource source).locate offset).pair)
      (Set.Iic source.utf8ByteSize) := by
  refine strictMonoOn_Iic_of_lt_succ fun offset hlt => ?_
  have hlength : offset < source.toUTF8.data.toList.length := by
    rwa [bytes_toList, length_bytes_toList]
  simp only [Nat.succ_eq_succ]
  rw [locate_ofSource hlt.le, locate_ofSource hlt, Nat.succ_eq_add_one,
    List.take_succ_eq_append_getElem hlength]
  exact Location.pair_after_lt _ _

/-! ### The texts of lines -/

variable {front piece back : List Char}

/-- A line can start after the text: it is empty or ends in a newline. -/
def IsAbove (front : List Char) : Prop := front = [] ∨ ∃ above, front = above ++ ['\n']

/-- A line can stop before the text: it is empty or starts with a newline. -/
def IsBelow (back : List Char) : Prop := back = [] ∨ ∃ below, back = '\n' :: below

theorem splitOn_cases (cs : List Char) :
    ('\n' ∉ cs ∧ cs.splitOn '\n' = [cs]) ∨ ∃ line below, cs = line ++ '\n' :: below ∧
      '\n' ∉ line ∧ cs.splitOn '\n' = line :: below.splitOn '\n' := by
  by_cases hmem : '\n' ∈ cs
  · obtain ⟨line, below, rfl, hline⟩ := List.eq_append_cons_of_mem hmem
    exact .inr ⟨line, below, rfl, hline, List.splitOn_append_cons_self_of_not_mem hline below⟩
  · exact .inl ⟨hmem, List.splitOn_eq_singleton hmem⟩

/-- Each piece of a text between its newlines can be a line, after `k` newlines if it is the piece
with the index `k`. -/
theorem exists_of_getElem?_splitOn (h : (cs.splitOn '\n')[k]? = some piece) :
    ∃ front back, cs = front ++ piece ++ back ∧ '\n' ∉ piece ∧ front.count '\n' = k ∧
      IsAbove front ∧ IsBelow back := by
  induction k generalizing cs with
  | zero =>
    obtain ⟨hmem, hsplit⟩ | ⟨line, below, rfl, hline, hsplit⟩ := splitOn_cases cs
    · rw [hsplit] at h
      obtain rfl : cs = piece := Option.some_inj.1 h
      exact ⟨[], [], by simp, hmem, rfl, .inl rfl, .inl rfl⟩
    · rw [hsplit] at h
      obtain rfl : line = piece := Option.some_inj.1 h
      exact ⟨[], '\n' :: below, rfl, hline, rfl, .inl rfl, .inr ⟨below, rfl⟩⟩
  | succ k ih =>
    obtain ⟨-, hsplit⟩ | ⟨line, below, rfl, hline, hsplit⟩ := splitOn_cases cs
    · rw [hsplit] at h
      cases h
    · rw [hsplit, List.getElem?_cons_succ] at h
      obtain ⟨front, back, rfl, hpiece, hcount, hfront, hback⟩ := ih h
      refine ⟨line ++ '\n' :: front, back, by simp, hpiece, ?_, .inr ?_, hback⟩
      · rw [List.count_append, List.count_eq_zero.2 hline, List.count_cons_self, hcount,
          Nat.zero_add]
      · obtain rfl | ⟨above, rfl⟩ := hfront
        · exact ⟨line, rfl⟩
        · exact ⟨line ++ '\n' :: above, by simp⟩

theorem getElem?_starts_of_append (h : source.toList = front ++ back) (hfront : IsAbove front) :
    (ofSource source).starts[front.count '\n']? = some (bytes front).length := by
  have hbytes : bytes source.toList = bytes front ++ bytes back := h ▸ bytes_append
  rw [← count_bytes, getElem?_starts hbytes]
  obtain rfl | ⟨above, rfl⟩ := hfront
  · rfl
  · have hended : bytes (above ++ ['\n']) = bytes above ++ [newline] := bytes_append
    rw [hended, List.rdropWhile_concat_neg _ _ _ (by simp)]

/-- The text of a line stops before the newline that the next one starts after, or at the end. -/
theorem getD_starts_of_append (h : source.toList = front ++ back) (hback : IsBelow back) :
    ((ofSource source).starts[front.count '\n' + 1]?.map (· - 1)).getD source.utf8ByteSize =
      (bytes front).length := by
  obtain rfl | ⟨below, rfl⟩ := hback
  · rw [List.append_nil] at h
    have hlast : (ofSource source).starts.size ≤ front.count '\n' + 1 := by
      rw [← h, Nat.add_comm]
      exact (count_ofSource source).le
    rw [Array.getElem?_eq_none hlast, Option.map_none, Option.getD_none, ← length_bytes_toList, h]
  · have hbelow : source.toList = front ++ ['\n'] ++ below := by
      rw [h, List.append_assoc, List.singleton_append]
    have hnext := getElem?_starts_of_append hbelow (.inr ⟨front, rfl⟩)
    rw [List.count_append, List.count_singleton_self] at hnext
    rw [hnext, Option.map_some, Option.getD_some, bytes_append, List.length_append]
    rfl

/-- Line `k + 1` is the text between two newlines, without the carriage returns at its end. -/
theorem text?_ofSource (h : (source.toList.splitOn '\n')[k]? = some piece) :
    (ofSource source).text? source (k + 1) = some (.ofList (piece.rdropWhile (· = '\r'))) := by
  obtain ⟨front, back, hsource, hpiece, rfl, hfront, hback⟩ := exists_of_getElem?_splitOn h
  have hstart := getElem?_starts_of_append (hsource.trans (List.append_assoc ..)) hfront
  have hstop := getD_starts_of_append hsource hback
  rw [List.count_append, List.count_eq_zero.2 hpiece, Nat.add_zero] at hstop
  have hparts : source = .ofList front ++ .ofList piece ++ .ofList back :=
    String.toList_injective (by simp [hsource])
  have hslice := Span.slice?_of_append hparts
  rw [← String.ofList_append, ← length_bytes, ← length_bytes] at hslice
  simp only [text?, hstart, hstop, hslice, Option.bind_eq_bind, Option.bind_some, Option.pure_def,
    String.toList_ofList, List.rdropWhile]

theorem length_splitOn (cs : List Char) : (cs.splitOn '\n').length = 1 + cs.count '\n' := by
  induction cs with
  | nil => rfl
  | cons c cs ih =>
    rw [List.splitOn_cons_eq_if_modifyHead]
    by_cases hc : c = '\n'
    · rw [hc, if_pos (beq_self_eq_true _), List.length_cons, ih, List.count_cons_self]
      omega
    · rw [if_neg (by simpa using hc), List.length_modifyHead, ih, List.count_cons_of_ne hc]

/-- **Lines and columns are what counting newlines gives.** Every offset up to the end of a source
is located by the bytes before it, so two offsets have two locations and the greater offset has the
later one. There is one line more than there are newlines; each has the text between its newlines,
without the carriage returns at its end, and no other line has a text. -/
theorem ofSource_cuts_at_newlines (source : String) :
    (∀ offset ≤ source.utf8ByteSize,
      (ofSource source).locate offset = .after (source.toUTF8.data.toList.take offset)) ∧
    Set.InjOn (ofSource source).locate (Set.Iic source.utf8ByteSize) ∧
    StrictMonoOn (fun offset => ((ofSource source).locate offset).pair)
      (Set.Iic source.utf8ByteSize) ∧
    (ofSource source).count = 1 + source.toList.count '\n' ∧
    (∀ k, 1 ≤ k → k ≤ (ofSource source).count →
      ∃ piece, (source.toList.splitOn '\n')[k - 1]? = some piece ∧
        (ofSource source).text? source k = some (.ofList (piece.rdropWhile (· = '\r')))) ∧
    ∀ k, ¬(1 ≤ k ∧ k ≤ (ofSource source).count) → (ofSource source).text? source k = none := by
  have hmono := strictMonoOn_locate_ofSource source
  have hlength : (ofSource source).count = (source.toList.splitOn '\n').length := by
    rw [count_ofSource, length_splitOn]
  refine ⟨fun _ => locate_ofSource, fun i hi j hj heq => ?_, hmono, count_ofSource source, ?_, ?_⟩
  · exact hmono.injOn hi hj (congrArg Location.pair heq)
  · intro k hpos hle
    obtain ⟨k, rfl⟩ := Nat.exists_eq_add_of_le' hpos
    have hpiece := List.getElem?_eq_getElem (l := source.toList.splitOn '\n') (i := k) (by omega)
    exact ⟨_, hpiece, text?_ofSource hpiece⟩
  · intro k hrange
    cases k with
    | zero => rfl
    | succ k =>
      have hstart : (ofSource source).starts[k]? = none :=
        Array.getElem?_eq_none (by unfold count at hrange; omega)
      simp only [text?, hstart, Option.bind_eq_bind, Option.bind_none]

/-- An offset inside a character of two bytes, after a line that ends in a carriage return and an
empty one. -/
theorem ofSource_cuts_at_newlines_crlf :
    6 ≤ "é\r\n\nδ".utf8ByteSize ∧ (ofSource "é\r\n\nδ").locate 6 = ⟨3, 2⟩ ∧
      (ofSource "é\r\n\nδ").text? "é\r\n\nδ" 1 = some "é" ∧
      (ofSource "é\r\n\nδ").text? "é\r\n\nδ" 4 = none := by
  obtain ⟨hlocate, -, -, -, htext, hnone⟩ := ofSource_cuts_at_newlines "é\r\n\nδ"
  obtain ⟨piece, hpiece, hfirst⟩ := htext 1 (by decide) (by decide)
  obtain rfl : ['é', '\r'] = piece := Option.some_inj.1 ((by decide : _ = _).trans hpiece)
  exact ⟨by decide, (hlocate 6 (by decide)).trans (by decide), hfirst.trans (by decide),
    hnone 4 (by decide)⟩

end Lines

end DeltaForm
