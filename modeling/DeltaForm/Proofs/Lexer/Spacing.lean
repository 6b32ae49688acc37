import DeltaForm.Proofs.Lexer.Tiling
import DeltaForm.Proofs.Lexer.Literals
import Mathlib.Data.List.Induction
import Mathlib.Data.String.Basic

/-!
# Layout does not matter

A token is read the same wherever it stands, as long as a blank or the end of the source comes after
it. How far a piece reaches is found by running over characters, and none of these runs goes over a
blank: `StopsAtBlanks len` says that a length which ends within a text is the same when blanks
follow that text. A string ends with its quote, whatever follows it.

The one thing that a token can see of the text after it is a character that looks like the start of
a letter: a reserved word before it is a name. But then that character is a fault
(`isFault_of_startsLike`), so in a source without faults every word is what it is before a blank.

`Spaced parts text` says that a text is made of parts with blanks between them. A source without
faults is cut into its tokens, and any text made of them has the same tokens.
-/

namespace DeltaForm

namespace Lexer

variable {c d quote : Char} {cs ds rest rest' : List Char} {t : Token} {n : Nat}

/-! ### Runs of characters -/

/-- The text is empty or starts with a blank. -/
def StartsBlank (cs : List Char) : Prop := ∀ c ∈ cs.head?, c ∈ blanks

theorem forall_mem_blanks {p : Char → Prop} :
    (∀ c ∈ blanks, p c) ↔ p ' ' ∧ p '\t' ∧ p '\r' ∧ p '\n' ∧ p '\x0c' := by
  simp [blanks]

theorem isDigit_blank : ∀ c ∈ blanks, c.isDigit = false := forall_mem_blanks.2 (by decide)

theorem isDigitOrLine_blank : ∀ c ∈ blanks, isDigitOrLine c = false :=
  forall_mem_blanks.2 (by decide)

theorem ascii_blank : ∀ c ∈ blanks, c.toNat < 0x80 := forall_mem_blanks.2 (by decide)

/-- A length that ends within a text is the same when blanks follow the text. -/
def StopsAtBlanks (len : List Char → Nat) : Prop :=
  ∀ {cs rest rest' : List Char}, len (cs ++ rest) ≤ cs.length → StartsBlank rest' →
    len (cs ++ rest') = len (cs ++ rest)

theorem takeWhile_of_startsBlank {p : Char → Bool} (hp : ∀ c ∈ blanks, p c = false)
    (h : StartsBlank cs) : cs.takeWhile p = [] := by
  cases cs with
  | nil => rfl
  | cons c cs => rw [List.takeWhile_cons_of_neg (by simp [hp c (h c rfl)])]

/-- A run of characters that ends within a text is the same when blanks follow the text. -/
theorem takeWhile_append_eq {p : Char → Bool} (hp : ∀ c ∈ blanks, p c = false)
    (hle : ((cs ++ rest).takeWhile p).length ≤ cs.length) (hrest' : StartsBlank rest') :
    (cs ++ rest').takeWhile p = (cs ++ rest).takeWhile p := by
  induction cs with
  | nil =>
    rw [List.nil_append, takeWhile_of_startsBlank hp hrest']
    exact (List.length_eq_zero_iff.1 (Nat.le_zero.1 hle)).symm
  | cons c cs ih =>
    simp only [List.cons_append] at hle ⊢
    cases hc : p c with
    | true =>
      simp only [List.takeWhile_cons, hc, if_true, List.length_cons] at hle ⊢
      rw [ih (Nat.le_of_succ_le_succ hle)]
    | false => simp [hc]

theorem fractionLength_cons_of_ne (hc : c ≠ '.') (cs : List Char) :
    fractionLength (c :: cs) = 0 := by
  unfold fractionLength
  split
  · rename_i heq
    cases heq
    exact absurd rfl hc
  · rfl

theorem fractionLength_point (d : Char) (cs : List Char) :
    fractionLength ('.' :: d :: cs) =
      if d.isDigit then 2 + (cs.takeWhile isDigitOrLine).length else 0 := rfl

theorem fractionLength_of_startsBlank (h : StartsBlank cs) : fractionLength cs = 0 := by
  cases cs with
  | nil => rfl
  | cons c cs =>
    refine fractionLength_cons_of_ne ?_ cs
    rintro rfl
    exact absurd (h _ rfl) (by decide)

theorem fractionLength_point_of_startsBlank (h : StartsBlank cs) :
    fractionLength ('.' :: cs) = 0 := by
  cases cs with
  | nil => rfl
  | cons d cs =>
    rw [fractionLength_point, isDigit_blank d (h d rfl)]
    rfl

theorem stopsAtBlanks_fractionLength : StopsAtBlanks fractionLength := by
  intro cs rest rest' hle hrest'
  rcases cs with _ | ⟨c, cs⟩
  · rw [List.nil_append, fractionLength_of_startsBlank hrest']
    exact (Nat.le_zero.1 hle).symm
  by_cases hc : c = '.'
  · subst hc
    rcases cs with _ | ⟨d, cs⟩
    · -- a fraction has two characters at least
      have hshort : fractionLength ('.' :: rest) = 0 := by
        cases rest with
        | nil => rfl
        | cons d rest =>
          simp only [List.cons_append, List.nil_append, fractionLength_point, List.length_cons,
            List.length_nil] at hle ⊢
          split_ifs at hle ⊢
          · omega
          · rfl
      rw [List.cons_append, List.nil_append, fractionLength_point_of_startsBlank hrest']
      exact hshort.symm
    · simp only [List.cons_append, fractionLength_point, List.length_cons] at hle ⊢
      split_ifs at hle ⊢
      · have hrun : ((cs ++ rest).takeWhile isDigitOrLine).length ≤ cs.length := by omega
        rw [takeWhile_append_eq isDigitOrLine_blank hrun hrest']
      · rfl
  · rw [List.cons_append, List.cons_append, fractionLength_cons_of_ne hc,
      fractionLength_cons_of_ne hc]

theorem signLength_cons (d : Char) (cs ds : List Char) :
    signLength (d :: cs) = signLength (d :: ds) ∧ signLength (d :: cs) ≤ 1 := by
  unfold signLength
  split <;> split <;> simp_all

theorem signLength_of_startsBlank (h : StartsBlank cs) : signLength cs = 0 := by
  unfold signLength
  split
  · exact absurd (h _ rfl) (by decide)
  · exact absurd (h _ rfl) (by decide)
  · rfl

theorem exponentLength_of_startsBlank (h : StartsBlank cs) : exponentLength cs = 0 := by
  cases cs with
  | nil => rfl
  | cons c cs =>
    have hmark : ∀ c ∈ blanks, (c = 'e' || c = 'E') = false := forall_mem_blanks.2 (by decide)
    rw [exponentLength_cons, hmark c (h c rfl)]
    rfl

theorem exponentLength_mark_of_startsBlank (h : StartsBlank cs) :
    exponentLength (c :: cs) = 0 := by
  rw [exponentLength_cons, signLength_of_startsBlank h, List.drop_zero,
    takeWhile_of_startsBlank isDigit_blank h]
  exact ite_self 0

theorem stopsAtBlanks_exponentLength : StopsAtBlanks exponentLength := by
  intro cs rest rest' hle hrest'
  rcases cs with _ | ⟨c, _ | ⟨d, cs⟩⟩
  · rw [List.nil_append, exponentLength_of_startsBlank hrest']
    exact (Nat.le_zero.1 hle).symm
  · -- an exponent has two characters at least
    simp only [List.cons_append, List.nil_append, List.length_cons, List.length_nil] at hle ⊢
    rw [exponentLength_mark_of_startsBlank hrest']
    rw [exponentLength_cons] at hle ⊢
    simp only at hle ⊢
    split_ifs at hle ⊢ <;> omega
  · obtain ⟨hsign, hone⟩ := signLength_cons d (cs ++ rest) (cs ++ rest')
    simp only [List.cons_append, exponentLength_cons, ← hsign] at hle ⊢
    generalize signLength (d :: (cs ++ rest)) = k at hone hle ⊢
    have hk : k ≤ (d :: cs).length := Nat.le_trans hone (Nat.succ_le_succ (Nat.zero_le _))
    have hdrop (rest : List Char) : (d :: (cs ++ rest)).drop k = (d :: cs).drop k ++ rest :=
      List.drop_append_of_le_length hk
    rw [hdrop] at hle ⊢
    rw [hdrop]
    cases hmark : (c = 'e' || c = 'E') with
    | false => rfl
    | true =>
      have hrun : (((d :: cs).drop k ++ rest).takeWhile Char.isDigit).length ≤
          ((d :: cs).drop k).length := by
        rw [hmark, if_pos rfl, List.length_cons, List.length_cons] at hle
        rw [List.length_drop, List.length_cons]
        split_ifs at hle <;> omega
      rw [takeWhile_append_eq isDigit_blank hrun hrest']

theorem StopsAtBlanks.drop {len : List Char → Nat} (h : StopsAtBlanks len) {k : Nat}
    (hk : k ≤ cs.length) (hle : len ((cs ++ rest).drop k) ≤ cs.length - k)
    (hrest' : StartsBlank rest') : len ((cs ++ rest').drop k) = len ((cs ++ rest).drop k) := by
  rw [List.drop_append_of_le_length hk] at hle ⊢
  rw [List.drop_append_of_le_length hk]
  exact h (by rwa [List.length_drop]) hrest'

theorem stopsAtBlanks_decimalLength : StopsAtBlanks decimalLength := by
  intro cs rest rest' hle hrest'
  simp only [decimalLength] at hle ⊢
  have hwhole : ((cs ++ rest).takeWhile isDigitOrLine).length ≤ cs.length := by omega
  rw [takeWhile_append_eq isDigitOrLine_blank hwhole hrest']
  generalize ((cs ++ rest).takeWhile isDigitOrLine).length = whole at hle hwhole ⊢
  have hfraction : fractionLength ((cs ++ rest).drop whole) ≤ cs.length - whole := by omega
  rw [stopsAtBlanks_fractionLength.drop hwhole hfraction hrest']
  generalize fractionLength ((cs ++ rest).drop whole) = fraction at hle hfraction ⊢
  rw [stopsAtBlanks_exponentLength.drop (by omega) (Nat.le_sub_of_add_le' hle) hrest']

/-! ### Strings -/

theorem stringLength_slash (quote d : Char) (cs : List Char) :
    stringLength quote ('\\' :: d :: cs) =
      if d = '\n' || (d = 'u' && breaksOffInCode cs) then (false, 1)
      else later 2 (stringLength quote cs) := rfl

theorem stringLength_cons (hc : c ≠ '\\') (quote : Char) (cs : List Char) :
    stringLength quote (c :: cs) =
      if c = quote then (true, 1) else if c = '\n' then (false, 0)
      else later 1 (stringLength quote cs) := by
  rw [stringLength]
  · rfl
  · rintro _ _ rfl
    exact absurd rfl hc

theorem later_eq_iff {k : Nat} {reach : Bool × Nat} :
    later k reach = (true, n + k) ↔ reach = (true, n) := by
  simp [later, Prod.ext_iff]

/-- A string that is closed ends with its quote. -/
theorem exists_of_stringLength (h : stringLength quote cs = (true, n)) :
    ∃ body after, cs = body ++ quote :: after ∧ n = body.length + 1 := by
  fun_induction stringLength quote cs generalizing n with
  | case1 => cases h
  | case2 => cases h
  | case3 c cs _ closed k hlen ih =>
    cases h
    obtain ⟨body, after, rfl, rfl⟩ := ih hlen
    exact ⟨'\\' :: c :: body, after, rfl, rfl⟩
  | case4 cs =>
    cases h
    exact ⟨[], cs, rfl, rfl⟩
  | case5 => cases h
  | case6 c cs _ _ _ closed k hlen ih =>
    cases h
    obtain ⟨body, after, rfl, rfl⟩ := ih hlen
    exact ⟨c :: body, after, rfl, rfl⟩

theorem eq_concat_of_stringLength (h : stringLength quote (cs ++ rest) = (true, cs.length)) :
    ∃ body, cs = body ++ [quote] := by
  obtain ⟨body, after, htext, hlen⟩ := exists_of_stringLength h
  rw [List.append_cons] at htext
  have hlen : cs.length = (body ++ [quote]).length := by
    rw [hlen, List.length_append, List.length_singleton]
  exact ⟨body, (List.append_inj htext hlen).1⟩

/-- Whether a code breaks off is told before the quote that ends the string. -/
theorem breaksOffInCode_append (hhex : isHexDigit quote = false) (hbrace : quote ≠ '\x7b')
    (cs rest rest' : List Char) :
    breaksOffInCode (cs ++ quote :: rest) = breaksOffInCode (cs ++ quote :: rest') := by
  have hnot (c : Char) (hc : c ≠ '\x7b') (cs : List Char) : breaksOffInCode (c :: cs) = false := by
    unfold breaksOffInCode
    split
    · rename_i heq
      cases heq
      exact absurd rfl hc
    · rfl
  cases cs with
  | nil => rw [List.nil_append, List.nil_append, hnot quote hbrace, hnot quote hbrace]
  | cons c cs =>
    by_cases hc : c = '\x7b'
    · subst hc
      simp only [List.cons_append, breaksOffInCode, List.takeWhile_append, List.dropWhile_append,
        List.takeWhile_cons, List.dropWhile_cons, hhex, Bool.false_eq_true, if_false]
      split_ifs <;> simp
    · rw [List.cons_append, List.cons_append, hnot c hc, hnot c hc]

/-- A closed string is the same whatever follows it. -/
theorem stringLength_append (hquote : quote = '"' ∨ quote = '\'') {rest : List Char}
    (rest' : List Char) (h : stringLength quote (cs ++ rest) = (true, cs.length)) :
    stringLength quote (cs ++ rest') = (true, cs.length) := by
  have hslash : '\\' ≠ quote := by rcases hquote with rfl | rfl <;> decide
  induction cs using List.twoStepInduction with
  | nil =>
    obtain ⟨body, hbody⟩ := eq_concat_of_stringLength h
    simp at hbody
  | singleton c =>
    -- the one character is the quote
    obtain ⟨body, hbody⟩ := eq_concat_of_stringLength h
    obtain rfl : c = quote := by
      cases body with
      | nil => simpa using hbody
      | cons => simp at hbody
    rw [List.cons_append, stringLength_cons hslash.symm, if_pos rfl]
    rfl
  | cons_cons c d cs ihtwo ihone =>
    by_cases hc : c = '\\'
    · subst hc
      simp only [List.cons_append, stringLength_slash] at h ⊢
      have hbreak : (d = '\n' || (d = 'u' && breaksOffInCode (cs ++ rest))) = false := by
        by_contra hbreak
        rw [if_pos (Bool.not_eq_false _ ▸ hbreak)] at h
        cases h
      rw [hbreak] at h
      have hrest : stringLength quote (cs ++ rest) = (true, cs.length) := later_eq_iff.1 h
      obtain ⟨body, hbody⟩ := eq_concat_of_stringLength hrest
      have hcode : breaksOffInCode (cs ++ rest') = breaksOffInCode (cs ++ rest) := by
        rw [hbody, ← List.append_cons, ← List.append_cons]
        rcases hquote with rfl | rfl <;> exact breaksOffInCode_append rfl (by decide) _ _ _
      rw [hcode, hbreak, ihtwo hrest]
      rfl
    · rw [List.cons_append, stringLength_cons hc] at h ⊢
      split_ifs at h ⊢
      · simp at h
      · cases h
      · rw [ihone d (later_eq_iff.1 h)]
        rfl

/-! ### The pieces that are tokens -/

theorem piece_of_quote (hc : c = '"' ∨ c = '\'') (cs : List Char) :
    piece c cs = match stringLength c cs with
      | (true, n) => (stringToken (cs.take (n - 1)), n)
      | (false, n) => (.fault (.unexpected c), n) := by
  rcases hc with rfl | rfl <;> rfl

theorem piece_of_closed (hc : c = '"' ∨ c = '\'') (h : stringLength c cs = (true, n)) :
    piece c cs = (stringToken (cs.take (n - 1)), n) := by
  rw [piece_of_quote hc, h]

theorem startsNumber_iff :
    startsNumber c cs = true ↔ c.isDigit = true ∨ c = '.' ∧ ∃ d ∈ cs.head?, d.isDigit = true := by
  simp only [startsNumber, Bool.or_eq_true, Bool.and_eq_true, decide_eq_true_eq]
  cases cs <;> simp

theorem piece_of_startsNumber (h : startsNumber c cs = true) :
    piece c cs = match based? (c :: cs) with
      | some (base, run) => (basedNumber base run, run.length + 1)
      | none => (decimalNumber ((c :: cs).take (decimalLength (c :: cs))),
          decimalLength (c :: cs) - 1) := by
  have hne (d : Char) (hd : (d.isDigit || d = '.') = false) : c ≠ d := by
    rintro rfl
    rcases startsNumber_iff.1 h with hdigit | ⟨rfl, -⟩
    · simp [hdigit] at hd
    · cases hd
  have hspace : isSpace c = false := by
    simp [isSpace, hne ' ' rfl, hne '\t' rfl, hne '\r' rfl, hne '\n' rfl, hne '\x0c' rfl]
  simp only [piece, hspace, h, hne '/' rfl, hne '"' rfl, hne '\'' rfl]
  rfl

theorem piece_of_based {base : Base} {run : List Char}
    (h : based? (c :: cs) = some (base, run)) :
    piece c cs = (basedNumber base run, run.length + 1) := by
  obtain ⟨mark, rest, rfl, -⟩ := eq_of_based?_eq_some h
  rw [piece_of_startsNumber rfl, h]

theorem piece_of_decimal (hc : startsNumber c cs = true) (h : based? (c :: cs) = none) :
    piece c cs = (decimalNumber ((c :: cs).take (decimalLength (c :: cs))),
      decimalLength (c :: cs) - 1) := by
  rw [piece_of_startsNumber hc, h]

/-- No mark goes over a blank. -/
theorem longest?_append (cs : List Char) (h : StartsBlank rest) :
    Mark.longest? (cs ++ rest) = Mark.longest? cs := by
  have hmarks (m : Mark) : ∀ c ∈ blanks, c ∉ m.text.toList := by
    cases m <;> exact forall_mem_blanks.2 (by decide)
  have hprefix (m : Mark) : m.text.toList <+: cs ++ rest ↔ m.text.toList <+: cs := by
    refine ⟨fun hm => ?_, fun hm => hm.trans (List.prefix_append cs rest)⟩
    rcases List.prefix_or_prefix_of_prefix hm (List.prefix_append cs rest) with hle | ⟨tail, htail⟩
    · exact hle
    · cases tail with
      | nil => simp [← htail]
      | cons d tail =>
        -- the mark would go on with the blank after `cs`
        rw [← htail, List.prefix_append_right_inj] at hm
        obtain ⟨tail', htail'⟩ := hm
        have hd : d ∈ blanks := h d (by rw [← htail']; rfl)
        exact absurd (by simp [← htail]) (hmarks m d hd)
  unfold Mark.longest?
  congr 1
  funext m
  rw [Bool.eq_iff_iff, List.isPrefixOf_iff_prefix, List.isPrefixOf_iff_prefix, hprefix]

theorem mark_shape (m : Mark) :
    ∃ c cs, m.text.toList = c :: cs ∧ Mark.longest? (c :: cs) = some m ∧ isSpace c = false ∧
      c ≠ '"' ∧ c ≠ '\'' ∧ c.isDigit = false ∧ isNameStart c = false ∧
      (c = '/' ∨ c = '.' → cs = []) := by
  cases m <;>
    exact ⟨_, _, rfl, rfl, rfl, by decide, by decide, rfl, rfl, by decide⟩

theorem piece_mark (m : Mark) (h : StartsBlank rest) :
    ∃ c cs, m.text.toList = c :: cs ∧ piece c (cs ++ rest) = (.token (.mark m), cs.length) := by
  obtain ⟨c, cs, htext, hm, hspace, hdouble, hsingle, hdigit, hname, halone⟩ := mark_shape m
  refine ⟨c, cs, htext, ?_⟩
  -- a slash or a point is a mark by itself, so the blank comes next
  have hnext (hc : c = '/' ∨ c = '.') (d : Char) (hd : d ∉ blanks) :
      (cs ++ rest).head? ≠ some d := by
    rw [halone hc, List.nil_append]
    exact fun hhead => hd (h d hhead)
  have hnumber : startsNumber c (cs ++ rest) = false := by
    by_contra hstarts
    rcases startsNumber_iff.1 (Bool.not_eq_false _ ▸ hstarts) with hc | ⟨hc, d, hd, hd'⟩
    · rw [hdigit] at hc
      cases hc
    · refine hnext (.inr hc) d (fun hblank => ?_) hd
      rw [isDigit_blank d hblank] at hd'
      cases hd'
  have hcomment (d : Char) (hd : d ∉ blanks) :
      (c = '/' && (cs ++ rest).head? = some d) = false := by
    by_cases hc : c = '/'
    · rw [decide_eq_false (hnext (.inl hc) d hd), Bool.and_false]
    · rw [decide_eq_false hc, Bool.false_and]
  have hquote : (c = '"' || c = '\'') = false := by
    simp [hdouble, hsingle]
  have hlen : m.text.length - 1 = cs.length := by
    rw [← String.length_toList, htext, List.length_cons, Nat.add_sub_cancel]
  have hlongest : Mark.longest? (c :: (cs ++ rest)) = some m :=
    (longest?_append (c :: cs) h).trans hm
  simp only [piece, hspace, hcomment '/' (by decide), hcomment '*' (by decide), hquote, hnumber,
    hname, hlongest, hlen, Bool.false_eq_true, if_false]

theorem not_ascii_of_startsLike (h : startsLikeNamePart c = true) : 0x80 ≤ c.toNat := by
  have hranges : (letterRanges ++ numeralRanges).all (fun r => 0x80 ≤ leadByte r.1) = true := by
    decide +kernel
  have hlead : 0x80 ≤ leadByte c.toNat := by
    simp only [startsLikeNamePart, Ranges.hasLead, ← List.any_append, List.any_eq_true,
      Bool.and_eq_true, decide_eq_true_eq] at h
    obtain ⟨r, hr, hle, -⟩ := h
    exact Nat.le_trans (of_decide_eq_true (List.all_eq_true.1 hranges r hr)) hle
  by_contra hascii
  rw [leadByte, if_pos (Nat.lt_of_not_le hascii)] at hlead
  exact hascii hlead

/-- What looks like the start of a letter and is no part of a name is a fault. -/
theorem isFault_of_startsLike (h : startsLikeNamePart c = true) (hpart : isNamePart c = false)
    (cs : List Char) : (piece c cs).1.isFault = true := by
  have hne (d : Char) (hd : d.toNat < 0x80) : c ≠ d := by
    rintro rfl
    exact absurd (not_ascii_of_startsLike h) (Nat.not_le.2 hd)
  cases piecePath c cs with
  | blank hc =>
    exact absurd rfl (hne c (ascii_blank c (isSpace_iff.1 hc)))
  | lineComment hc | blockComment hc => exact absurd hc (hne '/' (by decide))
  | string hc =>
    rcases hc with hc | hc
    · exact absurd hc (hne '"' (by decide))
    · exact absurd hc (hne '\'' (by decide))
  | based hbased =>
    obtain ⟨mark, rest, hc, -⟩ := eq_of_based?_eq_some hbased
    exact absurd hc (hne '0' (by decide))
  | decimal hc =>
    rcases startsNumber_iff.1 hc with hdigit | ⟨hc, -⟩
    · rw [Char.isDigit_iff_toNat] at hdigit
      exact absurd rfl (hne c (Nat.lt_of_le_of_lt hdigit.2 (by decide)))
    · exact absurd hc (hne '.' (by decide))
  | word hc => simp [isNamePart, hc] at hpart
  | @mark m hm =>
    obtain ⟨d, ds, htext, hd⟩ : ∃ d ds, m.text.toList = d :: ds ∧ d.toNat < 0x80 := by
      cases m <;> exact ⟨_, _, rfl, by decide⟩
    obtain ⟨tail, htail⟩ := isPrefix_of_longest? hm
    rw [htext, List.cons_append, List.cons.injEq] at htail
    exact absurd htail.1.symm (hne d hd)
  | openComment hp | openString _ hp | unexpected hp =>
    rw [hp]
    rfl

theorem isDigit_blank_of_ofMark? {mark : Char} {base : Base} (h : Base.ofMark? mark = some base) :
    ∀ c ∈ blanks, (base.isDigit c || c = '_') = false := by
  unfold Base.ofMark? at h
  split_ifs at h <;> cases h <;> exact forall_mem_blanks.2 (by decide)

theorem based?_cons_cons (c mark : Char) (cs : List Char) :
    based? (c :: mark :: cs) =
      if c = '0' then (Base.ofMark? mark).bind fun base =>
        if (cs.takeWhile fun d => base.isDigit d || d = '_').isEmpty then none
        else some (base, cs.takeWhile fun d => base.isDigit d || d = '_')
      else none := by
  split_ifs with hc
  · subst hc
    rfl
  · unfold based?
    split
    · rename_i heq
      cases heq
      exact absurd rfl hc
    · rfl

theorem ofMark?_blank : ∀ c ∈ blanks, Base.ofMark? c = none := by
  simp [blanks, Base.ofMark?]

/-- A number without a base mark has none before a blank. -/
theorem based?_append_eq_none (h : based? (c :: (cs ++ rest)) = none)
    (hrest' : StartsBlank rest') : based? (c :: (cs ++ rest')) = none := by
  cases cs with
  | nil => exact based?_eq_none fun d hd => ofMark?_blank d (hrest' d hd)
  | cons mark cs =>
    rw [List.cons_append, based?_cons_cons] at h ⊢
    split_ifs at h ⊢
    · cases hbase : Base.ofMark? mark with
      | none => rfl
      | some base =>
        rw [hbase, Option.bind_some] at h
        rw [Option.bind_some]
        split_ifs at h with hrun
        have hrun := List.isEmpty_iff.1 hrun
        have hlen : ((cs ++ rest).takeWhile fun d => base.isDigit d || d = '_').length ≤
            cs.length := by
          rw [hrun]
          exact Nat.zero_le _
        rw [takeWhile_append_eq (isDigit_blank_of_ofMark? hbase) hlen hrest', hrun]
        rfl
    · rfl

/-- The digits after a base mark are the same before a blank. -/
theorem based?_append_eq_some {base : Base} {run : List Char}
    (h : based? (c :: (cs ++ rest)) = some (base, run)) (hlen : cs.length = run.length + 1)
    (hrest' : StartsBlank rest') : based? (c :: (cs ++ rest')) = some (base, run) := by
  cases cs with
  | nil => cases hlen
  | cons mark cs =>
    obtain ⟨mark', tail, rfl, htail, hbase, rfl, hrun⟩ := eq_of_based?_eq_some h
    cases htail
    have hle := Nat.le_of_eq (Nat.succ_injective hlen).symm
    rw [List.cons_append, based?_cons_cons, if_pos rfl, hbase, Option.bind_some,
      takeWhile_append_eq (isDigit_blank_of_ofMark? hbase) hle hrest',
      if_neg (by simpa using hrun)]
    rfl

/-- A number has a character at least, and two if it starts with a point. -/
theorem decimalLength_pos (h : startsNumber c cs = true) :
    0 < decimalLength (c :: cs) ∧ (c = '.' → 1 < decimalLength (c :: cs)) := by
  rcases startsNumber_iff.1 h with hc | ⟨rfl, d, hd, hdigit⟩
  · have hrun : 0 < ((c :: cs).takeWhile isDigitOrLine).length := by
      rw [List.takeWhile_cons_of_pos (by simp [isDigitOrLine, hc])]
      exact Nat.succ_pos _
    refine ⟨?_, ?_⟩
    · simp only [decimalLength]
      omega
    · rintro rfl
      cases hc
  · obtain ⟨ds, rfl⟩ := eq_cons_of_head? hd
    have hwhole : ('.' :: d :: ds).takeWhile isDigitOrLine = [] := rfl
    have hlen : 1 < decimalLength ('.' :: d :: ds) := by
      simp only [decimalLength, hwhole, List.length_nil, List.drop_zero, fractionLength_point,
        hdigit, if_true]
      omega
    exact ⟨Nat.lt_of_succ_lt hlen, fun _ => hlen⟩

theorem startsNumber_append (h : startsNumber c (cs ++ rest) = true)
    (hcs : c = '.' → cs ≠ []) (rest' : List Char) : startsNumber c (cs ++ rest') = true := by
  rcases startsNumber_iff.1 h with hc | ⟨rfl, d, hd, hdigit⟩
  · exact startsNumber_iff.2 (.inl hc)
  · obtain ⟨e, ds, rfl⟩ := List.exists_cons_of_ne_nil (hcs rfl)
    exact startsNumber_iff.2 (.inr ⟨rfl, d, hd, hdigit⟩)

theorem wordToken_eq (h : ∀ d ∈ rest.head?, startsLikeNamePart d = false) (word : List Char) :
    wordToken word rest = .ofWord (String.ofList word) := by
  cases rest with
  | nil => rfl
  | cons d rest =>
    rw [wordToken, List.head?_cons, Option.map_some, Option.getD_some, h d rfl]
    rfl

theorem startsLikeNamePart_blank (hc : c ∈ blanks) : startsLikeNamePart c = false := by
  by_contra h
  exact absurd (not_ascii_of_startsLike (Bool.not_eq_false _ ▸ h)) (Nat.not_le.2 (ascii_blank c hc))

/-- A number that ends within a text is the same before a blank. -/
theorem piece_decimal_append (hc : startsNumber c (cs ++ rest) = true)
    (hbased : based? (c :: (cs ++ rest)) = none)
    (hn : cs.length = decimalLength (c :: (cs ++ rest)) - 1) (hrest' : StartsBlank rest') :
    piece c (cs ++ rest') = (decimalNumber (c :: cs), cs.length) := by
  obtain ⟨hpos, hpoint⟩ := decimalLength_pos hc
  have hlen : decimalLength (c :: cs ++ rest) = (c :: cs).length := by
    rw [List.cons_append, List.length_cons]
    omega
  have hlen' : decimalLength (c :: (cs ++ rest')) = (c :: cs).length :=
    (stopsAtBlanks_decimalLength (Nat.le_of_eq hlen) hrest').trans hlen
  have hcs : c = '.' → cs ≠ [] := by
    rintro hdot rfl
    have hlong := hpoint hdot
    rw [List.length_nil] at hn
    omega
  rw [piece_of_decimal (startsNumber_append hc hcs rest') (based?_append_eq_none hbased hrest'),
    hlen', ← List.cons_append, List.take_left]
  rfl

/-- A word that ends within a text is the same before a blank. -/
theorem piece_word_append (hc : isNameStart c = true)
    (hword : (cs ++ rest).takeWhile isNamePart = cs) (hrest' : StartsBlank rest') :
    piece c (cs ++ rest') = (.token (.ofWord (String.ofList (c :: cs))), cs.length) := by
  have hword' : (cs ++ rest').takeWhile isNamePart = cs := by
    have hblanks : ∀ d ∈ blanks, isNamePart d = false := forall_mem_blanks.2 (by decide)
    rw [takeWhile_append_eq hblanks (Nat.le_of_eq (congrArg _ hword)) hrest', hword]
  have hdrop' : (cs ++ rest').dropWhile isNamePart = rest' := by
    rw [← drop_length_takeWhile, hword', List.drop_left]
  rw [piece_word hc, hword', hdrop',
    wordToken_eq fun d hd => startsLikeNamePart_blank (hrest' d hd)]

/-- **A token is the same before a blank.** -/
theorem piece_append_blank (h : piece c (cs ++ rest) = (.token t, cs.length))
    (hnext : ∀ d ∈ rest.head?, startsLikeNamePart d = true → isNamePart d = true)
    (hrest' : StartsBlank rest') : piece c (cs ++ rest') = (.token t, cs.length) := by
  cases piecePath_of_eq h with
  | blank _ hp | lineComment _ _ hp | blockComment _ _ _ hp | openComment hp | openString _ hp
  | unexpected hp => cases hp
  | string hc hlen hp =>
    rw [piece_of_closed hc (stringLength_append hc rest' hlen), hp,
      List.take_append_of_le_length (Nat.sub_le _ _),
      List.take_append_of_le_length (Nat.sub_le _ _)]
  | based hbased hp hn =>
    rw [piece_of_based (based?_append_eq_some hbased hn hrest'), ← hp, hn]
  | decimal hc hbased hp hn =>
    have hlen : decimalLength (c :: (cs ++ rest)) = (c :: cs).length := by
      have hpos := (decimalLength_pos hc).1
      rw [List.length_cons]
      omega
    rw [hlen, ← List.cons_append, List.take_left] at hp
    rw [piece_decimal_append hc hbased hn hrest', ← hp]
  | word hc hp hn =>
    have hword : (cs ++ rest).takeWhile isNamePart = cs := by
      rw [List.prefix_iff_eq_take.1 (List.takeWhile_prefix isNamePart), ← hn, List.take_left]
    have hdrop : (cs ++ rest).dropWhile isNamePart = rest := by
      rw [← drop_length_takeWhile, hword, List.drop_left]
    -- the word ends before `rest`, so what stands there is no letter and does not look like one
    have hend : ∀ d ∈ rest.head?, startsLikeNamePart d = false := by
      intro d hd
      have hpart := List.head?_dropWhile_not isNamePart (cs ++ rest)
      rw [hdrop, Option.mem_def.1 hd] at hpart
      by_contra hlike
      have := hnext d hd (Bool.not_eq_false _ ▸ hlike)
      simp [this] at hpart
    rw [hword, hdrop, wordToken_eq hend] at hp
    rw [piece_word_append hc hword hrest', hp]
  | @mark m hm hp hn =>
    cases hp
    obtain ⟨d, ds, htext, hpiece⟩ := piece_mark m hrest'
    obtain ⟨tail, htail⟩ := isPrefix_of_longest? hm
    rw [← String.length_toList, htext, List.length_cons, Nat.add_sub_cancel] at hn
    rw [htext, List.cons_append, List.cons.injEq] at htail
    obtain ⟨rfl, htail⟩ := htail
    obtain ⟨rfl, -⟩ := List.append_inj htail hn.symm
    exact hpiece

/-! ### The text of a span -/

theorem byteLength_eq_utf8Len (cs : List Char) : byteLength cs = String.utf8Len cs := by
  induction cs with
  | nil => rfl
  | cons c cs ih => rw [byteLength, ih, String.utf8Len_cons, Nat.add_comm]

end Lexer

/-- The text of a source at a span. -/
def Span.text (source : String) (s : Span) : String :=
  String.Pos.Raw.extract source ⟨s.start⟩ ⟨s.stop⟩

theorem Span.Cuts.text_eq {source : String} {s : Span} {before text after : List Char}
    (h : s.Cuts before text after source.toList) : s.text source = String.ofList text := by
  rw [Span.text, h.start, h.stop, ← String.ofList_toList (s := source), h.source,
    Lexer.byteLength_eq_utf8Len, Lexer.byteLength_eq_utf8Len]
  exact String.extract_of_valid before text after

namespace Lexer

/-! ### Texts with blanks between their parts -/

/-- A text is made of parts in their order, with at least one blank between two of them, and any
blanks before the first and after the last one. -/
inductive Spaced : List (List Char) → List Char → Prop
  | nil {blank : List Char} (h : ∀ c ∈ blank, c ∈ blanks) : Spaced [] blank
  | single {before part after : List Char} (hbefore : ∀ c ∈ before, c ∈ blanks)
    (hafter : ∀ c ∈ after, c ∈ blanks) : Spaced [part] (before ++ part ++ after)
  | cons {before part between next text : List Char} {parts : List (List Char)}
    (hbefore : ∀ c ∈ before, c ∈ blanks) (hbetween : ∀ c ∈ between, c ∈ blanks)
    (hne : between ≠ []) (h : Spaced (next :: parts) text) :
    Spaced (part :: next :: parts) (before ++ part ++ (between ++ text))

theorem Spaced.after_blanks {blank text : List Char} {parts : List (List Char)}
    (hblank : ∀ c ∈ blank, c ∈ blanks) (h : Spaced parts text) : Spaced parts (blank ++ text) := by
  have happend {ds : List Char} (hds : ∀ c ∈ ds, c ∈ blanks) : ∀ c ∈ blank ++ ds, c ∈ blanks :=
    List.forall_mem_append.2 ⟨hblank, hds⟩
  cases h with
  | nil h => exact .nil (happend h)
  | single hbefore hafter =>
    rw [← List.append_assoc, ← List.append_assoc]
    exact .single (happend hbefore) hafter
  | @cons before part between _ _ _ hbefore hbetween hne h =>
    rw [← List.append_assoc blank, ← List.append_assoc blank before]
    exact .cons (happend hbefore) hbetween hne h

theorem startsBlank_of_forall (h : ∀ c ∈ cs, c ∈ blanks) : StartsBlank cs :=
  fun c hc => h c (List.mem_of_mem_head? hc)

/-- The first part, with the blanks before it, and what comes after it. -/
theorem Spaced.exists_of_cons {part text : List Char} {parts : List (List Char)}
    (h : Spaced (part :: parts) text) :
    ∃ before rest, (∀ c ∈ before, c ∈ blanks) ∧ text = before ++ part ++ rest ∧
      StartsBlank rest ∧ Spaced parts rest := by
  cases h with
  | @single before _ after hbefore hafter =>
    exact ⟨before, after, hbefore, rfl, startsBlank_of_forall hafter, .nil hafter⟩
  | @cons before _ between next text parts hbefore hbetween hne h =>
    refine ⟨before, between ++ text, hbefore, rfl, ?_, h.after_blanks hbetween⟩
    intro c hc
    rw [List.head?_append_of_ne_nil _ hne] at hc
    exact startsBlank_of_forall hbetween c hc

theorem lexes_blanks {blank : List Char} (h : ∀ c ∈ blank, c ∈ blanks) (rest : List Char) :
    Lexes (blank ++ rest) [] rest := by
  induction blank with
  | nil => exact .done rest
  | cons c blank ih =>
    obtain ⟨hc, hblank⟩ := List.forall_mem_cons.1 h
    have hpiece : piece c (blank ++ rest) = (.gap, 0) := by
      rw [piece, if_pos (isSpace_iff.2 hc)]
    exact .gap hpiece (ih hblank)

/-! ### The tokens of a spaced text -/

theorem IsGap.ascii_head {gap : List Char} (h : IsGap rest gap) :
    ∀ c ∈ gap.head?, c.toNat < 0x80 := by
  intro c hc
  cases h with
  | nil => cases hc
  | blank hblank =>
    cases hc
    exact ascii_blank c hblank
  | lineComment | blockComment =>
    cases hc
    decide

/-- In a text without faults, what looks like the start of a letter is part of a name. -/
theorem Tiled.isNamePart_head {offset : Nat} {ls : List Lexeme} (h : Tiled offset cs ls) :
    ∀ d ∈ cs.head?, startsLikeNamePart d = true → isNamePart d = true := by
  intro d hd hlike
  have hascii (gap : List Char) {rest : List Char} (hgap : IsGap rest gap)
      (hd : d ∈ gap.head?) : False :=
    absurd (not_ascii_of_startsLike hlike) (Nat.not_le.2 (hgap.ascii_head d hd))
  cases h with
  | done hgap => exact absurd hd fun hd => hascii cs hgap hd
  | @token _ gap cs rest c t ls hgap ht hrest =>
    cases gap with
    | cons e gap => exact absurd hd fun hd => hascii (e :: gap) hgap hd
    | nil =>
      cases hd
      by_contra hpart
      have hfault := isFault_of_startsLike hlike (Bool.not_eq_true _ ▸ hpart) (cs ++ rest)
      rw [ht] at hfault
      cases hfault

/-- The tokens of a text, with blanks between them instead of its gaps, are read as they were. -/
theorem Tiled.lexes_of_spaced {source : String} {ls : List Lexeme} (before : List Char)
    {text : List Char} (h : Tiled (byteLength before) cs ls)
    (hsource : before ++ cs = source.toList)
    (hspaced : Spaced (ls.map fun l => (l.span.text source).toList) text) :
    Lexes text (ls.map Lexeme.token) [] := by
  generalize hoffset : byteLength before = offset at h
  induction h generalizing before text with
  | done =>
    cases hspaced with
    | nil hblank =>
      have := lexes_blanks hblank []
      rwa [List.append_nil] at this
  | @token offset gap cs rest c t ls hgap ht hrest ih =>
    subst hoffset
    rw [← List.append_assoc] at hsource
    have hstart : byteLength before + byteLength gap = byteLength (before ++ gap) :=
      byteLength_append.symm
    have hcuts : Span.Cuts ⟨_, _⟩ (before ++ gap) (c :: cs) rest source.toList :=
      ⟨by rw [← hsource, List.append_assoc _ (c :: cs)], hstart, congrArg (· + _) hstart⟩
    rw [List.map_cons, hcuts.text_eq, String.toList_ofList] at hspaced
    obtain ⟨blank, text, hblank, rfl, hstarts, hspaced⟩ := hspaced.exists_of_cons
    have hpiece := piece_append_blank ht hrest.isNamePart_head hstarts
    have hlexes := ih (before ++ gap ++ c :: cs) (by rw [List.append_assoc, hsource]) hspaced
      (by rw [byteLength_append, byteLength_append])
    rw [List.append_assoc]
    exact (lexes_blanks hblank _).trans ((Lexes.of_piece hpiece).trans hlexes)

/-- **Layout does not matter.** The tokens of a source without faults, written in their order with
blanks between them, have no faults and are the same tokens. -/
theorem tokenize_spaced {source spaced : String} (hfaults : (tokenize source).faults = [])
    (hspaced : Spaced ((tokenize source).lexemes.dropLast.map
      fun l => (l.span.text source).toList) spaced.toList) :
    (tokenize spaced).faults = [] ∧
      (tokenize spaced).lexemes.map Lexeme.token = (tokenize source).lexemes.map Lexeme.token := by
  obtain ⟨ls, hls, htiled⟩ := tiled_of_faults_eq_nil hfaults
  rw [hls, List.dropLast_concat] at hspaced
  rw [hls, List.map_append]
  exact tokenize_of_lexes (Tiled.lexes_of_spaced [] htiled rfl hspaced)

theorem tokenize_spaced_comment :
    (tokenize "a??//?\n'b c'").lexemes.map Lexeme.token =
        [.name "a", .mark .coalesce, .string "b c", .eof] ∧
      (tokenize "a??//?\n'b c'").faults = [] ∧
      (tokenize " a\t??\r\n'b c'").faults = [] ∧
      (tokenize " a\t??\r\n'b c'").lexemes.map Lexeme.token =
        (tokenize "a??//?\n'b c'").lexemes.map Lexeme.token := by
  have htokens : (tokenize "a??//?\n'b c'").lexemes.map Lexeme.token =
      [.name "a", .mark .coalesce, .string "b c", .eof] := by decide +kernel
  have hfaults : (tokenize "a??//?\n'b c'").faults = [] := by decide +kernel
  have htexts : (tokenize "a??//?\n'b c'").lexemes.dropLast.map
      (fun l => (l.span.text "a??//?\n'b c'").toList) =
      [['a'], ['?', '?'], ['\'', 'b', ' ', 'c', '\'']] := by
    decide +kernel
  have hspaced : Spaced [['a'], ['?', '?'], ['\'', 'b', ' ', 'c', '\'']]
      " a\t??\r\n'b c'".toList :=
    @Spaced.cons [' '] _ ['\t'] _ _ _ (by simp [blanks]) (by simp [blanks]) (by simp)
      (@Spaced.cons [] _ ['\r', '\n'] _ _ _ (by simp) (by simp [blanks]) (by simp)
        (@Spaced.single [] _ [] (by simp) (by simp)))
  exact ⟨htokens, hfaults, tokenize_spaced hfaults (htexts ▸ hspaced)⟩

end Lexer

end DeltaForm
