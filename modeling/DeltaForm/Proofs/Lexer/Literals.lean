import DeltaForm.Proofs.Lexer.Reading
import Mathlib.Data.List.Induction
import Mathlib.Data.Nat.Digits.Defs

/-!
# Reading literals

Quoting a text and reading it as a literal gives the text back, whatever follows it: the escapes
are undone one character at a time, and none of them has a quote or a line end in it that would end
the literal early. On its own, a quoted text is a source of one token (`Lexer.tokenize_literal`).

The text of a finite number without a minus sign is a row of digits with or without a fraction. It
is read as one number where a delimiter follows; a point after it would belong to it.
-/

namespace DeltaForm

/-! ### Hexadecimal digits -/

theorem isHexDigit_digitChar {n : Nat} (h : n < 16) : isHexDigit (Nat.digitChar n) = true := by
  have : ∀ n < 16, isHexDigit (Nat.digitChar n) = true := by decide
  exact this n h

theorem digitValue_digitChar {n : Nat} (h : n < 16) : digitValue (Nat.digitChar n) = n := by
  have : ∀ n < 16, digitValue (Nat.digitChar n) = n := by decide
  exact this n h

theorem isHexDigit_of_mem_toDigits {n : Nat} {c : Char} (h : c ∈ Nat.toDigits 16 n) :
    isHexDigit c = true := by
  induction n using Nat.strongRecOn with
  | ind n ih =>
    rw [Nat.toDigits_eq_if (by decide)] at h
    split_ifs at h with hn
    · rw [List.mem_singleton] at h
      rw [h]
      exact isHexDigit_digitChar hn
    · rw [List.mem_append, List.mem_singleton] at h
      rcases h with h | rfl
      · exact ih (n / 16) (by omega) h
      · exact isHexDigit_digitChar (by omega)

/-! ### Rows of digits -/

theorem digitsValue_concat (radix : Nat) (cs : List Char) (c : Char) :
    digitsValue radix (cs ++ [c]) = digitsValue radix cs * radix + digitValue c := by
  simp [digitsValue, List.foldl_append]

theorem digitsValue_append (radix : Nat) (cs ds : List Char) : digitsValue radix (cs ++ ds) =
    digitsValue radix cs * radix ^ ds.length + digitsValue radix ds := by
  induction ds using List.reverseRecOn with
  | nil => simp [digitsValue]
  | append_singleton ds d ih =>
    rw [← List.append_assoc, digitsValue_concat, digitsValue_concat, ih, List.length_append,
      List.length_singleton, Nat.pow_succ, Nat.add_mul, Nat.mul_assoc, Nat.add_assoc]

theorem digitsValue_zeros (radix n : Nat) : digitsValue radix (List.replicate n '0') = 0 := by
  induction n with
  | zero => rfl
  | succ n ih =>
    rw [List.replicate_succ', digitsValue_concat, ih, Nat.zero_mul]
    rfl

theorem digitsValue_toDigits (radix n : Nat) (hone : 1 < radix) (hradix : radix ≤ 16) :
    digitsValue radix (Nat.toDigits radix n) = n := by
  induction n using Nat.strongRecOn with
  | ind n ih =>
    rw [Nat.toDigits_eq_if hone]
    split_ifs with hn
    · simp [digitsValue, digitValue_digitChar (Nat.lt_of_lt_of_le hn hradix)]
    · have hmod : n % radix < radix := Nat.mod_lt n (by omega)
      rw [digitsValue_concat, ih _ (Nat.div_lt_self (by omega) hone),
        digitValue_digitChar (Nat.lt_of_lt_of_le hmod hradix), Nat.div_add_mod']

namespace Quoted

/-! ### Undoing escapes -/

variable {c : Char} {cs ds : List Char}

theorem meaning?_of_short? {letter : Char} (h : short? c = some letter) :
    meaning? letter = some c := by
  unfold short? at h
  split at h <;> cases h <;> rfl

theorem decodeFrom_code (hds : ∀ d ∈ ds, isHexDigit d = true) {count value : Nat}
    (hcount : count + ds.length ≤ 6) (cs : List Char) :
    decodeFrom (.code count value) (ds ++ '\x7d' :: cs) =
      decodeFrom (.code (count + ds.length) (ds.foldl (fun n d => n * 16 + digitValue d) value))
        ('\x7d' :: cs) := by
  induction ds generalizing count value with
  | nil => rfl
  | cons d ds ih =>
    rw [List.forall_mem_cons] at hds
    rw [List.length_cons] at hcount
    have hd : d ≠ '\x7d' := by
      rintro rfl
      exact absurd hds.1 (by decide)
    rw [List.cons_append, decodeFrom, if_neg hd, if_pos (by simp [hds.1]; omega),
      ih hds.2 (by omega), List.length_cons, List.foldl_cons, Nat.mul_comm 16 value]
    congr 2
    omega

theorem length_toDigits_le (c : Char) : (Nat.toDigits 16 c.toNat).length ≤ 6 := by
  have hvalid : c.toNat.isValidChar := c.valid
  refine Nat.toDigits_length 16 _ 6 (by decide) ?_
  rcases hvalid with h | ⟨-, h⟩ <;> omega

theorem decodeFrom_escape (shown : Char → Bool) (c : Char) (cs : List Char) :
    decodeFrom .plain (escape shown c ++ cs) = (decodeFrom .plain cs).map (c :: ·) := by
  unfold escape
  split
  case h_1 letter hshort =>
    simp [decodeFrom, meaning?_of_short? hshort]
  case h_2 hshort =>
    have hslash : c ≠ '\\' := by
      rintro rfl
      cases hshort
    split_ifs with hshown
    · simp [decodeFrom, hslash]
    · -- the digits of a code point are at most six, and they are its value
      have hlen := length_toDigits_le c
      have hvalue := digitsValue_toDigits 16 c.toNat (by decide) (by decide)
      rw [digitsValue] at hvalue
      simp only [List.cons_append, List.append_assoc, decodeFrom, meaning?, if_true, reduceIte,
        Char.reduceEq, List.nil_append]
      rw [decodeFrom_code (fun _ => isHexDigit_of_mem_toDigits) (by omega), hvalue, decodeFrom]
      have hpos : 0 < (Nat.toDigits 16 c.toNat).length := Nat.length_toDigits_pos
      simp [hpos, show c.toNat.isValidChar from c.valid]

theorem decode_flatMap_escape (shown : Char → Bool) (s : List Char) :
    decode (s.flatMap (escape shown)) = some s := by
  unfold decode
  induction s with
  | nil => rfl
  | cons c s ih => rw [List.flatMap_cons, decodeFrom_escape, ih, Option.map_some]

end Quoted

namespace Lexer

/-! ### How far a literal reaches -/

variable {c : Char} {cs ds rest : List Char}

/-- The reach of a string that has `n` more characters before the place it is known from. -/
def later (n : Nat) (reach : Bool × Nat) : Bool × Nat := (reach.1, reach.2 + n)

theorem stringLength_plain (hc : c ≠ '"') (hline : c ≠ '\n') (hslash : c ≠ '\\') (cs : List Char) :
    stringLength '"' (c :: cs) = later 1 (stringLength '"' cs) := by
  rw [stringLength]
  · rw [if_neg hc, if_neg hline]
    rfl
  · rintro _ _ rfl
    exact absurd rfl hslash

theorem stringLength_digits (hds : ∀ d ∈ ds, isHexDigit d = true) (cs : List Char) :
    stringLength '"' (ds ++ cs) = later ds.length (stringLength '"' cs) := by
  induction ds with
  | nil => rfl
  | cons d ds ih =>
    rw [List.forall_mem_cons] at hds
    have hne (x : Char) (hx : isHexDigit x = false) : d ≠ x := by
      rintro rfl
      rw [hds.1] at hx
      cases hx
    rw [List.cons_append, stringLength_plain (hne _ rfl) (hne _ rfl) (hne _ rfl), ih hds.2]
    rfl

theorem breaksOffInCode_eq (hds : ∀ d ∈ ds, isHexDigit d = true) (cs : List Char) :
    breaksOffInCode ('\x7b' :: ds ++ '\x7d' :: cs) = false := by
  have hdrop : (ds ++ '\x7d' :: cs).dropWhile isHexDigit = '\x7d' :: cs := by
    rw [List.dropWhile_append_of_pos hds]
    rfl
  simp [breaksOffInCode, hdrop]

theorem stringLength_escape (shown : Char → Bool) (c : Char) (cs : List Char) :
    stringLength '"' (Quoted.escape shown c ++ cs) =
      later (Quoted.escape shown c).length (stringLength '"' cs) := by
  unfold Quoted.escape
  split
  case h_1 letter hshort =>
    have hletter : letter ≠ '\n' ∧ letter ≠ 'u' := by
      unfold Quoted.short? at hshort
      split at hshort <;> cases hshort <;> decide
    simp [stringLength, hletter, later]
  case h_2 hshort =>
    have hne (x : Char) (hx : Quoted.short? x ≠ none) : c ≠ x := by
      rintro rfl
      exact hx hshort
    split_ifs with hshown
    · exact stringLength_plain (hne _ (by simp [Quoted.short?])) (hne _ (by simp [Quoted.short?]))
        (hne _ (by simp [Quoted.short?])) cs
    · have hdigits (d : Char) (hd : d ∈ Nat.toDigits 16 c.toNat) : isHexDigit d = true :=
        isHexDigit_of_mem_toDigits hd
      have hcode : stringLength '"' ('\x7b' :: Nat.toDigits 16 c.toNat ++ '\x7d' :: cs) =
          later ((Nat.toDigits 16 c.toNat).length + 2) (stringLength '"' cs) := by
        rw [List.cons_append, stringLength_plain (by decide) (by decide) (by decide),
          stringLength_digits hdigits, stringLength_plain (by decide) (by decide) (by decide)]
        simp only [later]
        congr 1
        omega
      have hopen : stringLength '"'
          ('\\' :: 'u' :: ('\x7b' :: Nat.toDigits 16 c.toNat ++ '\x7d' :: cs)) =
          later 2 (stringLength '"' ('\x7b' :: Nat.toDigits 16 c.toNat ++ '\x7d' :: cs)) := by
        rw [stringLength, breaksOffInCode_eq hdigits]
        rfl
      simp only [List.cons_append, List.append_assoc, List.nil_append, List.length_cons,
        List.length_append, List.length_nil] at hopen hcode ⊢
      rw [hopen, hcode]
      rfl

theorem stringLength_flatMap_escape (shown : Char → Bool) (s rest : List Char) :
    stringLength '"' (s.flatMap (Quoted.escape shown) ++ '"' :: rest) =
      (true, (s.flatMap (Quoted.escape shown)).length + 1) := by
  induction s with
  | nil => rfl
  | cons c s ih =>
    rw [List.flatMap_cons, List.append_assoc, stringLength_escape, ih]
    simp [later]
    omega

theorem piece_quote (cs : List Char) : piece '"' cs = match stringLength '"' cs with
    | (true, n) => (stringToken (cs.take (n - 1)), n)
    | (false, n) => (.fault (.unexpected '"'), n) := rfl

theorem piece_encode (shown : Char → Bool) (s rest : List Char) :
    piece '"' (s.flatMap (Quoted.escape shown) ++ '"' :: rest) =
      (.token (.string (String.ofList s)), (s.flatMap (Quoted.escape shown)).length + 1) := by
  rw [piece_quote, stringLength_flatMap_escape]
  simp only [Nat.add_sub_cancel, List.take_left, stringToken, Quoted.decode_flatMap_escape]

theorem piece_literal (s : String) (rest : List Char) :
    ∃ body, Quoted.literal s = '"' :: body ∧
      piece '"' (body ++ rest) = (.token (.string s), body.length) := by
  refine ⟨s.toList.flatMap (Quoted.escape fun c => !isControl c) ++ ['"'], rfl, ?_⟩
  rw [List.append_assoc, List.length_append, List.cons_append, List.nil_append, piece_encode,
    String.ofList_toList]
  rfl

/-- Quoting is undone by reading, whatever comes after the quoted text. -/
theorem lexes_literal (s : String) (rest : List Char) :
    Lexes (Quoted.literal s ++ rest) [.string s] rest := by
  obtain ⟨body, hliteral, hpiece⟩ := piece_literal s rest
  rw [hliteral]
  exact .of_piece hpiece

/-- **Quoting is undone by the lexer**: a quoted text is a source of one string from its first byte
to its last, and that string is the text. -/
theorem tokenize_literal (s : String) : tokenize (String.ofList (Quoted.literal s)) =
    { lexemes := [⟨.string s, ⟨0, byteLength (Quoted.literal s)⟩⟩,
        ⟨.eof, ⟨byteLength (Quoted.literal s), byteLength (Quoted.literal s)⟩⟩]
      faults := [] } := by
  obtain ⟨body, hliteral, hpiece⟩ := piece_literal s []
  rw [List.append_nil] at hpiece
  rw [hliteral, tokenize_of_piece hpiece]

/-! ### Numbers -/

/-- Digits, with a point and a fraction unless that is empty. -/
def numeral (whole fraction : List Char) : List Char :=
  whole ++ if fraction.isEmpty then [] else '.' :: fraction

/-- Whether all characters of a text are digits. -/
def areDigits (cs : List Char) : Bool := cs.all Char.isDigit

theorem takeWhile_digits (h : areDigits cs = true)
    (hrest : rest.head?.all (fun c => !isDigitOrLine c) = true) :
    (cs ++ rest).takeWhile isDigitOrLine = cs := by
  have hcs : ∀ c ∈ cs, isDigitOrLine c = true := by
    intro c hc
    rw [isDigitOrLine, List.all_eq_true.1 h c hc, Bool.true_or]
  rw [List.takeWhile_append_of_pos hcs]
  cases rest with
  | nil => simp
  | cons c rest => simp_all

theorem isDelimiter_of_delimited (h : delimited false (c :: rest) = true) :
    isDelimiter c = true := by
  simpa [delimited] using h

theorem isDigitOrLine_of_isDelimiter (h : isDelimiter c = true) : isDigitOrLine c = false := by
  have hall : [' ', '(', ')', '[', ']', ',', ';'].all (fun c => !isDigitOrLine c) = true := by
    decide
  exact Bool.not_eq_true' _ ▸ List.all_eq_true.1 hall c (of_decide_eq_true h)

theorem head_not_digit (h : delimited false rest = true) :
    rest.head?.all (fun c => !isDigitOrLine c) = true := by
  cases rest with
  | nil => rfl
  | cons c rest => simp [isDigitOrLine_of_isDelimiter (isDelimiter_of_delimited h)]

theorem fractionLength_of_delimited (h : delimited false rest = true) :
    fractionLength rest = 0 := by
  unfold fractionLength
  split
  · cases isDelimiter_of_delimited h
  · rfl

theorem exponentLength_of_delimited (h : delimited false rest = true) :
    exponentLength rest = 0 := by
  cases rest with
  | nil => rfl
  | cons c rest =>
    have hc : c ≠ 'e' ∧ c ≠ 'E' := by
      constructor <;> rintro rfl <;> cases isDelimiter_of_delimited h
    simp [exponentLength, hc]

theorem decimalLength_numeral {whole fraction : List Char} (hwhole : areDigits whole = true)
    (hfraction : areDigits fraction = true) (hrest : delimited false rest = true) :
    decimalLength (numeral whole fraction ++ rest) = (numeral whole fraction).length := by
  cases fraction with
  | nil =>
    have hnumeral : numeral whole [] = whole := List.append_nil _
    rw [hnumeral, decimalLength, takeWhile_digits hwhole (head_not_digit hrest), List.drop_left,
      fractionLength_of_delimited hrest, Nat.add_zero, List.drop_left,
      exponentLength_of_delimited hrest, Nat.add_zero]
  | cons d ds =>
    have hnumeral : numeral whole (d :: ds) ++ rest = whole ++ ('.' :: d :: ds ++ rest) := by
      simp [numeral]
    rw [areDigits, List.all_cons, Bool.and_eq_true] at hfraction
    have hlength : fractionLength ('.' :: d :: ds ++ rest) = ('.' :: d :: ds).length := by
      simp only [List.cons_append, fractionLength, hfraction.1, if_true, List.length_cons]
      rw [takeWhile_digits hfraction.2 (head_not_digit hrest)]
      omega
    have hdrop : (whole ++ ('.' :: d :: ds ++ rest)).drop
        (whole.length + ('.' :: d :: ds).length) = rest := by
      rw [← List.append_assoc]
      exact List.drop_left' List.length_append
    rw [hnumeral, decimalLength, takeWhile_digits hwhole rfl, List.drop_left, hlength, hdrop,
      exponentLength_of_delimited hrest, Nat.add_zero, ← List.length_append]
    rfl

theorem ofMark?_eq_none (h : c.isDigit = true ∨ c = '.' ∨ isDelimiter c = true) :
    Base.ofMark? c = none := by
  have hne (m : Char) (hm : (m.isDigit || m == '.' || isDelimiter m) = false) : c ≠ m := by
    rintro rfl
    rcases h with h | rfl | h
    · simp [h] at hm
    · cases hm
    · simp [h] at hm
  simp [Base.ofMark?, hne 'x' rfl, hne 'X' rfl, hne 'b' rfl, hne 'B' rfl, hne 'o' rfl, hne 'O' rfl]

theorem based?_eq_none (h : ∀ d ∈ cs.head?, Base.ofMark? d = none) : based? (c :: cs) = none := by
  unfold based?
  split
  case h_1 mark rest heq =>
    cases heq
    rw [h mark rfl]
    rfl
  case h_2 => rfl

/-- The characters of a numeral: digits and a point. -/
theorem isDigit_or_eq_of_mem_numeral {whole fraction : List Char} (hwhole : areDigits whole = true)
    (hfraction : areDigits fraction = true) (hc : c ∈ numeral whole fraction) :
    c.isDigit = true ∨ c = '.' := by
  simp only [areDigits, List.all_eq_true] at hwhole hfraction
  rw [numeral, List.mem_append] at hc
  rcases hc with hc | hc
  · exact .inl (hwhole c hc)
  · split_ifs at hc
    · cases hc
    · rcases List.mem_cons.1 hc with rfl | hc
      · exact .inr rfl
      · exact .inl (hfraction c hc)

theorem piece_number (hc : c.isDigit = true) (hbased : based? (c :: cs) = none) :
    piece c cs = (decimalNumber ((c :: cs).take (decimalLength (c :: cs))),
      decimalLength (c :: cs) - 1) := by
  have hne (d : Char) (hd : d.isDigit = false) : c ≠ d := by
    rintro rfl
    rw [hc] at hd
    cases hd
  have hspace : isSpace c = false := by
    simp [isSpace, hne ' ' rfl, hne '\t' rfl, hne '\r' rfl, hne '\n' rfl, hne '\x0c' rfl]
  have hnumber : startsNumber c cs = true := by
    rw [startsNumber, hc, Bool.true_or]
  simp [piece, hspace, hnumber, hbased, hne '/' rfl, hne '"' rfl, hne '\'' rfl]

theorem lexes_numeral {whole fraction : List Char} (hne : whole ≠ [])
    (hwhole : areDigits whole = true) (hfraction : areDigits fraction = true) {v : Float}
    (hv : (Decimal.read? (numeral whole fraction)).map Decimal.toFloat = some v)
    (hrest : delimited false rest = true) :
    Lexes (numeral whole fraction ++ rest) [.number v] rest := by
  obtain ⟨c, cs, rfl⟩ := List.exists_cons_of_ne_nil hne
  have hlen := decimalLength_numeral hwhole hfraction hrest
  have hchars := fun d => @isDigit_or_eq_of_mem_numeral d _ _ hwhole hfraction
  rw [areDigits, List.all_cons, Bool.and_eq_true] at hwhole
  have hnumeral : numeral (c :: cs) fraction = c :: numeral cs fraction := rfl
  rw [hnumeral] at hlen hchars hv ⊢
  -- no base mark comes second: it is a digit, the point or a delimiter
  have hbased : based? (c :: (numeral cs fraction ++ rest)) = none := by
    refine based?_eq_none fun d hd => ofMark?_eq_none ?_
    cases htail : numeral cs fraction with
    | nil =>
      rw [htail, List.nil_append] at hd
      cases rest with
      | nil => cases hd
      | cons e rest =>
        cases hd
        exact .inr (.inr (isDelimiter_of_delimited hrest))
    | cons e es =>
      rw [htail] at hd hchars
      cases hd
      rcases hchars d (by simp) with h | h
      · exact .inl h
      · exact .inr (.inl h)
  have hline : (c :: numeral cs fraction).filter (· ≠ '_') = c :: numeral cs fraction := by
    rw [List.filter_eq_self]
    intro d hd
    rcases hchars d hd with h | rfl
    · simp only [ne_eq, decide_eq_true_eq]
      rintro rfl
      cases h
    · rfl
  have htake : (c :: (numeral cs fraction ++ rest)).take (c :: numeral cs fraction).length =
      c :: numeral cs fraction := List.take_left
  obtain ⟨d, hread, rfl⟩ := Option.map_eq_some_iff.1 hv
  refine .of_piece ?_
  rw [List.cons_append] at hlen
  rw [piece_number hwhole.1 hbased, hlen, htake, decimalNumber, hline, hread]
  rfl

end Lexer

/-! ### Number texts -/

open Lexer

theorem areDigits_toDigits (n : Nat) : areDigits (Nat.toDigits 10 n) = true :=
  List.all_eq_true.2 fun _ => Nat.isDigit_of_mem_toDigits (by decide) (by decide)

theorem areDigits_replicate (n : Nat) : areDigits (List.replicate n '0') = true := by
  simp [areDigits]

theorem Layout.positional_eq_numeral (d : Decimal) :
    ∃ whole fraction, Layout.positional false d = numeral whole fraction ∧ whole ≠ [] ∧
      areDigits whole = true ∧ areDigits fraction = true ∧
        digitsValue 10 (whole ++ fraction) = d.digits * 10 ^ d.exp.toNat ∧
          fraction.length = (-d.exp).toNat := by
  have hdigits := areDigits_toDigits d.digits
  have hne : Nat.toDigits 10 d.digits ≠ [] := Nat.toDigits_ne_nil
  have hvalue := digitsValue_toDigits 10 d.digits (by decide) (by decide)
  simp only [Layout.positional, Bool.false_eq_true, if_false, List.append_nil]
  generalize Nat.toDigits 10 d.digits = ds at hdigits hne hvalue
  have happend (xs ys : List Char) (hxs : areDigits xs = true) (hys : areDigits ys = true) :
      areDigits (xs ++ ys) = true := by
    rw [areDigits, List.all_append, Bool.and_eq_true]
    exact ⟨hxs, hys⟩
  split_ifs with hexp hplaces
  · refine ⟨ds ++ List.replicate d.exp.toNat '0', [], by simp [numeral], by simp [hne], ?_, rfl,
      ?_, ?_⟩
    · exact happend _ _ hdigits (areDigits_replicate _)
    · rw [List.append_nil, digitsValue_append, hvalue, digitsValue_zeros, List.length_replicate,
        Nat.add_zero]
    · rw [List.length_nil]
      omega
  · -- the point stands inside the digits
    have hzero : d.exp.toNat = 0 := by omega
    have hsplit := List.take_append_drop (ds.length - (-d.exp).toNat) ds
    rw [← hsplit, areDigits, List.all_append, Bool.and_eq_true] at hdigits
    refine ⟨_, _, ?_, ?_, hdigits.1, hdigits.2, ?_, ?_⟩
    · simp [numeral]
      omega
    · simp [hne]
      omega
    · rw [hsplit, hvalue, hzero, Nat.pow_zero, Nat.mul_one]
    · rw [List.length_drop]
      omega
  · have hzero : d.exp.toNat = 0 := by omega
    refine ⟨['0'], List.replicate ((-d.exp).toNat - ds.length) '0' ++ ds, ?_, by simp, rfl,
      happend _ _ (areDigits_replicate _) hdigits, ?_, ?_⟩
    · simp [numeral, hne]
    · have hlead : ['0'] ++ List.replicate ((-d.exp).toNat - ds.length) '0' =
          List.replicate ((-d.exp).toNat - ds.length + 1) '0' := rfl
      rw [← List.append_assoc, hlead, digitsValue_append, digitsValue_zeros, hvalue, hzero,
        Nat.zero_mul, Nat.zero_add, Nat.pow_zero, Nat.mul_one]
    · rw [List.length_append, List.length_replicate]
      omega

/-- The text of a finite number without a minus sign. -/
theorem Layout.write_eq_numeral {v : Float} {mant : Nat} {exp : Int}
    (hv : Parts.of v = .finite false mant exp) :
    ∃ whole fraction, Layout.plain.write v = numeral whole fraction ∧ whole ≠ [] ∧
      areDigits whole = true ∧ areDigits fraction = true := by
  have hwrite : Layout.plain.write v = Layout.plain.magnitude v mant exp := by
    rw [Layout.write, hv]
    rfl
  simp only [hwrite, Layout.magnitude]
  have hpositional (d : Decimal) : ∃ whole fraction, Layout.positional false d =
      numeral whole fraction ∧ whole ≠ [] ∧ areDigits whole = true ∧ areDigits fraction = true := by
    obtain ⟨whole, fraction, h, hne, hwhole, hfraction, -⟩ := Layout.positional_eq_numeral d
    exact ⟨whole, fraction, h, hne, hwhole, hfraction⟩
  split_ifs with hmant hscientific
  · exact hpositional _
  · cases hscientific
  · exact hpositional _

end DeltaForm
