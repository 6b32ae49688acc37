import DeltaForm.Proofs.Lexer.Literals
import DeltaForm.Proofs.Lexer.Spacing
import DeltaForm.Proofs.Number.Decimal
import DeltaForm.Value.Convert

/-!
# Numbers in sources and texts

A number in a source is written in digits with separators, in another base or with an exponent, and
it is read as the number nearest to its value, so it is not negative. Main statements:

* `Lexer.readsAs_text_of_readsAs`: the text of a finite number of a source is read as the same
  number again; that of the infinity is read as a name.
* `Lexer.toNumber_of_readsAs`: the conversion of strings to numbers reads number literals as the
  lexer does. `IsNumeral` is what the two have in common: the literals without separators and their
  numbers.
-/

namespace DeltaForm

open Lexer Number

/-! ### Numbers and their texts -/

namespace Decimal

variable {whole fraction cs : List Char} {d : Decimal}

/-- The value of digits with a fraction. -/
theorem read?_numeral (hne : whole ≠ []) (hwhole : areDigits whole = true)
    (hfraction : areDigits fraction = true) : read? (numeral whole fraction) =
      some ⟨digitsValue 10 (whole ++ fraction), -fraction.length⟩ := by
  have hwhole' : ∀ c ∈ whole, c.isDigit = true := List.all_eq_true.1 hwhole
  have hfraction' : ∀ c ∈ fraction, c.isDigit = true := List.all_eq_true.1 hfraction
  cases fraction with
  | nil =>
    simp [read?, numeral, List.takeWhile_eq_self_iff.2 hwhole', List.dropWhile_eq_nil_iff.2 hwhole',
      hne, exponent?]
  | cons d ds =>
    have hpoint : '.'.isDigit = false := by decide
    simp [read?, numeral, List.takeWhile_append_of_pos hwhole',
      List.dropWhile_append_of_pos hwhole', hpoint, List.takeWhile_eq_self_iff.2 hfraction',
      List.dropWhile_eq_nil_iff.2 hfraction', exponent?]

/-- The text of a finite number without a minus sign reads back as the number. -/
theorem read?_write {v : Float} {mant : ℕ} {exp : ℤ} (hv : Parts.of v = .finite false mant exp) :
    (read? (Layout.plain.write v)).map toFloat = some v := by
  obtain ⟨d, hwrite, hnear⟩ := Layout.write_eq_positional hv
  obtain ⟨whole, fraction, hnumeral, hne, hwhole, hfraction, hdigits, hlength⟩ :=
    Layout.positional_eq_numeral d
  have hvalue : value ⟨d.digits * 10 ^ d.exp.toNat, -(-d.exp).toNat⟩ = d.value := by
    have hexp : d.exp = d.exp.toNat + -((-d.exp).toNat : ℤ) := by omega
    conv_rhs => rw [value, hexp, zpow_add₀ (by norm_num), zpow_natCast]
    simp only [value]
    push_cast
    ring
  rw [hwrite, hnumeral, read?_numeral hne hwhole hfraction, Option.map_some, hdigits, hlength,
    toFloat_eq (hvalue ▸ hnear)]

end Decimal

/-! ### Number tokens -/

namespace Lexer

variable {c : Char} {cs rest : List Char} {n : ℕ} {v : Float}

theorem ofWord_ne_number (s : String) (v : Float) : Token.ofWord s ≠ .number v := by
  intro h
  have hname := propertyName?_ofWord s
  rw [h] at hname
  cases hname

/-- A number is read from a row of digits after a base mark or from a decimal. -/
theorem number_of_piece (h : piece c cs = (.token (.number v), n)) :
    (∃ base run, based? (c :: cs) = some (base, run) ∧ n = run.length + 1 ∧
      base.read? (run.filter (· ≠ '_')) = some v) ∨
    (∃ d, startsNumber c cs = true ∧ n = decimalLength (c :: cs) - 1 ∧
      Decimal.read? (((c :: cs).take (decimalLength (c :: cs))).filter (· ≠ '_')) = some d ∧
        v = d.toFloat) := by
  cases piecePath_of_eq h with
  | @based base run hbased hp hn =>
    rw [basedNumber] at hp
    split at hp
    next w hread =>
      cases hp
      exact .inl ⟨base, run, hbased, hn, hread⟩
    next => cases hp
  | decimal hc hbased hp hn =>
    rw [decimalNumber] at hp
    split at hp
    next d hread =>
      cases hp
      exact .inr ⟨d, hc, hn, hread, rfl⟩
    next => cases hp
  | string _ _ hp =>
    rw [stringToken] at hp
    split at hp <;> cases hp
  | word _ hp =>
    rw [wordToken, Piece.token.injEq] at hp
    split_ifs at hp
    exact absurd hp.symm (ofWord_ne_number _ v)
  | blank _ hp | lineComment _ _ hp | blockComment _ _ _ hp | openComment hp | openString _ hp
  | mark _ hp | unexpected hp => cases hp

/-- A number token is the number nearest to some value, so it is not negative and not NaN. -/
theorem nearest_of_piece (h : piece c cs = (.token (.number v), n)) : ∃ q, Nearest q v := by
  rcases number_of_piece h with ⟨base, run, -, -, hread⟩ | ⟨d, -, -, -, rfl⟩
  · simp only [Base.read?] at hread
    split_ifs at hread
    cases hread
    exact ⟨_, nearest_ofNat _⟩
  · exact ⟨_, d.nearest_toFloat⟩

/-! ### Sources of one token -/

/-- A source is read as one token, and nothing is wrong with it. -/
def ReadsAs (source : String) (t : Token) : Prop :=
  (tokenize source).faults = [] ∧ (tokenize source).lexemes.map Lexeme.token = [t, .eof]

/-- A source that is read as one token has gaps around it. -/
theorem ReadsAs.exists_piece {source : String} {t : Token} (h : ReadsAs source t) :
    ∃ gap c cs gap', source.toList = gap ++ (c :: cs ++ gap') ∧ IsGap (c :: cs ++ gap') gap ∧
      piece c (cs ++ gap') = (.token t, cs.length) ∧ IsGap [] gap' ∧
        (tokenize source).lexemes = [⟨t, ⟨byteLength gap, byteLength gap + byteLength (c :: cs)⟩⟩,
          endOf source] := by
  obtain ⟨hfaults, htokens⟩ := h
  obtain ⟨ls, hls, htiled⟩ := tiled_of_faults_eq_nil hfaults
  have hsingle : ls.map Lexeme.token = [t] := by
    rw [hls, List.map_append] at htokens
    have hconcat : ls.map Lexeme.token ++ [.eof] = [t] ++ [.eof] := htokens
    exact List.append_cancel_right hconcat
  obtain ⟨l, rfl, rfl⟩ := List.map_eq_singleton_iff.1 hsingle
  generalize source.toList = text at htiled ⊢
  cases htiled with
  | @token _ gap cs rest c _ _ hgap hpiece hrest =>
    cases hrest with
    | done hgap' =>
      rw [Nat.zero_add] at hls
      exact ⟨gap, c, cs, rest, rfl, hgap, hpiece, hgap', hls⟩

theorem ReadsAs.nearest {source : String} (h : ReadsAs source (.number v)) : ∃ q, Nearest q v := by
  obtain ⟨gap, c, cs, gap', -, -, hpiece, -⟩ := h.exists_piece
  exact nearest_of_piece hpiece

theorem readsAs_of_lexes {source : String} {t : Token} (h : Lexes source.toList [t] []) :
    ReadsAs source t :=
  tokenize_of_lexes h

theorem readsAs_text {mant : ℕ} {exp : ℤ} (hv : Parts.of v = .finite false mant exp) :
    ReadsAs (Number.text v) (.number v) := by
  obtain ⟨whole, fraction, hwrite, hne, hwhole, hfraction⟩ := Layout.write_eq_numeral hv
  have hread := Decimal.read?_write hv
  rw [hwrite] at hread
  refine readsAs_of_lexes ?_
  rw [Number.text, String.toList_ofList, hwrite, ← List.append_nil (numeral whole fraction)]
  exact lexes_numeral hne hwhole hfraction hread rfl

theorem eq_infinity_of_parts (h : Parts.of v = .infinite false) : v = infinity :=
  Parts.of_injective (h.trans (by decide))

theorem readsAs_infinity : ReadsAs (Number.text infinity) (.name "Infinity") := by
  have htext : Number.text infinity = "Infinity" := by decide +kernel
  have hlexes : Lexes ("Infinity".toList ++ []) [.ofWord (String.ofList "Infinity".toList)] [] :=
    lexes_word rfl rfl
  rw [htext]
  exact readsAs_of_lexes hlexes

/-- **Numbers survive printing.** A number that stands in a source is read back from its text if it
is finite. The only other one is the infinity that a literal beyond all finite numbers is read as;
its text is a name. -/
theorem readsAs_text_of_readsAs {source : String} (h : ReadsAs source (.number v)) :
    (v.isFinite = true → ReadsAs (Number.text v) (.number v)) ∧
      (v.isFinite = false → v = infinity ∧ ReadsAs (Number.text v) (.name "Infinity")) := by
  obtain ⟨q, hq⟩ := h.nearest
  rcases hq.parts with ⟨mant, exp, hparts⟩ | hparts
  · have hfinite : v.isFinite = true := Parts.isFinite_iff.2 ⟨_, _, _, hparts⟩
    exact ⟨fun _ => readsAs_text hparts, fun h => absurd (h.symm.trans hfinite) (by decide)⟩
  · obtain rfl := eq_infinity_of_parts hparts
    exact ⟨fun h => absurd h (by decide), fun _ => ⟨rfl, readsAs_infinity⟩⟩

theorem readsAs_text_separator :
    ReadsAs "1_0.50e-3" (.number (Decimal.toFloat ⟨1050, -5⟩)) ∧
      ReadsAs "0.0105" (.number (Decimal.toFloat ⟨1050, -5⟩)) := by
  have hread : ReadsAs "1_0.50e-3" (.number (Decimal.toFloat ⟨1050, -5⟩)) :=
    readsAs_of_lexes (.token (n := 8) rfl (.done []))
  have htext : Number.text (Decimal.toFloat ⟨1050, -5⟩) = "0.0105" := by decide +kernel
  exact ⟨hread, htext ▸ (readsAs_text_of_readsAs hread).1 (by decide +kernel)⟩

/-- A literal beyond all finite numbers is read as a number, but its text is a name. -/
theorem not_readsAs_text_infinity :
    ReadsAs "1e400" (.number infinity) ∧ ¬ReadsAs (Number.text infinity) (.number infinity) := by
  have hvalue : infinity = Decimal.toFloat ⟨1, 400⟩ := eq_of_toBits (by decide)
  refine ⟨?_, fun h => ?_⟩
  · rw [hvalue]
    exact readsAs_of_lexes (.token (n := 4) rfl (.done []))
  · cases readsAs_infinity.2.symm.trans h.2

end Lexer

/-! ### Characters of numerals -/

/-- The characters of decimals apart from digits. -/
def decimalMarks : List Char := ['.', 'e', 'E', '+', '-']

section

variable {c mark : Char} {cs ds : List Char} {base : Base} {v : Float} {d : Decimal}

theorem isBlank_eq_false (hlt : 0x20 < c.toNat) (hgt : c.toNat < 0x7f) : isBlank c = false := by
  simp [isBlank, blankRanges, Ranges.contains]
  omega

/-- The digits of all bases lie between `0` and `f`. -/
theorem bounds_of_isDigit (hbase : Base.ofMark? mark = some base) (h : base.isDigit c = true) :
    48 ≤ c.toNat ∧ c.toNat ≤ 102 := by
  unfold Base.ofMark? at hbase
  split_ifs at hbase <;> cases hbase
  · simp only [isHexDigit, Bool.or_eq_true, Bool.and_eq_true, decide_eq_true_eq,
      Char.isDigit_iff_toNat, Char.le_def, UInt32.le_iff_toNat_le] at h
    change ((48 ≤ c.toNat ∧ c.toNat ≤ 57) ∨ (97 ≤ c.toNat ∧ c.toNat ≤ 102)) ∨
      (65 ≤ c.toNat ∧ c.toNat ≤ 70) at h
    omega
  · simp only [Bool.or_eq_true, decide_eq_true_eq] at h
    rcases h with rfl | rfl <;> decide
  · simp only [Bool.and_eq_true, decide_eq_true_eq, Char.le_def, UInt32.le_iff_toNat_le] at h
    change 48 ≤ c.toNat ∧ c.toNat ≤ 55 at h
    omega

theorem Decimal.exponent?_chars {e : ℤ} (h : exponent? cs = some e) :
    ∀ c ∈ cs, c.isDigit = true ∨ c ∈ decimalMarks := by
  have hnatural {ds : List Char} (h : exponent?.natural? ds ≠ none) (c : Char) (hc : c ∈ ds) :
      c.isDigit = true ∨ c ∈ decimalMarks := by
    rw [exponent?.natural?] at h
    split_ifs at h with hds
    · rw [Bool.and_eq_true, List.all_eq_true] at hds
      exact .inl (hds.2 c hc)
    · exact absurd rfl h
  rw [exponent?.eq_def] at h
  split at h
  next => simp
  next mark ds =>
    split_ifs at h with hmark
    have hmark' : mark ∈ decimalMarks := by
      rw [Bool.or_eq_true, decide_eq_true_iff, decide_eq_true_iff] at hmark
      rcases hmark with rfl | rfl <;> decide
    refine List.forall_mem_cons.2 ⟨.inr hmark', ?_⟩
    split at h
    · exact List.forall_mem_cons.2 ⟨.inr (by decide), hnatural fun hnone => by simp [hnone] at h⟩
    · exact List.forall_mem_cons.2 ⟨.inr (by decide), hnatural fun hnone => by simp [hnone] at h⟩
    · exact hnatural fun hnone => by simp [hnone] at h

/-- A decimal is made of digits, a point and more digits, and an exponent; the point and the
exponent may be missing, but not all digits. -/
theorem Decimal.exists_of_read? (h : read? cs = some d) : ∃ whole point fraction exponent e,
    cs = whole ++ point ++ fraction ++ exponent ∧ areDigits whole = true ∧
      (point = ['.'] ∨ point = [] ∧ whole ≠ []) ∧ areDigits fraction = true ∧
        exponent? exponent = some e := by
  have hdigits (cs : List Char) : areDigits (cs.takeWhile Char.isDigit) = true :=
    List.all_takeWhile
  have hsplit := List.takeWhile_append_dropWhile (p := Char.isDigit) (l := cs)
  simp only [read?] at h
  split at h
  next r hpoint =>
    split_ifs at h
    obtain ⟨e, he, -⟩ := Option.map_eq_some_iff.1 h
    refine ⟨_, ['.'], _, _, e, ?_, hdigits cs, .inl rfl, hdigits r, he⟩
    rw [List.append_assoc, List.takeWhile_append_dropWhile, List.append_assoc,
      List.singleton_append, ← hpoint, hsplit]
  next =>
    split_ifs at h with hempty
    obtain ⟨e, he, -⟩ := Option.map_eq_some_iff.1 h
    refine ⟨_, [], [], _, e, ?_, hdigits cs, .inr ⟨rfl, by simpa using hempty⟩, rfl, he⟩
    rw [List.append_nil, List.append_nil, hsplit]

theorem Decimal.read?_chars (h : Decimal.read? cs = some d) :
    ∀ c ∈ cs, c.isDigit = true ∨ c ∈ decimalMarks := by
  obtain ⟨whole, point, fraction, exponent, e, rfl, hwhole, hpoint, hfraction, hexponent⟩ :=
    exists_of_read? h
  have hchars := exponent?_chars hexponent
  rw [areDigits, List.all_eq_true] at hwhole hfraction
  intro c hc
  simp only [List.mem_append] at hc
  rcases hc with ((hc | hc) | hc) | hc
  · exact .inl (hwhole c hc)
  · rcases hpoint with rfl | ⟨rfl, -⟩
    · obtain rfl := List.mem_singleton.1 hc
      exact .inr (by decide)
    · cases hc
  · exact .inl (hfraction c hc)
  · exact hchars c hc

theorem Decimal.head_of_read? (h : Decimal.read? (c :: cs) = some d) :
    c.isDigit = true ∨ c = '.' := by
  obtain ⟨whole, point, fraction, exponent, e, hcs, hwhole, hpoint, -⟩ := exists_of_read? h
  cases whole with
  | nil =>
    rcases hpoint with rfl | ⟨-, hne⟩
    · exact .inr (List.cons.inj hcs).1
    · exact absurd rfl hne
  | cons w whole =>
    rw [(List.cons.inj hcs).1]
    exact .inl (List.all_eq_true.1 hwhole w List.mem_cons_self)

theorem bounds_of_isDigit_or_mark (h : c.isDigit = true ∨ c ∈ decimalMarks) :
    43 ≤ c.toNat ∧ c.toNat ≤ 101 ∧ c ≠ '/' ∧ Base.ofMark? c = none := by
  rcases h with h | h
  · have hbounds := Char.isDigit_iff_toNat.1 h
    change 48 ≤ c.toNat ∧ c.toNat ≤ 57 at hbounds
    refine ⟨by omega, by omega, ?_, ofMark?_eq_none (.inl h)⟩
    rintro rfl
    cases h
  · simp only [decimalMarks, List.mem_cons, List.not_mem_nil, or_false] at h
    rcases h with rfl | rfl | rfl | rfl | rfl <;> decide

/-! ### Reading a text as a number -/

/-- A text without separators is a literal of a number: digits after a base mark, or a decimal. -/
inductive IsNumeral : List Char → Float → Prop
  | based {mark : Char} {base : Base} {run : List Char} {v : Float}
    (hbase : Base.ofMark? mark = some base) (hread : base.read? run = some v) :
    IsNumeral ('0' :: mark :: run) v
  | decimal {cs : List Char} {d : Decimal} (hread : Decimal.read? cs = some d) :
    IsNumeral cs d.toFloat

theorem Base.digits_of_read? (h : base.read? cs = some v) :
    cs ≠ [] ∧ ∀ c ∈ cs, base.isDigit c = true := by
  simp only [Base.read?] at h
  split_ifs at h with hcs
  simp only [Bool.and_eq_true, List.all_eq_true] at hcs
  exact ⟨by simpa using hcs.1.1, hcs.1.2⟩

theorem bounds_of_ofMark? (h : Base.ofMark? mark = some base) :
    48 ≤ mark.toNat ∧ mark.toNat ≤ 120 := by
  unfold Base.ofMark? at h
  split_ifs at h with hx hb ho <;> simp only [Bool.or_eq_true, decide_eq_true_eq] at *
  · rcases hx with rfl | rfl <;> decide
  · rcases hb with rfl | rfl <;> decide
  · rcases ho with rfl | rfl <;> decide

/-- The characters of a literal are not blank, and none of them is a slash. -/
theorem IsNumeral.chars (h : IsNumeral cs v) : ∀ c ∈ cs, isBlank c = false ∧ c ≠ '/' := by
  have hbounds {c : Char} (hlt : 48 ≤ c.toNat) (hgt : c.toNat ≤ 120) :
      isBlank c = false ∧ c ≠ '/' := by
    refine ⟨isBlank_eq_false (by omega) (by omega), ?_⟩
    rintro rfl
    exact absurd hlt (by decide)
  cases h with
  | based hbase hread =>
    have hmark := bounds_of_ofMark? hbase
    refine List.forall_mem_cons.2 ⟨by decide, List.forall_mem_cons.2 ⟨hbounds hmark.1 hmark.2, ?_⟩⟩
    intro c hc
    have hdigit := bounds_of_isDigit hbase ((Base.digits_of_read? hread).2 c hc)
    exact hbounds hdigit.1 (by omega)
  | decimal hread =>
    intro c hc
    obtain ⟨hlt, hgt, hslash, -⟩ := bounds_of_isDigit_or_mark (Decimal.read?_chars hread c hc)
    exact ⟨isBlank_eq_false (by omega) (by omega), hslash⟩

theorem IsNumeral.ne_nil (h : IsNumeral cs v) : cs ≠ [] := by
  cases h with
  | based => simp
  | decimal hread =>
    rintro rfl
    cases hread

theorem readBased_eq (hbase : Base.ofMark? mark = some base) (h : base.read? cs = some v) :
    readBased base cs = v := by
  simp only [readBased.eq_def]
  split
  next cs' =>
    have hplus := bounds_of_isDigit hbase ((Base.digits_of_read? h).2 '+' List.mem_cons_self)
    exact absurd hplus.1 (by decide)
  next => rw [h, Option.getD_some]

theorem readUnsigned_eq (h : Decimal.read? cs = some d) : readUnsigned cs = d.toFloat := by
  have hname : cs ≠ "Infinity".toList := by
    rintro rfl
    rcases Decimal.head_of_read? h with h | h
    · exact absurd h (by decide)
    · exact absurd h (by decide)
  rw [readUnsigned, if_neg hname, h]

/-- The literal of a number is read as the number, with or without blanks around it. -/
theorem IsNumeral.read {s : String} (h : IsNumeral (trimBlanks s.toList) v) :
    Number.read s = v := by
  rw [Number.read]
  generalize trimBlanks s.toList = cs at h
  cases h with
  | based hbase hread => simp only [hbase, readBased_eq hbase hread]
  | @decimal cs d hread =>
    split
    next => cases hread
    next mark cs =>
      have hmark := Decimal.read?_chars hread mark (by simp)
      rw [(bounds_of_isDigit_or_mark hmark).2.2.2]
      exact readUnsigned_eq hread
    next cs _ _ =>
      rw [readSigned.eq_def]
      split
      next => exact absurd (Decimal.head_of_read? hread) (by decide)
      next => exact absurd (Decimal.head_of_read? hread) (by decide)
      next => exact readUnsigned_eq hread

theorem trimBlanks_eq {gap gap' : List Char} (hgap : ∀ c ∈ gap, isBlank c = true)
    (hcs : ∀ c ∈ cs, isBlank c = false) (hne : cs ≠ []) (hgap' : ∀ c ∈ gap', isBlank c = true) :
    trimBlanks (gap ++ (cs ++ gap')) = cs := by
  have hkeep (ds : List Char) (hds : ∀ c ∈ ds, isBlank c = false) (hne : ds ≠ [])
      (rest : List Char) : (ds ++ rest).dropWhile isBlank = ds ++ rest := by
    obtain ⟨d, ds, rfl⟩ := List.exists_cons_of_ne_nil hne
    rw [List.cons_append, List.dropWhile_cons_of_neg (by simp [hds d List.mem_cons_self])]
  have hback : ∀ c ∈ gap'.reverse, isBlank c = true := by simpa using hgap'
  have hreverse : cs.reverse.dropWhile isBlank = cs.reverse := by
    have hkept := hkeep cs.reverse (by simpa using hcs) (by simpa using hne) []
    rwa [List.append_nil] at hkept
  rw [trimBlanks, List.dropWhile_append_of_pos hgap, hkeep cs hcs hne, List.reverse_append,
    List.dropWhile_append_of_pos hback, hreverse, List.reverse_reverse]

theorem mem_dropWhile {p : Char → Bool} (hc : c ∈ cs) (hp : p c = false) : c ∈ cs.dropWhile p := by
  rw [← List.takeWhile_append_dropWhile (p := p) (l := cs), List.mem_append] at hc
  refine hc.resolve_left fun htake => ?_
  rw [List.mem_takeWhile_imp htake] at hp
  cases hp

theorem mem_trimBlanks (hc : c ∈ cs) (hblank : isBlank c = false) : c ∈ trimBlanks cs := by
  rw [trimBlanks, List.mem_reverse]
  exact mem_dropWhile (List.mem_reverse.2 (mem_dropWhile hc hblank)) hblank

theorem readUnsigned_of_slash (h : '/' ∈ cs) : readUnsigned cs = nan := by
  have hname : cs ≠ "Infinity".toList := by
    rintro rfl
    exact absurd h (by decide)
  have hread : Decimal.read? cs = none := by
    rw [Option.eq_none_iff_forall_ne_some]
    intro d hd
    exact (IsNumeral.chars (.decimal hd) _ h).2 rfl
  rw [readUnsigned, if_neg hname, hread]

theorem readBased_of_slash (hbase : Base.ofMark? mark = some base) (h : '/' ∈ cs) :
    readBased base cs = nan := by
  have hread {ds : List Char} (hds : '/' ∈ ds) : base.read? ds = none := by
    rw [Option.eq_none_iff_forall_ne_some]
    intro v hv
    exact (IsNumeral.chars (.based hbase hv) '/' (by simp [hds])).2 rfl
  simp only [readBased.eq_def]
  split
  next => rw [hread (by simpa using h), Option.getD_none]
  next => rw [hread h, Option.getD_none]

theorem neg_nan : -nan = nan := eq_of_toBits (by decide)

/-- A text with a slash in it is no number. -/
theorem read_of_slash {s : String} (h : '/' ∈ s.toList) : Number.read s = nan := by
  have hmem := mem_trimBlanks h (by decide)
  rw [Number.read]
  generalize trimBlanks s.toList = cs at hmem
  split
  next => cases hmem
  next mark cs =>
    cases hbase : Base.ofMark? mark with
    | none => exact readUnsigned_of_slash hmem
    | some base =>
      have hne : '/' ≠ mark := by
        rintro rfl
        cases hbase
      exact readBased_of_slash hbase (by simpa [hne] using hmem)
  next cs _ _ =>
    rw [readSigned.eq_def]
    split
    next => exact readUnsigned_of_slash (by simpa using hmem)
    next => rw [readUnsigned_of_slash (by simpa using hmem), neg_nan]
    next => exact readUnsigned_of_slash hmem

end

namespace Lexer

variable {c : Char} {cs rest gap : List Char} {v : Float}

/-- A gap without a comment is made of blanks. -/
theorem IsGap.isBlank (h : IsGap rest gap) (hslash : '/' ∉ gap) : ∀ c ∈ gap, isBlank c = true := by
  induction h with
  | nil => simp
  | blank hc _ ih =>
    rw [List.mem_cons, not_or] at hslash
    have hblank : ∀ c ∈ blanks, DeltaForm.isBlank c = true := forall_mem_blanks.2 (by decide)
    exact List.forall_mem_cons.2 ⟨hblank _ hc, ih hslash.2⟩
  | lineComment | blockComment => simp at hslash

/-- The text of a number token without separators is a literal of the number. -/
theorem isNumeral_of_piece (hline : '_' ∉ c :: cs)
    (h : piece c (cs ++ rest) = (.token (.number v), cs.length)) : IsNumeral (c :: cs) v := by
  have hfilter {ds : List Char} (hds : '_' ∉ ds) : ds.filter (· ≠ '_') = ds := by
    rw [List.filter_eq_self]
    intro d hd
    simp only [ne_eq, decide_eq_true_eq]
    rintro rfl
    exact hds hd
  rcases number_of_piece h with ⟨base, run, hbased, hlen, hread⟩ | ⟨d, hc, hlen, hread, rfl⟩
  · obtain ⟨mark, tail, rfl, hcs, hbase, hrun, -⟩ := eq_of_based?_eq_some hbased
    obtain ⟨cs', rfl⟩ : ∃ cs', cs = mark :: cs' := by
      cases cs with
      | nil => cases hlen
      | cons d ds => exact ⟨ds, by rw [(List.cons.inj hcs).1]⟩
    have htail : cs' ++ rest = tail := (List.cons.inj hcs).2
    have hrun' : run = cs' := by
      have hprefix : run <+: cs' ++ rest := htail ▸ hrun ▸ List.takeWhile_prefix _
      obtain ⟨after, hafter⟩ := hprefix
      exact (List.append_inj hafter (Nat.succ.inj hlen).symm).1
    subst hrun'
    have hline' : '_' ∉ run := fun hmem => hline (by simp [hmem])
    rw [hfilter hline'] at hread
    exact .based hbase hread
  · have htake : (c :: (cs ++ rest)).take (decimalLength (c :: (cs ++ rest))) = c :: cs := by
      have hpos := (decimalLength_pos hc).1
      rw [show decimalLength (c :: (cs ++ rest)) = cs.length + 1 by omega, List.take_succ_cons,
        List.take_left]
    rw [htake, hfilter hline] at hread
    exact .decimal hread

/-- **The two readers of numbers agree.** The text of a number token without separators is read as
the number of the token. So is the whole source, blanks around the token included, unless it has a
comment; a slash in such a source is always part of one. -/
theorem toNumber_of_readsAs {source : String} (hline : '_' ∉ source.toList)
    (h : ReadsAs source (.number v)) :
    ((Value.string source).toNumber = v ↔ '/' ∉ source.toList) ∧
      ∃ s, (tokenize source).lexemes = [⟨.number v, s⟩, endOf source] ∧
        (Value.string (s.text source)).toNumber = v := by
  obtain ⟨q, hq⟩ := h.nearest
  obtain ⟨gap, c, cs, gap', hsource, hgap, hpiece, hgap', hlexemes⟩ := h.exists_piece
  have hnumeral : IsNumeral (c :: cs) v := by
    refine isNumeral_of_piece (fun hmem => hline ?_) hpiece
    rw [hsource]
    exact List.mem_append_right _ (List.mem_append_left _ hmem)
  have hchars := fun d hd => (hnumeral.chars d hd).1
  refine ⟨⟨fun hread hslash => ?_, fun hslash => ?_⟩, _, hlexemes, ?_⟩
  · -- a slash makes the text no number, but every token is one
    exact hq.ne_nan (hread.symm.trans (read_of_slash hslash))
  · have htrim : trimBlanks source.toList = c :: cs := by
      rw [hsource, List.mem_append, List.mem_append, not_or, not_or] at hslash
      rw [hsource]
      exact trimBlanks_eq (hgap.isBlank hslash.1) hchars hnumeral.ne_nil (hgap'.isBlank hslash.2.2)
    exact IsNumeral.read (htrim ▸ hnumeral)
  · have hcuts : Span.Cuts ⟨byteLength gap, byteLength gap + byteLength (c :: cs)⟩ gap (c :: cs)
        gap' source.toList := ⟨by rw [hsource, List.append_assoc], rfl, rfl⟩
    have htrim : trimBlanks (c :: cs) = c :: cs := by
      have htrim : trimBlanks ([] ++ (c :: cs ++ [])) = c :: cs :=
        trimBlanks_eq (by simp) hchars hnumeral.ne_nil (by simp)
      rwa [List.nil_append, List.append_nil] at htrim
    refine IsNumeral.read ?_
    rw [hcuts.text_eq, String.toList_ofList, htrim]
    exact hnumeral

theorem toNumber_of_readsAs_binary :
    ReadsAs "\t0B101 " (.number (Float.ofNat 5)) ∧
      (Value.string "\t0B101 ").toNumber = Float.ofNat 5 := by
  have hread : ReadsAs "\t0B101 " (.number (Float.ofNat 5)) := readsAs_of_lexes
    (.gap (n := 0) rfl (.token (n := 4) rfl (.gap (n := 0) rfl (.done []))))
  exact ⟨hread, (toNumber_of_readsAs (by decide) hread).1.2 (by decide)⟩

/-- A comment after a number is skipped between tokens, but it is part of the text. -/
theorem toNumber_ne_of_comment : '_' ∉ "1//".toList ∧ ReadsAs "1//" (.number (Float.ofNat 1)) ∧
    (Value.string "1//").toNumber ≠ Float.ofNat 1 := by
  have hvalue : Float.ofNat 1 = Decimal.toFloat ⟨1, 0⟩ := eq_of_toBits (by decide)
  refine ⟨by decide, ?_, fun h => ?_⟩
  · rw [hvalue]
    exact readsAs_of_lexes (.token (n := 0) rfl (.gap (n := 1) rfl (.done [])))
  · have hbits := congrArg (fun x : Float => x.toBits.toNat) h
    exact absurd hbits (by decide +kernel)

end Lexer

end DeltaForm
