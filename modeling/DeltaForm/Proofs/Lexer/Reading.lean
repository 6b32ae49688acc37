import DeltaForm.Token.Lexer
import DeltaForm.Expr.Parser
import Mathlib.Data.List.Basic
import Mathlib.Data.List.TakeWhile

/-!
# Reading a text token by token

`Lexes cs ts rest` says that the text `cs` starts with the tokens `ts`, with gaps between them and
no fault, and that `rest` comes after them. It composes along the text, so the tokens of a text are
found part by part; what a part has to know about the text after it is only how that starts.

A name goes on as far as it can, and a mark may be the start of a longer one. Names are told by
their characters: `isName_iff`. The tokens of any text, with or without faults, end with the end of
the input, which no piece of a text is (`tokenize_lexemes`).
-/

namespace DeltaForm

namespace Lexer

/-- The text starts with gaps and the tokens `ts`, and goes on with `rest`. -/
inductive Lexes : List Char → List Token → List Char → Prop
  | done (rest : List Char) : Lexes rest [] rest
  | gap {c : Char} {cs : List Char} {n : Nat} {ts : List Token} {rest : List Char}
      (h : piece c cs = (.gap, n)) (hrest : Lexes (cs.drop n) ts rest) : Lexes (c :: cs) ts rest
  | token {c : Char} {cs : List Char} {n : Nat} {t : Token} {ts : List Token} {rest : List Char}
      (h : piece c cs = (.token t, n)) (hrest : Lexes (cs.drop n) ts rest) :
      Lexes (c :: cs) (t :: ts) rest

variable {c : Char} {cs mid rest : List Char} {t : Token} {ts ts' : List Token}

theorem Lexes.trans (h : Lexes cs ts mid) (h' : Lexes mid ts' rest) :
    Lexes cs (ts ++ ts') rest := by
  induction h with
  | done => exact h'
  | gap hp _ ih => exact .gap hp (ih h')
  | token hp _ ih => exact .token hp (ih h')

theorem Lexes.of_piece (h : piece c (cs ++ rest) = (.token t, cs.length)) :
    Lexes (c :: cs ++ rest) [t] rest := by
  have hdone : Lexes ((cs ++ rest).drop cs.length) [] rest := by
    rw [List.drop_left]
    exact .done rest
  exact .token h hdone

theorem lexes_blank (rest : List Char) : Lexes (' ' :: rest) [] rest :=
  .gap (n := 0) rfl (.done rest)

/-! ### The tokens of a source -/

/-- The token that a piece is. -/
def Piece.token? : Piece → Option Token
  | .token t => some t
  | _ => none

/-- Whether a piece is a fault. -/
def Piece.isFault : Piece → Bool
  | .fault _ => true
  | _ => false

theorem Lexes.pieces_eq (h : Lexes cs ts rest) (hrest : rest = []) (offset : Nat) :
    (pieces offset cs).filterMap (·.1.token?) = ts ∧
      ∀ p ∈ pieces offset cs, p.1.isFault = false := by
  induction h generalizing offset with
  | done =>
    subst hrest
    simp [pieces]
  | @gap c cs n _ _ hp _ ih =>
    rw [pieces, hp]
    obtain ⟨htokens, hfaults⟩ := ih hrest (offset + byteLength (c :: cs.take n))
    exact ⟨htokens, List.forall_mem_cons.2 ⟨rfl, hfaults⟩⟩
  | @token c cs n t _ _ hp _ ih =>
    rw [pieces, hp]
    obtain ⟨htokens, hfaults⟩ := ih hrest (offset + byteLength (c :: cs.take n))
    exact ⟨congrArg (t :: ·) htokens, List.forall_mem_cons.2 ⟨rfl, hfaults⟩⟩

theorem upToFaults_eq {n : Nat} {ps : List (Piece × Span)} (h : ∀ p ∈ ps, p.1.isFault = false) :
    upToFaults (n + 1) ps = ps := by
  induction ps with
  | nil => rfl
  | cons p ps ih =>
    obtain ⟨q, span⟩ := p
    rw [List.forall_mem_cons] at h
    cases q with
    | fault f => cases h.1
    | _ => exact congrArg (_ :: ·) (ih h.2)

/-- A text that is read to its end has exactly the tokens read and no faults. -/
theorem tokenize_of_lexes {source : String} (h : Lexes source.toList ts []) :
    (tokenize source).faults = [] ∧ (tokenize source).lexemes.map Lexeme.token = ts ++ [.eof] := by
  obtain ⟨htokens, hfaults⟩ := h.pieces_eq rfl 0
  simp only [tokenize, faultLimit, upToFaults_eq hfaults]
  constructor
  · rw [List.filterMap_eq_nil_iff]
    rintro ⟨q, span⟩ hp
    have := hfaults _ hp
    cases q with
    | fault f => cases this
    | _ => rfl
  · rw [List.map_append, ← htokens, List.map_filterMap]
    congr 1
    refine List.filterMap_congr fun p _ => ?_
    obtain ⟨q, span⟩ := p
    cases q <;> rfl

/-- A text that is one token has this token and no faults. -/
theorem tokenize_of_piece (h : piece c cs = (.token t, cs.length)) :
    tokenize (String.ofList (c :: cs)) =
      { lexemes := [⟨t, ⟨0, byteLength (c :: cs)⟩⟩,
          ⟨.eof, ⟨byteLength (c :: cs), byteLength (c :: cs)⟩⟩]
        faults := [] } := by
  have hpieces : pieces 0 (c :: cs) = [(.token t, ⟨0, byteLength (c :: cs)⟩)] := by
    rw [pieces, h]
    simp [pieces]
  rw [tokenize, String.toList_ofList, hpieces]
  rfl

/-! ### The end of the input -/

/-- No word is the end of the input. -/
theorem ofWord_ne_eof (s : String) : Token.ofWord s ≠ .eof := by
  intro h
  cases hfind : Token.reserved.lookup s with
  | none =>
    rw [Token.ofWord, hfind] at h
    cases h
  | some t =>
    rw [Token.ofWord, hfind] at h
    obtain ⟨k, hmem⟩ : ∃ k, (k, t) ∈ Token.reserved := by
      obtain ⟨l₁, l₂, heq, -⟩ := List.lookup_eq_some_iff.1 hfind
      exact ⟨s, heq ▸ List.mem_append_right _ List.mem_cons_self⟩
    rw [show t = .eof from h] at hmem
    simp [Token.reserved] at hmem

theorem piece_ne_eof (c : Char) (cs : List Char) : (piece c cs).1 ≠ .token .eof := by
  unfold piece
  split
  · simp
  split
  · simp
  split
  · split <;> simp
  split
  · split
    · unfold stringToken
      split <;> simp
    · simp
  split
  · split
    · unfold basedNumber
      split <;> simp
    · simp only [decimalNumber]
      split <;> simp
  split
  · simp only [wordToken]
    split
    · simp
    · simpa using ofWord_ne_eof _
  split <;> simp

theorem pieces_ne_eof {offset : Nat} {cs : List Char} :
    ∀ p ∈ pieces offset cs, p.1 ≠ .token .eof := by
  fun_induction pieces offset cs with
  | case1 => simp
  | case2 offset c cs p n hp stop ih =>
    refine List.forall_mem_cons.2 ⟨?_, ih⟩
    rw [← show (piece c cs).1 = p from congrArg Prod.fst hp]
    exact piece_ne_eof c cs

theorem upToFaults_sublist (n : Nat) (ps : List (Piece × Span)) :
    (upToFaults n ps).Sublist ps := by
  fun_induction upToFaults n ps with
  | case1 => exact List.nil_sublist _
  | case2 => exact List.Sublist.refl _
  | case3 n f s ps ih => exact ih.cons_cons _
  | case4 n q ps _ ih => exact ih.cons_cons _

/-- The end of the input stands after the tokens of a source and nowhere else. -/
theorem tokenize_lexemes (source : String) :
    ∃ init span, (tokenize source).lexemes = init ++ [⟨.eof, span⟩] ∧
      ∀ l ∈ init, l.token ≠ .eof := by
  refine ⟨_, _, rfl, fun l hl => ?_⟩
  obtain ⟨⟨p, s⟩, hp, hl⟩ := List.mem_filterMap.1 hl
  have hne := pieces_ne_eof _ ((upToFaults_sublist ..).mem hp)
  cases p with
  | token t =>
    cases hl
    exact fun ht => hne (congrArg Piece.token ht)
  | _ => cases hl

/-! ### Marks -/

/-- A mark before a blank. -/
theorem lexes_mark_blank (m : Mark) (rest : List Char) :
    Lexes (m.text.toList ++ ' ' :: rest) [.mark m] (' ' :: rest) := by
  obtain ⟨c, cs, htext, hpiece⟩ : ∃ c cs, m.text.toList = c :: cs ∧
      piece c (cs ++ ' ' :: rest) = (.token (.mark m), cs.length) := by
    cases m <;> exact ⟨_, _, rfl, rfl⟩
  rw [htext]
  exact .of_piece hpiece

/-- Whether a mark is the same before every text: it starts no longer mark, comment or number. -/
def isSolitary (m : Mark) : Bool :=
  m ∈ [.plus, .minus, .percent, .caret, .tilde, .colon, .lparen, .rparen, .lbracket, .rbracket,
    .lbrace, .rbrace, .comma, .semi]

theorem lexes_solitary (m : Mark) (c : Char) (hm : isSolitary m = true) (hc : m.text.toList = [c])
    (rest : List Char) : Lexes (c :: rest) [.mark m] rest := by
  have hpiece : piece (m.text.toList.headD ' ') rest = (.token (.mark m), 0) := by
    cases m <;> first | rfl | cases hm
  rw [hc] at hpiece
  exact .token hpiece (.done rest)

theorem lexes_bang (hc : c ≠ '=') (rest : List Char) :
    Lexes ('!' :: c :: rest) [.mark .bang] (c :: rest) := by
  have hne : ('=' == c) = false := by
    rw [beq_eq_false_iff_ne]
    exact hc.symm
  have hmark : Mark.longest? ('!' :: c :: rest) = some .bang := by
    simp [Mark.longest?, Mark.all, Mark.text, List.find?, List.isPrefixOf, hne]
  refine .token (n := 0) ?_ (.done _)
  simp only [piece, hmark]
  rfl

theorem lexes_dot (hc : c.isDigit = false) (rest : List Char) :
    Lexes ('.' :: c :: rest) [.mark .dot] (c :: rest) := by
  have hnumber : startsNumber '.' (c :: rest) = false := by
    simp [startsNumber, hc]
  refine .token (n := 0) ?_ (.done _)
  simp only [piece, hnumber]
  rfl

/-! ### Words -/

/-- Whether a text has the characters of a name. -/
def isWord : List Char → Bool
  | [] => false
  | c :: cs => isNameStart c && cs.all isNamePart

/-- Whether a text does not go on with a word that ends before it. -/
def endsWord (rest : List Char) : Bool :=
  rest.head?.all fun c => !isNamePart c && !startsLikeNamePart c

theorem isDigit_of_isNameStart (h : isNameStart c = true) : c.isDigit = false := by
  by_contra hdigit
  rw [Bool.not_eq_false, Char.isDigit_iff_toNat] at hdigit
  have hdigits : ∀ n < 58, 48 ≤ n → isNameStart (Char.ofNat n) = false := by decide
  have hc := hdigits c.toNat (Nat.lt_succ_of_le hdigit.2) hdigit.1
  rw [Char.ofNat_toNat, h] at hc
  cases hc

theorem piece_word (h : isNameStart c = true) (cs : List Char) :
    piece c cs = (.token (wordToken (c :: cs.takeWhile isNamePart) (cs.dropWhile isNamePart)),
      (cs.takeWhile isNamePart).length) := by
  have hne (d : Char) (hd : isNameStart d = false) : c ≠ d := by
    rintro rfl
    rw [h] at hd
    cases hd
  have hspace : isSpace c = false := by
    simp [isSpace, hne ' ' rfl, hne '\t' rfl, hne '\r' rfl, hne '\n' rfl, hne '\x0c' rfl]
  have hnumber : startsNumber c cs = false := by
    simp [startsNumber, isDigit_of_isNameStart h, hne '.' rfl]
  simp [piece, hspace, hnumber, h, hne '/' rfl, hne '"' rfl, hne '\'' rfl]

theorem isNameStart_of_piece (h : (piece c cs).1 = .token t) (ht : t.propertyName? ≠ none) :
    isNameStart c = true := by
  by_contra hc
  unfold piece at h
  -- every other branch gives a token of a kind that names no property
  split_ifs at h
  · split at h <;> cases h
  · split at h
    · unfold stringToken at h
      split at h <;> cases h
      exact ht rfl
    · cases h
  · split at h
    · unfold basedNumber at h
      split at h <;> cases h
      exact ht rfl
    · simp only [decimalNumber] at h
      split at h <;> cases h
      exact ht rfl
  · split at h <;> cases h
    exact ht rfl

theorem lexes_word {w : List Char} (hw : isWord w = true) (hrest : endsWord rest = true) :
    Lexes (w ++ rest) [.ofWord (String.ofList w)] rest := by
  cases w with
  | nil => cases hw
  | cons c cs =>
    simp only [isWord, Bool.and_eq_true, List.all_eq_true] at hw
    -- the word stops where the rest starts, and what starts there leaves it a reserved word
    have hstop : rest.takeWhile isNamePart = [] ∧ rest.dropWhile isNamePart = rest ∧
        (rest.head?.map startsLikeNamePart).getD false = false := by
      cases rest with
      | nil => exact ⟨rfl, rfl, rfl⟩
      | cons d rest => simp_all [endsWord]
    refine .of_piece ?_
    rw [piece_word hw.1, List.takeWhile_append_of_pos hw.2, List.dropWhile_append_of_pos hw.2,
      hstop.1, hstop.2.1, List.append_nil, wordToken, hstop.2.2]
    rfl

/-! ### Names -/

/-- The text is one token and nothing else. -/
def IsToken (s : String) (t : Token) : Prop := (pieces 0 s.toList).map Prod.fst = [.token t]

/-- The text is one name that is no reserved word. -/
def IsName (s : String) : Prop := IsToken s (.name s)

/-- The text is one name or reserved word, so that it can stand after a point. -/
def IsPropertyName (s : String) : Prop := ∃ t, IsToken s t ∧ t.propertyName? = some s

theorem eq_nil_of_pieces {offset : Nat} (h : pieces offset cs = []) : cs = [] := by
  cases cs with
  | nil => rfl
  | cons c cs =>
    rw [pieces] at h
    cases h

theorem drop_length_takeWhile (p : Char → Bool) (cs : List Char) :
    cs.drop (cs.takeWhile p).length = cs.dropWhile p :=
  (congrArg (List.drop _) List.takeWhile_append_dropWhile.symm).trans List.drop_left

theorem isToken_iff {s : String} (ht : t.propertyName? ≠ none) :
    IsToken s t ↔ isWord s.toList = true ∧ t = .ofWord s := by
  have hs : String.ofList s.toList = s := String.ofList_toList
  unfold IsToken
  cases hchars : s.toList with
  | nil => simp [pieces, isWord]
  | cons c cs =>
    rw [hchars] at hs
    rw [pieces, List.map_cons, List.cons.injEq, List.map_eq_nil_iff, isWord, Bool.and_eq_true,
      List.all_eq_true]
    constructor
    · rintro ⟨hpiece, hrest⟩
      have hstart := isNameStart_of_piece hpiece ht
      rw [piece_word hstart] at hpiece hrest
      -- nothing is left after the word, so all characters belong to it
      have hdrop : cs.dropWhile isNamePart = [] :=
        (drop_length_takeWhile _ cs).symm.trans (eq_nil_of_pieces hrest)
      have hparts := List.dropWhile_eq_nil_iff.1 hdrop
      have htake : cs.takeWhile isNamePart = cs := List.takeWhile_eq_self_iff.2 hparts
      rw [htake, hdrop] at hpiece
      cases hpiece
      exact ⟨⟨hstart, hparts⟩, congrArg Token.ofWord hs⟩
    · rintro ⟨⟨hstart, hparts⟩, rfl⟩
      have htake : cs.takeWhile isNamePart = cs := List.takeWhile_eq_self_iff.2 hparts
      have hdrop : cs.dropWhile isNamePart = [] := List.dropWhile_eq_nil_iff.2 hparts
      rw [piece_word hstart, htake, hdrop, ← hs]
      refine ⟨rfl, ?_⟩
      rw [List.drop_length, pieces]

theorem mem_reserved {s : String} (h : Token.reserved.lookup s = some t) :
    (s, t) ∈ Token.reserved := by
  obtain ⟨l₁, l₂, hl, -⟩ := List.lookup_eq_some_iff.1 h
  rw [hl]
  exact List.mem_append_right _ List.mem_cons_self

theorem propertyName?_ofWord (s : String) : (Token.ofWord s).propertyName? = some s := by
  rw [Token.ofWord]
  cases h : Token.reserved.lookup s with
  | none => rfl
  | some t =>
    have hreserved : ∀ p ∈ Token.reserved, p.2.propertyName? = some p.1 := by decide
    exact hreserved (s, t) (mem_reserved h)

/-- **Names by their characters**: the first can start a name, the others can go on with it, and
the whole is no reserved word. -/
theorem isName_iff {s : String} :
    IsName s ↔ isWord s.toList = true ∧ Token.reserved.lookup s = none := by
  rw [IsName, isToken_iff (by simp [Token.propertyName?])]
  refine and_congr_right fun _ => ?_
  rw [Token.ofWord]
  cases h : Token.reserved.lookup s with
  | none => simp
  | some t =>
    have hreserved : ∀ p ∈ Token.reserved, p.2.sameKind (.name "") = false := by decide
    have ht := hreserved (s, t) (mem_reserved h)
    simp only [Option.getD_some, reduceCtorEq, iff_false]
    rintro rfl
    cases ht

theorem isPropertyName_iff {s : String} : IsPropertyName s ↔ isWord s.toList = true := by
  constructor
  · rintro ⟨t, htoken, ht⟩
    exact ((isToken_iff (by simp [ht])).1 htoken).1
  · intro h
    refine ⟨.ofWord s, (isToken_iff ?_).2 ⟨h, rfl⟩, propertyName?_ofWord s⟩
    simp [propertyName?_ofWord]

/-! ### Delimiters -/

/-- Whether a character ends every word and every number before it. -/
def isDelimiter (c : Char) : Bool := c ∈ [' ', '(', ')', '[', ']', ',', ';']

/-- Whether a text starts with a delimiter, or a point if that is one too, or is empty. -/
def delimited (point : Bool) (rest : List Char) : Bool :=
  rest.head?.all fun c => isDelimiter c || (point && c == '.')

theorem endsWord_of_delimited {point : Bool} (h : delimited point rest = true) :
    endsWord rest = true := by
  cases rest with
  | nil => rfl
  | cons c rest =>
    have hends : ['.', ' ', '(', ')', '[', ']', ',', ';'].all
        (fun c => !isNamePart c && !startsLikeNamePart c) = true := by decide +kernel
    refine List.all_eq_true.1 hends c ?_
    simp only [delimited, isDelimiter, List.head?_cons, Option.all_some, Bool.or_eq_true,
      Bool.and_eq_true, decide_eq_true_eq, beq_iff_eq] at h
    rcases h with h | ⟨-, rfl⟩
    · exact List.mem_cons_of_mem _ h
    · exact List.mem_cons_self

end Lexer

end DeltaForm
