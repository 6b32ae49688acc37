import DeltaForm.Proofs.Lexer.Reading

/-!
# Tokens tile the source

The pieces of a text stand one after another from its start to its end, and none of them is empty
(`tiles_pieces`). So the tokens of a source, which are some of its pieces, stand in order and do not
overlap, and each of them is cut out of the source between two characters.

Where nothing is wrong with a source, what stands between its tokens is made of blanks and comments
(`IsGap`). `Tiled` says so of a whole text, with the places of the tokens: the text is gap, token,
gap, token, and so on up to a last gap.
-/

namespace DeltaForm

/-! ### Places in a text -/

variable {cs ds before text after source : List Char} {s : Span}

theorem byteLength_append : byteLength (cs ++ ds) = byteLength cs + byteLength ds := by
  induction cs with
  | nil => exact (Nat.zero_add _).symm
  | cons c cs ih => rw [List.cons_append, byteLength, byteLength, ih, Nat.add_assoc]

theorem byteLength_cons_pos {c : Char} : 0 < byteLength (c :: cs) :=
  Nat.add_pos_left (Char.utf8Size_pos c) _

namespace Span

/-- The span covers `text` in a source, which goes on with `after` and starts with `before`. -/
structure Cuts (s : Span) (before text after source : List Char) : Prop where
  source : source = before ++ text ++ after
  start : s.start = byteLength before
  stop : s.stop = byteLength before + byteLength text

/-- The first span ends where the second one starts or before, and it starts before it. -/
def Before (a b : Span) : Prop := a.start < b.start ∧ a.stop ≤ b.start

end Span

namespace Lexer

/-- Spans that are not empty stand one after another from `start` to `stop`, with nothing between
them. -/
def Tiles : Nat → List Span → Nat → Prop
  | start, [], stop => start = stop
  | start, s :: ss, stop => s.start = start ∧ s.start < s.stop ∧ Tiles s.stop ss stop

theorem Tiles.bounds {start stop : Nat} {ss : List Span} (h : Tiles start ss stop) :
    start ≤ stop ∧ ∀ s ∈ ss, start ≤ s.start ∧ s.start < s.stop ∧ s.stop ≤ stop := by
  induction ss generalizing start with
  | nil => exact ⟨Nat.le_of_eq h, by simp⟩
  | cons s ss ih =>
    obtain ⟨hstart, hlt, hrest⟩ := h
    obtain ⟨hstop, hbounds⟩ := ih hrest
    refine ⟨by omega, List.forall_mem_cons.2 ⟨by omega, fun s' hs' => ?_⟩⟩
    have := hbounds s' hs'
    omega

theorem Tiles.pairwise {start stop : Nat} {ss : List Span} (h : Tiles start ss stop) :
    ss.Pairwise Span.Before := by
  induction ss generalizing start with
  | nil => exact .nil
  | cons s ss ih =>
    obtain ⟨-, hlt, hrest⟩ := h
    refine .cons (fun s' hs' => ?_) (ih hrest)
    have hle := (hrest.bounds.2 s' hs').1
    exact ⟨Nat.lt_of_lt_of_le hlt hle, hle⟩

/-! ### The pieces of a text -/

variable {c : Char} {rest gap : List Char} {t : Token} {n offset : Nat}

/-- The ways to read a piece that starts with `c` and takes `n` characters of `cs`. -/
inductive PiecePath (c : Char) (cs : List Char) (p : Piece) (n : Nat) : Prop
  | blank (hc : isSpace c = true) (hp : p = .gap) (hn : n = 0)
  | lineComment (hc : c = '/') (hcs : cs.head? = some '/') (hp : p = .gap)
    (hn : n = (cs.takeWhile (· ≠ '\n')).length)
  | blockComment {k : Nat} (hc : c = '/') (hcs : cs.head? = some '*')
    (hk : commentLength? (cs.drop 1) = some k) (hp : p = .gap) (hn : n = k + 1)
  | openComment (hp : p = .fault .openComment) (hn : n = cs.length)
  | string (hc : c = '"' ∨ c = '\'') (hlen : stringLength c cs = (true, n))
    (hp : p = stringToken (cs.take (n - 1)))
  | openString (hlen : stringLength c cs = (false, n)) (hp : p = .fault (.unexpected c))
  | based {base : Base} {run : List Char} (hbased : based? (c :: cs) = some (base, run))
    (hp : p = basedNumber base run) (hn : n = run.length + 1)
  | decimal (hc : startsNumber c cs = true) (hbased : based? (c :: cs) = none)
    (hp : p = decimalNumber ((c :: cs).take (decimalLength (c :: cs))))
    (hn : n = decimalLength (c :: cs) - 1)
  | word (hc : isNameStart c = true)
    (hp : p = .token (wordToken (c :: cs.takeWhile isNamePart) (cs.dropWhile isNamePart)))
    (hn : n = (cs.takeWhile isNamePart).length)
  | mark {m : Mark} (hm : Mark.longest? (c :: cs) = some m) (hp : p = .token (.mark m))
    (hn : n = m.text.length - 1)
  | unexpected (hp : p = .fault (.unexpected c)) (hn : n = 0)

theorem piecePath (c : Char) (cs : List Char) : PiecePath c cs (piece c cs).1 (piece c cs).2 := by
  unfold piece
  split_ifs with hblank hline hblock hquote hnumber hname
  · exact .blank hblank rfl rfl
  · simp only [Bool.and_eq_true, decide_eq_true_eq] at hline
    exact .lineComment hline.1 hline.2 rfl rfl
  · simp only [Bool.and_eq_true, decide_eq_true_eq] at hblock
    split
    · rename_i k hk
      exact .blockComment hblock.1 hblock.2 hk rfl rfl
    · exact .openComment rfl rfl
  · simp only [Bool.or_eq_true, decide_eq_true_eq] at hquote
    split
    · rename_i n hlen
      exact .string hquote hlen rfl
    · rename_i n hlen
      exact .openString hlen rfl
  · split
    · rename_i base run hbased
      exact .based hbased rfl rfl
    · rename_i hbased
      exact .decimal hnumber hbased rfl rfl
  · exact .word hname rfl rfl
  · split
    · rename_i m hm
      exact .mark hm rfl rfl
    · exact .unexpected rfl rfl

theorem piecePath_of_eq {p : Piece} (h : piece c cs = (p, n)) : PiecePath c cs p n := by
  have hpath := piecePath c cs
  rwa [h] at hpath

/-! ### How far a piece reaches -/

theorem commentLength?_eq_some (h : commentLength? cs = some n) :
    ∃ body rest, cs = body ++ '*' :: '/' :: rest ∧ n = body.length + 2 ∧
      ¬ ['*', '/'] <:+: body := by
  fun_induction commentLength? cs generalizing n with
  | case1 rest =>
    cases h
    exact ⟨[], rest, rfl, rfl, by simp⟩
  | case2 c cs hne ih =>
    obtain ⟨k, hk, rfl⟩ := Option.map_eq_some_iff.1 h
    obtain ⟨body, rest, rfl, rfl, hbody⟩ := ih hk
    refine ⟨c :: body, rest, rfl, rfl, fun hinfix => ?_⟩
    rcases List.infix_cons_iff.1 hinfix with hstart | hlater
    · -- the comment would have ended here
      obtain ⟨tail, htail⟩ := hstart
      cases htail
      exact hne _ rfl rfl
    · exact hbody hlater
  | case3 => cases h

theorem stringLength_le (quote : Char) (cs : List Char) :
    (stringLength quote cs).2 ≤ cs.length := by
  fun_induction stringLength quote cs with
  | case1 => exact Nat.le_refl _
  | case2 => simp
  | case3 c cs hc closed n hlen ih =>
    rw [hlen] at ih
    exact Nat.add_le_add_right ih 2
  | case4 => simp
  | case5 => simp
  | case6 c cs _ _ _ closed n hlen ih =>
    rw [hlen] at ih
    exact Nat.add_le_add_right ih 1

theorem eq_of_based?_eq_some {base : Base} {run : List Char}
    (h : based? (c :: cs) = some (base, run)) :
    ∃ mark rest, c = '0' ∧ cs = mark :: rest ∧ Base.ofMark? mark = some base ∧
      run = rest.takeWhile (fun d => base.isDigit d || d = '_') ∧ run ≠ [] := by
  unfold based? at h
  split at h
  · rename_i mark rest heq
    cases heq
    obtain ⟨base', hbase, hrun⟩ := Option.bind_eq_some_iff.1 h
    simp only at hrun
    split_ifs at hrun with hempty
    cases hrun
    exact ⟨mark, rest, rfl, rfl, hbase, rfl, by simpa using hempty⟩
  · cases h

theorem length_takeWhile_le (p : Char → Bool) (cs : List Char) :
    (cs.takeWhile p).length ≤ cs.length :=
  (List.takeWhile_sublist p).length_le

theorem fractionLength_le (cs : List Char) : fractionLength cs ≤ cs.length := by
  unfold fractionLength
  split
  · rename_i d rest
    have hrun := length_takeWhile_le isDigitOrLine rest
    simp only [List.length_cons]
    split_ifs <;> omega
  · exact Nat.zero_le _

/-- The length of a sign that a text starts with, or zero. -/
def signLength (cs : List Char) : Nat :=
  match cs with
  | '+' :: _ => 1
  | '-' :: _ => 1
  | _ => 0

theorem exponentLength_cons (mark : Char) (cs : List Char) :
    exponentLength (mark :: cs) =
      if mark = 'e' || mark = 'E' then
        let digits := ((cs.drop (signLength cs)).takeWhile Char.isDigit).length
        if digits = 0 then 0 else 1 + signLength cs + digits
      else 0 := rfl

theorem exponentLength_le (cs : List Char) : exponentLength cs ≤ cs.length := by
  cases cs with
  | nil => exact Nat.le_refl _
  | cons mark cs =>
    have hrun := length_takeWhile_le Char.isDigit (cs.drop (signLength cs))
    rw [List.length_drop] at hrun
    rw [exponentLength_cons, List.length_cons]
    simp only
    split_ifs <;> omega

theorem decimalLength_le (cs : List Char) : decimalLength cs ≤ cs.length := by
  have hwhole := length_takeWhile_le isDigitOrLine cs
  have hfraction := fractionLength_le (cs.drop (cs.takeWhile isDigitOrLine).length)
  have hexponent := exponentLength_le (cs.drop ((cs.takeWhile isDigitOrLine).length +
    fractionLength (cs.drop (cs.takeWhile isDigitOrLine).length)))
  rw [List.length_drop] at hfraction hexponent
  simp only [decimalLength]
  omega

theorem isPrefix_of_longest? {m : Mark} (h : Mark.longest? cs = some m) : m.text.toList <+: cs := by
  have := List.find?_some h
  exact List.isPrefixOf_iff_prefix.1 this

/-- A piece stays within the text. -/
theorem piece_snd_le (c : Char) (cs : List Char) : (piece c cs).2 ≤ cs.length := by
  cases piecePath c cs with
  | blank _ _ hn | openComment _ hn | unexpected _ hn => omega
  | lineComment _ _ _ hn | word _ _ hn =>
    rw [hn]
    exact length_takeWhile_le _ cs
  | blockComment _ hcs hk _ hn =>
    obtain ⟨body, rest, htail, rfl, -⟩ := commentLength?_eq_some hk
    have hlen := congrArg List.length htail
    simp only [List.length_drop, List.length_append, List.length_cons] at hlen
    omega
  | string _ hlen | openString hlen =>
    have hle := stringLength_le c cs
    rwa [hlen] at hle
  | based hbased _ hn =>
    obtain ⟨mark, rest, -, rfl, -, rfl, -⟩ := eq_of_based?_eq_some hbased
    rw [hn]
    exact Nat.succ_le_succ (length_takeWhile_le _ rest)
  | decimal _ _ _ hn =>
    have hle := decimalLength_le (c :: cs)
    rw [List.length_cons] at hle
    omega
  | mark hm _ hn =>
    have hle := (isPrefix_of_longest? hm).length_le
    rw [String.length_toList, List.length_cons] at hle
    omega

theorem tiles_pieces (offset : Nat) (cs : List Char) :
    Tiles offset ((pieces offset cs).map Prod.snd) (offset + byteLength cs) := by
  fun_induction pieces offset cs with
  | case1 => rfl
  | case2 offset c cs p n hp stop ih =>
    have hsplit : byteLength (c :: cs) = byteLength (c :: cs.take n) + byteLength (cs.drop n) := by
      rw [← byteLength_append, List.cons_append, List.take_append_drop]
    refine ⟨rfl, Nat.lt_add_of_pos_right byteLength_cons_pos, ?_⟩
    rw [hsplit, ← Nat.add_assoc]
    exact ih

/-- Every piece is cut out of the text. -/
theorem exists_cuts_of_mem_pieces (offset : Nat) (cs : List Char) :
    ∀ p ∈ pieces offset cs, ∃ before text after, cs = before ++ text ++ after ∧
      p.2 = ⟨offset + byteLength before, offset + byteLength before + byteLength text⟩ := by
  fun_induction pieces offset cs with
  | case1 => simp
  | case2 offset c cs q n hq stop ih =>
    refine List.forall_mem_cons.2 ⟨⟨[], c :: cs.take n, cs.drop n, ?_, rfl⟩, fun p hp => ?_⟩
    · rw [List.nil_append, List.cons_append, List.take_append_drop]
    · obtain ⟨before, text, after, htext, hspan⟩ := ih p hp
      refine ⟨c :: cs.take n ++ before, text, after, ?_, ?_⟩
      · rw [List.append_assoc, List.append_assoc, ← List.append_assoc before, ← htext,
          List.cons_append, List.take_append_drop]
      · rw [hspan, byteLength_append, ← Nat.add_assoc]

/-- The token that a piece is, with its place. -/
def lexeme? (p : Piece × Span) : Option Lexeme := p.1.token?.map (⟨·, p.2⟩)

/-- The fault that a piece is, with its place. -/
def diagnostic? (p : Piece × Span) : Option Diagnostic :=
  match p.1 with
  | .fault f => some (f.diagnostic p.2)
  | _ => none

/-- The pieces of a source that are looked at. -/
def readPieces (source : String) : List (Piece × Span) :=
  upToFaults faultLimit (pieces 0 source.toList)

/-- The end of the input of a source. -/
def endOf (source : String) : Lexeme :=
  ⟨.eof, ⟨byteLength source.toList, byteLength source.toList⟩⟩

theorem lexemes_tokenize (source : String) :
    (tokenize source).lexemes = (readPieces source).filterMap lexeme? ++ [endOf source] := by
  refine congrArg (· ++ _) (List.filterMap_congr fun p _ => ?_)
  obtain ⟨q, s⟩ := p
  cases q <;> rfl

theorem faults_tokenize (source : String) :
    (tokenize source).faults = (readPieces source).filterMap diagnostic? := by
  refine List.filterMap_congr fun p _ => ?_
  obtain ⟨q, s⟩ := p
  cases q <;> rfl

theorem spans_lexeme?_sublist (ps : List (Piece × Span)) :
    ((ps.filterMap lexeme?).map Lexeme.span).Sublist (ps.map Prod.snd) := by
  induction ps with
  | nil => exact .slnil
  | cons p ps ih =>
    obtain ⟨q, s⟩ := p
    cases q with
    | token t => exact ih.cons_cons _
    | _ => exact ih.cons _

theorem length_faults_le (n : Nat) (ps : List (Piece × Span)) :
    ((upToFaults n ps).filterMap diagnostic?).length ≤ n := by
  fun_induction upToFaults n ps with
  | case1 => exact Nat.le_refl _
  | case2 => exact Nat.zero_le _
  | case3 n f s ps ih => exact Nat.succ_le_succ ih
  | case4 n q ps hq ih =>
    obtain ⟨q, s⟩ := q
    cases q with
    | fault f => exact absurd rfl (hq f s)
    | _ => exact ih

/-! ### Gaps -/

/-- The characters that may stand between tokens. -/
def blanks : List Char := [' ', '\t', '\r', '\n', '\x0c']

theorem isSpace_iff : isSpace c = true ↔ c ∈ blanks := by
  simp [isSpace, blanks, or_assoc]

/-- A text before `rest` is made of blanks and comments. A comment that starts with `//` goes on to
the end of its line, or to the end of the source; one that starts with `/*` goes on to the first
`*/`. -/
inductive IsGap (rest : List Char) : List Char → Prop
  | nil : IsGap rest []
  | blank {c : Char} {gap : List Char} (hc : c ∈ blanks) (h : IsGap rest gap) :
    IsGap rest (c :: gap)
  | lineComment {body gap : List Char} (hbody : '\n' ∉ body)
    (hend : ∀ c ∈ (gap ++ rest).head?, c = '\n') (h : IsGap rest gap) :
    IsGap rest ('/' :: '/' :: body ++ gap)
  | blockComment {body gap : List Char} (hbody : ¬ ['*', '/'] <:+: body) (h : IsGap rest gap) :
    IsGap rest ('/' :: '*' :: body ++ '*' :: '/' :: gap)

theorem head?_dropWhile_line (cs : List Char) :
    ∀ c ∈ (cs.dropWhile (· ≠ '\n')).head?, c = '\n' := by
  intro c hc
  have hhead := List.head?_dropWhile_not (· ≠ '\n') cs
  rw [Option.mem_def.1 hc] at hhead
  simpa using hhead

theorem stringToken_ne_gap (body : List Char) : stringToken body ≠ .gap := by
  unfold stringToken
  split <;> simp

theorem basedNumber_ne_gap (base : Base) (run : List Char) : basedNumber base run ≠ .gap := by
  unfold basedNumber
  split <;> simp

theorem decimalNumber_ne_gap (lexeme : List Char) : decimalNumber lexeme ≠ .gap := by
  unfold decimalNumber
  split <;> simp

theorem eq_cons_of_head? (h : cs.head? = some c) : ∃ ds, cs = c :: ds := by
  cases cs with
  | nil => cases h
  | cons d ds =>
    cases h
    exact ⟨ds, rfl⟩

/-- A piece that is a gap, before more of them. -/
theorem IsGap.of_piece (h : piece c cs = (.gap, n)) (hcs : cs.drop n = gap ++ rest)
    (hgap : IsGap rest gap) : IsGap rest (c :: cs.take n ++ gap) := by
  cases piecePath_of_eq h with
  | blank hc _ hn =>
    subst hn
    exact .blank (isSpace_iff.1 hc) hgap
  | lineComment hc hhead _ hn =>
    obtain ⟨ds, rfl⟩ := eq_cons_of_head? hhead
    have hline : ('/' :: ds).takeWhile (· ≠ '\n') = '/' :: ds.takeWhile (· ≠ '\n') := rfl
    have htake : ds.takeWhile (· ≠ '\n') = ds.take (ds.takeWhile (· ≠ '\n')).length :=
      List.prefix_iff_eq_take.1 (List.takeWhile_prefix _)
    subst hc hn
    rw [hline, List.length_cons, List.drop_succ_cons, drop_length_takeWhile] at hcs
    rw [hline, List.length_cons, List.take_succ_cons, ← htake]
    refine .lineComment (fun hmem => ?_) (hcs ▸ head?_dropWhile_line ds) hgap
    simpa using List.mem_takeWhile_imp hmem
  | blockComment hc hhead hk _ hn =>
    obtain ⟨ds, rfl⟩ := eq_cons_of_head? hhead
    obtain ⟨body, tail, htext, rfl, hbody⟩ := commentLength?_eq_some hk
    rw [List.drop_one, List.tail_cons] at htext
    subst hc hn htext
    have htake : ('*' :: (body ++ '*' :: '/' :: tail)).take (body.length + 2 + 1) =
        '*' :: body ++ ['*', '/'] := by
      rw [List.take_succ_cons, List.take_length_add_append]
      rfl
    rw [htake]
    simpa using IsGap.blockComment hbody hgap
  | string _ _ hp => exact absurd hp.symm (stringToken_ne_gap _)
  | based _ hp => exact absurd hp.symm (basedNumber_ne_gap _ _)
  | decimal _ _ hp => exact absurd hp.symm (decimalNumber_ne_gap _)
  | openComment hp | openString _ hp | word _ hp | mark _ hp | unexpected hp => cases hp

/-! ### Texts without faults -/

/-- A text at an offset is made of gaps and tokens in turn, from a gap to a gap, and `ls` are the
tokens with their places. -/
inductive Tiled : Nat → List Char → List Lexeme → Prop
  | done {offset : Nat} {gap : List Char} (hgap : IsGap [] gap) : Tiled offset gap []
  | token (offset : Nat) {gap cs rest : List Char} {c : Char} {t : Token} {ls : List Lexeme}
    (hgap : IsGap (c :: cs ++ rest) gap) (ht : piece c (cs ++ rest) = (.token t, cs.length))
    (hrest : Tiled (offset + byteLength gap + byteLength (c :: cs)) rest ls) :
    Tiled offset (gap ++ (c :: cs ++ rest))
      (⟨t, ⟨offset + byteLength gap, offset + byteLength gap + byteLength (c :: cs)⟩⟩ :: ls)

variable {ls : List Lexeme}

theorem Tiled.after_gap (h : piece c cs = (.gap, n))
    (hrest : Tiled (offset + byteLength (c :: cs.take n)) (cs.drop n) ls) :
    Tiled offset (c :: cs) ls := by
  have htext : c :: cs = c :: cs.take n ++ cs.drop n := by
    rw [List.cons_append, List.take_append_drop]
  rw [htext]
  generalize hdrop : cs.drop n = tail at hrest
  cases hrest with
  | done hgap =>
    refine .done (IsGap.of_piece h ?_ hgap)
    rw [hdrop, List.append_nil]
  | @token _ gap _ _ _ _ _ hgap ht hrest =>
    have hoffset : offset + byteLength (c :: cs.take n) + byteLength gap =
        offset + byteLength (c :: cs.take n ++ gap) := by
      rw [byteLength_append, Nat.add_assoc]
    rw [hoffset] at hrest ⊢
    rw [← List.append_assoc]
    exact .token offset (IsGap.of_piece h hdrop hgap) ht hrest

/-- Pieces without faults are gaps and tokens in turn. -/
theorem tiled_pieces (offset : Nat) (cs : List Char)
    (h : ∀ p ∈ pieces offset cs, p.1.isFault = false) :
    Tiled offset cs ((pieces offset cs).filterMap lexeme?) := by
  fun_induction pieces offset cs with
  | case1 => exact .done .nil
  | case2 offset c cs p n hp stop ih =>
    obtain ⟨hhere, hrest⟩ := List.forall_mem_cons.1 h
    have hrest := ih hrest
    cases p with
    | gap => exact .after_gap hp hrest
    | token t =>
      have hle := piece_snd_le c cs
      rw [hp] at hle
      have hlen : (cs.take n).length = n := List.length_take_of_le hle
      have htoken : piece c (cs.take n ++ cs.drop n) = (.token t, (cs.take n).length) := by
        rw [List.take_append_drop, hlen, hp]
      have := Tiled.token offset .nil htoken hrest
      rw [List.nil_append, List.cons_append, List.take_append_drop] at this
      exact this
    | fault f => cases hhere

/-- The spans between tokens, before the first one from `start` on, and after the last one up to
`stop`. -/
def spansBetween (start : Nat) (ls : List Lexeme) (stop : Nat) : List Span :=
  match ls with
  | [] => [⟨start, stop⟩]
  | l :: ls => ⟨start, l.span.start⟩ :: spansBetween l.span.stop ls stop

theorem spansBetween_concat (start : Nat) (ls : List Lexeme) (l : Lexeme) (stop : Nat) :
    spansBetween start (ls ++ [l]) stop =
      spansBetween start ls l.span.start ++ [⟨l.span.stop, stop⟩] := by
  induction ls generalizing start with
  | nil => rfl
  | cons l' ls ih => rw [List.cons_append, spansBetween, ih, spansBetween, List.cons_append]

/-- What stands in a source at a span is made of blanks and comments. -/
def GapAt (source : List Char) (s : Span) : Prop :=
  ∃ before gap after, s.Cuts before gap after source ∧ IsGap after gap

theorem Tiled.gapAt (before : List Char) {stop : Nat} (h : Tiled (byteLength before) cs ls)
    (hsource : before ++ cs = source) (hstop : byteLength source = stop) :
    ∀ s ∈ spansBetween (byteLength before) ls stop, GapAt source s := by
  generalize hoffset : byteLength before = offset at h
  induction h generalizing before with
  | @done offset gap hgap =>
    subst hoffset hstop hsource
    refine List.forall_mem_singleton.2 ⟨before, gap, [], ⟨?_, rfl, byteLength_append⟩, hgap⟩
    rw [List.append_nil]
  | @token offset gap cs rest c t ls hgap ht hrest ih =>
    subst hoffset
    rw [← List.append_assoc] at hsource
    refine List.forall_mem_cons.2 ⟨⟨before, gap, c :: cs ++ rest, ⟨?_, rfl, rfl⟩, hgap⟩, ?_⟩
    · exact hsource.symm
    · refine ih (before ++ gap ++ c :: cs) ?_ ?_
      · rw [List.append_assoc, hsource]
      · rw [byteLength_append, byteLength_append]

/-! ### The tokens of a source -/

theorem upToFaults_eq_self {n : Nat} {ps : List (Piece × Span)}
    (h : (upToFaults (n + 1) ps).filterMap diagnostic? = []) :
    upToFaults (n + 1) ps = ps ∧ ∀ p ∈ ps, p.1.isFault = false := by
  induction ps with
  | nil => exact ⟨rfl, by simp⟩
  | cons p ps ih =>
    obtain ⟨q, s⟩ := p
    cases q with
    | fault f => cases h
    | gap | token t =>
      obtain ⟨heq, hfaults⟩ := ih h
      exact ⟨congrArg (_ :: ·) heq, List.forall_mem_cons.2 ⟨rfl, hfaults⟩⟩

theorem tiled_of_faults_eq_nil {source : String} (h : (tokenize source).faults = []) :
    ∃ ls, (tokenize source).lexemes = ls ++ [endOf source] ∧ Tiled 0 source.toList ls := by
  rw [faults_tokenize] at h
  obtain ⟨heq, hfaults⟩ := upToFaults_eq_self h
  refine ⟨_, lexemes_tokenize source, ?_⟩
  rw [readPieces, faultLimit, heq]
  exact tiled_pieces 0 source.toList hfaults

theorem mem_pieces_of_mem_lexemes {source : String} {l : Lexeme}
    (h : l ∈ (readPieces source).filterMap lexeme?) :
    (.token l.token, l.span) ∈ pieces 0 source.toList := by
  obtain ⟨⟨q, s⟩, hmem, hl⟩ := List.mem_filterMap.1 h
  cases q with
  | token t =>
    cases hl
    exact (upToFaults_sublist ..).mem hmem
  | gap | fault => cases hl

theorem bounds_of_mem_lexemes {source : String} {l : Lexeme}
    (h : l ∈ (readPieces source).filterMap lexeme?) :
    l.span.start < l.span.stop ∧ l.span.stop ≤ byteLength source.toList := by
  have hmem := List.mem_map_of_mem (f := Prod.snd) (mem_pieces_of_mem_lexemes h)
  have hbounds := (tiles_pieces 0 source.toList).bounds.2 _ hmem
  rw [Nat.zero_add] at hbounds
  exact hbounds.2

/-- The tokens of a source stand in order, the end of the input after all others. -/
theorem pairwise_spans_tokenize (source : String) :
    ((tokenize source).lexemes.map Lexeme.span).Pairwise Span.Before := by
  have hpieces := ((spans_lexeme?_sublist (readPieces source)).trans
    ((upToFaults_sublist _ _).map Prod.snd))
  have hinit := (tiles_pieces 0 source.toList).pairwise.sublist hpieces
  rw [lexemes_tokenize, List.map_append, List.pairwise_append]
  refine ⟨hinit, List.pairwise_singleton _ _, fun a ha b hb => ?_⟩
  obtain ⟨l, hl, rfl⟩ := List.mem_map.1 ha
  obtain rfl := List.mem_singleton.1 hb
  have hbounds := bounds_of_mem_lexemes hl
  exact ⟨Nat.lt_of_lt_of_le hbounds.1 hbounds.2, hbounds.2⟩

theorem exists_cuts_of_mem_lexemes {source : String} {l : Lexeme}
    (h : l ∈ (tokenize source).lexemes) :
    ∃ before text after, l.span.Cuts before text after source.toList := by
  rw [lexemes_tokenize, List.mem_append] at h
  rcases h with h | h
  · have hmem := mem_pieces_of_mem_lexemes h
    obtain ⟨before, text, after, htext, hspan⟩ := exists_cuts_of_mem_pieces 0 _ _ hmem
    simp only [Nat.zero_add] at hspan
    exact ⟨before, text, after, htext, by rw [hspan], by rw [hspan]⟩
  · obtain rfl := List.mem_singleton.1 h
    exact ⟨source.toList, [], [], by simp, rfl, rfl⟩

/-- **Tokens tile the source.** They are cut out of it between characters, in order and without
overlap, and only the end of the input is empty; at most twenty faults are told. If there is none,
blanks and comments are all that stands before, between and after the tokens. -/
theorem tokenize_tiles (source : String) :
    (∀ l ∈ (tokenize source).lexemes, ∃ before text after,
      l.span.Cuts before text after source.toList) ∧
    ((tokenize source).lexemes.map Lexeme.span).Pairwise Span.Before ∧
    (∃ init, (tokenize source).lexemes = init ++ [endOf source] ∧
      ∀ l ∈ init, l.token ≠ .eof ∧ l.span.start < l.span.stop) ∧
    (tokenize source).faults.length ≤ 20 ∧
    ((tokenize source).faults = [] →
      ∀ s ∈ spansBetween 0 (tokenize source).lexemes (byteLength source.toList),
        GapAt source.toList s) := by
  refine ⟨fun l => exists_cuts_of_mem_lexemes, pairwise_spans_tokenize source,
    ⟨_, lexemes_tokenize source, fun l hl => ⟨?_, (bounds_of_mem_lexemes hl).1⟩⟩, ?_,
    fun hfaults => ?_⟩
  · have hne := pieces_ne_eof _ (mem_pieces_of_mem_lexemes hl)
    exact fun heof => hne (congrArg Piece.token heof)
  · rw [faults_tokenize]
    exact length_faults_le 20 _
  · obtain ⟨ls, hls, htiled⟩ := tiled_of_faults_eq_nil hfaults
    rw [hls, spansBetween_concat, List.forall_mem_append, List.forall_mem_singleton]
    refine ⟨Tiled.gapAt [] htiled rfl rfl, source.toList, [], [], ⟨?_, rfl, rfl⟩, .nil⟩
    rw [List.append_nil, List.append_nil]

/-- A comment of each kind between tokens, after a name of two bytes. -/
theorem tokenize_tiles_comments :
    (tokenize "é/* + */ +// x\n1").lexemes =
      [⟨.name "é", ⟨0, 2⟩⟩, ⟨.mark .plus, ⟨10, 11⟩⟩, ⟨.number 1, ⟨16, 17⟩⟩, ⟨.eof, ⟨17, 17⟩⟩] ∧
      (tokenize "é/* + */ +// x\n1").faults = [] ∧
      ∀ s ∈ [⟨0, 0⟩, ⟨2, 10⟩, ⟨11, 16⟩, ⟨17, 17⟩, ⟨17, 17⟩],
        GapAt "é/* + */ +// x\n1".toList s := by
  have hlexemes : (tokenize "é/* + */ +// x\n1").lexemes =
      [⟨.name "é", ⟨0, 2⟩⟩, ⟨.mark .plus, ⟨10, 11⟩⟩, ⟨.number 1, ⟨16, 17⟩⟩, ⟨.eof, ⟨17, 17⟩⟩] := by
    decide +kernel
  have hfaults : (tokenize "é/* + */ +// x\n1").faults = [] := by decide +kernel
  have hgaps := (tokenize_tiles "é/* + */ +// x\n1").2.2.2.2 hfaults
  rw [hlexemes] at hgaps
  exact ⟨hlexemes, hfaults, hgaps⟩

end Lexer

end DeltaForm
