import JsonAutomata.Proofs.Json.OneLine
import JsonAutomata.Proofs.Json.RoundTrip
import JsonAutomata.Proofs.Lexer.Locality
import JsonAutomata.Proofs.Terminal.Erasure
import JsonAutomata.Proofs.Text.Numerals
import JsonAutomata.Terminal.Sink

/-!
# Token lines — a listing shows its tokens, and no others

The line of a token has columns at fixed places, as no span ends behind the last one, and quoting
leaves no line ends in a line (`shows_tokenLine`).  A line says all of its token: `readLine?` takes
its first two words for the span and the label, decodes what follows as a JSON string, and so gives
the token back (`readLine?_tokenLine`).  The contents of the tokens are the text.
-/

namespace JsonAutomata

namespace Terminal

variable {painter : Painter} {t : Token} {tokens : List Token} {text w rest : List Char} {width offset : Nat}

/-! ## 1. Lines -/

/-- The lines of a text that ends each of them. -/
def linesOf (text : List Char) : List (List Char) := (text.splitOn '\n').dropLast

theorem linesOf_flatMap {lines : List (List Char)} (h : ∀ line ∈ lines, '\n' ∉ line) :
    linesOf (lines.flatMap (· ++ ['\n'])) = lines := by
  have hsplit : (lines.flatMap (· ++ ['\n'])).splitOn '\n' = lines ++ [[]] := by
    induction lines with
    | nil => exact List.splitOn_nil '\n'
    | cons line lines ih =>
      rw [List.flatMap_cons, List.append_assoc, List.singleton_append,
        List.splitOn_append_cons_self_of_not_mem (h line List.mem_cons_self),
        ih fun u hu => h u (List.mem_cons_of_mem line hu), List.cons_append]
  rw [linesOf, hsplit, List.dropLast_concat]

/-! ## 2. Reading a line -/

/-- Splits a text behind its first word; blanks in front of the word do not count. -/
def splitWord (text : List Char) : List Char × List Char :=
  (text.dropWhile (· = ' ')).span (· ≠ ' ')

def readSpan? (text : List Char) : Option Span :=
  (readNatural? (text.takeWhile (· ≠ '.'))).bind fun start =>
    (readNatural? ((text.dropWhile (· ≠ '.')).drop 2)).map fun stop => ⟨start, stop⟩

def readString? (text : List Char) : Option String :=
  match decode text with
  | .ok (.string s) => some s
  | _ => none

def readLine? (line : List Char) : Option Token :=
  let (spanText, line) := splitWord line
  let (label, line) := splitWord line
  (readString? (line.dropWhile (· = ' '))).bind fun content =>
    (readSpan? spanText).map fun span => ⟨content, String.ofList label, span⟩

/-- A word between blanks is split off with the blanks in front of it. -/
theorem splitWord_eq (hne : w ≠ []) (hw : ' ' ∉ w) (n m : Nat) (rest : List Char) :
    splitWord (List.replicate n ' ' ++ (w ++ (List.replicate m ' ' ++ ' ' :: rest)))
      = (w, List.replicate m ' ' ++ ' ' :: rest) := by
  obtain ⟨c, v, rfl⟩ := List.exists_cons_of_ne_nil hne
  have hword : ∀ a ∈ c :: v, decide (a ≠ ' ') = true := fun a ha =>
    decide_eq_true fun heq => hw (heq ▸ ha)
  have hc : c ≠ ' ' := of_decide_eq_true (hword c List.mem_cons_self)
  rw [splitWord, List.cons_append, dropWhile_margin hc, ← List.cons_append,
    List.span_eq_takeWhile_dropWhile, List.takeWhile_append_of_pos hword,
    List.dropWhile_append_of_pos hword]
  cases m <;> simp [List.replicate_succ]

theorem readSpan?_spanText (s : Span) : readSpan? (spanText s) = some s := by
  have hpoint : ∀ c ∈ numeral s.start, decide (c ≠ '.') = true := fun c hc =>
    decide_eq_true fun heq => not_mem_numeral rfl s.start (heq ▸ hc)
  rw [readSpan?, spanText, List.takeWhile_append_of_pos hpoint, List.dropWhile_append_of_pos hpoint]
  simp [readNatural?_numeral]

theorem readString?_quoted (s : String) : readString? (Quote.quoted s.toList) = some s := by
  have hsorted : (Value.string s).Sorted := trivial
  have hdecode : decode ((Value.string s).write .compact) = .ok (.string s) :=
    (decode_write .compact hsorted trivial).1 (Nat.zero_le _)
  show readString? ((Value.string s).write .compact) = some s
  rw [readString?, hdecode]

/-! ## 3. The line of a token -/

structure FitsColumn (label : Label) : Prop where
  nonempty : label.toList ≠ []
  noBlank : ' ' ∉ label.toList
  noLineEnd : '\n' ∉ label.toList
  narrow : label.toList.length ≤ labelWidth

theorem fitsColumn_label (kind : TokenKind) : FitsColumn kind.label := by
  have hall : ∀ k ∈ TokenKind.all, k.label.toList ≠ [] ∧ ' ' ∉ k.label.toList ∧
      '\n' ∉ k.label.toList ∧ k.label.toList.length ≤ labelWidth := by decide
  obtain ⟨nonempty, noBlank, noLineEnd, narrow⟩ := hall kind kind.mem_all
  exact ⟨nonempty, noBlank, noLineEnd, narrow⟩

theorem tokenLine_eq (hplain : painter.FormatsPlain) (width : Nat) (t : Token) :
    tokenLine painter false width t = alignRight width (spanText t.span) ++ (' ' :: ' '
      :: (alignLeft labelWidth t.label.toList ++ ' ' :: Quote.quoted t.content.toList)) := by
  rw [tokenLine, hplain, hplain, List.append_assoc]
  rfl

theorem not_mem_spanText {c : Char} (hdigit : c.isDigit = false) (hpoint : c ≠ '.') (s : Span) :
    c ∉ spanText s := by
  rw [spanText, List.mem_append, List.mem_cons, List.mem_cons, not_or, not_or, not_or]
  exact ⟨not_mem_numeral hdigit s.start, hpoint, hpoint, not_mem_numeral hdigit s.stop⟩

theorem spanText_ne_nil (s : Span) : spanText s ≠ [] := by
  simp [spanText]

/-- Reading the line of a token gives the token. -/
theorem readLine?_tokenLine (hplain : painter.FormatsPlain) (h : FitsColumn t.label) (width : Nat) :
    readLine? (tokenLine painter false width t) = some t := by
  have hspan : ∀ rest, splitWord (alignRight width (spanText t.span) ++ ' ' :: rest)
      = (spanText t.span, ' ' :: rest) := by
    intro rest
    rw [alignRight, List.append_assoc]
    exact splitWord_eq (spanText_ne_nil _) (not_mem_spanText rfl (by decide) _) _ 0 rest
  -- The label has the two blanks between the columns in front of it.
  have hlabel : ∀ rest,
      splitWord (' ' :: ' ' :: (alignLeft labelWidth t.label.toList ++ ' ' :: rest))
        = (t.label.toList,
          List.replicate (labelWidth - t.label.toList.length) ' ' ++ ' ' :: rest) := by
    intro rest
    rw [alignLeft, List.append_assoc]
    exact splitWord_eq h.nonempty h.noBlank 2 _ rest
  have hcontent : ∀ n, (List.replicate n ' ' ++ ' ' :: Quote.quoted t.content.toList).dropWhile
      (· = ' ') = Quote.quoted t.content.toList := fun n => by
    rw [dropWhile_blanks]
    rfl
  rw [tokenLine_eq hplain, readLine?, hspan]
  dsimp only
  rw [hlabel]
  dsimp only
  rw [hcontent, readString?_quoted, readSpan?_spanText, String.ofList_toList]
  rfl

/-- A line has its columns at fixed places: the first `width` characters are the span, then there
are the label and the quoted characters, with blanks between them. -/
structure Shows (width : Nat) (t : Token) (line : List Char) : Prop where
  unbroken : '\n' ∉ line
  span : line.take width = alignRight width (spanText t.span)
  gap : (line.drop width).take 2 = [' ', ' ']
  label : (line.drop (width + 2)).take labelWidth = alignLeft labelWidth t.label.toList
  content : line.drop (width + 2 + labelWidth) = ' ' :: Quote.quoted t.content.toList

theorem length_alignRight {text : List Char} (h : text.length ≤ width) :
    (alignRight width text).length = width := by
  rw [alignRight, List.length_append, List.length_replicate]
  omega

theorem length_alignLeft {text : List Char} (h : text.length ≤ width) :
    (alignLeft width text).length = width := by
  rw [alignLeft, List.length_append, List.length_replicate]
  omega

/-- If the span and the label fit into their columns, so that nothing is moved, the line of a token
shows it. -/
theorem shows_tokenLine (hplain : painter.FormatsPlain)
    (hspan : (spanText t.span).length ≤ width) (hlabel : FitsColumn t.label) :
    Shows width t (tokenLine painter false width t) := by
  have hline := tokenLine_eq hplain width t
  have hright := length_alignRight hspan
  have hleft := length_alignLeft hlabel.narrow
  have hbehind : (tokenLine painter false width t).drop (width + 2)
      = alignLeft labelWidth t.label.toList ++ ' ' :: Quote.quoted t.content.toList := by
    rw [hline, ← List.drop_drop, List.drop_left' hright]
    rfl
  refine ⟨?_, ?_, ?_, ?_, ?_⟩
  · have hblanks : ∀ n, '\n' ∉ List.replicate n ' ' := fun n hmem =>
      absurd (List.eq_of_mem_replicate hmem) (by decide)
    have hquoted : '\n' ∉ Quote.quoted t.content.toList := Quote.not_mem_quoted (by decide) _
    have hspanText : '\n' ∉ spanText t.span := not_mem_spanText rfl (by decide) _
    simp [hline, alignRight, alignLeft, hblanks, hquoted, hspanText, hlabel.noLineEnd]
  · rw [hline, List.take_left' hright]
  · rw [hline, List.drop_left' hright]
    rfl
  · rw [hbehind, List.take_left' hleft]
  · rw [← List.drop_drop, hbehind, List.drop_left' hleft]

/-! ## 4. Listings -/

/-- No span is wider than the last one, whose end is the greatest offset. -/
theorem length_spanText_le (h : JsonMunch 0 text tokens) (ht : t ∈ tokens) :
    (spanText t.span).length ≤ spanWidth tokens := by
  obtain ⟨last, hlast⟩ : ∃ last, tokens.getLast? = some last :=
    ⟨_, List.getLast?_eq_getLast_of_ne_nil (List.ne_nil_of_mem ht)⟩
  have hstop : t.span.stop ≤ last.span.stop := h.stop_getLast hlast ▸ (h.stop_le t ht).2
  have hstart : t.span.start ≤ last.span.stop := (h.stop_le t ht).1.trans hstop
  have hwidths := And.intro (length_numeral_mono hstart) (length_numeral_mono hstop)
  rw [spanWidth, hlast, spanText, List.length_append, List.length_cons, List.length_cons]
  dsimp only
  omega

theorem exists_kind (h : JsonMunch offset text tokens) (ht : t ∈ tokens) :
    ∃ kind : TokenKind, t.label = kind.label := by
  induction h with
  | done => exact absurd ht List.not_mem_nil
  | token _ _ hlabel _ ih =>
    rcases List.mem_cons.1 ht with rfl | ht
    · obtain ⟨kind, hkind, _⟩ := TokenKind.earliest_iff.1 hlabel
      exact ⟨kind, hkind⟩
    · exact ih ht

theorem readLines?_tokenLines (hplain : painter.FormatsPlain)
    (h : ∀ t ∈ tokens, FitsColumn t.label) :
    (tokens.map (tokenLine painter false width)).mapM readLine? = some tokens := by
  induction tokens with
  | nil => rfl
  | cons t tokens ih =>
    rw [List.map_cons, List.mapM_cons, readLine?_tokenLine hplain (h t List.mem_cons_self),
      ih fun u hu => h u (List.mem_cons_of_mem t hu)]
    rfl

/-- The listing of the tokens of a text, without colours, has a line for each token, all with the
same columns, and the lines alone give the tokens back, whose contents are the text. -/
theorem tokenListing_faithful (hplain : painter.FormatsPlain) (fault : SinkFault)
    (h : jsonTokens text = .ok tokens) :
    ∃ listing, Sink.writeTokensBy painter ⟨none, fault⟩ false tokens
        = ⟨Utf8.encode listing, none⟩ ∧
      listing = (linesOf listing).flatMap (· ++ ['\n']) ∧
      List.Forall₂ (Shows (spanWidth tokens)) tokens (linesOf listing) ∧
      (linesOf listing).mapM readLine? = some tokens ∧ Lexer.contents tokens = text := by
  have hmunch := jsonTokens_eq_ok_iff.1 h
  have hlabels : ∀ t ∈ tokens, FitsColumn t.label := fun t ht => by
    obtain ⟨kind, hkind⟩ := exists_kind hmunch ht
    exact hkind ▸ fitsColumn_label kind
  let line : Token → List Char := tokenLine painter false (spanWidth tokens)
  have hshows : ∀ t ∈ tokens, Shows (spanWidth tokens) t (line t) := fun t ht =>
    shows_tokenLine hplain (length_spanText_le hmunch ht) (hlabels t ht)
  have hlisting : tokenListing painter false tokens = (tokens.map line).flatMap (· ++ ['\n']) := by
    rw [List.flatMap_map]
    rfl
  have hlines : linesOf (tokenListing painter false tokens) = tokens.map line := by
    rw [hlisting, linesOf_flatMap]
    intro w hw
    obtain ⟨t, ht, rfl⟩ := List.mem_map.1 hw
    exact (hshows t ht).unbroken
  refine ⟨tokenListing painter false tokens, rfl, ?_, ?_, ?_, hmunch.contents_eq⟩
  · rw [hlines, hlisting]
  · rw [hlines, List.forall₂_map_right_iff, List.forall₂_same]
    exact hshows
  · rw [hlines, readLines?_tokenLines hplain hlabels]

/-- The line end inside of a token is escaped, so its line does not break. -/
theorem tokenListing_faithful_lineEnd : ∃ tokens listing,
    Painter.ansi.FormatsPlain ∧ jsonTokens "[\n1]".toList = .ok tokens ∧
    Sink.writeTokens ⟨none, .brokenPipe⟩ false tokens = ⟨Utf8.encode listing, none⟩ ∧
    (linesOf listing).length = 4 ∧ (linesOf listing).mapM readLine? = some tokens := by
  have htokens : jsonTokens "[\n1]".toList = .ok [⟨"[", "[", ⟨0, 1⟩⟩, ⟨"\n", "space", ⟨1, 2⟩⟩,
      ⟨"1", "number", ⟨2, 3⟩⟩, ⟨"]", "]", ⟨3, 4⟩⟩] := by
    decide +kernel
  obtain ⟨listing, hwrite, _, hshows, hread, _⟩ :=
    tokenListing_faithful ansi_formatsPlain .brokenPipe htokens
  exact ⟨_, listing, ansi_formatsPlain, htokens, hwrite, hshows.length_eq.symm, hread⟩

end Terminal

end JsonAutomata
