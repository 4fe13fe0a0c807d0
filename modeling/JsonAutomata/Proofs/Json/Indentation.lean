import JsonAutomata.Proofs.Json.OneLine

/-!
# Indentation — where the lines of a written value begin

In the indented layout a line begins with two blanks for each container that is open there, except one
that its first character closes.  Which containers are open is found from the characters in front of
the line alone (`openContainers`).  `Indents` says that the lines within a part of a text are indented
if those behind it are, so that parts can be put together.
-/

namespace JsonAutomata

open Grammar Layout

/-! ## 1. Open containers -/

/-- Where a text stands, and how many of its brackets are open there. -/
structure Standing where
  place : Place
  depth : Nat

/-- After one more character.  Brackets count outside strings only. -/
def Standing.next (s : Standing) (c : Char) : Standing :=
  match s.place with
  | .outside =>
    if IsOpening c then ⟨.outside, s.depth + 1⟩
    else if IsClosing c then ⟨.outside, s.depth - 1⟩
    else if c = '"' then ⟨.inside, s.depth⟩
    else s
  | .inside =>
    if c = '"' then ⟨.outside, s.depth⟩
    else if c = '\\' then ⟨.escaped, s.depth⟩
    else s
  | .escaped => ⟨.inside, s.depth⟩

def openContainers (text : List Char) : Nat := (text.foldl Standing.next ⟨.outside, 0⟩).depth

section Standing

variable {c : Char} {w : List Char} {depth : Nat}

theorem next_opening (hc : IsOpening c) :
    Standing.next ⟨.outside, depth⟩ c = ⟨.outside, depth + 1⟩ := if_pos hc

theorem next_closing (hc : IsClosing c) :
    Standing.next ⟨.outside, depth + 1⟩ c = ⟨.outside, depth⟩ := by
  have hnot : ¬ IsOpening c := by
    rcases hc with rfl | rfl <;> decide
  show (if IsOpening c then _ else if IsClosing c then _ else _) = _
  rw [if_neg hnot, if_pos hc]
  rfl

theorem foldl_next_outside (hw : ∀ c ∈ w, ¬ IsOpening c ∧ ¬ IsClosing c ∧ c ≠ '"') :
    w.foldl Standing.next ⟨.outside, depth⟩ = ⟨.outside, depth⟩ := by
  induction w with
  | nil => rfl
  | cons c w ih =>
    have ⟨hopening, hclosing, hquote⟩ := hw c List.mem_cons_self
    have hnext : Standing.next ⟨.outside, depth⟩ c = ⟨.outside, depth⟩ := by
      show (if IsOpening c then _ else if IsClosing c then _ else if c = '"' then _ else _) = _
      rw [if_neg hopening, if_neg hclosing, if_neg hquote]
    rw [List.foldl_cons, hnext]
    exact ih fun d hd => hw d (List.mem_cons_of_mem c hd)

theorem next_inside (hc : IsPlain c) :
    Standing.next ⟨.inside, depth⟩ c = ⟨.inside, depth⟩ := by
  show (if c = '"' then _ else if c = '\\' then _ else _) = _
  rw [if_neg hc.2.1, if_neg hc.2.2]

/-- The body of a string is passed over, brackets included. -/
theorem foldl_next_body (hw : RawBody w) :
    w.foldl Standing.next ⟨.inside, depth⟩ = ⟨.inside, depth⟩ := by
  induction hw with
  | nil => rfl
  | plain hc _ ih => rw [List.foldl_cons, next_inside hc, ih]
  | short _ _ ih => exact ih
  | unit ha hb hc hd _ ih =>
    have hescape : Standing.next (Standing.next ⟨.inside, depth⟩ '\\') 'u' = ⟨.inside, depth⟩ := rfl
    simp only [List.foldl_cons]
    rw [hescape, next_inside (TokenKind.hex_isPlain ha), next_inside (TokenKind.hex_isPlain hb),
      next_inside (TokenKind.hex_isPlain hc), next_inside (TokenKind.hex_isPlain hd), ih]

theorem foldl_next_quoted (cs : List Char) :
    (Quote.quoted cs).foldl Standing.next ⟨.outside, depth⟩ = ⟨.outside, depth⟩ := by
  obtain ⟨x, s, hquoted, hbody, _⟩ := stringText_quoted cs
  have hopen : Standing.next ⟨.outside, depth⟩ '"' = ⟨.inside, depth⟩ := rfl
  have hclose : Standing.next ⟨.inside, depth⟩ '"' = ⟨.outside, depth⟩ := rfl
  rw [hquoted, List.foldl_cons, hopen, List.foldl_append, foldl_next_body hbody.raw]
  exact hclose

end Standing

/-! ## 2. Lines -/

def margin (line : List Char) : Nat := (line.takeWhile (· = ' ')).length

/-- Whether the first character behind the blanks closes a container. -/
def closesFirst (line : List Char) : Bool :=
  (line.dropWhile (· = ' ')).head?.any fun c => IsClosing c

/-- The line, where `depth` containers are open, begins with two blanks for each of them, but for one
that its first character closes. -/
def IsIndented (depth : Nat) (line : List Char) : Prop :=
  margin line + (if closesFirst line then 2 else 0) = 2 * depth

def LinesIndented : Standing → List Char → Prop
  | _, [] => True
  | s, c :: rest => (c = '\n' → IsIndented (s.next c).depth rest) ∧ LinesIndented (s.next c) rest

section Lines

variable {s : Standing} {c : Char} {w before line rest : List Char} {depth : Nat}

theorem LinesIndented.isIndented (h : LinesIndented s (before ++ '\n' :: line)) :
    IsIndented ((before ++ ['\n']).foldl Standing.next s).depth line := by
  induction before generalizing s with
  | nil => exact h.1 rfl
  | cons c before ih => exact ih h.2

theorem linesIndented_append (hw : '\n' ∉ w) :
    LinesIndented s (w ++ rest) ↔ LinesIndented (w.foldl Standing.next s) rest := by
  induction w generalizing s with
  | nil => exact Iff.rfl
  | cons c w ih =>
    rw [List.mem_cons, not_or] at hw
    show (c = '\n' → _) ∧ LinesIndented (s.next c) (w ++ rest) ↔ _
    rw [ih hw.2]
    exact and_iff_right fun hc => absurd hc.symm hw.1

theorem isIndented_margin (hc : c ≠ ' ') (width : Nat) (tail : List Char)
    (hwidth : width + (if IsClosing c then 2 else 0) = 2 * depth) :
    IsIndented depth (List.replicate width ' ' ++ c :: tail) := by
  have hblank : ∀ d ∈ List.replicate width ' ', decide (d = ' ') = true := by
    intro d hd
    simpa using List.eq_of_mem_replicate hd
  have hmargin : margin (List.replicate width ' ' ++ c :: tail) = width := by
    rw [margin, List.takeWhile_append_of_pos hblank, List.takeWhile_cons_of_neg (by simpa using hc),
      List.append_nil, List.length_replicate]
  have hfirst : closesFirst (List.replicate width ' ' ++ c :: tail) = decide (IsClosing c) := by
    rw [closesFirst, dropWhile_margin hc]
    rfl
  rw [IsIndented, hmargin, hfirst, ← hwidth]
  simp only [decide_eq_true_eq]

end Lines

/-! ## 3. Parts of a text -/

/-- The part leads from `depth` open containers to `depth'`, and its lines are indented if those
behind it are. -/
def Indents (depth : Nat) (part : List Char) (depth' : Nat) : Prop :=
  ∀ rest, LinesIndented ⟨.outside, depth'⟩ rest → LinesIndented ⟨.outside, depth⟩ (part ++ rest)

section Parts

variable {c : Char} {w v : List Char} {depth depth' depth'' : Nat}

theorem Indents.append (h : Indents depth w depth') (h' : Indents depth' v depth'') :
    Indents depth (w ++ v) depth'' := by
  intro rest hrest
  rw [List.append_assoc]
  exact h _ (h' rest hrest)

theorem indents_of_foldl (hw : '\n' ∉ w)
    (hfoldl : w.foldl Standing.next ⟨.outside, depth⟩ = ⟨.outside, depth'⟩) :
    Indents depth w depth' := by
  intro rest hrest
  rw [linesIndented_append hw, hfoldl]
  exact hrest

theorem indents_plain (hbreak : '\n' ∉ w)
    (hw : ∀ c ∈ w, ¬ IsOpening c ∧ ¬ IsClosing c ∧ c ≠ '"') : Indents depth w depth :=
  indents_of_foldl hbreak (foldl_next_outside hw)

theorem indents_quoted (cs : List Char) : Indents depth (Quote.quoted cs) depth :=
  indents_of_foldl (Quote.not_mem_quoted (by decide) cs) (foldl_next_quoted cs)

theorem indents_opening (hc : IsOpening c) : Indents depth [c] (depth + 1) := by
  have hfoldl : [c].foldl Standing.next ⟨.outside, depth⟩ = ⟨.outside, depth + 1⟩ := next_opening hc
  apply indents_of_foldl _ hfoldl
  rcases hc with rfl | rfl <;> decide

theorem indents_closing (hc : IsClosing c) : Indents (depth + 1) [c] depth := by
  have hfoldl : [c].foldl Standing.next ⟨.outside, depth + 1⟩ = ⟨.outside, depth⟩ := next_closing hc
  apply indents_of_foldl _ hfoldl
  rcases hc with rfl | rfl <;> decide

theorem indents_newline (hc : c ≠ ' ') (width : Nat)
    (hwidth : width + (if IsClosing c then 2 else 0) = 2 * depth)
    (h : Indents depth (c :: w) depth') : Indents depth (newline width ++ c :: w) depth' := by
  have hblanks : Indents depth (List.replicate width ' ') depth := by
    apply indents_plain
    · intro hmem
      exact absurd (List.eq_of_mem_replicate hmem) (by decide)
    · intro d hd
      rw [List.eq_of_mem_replicate hd]
      decide
  intro rest hrest
  rw [newline, List.cons_append, List.cons_append]
  refine ⟨fun _ => ?_, (hblanks.append h) rest hrest⟩
  rw [List.append_assoc]
  exact isIndented_margin hc width (w ++ rest) hwidth

theorem Indents.line (hw : BeginsLine w) (h : Indents depth w depth') :
    Indents depth (newline (2 * depth) ++ w) depth' := by
  obtain ⟨c, tail, rfl, hc, hclosing⟩ := hw
  apply indents_newline hc _ _ h
  rw [if_neg hclosing]
  rfl

theorem indents_closingLine (hc : IsClosing c) :
    Indents (depth + 1) (newline (2 * depth) ++ [c]) depth := by
  apply indents_newline (not_blank_of_isClosing hc) _ _ (indents_closing hc)
  rw [if_pos hc]
  rfl

theorem Indents.nextLine (hw : BeginsLine w) (h : Indents depth w depth') :
    Indents depth (',' :: newline (2 * depth) ++ w) depth' := by
  have hcomma : Indents depth [','] depth := indents_plain (by decide) (forall_mem_of_all (by decide))
  exact hcomma.append (h.line hw)

end Parts

/-! ## 4. Containers -/

section Containers

variable {α : Type} {xs : List α} {text : α → List Char} {depth : Nat}

theorem indents_nextLines (h : ∀ x ∈ xs, BeginsLine (text x) ∧ Indents depth (text x) depth) :
    Indents depth ((xs.map text).flatMap fun w => ',' :: newline (2 * depth) ++ w) depth := by
  induction xs with
  | nil => exact fun rest hrest => hrest
  | cons x xs ih =>
    have hfirst := h x List.mem_cons_self
    rw [List.map_cons, List.flatMap_cons]
    apply Indents.append
    · exact hfirst.2.nextLine hfirst.1
    · exact ih fun y hy => h y (List.mem_cons_of_mem x hy)

theorem indents_enclose {opening closing : Char} (hopening : IsOpening opening)
    (hclosing : IsClosing closing)
    (h : ∀ x ∈ xs, BeginsLine (text x) ∧ Indents (depth + 1) (text x) (depth + 1)) :
    Indents depth ((Layout.indented (2 * depth)).enclose opening closing (xs.map text)) depth := by
  have hopen : Indents depth [opening] (depth + 1) := indents_opening hopening
  cases xs with
  | nil => exact hopen.append (indents_closing hclosing)
  | cons x xs =>
    have hfirst := h x List.mem_cons_self
    have hmore := indents_nextLines fun y hy => h y (List.mem_cons_of_mem x hy)
    have hall := hopen.append ((hfirst.2.line hfirst.1).append
      (hmore.append (indents_closingLine hclosing)))
    rw [List.map_cons, enclose_cons]
    rw [List.append_assoc] at hall
    exact hall

end Containers

/-! ## 5. Values -/

namespace Value

/-- The lines of a value are indented as deeply as its containers are nested. -/
theorem indents_write (v : Value) (h : v.Grammatical) (depth : Nat) :
    Indents depth (v.write (.indented (2 * depth))) depth := by
  induction v using Value.induction generalizing depth with
  | null =>
    show Indents depth "null".toList depth
    exact indents_plain (by decide) (forall_mem_of_all (by decide))
  | boolean b =>
    cases b with
    | true =>
      show Indents depth "true".toList depth
      exact indents_plain (by decide) (forall_mem_of_all (by decide))
    | false =>
      show Indents depth "false".toList depth
      exact indents_plain (by decide) (forall_mem_of_all (by decide))
  | number n =>
    have hchars : ∀ c ∈ TokenKind.number.followers,
        c ≠ '\n' ∧ ¬ IsOpening c ∧ ¬ IsClosing c ∧ c ≠ '"' := forall_mem_of_all (by decide)
    have hnumber := mem_followers_of_numberText h
    apply indents_plain
    · exact fun hmem => (hchars _ (hnumber _ hmem)).1 rfl
    · exact fun c hc => (hchars c (hnumber c hc)).2
  | string s => exact indents_quoted s.toList
  | array items ih =>
    have hitems := grammaticalItems_iff.1 h
    rw [write, writeItems_eq_map]
    apply indents_enclose (.inl rfl) (.inl rfl)
    intro v hv
    exact ⟨beginsLine_write v _ (hitems v hv), ih v hv (hitems v hv) (depth + 1)⟩
  | object members ih =>
    have hmembers := grammaticalMembers_iff.1 h
    rw [write, writeMembers_eq_map]
    apply indents_enclose (.inr rfl) (.inr rfl)
    intro m hm
    have hcolon : Indents (depth + 1) [':', ' '] (depth + 1) :=
      indents_plain (by decide) (forall_mem_of_all (by decide))
    have hvalue := ih m hm (hmembers m hm) (depth + 1)
    refine ⟨beginsLine_quoted m.1.toList _, ?_⟩
    exact (indents_quoted m.1.toList).append (hcolon.append hvalue)

/-- The layouts differ in nothing but their lines: joined, the lines of the indented one are the
compact one.  Each line of the indented one begins with two blanks for each container that is open
there, except one that its first character closes.  The compact one is printable ASCII. -/
theorem layouts_agree (v : Value) (h : v.Grammatical) :
    joinLines v.encodePretty.toList = v.encode.toList ∧
      (∀ before line, v.encodePretty.toList = before ++ line →
        (∀ c ∈ before.getLast?, c = '\n') → IsIndented (openContainers before) line) ∧
      ∀ c ∈ v.encode.toList, Quote.IsPrintable c := by
  have hencode : v.encode.toList = v.write .compact := String.toList_ofList
  have hpretty : v.encodePretty.toList = v.write (.indented 0) := String.toList_ofList
  rw [hencode, hpretty]
  refine ⟨(joins_write v h 0).joinLines_eq, ?_, isPrintable_write v h⟩
  intro before line htext hbefore
  have hlines : LinesIndented ⟨.outside, 0⟩ (v.write (.indented 0)) := by
    have hvalue := indents_write v h 0 [] trivial
    rwa [List.append_nil] at hvalue
  cases hlast : before.getLast? with
  | none =>
    -- The first line has no line break in front of it.
    rw [List.getLast?_eq_none_iff.1 hlast, List.nil_append] at htext
    obtain ⟨c, tail, hhead, hc, hclosing⟩ := beginsLine_write v (.indented 0) h
    rw [List.getLast?_eq_none_iff.1 hlast, ← htext, hhead]
    apply isIndented_margin hc 0 tail
    rw [if_neg hclosing]
    rfl
  | some c =>
    obtain rfl : c = '\n' := hbefore c hlast
    obtain ⟨front, hfront⟩ := List.getLast?_eq_some_iff.1 hlast
    rw [hfront, List.append_assoc, List.singleton_append] at htext
    rw [htext] at hlines
    rw [hfront]
    exact hlines.isIndented

/-- A key that holds a comma, a line break and a bracket, and an empty array, which stays on its line. -/
theorem layouts_agree_nested :
    let document : Value := .object [("a,\n]", .array [.number ⟨"-1.5e3"⟩, .array []])]
    let front := "\x7b\n  \"a,\\n]\": [\n    -1.5e3,\n    []\n".toList
    document.Grammatical ∧ joinLines document.encodePretty.toList = document.encode.toList ∧
      document.encodePretty.toList = front ++ "  ]\n\x7d".toList ∧ openContainers front = 2 ∧
      IsIndented (openContainers front) "  ]\n\x7d".toList := by
  intro document front
  have hnumber : NumberText "-1.5e3".toList :=
    ⟨['-'], ['1'], ".5".toList, "e3".toList, rfl, .inr rfl,
      .inr ⟨'1', [], rfl, by decide, by decide, by simp [IsDigit]⟩,
      .inr ⟨"5".toList, rfl, by decide, by simp [IsDigit]⟩,
      .inr ⟨'e', [], "3".toList, rfl, .inl rfl, .inl rfl, by decide, by simp [IsDigit]⟩⟩
  have hgrammatical : document.Grammatical := by
    simpa [document, Grammatical, GrammaticalItems, GrammaticalMembers] using hnumber
  have htext : document.encodePretty.toList = front ++ "  ]\n\x7d".toList := by
    decide
  have hlast : front.getLast? = some '\n' := by
    decide
  obtain ⟨hjoined, hlines, _⟩ := layouts_agree document hgrammatical
  refine ⟨hgrammatical, hjoined, htext, by decide, hlines front _ htext ?_⟩
  intro c hc
  exact Option.some.inj (hc.symm.trans hlast)

end Value

end JsonAutomata
