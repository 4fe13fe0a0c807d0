import JsonAutomata.Proofs.Json.DepthLimit
import JsonAutomata.Proofs.Json.Writing

/-!
# One line — indented text with its lines joined

`joinLines` takes the line breaks out of a text, with the blanks in front of each line, and leaves a
blank behind a comma that ended a line.  A value in the indented layout becomes the value in the
compact layout (`joins_write`): no line breaks within strings, and a line begins with a character that
is no blank.  `Joins` says this of a part of a text, whatever follows it, so that parts can be put
together.
-/

namespace JsonAutomata

open Grammar Layout

/-! ## 1. Joining lines -/

def joinLines (text : List Char) : List Char :=
  match text with
  | [] => []
  | ',' :: '\n' :: rest => ',' :: ' ' :: joinLines (rest.dropWhile (· = ' '))
  | '\n' :: rest => joinLines (rest.dropWhile (· = ' '))
  | c :: rest => c :: joinLines rest
termination_by text.length
decreasing_by
  · have hdrop := (List.dropWhile_suffix (l := rest) (· = ' ')).length_le
    simp only [List.length_cons]
    omega
  · have hdrop := (List.dropWhile_suffix (l := rest) (· = ' ')).length_le
    simp only [List.length_cons]
    omega
  · simp

theorem joinLines_cons {c : Char} {rest : List Char} (hc : c ≠ '\n')
    (hcomma : c = ',' → rest.head? ≠ some '\n') : joinLines (c :: rest) = c :: joinLines rest := by
  rw [joinLines]
  · intro tail hc' htail
    rw [htail] at hcomma
    exact hcomma hc' rfl
  · exact hc

theorem dropWhile_blanks (n : Nat) (rest : List Char) :
    (List.replicate n ' ' ++ rest).dropWhile (· = ' ') = rest.dropWhile (· = ' ') :=
  List.dropWhile_append_of_pos fun _ hc => decide_eq_true (List.eq_of_mem_replicate hc)

theorem dropWhile_margin {c : Char} (hc : c ≠ ' ') (width : Nat) (tail : List Char) :
    (List.replicate width ' ' ++ c :: tail).dropWhile (· = ' ') = c :: tail := by
  rw [dropWhile_blanks, List.dropWhile_cons_of_neg (by simpa using hc)]

theorem joinLines_newline {c : Char} (hc : c ≠ ' ') (width : Nat) (tail : List Char) :
    joinLines (newline width ++ c :: tail) = joinLines (c :: tail) := by
  rw [newline, List.cons_append, joinLines, dropWhile_margin hc]

theorem joinLines_comma {c : Char} (hc : c ≠ ' ') (width : Nat) (tail : List Char) :
    joinLines (',' :: (newline width ++ c :: tail)) = ',' :: ' ' :: joinLines (c :: tail) := by
  rw [newline, List.cons_append, joinLines, dropWhile_margin hc]

/-! ## 2. Parts of a text -/

/-- Joining lines turns the part of a text into another one, whatever follows. -/
def Joins (part joined : List Char) : Prop :=
  ∀ rest, joinLines (part ++ rest) = joined ++ joinLines rest

/-- The text can begin a line: its first character is no blank and closes no container. -/
def BeginsLine (w : List Char) : Prop := ∃ c tail, w = c :: tail ∧ c ≠ ' ' ∧ ¬ IsClosing c

section Parts

variable {w v w' v' : List Char} {c : Char}

theorem Joins.append (h : Joins w w') (h' : Joins v v') : Joins (w ++ v) (w' ++ v') := by
  intro rest
  rw [List.append_assoc, h, h', List.append_assoc]

theorem Joins.joinLines_eq (h : Joins w w') : joinLines w = w' := by
  have hend := h []
  rwa [List.append_nil, joinLines, List.append_nil] at hend

/-- A text without line breaks stays as it is, unless a comma at its end is followed by one. -/
theorem joins_self (hbreak : '\n' ∉ w) (hend : w.getLast? ≠ some ',') : Joins w w := by
  intro rest
  induction w with
  | nil => rfl
  | cons c w ih =>
    rw [List.mem_cons, not_or] at hbreak
    have hcomma : c = ',' → (w ++ rest).head? ≠ some '\n' := by
      intro hc
      cases w with
      | nil => exact absurd (congrArg some hc) hend
      | cons d w =>
        intro hd
        exact hbreak.2 (List.mem_cons.2 (.inl (Option.some.inj hd).symm))
    have hend' : w.getLast? ≠ some ',' := by
      cases w with
      | nil =>
        intro h
        cases h
      | cons d w => rwa [List.getLast?_cons_cons] at hend
    rw [List.cons_append, joinLines_cons (Ne.symm hbreak.1) hcomma, ih hbreak.2 hend',
      List.cons_append]

theorem Joins.line (hw : BeginsLine w) (h : Joins w w') (width : Nat) :
    Joins (newline width ++ w) w' := by
  obtain ⟨c, tail, rfl, hc, _⟩ := hw
  intro rest
  rw [List.append_assoc, List.cons_append, joinLines_newline hc, ← List.cons_append, h]

theorem Joins.nextLine (hw : BeginsLine w) (h : Joins w w') (width : Nat) :
    Joins (',' :: newline width ++ w) (',' :: ' ' :: w') := by
  obtain ⟨c, tail, rfl, hc, _⟩ := hw
  intro rest
  show joinLines (',' :: (newline width ++ (c :: tail) ++ rest)) = ',' :: ' ' :: (w' ++ joinLines rest)
  rw [List.append_assoc, List.cons_append, joinLines_comma hc, ← List.cons_append, h]

theorem not_blank_of_isClosing (hc : IsClosing c) : c ≠ ' ' := by
  rcases hc with rfl | rfl <;> decide

theorem joins_bracket (hc : IsOpening c ∨ IsClosing c) : Joins [c] [c] := by
  rcases hc with (rfl | rfl) | (rfl | rfl) <;> exact joins_self (by decide) (by decide)

theorem joins_closingLine (hc : IsClosing c) (width : Nat) : Joins (newline width ++ [c]) [c] := by
  intro rest
  rw [List.append_assoc, List.singleton_append, joinLines_newline (not_blank_of_isClosing hc)]
  exact joins_bracket (.inr hc) rest

end Parts

/-! ## 3. Containers -/

section Containers

variable {α : Type} {xs : List α} {indented compact : α → List Char}

theorem joins_nextLines (h : ∀ x ∈ xs, BeginsLine (indented x) ∧ Joins (indented x) (compact x))
    (width : Nat) :
    Joins ((xs.map indented).flatMap fun w => ',' :: newline width ++ w)
      ((xs.map compact).flatMap fun w => [',', ' '] ++ w) := by
  induction xs with
  | nil => exact fun rest => rfl
  | cons x xs ih =>
    have hfirst := h x List.mem_cons_self
    rw [List.map_cons, List.map_cons, List.flatMap_cons, List.flatMap_cons]
    apply Joins.append
    · exact hfirst.2.nextLine hfirst.1 width
    · exact ih fun y hy => h y (List.mem_cons_of_mem x hy)

/-- Items on lines of their own become items on one line. -/
theorem joins_enclose {opening closing : Char} (hopening : IsOpening opening)
    (hclosing : IsClosing closing)
    (h : ∀ x ∈ xs, BeginsLine (indented x) ∧ Joins (indented x) (compact x)) (width : Nat) :
    Joins ((Layout.indented width).enclose opening closing (xs.map indented))
      (Layout.compact.enclose opening closing (xs.map compact)) := by
  have hopen : Joins [opening] [opening] := joins_bracket (.inl hopening)
  cases xs with
  | nil => exact hopen.append (joins_bracket (.inr hclosing))
  | cons x xs =>
    have hfirst := h x List.mem_cons_self
    have hline := hfirst.2.line hfirst.1 (width + 2)
    have hmore := joins_nextLines (fun y hy => h y (List.mem_cons_of_mem x hy)) (width + 2)
    have hclose := joins_closingLine hclosing width
    have hall := hopen.append (hline.append (hmore.append hclose))
    rw [List.map_cons, List.map_cons, enclose_cons, enclose_cons]
    rw [List.append_assoc] at hall
    exact hall

end Containers

/-! ## 4. Values -/

namespace Value

theorem mem_followers_of_numberText {w : List Char} (hw : NumberText w) :
    ∀ c ∈ w, c ∈ TokenKind.number.followers := fun c hc =>
  TokenKind.over_numberTerm.language_le (TokenKind.mem_language_number.2 hw) c hc

theorem beginsLine_quoted (cs rest : List Char) : BeginsLine (Quote.quoted cs ++ rest) :=
  ⟨'"', _, rfl, by decide, by decide⟩

theorem beginsLine_enclose (layout : Layout) {opening : Char} (hopening : IsOpening opening)
    (closing : Char) (ws : List (List Char)) :
    BeginsLine (layout.enclose opening closing ws) := by
  have hhead : ∃ tail, layout.enclose opening closing ws = opening :: tail := by
    cases ws with
    | nil => exact ⟨_, rfl⟩
    | cons w ws => exact ⟨_, layout.enclose_cons opening closing w ws⟩
  obtain ⟨tail, htail⟩ := hhead
  refine ⟨opening, tail, htail, ?_⟩
  rcases hopening with rfl | rfl <;> decide

/-- What is written for a value can begin a line. -/
theorem beginsLine_write (v : Value) (layout : Layout) (h : v.Grammatical) :
    BeginsLine (v.write layout) := by
  cases v with
  | null => exact ⟨'n', _, rfl, by decide, by decide⟩
  | boolean b =>
    cases b with
    | true => exact ⟨'t', _, rfl, by decide, by decide⟩
    | false => exact ⟨'f', _, rfl, by decide, by decide⟩
  | number n =>
    have hchars : ∀ c ∈ TokenKind.number.followers, c ≠ ' ' ∧ ¬ IsClosing c :=
      forall_mem_of_all (by decide)
    have hnumber : NumberText n.lexeme.toList := h
    have hlanguage : n.lexeme.toList ∈ TokenKind.number.term.language :=
      TokenKind.mem_language_number.2 hnumber
    have hne : n.lexeme.toList ≠ [] := TokenKind.ne_nil_of_language hlanguage
    obtain ⟨c, tail, htail⟩ := List.exists_cons_of_ne_nil hne
    refine ⟨c, tail, htail, hchars c (mem_followers_of_numberText hnumber c ?_)⟩
    rw [htail]
    exact List.mem_cons_self
  | string s =>
    have hquoted := beginsLine_quoted s.toList []
    rwa [List.append_nil] at hquoted
  | array items => exact beginsLine_enclose layout (.inl rfl) ']' _
  | object members => exact beginsLine_enclose layout (.inr rfl) '\x7d' _

theorem joins_quoted (cs : List Char) : Joins (Quote.quoted cs) (Quote.quoted cs) := by
  apply joins_self (Quote.not_mem_quoted (by decide) cs)
  · rw [Quote.quoted, List.getLast?_concat]
    decide

/-- With its lines joined the indented layout of a value is the compact one. -/
theorem joins_write (v : Value) (h : v.Grammatical) (width : Nat) :
    Joins (v.write (.indented width)) (v.write .compact) := by
  induction v using Value.induction generalizing width with
  | null =>
    show Joins "null".toList "null".toList
    exact joins_self (by decide) (by decide)
  | boolean b =>
    cases b with
    | true =>
      show Joins "true".toList "true".toList
      exact joins_self (by decide) (by decide)
    | false =>
      show Joins "false".toList "false".toList
      exact joins_self (by decide) (by decide)
  | number n =>
    have hchars : ∀ c ∈ TokenKind.number.followers, c ≠ '\n' ∧ c ≠ ',' :=
      forall_mem_of_all (by decide)
    have hnumber : ∀ c ∈ n.lexeme.toList, c ≠ '\n' ∧ c ≠ ',' := fun c hc =>
      hchars c (mem_followers_of_numberText h c hc)
    apply joins_self
    · exact fun hmem => (hnumber _ hmem).1 rfl
    · exact fun hend => (hnumber _ (List.mem_of_getLast? hend)).2 rfl
  | string s => exact joins_quoted s.toList
  | array items ih =>
    have hitems := grammaticalItems_iff.1 h
    rw [write, write, writeItems_eq_map, writeItems_eq_map]
    apply joins_enclose (.inl rfl) (.inl rfl)
    intro v hv
    exact ⟨beginsLine_write v _ (hitems v hv), ih v hv (hitems v hv) (width + 2)⟩
  | object members ih =>
    have hmembers := grammaticalMembers_iff.1 h
    rw [write, write, writeMembers_eq_map, writeMembers_eq_map]
    apply joins_enclose (.inr rfl) (.inr rfl)
    intro m hm
    have hcolon : Joins [':', ' '] [':', ' '] := joins_self (by decide) (by decide)
    have hvalue := ih m hm (hmembers m hm) (width + 2)
    refine ⟨beginsLine_quoted m.1.toList _, ?_⟩
    exact (joins_quoted m.1.toList).append (hcolon.append hvalue)

/-! ## 5. Printable text -/

theorem isPrintable_bracket {c : Char} (hc : IsOpening c ∨ IsClosing c) : Quote.IsPrintable c := by
  rcases hc with (rfl | rfl) | (rfl | rfl) <;> decide

theorem isPrintable_enclose {opening closing : Char} (hopening : IsOpening opening)
    (hclosing : IsClosing closing) {ws : List (List Char)}
    (h : ∀ w ∈ ws, ∀ c ∈ w, Quote.IsPrintable c) :
    ∀ c ∈ Layout.compact.enclose opening closing ws, Quote.IsPrintable c := by
  have hopen : Quote.IsPrintable opening := isPrintable_bracket (.inl hopening)
  have hclose : Quote.IsPrintable closing := isPrintable_bracket (.inr hclosing)
  intro c hc
  cases ws with
  | nil =>
    have hmem : c = opening ∨ c = closing := by
      simpa [enclose] using hc
    rcases hmem with rfl | rfl
    · exact hopen
    · exact hclose
  | cons w ws =>
    rw [enclose_cons] at hc
    have hmem : c = opening ∨ c ∈ w ∨ (∃ u ∈ ws, c ∈ [',', ' '] ++ u) ∨ c = closing := by
      simpa [before, between, after] using hc
    rcases hmem with rfl | hw | ⟨u, hu, hc⟩ | rfl
    · exact hopen
    · exact h w List.mem_cons_self c hw
    · rcases List.mem_append.1 hc with hsep | hc
      · exact forall_mem_of_all (by decide) c hsep
      · exact h u (List.mem_cons_of_mem w hu) c hc
    · exact hclose

/-- In the compact layout a value is printable ASCII. -/
theorem isPrintable_write (v : Value) (h : v.Grammatical) :
    ∀ c ∈ v.write .compact, Quote.IsPrintable c := by
  induction v using Value.induction with
  | null =>
    show ∀ c ∈ "null".toList, Quote.IsPrintable c
    exact forall_mem_of_all (by decide)
  | boolean b =>
    cases b with
    | true =>
      show ∀ c ∈ "true".toList, Quote.IsPrintable c
      exact forall_mem_of_all (by decide)
    | false =>
      show ∀ c ∈ "false".toList, Quote.IsPrintable c
      exact forall_mem_of_all (by decide)
  | number n =>
    have hchars : ∀ c ∈ TokenKind.number.followers, Quote.IsPrintable c :=
      forall_mem_of_all (by decide)
    exact fun c hc => hchars c (mem_followers_of_numberText h c hc)
  | string s => exact Quote.isPrintable_quoted s.toList
  | array items ih =>
    rw [write, writeItems_eq_map]
    apply isPrintable_enclose (.inl rfl) (.inl rfl)
    intro w hw
    obtain ⟨v, hv, rfl⟩ := List.mem_map.1 hw
    exact ih v hv (grammaticalItems_iff.1 h v hv)
  | object members ih =>
    rw [write, writeMembers_eq_map]
    apply isPrintable_enclose (.inr rfl) (.inr rfl)
    intro w hw c hc
    obtain ⟨m, hm, rfl⟩ := List.mem_map.1 hw
    have hcolon : ∀ d ∈ [':', ' '], Quote.IsPrintable d := forall_mem_of_all (by decide)
    have hmem : c ∈ Quote.quoted m.1.toList ∨ c ∈ [':', ' '] ∨ c ∈ m.2.write .compact := by
      simpa [writeMember, Layout.inner, or_assoc] using hc
    rcases hmem with hkey | hsep | hvalue
    · exact Quote.isPrintable_quoted m.1.toList c hkey
    · exact hcolon c hsep
    · exact ih m hm (grammaticalMembers_iff.1 h m hm) c hvalue

end Value

end JsonAutomata
