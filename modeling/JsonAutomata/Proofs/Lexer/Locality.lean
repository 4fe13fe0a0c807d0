import JsonAutomata.Proofs.Lexer.Boundaries
import JsonAutomata.Proofs.Lexer.History

/-!
# Locality — tokens by themselves

Where a token begins and ends depends on its own characters only.  So a text between two boundaries
has the tokens that it has inside the whole, at offsets of its own.
-/

namespace JsonAutomata

variable {live : List Char → Prop} {labels : List Char → Label → Prop} {offset n : Nat}
  {text : List Char} {tokens before middle after : List Token}

theorem Token.shift_ofRun (run : List Char) (label : Label) (offset n : Nat) :
    (Token.ofRun run label offset).shift n = Token.ofRun run label (offset + n) := by
  show Token.mk (String.ofList run) label ⟨offset + n, offset + Utf8.byteLength run + n⟩
    = ⟨String.ofList run, label, ⟨offset + n, offset + n + Utf8.byteLength run⟩⟩
  rw [Nat.add_right_comm]

/-- The procedure finds the same tokens wherever a text begins. -/
theorem Munch.exists_unshifted (h : Munch live labels (offset + n) text tokens) :
    ∃ unshifted, Munch live labels offset text unshifted ∧
      tokens = unshifted.map (Token.shift n) := by
  generalize hstart : offset + n = start at h
  induction h generalizing offset with
  | done => exact ⟨[], .done offset, rfl⟩
  | @token start run rest label tokens hne hlongest hlabel _ ih =>
    have hnext : offset + Utf8.byteLength run + n = start + Utf8.byteLength run := by omega
    rcases ih hnext with ⟨unshifted, htail, rfl⟩
    refine ⟨_, .token hne hlongest hlabel htail, ?_⟩
    rw [List.map_cons, Token.shift_ofRun, hstart]

theorem Munch.contents_eq (h : Munch live labels offset text tokens) :
    Lexer.contents tokens = text := by
  induction h with
  | done => rfl
  | @token _ run _ label _ _ _ _ _ ih =>
    show (String.ofList run).toList ++ Lexer.contents _ = _
    rw [ih, String.toList_ofList]

theorem Munch.start_eq {t : Token} (h : Munch live labels offset text (t :: tokens)) :
    t.span.start = offset := by
  cases h with
  | token => rfl

/-- The characters of consecutive tokens have these tokens, further to the front. -/
theorem Munch.slice (hclosed : ∀ v w, live (v ++ w) → live v)
    (hlabels : ∀ w l l', labels w l → labels w l' → l = l')
    (h : Munch live labels 0 text (before ++ (middle ++ after))) :
    ∃ unshifted, Munch live labels 0 (Lexer.contents middle) unshifted ∧
      ∀ t ∈ middle.head?, middle = unshifted.map (Token.shift t.span.start) := by
  -- Cut off what is in front, then what is behind.
  rcases h.cut hclosed hlabels with ⟨pre, rest, -, -, hrest⟩
  rcases hrest.cut hclosed hlabels with ⟨inner, rest, -, hsevered, -⟩
  have hmiddle := hsevered.munch
  rcases hmiddle.exists_unshifted with ⟨unshifted, hunshifted, heq⟩
  rw [hmiddle.contents_eq]
  refine ⟨unshifted, hunshifted, fun t ht => ?_⟩
  rcases List.head?_eq_some_iff.1 ht with ⟨tail, hcons⟩
  rw [hcons] at hmiddle
  rw [hmiddle.start_eq, Nat.zero_add]
  exact heq

namespace Lexer

theorem tokenize_eq_ok_iff_munch (lx : Lexer) {input : List Char} :
    lx.tokenize input = .ok tokens ↔
      Munch (Live lx.automaton) (Reports lx.automaton) 0 input tokens :=
  tokenize_ofAutomaton_iff lx.automaton input tokens

/-- Some consecutive tokens of an input are the tokens of their own characters, with spans that begin
where the first of them begins. -/
theorem tokenize_contents_extract (lx : Lexer) {input : List Char} {tokens : List Token} {i j : Nat}
    (h : lx.tokenize input = .ok tokens) (hij : i < j) (hj : j ≤ tokens.length) :
    ∃ unshifted, lx.tokenize (contents (tokens.extract i j)) = .ok unshifted ∧
      tokens.extract i j = unshifted.map (Token.shift tokens[i].span.start) := by
  have hsplit : tokens = tokens.take i ++ (tokens.extract i j ++ tokens.drop j) := by
    have hdrop : tokens.drop j = (tokens.drop i).drop (j - i) := by
      rw [List.drop_drop, Nat.add_sub_cancel' (Nat.le_of_lt hij)]
    rw [hdrop, List.extract_eq_take_drop, List.take_append_drop, List.take_append_drop]
  have hmunch := (tokenize_eq_ok_iff_munch lx).1 h
  rw [hsplit] at hmunch
  have hunique : ∀ w l l', Reports lx.automaton w l → Reports lx.automaton w l' → l = l' :=
    fun w l l' hl hl' => Option.some.inj (hl.symm.trans hl')
  rcases hmunch.slice (fun _ _ => Live.of_append) hunique with ⟨unshifted, hinner, heq⟩
  have hhead : (tokens.extract i j).head? = some tokens[i] := by
    rw [List.extract_eq_take_drop, List.head?_take, if_neg (by omega), List.head?_drop]
    exact List.getElem?_eq_getElem _
  exact ⟨unshifted, (tokenize_eq_ok_iff_munch lx).2 hinner, heq tokens[i] hhead⟩

/-- The last two of three tokens.  The word matches the empty text as well, and a part of it carries a
label of its own. -/
theorem tokenize_contents_extract_words :
    let letters : Term := .labeled "letters" (.star (.oneOf ['a', 'b'] "[ab]"))
    let word : Term := .labeled "word" (.alt letters .epsilon)
    let lx := ofPatterns [word, .labeled "blank" (.literal [' '])]
    let tokens : List Token := [⟨"ab", "word", ⟨0, 2⟩⟩, ⟨" ", "blank", ⟨2, 3⟩⟩,
      ⟨"aba", "word", ⟨3, 6⟩⟩]
    lx.tokenize "ab aba".toList = .ok tokens ∧
      ∃ unshifted, lx.tokenize " aba".toList = .ok unshifted ∧
        tokens.extract 1 3 = unshifted.map (Token.shift 2) := by
  intro letters word lx tokens
  have htokens : lx.tokenize "ab aba".toList = .ok tokens := by decide +kernel
  have hcontents : contents (tokens.extract 1 3) = " aba".toList := by decide
  have hslice := tokenize_contents_extract lx htokens (by decide : 1 < 3) (by decide)
  rw [hcontents] at hslice
  exact ⟨htokens, hslice⟩

end Lexer

end JsonAutomata
