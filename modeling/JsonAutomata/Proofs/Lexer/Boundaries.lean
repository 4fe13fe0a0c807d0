import JsonAutomata.Proofs.Lexer.Munch

/-!
# Boundaries — cutting a text between two tokens

Whether a run goes on depends on one character only, the one behind it.  So the tokens before a
place of a text stay what they are if the text is changed behind the place, as long as it goes on
with the same character there or ends (`Munch.cut`).
-/

namespace JsonAutomata

variable {live : List Char → Prop} {labels : List Char → Label → Prop} {offset : Nat}
  {run rest rest' text : List Char} {before after : List Token}

/-! ## 1. Offsets -/

theorem Munch.le_start (h : Munch live labels offset text before) :
    ∀ t ∈ before, offset ≤ t.span.start := by
  induction h with
  | done => exact fun t ht => absurd ht List.not_mem_nil
  | @token offset run _ _ _ _ _ _ _ ih =>
    intro t ht
    rcases List.mem_cons.1 ht with rfl | ht
    · exact Nat.le_refl _
    · exact Nat.le_trans (Nat.le_add_right _ _) (ih t ht)

/-- Tokens stand one behind the other. -/
theorem Munch.pairwise_start (h : Munch live labels offset text before) :
    before.Pairwise fun a b => a.span.start < b.span.start := by
  induction h with
  | done => exact .nil
  | @token offset run _ _ _ hne _ _ htail ih =>
    refine List.pairwise_cons.2 ⟨fun t ht => ?_, ih⟩
    have hlt : 0 < Utf8.byteLength run := by
      obtain ⟨c, run, rfl⟩ := List.exists_cons_of_ne_nil hne
      rw [Utf8.byteLength_cons]
      exact Nat.add_pos_left c.utf8Size_pos _
    exact Nat.lt_of_lt_of_le (Nat.lt_add_of_pos_right hlt) (htail.le_start t ht)

theorem Munch.stop_le (h : Munch live labels offset text before) :
    ∀ t ∈ before, t.span.start ≤ t.span.stop ∧ t.span.stop ≤ offset + Utf8.byteLength text := by
  induction h with
  | done => exact fun t ht => absurd ht List.not_mem_nil
  | @token offset run rest _ _ _ _ _ _ ih =>
    intro t ht
    rw [Utf8.byteLength_append, ← Nat.add_assoc]
    rcases List.mem_cons.1 ht with rfl | ht
    · exact ⟨Nat.le_add_right _ _, Nat.le_add_right _ _⟩
    · exact ih t ht

/-- The last token ends where the text does. -/
theorem Munch.stop_getLast {t : Token} (h : Munch live labels offset text before)
    (ht : before.getLast? = some t) : t.span.stop = offset + Utf8.byteLength text := by
  induction h with
  | done => cases ht
  | @token offset run rest label tokens _ _ _ htail ih =>
    rw [Utf8.byteLength_append, ← Nat.add_assoc]
    cases tokens with
    | nil =>
      cases ht
      cases htail
      rfl
    | cons u tokens => exact ih (by rwa [List.getLast?_cons_cons] at ht)

/-! ## 2. Cuts -/

/-- A longest run stays the longest one in front of a rest that begins alike. -/
theorem LongestRun.of_head (hclosed : ∀ v w, live (v ++ w) → live v)
    (h : LongestRun live run (run ++ rest)) (hhead : ∀ c ∈ rest'.head?, c ∈ rest.head?) :
    LongestRun live run (run ++ rest') := by
  rw [longestRun_append_iff hclosed] at h ⊢
  exact ⟨h.1, fun c hc => h.2 c (hhead c hc)⟩

/-- The tokens in front of a place do not depend on what follows the character behind it. -/
def Severed (live : List Char → Prop) (labels : List Char → Label → Prop) (offset : Nat)
    (pre rest : List Char) (before : List Token) : Prop :=
  ∀ rest', (∀ c ∈ rest'.head?, c ∈ rest.head?) → ∀ tokens,
    Munch live labels offset (pre ++ rest') tokens ↔
      ∃ tail, Munch live labels (offset + Utf8.byteLength pre) rest' tail ∧ tokens = before ++ tail

theorem severed_nil : Severed live labels offset [] rest [] := by
  intro rest' _ tokens
  constructor
  · exact fun h => ⟨tokens, h, rfl⟩
  · rintro ⟨tail, h, rfl⟩
    exact h

theorem Severed.cons {pre : List Char} {label : Label}
    (h : Severed live labels (offset + Utf8.byteLength run) pre rest before)
    (hclosed : ∀ v w, live (v ++ w) → live v)
    (hlabels : ∀ w l l', labels w l → labels w l' → l = l') (hne : run ≠ [])
    (hlongest : LongestRun live run (run ++ (pre ++ rest))) (hlabel : labels run label) :
    Severed live labels offset (run ++ pre) rest (Token.ofRun run label offset :: before) := by
  intro rest' hhead tokens
  -- The run sees `rest'` only if nothing stands between them.
  have hhead' : ∀ c ∈ (pre ++ rest').head?, c ∈ (pre ++ rest).head? := by
    cases pre with
    | nil => exact hhead
    | cons d pre => exact fun c hc => hc
  rw [List.append_assoc, munch_iff_of_longest hne (hlongest.of_head hclosed hhead'),
    Utf8.byteLength_append, ← Nat.add_assoc]
  constructor
  · rintro ⟨label', tail, hlabel', hmunch, rfl⟩
    obtain rfl := hlabels _ _ _ hlabel hlabel'
    obtain ⟨tail, htail, rfl⟩ := (h rest' hhead tail).1 hmunch
    exact ⟨tail, htail, rfl⟩
  · rintro ⟨tail, htail, rfl⟩
    exact ⟨label, before ++ tail, hlabel, (h rest' hhead _).2 ⟨tail, htail, rfl⟩, rfl⟩

/-- Between two of its tokens a text is cut into two texts that have the tokens of either side. -/
theorem Munch.cut (hclosed : ∀ v w, live (v ++ w) → live v)
    (hlabels : ∀ w l l', labels w l → labels w l' → l = l')
    (h : Munch live labels offset text (before ++ after)) :
    ∃ pre rest, text = pre ++ rest ∧ Severed live labels offset pre rest before ∧
      Munch live labels (offset + Utf8.byteLength pre) rest after := by
  induction before generalizing offset text with
  | nil => exact ⟨[], text, rfl, severed_nil, h⟩
  | cons t before ih =>
    cases h with
    | token hne hlongest hlabel htail =>
      obtain ⟨pre, rest, rfl, hsevered, hrest⟩ := ih htail
      refine ⟨_ ++ pre, rest, (List.append_assoc _ _ _).symm, ?_, ?_⟩
      · exact hsevered.cons hclosed hlabels hne hlongest hlabel
      · rwa [Utf8.byteLength_append, ← Nat.add_assoc]

/-- The text in front of the cut has the tokens in front of it. -/
theorem Severed.munch {pre : List Char} (h : Severed live labels offset pre rest before) :
    Munch live labels offset pre before := by
  have hnil := (h [] nofun before).2 ⟨[], .done _, (List.append_nil before).symm⟩
  rwa [List.append_nil] at hnil

end JsonAutomata
