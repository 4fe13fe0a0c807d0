import JsonAutomata.Proofs.Json.Reading

/-!
# Accepting — every element of the grammar is read

By induction on a derivation, the text of a phrase splits into tokens whatever follows it, as long as
what follows may follow the phrase (`Splits`), and reading these tokens has the effect that the
phrase stands for (`Effect`).  The limit plays a part only where a container is opened, so a
derivation with few enough containers is read under any limit (`Derives.accepted`).
-/

namespace JsonAutomata

namespace Grammar

variable {P Q : Char → Prop} {u w a rest : List Char} {offset : Nat} {ts us : List Token}
  {kind : TokenKind} {limit : Option Nat}

/-! ## 1. Splitting -/

/-- The text splits into the tokens, before any rest that begins with an admitted character. -/
def Splits (P : Char → Prop) (w : List Char) (offset : Nat) (ts : List Token) : Prop :=
  ∀ rest tail, (∀ c ∈ rest.head?, P c) → JsonMunch (offset + Utf8.byteLength w) rest tail →
    JsonMunch offset (w ++ rest) (ts ++ tail)

theorem Splits.mono (h : Splits P w offset ts) (hPQ : ∀ c, Q c → P c) : Splits Q w offset ts :=
  fun rest tail hrest => h rest tail fun c hc => hPQ c (hrest c hc)

theorem Splits.append (hu : Splits P u offset ts)
    (hw : Splits Q w (offset + Utf8.byteLength u) us) (hhead : ∀ c ∈ w.head?, P c)
    (hnil : w = [] → ∀ c, Q c → P c) : Splits Q (u ++ w) offset (ts ++ us) := by
  intro rest tail hrest htail
  rw [Utf8.byteLength_append, ← Nat.add_assoc] at htail
  rw [List.append_assoc, List.append_assoc]
  refine hu _ _ (fun c hc => ?_) (hw rest tail hrest htail)
  cases w with
  | nil => exact hnil rfl c (hrest c hc)
  | cons d w => exact hhead c hc

theorem splits_nil : Splits P [] offset [] := fun _ _ _ htail => htail

theorem splits_lexeme (hw : w ∈ kind.term.language) (offset : Nat) :
    Splits (fun c => ¬ c ∈ kind.followers) w offset [Token.ofRun w kind.label offset] :=
  fun _ _ hrest htail => munch_lexeme hw hrest htail

theorem language_literal (kind : TokenKind)
    (hkind : kind ≠ .string ∧ kind ≠ .number ∧ kind ≠ .space) :
    kind.label.toList ∈ kind.term.language := by
  rw [(TokenKind.term_of_literal hkind).1, Term.mem_language_literal]

theorem followers_literal (hkind : kind ≠ .string ∧ kind ≠ .number ∧ kind ≠ .space) :
    kind.followers = [] := by
  obtain ⟨_, hnumber, hspace⟩ := hkind
  cases kind <;> first | rfl | contradiction

/-- A token of fixed text may be followed by anything. -/
theorem splits_literal (kind : TokenKind)
    (hkind : kind ≠ .string ∧ kind ≠ .number ∧ kind ≠ .space) (offset : Nat) :
    Splits (fun _ => True) kind.label.toList offset
      [Token.ofRun kind.label.toList kind.label offset] := by
  refine (splits_lexeme (language_literal kind hkind) offset).mono fun c _ => ?_
  rw [followers_literal hkind]
  exact List.not_mem_nil

/-- White space is one token or none, and does not count. -/
theorem exists_splits_blank (ha : Blank a) (offset : Nat) :
    ∃ ts, Splits (fun c => ¬ IsBlank c) a offset ts ∧ Decoder.significant ts = [] := by
  by_cases hnil : a = []
  · rw [hnil]
    exact ⟨[], splits_nil, rfl⟩
  · have hlanguage : a ∈ TokenKind.space.term.language :=
      TokenKind.mem_language_space.2 ⟨hnil, ha⟩
    refine ⟨_, (splits_lexeme hlanguage offset).mono fun c hc => ?_, ?_⟩
    · exact fun hmem => hc (TokenKind.isBlank_iff.1 hmem)
    · rw [significant_cons_space (kind?_ofRun a .space offset)]
      rfl

/-! ## 2. Effects -/

/-- What may follow an element: a comma or a closing bracket. -/
def AfterElement (c : Char) : Prop := c = ',' ∨ c = ']' ∨ c = '\x7d'

def AfterValue (c : Char) : Prop := IsBlank c ∨ AfterElement c

def Phrase.After : Phrase → Char → Prop
  | .value _ => AfterValue
  | _ => AfterElement

/-- So many open containers do not exceed the limit, if there is one. -/
def Within (limit : Option Nat) (count : Nat) : Prop := ∀ L, limit = some L → count ≤ L

/-- What reading the tokens of a phrase does, if there is room for `n` more containers. -/
def Phrase.Effect (limit : Option Nat) (n : Nat) (ts : List Token) : Phrase → Prop
  | .value v => ∀ frames, Within limit (n + frames.length) →
      (Reader.value frames).run limit ts = .ok (Reader.complete v frames)
  | .element v => ∀ frames, Within limit (n + frames.length) →
      (Reader.value frames).run limit ts = .ok (Reader.complete v frames)
  | .elements vs => ∀ outer, Within limit (n + (outer.length + 1)) →
      (Reader.firstItem outer).run limit ts = .ok (.afterItem vs.reverse outer)
  | .member k v => ∀ members outer, Within limit (n + (outer.length + 1)) →
      (Reader.nextKey members outer).run limit ts
        = .ok (.afterMember (Entries.insert k v members) outer)
  | .members ms => ∀ outer, Within limit (n + (outer.length + 1)) →
      (Reader.firstKey outer).run limit ts = .ok (.afterMember (Entries.ofList ms) outer)

theorem run_append {reader middle : Reader} (h : reader.run limit ts = .ok middle) :
    reader.run limit (ts ++ us) = middle.run limit us := by
  induction ts generalizing reader with
  | nil =>
    cases h
    rfl
  | cons t ts ih =>
    obtain ⟨next, hstep, hrest⟩ := Reader.run_cons_eq_ok_iff.1 h
    rw [List.cons_append, Reader.run, hstep]
    exact ih hrest

theorem run_singleton {reader middle : Reader} {t : Token} (h : reader.step limit t = .ok middle) :
    reader.run limit [t] = .ok middle :=
  Reader.run_cons_eq_ok_iff.2 ⟨middle, h, rfl⟩

/-- The first item of an array is read like a further one. -/
theorem run_firstItem {outer frames : List Frame} {items : List Value}
    (h : (Reader.value (.array [] :: outer)).run limit ts = .ok (.afterItem items frames)) :
    (Reader.firstItem outer).run limit ts = .ok (.afterItem items frames) := by
  cases ts with
  | nil => cases h
  | cons t ts =>
    obtain ⟨middle, hstep, hrest⟩ := Reader.run_cons_eq_ok_iff.1 h
    refine Reader.run_cons_eq_ok_iff.2 ⟨middle, ?_, hrest⟩
    rw [Reader.step]
    split
    · rename_i hkind
      simp [Reader.step, Reader.beginValue, hkind, Reader.unexpected] at hstep
    · exact hstep

/-- The first member of an object is read like a further one. -/
theorem run_firstKey {outer frames : List Frame} {members : List (String × Value)}
    (h : (Reader.nextKey [] outer).run limit ts = .ok (.afterMember members frames)) :
    (Reader.firstKey outer).run limit ts = .ok (.afterMember members frames) := by
  cases ts with
  | nil => cases h
  | cons t ts =>
    obtain ⟨middle, hstep, hrest⟩ := Reader.run_cons_eq_ok_iff.1 h
    refine Reader.run_cons_eq_ok_iff.2 ⟨middle, ?_, hrest⟩
    rw [Reader.step]
    split
    · rename_i hkind
      simp [Reader.step, Reader.readKey, hkind, Reader.unexpected] at hstep
    · exact hstep

/-- There is room for a container where its contents have room. -/
theorem openContainer_eq_ok {frames : List Frame} {n : Nat} {t : Token}
    {into : List Frame → Reader} (h : Within limit (n + 1 + frames.length)) :
    Reader.openContainer limit frames t into = .ok (into frames) := by
  refine Reader.openContainer_eq_ok_iff.2 ⟨fun hlimit => ?_, rfl⟩
  have hle := h _ hlimit
  omega

/-! ## 3. Phrases -/

/-- The phrase splits into tokens, and reading them has its effect. -/
def Accepted (n : Nat) (p : Phrase) (w : List Char) : Prop :=
  ∀ offset, ∃ ts, Splits p.After w offset ts ∧ ∀ limit, p.Effect limit n (Decoder.significant ts)

theorem AfterElement.not_blank {c : Char} (h : AfterElement c) : ¬ IsBlank c := by
  rintro hblank
  rcases h with rfl | rfl | rfl <;> rcases hblank with h | h | h | h <;> cases h

theorem AfterValue.not_follower {c : Char} (h : AfterValue c) : ¬ c ∈ TokenKind.number.followers := by
  rcases h with (rfl | rfl | rfl | rfl) | (rfl | rfl | rfl) <;> decide

/-- A token other than white space does not begin with white space. -/
theorem head_not_blank (hw : w ∈ kind.term.language) (hkind : kind ≠ .space) :
    w ≠ [] ∧ ∀ c ∈ w.head?, ¬ IsBlank c := by
  obtain ⟨d, v, rfl⟩ := List.exists_cons_of_ne_nil (TokenKind.ne_nil_of_language hw)
  refine ⟨List.cons_ne_nil d v, fun c hc hblank => hkind ?_⟩
  obtain rfl : d = c := Option.some.inj hc
  exact TokenKind.eq_of_mem_firsts
    (TokenKind.mem_firsts_of_consumable (kind.term.language_le_consumable hw))
    (TokenKind.isBlank_iff.2 hblank)

theorem stringText_language {s : String} (h : StringText w s) :
    w ∈ TokenKind.string.term.language := by
  obtain ⟨x, cs, hw, hbody, _⟩ := h
  exact mem_language_string.2 ⟨x, hw, hbody.raw⟩

theorem Derives.value_head {n : Nat} {v : Value} (h : Derives n (.value v) w) :
    w ≠ [] ∧ ∀ c ∈ w.head?, ¬ IsBlank c := by
  have hopen : ∀ {c : Char} (v : List Char), ¬ IsBlank c →
      c :: v ≠ [] ∧ ∀ d ∈ (c :: v).head?, ¬ IsBlank d := by
    intro c v hc
    refine ⟨List.cons_ne_nil c v, fun d hd => ?_⟩
    obtain rfl : c = d := Option.some.inj hd
    exact hc
  cases h with
  | null => exact head_not_blank (language_literal .null (by decide)) nofun
  | true => exact head_not_blank (language_literal .true (by decide)) nofun
  | false => exact head_not_blank (language_literal .false (by decide)) nofun
  | number hw =>
    have hlanguage : w ∈ TokenKind.number.term.language := TokenKind.mem_language_number.2 hw
    exact head_not_blank hlanguage nofun
  | string hw => exact head_not_blank (stringText_language hw) nofun
  | emptyArray => exact hopen _ (by rintro (h | h | h | h) <;> cases h)
  | array => exact hopen _ (by rintro (h | h | h | h) <;> cases h)
  | emptyObject => exact hopen _ (by rintro (h | h | h | h) <;> cases h)
  | object => exact hopen _ (by rintro (h | h | h | h) <;> cases h)

/-! ### Scalars -/

/-- A token of another kind than white space counts. -/
theorem significant_ofRun (kind : TokenKind) {run : List Char} (hkind : kind ≠ .space) :
    Decoder.significant (Token.ofRun run kind.label offset :: ts)
      = Token.ofRun run kind.label offset :: Decoder.significant ts := by
  refine significant_cons ?_
  rw [kind?_ofRun]
  exact fun heq => hkind (Option.some.inj heq)

/-- A value that is one token. -/
theorem accepted_scalar {n : Nat} {v : Value} (hw : w ∈ kind.term.language)
    (hkind : kind ≠ .space) (hafter : ∀ c, AfterValue c → ¬ c ∈ kind.followers)
    (hbegin : ∀ limit frames offset, Reader.beginValue limit frames
      (Token.ofRun w kind.label offset) = .ok (Reader.complete v frames)) :
    Accepted n (.value v) w := by
  intro offset
  refine ⟨_, (splits_lexeme hw offset).mono hafter, fun limit frames _ => ?_⟩
  rw [significant_ofRun kind hkind]
  exact run_singleton (hbegin limit frames offset)

theorem accepted_literal (kind : TokenKind) {n : Nat} {v : Value}
    (hkind : kind ≠ .string ∧ kind ≠ .number ∧ kind ≠ .space)
    (hbegin : ∀ limit frames (t : Token), t.kind? = some kind →
      Reader.beginValue limit frames t = .ok (Reader.complete v frames)) :
    Accepted n (.value v) kind.label.toList := by
  refine accepted_scalar (language_literal kind hkind) hkind.2.2 (fun c _ => ?_) ?_
  · rw [followers_literal hkind]
    exact List.not_mem_nil
  · exact fun limit frames offset => hbegin limit frames _ (kind?_ofRun _ _ _)

theorem accepted_number {n : Nat} (hw : NumberText w) :
    Accepted n (.value (.number ⟨String.ofList w⟩)) w := by
  have hlanguage : w ∈ TokenKind.number.term.language := TokenKind.mem_language_number.2 hw
  refine accepted_scalar hlanguage nofun (fun c hc => hc.not_follower) ?_
  intro limit frames offset
  rw [Reader.beginValue, kind?_ofRun]
  rfl

theorem unescape_ofRun {s : String} (hw : StringText w s) (label : Label) :
    (Token.ofRun w label offset).unescape = .ok s := by
  have hcontent : (Token.ofRun w label offset).content.toList = w := String.toList_ofList
  rw [← hcontent] at hw
  exact (stringText_iff.1 hw).2

theorem accepted_string {n : Nat} {s : String} (hw : StringText w s) :
    Accepted n (.value (.string s)) w := by
  refine accepted_scalar (stringText_language hw) nofun (fun c _ => List.not_mem_nil) ?_
  intro limit frames offset
  simp only [Reader.beginValue, kind?_ofRun, unescape_ofRun hw]
  rfl

/-! ### Containers -/

/-- A text between two brackets that takes a reader from inside the container to a state in which
the closing bracket completes the value. -/
theorem accepted_container {n : Nat} {v : Value} (opening closing : TokenKind)
    (into : List Frame → Reader)
    (hopening : opening ≠ .string ∧ opening ≠ .number ∧ opening ≠ .space)
    (hclosing : closing ≠ .string ∧ closing ≠ .number ∧ closing ≠ .space)
    (hhead : ∀ c ∈ closing.label.toList.head?, Q c)
    (hbegin : ∀ limit frames (t : Token), t.kind? = some opening →
      Reader.beginValue limit frames t = Reader.openContainer limit frames t into)
    (hinner : ∀ offset, ∃ ts, Splits Q w offset ts ∧ ∀ limit frames,
      Within limit (n + (frames.length + 1)) → ∃ middle,
        (into frames).run limit (Decoder.significant ts) = .ok middle ∧
        ∀ t : Token, t.kind? = some closing →
          middle.step limit t = .ok (Reader.complete v frames)) :
    Accepted (n + 1) (.value v) (opening.label.toList ++ (w ++ closing.label.toList)) := by
  intro offset
  have hne : closing.label.toList ≠ [] := 
    TokenKind.ne_nil_of_language (language_literal closing hclosing)
  -- The tokens are the opening bracket, those of the contents and the closing bracket.
  obtain ⟨ts, hts, heffect⟩ := hinner (offset + Utf8.byteLength opening.label.toList)
  have hlast := splits_literal closing hclosing
    (offset + Utf8.byteLength opening.label.toList + Utf8.byteLength w)
  have htail := hts.append hlast hhead fun hnil => absurd hnil hne
  have hall := (splits_literal opening hopening offset).append htail (fun _ _ => trivial)
    fun _ _ _ => trivial
  refine ⟨_, hall.mono fun _ _ => trivial, fun limit frames hlimit => ?_⟩
  have hroom : Within limit (n + (frames.length + 1)) := by
    rwa [Nat.add_comm frames.length 1, ← Nat.add_assoc]
  obtain ⟨middle, hrun, hclose⟩ := heffect limit frames hroom
  rw [List.singleton_append, significant_ofRun opening hopening.2.2, significant_append,
    significant_ofRun closing hclosing.2.2]
  refine Reader.run_cons_eq_ok_iff.2 ⟨into frames, ?_, ?_⟩
  · rw [Reader.step, hbegin _ _ _ (kind?_ofRun _ _ _)]
    exact openContainer_eq_ok hlimit
  · rw [run_append hrun]
    exact run_singleton (hclose _ (kind?_ofRun _ _ _))

theorem accepted_emptyArray {n : Nat} (ha : Blank a) :
    Accepted (n + 1) (.value (.array [])) ('[' :: (a ++ [']'])) := by
  refine accepted_container .leftBracket .rightBracket .firstItem (Q := fun c => ¬ IsBlank c)
    (by decide) (by decide) ?_ ?_ fun offset => ?_
  · rintro c ⟨⟩
    exact AfterElement.not_blank (.inr (.inl rfl))
  · intro limit frames t ht
    rw [Reader.beginValue, ht]
  · obtain ⟨ts, hts, hnone⟩ := exists_splits_blank ha offset
    refine ⟨ts, hts, fun limit frames _ => ⟨.firstItem frames, ?_, fun t ht => ?_⟩⟩
    · rw [hnone]
      rfl
    · rw [Reader.step, if_pos ht]

theorem accepted_emptyObject {n : Nat} (ha : Blank a) :
    Accepted (n + 1) (.value (.object [])) ('\x7b' :: (a ++ ['\x7d'])) := by
  refine accepted_container .leftBrace .rightBrace .firstKey (Q := fun c => ¬ IsBlank c)
    (by decide) (by decide) ?_ ?_ fun offset => ?_
  · rintro c ⟨⟩
    exact AfterElement.not_blank (.inr (.inr rfl))
  · intro limit frames t ht
    rw [Reader.beginValue, ht]
  · obtain ⟨ts, hts, hnone⟩ := exists_splits_blank ha offset
    refine ⟨ts, hts, fun limit frames _ => ⟨.firstKey frames, ?_, fun t ht => ?_⟩⟩
    · rw [hnone]
      rfl
    · rw [Reader.step, if_pos ht]

theorem accepted_array {n : Nat} {vs : List Value} (ih : Accepted n (.elements vs) w) :
    Accepted (n + 1) (.value (.array vs)) ('[' :: (w ++ [']'])) := by
  refine accepted_container .leftBracket .rightBracket .firstItem (Q := AfterElement)
    (by decide) (by decide) ?_ ?_ fun offset => ?_
  · rintro c ⟨⟩
    exact .inr (.inl rfl)
  · intro limit frames t ht
    rw [Reader.beginValue, ht]
  · obtain ⟨ts, hts, heffect⟩ := ih offset
    refine ⟨ts, hts, fun limit frames hroom => ⟨_, heffect limit frames hroom, fun t ht => ?_⟩⟩
    rw [Reader.step, ht]
    simp only [List.reverse_reverse]

theorem accepted_object {n : Nat} {ms entries : List (String × Value)}
    (ih : Accepted n (.members ms) w) (hentries : Latest ms entries) :
    Accepted (n + 1) (.value (.object entries)) ('\x7b' :: (w ++ ['\x7d'])) := by
  refine accepted_container .leftBrace .rightBrace .firstKey (Q := AfterElement)
    (by decide) (by decide) ?_ ?_ fun offset => ?_
  · rintro c ⟨⟩
    exact .inr (.inr rfl)
  · intro limit frames t ht
    rw [Reader.beginValue, ht]
  · obtain ⟨ts, hts, heffect⟩ := ih offset
    refine ⟨ts, hts, fun limit frames hroom => ⟨_, heffect limit frames hroom, fun t ht => ?_⟩⟩
    rw [Reader.step, ht, latest_iff.1 hentries]

/-! ### Elements and members -/

theorem accepted_element {n : Nat} {b : List Char} {v : Value} (ha : Blank a)
    (inner : Derives n (.value v) w) (ih : Accepted n (.value v) w) (hb : Blank b) :
    Accepted n (.element v) (a ++ (w ++ b)) := by
  intro offset
  have ⟨hne, hhead⟩ := inner.value_head
  -- The white space on either side gives tokens that are not read.
  obtain ⟨ta, hta, hanone⟩ := exists_splits_blank ha offset
  obtain ⟨ts, hts, heffect⟩ := ih (offset + Utf8.byteLength a)
  obtain ⟨tb, htb, hbnone⟩ :=
    exists_splits_blank hb (offset + Utf8.byteLength a + Utf8.byteLength w)
  have hvalue : Splits AfterElement (w ++ b) (offset + Utf8.byteLength a) (ts ++ tb) := by
    refine hts.append (htb.mono fun c hc => hc.not_blank) (fun c hc => ?_) fun _ c hc => .inr hc
    exact .inl (hb c (List.mem_of_mem_head? hc))
  have hall : Splits AfterElement (a ++ (w ++ b)) offset (ta ++ (ts ++ tb)) := by
    refine hta.append hvalue (fun c hc => ?_) fun hnil => ?_
    · rw [List.head?_append_of_ne_nil w hne] at hc
      exact hhead c hc
    · exact absurd (List.append_eq_nil_iff.1 hnil).1 hne
  refine ⟨_, hall, fun limit frames hroom => ?_⟩
  rw [significant_append, significant_append, hanone, hbnone, List.append_nil, List.nil_append]
  exact heffect limit frames hroom

theorem accepted_firstElement {n : Nat} {v : Value} (ih : Accepted n (.element v) w) :
    Accepted n (.elements [v]) w := by
  intro offset
  obtain ⟨ts, hts, heffect⟩ := ih offset
  refine ⟨ts, hts, fun limit outer hroom => run_firstItem ?_⟩
  exact heffect limit (.array [] :: outer) hroom

/-- A comma between two parts of a container. -/
theorem splits_comma {v : List Char} {vs : List Token} (hu : Splits AfterElement u offset ts)
    (hv : Splits Q v (offset + Utf8.byteLength u + 1) vs) :
    Splits Q (u ++ ',' :: v) offset
      (ts ++ Token.ofRun [','] TokenKind.comma.label (offset + Utf8.byteLength u) :: vs) := by
  have hcomma := splits_literal .comma (by decide) (offset + Utf8.byteLength u)
  refine hu.append (hcomma.append (w := v) hv (fun _ _ => trivial) fun _ _ _ => trivial) ?_ nofun
  rintro c ⟨⟩
  exact .inl rfl

theorem accepted_nextElement {n : Nat} {vs : List Value} {v : Value}
    (ihu : Accepted n (.elements vs) u) (ihw : Accepted n (.element v) w) :
    Accepted n (.elements (vs ++ [v])) (u ++ ',' :: w) := by
  intro offset
  obtain ⟨ts, hts, heffect⟩ := ihu offset
  obtain ⟨us, hus, heffect'⟩ := ihw (offset + Utf8.byteLength u + 1)
  refine ⟨_, splits_comma hts hus, fun limit outer hroom => ?_⟩
  rw [significant_append, significant_ofRun .comma nofun,
    run_append (heffect limit outer hroom), List.reverse_append]
  refine Reader.run_cons_eq_ok_iff.2 ⟨.value (.array vs.reverse :: outer), ?_, ?_⟩
  · rw [Reader.step, kind?_ofRun]
  · exact heffect' limit (.array vs.reverse :: outer) hroom

theorem accepted_member {n : Nat} {x b : List Char} {k : String} {v : Value} (ha : Blank a)
    (hx : StringText x k) (hb : Blank b) (ih : Accepted n (.element v) w) :
    Accepted n (.member k v) (a ++ (x ++ (b ++ ':' :: w))) := by
  intro offset
  have hlanguage := stringText_language hx
  have ⟨hne, hhead⟩ := head_not_blank hlanguage nofun
  obtain ⟨ta, hta, hanone⟩ := exists_splits_blank ha offset
  obtain ⟨tb, htb, hbnone⟩ :=
    exists_splits_blank hb (offset + Utf8.byteLength a + Utf8.byteLength x)
  have hkey := (splits_lexeme hlanguage (offset + Utf8.byteLength a)).mono
    (Q := fun _ => True) fun _ _ => List.not_mem_nil
  have hcolon := splits_literal .colon (by decide)
    (offset + Utf8.byteLength a + Utf8.byteLength x + Utf8.byteLength b)
  obtain ⟨ts, hts, heffect⟩ := ih (offset + Utf8.byteLength a + Utf8.byteLength x
    + Utf8.byteLength b + Utf8.byteLength TokenKind.colon.label.toList)
  -- The parts are put together from the last one to the first.
  have hvalue := hcolon.append hts (fun _ _ => trivial) fun _ _ _ => trivial
  have hrest := htb.append hvalue (by
    rintro c ⟨⟩
    rintro (h | h | h | h) <;> cases h) nofun
  have hstring := hkey.append hrest (fun _ _ => trivial) fun _ _ _ => trivial
  have hall := hta.append hstring (fun c hc => by
    rw [List.head?_append_of_ne_nil x hne] at hc
    exact hhead c hc) fun hnil => absurd (List.append_eq_nil_iff.1 hnil).1 hne
  refine ⟨_, hall, fun limit members outer hroom => ?_⟩
  rw [significant_append, hanone, List.nil_append, List.singleton_append,
    significant_ofRun .string nofun, significant_append, hbnone, List.nil_append,
    List.singleton_append, significant_ofRun .colon nofun]
  refine Reader.run_cons_eq_ok_iff.2 ⟨.colon members k outer, ?_, ?_⟩
  · rw [Reader.step, Reader.readKey, kind?_ofRun, if_pos rfl, unescape_ofRun hx]
    rfl
  · refine Reader.run_cons_eq_ok_iff.2 ⟨.value (.object members k :: outer), ?_, ?_⟩
    · rw [Reader.step, kind?_ofRun, if_pos rfl]
    · exact heffect limit (.object members k :: outer) hroom

theorem accepted_firstMember {n : Nat} {k : String} {v : Value} (ih : Accepted n (.member k v) w) :
    Accepted n (.members [(k, v)]) w := by
  intro offset
  obtain ⟨ts, hts, heffect⟩ := ih offset
  exact ⟨ts, hts, fun limit outer hroom => run_firstKey (heffect limit [] outer hroom)⟩

theorem accepted_nextMember {n : Nat} {ms : List (String × Value)} {k : String} {v : Value}
    (ihu : Accepted n (.members ms) u) (ihw : Accepted n (.member k v) w) :
    Accepted n (.members (ms ++ [(k, v)])) (u ++ ',' :: w) := by
  intro offset
  obtain ⟨ts, hts, heffect⟩ := ihu offset
  obtain ⟨us, hus, heffect'⟩ := ihw (offset + Utf8.byteLength u + 1)
  refine ⟨_, splits_comma hts hus, fun limit outer hroom => ?_⟩
  rw [significant_append, significant_ofRun .comma nofun,
    run_append (heffect limit outer hroom), Entries.ofList_append_singleton]
  refine Reader.run_cons_eq_ok_iff.2 ⟨.nextKey (Entries.ofList ms) outer, ?_, ?_⟩
  · rw [Reader.step, kind?_ofRun]
  · exact heffect' limit (Entries.ofList ms) outer hroom

/-! ## 4. Derivations -/

theorem Derives.accepted {n : Nat} {p : Phrase} (h : Derives n p w) : Accepted n p w := by
  induction h with
  | null =>
    refine accepted_literal .null (by decide) fun limit frames t ht => ?_
    rw [Reader.beginValue, ht]
  | true =>
    refine accepted_literal .true (by decide) fun limit frames t ht => ?_
    rw [Reader.beginValue, ht]
  | false =>
    refine accepted_literal .false (by decide) fun limit frames t ht => ?_
    rw [Reader.beginValue, ht]
  | number hw => exact accepted_number hw
  | string hw => exact accepted_string hw
  | emptyArray ha => exact accepted_emptyArray ha
  | array _ ih => exact accepted_array ih
  | emptyObject ha => exact accepted_emptyObject ha
  | object _ hentries ih => exact accepted_object ih hentries
  | element ha inner hb ih => exact accepted_element ha inner ih hb
  | firstElement _ ih => exact accepted_firstElement ih
  | nextElement _ _ ihu ihw => exact accepted_nextElement ihu ihw
  | member ha hx hb _ ih => exact accepted_member ha hx hb ih
  | firstMember _ ih => exact accepted_firstMember ih
  | nextMember _ _ ihu ihw => exact accepted_nextMember ihu ihw

/-- The tokens of an element are read to the value that it denotes, where the limit leaves room. -/
theorem Derives.exists_tokens {n : Nat} {v : Value} (h : Derives n (.element v) w) :
    ∃ tokens, JsonMunch 0 w tokens ∧ ∀ limit, Within limit n →
      Reader.read limit (Decoder.significant tokens) = .ok v := by
  obtain ⟨ts, hts, heffect⟩ := h.accepted 0
  have hmunch := hts [] [] nofun (.done _)
  rw [List.append_nil, List.append_nil] at hmunch
  refine ⟨ts, hmunch, fun limit hroom => ?_⟩
  exact Reader.read_eq_ok_iff.2 (heffect limit [] hroom)

end Grammar

end JsonAutomata
