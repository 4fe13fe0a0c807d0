import JsonAutomata.Proofs.Json.Tokens
import JsonAutomata.Proofs.Sorted.Lookup

/-!
# Reading — what an accepted text derives

`Consumed L reader text` says how the text that was read so far divides, for every state of a reader
with at most `L` containers open: complete phrases inside the open containers, and what has been
read of the innermost one.  One token keeps it (`Consumed.step`), and so does a whole text
(`Consumed.run_tokens`).  When the reader is done, the text is an element of the grammar.
-/

namespace JsonAutomata

open Grammar

namespace Grammar

/-! ## 1. Objects and white space -/

/-- The entries of an object are what entering its members one by one gives. -/
theorem latest_iff {ms entries : List (String × Value)} :
    Latest ms entries ↔ entries = Entries.ofList ms := by
  have hfind : ∀ k v, Entries.lookup k (Entries.ofList ms) = some v ↔
      ∃ before after, ms = before ++ (k, v) :: after ∧ ∀ m ∈ after, m.1 ≠ k := by
    intro k v
    rw [Entries.lookup_ofList, Option.map_eq_some_iff]
    constructor
    · rintro ⟨⟨k', v'⟩, hfind, rfl⟩
      obtain ⟨hk, before, after, heq, hbefore⟩ := List.find?_eq_some_iff_append.1 hfind
      obtain rfl : k' = k := of_decide_eq_true hk
      refine ⟨after.reverse, before.reverse, ?_, fun m hm => ?_⟩
      · rw [← List.reverse_reverse ms, heq]
        simp
      · simpa using hbefore m (List.mem_reverse.1 hm)
    · rintro ⟨before, after, rfl, hafter⟩
      refine ⟨(k, v), List.find?_eq_some_iff_append.2 ⟨by simp, after.reverse, before.reverse, by simp,
        fun m hm => ?_⟩, rfl⟩
      simpa using hafter m (List.mem_reverse.1 hm)
  have hascend := Entries.keysAscend_ofList ms
  constructor
  · rintro ⟨hentries, hlast⟩
    refine Entries.eq_of_lookup_eq hentries hascend fun k => Option.ext fun v => ?_
    rw [Entries.lookup_eq_some_iff hentries, hlast, hfind]
  · rintro rfl
    refine ⟨hascend, fun k v => ?_⟩
    rw [← Entries.lookup_eq_some_iff hascend, hfind]

theorem blank_nil : Blank [] := fun _ hc => absurd hc List.not_mem_nil

theorem Blank.append {a b : List Char} (ha : Blank a) (hb : Blank b) : Blank (a ++ b) := by
  intro c hc
  rcases List.mem_append.1 hc with hc | hc
  · exact ha c hc
  · exact hb c hc

/-- White space may follow every phrase but a bare value. -/
theorem Derives.append_blank {n : Nat} {p : Phrase} {w b : List Char} (h : Derives n p w)
    (hp : ∀ v, p ≠ .value v) (hb : Blank b) : Derives n p (w ++ b) := by
  induction h with
  | element ha inner hb' =>
    simp only [List.append_assoc]
    exact .element ha inner (hb'.append hb)
  | firstElement _ ih => exact .firstElement (ih nofun)
  | nextElement before _ _ ih =>
    simp only [List.append_assoc, List.cons_append]
    exact .nextElement before (ih nofun)
  | member ha hx hb' _ ih =>
    simp only [List.append_assoc, List.cons_append]
    exact .member ha hx hb' (ih nofun)
  | firstMember _ ih => exact .firstMember (ih nofun)
  | nextMember before _ _ ih =>
    simp only [List.append_assoc, List.cons_append]
    exact .nextMember before (ih nofun)
  | _ => exact absurd rfl (hp _)

end Grammar

namespace Reader

/-! ## 2. What has been consumed -/

def depth : Reader → Nat
  | value frames => frames.length
  | firstItem outer => outer.length + 1
  | firstKey outer => outer.length + 1
  | nextKey _ outer => outer.length + 1
  | colon _ _ outer => outer.length + 1
  | afterItem _ outer => outer.length + 1
  | afterMember _ outer => outer.length + 1
  | done _ => 0

/-- The reader has consumed the text, with at most `L` containers open at once. -/
inductive Consumed (L : Nat) : Reader → List Char → Prop
  | start {a : List Char} (ha : Blank a) : Consumed L (.value []) a
  | openArray {outer : List Frame} {w a : List Char} (h : Consumed L (.value outer) w)
      (hlimit : outer.length < L) (ha : Blank a) : Consumed L (.firstItem outer) (w ++ '[' :: a)
  | firstItem {outer : List Frame} {w : List Char} (h : Consumed L (.firstItem outer) w) :
      Consumed L (.value (.array [] :: outer)) w
  | items {n : Nat} {outer : List Frame} {items : List Value} {w u : List Char}
      (h : Consumed L (.value outer) w) (hn : n + (outer.length + 1) = L)
      (inner : Derives n (.elements items.reverse) u) :
      Consumed L (.afterItem items outer) (w ++ '[' :: u)
  | nextItem {outer : List Frame} {items : List Value} {w a : List Char}
      (h : Consumed L (.afterItem items outer) w) (ha : Blank a) :
      Consumed L (.value (.array items :: outer)) (w ++ ',' :: a)
  | openObject {outer : List Frame} {w a : List Char} (h : Consumed L (.value outer) w)
      (hlimit : outer.length < L) (ha : Blank a) : Consumed L (.firstKey outer) (w ++ '\x7b' :: a)
  | firstKey {outer : List Frame} {w x b : List Char} {key : String}
      (h : Consumed L (.firstKey outer) w) (hx : StringText x key) (hb : Blank b) :
      Consumed L (.colon [] key outer) (w ++ (x ++ b))
  | members {n : Nat} {outer : List Frame} {ms : List (String × Value)} {w u : List Char}
      (h : Consumed L (.value outer) w) (hn : n + (outer.length + 1) = L)
      (inner : Derives n (.members ms) u) :
      Consumed L (.afterMember (Entries.ofList ms) outer) (w ++ '\x7b' :: u)
  | nextMember {outer : List Frame} {members : List (String × Value)} {w a : List Char}
      (h : Consumed L (.afterMember members outer) w) (ha : Blank a) :
      Consumed L (.nextKey members outer) (w ++ ',' :: a)
  | nextKey {outer : List Frame} {members : List (String × Value)} {w x b : List Char}
      {key : String} (h : Consumed L (.nextKey members outer) w) (hx : StringText x key)
      (hb : Blank b) : Consumed L (.colon members key outer) (w ++ (x ++ b))
  | member {outer : List Frame} {members : List (String × Value)} {w a : List Char} {key : String}
      (h : Consumed L (.colon members key outer) w) (ha : Blank a) :
      Consumed L (.value (.object members key :: outer)) (w ++ ':' :: a)
  | done {v : Value} {w : List Char} (h : Derives L (.element v) w) : Consumed L (.done v) w

variable {L : Nat} {reader next : Reader} {frames outer : List Frame} {w a b run : List Char}
  {v : Value}

theorem Consumed.depth_le (h : Consumed L reader w) : reader.depth ≤ L := by
  induction h with
  | start => exact Nat.zero_le L
  | openArray _ hlimit => exact hlimit
  | firstItem _ ih => exact ih
  | items _ hn =>
    rw [depth]
    omega
  | nextItem _ _ ih => exact ih
  | openObject _ hlimit => exact hlimit
  | firstKey _ _ _ ih => exact ih
  | members _ hn =>
    rw [depth]
    omega
  | nextMember _ _ ih => exact ih
  | nextKey _ _ _ ih => exact ih
  | member _ _ ih => exact ih
  | done => exact Nat.zero_le L

/-- White space changes nothing. -/
theorem Consumed.append_blank (h : Consumed L reader w) (hb : Blank b) :
    Consumed L reader (w ++ b) := by
  induction h with
  | start ha => exact .start (ha.append hb)
  | openArray h hlimit ha =>
    simp only [List.append_assoc, List.cons_append]
    exact .openArray h hlimit (ha.append hb)
  | firstItem _ ih => exact .firstItem ih
  | items h hn inner =>
    simp only [List.append_assoc, List.cons_append]
    exact .items h hn (inner.append_blank nofun hb)
  | nextItem h ha =>
    simp only [List.append_assoc, List.cons_append]
    exact .nextItem h (ha.append hb)
  | openObject h hlimit ha =>
    simp only [List.append_assoc, List.cons_append]
    exact .openObject h hlimit (ha.append hb)
  | firstKey h hx hb' =>
    simp only [List.append_assoc]
    exact .firstKey h hx (hb'.append hb)
  | members h hn inner =>
    simp only [List.append_assoc, List.cons_append]
    exact .members h hn (inner.append_blank nofun hb)
  | nextMember h ha =>
    simp only [List.append_assoc, List.cons_append]
    exact .nextMember h (ha.append hb)
  | nextKey h hx hb' =>
    simp only [List.append_assoc]
    exact .nextKey h hx (hb'.append hb)
  | member h ha =>
    simp only [List.append_assoc, List.cons_append]
    exact .member h (ha.append hb)
  | done h => exact .done (h.append_blank nofun hb)

/-- A value that is read completely becomes part of the container around it. -/
theorem Consumed.complete {n : Nat} {u : List Char} (h : Consumed L (.value frames) w)
    (inner : Derives n (.value v) u) (hn : n + frames.length = L) :
    Consumed L (complete v frames) (w ++ u) := by
  -- White space before the value belongs to its element.
  have helement : ∀ {a}, Blank a → Derives n (.element v) (a ++ u) := by
    intro a ha
    have hel := Derives.element ha inner blank_nil
    rwa [List.append_nil] at hel
  cases h with
  | start ha =>
    obtain rfl : n = L := hn
    exact .done (helement ha)
  | firstItem h =>
    cases h with
    | openArray h hlimit ha =>
      have hfirst := Derives.firstElement (helement ha)
      rw [List.append_assoc, List.cons_append]
      show Consumed L (.afterItem [v] _) _
      exact .items h hn hfirst
  | nextItem h ha =>
    cases h with
    | @items n' outer items w' u' h hn' before =>
      obtain rfl : n = n' := by
        rw [List.length_cons] at hn
        omega
      have hnext := Derives.nextElement before (helement ha)
      rw [← List.reverse_cons] at hnext
      simp only [List.append_assoc, List.cons_append]
      exact .items h hn hnext
  | @member outer members w' a key h ha =>
    cases h with
    | firstKey h hx hb =>
      cases h with
      | openObject h hlimit ha' =>
        have hfirst := Derives.firstMember (.member ha' hx hb (helement ha))
        simp only [List.append_assoc, List.cons_append]
        show Consumed L (.afterMember (Entries.ofList [(key, v)]) _) _
        exact .members h hn hfirst
    | nextKey h hx hb =>
      cases h with
      | nextMember h ha' =>
        cases h with
        | @members n' _ ms w'' u' h hn' before =>
          obtain rfl : n = n' := by
            rw [List.length_cons] at hn
            omega
          have hnext := Derives.nextMember before (.member ha' hx hb (helement ha))
          simp only [List.append_assoc, List.cons_append]
          rw [Reader.complete, ← Entries.ofList_append_singleton]
          exact .members h hn hnext

/-! ## 3. One token -/

variable {kind : TokenKind} {offset : Nat} {text : List Char} {tokens : List Token}

/-- The text of a token of a fixed kind is its label. -/
theorem eq_label_of_language (hrun : run ∈ kind.term.language)
    (hkind : kind ≠ .string ∧ kind ≠ .number ∧ kind ≠ .space) : run = kind.label.toList := by
  rw [(TokenKind.term_of_literal hkind).1] at hrun
  exact Term.mem_language_literal.1 hrun

theorem stringText_of_unescape {key : String} (hrun : run ∈ TokenKind.stringTerm.language)
    (h : (Token.ofRun run TokenKind.string.label offset).unescape = .ok key) :
    StringText run key := by
  have hcontent : (Token.ofRun run TokenKind.string.label offset).content.toList = run :=
    String.toList_ofList
  rw [← hcontent] at hrun ⊢
  exact stringText_iff.2 ⟨hrun, h⟩

theorem openContainer_eq_ok_iff {limit : Option Nat} {token : Token} {into : List Frame → Reader} :
    openContainer limit frames token into = .ok next ↔
      limit ≠ some frames.length ∧ into frames = next := by
  unfold openContainer
  split
  · rename_i hlimit
    simp [hlimit]
  · rename_i hlimit
    simp [hlimit]

/-- The first token of a value. -/
theorem Consumed.beginValue (h : Consumed L (.value frames) w) (hrun : run ∈ kind.term.language)
    (hstep : beginValue (some L) frames (Token.ofRun run kind.label offset) = .ok next) :
    Consumed L next (w ++ run) := by
  have hle : frames.length ≤ L := h.depth_le
  have hn : L - frames.length + frames.length = L := Nat.sub_add_cancel hle
  rw [Reader.beginValue, kind?_ofRun] at hstep
  cases kind with
  | leftBrace =>
    obtain ⟨hlimit, rfl⟩ := openContainer_eq_ok_iff.1 hstep
    obtain rfl := eq_label_of_language hrun (by decide)
    have hlt : frames.length < L := Nat.lt_of_le_of_ne hle fun heq => hlimit (by rw [heq])
    exact .openObject h hlt blank_nil
  | leftBracket =>
    obtain ⟨hlimit, rfl⟩ := openContainer_eq_ok_iff.1 hstep
    obtain rfl := eq_label_of_language hrun (by decide)
    have hlt : frames.length < L := Nat.lt_of_le_of_ne hle fun heq => hlimit (by rw [heq])
    exact .openArray h hlt blank_nil
  | string =>
    obtain ⟨s, hs, rfl⟩ := map_eq_ok_iff.1 hstep
    exact h.complete (.string (stringText_of_unescape hrun hs)) hn
  | number =>
    cases hstep
    exact h.complete (.number (TokenKind.mem_language_number.1 hrun)) hn
  | true =>
    cases hstep
    obtain rfl := eq_label_of_language hrun (by decide)
    exact h.complete .true hn
  | false =>
    cases hstep
    obtain rfl := eq_label_of_language hrun (by decide)
    exact h.complete .false hn
  | null =>
    cases hstep
    obtain rfl := eq_label_of_language hrun (by decide)
    exact h.complete .null hn
  | _ => cases hstep

/-- A key is a string. -/
theorem readKey_eq_ok {members : List (String × Value)} (hrun : run ∈ kind.term.language)
    (hstep : readKey members outer (Token.ofRun run kind.label offset) = .ok next) :
    ∃ key, StringText run key ∧ next = .colon members key outer := by
  rw [readKey, kind?_ofRun] at hstep
  split at hstep
  · rename_i hkind
    cases hkind
    obtain ⟨key, hkey, rfl⟩ := map_eq_ok_iff.1 hstep
    exact ⟨key, stringText_of_unescape hrun hkey, rfl⟩
  · cases hstep

section Closing

variable {items : List Value} {members : List (String × Value)}

theorem Consumed.closeEmptyArray (h : Consumed L (.firstItem outer) w) :
    Consumed L (Reader.complete (.array []) outer) (w ++ [']']) := by
  cases h with
  | openArray h hlimit ha =>
    have hempty := h.complete (.emptyArray (n := L - outer.length - 1) ha) (by omega)
    rw [List.append_assoc]
    exact hempty

theorem Consumed.closeArray (h : Consumed L (.afterItem items outer) w) :
    Consumed L (Reader.complete (.array items.reverse) outer) (w ++ [']']) := by
  cases h with
  | items h hn inner =>
    rw [List.append_assoc]
    exact h.complete (.array inner) (by omega)

theorem Consumed.closeEmptyObject (h : Consumed L (.firstKey outer) w) :
    Consumed L (Reader.complete (.object []) outer) (w ++ ['\x7d']) := by
  cases h with
  | openObject h hlimit ha =>
    have hempty := h.complete (.emptyObject (n := L - outer.length - 1) ha) (by omega)
    rw [List.append_assoc]
    exact hempty

theorem Consumed.closeObject (h : Consumed L (.afterMember members outer) w) :
    Consumed L (Reader.complete (.object members) outer) (w ++ ['\x7d']) := by
  cases h with
  | members h hn inner =>
    rw [List.append_assoc]
    exact h.complete (.object inner (latest_iff.2 rfl)) (by omega)

end Closing

/-- Every token that is accepted keeps the division of the text. -/
theorem Consumed.step (h : Consumed L reader w) (hrun : run ∈ kind.term.language)
    (hstep : reader.step (some L) (Token.ofRun run kind.label offset) = .ok next) :
    Consumed L next (w ++ run) := by
  cases reader with
  | value frames => exact h.beginValue hrun hstep
  | firstItem outer =>
    rw [Reader.step, kind?_ofRun] at hstep
    split at hstep
    · rename_i hkind
      cases hkind
      cases hstep
      obtain rfl := eq_label_of_language hrun (by decide)
      exact h.closeEmptyArray
    · exact (Consumed.firstItem h).beginValue hrun hstep
  | firstKey outer =>
    rw [Reader.step, kind?_ofRun] at hstep
    split at hstep
    · rename_i hkind
      cases hkind
      cases hstep
      obtain rfl := eq_label_of_language hrun (by decide)
      exact h.closeEmptyObject
    · obtain ⟨key, hkey, rfl⟩ := readKey_eq_ok hrun hstep
      have hcolon := Consumed.firstKey h hkey blank_nil
      rwa [List.append_nil] at hcolon
  | nextKey members outer =>
    obtain ⟨key, hkey, rfl⟩ := readKey_eq_ok hrun hstep
    have hcolon := Consumed.nextKey h hkey blank_nil
    rwa [List.append_nil] at hcolon
  | colon members key outer =>
    rw [Reader.step, kind?_ofRun] at hstep
    split at hstep
    · rename_i hkind
      cases hkind
      cases hstep
      obtain rfl := eq_label_of_language hrun (by decide)
      exact .member h blank_nil
    · cases hstep
  | afterItem items outer =>
    rw [Reader.step, kind?_ofRun] at hstep
    split at hstep
    · rename_i hkind
      cases hkind
      cases hstep
      obtain rfl := eq_label_of_language hrun (by decide)
      exact .nextItem h blank_nil
    · rename_i hkind
      cases hkind
      cases hstep
      obtain rfl := eq_label_of_language hrun (by decide)
      exact h.closeArray
    · cases hstep
  | afterMember members outer =>
    rw [Reader.step, kind?_ofRun] at hstep
    split at hstep
    · rename_i hkind
      cases hkind
      cases hstep
      obtain rfl := eq_label_of_language hrun (by decide)
      exact .nextMember h blank_nil
    · rename_i hkind
      cases hkind
      cases hstep
      obtain rfl := eq_label_of_language hrun (by decide)
      exact h.closeObject
    · cases hstep
  | done v => cases hstep

/-! ## 4. Whole texts -/

theorem run_cons_eq_ok_iff {limit : Option Nat} {t : Token} :
    reader.run limit (t :: tokens) = .ok next ↔
      ∃ middle, reader.step limit t = .ok middle ∧ middle.run limit tokens = .ok next := by
  rw [Reader.run]
  cases reader.step limit t with
  | error e => simp
  | ok middle => simp

/-- Reading the tokens of a text keeps the division of what has been read. -/
theorem Consumed.run_tokens (h : Consumed L reader w) (hmunch : JsonMunch offset text tokens)
    (hrun : reader.run (some L) (Decoder.significant tokens) = .ok next) :
    Consumed L next (w ++ text) := by
  -- `w` is what was read before the tokens that are left.
  induction hmunch generalizing reader w with
  | done =>
    cases hrun
    rwa [List.append_nil]
  | @token offset run rest label tokens hne hlongest hlabel htail ih =>
    obtain ⟨kind, rfl, hlanguage⟩ := TokenKind.earliest_iff.1 hlabel
    rw [← List.append_assoc]
    by_cases hspace : kind = .space
    · -- White space is not read, but it belongs to the text.
      obtain rfl := hspace
      rw [significant_cons_space (kind?_ofRun run .space offset)] at hrun
      have hblank := (TokenKind.mem_language_space.1 hlanguage).2
      exact ih (h.append_blank hblank) hrun
    · have hkind : (Token.ofRun run kind.label offset).kind? ≠ some .space := by
        rw [kind?_ofRun]
        exact fun heq => hspace (Option.some.inj heq)
      rw [significant_cons hkind] at hrun
      obtain ⟨middle, hstep, hrest⟩ := run_cons_eq_ok_iff.1 hrun
      exact ih (h.step hlanguage hstep) hrest

theorem read_eq_ok_iff {limit : Option Nat} :
    read limit tokens = .ok v ↔ start.run limit tokens = .ok (.done v) := by
  rw [read]
  cases start.run limit tokens with
  | error e => simp
  | ok reader => cases reader <;> simp [finish]

/-- An accepted text is an element of the grammar and denotes the value that is read. -/
theorem derives_of_read (hmunch : JsonMunch 0 text tokens)
    (hread : read (some L) (Decoder.significant tokens) = .ok v) :
    Derives L (.element v) text := by
  have hdone := (Consumed.start blank_nil).run_tokens hmunch (read_eq_ok_iff.1 hread)
  cases hdone with
  | done h => exact h

end Reader

end JsonAutomata
