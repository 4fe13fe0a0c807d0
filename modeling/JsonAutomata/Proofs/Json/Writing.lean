import JsonAutomata.Json.Layout
import JsonAutomata.Proofs.Json.Reading
import JsonAutomata.Proofs.Json.Values
import JsonAutomata.Text.Utf16

/-!
# Writing — a written value derives itself

Every layout writes a value as a text that derives the same value, with as many containers open at
once as are nested in the value (`Value.derives_write`).  The escapes of a quoted string denote the
characters that they stand for, whether these are printable, controls, or outside the basic plane
(`stringBody_escape`).
-/

namespace JsonAutomata

open Grammar

namespace Grammar

/-! ## 1. Quoted strings -/

theorem hexDigit_spec {n : Nat} (h : n < 16) : HexDigit (hexDigit n) n := by
  have hall : ∀ n < 16, "0123456789abcdef".toList[n]? = some (hexDigit n) := by decide
  exact .inl (hall n h)

/-- The four digits of a unit spell it. -/
theorem hexUnit_hex4 {n : Nat} (h : n < 0x10000) : HexUnit (hex4 n) n := by
  refine ⟨_, _, _, _, n / 4096 % 16, n / 256 % 16, n / 16 % 16, n % 16, rfl, ?_, ?_, ?_, ?_, ?_⟩
  · omega
  · exact hexDigit_spec (Nat.mod_lt _ (by decide))
  · exact hexDigit_spec (Nat.mod_lt _ (by decide))
  · exact hexDigit_spec (Nat.mod_lt _ (by decide))
  · exact hexDigit_spec (Nat.mod_lt _ (by decide))

theorem stringBody_units (c : Char) {x s : List Char} (h : StringBody x s) :
    StringBody ((Utf16.units c).flatMap Quote.unitEscape ++ x) (c :: s) := by
  have hvalid : c.toNat < 0xD800 ∨ 0xDFFF < c.toNat ∧ c.toNat < 0x110000 := c.valid
  unfold Utf16.units
  split
  · rename_i hbasic
    -- No character is a surrogate, so a single unit stands for itself.
    have hunit := StringBody.unit (hexUnit_hex4 hbasic) (fun hs => by unfold HighSurrogate at hs; omega)
      (fun hs => by unfold LowSurrogate at hs; omega) h
    rw [Char.ofNat_toNat] at hunit
    exact hunit
  · rename_i hbasic
    have hhigh : HighSurrogate (Utf16.high c.toNat) := by
      unfold HighSurrogate Utf16.high
      omega
    have hlow : LowSurrogate (Utf16.low c.toNat) := by
      unfold LowSurrogate Utf16.low
      omega
    have hpair := StringBody.pair (hexUnit_hex4 (Nat.lt_trans hhigh.2 (by decide)))
      (hexUnit_hex4 (Nat.lt_trans hlow.2 (by decide))) hhigh hlow h
    have hcode : 0x10000 + 0x400 * (Utf16.high c.toNat - 0xD800) + (Utf16.low c.toNat - 0xDC00)
        = c.toNat := by
      unfold Utf16.high Utf16.low
      omega
    rw [hcode, Char.ofNat_toNat] at hpair
    exact hpair

/-- What stands for a character in a quoted string denotes that character. -/
theorem stringBody_escape (c : Char) {x s : List Char} (h : StringBody x s) :
    StringBody (Quote.escape c ++ x) (c :: s) := by
  have hshort : ∀ {e d : Char}, c = d → (e, d) ∈ shortEscapes →
      StringBody (['\\', e] ++ x) (c :: s) := by
    rintro e d rfl he
    exact .short he h
  unfold Quote.escape
  by_cases hquote : c = '"'
  · rw [if_pos hquote]
    exact hshort hquote (by decide)
  rw [if_neg hquote]
  by_cases hbackslash : c = '\\'
  · rw [if_pos hbackslash]
    exact hshort hbackslash (by decide)
  rw [if_neg hbackslash]
  by_cases hnewline : c = '\n'
  · rw [if_pos hnewline]
    exact hshort hnewline (by decide)
  rw [if_neg hnewline]
  by_cases hreturn : c = '\r'
  · rw [if_pos hreturn]
    exact hshort hreturn (by decide)
  rw [if_neg hreturn]
  by_cases htab : c = '\t'
  · rw [if_pos htab]
    exact hshort htab (by decide)
  rw [if_neg htab]
  by_cases hbackspace : c = '\x08'
  · rw [if_pos hbackspace]
    exact hshort hbackspace (by decide)
  rw [if_neg hbackspace]
  by_cases hfeed : c = '\x0c'
  · rw [if_pos hfeed]
    exact hshort hfeed (by decide)
  rw [if_neg hfeed]
  by_cases hprintable : ' ' ≤ c ∧ c ≤ '~'
  · rw [if_pos hprintable]
    exact .plain ⟨hprintable, hquote, hbackslash⟩ h
  · rw [if_neg hprintable]
    exact stringBody_units c h

theorem stringText_quoted (cs : List Char) : StringText (Quote.quoted cs) (String.ofList cs) := by
  have hbody : ∀ cs, StringBody (cs.flatMap Quote.escape) cs := by
    intro cs
    induction cs with
    | nil => exact .nil
    | cons c cs ih =>
      rw [List.flatMap_cons]
      exact stringBody_escape c ih
  exact ⟨_, cs, rfl, hbody cs, rfl⟩

/-! ## 2. Containers -/

/-- More room for containers does no harm. -/
theorem Derives.mono {n m : Nat} {p : Phrase} {w : List Char} (h : Derives n p w) (hle : n ≤ m) :
    Derives m p w := by
  induction h generalizing m with
  | null => exact .null
  | true => exact .true
  | false => exact .false
  | number hw => exact .number hw
  | string hw => exact .string hw
  | emptyArray ha =>
    obtain ⟨m, rfl⟩ := Nat.exists_eq_add_of_le' (Nat.le_of_add_left_le hle)
    exact .emptyArray ha
  | array _ ih =>
    obtain ⟨m, rfl⟩ := Nat.exists_eq_add_of_le' (Nat.le_of_add_left_le hle)
    exact .array (ih (Nat.le_of_succ_le_succ hle))
  | emptyObject ha =>
    obtain ⟨m, rfl⟩ := Nat.exists_eq_add_of_le' (Nat.le_of_add_left_le hle)
    exact .emptyObject ha
  | object _ hentries ih =>
    obtain ⟨m, rfl⟩ := Nat.exists_eq_add_of_le' (Nat.le_of_add_left_le hle)
    exact .object (ih (Nat.le_of_succ_le_succ hle)) hentries
  | element ha _ hb ih => exact .element ha (ih hle) hb
  | firstElement _ ih => exact .firstElement (ih hle)
  | nextElement _ _ ihu ihw => exact .nextElement (ihu hle) (ihw hle)
  | member ha hx hb _ ih => exact .member ha hx hb (ih hle)
  | firstMember _ ih => exact .firstMember (ih hle)
  | nextMember _ _ ihu ihw => exact .nextMember (ihu hle) (ihw hle)

/-- Parts that are separated by commas and white space make up a list of parts. -/
theorem derives_intercalate {α : Type} {part : α → Phrase} {parts : List α → Phrase} {n : Nat}
    (first : ∀ {a w}, Derives n (part a) w → Derives n (parts [a]) w)
    (next : ∀ {as u a w}, Derives n (parts as) u → Derives n (part a) w →
      Derives n (parts (as ++ [a])) (u ++ ',' :: w))
    {before sep : List Char} (hbefore : Blank before) (hsep : Blank sep)
    {as : List α} {ws : List (List Char)} (hne : as ≠ [])
    (h : List.Forall₂ (fun a w => ∀ b, Blank b → Derives n (part a) (b ++ w)) as ws) :
    Derives n (parts as) (before ++ (',' :: sep).intercalate ws) := by
  -- The parts that are left are put behind those that are taken already.
  have hmore : ∀ {as ws}, List.Forall₂ (fun a w => ∀ b, Blank b → Derives n (part a) (b ++ w)) as ws →
      ∀ {taken u}, Derives n (parts taken) u →
        Derives n (parts (taken ++ as)) (u ++ ws.flatMap fun w => ',' :: (sep ++ w)) := by
    intro as ws h
    induction h with
    | nil =>
      intro taken u htaken
      rw [List.append_nil, List.flatMap_nil, List.append_nil]
      exact htaken
    | @cons a w as ws hw _ ih =>
      intro taken u htaken
      have hlonger := ih (next htaken (hw sep hsep))
      rwa [List.append_assoc, List.append_assoc] at hlonger
  cases h with
  | nil => exact absurd rfl hne
  | cons hw htail =>
    rw [intercalate_eq_flatMap, ← List.append_assoc]
    exact hmore htail (first (hw before hbefore))

end Grammar

namespace Layout

/-! ## 3. Layouts -/

variable (layout : Layout)

theorem blank_newline (width : Nat) : Blank (newline width) := by
  intro c hc
  rcases List.mem_cons.1 hc with rfl | hc
  · exact .inr (.inr (.inr rfl))
  · exact .inl (List.eq_of_mem_replicate hc)

theorem blank_before : Blank layout.before := by
  cases layout with
  | compact => exact blank_nil
  | indented width => exact blank_newline _

theorem blank_after : Blank layout.after := by
  cases layout with
  | compact => exact blank_nil
  | indented width => exact blank_newline _

/-- Items are separated by a comma and white space. -/
theorem exists_between_eq : ∃ sep, layout.between = ',' :: sep ∧ Blank sep := by
  cases layout with
  | compact => exact ⟨[' '], rfl, by simp [Blank, IsBlank]⟩
  | indented width => exact ⟨_, rfl, blank_newline _⟩

/-- The parts of a container between its brackets, in a layout. -/
theorem exists_enclose_eq {α : Type} {part : α → Phrase} (parts : List α → Phrase) {n : Nat}
    (first : ∀ {a w}, Derives n (part a) w → Derives n (parts [a]) w)
    (next : ∀ {as u a w}, Derives n (parts as) u → Derives n (part a) w →
      Derives n (parts (as ++ [a])) (u ++ ',' :: w))
    (hparts : ∀ as v, parts as ≠ .value v) (opening closing : Char) {as : List α}
    {ws : List (List Char)} (hne : as ≠ [])
    (h : List.Forall₂ (fun a w => ∀ b, Blank b → Derives n (part a) (b ++ w)) as ws) :
    ∃ w, Derives n (parts as) w ∧
      layout.enclose opening closing ws = opening :: (w ++ [closing]) := by
  obtain ⟨sep, hbetween, hsep⟩ := layout.exists_between_eq
  have hlist := derives_intercalate first next layout.blank_before hsep hne h
  refine ⟨_, hlist.append_blank (hparts as) layout.blank_after, ?_⟩
  cases h with
  | nil => exact absurd rfl hne
  | cons _ _ => simp [enclose, hbetween, List.append_assoc]

end Layout

namespace Value

/-! ## 4. Values -/

mutual

/-- The number of containers that are nested in the value, the value itself included. -/
def nesting : Value → Nat
  | .array items => nestingItems items + 1
  | .object members => nestingMembers members + 1
  | _ => 0

def nestingItems : List Value → Nat
  | [] => 0
  | v :: vs => max v.nesting (nestingItems vs)

def nestingMembers : List (String × Value) → Nat
  | [] => 0
  | (_, v) :: ms => max v.nesting (nestingMembers ms)

end

mutual

/-- All numbers in the value are written as the grammar of numbers has them. -/
def Grammatical : Value → Prop
  | .number n => NumberText n.lexeme.toList
  | .array items => GrammaticalItems items
  | .object members => GrammaticalMembers members
  | _ => True

def GrammaticalItems : List Value → Prop
  | [] => True
  | v :: vs => v.Grammatical ∧ GrammaticalItems vs

def GrammaticalMembers : List (String × Value) → Prop
  | [] => True
  | (_, v) :: ms => v.Grammatical ∧ GrammaticalMembers ms

end

theorem grammaticalItems_iff {vs : List Value} :
    GrammaticalItems vs ↔ ∀ v ∈ vs, v.Grammatical := by
  induction vs with
  | nil => simp [GrammaticalItems]
  | cons v vs ih => simp [GrammaticalItems, ih]

theorem grammaticalMembers_iff {ms : List (String × Value)} :
    GrammaticalMembers ms ↔ ∀ m ∈ ms, m.2.Grammatical := by
  induction ms with
  | nil => simp [GrammaticalMembers]
  | cons m ms ih => simp [GrammaticalMembers, ih]

theorem derives_element {n : Nat} {v : Value} {b w : List Char} (h : Derives n (.value v) w)
    (hb : Blank b) : Derives n (.element v) (b ++ w) := by
  have helement := Derives.element hb h blank_nil
  rwa [List.append_nil] at helement

theorem derives_member {n : Nat} {v : Value} {b w : List Char} (k : String)
    (h : Derives n (.value v) w) (hb : Blank b) :
    Derives n (.member k v) (b ++ (Quote.quoted k.toList ++ ':' :: ' ' :: w)) := by
  have hkey := stringText_quoted k.toList
  rw [String.ofList_toList] at hkey
  have hspace : Blank [' '] := by simp [Blank, IsBlank]
  exact .member hb hkey blank_nil (derives_element h hspace)

mutual

/-- In every layout a value is written as a text that derives it. -/
theorem derives_write (v : Value) (layout : Layout) (hsorted : v.Sorted)
    (hgrammatical : v.Grammatical) : Derives v.nesting (.value v) (v.write layout) := by
  cases v with
  | null => exact .null
  | boolean b =>
    cases b with
    | true => exact .true
    | false => exact .false
  | number n =>
    rw [Grammatical] at hgrammatical
    have hnumber := Derives.number (n := 0) hgrammatical
    rw [String.ofList_toList] at hnumber
    rw [nesting, write]
    · exact hnumber
    all_goals nofun
  | string s =>
    have hstring := stringText_quoted s.toList
    rw [String.ofList_toList] at hstring
    rw [nesting, write]
    · exact .string hstring
    all_goals nofun
  | array items =>
    rw [nesting, write]
    rw [Sorted] at hsorted
    rw [Grammatical] at hgrammatical
    have hitems := derives_writeItems items layout.inner hsorted hgrammatical (Nat.le_refl _)
    by_cases hne : items = []
    · rw [hne, writeItems]
      exact .emptyArray blank_nil
    · obtain ⟨w, hw, heq⟩ := layout.exists_enclose_eq .elements .firstElement .nextElement
        nofun '[' ']' hne hitems
      rw [heq]
      exact .array hw
  | object members =>
    rw [nesting, write]
    rw [Sorted] at hsorted
    rw [Grammatical] at hgrammatical
    have hmembers := derives_writeMembers members layout.inner hsorted.2 hgrammatical
      (Nat.le_refl _)
    by_cases hne : members = []
    · rw [hne, writeMembers]
      exact .emptyObject blank_nil
    · obtain ⟨w, hw, heq⟩ := layout.exists_enclose_eq .members .firstMember .nextMember
        nofun '\x7b' '\x7d' hne hmembers
      rw [heq]
      exact .object hw (latest_iff.2 (Entries.ofList_of_keysAscend hsorted.1).symm)

theorem derives_writeItems (vs : List Value) (layout : Layout) (hsorted : SortedItems vs)
    (hgrammatical : GrammaticalItems vs) {n : Nat} (hn : nestingItems vs ≤ n) :
    List.Forall₂ (fun v w => ∀ b, Blank b → Derives n (.element v) (b ++ w)) vs
      (writeItems layout vs) := by
  cases vs with
  | nil =>
    rw [writeItems]
    exact .nil
  | cons v vs =>
    rw [SortedItems] at hsorted
    rw [GrammaticalItems] at hgrammatical
    rw [nestingItems, Nat.max_le] at hn
    have hfirst := (derives_write v layout hsorted.1 hgrammatical.1).mono hn.1
    rw [writeItems]
    exact .cons (fun b hb => derives_element hfirst hb)
      (derives_writeItems vs layout hsorted.2 hgrammatical.2 hn.2)

theorem derives_writeMembers (ms : List (String × Value)) (layout : Layout)
    (hsorted : SortedMembers ms) (hgrammatical : GrammaticalMembers ms) {n : Nat}
    (hn : nestingMembers ms ≤ n) :
    List.Forall₂ (fun m w => ∀ b, Blank b → Derives n (.member m.1 m.2) (b ++ w)) ms
      (writeMembers layout ms) := by
  cases ms with
  | nil =>
    rw [writeMembers]
    exact .nil
  | cons m ms =>
    obtain ⟨k, v⟩ := m
    rw [SortedMembers] at hsorted
    rw [GrammaticalMembers] at hgrammatical
    rw [nestingMembers, Nat.max_le] at hn
    have hfirst := (derives_write v layout hsorted.1 hgrammatical.1).mono hn.1
    rw [writeMembers]
    exact .cons (fun b hb => derives_member k hfirst hb)
      (derives_writeMembers ms layout hsorted.2 hgrammatical.2 hn.2)

end

end Value

end JsonAutomata
