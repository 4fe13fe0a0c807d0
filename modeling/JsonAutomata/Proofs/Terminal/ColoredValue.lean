import JsonAutomata.Proofs.Json.Values
import JsonAutomata.Proofs.Terminal.Erasure
import JsonAutomata.Terminal.Sink

/-!
# Coloured values — a terminal shows what the encoder writes

The writer of coloured values walks through a value with the number of blanks in front of the line,
the encoder with a layout.  Without colours both write the same text (`writeColored_eq_write`).
Colours only add control sequences, which erasing takes out again, unless a number has an escape
character in its text (`erases_writeColored`).  Both are inductions over the value; a container is
the texts of its items between brackets, so one lemma about `bracketed` serves arrays and objects.
Of the painter they use the two facts that painters are known by, and nothing else.
-/

namespace JsonAutomata

namespace Terminal

variable {painter : Painter} {colors pretty : Bool} {indent : Nat}

/-! ## 1. Texts between brackets -/

def listed (pretty : Bool) (indent : Nat) : Bool → List (List Char) → List Char
  | _, [] => []
  | isFirst, w :: ws =>
    separator pretty isFirst ++ lineBreak pretty indent ++ w ++ listed pretty indent false ws

def bracketed (pretty : Bool) (indent : Nat) (opening closing : Char) (ws : List (List Char)) :
    List Char :=
  opening :: listed pretty (indent + 2) true ws
    ++ (if ws.isEmpty then [] else lineBreak pretty indent) ++ [closing]

def coloredMember (painter : Painter) (colors pretty : Bool) (indent : Nat) (m : String × Value) :
    List Char :=
  painter.paint colors .asIs keyStyle (Quote.quoted m.1.toList) ++ ':' :: ' '
    :: writeColored painter colors pretty indent m.2

theorem coloredItems_eq_listed (isFirst : Bool) (vs : List Value) :
    coloredItems painter colors pretty indent isFirst vs
      = listed pretty indent isFirst (vs.map (writeColored painter colors pretty indent)) := by
  induction vs generalizing isFirst with
  | nil => rw [coloredItems, List.map_nil, listed]
  | cons v vs ih => rw [coloredItems, List.map_cons, listed, ih]

theorem coloredMembers_eq_listed (isFirst : Bool) (ms : List (String × Value)) :
    coloredMembers painter colors pretty indent isFirst ms
      = listed pretty indent isFirst (ms.map (coloredMember painter colors pretty indent)) := by
  induction ms generalizing isFirst with
  | nil => rw [coloredMembers, List.map_nil, listed]
  | cons m ms ih =>
    obtain ⟨k, v⟩ := m
    rw [coloredMembers, List.map_cons, listed, ih]
    simp only [coloredMember, List.append_assoc, List.cons_append]

theorem writeColored_array (items : List Value) :
    writeColored painter colors pretty indent (.array items)
      = bracketed pretty indent '[' ']'
          (items.map (writeColored painter colors pretty (indent + 2))) := by
  rw [writeColored, coloredItems_eq_listed, bracketed, List.isEmpty_map]

theorem writeColored_object (members : List (String × Value)) :
    writeColored painter colors pretty indent (.object members)
      = bracketed pretty indent '\x7b' '\x7d'
          (members.map (coloredMember painter colors pretty (indent + 2))) := by
  rw [writeColored, coloredMembers_eq_listed, bracketed, List.isEmpty_map]

/-! ## 2. Without colours -/

/-- The layout in which the encoder writes what begins on a line with `indent` blanks in front. -/
def layoutAt (pretty : Bool) (indent : Nat) : Layout :=
  if pretty then .indented indent else .compact

theorem inner_layoutAt : (layoutAt pretty indent).inner = layoutAt pretty (indent + 2) := by
  cases pretty <;> rfl

theorem listed_eq_flatMap (ws : List (List Char)) :
    listed pretty (indent + 2) false ws
      = ws.flatMap fun w => (layoutAt pretty indent).between ++ w := by
  have hbetween : separator pretty false ++ lineBreak pretty (indent + 2)
      = (layoutAt pretty indent).between := by
    cases pretty <;> rfl
  induction ws with
  | nil => rfl
  | cons w ws ih => rw [listed, ih, hbetween, List.flatMap_cons]

/-- Both writers put the same characters around and between the texts of items. -/
theorem bracketed_eq_enclose (opening closing : Char) (ws : List (List Char)) :
    bracketed pretty indent opening closing ws
      = (layoutAt pretty indent).enclose opening closing ws := by
  have hbefore : lineBreak pretty (indent + 2) = (layoutAt pretty indent).before := by
    cases pretty <;> rfl
  have hafter : lineBreak pretty indent = (layoutAt pretty indent).after := by
    cases pretty <;> rfl
  cases ws with
  | nil => rfl
  | cons w ws =>
    rw [bracketed, listed, listed_eq_flatMap, hbefore, hafter, Layout.enclose_cons]
    simp [separator]

theorem writeColored_eq_write (hplain : painter.FormatsPlain) (v : Value) (indent : Nat) :
    writeColored painter false pretty indent v = v.write (layoutAt pretty indent) := by
  induction v using Value.induction generalizing indent with
  | null => exact hplain .asIs nullStyle "null".toList
  | boolean b => exact hplain .asIs booleanStyle (if b then "true".toList else "false".toList)
  | number n => exact hplain .asIs numberStyle n.lexeme.toList
  | string s => exact hplain .asIs stringStyle (Quote.quoted s.toList)
  | array items ih =>
    rw [writeColored_array, bracketed_eq_enclose, Value.write, Value.writeItems_eq_map,
      inner_layoutAt, List.map_congr_left fun v hv => ih v hv (indent + 2)]
  | object members ih =>
    have hmember : ∀ m ∈ members, coloredMember painter false pretty (indent + 2) m
        = Value.writeMember (layoutAt pretty (indent + 2)) m := by
      intro m hm
      rw [coloredMember, Value.writeMember, ih m hm, hplain]
      rfl
    rw [writeColored_object, bracketed_eq_enclose, Value.write, Value.writeMembers_eq_map,
      inner_layoutAt, List.map_congr_left hmember]

/-! ## 3. With colours -/

section Containers

variable {α : Type} {styled plain : α → List Char} {xs : List α}

theorem erases_listed (h : ∀ x ∈ xs, Erases (styled x) (plain x)) (isFirst : Bool) :
    Erases (listed pretty indent isFirst (xs.map styled))
      (listed pretty indent isFirst (xs.map plain)) := by
  have hsep : ∀ isFirst, '\x1b' ∉ separator pretty isFirst := by
    intro isFirst
    cases pretty <;> cases isFirst <;> decide
  have hbreak : '\x1b' ∉ lineBreak pretty indent := by
    cases pretty <;> simp [lineBreak, List.mem_replicate]
  induction xs generalizing isFirst with
  | nil => exact erases_self List.not_mem_nil
  | cons x xs ih =>
    have hfirst := h x List.mem_cons_self
    have hrest := ih (fun y hy => h y (List.mem_cons_of_mem x hy)) false
    exact (((erases_self (hsep isFirst)).append (erases_self hbreak)).append hfirst).append hrest

theorem erases_bracketed (h : ∀ x ∈ xs, Erases (styled x) (plain x)) {opening closing : Char}
    (hopening : opening ≠ '\x1b') (hclosing : closing ≠ '\x1b') :
    Erases (bracketed pretty indent opening closing (xs.map styled))
      (bracketed pretty indent opening closing (xs.map plain)) := by
  have hend : '\x1b' ∉ (if xs.isEmpty then [] else lineBreak pretty indent) := by
    cases pretty <;> cases xs <;> simp [lineBreak, List.mem_replicate]
  have hbrackets : ∀ {c : Char}, c ≠ '\x1b' → Erases [c] [c] := fun hc =>
    erases_self fun hmem => hc (List.mem_singleton.1 hmem).symm
  have hitems : Erases (listed pretty (indent + 2) true (xs.map styled))
      (listed pretty (indent + 2) true (xs.map plain)) := erases_listed h true
  rw [bracketed, bracketed, List.isEmpty_map, List.isEmpty_map]
  exact (((hbrackets hopening).append hitems).append (erases_self hend)).append
    (hbrackets hclosing)

end Containers

/-- What is painted erases to what is painted without colours. -/
theorem erases_paint (hplain : painter.FormatsPlain) (hwraps : painter.OnlyWraps) (style : Style)
    {text : List Char} (htext : '\x1b' ∉ text) :
    Erases (painter.paint true .asIs style text) (painter.paint false .asIs style text) := by
  rw [hplain]
  exact hwraps.erases style htext

theorem erases_writeColored (hplain : painter.FormatsPlain) (hwraps : painter.OnlyWraps)
    (v : Value) (h : ∀ n ∈ v.numbers, '\x1b' ∉ n.lexeme.toList) (indent : Nat) :
    Erases (writeColored painter true pretty indent v)
      (writeColored painter false pretty indent v) := by
  have hpaint : ∀ (style : Style) {text : List Char}, '\x1b' ∉ text →
      Erases (painter.paint true .asIs style text) (painter.paint false .asIs style text) :=
    erases_paint hplain hwraps
  induction v using Value.induction generalizing indent with
  | null => exact hpaint nullStyle (by decide)
  | boolean b => exact hpaint booleanStyle (by cases b <;> decide)
  | number n => exact hpaint numberStyle (h n (List.mem_singleton.2 rfl))
  | string s => exact hpaint stringStyle (Quote.not_mem_quoted (by decide) s.toList)
  | array items ih =>
    rw [writeColored_array, writeColored_array]
    apply erases_bracketed _ (by decide) (by decide)
    intro v hv
    exact ih v hv (fun n hn => h n (Value.mem_numbersItems.2 ⟨v, hv, hn⟩)) (indent + 2)
  | object members ih =>
    rw [writeColored_object, writeColored_object]
    apply erases_bracketed _ (by decide) (by decide)
    intro m hm
    have hkey := hpaint keyStyle (Quote.not_mem_quoted (by decide) m.1.toList)
    have hcolon : Erases [':', ' '] [':', ' '] := erases_self (by decide)
    have hvalue := ih m hm (fun n hn => h n (Value.mem_numbersMembers.2 ⟨m, hm, hn⟩)) (indent + 2)
    have hmember := (hkey.append hcolon).append hvalue
    rw [List.append_assoc, List.append_assoc] at hmember
    exact hmember

/-! ## 4. What is written -/

/-- Without colours a sink gets what the encoder writes and a line end; with colours it gets a text
that erases to what it gets without. -/
theorem writeValue_agrees (hplain : painter.FormatsPlain) (fault : SinkFault) (v : Value) :
    Sink.writeValueBy painter ⟨none, fault⟩ false false v
        = ⟨Utf8.encode (v.encode.toList ++ ['\n']), none⟩ ∧
      Sink.writeValueBy painter ⟨none, fault⟩ false true v
        = ⟨Utf8.encode (v.encodePretty.toList ++ ['\n']), none⟩ ∧
      (painter.OnlyWraps → (∀ n ∈ v.numbers, '\x1b' ∉ n.lexeme.toList) → ∀ pretty, ∃ text,
        Sink.writeValueBy painter ⟨none, fault⟩ true pretty v = ⟨Utf8.encode text, none⟩ ∧
          Sink.writeValueBy painter ⟨none, fault⟩ false pretty v
            = ⟨Utf8.encode (eraseStyles text), none⟩) := by
  have hwritten : ∀ colors pretty, Sink.writeValueBy painter ⟨none, fault⟩ colors pretty v
      = ⟨Utf8.encode (coloredValue painter colors pretty v), none⟩ := fun _ _ => rfl
  refine ⟨?_, ?_, ?_⟩
  · rw [hwritten, coloredValue, writeColored_eq_write hplain, Value.encode, String.toList_ofList]
    rfl
  · rw [hwritten, coloredValue, writeColored_eq_write hplain, Value.encodePretty,
      String.toList_ofList]
    rfl
  · intro hwraps h pretty
    have hvalue : Erases (writeColored painter true pretty 0 v)
        (writeColored painter false pretty 0 v) := erases_writeColored hplain hwraps v h 0
    have hend : Erases ['\n'] ['\n'] := erases_self (by decide)
    have herased := (hvalue.append hend).eraseStyles_eq
    refine ⟨coloredValue painter true pretty v, hwritten true pretty, ?_⟩
    rw [hwritten]
    exact congrArg (fun text => (⟨Utf8.encode text, none⟩ : Writing)) herased.symm

/-- A key that resets the style, which quoting hides, and a number, in nested containers. -/
theorem writeValue_agrees_nested :
    let document : Value := .object [("\x1b[0m", .array [.number ⟨"-1.5e3"⟩, .array []]), ("k", .null)]
    (Painter.ansi.FormatsPlain ∧ Painter.ansi.OnlyWraps ∧
      ∀ n ∈ document.numbers, '\x1b' ∉ n.lexeme.toList) ∧
    ∃ text, Sink.writeValue ⟨none, .brokenPipe⟩ true true document = ⟨Utf8.encode text, none⟩ ∧
      Sink.writeValue ⟨none, .brokenPipe⟩ false true document
        = ⟨Utf8.encode (eraseStyles text), none⟩ := by
  intro document
  have hnumbers : ∀ n ∈ document.numbers, '\x1b' ∉ n.lexeme.toList := by
    intro n hn
    rw [List.mem_singleton.1 (show n ∈ [(⟨"-1.5e3"⟩ : Number)] from hn)]
    decide
  obtain ⟨-, -, hcolored⟩ := writeValue_agrees ansi_formatsPlain .brokenPipe document
  exact ⟨⟨ansi_formatsPlain, ansi_onlyWraps, hnumbers⟩, hcolored ansi_onlyWraps hnumbers true⟩

end Terminal

end JsonAutomata
