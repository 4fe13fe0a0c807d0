import JsonAutomata.Pattern.Language
import JsonAutomata.Proofs.Text.Numerals

/-!
# Display — what the text of a term denotes

Many terms are displayed alike: parentheses are left out where the reading does not change, the
empty pattern leaves no trace, and neither do labels.  So a text cannot be turned back into its term.
It can be turned back into a language.  `Reading` goes through a text from left to right, with a
stack of the groups that are open; of each group it keeps what the alternatives and factors so far
denote, and the last factor by itself, as a postfix operator may follow.

`Term.denoted_display` says that reading the display of a term gives the language of the term, where
the classes have single characters for names.  Terms that are displayed alike are then alike, as
the reading knows nothing but the text.
-/

open Computability

namespace JsonAutomata

/-! ## 1. Names -/

/-- The characters that stand in a display text for themselves, and not for a class. -/
def Term.operators : List Char := ['(', ')', '|', '*', '\x7b', '\x7d']

namespace CharClass

def HasLetter (cls : CharClass) : Prop := ∃ c, cls.name.toList = [c] ∧ c ∉ Term.operators

instance (cls : CharClass) : Decidable cls.HasLetter :=
  decidable_of_iff
    (cls.name.toList.length = 1 ∧ (cls.name.toList.all (· ∉ Term.operators)) = true) <| by
    rw [List.length_eq_one_iff]
    constructor
    · rintro ⟨⟨c, hname⟩, hall⟩
      rw [hname, List.all_cons, List.all_nil, Bool.and_true] at hall
      exact ⟨c, hname, of_decide_eq_true hall⟩
    · rintro ⟨c, hname, hc⟩
      rw [hname, List.all_cons, List.all_nil, Bool.and_true]
      exact ⟨⟨c, rfl⟩, decide_eq_true hc⟩

end CharClass

namespace Term

def classes : Term → List CharClass
  | epsilon => []
  | one cls => [cls]
  | seq l r => l.classes ++ r.classes
  | alt l r => l.classes ++ r.classes
  | star t => t.classes
  | times t _ _ _ => t.classes
  | labeled _ t => t.classes

end Term

/-! ## 2. Reading -/

structure OpenGroup where
  /-- What the alternatives before the last bar denote. -/
  alternatives : Language Char
  /-- What the factors behind that bar denote, the last one apart. -/
  factors : Language Char
  /-- What the last factor denotes. -/
  last : Language Char

namespace OpenGroup

def empty : OpenGroup := ⟨0, 1, 1⟩

def alternative (g : OpenGroup) : Language Char := g.factors * g.last

def denoted (g : OpenGroup) : Language Char := g.alternatives + g.alternative

def factor (L : Language Char) (g : OpenGroup) : OpenGroup := ⟨g.alternatives, g.alternative, L⟩

def bar (g : OpenGroup) : OpenGroup := ⟨g.denoted, 1, 1⟩

def postfixed (operator : Language Char → Language Char) (g : OpenGroup) : OpenGroup :=
  ⟨g.alternatives, g.factors, operator g.last⟩

end OpenGroup

def repetitions (min max : Nat) (L : Language Char) : Language Char :=
  {w | ∃ n, min ≤ n ∧ n ≤ max ∧ w ∈ L ^ n}

/-- What is matched by repetitions of `L` within bounds that are written with a comma. -/
def repetitionsWithin (bounds : List Char) : Language Char → Language Char :=
  repetitions (digitsValue (bounds.takeWhile (· ≠ ',')))
    (digitsValue ((bounds.dropWhile (· ≠ ',')).tail))

structure Reading where
  group : OpenGroup
  /-- The groups around it, from the inside to the outside. -/
  outer : List OpenGroup
  /-- Within braces, what has been read of the bounds. -/
  bounds : Option (List Char)

namespace Reading

def within (group : OpenGroup) (outer : List OpenGroup) : Reading := ⟨group, outer, none⟩

def next (names : Char → Language Char) (r : Reading) (c : Char) : Reading :=
  match r.bounds with
  | some bounds =>
    if c = '\x7d' then within (r.group.postfixed (repetitionsWithin bounds)) r.outer
    else ⟨r.group, r.outer, some (bounds ++ [c])⟩
  | none =>
    match c with
    | '(' => within .empty (r.group :: r.outer)
    | ')' => match r.outer with
      | [] => r
      | around :: outer => within (around.factor r.group.denoted) outer
    | '|' => within r.group.bar r.outer
    | '*' => within (r.group.postfixed (·∗)) r.outer
    | '\x7b' => ⟨r.group, r.outer, some []⟩
    | c => within (r.group.factor (names c)) r.outer

/-- What a display text denotes, where `names` tells what the names of classes do. -/
def denoted (names : Char → Language Char) (text : List Char) : Language Char :=
  (text.foldl (next names) (within .empty [])).group.denoted

variable {names : Char → Language Char} {v w : List Char} {L M : Language Char}

/-! ## 3. Parts of a text -/

/-- The text is read as one factor that denotes `L`. -/
def IsFactor (names : Char → Language Char) (text : List Char) (L : Language Char) : Prop :=
  ∀ g outer, text.foldl (next names) (within g outer) = within (g.factor L) outer

def IsFactors (names : Char → Language Char) (text : List Char) (L : Language Char) : Prop :=
  ∀ g outer, ∃ g' : OpenGroup, text.foldl (next names) (within g outer) = within g' outer ∧
    g'.alternatives = g.alternatives ∧ g'.alternative = g.alternative * L

/-- The text is read as alternatives that denote `L`, at the beginning of a group or behind a
bar. -/
def IsChoice (names : Char → Language Char) (text : List Char) (L : Language Char) : Prop :=
  ∀ g outer, g.alternative = 1 → ∃ g' : OpenGroup,
    text.foldl (next names) (within g outer) = within g' outer ∧ g'.denoted = g.alternatives + L

theorem IsFactor.factors (h : IsFactor names w L) : IsFactors names w L :=
  fun g outer => ⟨g.factor L, h g outer, rfl, rfl⟩

theorem IsFactors.choice (h : IsFactors names w L) : IsChoice names w L := by
  intro g outer hone
  obtain ⟨g', hread, halternatives, halternative⟩ := h g outer
  refine ⟨g', hread, ?_⟩
  rw [OpenGroup.denoted, halternatives, halternative, hone, one_mul]

theorem isFactor_letter {c : Char} (hc : c ∉ Term.operators) : IsFactor names [c] (names c) := by
  intro g outer
  simp only [Term.operators, List.mem_cons, List.not_mem_nil, or_false, not_or] at hc
  obtain ⟨hopen, hclose, hbar, hstar, hbrace, -⟩ := hc
  simp only [List.foldl_cons, List.foldl_nil, next, within]

theorem isFactors_nil : IsFactors names [] 1 :=
  fun g _ => ⟨g, rfl, rfl, (mul_one _).symm⟩

theorem IsFactors.append (hv : IsFactors names v L) (hw : IsFactors names w M) :
    IsFactors names (v ++ w) (L * M) := by
  intro g outer
  obtain ⟨g', hread, halternatives, halternative⟩ := hv g outer
  obtain ⟨g'', hread', halternatives', halternative'⟩ := hw g' outer
  refine ⟨g'', ?_, halternatives'.trans halternatives, ?_⟩
  · rw [List.foldl_append, hread, hread']
  · rw [halternative', halternative, mul_assoc]

theorem IsChoice.bar (hv : IsChoice names v L) (hw : IsChoice names w M) :
    IsChoice names (v ++ '|' :: w) (L + M) := by
  intro g outer hone
  obtain ⟨g', hread, hdenoted⟩ := hv g outer hone
  obtain ⟨g'', hread', hdenoted'⟩ := hw g'.bar outer (one_mul 1)
  refine ⟨g'', ?_, ?_⟩
  · rw [List.foldl_append, hread, List.foldl_cons]
    exact hread'
  · rw [hdenoted']
    show g'.denoted + M = _
    rw [hdenoted, add_assoc]

/-- What stands between parentheses is one factor. -/
theorem IsChoice.parenthesized (h : IsChoice names w L) :
    IsFactor names (Term.parenthesized true w) L := by
  intro g outer
  obtain ⟨g', hread, hdenoted⟩ := h .empty (g :: outer) (one_mul 1)
  have hL : g'.denoted = L := hdenoted.trans (zero_add L)
  have hopen : next names (within g outer) '(' = within .empty (g :: outer) := rfl
  have hclose : next names (within g' (g :: outer)) ')' = within (g.factor g'.denoted) outer := rfl
  rw [Term.parenthesized, if_pos rfl, List.cons_append, List.foldl_cons, List.foldl_append, hopen,
    hread, List.foldl_cons, List.foldl_nil, hclose, hL]

/-- A star repeats the factor in front of it. -/
theorem IsFactor.star (h : IsFactor names w L) : IsFactor names (w ++ ['*']) L∗ := by
  intro g outer
  rw [List.foldl_append, h g outer]
  rfl

theorem foldl_bounds {bounds : List Char} (h : '\x7d' ∉ bounds) (g : OpenGroup)
    (outer : List OpenGroup) (read : List Char) :
    bounds.foldl (next names) ⟨g, outer, some read⟩ = ⟨g, outer, some (read ++ bounds)⟩ := by
  induction bounds generalizing read with
  | nil => rw [List.foldl_nil, List.append_nil]
  | cons c bounds ih =>
    have hc : next names ⟨g, outer, some read⟩ c = ⟨g, outer, some (read ++ [c])⟩ :=
      if_neg fun heq : c = '\x7d' => h (heq ▸ List.mem_cons_self)
    rw [List.foldl_cons, hc, ih fun hmem => h (List.mem_cons_of_mem c hmem), List.append_assoc,
      List.singleton_append]

theorem repetitionsWithin_numerals (min max : Nat) :
    repetitionsWithin (numeral min ++ ',' :: numeral max) = repetitions min max := by
  have hcomma : ∀ c ∈ numeral min, decide (c ≠ ',') = true := fun c hc =>
    decide_eq_true fun heq => not_mem_numeral rfl min (heq ▸ hc)
  rw [repetitionsWithin, List.takeWhile_append_of_pos hcomma, List.dropWhile_append_of_pos hcomma]
  simp [digitsValue_numeral]

/-- Bounds between braces repeat the factor in front of them. -/
theorem IsFactor.times (h : IsFactor names w L) (min max : Nat) :
    IsFactor names (w ++ '\x7b' :: numeral min ++ ',' :: numeral max ++ ['\x7d'])
      (repetitions min max L) := by
  intro g outer
  have hbounds : '\x7d' ∉ numeral min ++ ',' :: numeral max := by
    rw [List.mem_append, List.mem_cons, not_or, not_or]
    exact ⟨not_mem_numeral rfl min, by decide, not_mem_numeral rfl max⟩
  have hread := @foldl_bounds names _ hbounds (g.factor L) outer []
  rw [List.append_assoc, List.append_assoc, List.foldl_append, h g outer]
  rw [List.cons_append, ← List.append_assoc, List.foldl_cons, List.foldl_append]
  show List.foldl (next names) (List.foldl (next names) ⟨g.factor L, outer, some []⟩ _) _ = _
  rw [hread, List.nil_append, ← repetitionsWithin_numerals]
  rfl

end Reading

/-! ## 4. Terms -/

namespace Term

open Reading

variable {names : Char → Language Char} {s t : Term}

/-- How the display of a term is read: as alternatives, as a run of factors unless a choice is
outermost, and as one factor if the term is a single class. -/
structure Readable (names : Char → Language Char) (t : Term) : Prop where
  choice : IsChoice names t.display t.language
  factors : 0 < t.precedence → IsFactors names t.display t.language
  factor : t.isOne = true → IsFactor names t.display t.language

theorem Readable.of_factors (h : IsFactors names t.display t.language) (hone : t.isOne = false) :
    t.Readable names :=
  ⟨h.choice, fun _ => h, fun ht => absurd (hone.symm.trans ht) (by decide)⟩

/-- An operand of a sequence is a run of factors, in parentheses or without. -/
theorem Readable.operand (h : t.Readable names) :
    IsFactors names (parenthesized (t.precedence < 1) t.display) t.language := by
  by_cases hlow : t.precedence < 1
  · rw [decide_eq_true hlow]
    exact h.choice.parenthesized.factors
  · rw [decide_eq_false hlow]
    exact h.factors (Nat.le_of_not_lt hlow)

/-- The operand of a postfix operator is one factor. -/
theorem Readable.postfixOperand (h : t.Readable names) :
    IsFactor names (parenthesized (!t.isOne) t.display) t.language := by
  cases hone : t.isOne with
  | true => exact h.factor hone
  | false => exact h.choice.parenthesized

theorem readable {t : Term} (h : ∀ cls ∈ t.classes, ∃ c, cls.name.toList = [c] ∧
    c ∉ operators ∧ names c = cls.language) : t.Readable names := by
  induction t with
  | epsilon => exact .of_factors isFactors_nil rfl
  | one cls =>
    obtain ⟨c, hname, hc, hlanguage⟩ := h cls (List.mem_singleton_self cls)
    have hfactor : IsFactor names (one cls).display (one cls).language := by
      rw [display, hname, language, ← hlanguage]
      exact isFactor_letter hc
    exact ⟨hfactor.factors.choice, fun _ => hfactor.factors, fun _ => hfactor⟩
  | seq l r ihl ihr =>
    have hl := ihl fun cls hcls => h cls (List.mem_append_left _ hcls)
    have hr := ihr fun cls hcls => h cls (List.mem_append_right _ hcls)
    exact .of_factors (hl.operand.append hr.operand) rfl
  | alt l r ihl ihr =>
    have hl := ihl fun cls hcls => h cls (List.mem_append_left _ hcls)
    have hr := ihr fun cls hcls => h cls (List.mem_append_right _ hcls)
    exact ⟨hl.choice.bar hr.choice, fun hpos => absurd hpos (Nat.lt_irrefl 0),
      fun hone => absurd hone Bool.false_ne_true⟩
  | star t ih => exact .of_factors (ih h).postfixOperand.star.factors rfl
  | times t min max ordered ih =>
    exact .of_factors ((ih h).postfixOperand.times min max).factors rfl
  | labeled label t ih =>
    obtain ⟨hchoice, hfactors, hfactor⟩ := ih h
    exact ⟨hchoice, hfactors, hfactor⟩

/-- Reading the display of a term gives its language. -/
theorem denoted_display (h : ∀ cls ∈ t.classes, ∃ c, cls.name.toList = [c] ∧
    c ∉ operators ∧ names c = cls.language) : denoted names t.display = t.language := by
  obtain ⟨g, hread, hdenoted⟩ := (readable h).choice .empty [] (one_mul 1)
  rw [denoted, hread]
  exact hdenoted.trans (zero_add t.language)

/-- Terms that are displayed alike match the same texts, if the names of their classes are single
characters that are no operators, and each name stands for one set of characters. -/
theorem language_eq_of_toString_eq (hletters : ∀ cls ∈ s.classes ++ t.classes, cls.HasLetter)
    (hsets : ∀ a ∈ s.classes ++ t.classes, ∀ b ∈ s.classes ++ t.classes,
      a.name = b.name → a.accepted = b.accepted)
    (hdisplay : toString s = toString t) : s.language = t.language := by
  -- A name denotes what the classes with the name accept.
  let names : Char → Language Char := fun c =>
    {w | ∃ cls ∈ s.classes ++ t.classes, cls.name.toList = [c] ∧ w ∈ cls.language}
  have hnames : ∀ cls ∈ s.classes ++ t.classes, ∃ c, cls.name.toList = [c] ∧
      c ∉ operators ∧ names c = cls.language := by
    intro cls hcls
    obtain ⟨c, hname, hc⟩ := hletters cls hcls
    refine ⟨c, hname, hc, ?_⟩
    ext w
    constructor
    · rintro ⟨own, hown, hownName, hw⟩
      have hset := hsets own hown cls hcls (String.toList_injective (hownName.trans hname.symm))
      rw [CharClass.mem_language] at hw ⊢
      simpa only [CharClass.accepts, hset] using hw
    · exact fun hw => ⟨cls, hcls, hname, hw⟩
  have hs := denoted_display fun cls hcls => hnames cls (List.mem_append_left _ hcls)
  have ht := denoted_display fun cls hcls => hnames cls (List.mem_append_right _ hcls)
  have htext : s.display = t.display := String.ofList_injective hdisplay
  rw [← hs, ← ht, htext]

/-- Both terms are displayed as `(a|)1,*((b|)*){1,12}`: grouping, labels and empty parts do not
show. -/
theorem language_eq_of_toString_eq_regrouped :
    let a : Term := alt (one (.single 'a')) epsilon
    let b : Term := times (star (alt (one (.single 'b')) epsilon)) 1 12 (by decide)
    let s : Term := seq (seq a (one (.single '1'))) (seq (star (one (.single ','))) b)
    let t : Term := seq a (seq (labeled "one" (oneOf ['1'] "1"))
      (seq (seq epsilon (star (labeled "comma" (oneOf [','] ",")))) b))
    s ≠ t ∧ toString s = "(a|)1,*((b|)*)\x7b1,12\x7d" ∧ toString t = toString s ∧
      s.language = t.language := by
  intro a b s t
  have hdisplay : toString s = toString t := by decide
  have hletters : ∀ cls ∈ s.classes ++ t.classes, cls.HasLetter := by decide
  have hsets : ∀ x ∈ s.classes ++ t.classes, ∀ y ∈ s.classes ++ t.classes,
      x.name = y.name → x.accepted = y.accepted := by decide
  exact ⟨by decide, by decide, hdisplay.symm, language_eq_of_toString_eq hletters hsets hdisplay⟩

end Term

end JsonAutomata
