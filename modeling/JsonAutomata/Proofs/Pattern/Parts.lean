import JsonAutomata.Proofs.Pattern.Prefixes

/-!
# Parts — which part of a term has been read

`Term.Leads` says after which texts a matching term has come to a part of it.  What may be reported
then is the label of a part that the text completes (`Term.Completes`), and where a repetition may
have no parts at all, also the label at the end of the part that is skipped (`Term.Skips`).
-/

open Computability

namespace JsonAutomata

namespace Term

/-! ## 1. Parts -/

/-- The term itself and all terms within it. -/
def parts : Term → List Term
  | epsilon => [epsilon]
  | one cls => [one cls]
  | seq l r => seq l r :: (l.parts ++ r.parts)
  | alt l r => alt l r :: (l.parts ++ r.parts)
  | star t => star t :: t.parts
  | times t min max ordered => times t min max ordered :: t.parts
  | labeled label t => labeled label t :: t.parts

theorem mem_parts_self (t : Term) : t ∈ t.parts := by
  cases t <;> exact List.mem_cons_self

/-- After the text has been read into the term, the part comes next. -/
inductive Leads : Term → List Char → Term → Prop
  | here (t : Term) : Leads t [] t
  | first {l r s : Term} {w : List Char} (h : Leads l w s) : Leads (seq l r) w s
  | second {l r s : Term} {v w : List Char} (hv : v ∈ l.language) (h : Leads r w s) :
      Leads (seq l r) (v ++ w) s
  | left {l r s : Term} {w : List Char} (h : Leads l w s) : Leads (alt l r) w s
  | right {l r s : Term} {w : List Char} (h : Leads r w s) : Leads (alt l r) w s
  | round {t s : Term} {v w : List Char} (hv : v ∈ t.language∗) (h : Leads t w s) :
      Leads (star t) (v ++ w) s
  | copy {t s : Term} {min max n : Nat} {ordered : min < max} {v w : List Char} (hn : n < max)
      (hv : v ∈ t.language ^ n) (h : Leads t w s) : Leads (times t min max ordered) (v ++ w) s
  | labeled {t s : Term} {w : List Char} (label : Label) (h : Leads t w s) :
      Leads (labeled label t) w s

variable {t t' s : Term} {v w : List Char} {label : Label}

theorem Leads.mem_parts (h : t.Leads w s) : s ∈ t.parts := by
  induction h with
  | here t => exact t.mem_parts_self
  | first _ ih => exact List.mem_cons_of_mem _ (List.mem_append_left _ ih)
  | second _ _ ih => exact List.mem_cons_of_mem _ (List.mem_append_right _ ih)
  | left _ ih => exact List.mem_cons_of_mem _ (List.mem_append_left _ ih)
  | right _ ih => exact List.mem_cons_of_mem _ (List.mem_append_right _ ih)
  | round _ _ ih => exact List.mem_cons_of_mem _ ih
  | copy _ _ _ ih => exact List.mem_cons_of_mem _ ih
  | labeled _ _ ih => exact List.mem_cons_of_mem _ ih

/-! ## 2. Labels of parts -/

/-- The label of the last part, the end of which is the end of the term. -/
def exitLabel? : Term → Option Label
  | seq _ r => r.exitLabel?
  | times t _ _ _ => t.exitLabel?
  | labeled label _ => some label
  | _ => none

def Completes (t : Term) (w : List Char) (label : Label) : Prop :=
  ∃ u v s, u ++ v = w ∧ t.Leads u s ∧ s.label? = some label ∧ v ∈ s.language

/-- After the text comes a repetition that may have no parts, and whose parts would end under the
label. -/
def Skips (t : Term) (w : List Char) (label : Label) : Prop :=
  ∃ inner max, ∃ ordered : 0 < max,
    t.Leads w (times inner 0 max ordered) ∧ inner.exitLabel? = some label

def Reported (t : Term) (w : List Char) (label : Label) : Prop :=
  t.Completes w label ∨ t.Skips w label

/-- What is reported within a part is reported in the whole. -/
theorem Reported.lift (h : t.Reported w label) (hleads : ∀ u s, t.Leads u s → t'.Leads (v ++ u) s) :
    t'.Reported (v ++ w) label := by
  rcases h with ⟨x, y, s, rfl, hx, hs, hy⟩ | ⟨inner, max, ordered, hw, hinner⟩
  · exact .inl ⟨v ++ x, y, s, List.append_assoc v x y, hleads x s hx, hs, hy⟩
  · exact .inr ⟨inner, max, ordered, hleads w _ hw, hinner⟩

theorem reported_of_exitLabel? (hlabel : t.exitLabel? = some label) (hw : w ∈ t.language) :
    t.Reported w label := by
  induction t generalizing w with
  | seq l r _ ihr =>
    rcases Language.mem_mul.1 hw with ⟨u, hu, v, hv, rfl⟩
    exact (ihr hlabel hv).lift fun _ _ h => .second hu h
  | times t min max ordered ih =>
    rcases hw with ⟨n, hmin, hmax, hw⟩
    cases n with
    | zero =>
      obtain rfl : min = 0 := Nat.le_zero.1 hmin
      rw [pow_zero, Language.mem_one] at hw
      exact .inr ⟨t, max, ordered, hw ▸ .here _, hlabel⟩
    | succ n =>
      rw [pow_succ, Language.mem_mul] at hw
      rcases hw with ⟨u, hu, v, hv, rfl⟩
      exact (ih hlabel hv).lift fun _ _ h => .copy hmax hu h
  | labeled l t _ => exact .inl ⟨[], w, _, rfl, .here _, hlabel, hw⟩
  | _ => cases hlabel

end Term

end JsonAutomata
