import JsonAutomata.Json.Number
import JsonAutomata.Proofs.Json.Grammar
import Mathlib.Data.List.DropRight
import Mathlib.Data.Nat.Digits.Lemmas
import Mathlib.Tactic.Ring

/-!
# Digits — runs of decimal digits as numbers

The number that a run of digits spells is the sum of its digits times powers of ten
(`digitsValue_append`).  Zeros in front do not change it, and each zero behind multiplies it by ten
(`digitsValue_dropTrailing`).  A run without zeros on either side is determined by its number, which
is zero for the empty run only and not divisible by ten otherwise (`Trimmed`).
-/

namespace JsonAutomata

open Grammar

/-! ## 1. Digits -/

theorem isDigit_iff {c : Char} : c.isDigit = true ↔ IsDigit c := by
  rw [Char.isDigit, Bool.and_eq_true, decide_eq_true_eq, decide_eq_true_eq]
  rfl

theorem all_isDigit_iff {ds : List Char} : ds.all Char.isDigit = true ↔ ∀ c ∈ ds, IsDigit c := by
  simp only [List.all_eq_true, isDigit_iff]

namespace Grammar

theorem IsDigit.code {c : Char} (h : IsDigit c) : 48 ≤ c.toNat ∧ c.toNat ≤ 57 := h

theorem IsDigit.value_lt {c : Char} (h : IsDigit c) : digitValue c < 10 := by
  have hcode := h.code
  show c.toNat - 48 < 10
  omega

theorem IsDigit.eq_ofNat {c : Char} (h : IsDigit c) : c = Char.ofNat (digitValue c + 48) := by
  have hcode := h.code
  show c = Char.ofNat (c.toNat - 48 + 48)
  rw [Nat.sub_add_cancel hcode.1, Char.ofNat_toNat]

theorem IsDigit.value_eq_zero_iff {c : Char} (h : IsDigit c) : digitValue c = 0 ↔ c = '0' := by
  constructor
  · intro hzero
    rw [h.eq_ofNat, hzero]
  · rintro rfl
    rfl

end Grammar

/-! ## 2. Values of runs -/

theorem appendDigits_eq (n : Nat) (ds : List Char) :
    appendDigits n ds = n * 10 ^ ds.length + digitsValue ds := by
  induction ds generalizing n with
  | nil =>
    show n = n * 10 ^ 0 + 0
    omega
  | cons c ds ih =>
    have hstep : ∀ m, appendDigits m (c :: ds) = appendDigits (10 * m + digitValue c) ds :=
      fun _ => rfl
    rw [digitsValue, hstep, hstep, ih, ih (10 * 0 + digitValue c), List.length_cons]
    ring

theorem digitsValue_append (as bs : List Char) :
    digitsValue (as ++ bs) = digitsValue as * 10 ^ bs.length + digitsValue bs := by
  rw [digitsValue, appendDigits, List.foldl_append]
  exact appendDigits_eq _ _

theorem digitsValue_concat (ds : List Char) (c : Char) :
    digitsValue (ds ++ [c]) = 10 * digitsValue ds + digitValue c := by
  rw [digitsValue, appendDigits, List.foldl_append]
  rfl

theorem digitsValue_zeros {ds : List Char} (h : ∀ c ∈ ds, c = '0') : digitsValue ds = 0 := by
  induction ds using List.reverseRecOn with
  | nil => rfl
  | append_singleton ds c ih =>
    rw [digitsValue_concat, ih fun d hd => h d (List.mem_append_left _ hd),
      h c (List.mem_append_right _ List.mem_cons_self)]
    rfl

theorem digitsValue_eq_ofDigits (ds : List Char) :
    digitsValue ds = Nat.ofDigits 10 (ds.reverse.map digitValue) := by
  induction ds using List.reverseRecOn with
  | nil => rfl
  | append_singleton ds c ih =>
    rw [digitsValue_concat, ih, List.reverse_append, List.reverse_singleton,
      List.singleton_append, List.map_cons, Nat.ofDigits_cons]
    omega

theorem map_digitValue_inj {as bs : List Char} (ha : ∀ c ∈ as, IsDigit c)
    (hb : ∀ c ∈ bs, IsDigit c) (h : as.map digitValue = bs.map digitValue) : as = bs := by
  have hback : ∀ {ds : List Char}, (∀ c ∈ ds, IsDigit c) →
      (ds.map digitValue).map (fun n => Char.ofNat (n + 48)) = ds := by
    intro ds hds
    rw [List.map_map]
    exact (List.map_congr_left fun c hc => (hds c hc).eq_ofNat.symm).trans (List.map_id ds)
  rw [← hback ha, h, hback hb]

/-! ## 3. Zeros on either side -/

structure Trimmed (ds : List Char) : Prop where
  digits : ∀ c ∈ ds, IsDigit c
  head : ds.head? ≠ some '0'
  last : ds.getLast? ≠ some '0'

theorem Trimmed.eq_nil_iff {ds : List Char} (h : Trimmed ds) : ds = [] ↔ digitsValue ds = 0 := by
  constructor
  · rintro rfl
    rfl
  · intro hzero
    cases ds with
    | nil => rfl
    | cons c ds =>
      have hc := h.digits c List.mem_cons_self
      have hvalue := digitsValue_append [c] ds
      rw [List.singleton_append, hzero] at hvalue
      have hpos : 0 < 10 ^ ds.length := Nat.pow_pos (by decide)
      have hfirst : 10 * 0 + digitValue c = 0 :=
        (Nat.mul_eq_zero.1 (Nat.add_eq_zero_iff.1 hvalue.symm).1).resolve_right hpos.ne'
      have hcode : digitValue c = 0 := by omega
      exact absurd (congrArg some (hc.value_eq_zero_iff.1 hcode)) h.head

/-- The number of a run that does not end with a zero is not divisible by ten. -/
theorem Trimmed.mod_ne_zero {ds : List Char} (h : Trimmed ds) (hne : ds ≠ []) :
    digitsValue ds % 10 ≠ 0 := by
  rcases List.eq_nil_or_concat' ds with rfl | ⟨front, c, rfl⟩
  · exact absurd rfl hne
  · have hc := h.digits c (List.mem_append_right _ List.mem_cons_self)
    have hlt := hc.value_lt
    have hlast : digitValue c ≠ 0 := by
      intro hzero
      apply h.last
      rw [hc.value_eq_zero_iff.1 hzero, List.getLast?_concat]
    rw [digitsValue_concat]
    omega

/-- A run without zeros on either side is determined by its number. -/
theorem Trimmed.eq_of_value_eq {as bs : List Char} (ha : Trimmed as) (hb : Trimmed bs)
    (h : digitsValue as = digitsValue bs) : as = bs := by
  have hdigits : ∀ {ds : List Char}, Trimmed ds →
      Nat.digits 10 (digitsValue ds) = ds.reverse.map digitValue := by
    intro ds hds
    -- The digits of a natural number stand with the last one first.
    rw [digitsValue_eq_ofDigits]
    apply Nat.digits_ofDigits 10 (by decide)
    · intro n hn
      obtain ⟨c, hc, rfl⟩ := List.mem_map.1 hn
      exact (hds.digits c (List.mem_reverse.1 hc)).value_lt
    · intro hne
      cases ds with
      | nil => exact absurd rfl hne
      | cons c ds =>
        have hc := hds.digits c List.mem_cons_self
        simp only [List.reverse_cons, List.map_append, List.map_cons, List.map_nil,
          List.getLast_concat]
        intro hzero
        exact hds.head (congrArg some (hc.value_eq_zero_iff.1 hzero))
  have hmap : as.reverse.map digitValue = bs.reverse.map digitValue := by
    rw [← hdigits ha, ← hdigits hb, h]
  apply List.reverse_injective
  exact map_digitValue_inj (fun c hc => ha.digits c (List.mem_reverse.1 hc))
    (fun c hc => hb.digits c (List.mem_reverse.1 hc)) hmap

/-! ## 4. Trimming -/

def trailingZeros (ds : List Char) : Nat := (ds.reverse.takeWhile (· = '0')).length

theorem digitsValue_dropZeros (ds : List Char) :
    digitsValue (Number.dropZeros ds) = digitsValue ds := by
  have hzeros : digitsValue (ds.takeWhile (· = '0')) = 0 := by
    apply digitsValue_zeros
    intro c hc
    have hp := List.mem_takeWhile_imp hc
    exact of_decide_eq_true hp
  have hsplit := digitsValue_append (ds.takeWhile (· = '0')) (Number.dropZeros ds)
  rw [hzeros, Nat.zero_mul, Nat.zero_add] at hsplit
  rw [← hsplit]
  exact congrArg digitsValue List.takeWhile_append_dropWhile

theorem head?_dropZeros (ds : List Char) : (Number.dropZeros ds).head? ≠ some '0' := by
  intro h
  have hnot := List.head?_dropWhile_not (fun c : Char => decide (c = '0')) ds
  rw [Number.dropZeros] at h
  rw [h] at hnot
  cases hnot

/-- Dropping takes away just the zeros at the end. -/
theorem dropTrailing_append (ds : List Char) :
    Number.dropTrailing ds ++ List.replicate (trailingZeros ds) '0' = ds := by
  have hzeros : ds.reverse.takeWhile (· = '0') = List.replicate (trailingZeros ds) '0' := by
    apply List.eq_replicate_of_mem
    intro c hc
    have hp := List.mem_takeWhile_imp hc
    exact of_decide_eq_true hp
  have hsplit : ds.reverse.takeWhile (· = '0') ++ Number.dropZeros ds.reverse = ds.reverse :=
    List.takeWhile_append_dropWhile
  rw [hzeros] at hsplit
  have hreverse := congrArg List.reverse hsplit
  rwa [List.reverse_append, List.reverse_replicate, List.reverse_reverse] at hreverse

theorem length_dropTrailing (ds : List Char) :
    ds.length - (Number.dropTrailing ds).length = trailingZeros ds := by
  have hlength := congrArg List.length (dropTrailing_append ds)
  rw [List.length_append, List.length_replicate] at hlength
  omega

theorem digitsValue_dropTrailing (ds : List Char) :
    digitsValue ds = digitsValue (Number.dropTrailing ds) * 10 ^ trailingZeros ds := by
  have hzeros : digitsValue (List.replicate (trailingZeros ds) '0') = 0 :=
    digitsValue_zeros fun c hc => List.eq_of_mem_replicate hc
  have hsplit := digitsValue_append (Number.dropTrailing ds)
    (List.replicate (trailingZeros ds) '0')
  rwa [dropTrailing_append, hzeros, List.length_replicate, Nat.add_zero] at hsplit

def trim (ds : List Char) : List Char := Number.dropTrailing (Number.dropZeros ds)

theorem trimmed_trim {ds : List Char} (h : ∀ c ∈ ds, IsDigit c) : Trimmed (trim ds) := by
  have hfront : trim ds ++ List.replicate (trailingZeros (Number.dropZeros ds)) '0'
      = Number.dropZeros ds := dropTrailing_append _
  refine ⟨?_, ?_, ?_⟩
  · intro c hc
    apply h c
    apply (List.dropWhile_suffix (· = '0')).subset
    show c ∈ Number.dropZeros ds
    rw [← hfront]
    exact List.mem_append_left _ hc
  · intro hhead
    apply head?_dropZeros ds
    rw [← hfront, List.head?_append, hhead]
    rfl
  · rw [trim, Number.dropTrailing, List.getLast?_reverse]
    exact head?_dropZeros _

theorem trim_eq_nil_iff {ds : List Char} (h : ∀ c ∈ ds, IsDigit c) :
    trim ds = [] ↔ digitsValue ds = 0 := by
  rw [(trimmed_trim h).eq_nil_iff, ← digitsValue_dropZeros ds,
    digitsValue_dropTrailing (Number.dropZeros ds), Nat.mul_eq_zero, trim]
  exact (or_iff_left (Nat.pow_pos (by decide)).ne').symm

/-- Zeros in front do not matter for those at the end, unless there is nothing else. -/
theorem trailingZeros_dropZeros {ds : List Char} (h : digitsValue ds ≠ 0) :
    trailingZeros (Number.dropZeros ds) = trailingZeros ds := by
  have hne : Number.dropZeros ds ≠ [] := by
    intro hnil
    apply h
    rw [← digitsValue_dropZeros, hnil]
    rfl
  obtain ⟨c, rest, hcons⟩ := List.exists_cons_of_ne_nil hne
  have hc : c ≠ '0' := by
    rintro rfl
    apply head?_dropZeros ds
    rw [hcons]
    rfl
  have hsplit : ds.takeWhile (· = '0') ++ Number.dropZeros ds = ds :=
    List.takeWhile_append_dropWhile
  -- The run of zeros at the end stops at `c` at the latest.
  have hstop : ∀ l x : List Char, (l ++ c :: x).takeWhile (· = '0') = l.takeWhile (· = '0') := by
    intro l x
    rw [List.takeWhile_append, List.takeWhile_cons_of_neg (by simpa using hc), List.append_nil]
    split
    · rename_i hlength
      exact ((List.takeWhile_prefix _).eq_of_length hlength).symm
    · rfl
  rw [hcons] at hsplit ⊢
  rw [trailingZeros, trailingZeros, ← hsplit, List.reverse_append, List.reverse_cons,
    List.append_assoc, List.singleton_append, hstop, hstop]

end JsonAutomata
