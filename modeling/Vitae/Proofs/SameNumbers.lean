import Mathlib.Algebra.Order.Field.Rat
import Mathlib.Data.List.Forall2
import Vitae.Template.Context

/-!
# Documents with the same numbers

`2` and `2.0` are different numbers of a document, and `-0.0` is another one than `0`.
`Json.SameNumbers` relates two documents that differ in no more than this, in any number of places
and however deep: whole numbers that are doubles in the first are integers in the second, as long as
they are of a magnitude at which every integer is a double.

What a double stands for is said without reference to how it is read: `Double.value` is a rational
number. That it is found as an integer (`Double.toInt?_of_value`) and recognised as zero
(`Double.isZero_of_value`) follows by an equation of integers (`Double.value_eq_iff`).

A way of reading gives the same for related values, or it gives related parts. For parts that may be
missing this is `Option.Rel`, and for lists of parts `List.Forall₂`; the lemmas on readings say how
these relations pass from one to the other. The relation of two objects is on what is found in them
under a name (`Json.Fields.SameNumbers`), since nothing else is asked of an object.
-/

namespace Vitae

/-! ### What a double stands for -/

theorem power_pos (e : Int) : 0 < power 2 e := Nat.pow_pos (by decide)

theorem power_of_nonpos {e : Int} (h : e ≤ 0) : power 2 e = 1 := by
  rw [power, Int.toNat_of_nonpos h]

theorem two_zpow_eq_div (e : Int) : (2 : ℚ) ^ e = power 2 e / power 2 (-e) := by
  obtain ⟨n, rfl | rfl⟩ := e.eq_nat_or_neg <;> simp [power]

namespace Double

/-- The number that a double stands for. -/
def value (x : Double) : ℚ := (if x.negative then -1 else 1) * x.significand * 2 ^ x.exponent

/-- The significand with the sign. -/
def signed (x : Double) : Int := if x.negative then -x.significand else x.significand

/-- That a double stands for an integer, as an equation of integers. -/
theorem value_eq_iff {x : Double} {k : Int} :
    x.value = k ↔ x.signed * power 2 x.exponent = k * power 2 (-x.exponent) := by
  have hsigned : (if x.negative then -1 else 1) * (x.significand : ℚ) = x.signed := by
    unfold signed
    split <;> simp
  have hunit : (power 2 (-x.exponent) : ℚ) ≠ 0 := Nat.cast_ne_zero.mpr (power_pos _).ne'
  rw [value, hsigned, two_zpow_eq_div, ← mul_div_assoc, div_eq_iff hunit]
  exact_mod_cast Iff.rfl

/-- The integer that a double stands for is found. -/
theorem toInt?_of_value {x : Double} {k : Int} (h : x.value = k) : x.toInt? = some k := by
  rw [value_eq_iff, signed] at h
  unfold toInt?
  by_cases hexponent : 0 ≤ x.exponent
  · rw [power_of_nonpos (by omega : -x.exponent ≤ 0), Nat.cast_one, mul_one] at h
    rw [if_pos hexponent, ← h]
    split <;> simp
  · rw [power_of_nonpos (by omega : x.exponent ≤ 0), Nat.cast_one, mul_one] at h
    have hunit := power_pos (-x.exponent)
    rw [if_neg hexponent]
    dsimp only
    generalize power 2 (-x.exponent) = unit at h hunit ⊢
    -- up to the sign, the significand is so many units
    have hm : x.significand = k.natAbs * unit := by
      have habs := congrArg Int.natAbs h
      rw [Int.natAbs_mul, Int.natAbs_natCast] at habs
      rw [← habs]
      split <;> simp
    rw [hm, Nat.mul_mod_left, if_pos rfl, Nat.mul_div_cancel _ hunit]
    have hk : (if x.negative then -(k.natAbs : Int) else k.natAbs) * unit = k * unit := by
      rw [← h, hm]
      split <;> simp
    exact congrArg some (Int.eq_of_mul_eq_mul_right (by omega) hk)

theorem isZero_of_value {x : Double} {k : Int} (h : x.value = k) : x.isZero = (k == 0) := by
  rw [value_eq_iff] at h
  have hzero : x.significand = 0 ↔ k = 0 := by
    have hsigned : x.signed = 0 ↔ x.significand = 0 := by
      unfold signed
      split <;> simp
    have hpower (e : Int) : power 2 e ≠ 0 := (power_pos e).ne'
    calc x.significand = 0
        ↔ x.signed * power 2 x.exponent = 0 := by simp [hsigned, hpower]
      _ ↔ k = 0 := by simp [h, hpower]
  rw [isZero, Bool.eq_iff_iff, beq_iff_eq, beq_iff_eq, hzero]

end Double

/-! ### Readings of related values -/

section

variable {α β γ δ : Type} {related : α → β → Prop} {further : γ → δ → Prop}

theorem elim_eq_of_rel {read : α → γ} {read' : β → γ}
    (hread : ∀ a b, related a b → read a = read' b) {value : Option α} {value' : Option β}
    (h : Option.Rel related value value') (missing : γ) :
    value.elim missing read = value'.elim missing read' := by
  cases h with
  | none => rfl
  | some h => exact hread _ _ h

theorem rel_bind {next : α → Option γ} {next' : β → Option δ}
    (hnext : ∀ a b, related a b → Option.Rel further (next a) (next' b)) {value : Option α}
    {value' : Option β} (h : Option.Rel related value value') :
    Option.Rel further (value.bind next) (value'.bind next') := by
  cases h with
  | none => exact .none
  | some h => exact hnext _ _ h

theorem rel_or {value other : Option α} {value' other' : Option β}
    (h : Option.Rel related value value') (hother : Option.Rel related other other') :
    Option.Rel related (value.or other) (value'.or other') := by
  cases h with
  | none => simpa using hother
  | some h => exact .some h

theorem rel_getD {value : Option α} {value' : Option β} (h : Option.Rel related value value')
    {missing : α} {missing' : β} (hmissing : related missing missing') :
    related (value.getD missing) (value'.getD missing') := by
  cases h with
  | none => exact hmissing
  | some h => exact h

theorem map_eq_of_forall₂ {read : α → γ} {read' : β → γ}
    (hread : ∀ a b, related a b → read a = read' b) {items : List α} {items' : List β}
    (h : List.Forall₂ related items items') : items.map read = items'.map read' := by
  rw [← List.forall₂_eq_eq_eq, List.forall₂_map_left_iff, List.forall₂_map_right_iff]
  exact h.imp hread

theorem rel_findSome? {look : α → Option γ} {look' : β → Option δ}
    (hlook : ∀ a b, related a b → Option.Rel further (look a) (look' b)) {items : List α}
    {items' : List β} (h : List.Forall₂ related items items') :
    Option.Rel further (items.findSome? look) (items'.findSome? look') := by
  induction h with
  | nil => exact .none
  | @cons first first' _ _ hfirst _ ih =>
      rw [List.findSome?_cons, List.findSome?_cons]
      have hfound := hlook first first' hfirst
      generalize look first = found at hfound ⊢
      generalize look' first' = found' at hfound ⊢
      cases hfound with
      | none => exact ih
      | some h => exact .some h

theorem rel_find? {chosen : α → Bool} {chosen' : β → Bool}
    (hchosen : ∀ a b, related a b → chosen a = chosen' b) {items : List α} {items' : List β}
    (h : List.Forall₂ related items items') :
    Option.Rel related (items.find? chosen) (items'.find? chosen') := by
  rw [List.find?_eq_findSome?_guard, List.find?_eq_findSome?_guard]
  refine rel_findSome? (fun a b hpair => ?_) h
  rw [Option.guard, Option.guard, hchosen a b hpair]
  split
  · exact .some hpair
  · exact .none

theorem isEmpty_eq_of_forall₂ {items : List α} {items' : List β}
    (h : List.Forall₂ related items items') : items.isEmpty = items'.isEmpty := by
  cases h <;> rfl

theorem rel_getElem? {items : List α} {items' : List β} (h : List.Forall₂ related items items')
    (i : Nat) : Option.Rel related items[i]? items'[i]? := by
  induction h generalizing i with
  | nil => exact .none
  | cons hfirst _ ih =>
      cases i with
      | zero => exact .some hfirst
      | succ i => exact ih i

end

/-! ### Documents with the same numbers -/

namespace Json

/-- Whether two values are the same, but for whole numbers that are doubles in the first and
integers in the second; these are numbers up to the magnitude below which every integer is a
double. -/
inductive SameNumbers : Json → Json → Prop where
  | null : SameNumbers .null .null
  | bool (b : Bool) : SameNumbers (.bool b) (.bool b)
  | num (n : Number) : SameNumbers (.num n) (.num n)
  | whole {x : Double} {k : Int} (h : x.value = k) (hk : k.natAbs ≤ Number.exactBound) :
      SameNumbers (.num (.float x)) (.num (.int k))
  | str (s : String) : SameNumbers (.str s) (.str s)
  | arr {items items' : List Json} (h : List.Forall₂ SameNumbers items items') :
      SameNumbers (.arr items) (.arr items')
  | obj {fields fields' : Fields} (hnames : fields.map Prod.fst = fields'.map Prod.fst)
      (h : List.Forall₂ SameNumbers (fields.map Prod.snd) (fields'.map Prod.snd)) :
      SameNumbers (.obj fields) (.obj fields')

/-- Whether the fields of two objects have the same numbers under each name. -/
def Fields.SameNumbers (fields fields' : Fields) : Prop :=
  ∀ name, Option.Rel Json.SameNumbers (fields.get? name) (fields'.get? name)

theorem Fields.sameNumbers_of_forall₂ {fields fields' : Fields}
    (hnames : fields.map Prod.fst = fields'.map Prod.fst)
    (h : List.Forall₂ Json.SameNumbers (fields.map Prod.snd) (fields'.map Prod.snd)) :
    fields.SameNumbers fields' := by
  intro name
  induction fields generalizing fields' with
  | nil =>
      obtain rfl := List.map_eq_nil_iff.mp hnames.symm
      exact .none
  | cons field rest ih =>
      cases fields' with
      | nil => cases hnames
      | cons field' rest' =>
          obtain ⟨hname, hrest⟩ := List.cons.inj hnames
          obtain ⟨hvalue, hvalues⟩ := List.forall₂_cons.mp h
          rw [get?_cons, get?_cons, ← hname]
          split
          · exact .some hvalue
          · exact ih hrest hvalues

/-! ### Parts of related values -/

variable {value value' : Json}

theorem SameNumbers.fields? (h : SameNumbers value value') :
    Option.Rel Fields.SameNumbers value.fields? value'.fields? := by
  cases h with
  | obj hnames h => exact .some (Fields.sameNumbers_of_forall₂ hnames h)
  | _ => exact .none

theorem SameNumbers.items? (h : SameNumbers value value') :
    Option.Rel (List.Forall₂ SameNumbers) value.items? value'.items? := by
  cases h with
  | arr h => exact .some h
  | _ => exact .none

theorem SameNumbers.str?_eq (h : SameNumbers value value') : value.str? = value'.str? := by
  cases h <;> rfl

theorem SameNumbers.isNull_eq (h : SameNumbers value value') : value.isNull = value'.isNull := by
  cases h <;> rfl

theorem SameNumbers.isPlain_eq (h : SameNumbers value value') :
    Template.isPlain value = Template.isPlain value' := by
  cases h <;> rfl

end Json

end Vitae
