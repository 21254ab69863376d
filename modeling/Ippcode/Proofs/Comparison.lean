import Ippcode.Operation
import Ippcode.Proofs.Code.Payload
import Ippcode.Proofs.Numeral.Order
import Ippcode.Proofs.Result

/-!
# Comparing values

Numbers can be compared with numbers, truth values with truth values and strings with strings
(`Comparable`), and anything can be tested for equality with `nil`. On what can be compared, less
and greater are the two directions of one strict order (`relation_isConsistent`), in which integers
and doubles are mixed : an integer stands where the nearest double stands.

Two integers are compared as they are, but an integer and a double only after rounding. So the
result is that of comparing the numbers, unless the double is the nearest one to the integer
(`relation_rounded`). The two are equal then, and two different integers may be equal to one double.
-/

namespace Ippcode

/-- The relation with its operands exchanged. -/
def Relation.mirror : Relation → Relation
  | lt => gt
  | gt => lt
  | eq => eq

namespace Relation

/-- A relation holds the other way round if the order does. -/
theorem holds_mirror (op : Relation) (o : Option Ordering) :
    (o.map Ordering.swap == some op.mirror.ordering) = (o == some op.ordering) := by
  cases op <;> rcases o with _ | _ | _ | _ <;> rfl

/-- Each order belongs to one of the three relations. -/
theorem existsUnique_ordering (o : Ordering) : ∃! op : Relation, op.ordering = o := by
  cases o with
  | lt => exact ⟨lt, rfl, fun op h => by cases op <;> cases h; rfl⟩
  | eq => exact ⟨eq, rfl, fun op h => by cases op <;> cases h; rfl⟩
  | gt => exact ⟨gt, rfl, fun op h => by cases op <;> cases h; rfl⟩

end Relation

namespace Value

open Ippcode.Binary64

variable {v w u : Value} {x y : Float}

/-! ## What can be compared -/

/-- Whether a value is an integer or a double. -/
def IsNumber : Value → Prop
  | int _ | float _ => True
  | _ => False

/-- Two numbers, two truth values or two strings. -/
inductive Comparable : Value → Value → Prop
  | numbers {v w : Value} (left : v.IsNumber) (right : w.IsNumber) : Comparable v w
  | bools (a b : Bool) : Comparable (bool a) (bool b)
  | strings (s t : String) : Comparable (string s) (string t)

/-- What can be compared can be compared the other way round. -/
theorem Comparable.symm (h : Comparable v w) : Comparable w v := by
  cases h with
  | numbers left right => exact .numbers right left
  | bools a b => exact .bools b a
  | strings s t => exact .strings t s

/-- Nothing is comparable with `nil`. -/
theorem Comparable.ne_nil (h : Comparable v w) : ¬ (v = nil ∨ w = nil) := by
  rintro (rfl | rfl)
  · cases h with
    | numbers left _ => exact left
  · cases h with
    | numbers _ right => exact right

/-! ### Numbers -/

theorem exists_number? (h : v.IsNumber) : ∃ x, v.number? = some x ∧ Binary64.isNaN x = v.isNaN := by
  cases v with
  | int n => exact ⟨_, rfl, isNaN_ofInt _⟩
  | float x => exact ⟨x, rfl, rfl⟩
  | bool _ | string _ | nil => exact h.elim

theorem isNumber_of_number? (h : v.number? = some x) : v.IsNumber := by
  cases v with
  | int _ | float _ => trivial
  | bool _ | string _ | nil => cases h

/-- Numbers of which one is a double are compared as doubles. -/
theorem order_of_mixed (hv : v.number? = some x) (hw : w.number? = some y)
    (mixed : ¬ (v.ty = .int ∧ w.ty = .int)) : v.order w = .ok (compare? x y) := by
  unfold order
  split
  · exact absurd ⟨rfl, rfl⟩ mixed
  · cases hv
  · cases hv
  · rw [hv, hw]

/-- Integers are compared exactly. -/
theorem order_int (a b : Int64) :
    (int a).order (int b) = .ok (some (compare a.toInt b.toInt)) := rfl

/-- Two numbers are compared as integers or as doubles. -/
theorem order_of_numbers (hv : v.number? = some x) (hw : w.number? = some y) :
    (∃ a b, v = int a ∧ w = int b) ∨
      ¬ (v.ty = .int ∧ w.ty = .int) ∧ v.order w = .ok (compare? x y) := by
  by_cases ints : v.ty = .int ∧ w.ty = .int
  · obtain ⟨left, right⟩ := ints
    refine .inl ?_
    cases v <;> cases left
    cases w <;> cases right
    exact ⟨_, _, rfl, rfl⟩
  · exact .inr ⟨ints, order_of_mixed hv hw ints⟩

/-! ### The order -/

/-- Both orders of comparable values are the same one, and there is one unless a value is a NaN. -/
theorem exists_order (h : Comparable v w) :
    ∃ o, v.order w = .ok o ∧ w.order v = .ok (o.map Ordering.swap) ∧
      (o = none ↔ v.isNaN = true ∨ w.isNaN = true) := by
  cases h with
  | numbers left right =>
    obtain ⟨x, hv, nanv⟩ := exists_number? left
    obtain ⟨y, hw, nanw⟩ := exists_number? right
    rcases order_of_numbers hv hw with ⟨a, b, rfl, rfl⟩ | ⟨mixed, ordered⟩
    · refine ⟨_, order_int a b, ?_, by simp [isNaN]⟩
      exact congrArg (fun o => Except.ok (some o)) Std.OrientedOrd.eq_swap
    · refine ⟨_, ordered, ?_, ?_⟩
      · rw [order_of_mixed hw hv fun ints => mixed ints.symm, compare?_swap]
      · rw [← nanv, ← nanw, compare?_eq_none_iff]
  | bools a b =>
    refine ⟨_, rfl, ?_, by simp [isNaN]⟩
    exact congrArg (fun o => Except.ok (some o)) Std.OrientedOrd.eq_swap
  | strings s t =>
    refine ⟨_, rfl, ?_, by simp [isNaN]⟩
    exact congrArg (fun o => Except.ok (some o)) Std.OrientedOrd.eq_swap

/-- Other values have no order. -/
theorem order_of_not_comparable (h : ¬ Comparable v w) :
    v.order w = .error (.incomparable v.ty w.ty) := by
  unfold order
  split
  · exact absurd (.numbers trivial trivial) h
  · exact absurd (.bools _ _) h
  · exact absurd (.strings _ _) h
  · split
    · rename_i hv hw
      exact absurd (.numbers (isNumber_of_number? hv) (isNumber_of_number? hw)) h
    · rfl

/-- Only comparable values have an order. -/
theorem comparable_of_order {o : Option Ordering} (h : v.order w = .ok o) : Comparable v w := by
  by_contra other
  rw [order_of_not_comparable other] at h
  cases h

/-! ## Relations -/

/-- A relation holds if the order is its own. -/
theorem relation_of_comparable (h : Comparable v w) {o : Option Ordering}
    (ordered : v.order w = .ok o) (op : Relation) :
    relation op v w = .ok (o == some op.ordering) := by
  unfold relation
  rw [if_neg fun both => h.ne_nil both.2, ordered]
  rfl

/-- Values that cannot be compared are an error, unless the question is about `nil`. -/
theorem relation_of_not_comparable (h : ¬ Comparable v w) {op : Relation}
    (other : ¬ (op = .eq ∧ (v = nil ∨ w = nil))) :
    relation op v w = .error (.incomparable v.ty w.ty) := by
  unfold relation
  rw [if_neg other, order_of_not_comparable h]
  rfl

theorem relation_of_nil (h : v = nil ∨ w = nil) :
    relation .eq v w = .ok (decide (v = nil ∧ w = nil)) := by
  unfold relation
  rw [if_pos ⟨rfl, h⟩]
  rcases h with rfl | rfl <;> simp [beq_eq_decide, eq_comm]

/-- A relation holds if the order says so, or between `nil` and `nil`. -/
theorem relation_holds_iff {op : Relation} : relation op v w = .ok true ↔
    v.order w = .ok (some op.ordering) ∨ op = .eq ∧ v = nil ∧ w = nil := by
  by_cases comparable : Comparable v w
  · obtain ⟨o, ordered, -⟩ := exists_order comparable
    have other : ¬ (op = .eq ∧ v = nil ∧ w = nil) := fun h => comparable.ne_nil (.inl h.2.1)
    rw [relation_of_comparable comparable ordered, ordered, or_iff_left other, Except.ok.injEq,
      Except.ok.injEq, beq_iff_eq]
  · rw [order_of_not_comparable comparable, or_iff_right nofun]
    by_cases missing : op = .eq ∧ (v = nil ∨ w = nil)
    · obtain ⟨rfl, missing⟩ := missing
      rw [relation_of_nil missing, Except.ok.injEq, decide_eq_true_iff, and_iff_right rfl]
    · rw [relation_of_not_comparable comparable missing]
      exact iff_of_false nofun fun h => missing ⟨h.1, .inl h.2.1⟩

/-! ### Strings -/

/-- The codes of the characters of a string. -/
def codes (s : String) : List Nat := s.toList.map Char.toNat

/-- Strings are ordered by the codes of their characters. -/
theorem lt_iff_codes_lt {s t : String} : s < t ↔ codes s < codes t := by
  have keeps {s t : String} (h : s < t) : codes s < codes t :=
    List.map_lt (fun _ _ lt => UInt32.lt_iff_toNat_lt.mp lt) (String.lt_iff_toList_lt.mp h)
  refine ⟨keeps, fun h => ?_⟩
  rcases lt_trichotomy s t with lt | rfl | gt
  · exact lt
  · exact absurd h (lt_irrefl _)
  · exact absurd (keeps gt) h.asymm

theorem relation_lt_string (s t : String) :
    relation .lt (string s) (string t) = .ok (decide (codes s < codes t)) := by
  rw [relation_of_comparable (.strings s t) rfl]
  by_cases lt : s < t
  · rw [compare_lt_iff_lt.mpr lt, decide_eq_true (lt_iff_codes_lt.mp lt)]
    rfl
  · have other : compare s t ≠ .lt := fun same => lt (compare_lt_iff_lt.mp same)
    rw [decide_eq_false (mt lt_iff_codes_lt.mpr lt)]
    simpa [Relation.ordering] using other

/-! ### Less -/

/-- One value is less than another one. Integers are less also if their nearest doubles are. -/
inductive Less : Value → Value → Prop
  | ints {a b : Int64} (h : a.toInt < b.toInt) : Less (int a) (int b)
  | numbers {v w : Value} {x y : Float} (left : v.number? = some x) (right : w.number? = some y)
    (h : compare? x y = some .lt) : Less v w
  | bools : Less (bool false) (bool true)
  | strings {s t : String} (h : s < t) : Less (string s) (string t)

/-- Rounding keeps the order of integers, or makes them equal. -/
theorem lt_of_number?_lt {a b : Int64} (ha : (int a).number? = some x)
    (hb : (int b).number? = some y) (h : position x < position y) : a.toInt < b.toInt := by
  obtain rfl := Option.some.inj ha
  obtain rfl := Option.some.inj hb
  exact position_ofInt_mono.reflect_lt h

/-- Rounding to doubles keeps the order of integers. -/
theorem position_le_of_number? {a b : Int64} (ha : (int a).number? = some x)
    (hb : (int b).number? = some y) (h : a.toInt < b.toInt) : position x ≤ position y := by
  obtain rfl := Option.some.inj ha
  obtain rfl := Option.some.inj hb
  exact position_ofInt_mono h.le

theorem order_lt_iff : v.order w = .ok (some .lt) ↔ Less v w := by
  constructor
  · intro h
    cases comparable_of_order h with
    | numbers left right =>
      obtain ⟨x, hv, -⟩ := exists_number? left
      obtain ⟨y, hw, -⟩ := exists_number? right
      rcases order_of_numbers hv hw with ⟨a, b, rfl, rfl⟩ | ⟨-, ordered⟩
      · exact .ints (compare_lt_iff_lt.mp (Option.some.inj (Except.ok.inj h)))
      · rw [ordered] at h
        exact .numbers hv hw (Except.ok.inj h)
    | bools a b =>
      have lt : a < b := compare_lt_iff_lt.mp (Option.some.inj (Except.ok.inj h))
      obtain ⟨rfl, rfl⟩ := Bool.lt_iff.mp lt
      exact .bools
    | strings s t => exact .strings (compare_lt_iff_lt.mp (Option.some.inj (Except.ok.inj h)))
  · intro h
    cases h with
    | ints h => exact congrArg (fun o => Except.ok (some o)) (compare_lt_iff_lt.mpr h)
    | @numbers _ _ x y left right h =>
      rcases order_of_numbers left right with ⟨a, b, rfl, rfl⟩ | ⟨-, ordered⟩
      · have rounded := compare_lt_iff_lt.mp (compare?_eq_some_iff.mp h).2.2
        have lt := lt_of_number?_lt left right rounded
        exact congrArg (fun o => Except.ok (some o)) (compare_lt_iff_lt.mpr lt)
      · rw [ordered, h]
    | bools => rfl
    | strings h => exact congrArg (fun o => Except.ok (some o)) (compare_lt_iff_lt.mpr h)

/-- Being less is told by the values alone. -/
theorem relation_lt_iff : relation .lt v w = .ok true ↔ Less v w :=
  relation_holds_iff.trans ((or_iff_left nofun).trans order_lt_iff)

/-- An integer between two values may be rounded, and they stay in their order. -/
theorem Less.trans (h : Less v w) (h' : Less w u) : Less v u := by
  cases h with
  | @ints a b h =>
    cases h' with
    | ints h' => exact .ints (h.trans h')
    | numbers left right h' =>
      obtain ⟨-, number, lt⟩ := compare?_eq_some_iff.mp h'
      have le := position_le_of_number? rfl left h
      refine .numbers rfl right (compare?_eq_some_iff.mpr ⟨isNaN_ofInt _, number, ?_⟩)
      exact compare_lt_iff_lt.mpr (le.trans_lt (compare_lt_iff_lt.mp lt))
  | numbers left right h =>
    obtain ⟨number, middle, lt⟩ := compare?_eq_some_iff.mp h
    cases h' with
    | ints h' =>
      have le := position_le_of_number? right rfl h'
      refine .numbers left rfl (compare?_eq_some_iff.mpr ⟨number, isNaN_ofInt _, ?_⟩)
      exact compare_lt_iff_lt.mpr ((compare_lt_iff_lt.mp lt).trans_le le)
    | numbers left' right' h' =>
      obtain rfl := Option.some.inj (right.symm.trans left')
      obtain ⟨-, number', lt'⟩ := compare?_eq_some_iff.mp h'
      refine .numbers left right' (compare?_eq_some_iff.mpr ⟨number, number', ?_⟩)
      exact compare_lt_iff_lt.mpr ((compare_lt_iff_lt.mp lt).trans (compare_lt_iff_lt.mp lt'))
    | bools => cases right
    | strings => cases right
  | bools =>
    cases h' with
    | numbers left => cases left
  | strings h =>
    cases h' with
    | numbers left => cases left
    | strings h' => exact .strings (h.trans h')

/-! ## One order -/

/-- The relations that are the directions of one strict order of what can be compared, apart from
equality with `nil`. -/
structure IsConsistent (rel : Relation → Value → Value → Except RuntimeError Bool) : Prop where
  /-- Operands may be exchanged if the relation is turned around. -/
  mirrored : ∀ op v w,
    (∃ b, rel op v w = .ok b ∧ rel op.mirror w v = .ok b) ∨
      rel op v w = .error (.incomparable v.ty w.ty) ∧
        rel op.mirror w v = .error (.incomparable w.ty v.ty)
  lt_iff : ∀ v w, (∃ b, rel .lt v w = .ok b) ↔ Comparable v w
  gt_iff : ∀ v w, (∃ b, rel .gt v w = .ok b) ↔ Comparable v w
  eq_iff : ∀ v w, (∃ b, rel .eq v w = .ok b) ↔ Comparable v w ∨ v = nil ∨ w = nil
  /-- Exactly one relation holds. -/
  one : ∀ v w, Comparable v w → v.isNaN = false → w.isNaN = false →
    ∃! op, rel op v w = .ok true
  /-- No relation holds with a NaN. -/
  none : ∀ v w, Comparable v w → v.isNaN = true ∨ w.isNaN = true → ∀ op, rel op v w = .ok false
  nil : ∀ v w, v = nil ∨ w = nil → rel .eq v w = .ok (decide (v = nil ∧ w = nil))
  trans : ∀ v w u, rel .lt v w = .ok true → rel .lt w u = .ok true → rel .lt v u = .ok true
  /-- Strings are in the lexicographic order of the codes of their characters. -/
  strings : ∀ s t, rel .lt (string s) (string t) = .ok (decide (codes s < codes t))

/-- A relation can be asked of comparable values, and equality of `nil` too. -/
theorem exists_relation_iff (op : Relation) :
    (∃ b, relation op v w = .ok b) ↔ Comparable v w ∨ op = .eq ∧ (v = nil ∨ w = nil) := by
  by_cases comparable : Comparable v w
  · obtain ⟨o, ordered, -⟩ := exists_order comparable
    exact iff_of_true ⟨_, relation_of_comparable comparable ordered op⟩ (.inl comparable)
  · by_cases missing : op = .eq ∧ (v = nil ∨ w = nil)
    · refine iff_of_true ?_ (.inr missing)
      rw [missing.1]
      exact ⟨_, relation_of_nil missing.2⟩
    · rw [relation_of_not_comparable comparable missing]
      refine iff_of_false ?_ (not_or.mpr ⟨comparable, missing⟩)
      rintro ⟨b, h⟩
      cases h

/-- Asked the other way round it has the same answer, or fails as well. -/
theorem relation_mirror (op : Relation) (v w : Value) :
    (∃ b, relation op v w = .ok b ∧ relation op.mirror w v = .ok b) ∨
      relation op v w = .error (.incomparable v.ty w.ty) ∧
        relation op.mirror w v = .error (.incomparable w.ty v.ty) := by
  by_cases comparable : Comparable v w
  · obtain ⟨o, ordered, swapped, -⟩ := exists_order comparable
    refine .inl ⟨_, relation_of_comparable comparable ordered op, ?_⟩
    rw [relation_of_comparable comparable.symm swapped, op.holds_mirror]
  · have comparable' : ¬ Comparable w v := fun h => comparable h.symm
    by_cases missing : op = .eq ∧ (v = nil ∨ w = nil)
    · obtain ⟨rfl, missing⟩ := missing
      refine .inl ⟨_, relation_of_nil missing, ?_⟩
      exact (relation_of_nil missing.symm).trans
        (congrArg Except.ok (decide_eq_decide.mpr and_comm))
    · have missing' : ¬ (op.mirror = .eq ∧ (w = nil ∨ v = nil)) := by
        rintro ⟨same, other⟩
        refine missing ⟨?_, other.symm⟩
        cases op <;> cases same
        rfl
      exact .inr ⟨relation_of_not_comparable comparable missing,
        relation_of_not_comparable comparable' missing'⟩

/-- The relations of values are those of one order. -/
theorem relation_isConsistent : IsConsistent relation where
  mirrored := relation_mirror
  lt_iff v w := (exists_relation_iff .lt).trans (or_iff_left nofun)
  gt_iff v w := (exists_relation_iff .gt).trans (or_iff_left nofun)
  eq_iff v w := (exists_relation_iff .eq).trans (or_congr_right (and_iff_right rfl))
  one v w comparable number number' := by
    obtain ⟨o, ordered, -, nan⟩ := exists_order comparable
    rcases o with _ | o
    · rw [number, number'] at nan
      exact absurd (nan.mp rfl) (by decide)
    · have holds (op : Relation) : relation op v w = .ok true ↔ op.ordering = o := by
        rw [relation_of_comparable comparable ordered, Except.ok.injEq, beq_iff_eq,
          Option.some.injEq, eq_comm]
      simpa only [holds] using Relation.existsUnique_ordering o
  none v w comparable nan op := by
    obtain ⟨o, ordered, -, iff⟩ := exists_order comparable
    rw [relation_of_comparable comparable ordered, iff.mpr nan]
    rfl
  nil v w := relation_of_nil
  trans v w u h h' := relation_lt_iff.mpr ((relation_lt_iff.mp h).trans (relation_lt_iff.mp h'))
  strings := relation_lt_string

/-- A double between two integers of more than 53 bits, the first of which is rounded down. -/
theorem relation_isConsistent_mixed :
    relation .lt (int 9007199254740993) (float (ofInt 9007199254740994)) = .ok true ∧
    relation .lt (float (ofInt 9007199254740994)) (int 9007199254740995) = .ok true ∧
    relation .lt (int 9007199254740993) (int 9007199254740995) = .ok true ∧
    ∃! op, relation op (int 9007199254740993) (float (ofInt 9007199254740994)) = .ok true := by
  have below : relation .lt (int 9007199254740993) (float (ofInt 9007199254740994)) = .ok true := by
    decide +kernel
  have above : relation .lt (float (ofInt 9007199254740994)) (int 9007199254740995) = .ok true := by
    decide +kernel
  exact ⟨below, above, relation_isConsistent.trans _ _ _ below above,
    relation_isConsistent.one _ _ (.numbers trivial trivial) rfl (isNaN_ofInt _)⟩

/-! ## Rounding -/

/-- An integer and a double are in the order of their numbers, whichever comes first, unless the
double is the nearest one to the integer. -/
theorem exists_order_rounded (a : Int64) (number : Binary64.isNaN x = false) :
    ∃ o, (int a).order (float x) = .ok (some o) ∧
      (float x).order (int a) = .ok (some o.swap) ∧
      (IsNearestAt a.toInt (position x) ∧ o = .eq ∨
        ¬ IsNearestAt a.toInt (position x) ∧ o = exactOrder a.toInt x) := by
  have small : a.toInt.natAbs ≤ 2 ^ 63 := by
    have low := a.le_toInt
    have high := a.toInt_lt
    omega
  have ordered : compare? (ofInt a.toInt) x =
      some (compare (position (ofInt a.toInt)) (position x)) :=
    compare?_eq_some_iff.mpr ⟨isNaN_ofInt _, number, rfl⟩
  refine ⟨_, congrArg Except.ok ordered, ?_, ?_⟩
  · have swapped := compare?_swap (ofInt a.toInt) x
    rw [ordered] at swapped
    exact congrArg Except.ok swapped
  · rw [exactOrder_eq small number]
    exact compare_ofInt number

theorem exactOrder_of_isNearestAt {a : Int64} (number : Binary64.isNaN x = false)
    (small : a.toInt.natAbs ≤ 2 ^ 53) (h : IsNearestAt a.toInt (position x)) :
    exactOrder a.toInt x = .eq := by
  rw [exactOrder_eq (by omega) number, value_of_isNearestAt small h]
  exact compare_eq_iff_eq.mpr rfl

/-- The relations between an integer and a double are those of their numbers, whichever comes
first. -/
def IsExact (a : Int64) (x : Float) : Prop :=
  ∀ op : Relation, relation op (int a) (float x) = .ok (exactOrder a.toInt x == op.ordering) ∧
    relation op (float x) (int a) = .ok ((exactOrder a.toInt x).swap == op.ordering)

section Mixed

variable {a : Int64} {o : Ordering} (ordered : (int a).order (float x) = .ok (some o))
  (swapped : (float x).order (int a) = .ok (some o.swap))

include ordered swapped

/-- An integer and a double are compared by one order, in either direction. -/
theorem relation_of_mixed (op : Relation) :
    relation op (int a) (float x) = .ok (o == op.ordering) ∧
      relation op (float x) (int a) = .ok (o.swap == op.ordering) := by
  have comparable : Comparable (int a) (float x) := .numbers trivial trivial
  exact ⟨relation_of_comparable comparable ordered op,
    relation_of_comparable comparable.symm swapped op⟩

theorem isExact_iff_of_order : IsExact a x ↔ o = exactOrder a.toInt x := by
  constructor
  · intro exact
    obtain ⟨op, named, -⟩ := Relation.existsUnique_ordering o
    have same := (relation_of_mixed ordered swapped op).1.symm.trans (exact op).1
    rw [named, Except.ok.injEq, beq_self_eq_true] at same
    exact (beq_iff_eq.mp same.symm).symm
  · rintro rfl
    exact relation_of_mixed ordered swapped

end Mixed

/-- Integers are equal only to themselves. -/
theorem relation_eq_int_iff {a b : Int64} : relation .eq (int a) (int b) = .ok true ↔ a = b := by
  have comparable : Comparable (int a) (int b) := .numbers trivial trivial
  rw [relation_of_comparable comparable (order_int a b), Except.ok.injEq, beq_iff_eq,
    Option.some.injEq, Relation.ordering, compare_eq_iff_eq, Int64.toInt_inj]

/-- Equal values are the same one, or numbers of one position of which one is a double. -/
theorem eq_or_position_eq (h : v.order w = .ok (some .eq)) : v = w ∨
    ¬ (v.ty = .int ∧ w.ty = .int) ∧ ∃ x y, v.number? = some x ∧ w.number? = some y ∧
      Binary64.isNaN x = false ∧ Binary64.isNaN y = false ∧ position x = position y := by
  cases comparable_of_order h with
  | numbers left right =>
    obtain ⟨x, hv, -⟩ := exists_number? left
    obtain ⟨y, hw, -⟩ := exists_number? right
    rcases order_of_numbers hv hw with ⟨a, b, rfl, rfl⟩ | ⟨mixed, ordered⟩
    · have same := compare_eq_iff_eq.mp (Option.some.inj (Except.ok.inj h))
      exact .inl (congrArg int (Int64.toInt_inj.mp same))
    · rw [ordered] at h
      obtain ⟨number, number', same⟩ := compare?_eq_some_iff.mp (Except.ok.inj h)
      exact .inr ⟨mixed, x, y, hv, hw, number, number', compare_eq_iff_eq.mp same⟩
  | bools a b =>
    exact .inl (congrArg bool (compare_eq_iff_eq.mp (Option.some.inj (Except.ok.inj h))))
  | strings s t =>
    exact .inl (congrArg string (compare_eq_iff_eq.mp (Option.some.inj (Except.ok.inj h))))

/-- Equality is passed on, unless it leads from an integer over a double to an integer. -/
theorem relation_eq_trans (h : relation .eq v w = .ok true) (h' : relation .eq w u = .ok true) :
    relation .eq v u = .ok true ∨ ∃ a b x, v = int a ∧ w = float x ∧ u = int b := by
  rcases relation_holds_iff.mp h with ordered | ⟨-, rfl, rfl⟩
  · rcases relation_holds_iff.mp h' with ordered' | ⟨-, rfl, rfl⟩
    · rcases eq_or_position_eq ordered with rfl | ⟨mixed, x, y, hv, hw, number, -, same⟩
      · exact .inl h'
      rcases eq_or_position_eq ordered' with rfl | ⟨-, y', z, hw', hu, -, number', same'⟩
      · exact .inl h
      obtain rfl := Option.some.inj (hw.symm.trans hw')
      rcases order_of_numbers hv hu with ⟨a, b, rfl, rfl⟩ | ⟨-, last⟩
      · cases w with
        | int c => exact absurd ⟨rfl, rfl⟩ mixed
        | float y => exact .inr ⟨a, b, y, rfl, rfl, rfl⟩
        | bool _ | string _ | nil => cases hw
      · refine .inl (relation_holds_iff.mpr (.inl (last.trans (congrArg Except.ok ?_))))
        exact compare?_eq_some_iff.mpr
          ⟨number, number', compare_eq_iff_eq.mpr (same.trans same')⟩
    · exact .inl h
  · exact .inl h'

/-- Equality fails to be transitive only from one integer over a double to another integer. -/
theorem relation_eq_trans_iff (h : relation .eq v w = .ok true)
    (h' : relation .eq w u = .ok true) : relation .eq v u = .ok true ↔
      ¬ ∃ a b x, a ≠ b ∧ v = int a ∧ w = float x ∧ u = int b := by
  constructor
  · rintro last ⟨a, b, x, different, rfl, -, rfl⟩
    exact different (relation_eq_int_iff.mp last)
  · intro other
    rcases relation_eq_trans h h' with last | ⟨a, b, x, rfl, rfl, rfl⟩
    · exact last
    · refine relation_eq_int_iff.mpr ?_
      by_contra different
      exact other ⟨a, b, x, different, rfl, rfl, rfl⟩

/-- The relations between an integer and a double are those of their numbers, unless the double is
the nearest one to the integer and another number. Nothing but equality holds then. An integer of at
most 53 bits is compared exactly with every double. Equality is passed on, unless it leads from an
integer over a double to another integer. -/
theorem relation_rounded (a : Int64) {x : Float} (number : Binary64.isNaN x = false) :
    (IsExact a x ↔ ¬ IsNearestAt a.toInt (position x) ∨ exactOrder a.toInt x = .eq) ∧
    (IsNearestAt a.toInt (position x) → ∀ op : Relation,
      relation op (int a) (float x) = .ok (.eq == op.ordering) ∧
        relation op (float x) (int a) = .ok (.eq == op.ordering)) ∧
    (a.toInt.natAbs ≤ 2 ^ 53 → IsExact a x) ∧
    ∀ v w u, relation .eq v w = .ok true → relation .eq w u = .ok true →
      (relation .eq v u = .ok true ↔
        ¬ ∃ a b x, a ≠ b ∧ v = int a ∧ w = float x ∧ u = int b) := by
  obtain ⟨o, ordered, swapped, rounded⟩ := exists_order_rounded a number
  have exact_iff := isExact_iff_of_order ordered swapped
  have relations := relation_of_mixed ordered swapped
  have transitive := fun v w u => relation_eq_trans_iff (v := v) (w := w) (u := u)
  rcases rounded with ⟨nearest, rfl⟩ | ⟨other, same⟩
  · refine ⟨?_, fun _ => relations, fun small => ?_, transitive⟩
    · rw [exact_iff, or_iff_right (not_not_intro nearest), eq_comm]
    · exact exact_iff.mpr (exactOrder_of_isNearestAt number small nearest).symm
  · exact ⟨iff_of_true (exact_iff.mpr same) (.inl other), fun nearest => absurd nearest other,
      fun _ => exact_iff.mpr same, transitive⟩

/-- An integer above `2 ^ 53` is equal to its nearest double, and this double to another integer.
An integer below is compared exactly with it. -/
theorem relation_rounded_above :
    (∀ op : Relation, relation op (int 9007199254740993) (float (ofInt 9007199254740993))
      = .ok (.eq == op.ordering)) ∧
    IsExact 9007199254740991 (ofInt 9007199254740993) ∧
    (relation .eq (int 9007199254740993) (int 9007199254740992) = .ok true ↔
      ¬ ∃ a b x, a ≠ b ∧ int 9007199254740993 = int a ∧
        float (ofInt 9007199254740993) = float x ∧ int 9007199254740992 = int b) := by
  have number := isNaN_ofInt 9007199254740993
  obtain ⟨-, equal, -, transitive⟩ := relation_rounded 9007199254740993 number
  obtain ⟨-, -, exact, -⟩ := relation_rounded 9007199254740991 number
  have relations := equal (isNearestAt_ofInt 9007199254740993)
  exact ⟨fun op => (relations op).1, exact (by decide),
    transitive _ _ _ (relations .eq).1 (by decide +kernel)⟩

/-- An integer is equal to a double that is less than it, and this double to another integer, which
is not equal to the first one. -/
theorem relation_eq_of_different :
    relation .eq (int 9007199254740993) (float (Float.ofBits 0x4340000000000000)) = .ok true ∧
    exactOrder 9007199254740993 (Float.ofBits 0x4340000000000000) = .gt ∧
    relation .eq (float (Float.ofBits 0x4340000000000000)) (int 9007199254740992) = .ok true ∧
    relation .eq (int 9007199254740993) (int 9007199254740992) = .ok false := by
  decide +kernel

end Value

end Ippcode
