import TargetView.Proofs.Approximation
import TargetView.Scalar.Arithmetic

/-! # Comparisons

The six comparison operators read one order (`Scalar.order`).  That order does
not depend on the side on which an operand stands (`Scalar.order_swap`), and
there is none exactly where a numeric reading is not-a-number and the operands
are not both texts (`Scalar.order_eq_none_iff`); so the operators are coherent.

Between an integer and a number the order is the one of the integer and the
rational number (`Scalar.order_int_number`), with one exception: from a magnitude
of `9.2 · 10 ^ 18` on, an integer that is rounded to the number is taken for
equal to it.
-/
namespace TargetView

namespace BinaryOp

/-- The six comparisons. -/
def comparisons : List BinaryOp := [.lt, .le, .gt, .ge, .eq, .ne]

/-- The answer of a comparison of two rational numbers. -/
def compares (op : BinaryOp) (x y : ℚ) : Bool :=
  match op with
  | .lt => x < y
  | .le => x ≤ y
  | .gt => y < x
  | .ge => y ≤ x
  | .eq => x = y
  | .ne => x ≠ y
  | _ => false

end BinaryOp

namespace Scalar

open BinaryOp (comparisons)

/-! ## The answers -/

/-- A comparison answers with one. -/
def Holds (op : BinaryOp) (a b : Scalar) : Prop :=
  binary op a b = .ok (ofBool true)

theorem ofBool_inj {s t : Bool} : ofBool s = ofBool t ↔ s = t := by
  constructor
  · intro h
    have := congrArg isTrue h
    rwa [isTrue_ofBool, isTrue_ofBool] at this
  · exact congrArg ofBool

theorem binary_of_comparison {op : BinaryOp} (hop : op ∈ comparisons) (a b : Scalar) :
    binary op a b = .ok (ofBool (accepts op (order a b))) := by
  simp only [comparisons, List.mem_cons, List.not_mem_nil, or_false] at hop
  rcases hop with rfl | rfl | rfl | rfl | rfl | rfl <;> rfl

theorem holds_iff {op : BinaryOp} (hop : op ∈ comparisons) (a b : Scalar) :
    Holds op a b ↔ accepts op (order a b) = true := by
  rw [Holds, binary_of_comparison hop, Except.ok.injEq, ofBool_inj]

/-- An order of rational numbers is accepted by the comparisons that hold of them. -/
theorem accepts_compare {op : BinaryOp} (hop : op ∈ comparisons) (x y : ℚ) :
    accepts op (some (compare x y)) = op.compares x y := by
  simp only [comparisons, List.mem_cons, List.not_mem_nil, or_false] at hop
  rcases lt_trichotomy x y with h | h | h
  · rw [compare_lt_iff_lt.mpr h]
    rcases hop with rfl | rfl | rfl | rfl | rfl | rfl <;>
      simp [accepts, BinaryOp.compares, h, h.le, h.not_gt, h.not_ge, h.ne]
  · rw [compare_eq_iff_eq.mpr h]
    rcases hop with rfl | rfl | rfl | rfl | rfl | rfl <;> simp [accepts, BinaryOp.compares, h]
  · rw [compare_gt_iff_gt.mpr h]
    rcases hop with rfl | rfl | rfl | rfl | rfl | rfl <;>
      simp [accepts, BinaryOp.compares, h, h.le, h.not_gt, h.not_ge, h.ne']

/-! ## Integers and numbers -/

theorem natAbs_toInt_lt (a : Int64) : a.toInt.natAbs < 2 ^ 64 := by
  have hlo := a.le_toInt
  have hhi := a.toInt_lt
  omega

/-- The rational number as which an integer is compared with the number `b` of value `v`. -/
def comparand (a : Int64) (b : Float) (v : ℚ) : ℚ :=
  if 9200000000000000000 ≤ |v| ∧ (Binary64.ofInt a.toInt == b) = true then v else a.toInt

/-- **The order of an integer and a number.**  It is exact where the number has a
fraction or a magnitude below `9.2 · 10 ^ 18`, and where rounding does not make
the integer equal to the number. -/
theorem order_int_number (a : Int64) {b : Float} {d : Binary64.Parts}
    (hd : Binary64.decode b = .finite d) :
    orderIntNumber a b = some (compare (comparand a b d.value) d.value) := by
  have hrounded := Binary64.order_ofInt (natAbs_toInt_lt a) hd
  have hinteger : Binary64.integer? b = if d.isIntegral then some d.truncate else none := by
    rw [Binary64.integer?, hd]
  unfold orderIntNumber comparand
  rw [hinteger]
  by_cases hint : d.isIntegral = true
  · have hvalue := Binary64.Parts.value_of_isIntegral hint
    have habs : |d.value| = d.truncate.natAbs := by
      rw [hvalue, Nat.cast_natAbs, Int.cast_abs]
    rw [if_pos hint, habs]
    dsimp only
    by_cases hsmall : d.truncate.natAbs < 9200000000000000000
    · have hbelow : ¬(9200000000000000000 : ℚ) ≤ d.truncate.natAbs := by
        exact_mod_cast hsmall.not_ge
      have hcast : StrictMono ((↑) : Int → ℚ) := Int.cast_strictMono
      rw [if_pos hsmall, if_neg fun h => hbelow h.1, hvalue, ← cmp_eq_compare, ← cmp_eq_compare]
      exact congrArg some (hcast.cmp_map_eq a.toInt d.truncate).symm
    · have habove : (9200000000000000000 : ℚ) ≤ d.truncate.natAbs := by
        exact_mod_cast not_lt.mp hsmall
      rw [if_neg hsmall, hrounded]
      by_cases heq : (Binary64.ofInt a.toInt == b) = true
      · rw [if_pos heq, if_pos ⟨habove, heq⟩, compare_eq_iff_eq.mpr rfl]
      · rw [if_neg heq, if_neg fun h => heq h.2]
  · -- What an integer is rounded to has no fraction.
    have hne := Binary64.ofInt_ne_of_not_isIntegral (natAbs_toInt_lt a) hd hint
    rw [if_neg hint, if_neg fun h => hne h.2]
    dsimp only
    rw [hrounded, if_neg hne]

/-- **Comparisons between integers and numbers.**  Either way round, the answer
is the one for the rational numbers that the operands stand for, unless the
number has a magnitude of `9.2 · 10 ^ 18` or more and the integer is rounded to
it; then they count as equal.  Below that magnitude, a number equals one integer
at most. -/
theorem integer_number_comparisons (a : Int64) (b : Float) (d : Binary64.Parts)
    (hd : Binary64.decode b = .finite d) :
    (∀ op ∈ comparisons,
      binary op (.int a) (.number b) =
        .ok (ofBool (op.compares (comparand a b d.value) d.value)) ∧
      binary op (.number b) (.int a) =
        .ok (ofBool (op.compares d.value (comparand a b d.value)))) ∧
    ∀ a', Holds .eq (.int a) (.number b) → Holds .eq (.int a') (.number b) →
      |d.value| < 9200000000000000000 → a = a' := by
  constructor
  · intro op hop
    have horder : order (.number b) (.int a) =
        some (compare d.value (comparand a b d.value)) := by
      show (orderIntNumber a b).map Ordering.swap = _
      rw [order_int_number a hd, Option.map_some, ← Std.OrientedCmp.eq_swap]
    rw [binary_of_comparison hop, binary_of_comparison hop, horder, accepts_compare hop]
    refine ⟨?_, rfl⟩
    show Except.ok (ofBool (accepts op (orderIntNumber a b))) = _
    rw [order_int_number a hd, accepts_compare hop]
  · intro a' h h' hsmall
    have hvalue (c : Int64) (hc : Holds .eq (.int c) (.number b)) : (c.toInt : ℚ) = d.value := by
      have heq : .eq ∈ comparisons := by decide
      rw [holds_iff heq] at hc
      have hc : accepts .eq (orderIntNumber c b) = true := hc
      rw [order_int_number c hd, accepts_compare heq, comparand,
        if_neg fun hlarge => hsmall.not_ge hlarge.1] at hc
      exact of_decide_eq_true hc
    apply Int64.toInt_inj.mp
    exact_mod_cast (hvalue a h).trans (hvalue a' h').symm

/-- The first integer that no number holds, and the number that it is rounded to. -/
theorem integer_number_comparisons_not_held :
    Binary64.decode 9007199254740992 = .finite ⟨false, 2 ^ 52, 1⟩ ∧
    (∀ op ∈ comparisons,
      binary op (.int 9007199254740993) (.number 9007199254740992) =
        .ok (ofBool (op.compares
          (comparand 9007199254740993 9007199254740992 (⟨false, 2 ^ 52, 1⟩ : Binary64.Parts).value)
          (⟨false, 2 ^ 52, 1⟩ : Binary64.Parts).value))) :=
  have hd : Binary64.decode 9007199254740992 = .finite ⟨false, 2 ^ 52, 1⟩ := by decide +kernel
  ⟨hd, fun op hop =>
    ((integer_number_comparisons 9007199254740993 9007199254740992 _ hd).1 op hop).1⟩

/-- Two integers equal the number `9.2 · 10 ^ 18`, of which one is larger by one. -/
theorem rounded_integer_equals_number :
    Binary64.decode 9200000000000000000 = .finite ⟨false, 8984375000000000, 10⟩ ∧
    (⟨false, 8984375000000000, 10⟩ : Binary64.Parts).value = 9200000000000000000 ∧
    Holds .eq (.int 9200000000000000000) (.number 9200000000000000000) ∧
    Holds .eq (.int 9200000000000000001) (.number 9200000000000000000) ∧
    BinaryOp.compares .eq 9200000000000000001 9200000000000000000 = false := by
  refine ⟨by decide +kernel, ?_, ?_, ?_, ?_⟩
  · norm_num [Binary64.Parts.value, Binary64.Parts.magnitude]
  · exact (holds_iff (by decide) _ _).mpr (by decide +kernel)
  · exact (holds_iff (by decide) _ _).mpr (by decide +kernel)
  · norm_num [BinaryOp.compares]

/-! ## The order of scalars -/

/-- The operands have no order: they are not both texts, and a numeric reading is
not-a-number. -/
def Unordered (a b : Scalar) : Prop :=
  ¬(a.isText = true ∧ b.isText = true) ∧
    (a.toNumber.isNaN = true ∨ b.toNumber.isNaN = true)

/-- The order of an integer and a number is missing with not-a-number alone. -/
theorem orderIntNumber_eq_none_iff (a : Int64) (b : Float) :
    orderIntNumber a b = none ↔ b.isNaN = true := by
  have hrounded : Binary64.order (Binary64.ofInt a.toInt) b = none ↔ b.isNaN = true := by
    rw [Binary64.order_eq_none_iff, Binary64.not_isNaN_ofInt (natAbs_toInt_lt a)]
    simp
  cases hd : Binary64.decode b with
  | finite d =>
    rw [order_int_number a hd, Binary64.not_isNaN_of_decode hd]
    simp
  | nan | infinite s =>
    have hinteger : Binary64.integer? b = none := by rw [Binary64.integer?, hd]
    rw [orderIntNumber, hinteger]
    exact hrounded

/-- **There is no order exactly with not-a-number**, unless both operands are
texts. -/
theorem order_eq_none_iff (a b : Scalar) : order a b = none ↔ Unordered a b := by
  have hint (v : Int64) : ¬(Scalar.int v).toNumber.isNaN = true :=
    Bool.eq_false_iff.mp (Binary64.not_isNaN_ofInt (natAbs_toInt_lt v))
  -- One operand is no text, and the order is the one of the numeric readings.
  have hreadings {a b : Scalar} (htext : ¬(a.isText = true ∧ b.isText = true))
      (horder : order a b = Binary64.order a.toNumber b.toNumber) :
      order a b = none ↔ Unordered a b := by
    rw [horder, Binary64.order_eq_none_iff]
    exact ⟨fun h => ⟨htext, h⟩, And.right⟩
  cases a with
  | number x =>
    cases b with
    | number y | text s => exact hreadings (fun h => nomatch h.1) rfl
    | int v =>
      show (orderIntNumber v x).map Ordering.swap = none ↔ _
      rw [Option.map_eq_none_iff, orderIntNumber_eq_none_iff]
      exact ⟨fun h => ⟨(fun ht => nomatch ht.1), .inl h⟩, fun h => h.2.resolve_right (hint v)⟩
  | int v =>
    cases b with
    | number x =>
      show orderIntNumber v x = none ↔ _
      rw [orderIntNumber_eq_none_iff]
      exact ⟨fun h => ⟨(fun ht => nomatch ht.1), .inr h⟩, fun h => h.2.resolve_left (hint v)⟩
    | int w => exact ⟨nofun, fun h => absurd h.2 (not_or.mpr ⟨hint v, hint w⟩)⟩
    | text s => exact hreadings (fun h => nomatch h.1) rfl
  | text s =>
    cases b with
    | text t => exact ⟨nofun, fun h => absurd ⟨rfl, rfl⟩ h.1⟩
    | number x | int v => exact hreadings (fun h => nomatch h.2) rfl

/-- **The order does not depend on the side on which an operand stands.** -/
theorem order_swap (a b : Scalar) : order b a = (order a b).map Ordering.swap := by
  have hwords (v w : Int64) : some (compare w.toInt v.toInt) =
      (some (compare v.toInt w.toInt)).map Ordering.swap :=
    congrArg some Std.OrientedCmp.eq_swap
  have htexts (s t : String) : some (compare t s) = (some (compare s t)).map Ordering.swap :=
    congrArg some Std.OrientedCmp.eq_swap
  have hback (o : Option Ordering) : o = (o.map Ordering.swap).map Ordering.swap := by
    cases o with
    | none => rfl
    | some o => cases o <;> rfl
  cases a with
  | number x =>
    cases b with
    | int v => exact hback _
    | _ => exact Binary64.order_swap _ _
  | int v =>
    cases b with
    | number x => rfl
    | int w => exact hwords v w
    | text s => exact Binary64.order_swap _ _
  | text s =>
    cases b with
    | text t => exact htexts s t
    | _ => exact Binary64.order_swap _ _

/-! ## Coherence -/

/-- The comparison that holds of an order alone. -/
def strictly : Ordering → BinaryOp
  | .lt => .lt
  | .eq => .eq
  | .gt => .gt

theorem strictly_mem (o : Ordering) : strictly o ∈ [BinaryOp.lt, .eq, .gt] := by
  cases o <;> decide

/-- Of the three comparisons, the one that belongs to the order holds. -/
theorem holds_iff_order {op : BinaryOp} (hop : op ∈ [BinaryOp.lt, .eq, .gt]) (a b : Scalar) :
    Holds op a b ↔ (order a b).map strictly = some op := by
  have hcomparison : op ∈ comparisons := by
    have hall : ∀ op ∈ [BinaryOp.lt, .eq, .gt], op ∈ comparisons := by decide
    exact hall op hop
  rw [holds_iff hcomparison]
  simp only [List.mem_cons, List.not_mem_nil, or_false] at hop
  cases order a b with
  | none => rcases hop with rfl | rfl | rfl <;> decide
  | some o => rcases hop with rfl | rfl | rfl <;> cases o <;> decide

/-- What the comparisons of two scalars have to do with each other. -/
structure Coherent (a b : Scalar) : Prop where
  /-- Every comparison answers with one or zero. -/
  answers : ∀ op ∈ comparisons, ∃ t, binary op a b = .ok (ofBool t)
  ne_iff : Holds .ne a b ↔ ¬Holds .eq a b
  eq_comm : binary .eq a b = binary .eq b a
  lt_eq_gt : binary .lt a b = binary .gt b a
  le_eq_ge : binary .le a b = binary .ge b a
  le_iff : Holds .le a b ↔ Holds .lt a b ∨ Holds .eq a b
  exactly_one : ¬Unordered a b → ∃! op, op ∈ [BinaryOp.lt, .eq, .gt] ∧ Holds op a b
  none_holds : Unordered a b → ∀ op ∈ [BinaryOp.lt, .eq, .gt], ¬Holds op a b

/-- A comparison and the one that asks the same from the other side. -/
theorem accepts_swap {op op' : BinaryOp}
    (h : (op, op') ∈ [(BinaryOp.lt, BinaryOp.gt), (.le, .ge), (.eq, .eq)])
    (o : Option Ordering) : accepts op' (o.map Ordering.swap) = accepts op o := by
  simp only [List.mem_cons, Prod.mk.injEq, List.not_mem_nil, or_false] at h
  rcases h with ⟨rfl, rfl⟩ | ⟨rfl, rfl⟩ | ⟨rfl, rfl⟩
  all_goals
    cases o with
    | none => rfl
    | some o => cases o <;> rfl

theorem binary_swap {op op' : BinaryOp}
    (h : (op, op') ∈ [(BinaryOp.lt, BinaryOp.gt), (.le, .ge), (.eq, .eq)]) (a b : Scalar) :
    binary op a b = binary op' b a := by
  have hops : op ∈ comparisons ∧ op' ∈ comparisons := by
    simp only [List.mem_cons, Prod.mk.injEq, List.not_mem_nil, or_false] at h
    rcases h with ⟨rfl, rfl⟩ | ⟨rfl, rfl⟩ | ⟨rfl, rfl⟩ <;> decide
  rw [binary_of_comparison hops.1, binary_of_comparison hops.2, order_swap a b, accepts_swap h]

/-- **Comparisons are coherent** on every pair of scalars. -/
theorem comparisons_coherent (a b : Scalar) : Coherent a b where
  answers op hop := ⟨_, binary_of_comparison hop a b⟩
  ne_iff := by
    rw [holds_iff (by decide), holds_iff (by decide)]
    cases order a b with
    | none => decide
    | some o => cases o <;> decide
  eq_comm := binary_swap (by decide) a b
  lt_eq_gt := binary_swap (by decide) a b
  le_eq_ge := binary_swap (by decide) a b
  le_iff := by
    rw [holds_iff (by decide), holds_iff (by decide), holds_iff (by decide)]
    cases order a b with
    | none => decide
    | some o => cases o <;> decide
  exactly_one hordered := by
    cases h : order a b with
    | none => exact absurd ((order_eq_none_iff a b).mp h) hordered
    | some o =>
      refine ⟨strictly o, ⟨strictly_mem o, ?_⟩, ?_⟩
      · rw [holds_iff_order (strictly_mem o), h, Option.map_some]
      · rintro op ⟨hop, hholds⟩
        rw [holds_iff_order hop, h, Option.map_some] at hholds
        exact (Option.some.inj hholds).symm
  none_holds hunordered op hop := by
    rw [holds_iff_order hop, (order_eq_none_iff a b).mpr hunordered]
    exact nofun

end Scalar
end TargetView
