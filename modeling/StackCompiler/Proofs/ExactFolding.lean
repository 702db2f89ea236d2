import Mathlib.Algebra.Order.Ring.Int
import StackCompiler.Optimize.Folding

/-! Operations on integer constants compute with whole numbers.
They have a result exactly if it is certain: it fits into 64 bits and does not depend on how division
rounds. The result is then the one of whole numbers, and for powers also the one of repeated squaring
in 64 bits: no square on the way leaves 64 bits unless the power does. -/
namespace StackCompiler

/-- The number fits into 64 bits. -/
def InRange (n : Int) : Prop := Int64.minValue.toInt ≤ n ∧ n ≤ Int64.maxValue.toInt

instance (n : Int) : Decidable (InRange n) :=
  inferInstanceAs (Decidable (Int64.minValue.toInt ≤ n ∧ n ≤ Int64.maxValue.toInt))

theorem inRange_toInt (n : Int64) : InRange n.toInt := ⟨n.minValue_le_toInt,n.toInt_le⟩

theorem inRange_of_le_toInt {n : Int} {m : Int64} (hn : 0 ≤ n) (hm : n ≤ m.toInt) : InRange n :=
  ⟨Int.le_trans (by decide) hn,Int.le_trans hm m.toInt_le⟩

theorem inRange_iff {n : Int} :
    InRange n ↔ -9223372036854775808 ≤ n ∧ n ≤ 9223372036854775807 := Iff.rfl

theorem InRange.toInt_ofInt {n : Int} (h : InRange n) : (Int64.ofInt n).toInt = n := by
  rw [← Int64.ofIntLE_eq_ofInt h.1 h.2]
  exact Int64.toInt_ofIntLE

theorem InRange.fit? {n : Int} (h : InRange n) : Folding.fit? n = some (Int64.ofInt n) := if_pos h

theorem InRange.natAbs_le {n : Int} (h : InRange n) : n.natAbs ≤ 9223372036854775808 := by
  obtain ⟨hmin,hmax⟩ := inRange_iff.mp h
  omega

theorem InRange.of_mul {x c : Int} (h : InRange (x * c)) (hc : 0 < c) : InRange x := by
  obtain ⟨hmin,hmax⟩ := inRange_iff.mp h
  rw [inRange_iff]
  rcases Int.le_total 0 x with hx | hx
  · have hle : x * 1 ≤ x * c := Int.mul_le_mul_of_nonneg_left (by omega) hx
    omega
  · have hle : x * c ≤ x * 1 := Int.mul_le_mul_of_nonpos_left hx (by omega)
    omega

/-- Two to the 63rd is no square: it lies between those of 3037000499 and 3037000500. -/
theorem mul_self_ne_two_pow (x : Int) : x * x ≠ 9223372036854775808 := by
  intro h
  have habs : x.natAbs * x.natAbs = 9223372036854775808 := by
    rw [← Int.natAbs_mul,h]
    rfl
  rcases Nat.lt_or_ge x.natAbs 3037000500 with hlt | hge
  · have hle := Nat.mul_le_mul (Nat.le_of_lt_succ hlt) (Nat.le_of_lt_succ hlt)
    omega
  · have hle := Nat.mul_le_mul hge hge
    omega

/-- A square fits if a multiple of a power of it does. The multiple may be negative, and two to the
63rd fits only with that sign, but it is no square. -/
theorem InRange.of_mul_pow {x b : Int} {k : Nat} (h : InRange (x * (b * b) ^ k)) (hx : x ≠ 0)
    (hk : k ≠ 0) : InRange (b * b) := by
  have hfactor : 1 ≤ x.natAbs := Int.natAbs_pos.mpr hx
  have hpow : (b * b).natAbs ≤ (b * b).natAbs ^ k := Nat.le_self_pow hk _
  have hle : (b * b).natAbs ≤ (x * (b * b) ^ k).natAbs := by
    rw [Int.natAbs_mul x,Int.natAbs_pow]
    calc (b * b).natAbs ≤ 1 * (b * b).natAbs ^ k := by rwa [Nat.one_mul]
      _ ≤ x.natAbs * (b * b).natAbs ^ k := Nat.mul_le_mul_right _ hfactor
  have hbound := h.natAbs_le
  have hsquare := mul_self_ne_two_pow b
  have hnonneg : 0 ≤ b * b := mul_self_nonneg b
  rw [inRange_iff]
  omega

namespace Folding

theorem fit?_eq_none {n : Int} (h : ¬InRange n) : fit? n = none := if_neg h

theorem fit?_eq_some_iff {n : Int} {v : Int64} : fit? n = some v ↔ v.toInt = n := by
  by_cases h : InRange n
  · rw [h.fit?,Option.some.injEq,← Int64.toInt_inj,h.toInt_ofInt,eq_comm]
  · rw [fit?_eq_none h]
    refine ⟨fun hv => (Option.some_ne_none _ hv.symm).elim,?_⟩
    rintro rfl
    exact absurd (inRange_toInt v) h

@[simp] theorem fit?_toInt (v : Int64) : fit? v.toInt = some v := fit?_eq_some_iff.mpr rfl

/-- A check on the way does no harm if the number at the end fits only if the checked one does. -/
theorem bind_fit? {x y : Int} {f : Int64 → Option Int64} (hf : ∀ n : Int64, n.toInt = x → f n = fit? y)
    (hy : InRange y → InRange x) : (fit? x).bind f = fit? y := by
  by_cases h : InRange x
  · rw [h.fit?,Option.bind_some,hf _ h.toInt_ofInt]
  · rw [fit?_eq_none h,fit?_eq_none (mt hy h),Option.bind_none]

def times? (x y : Int64) : Option Int64 := fit? (x.toInt * y.toInt)

/-- The product with a power of the base, by repeated squaring: an odd exponent gives one factor, and
the rest of the exponent is halved. Every product has to fit. -/
def squaring? (product base : Int64) (exponent : Nat) : Option Int64 :=
  if exponent = 0 then some product
  else
    (if exponent % 2 = 1 then times? product base else some product).bind fun product =>
      if exponent = 1 then some product
      else (times? base base).bind fun base => squaring? product base (exponent / 2)
termination_by exponent
decreasing_by omega

theorem factor_eq_fit? (product base : Int64) (exponent : Nat) :
    (if exponent % 2 = 1 then times? product base else some product) =
      fit? (product.toInt * base.toInt ^ (exponent % 2)) := by
  rcases Nat.mod_two_eq_zero_or_one exponent with h | h
  · simp [h]
  · simp [h,times?]

theorem pow_eq_mul_square_pow (b : Int) (e : Nat) : b ^ e = b ^ (e % 2) * (b * b) ^ (e / 2) := by
  rw [← pow_two,← pow_mul,← pow_add,Nat.mod_add_div]

/-- The product with one more factor fits if the whole power does. -/
theorem inRange_factor {product base : Int64} {exponent : Nat}
    (h : InRange (product.toInt * base.toInt ^ (exponent % 2) *
      (base.toInt * base.toInt) ^ (exponent / 2))) :
    InRange (product.toInt * base.toInt ^ (exponent % 2)) := by
  by_cases hbase : base.toInt = 0
  · rw [hbase]
    rcases Nat.mod_two_eq_zero_or_one exponent with hmod | hmod
    · simpa [hmod] using inRange_toInt product
    · simpa [hmod] using inRange_toInt 0
  · exact h.of_mul (pow_pos (mul_self_pos.mpr hbase) _)

/-- Repeated squaring fails only if the power does not fit. The product may be zero only if the base
is: otherwise squares that no longer matter could leave 64 bits. -/
theorem squaring?_eq_fit? (exponent : Nat) {product base : Int64}
    (hzero : product.toInt = 0 → base.toInt = 0) :
    squaring? product base exponent = fit? (product.toInt * base.toInt ^ exponent) := by
  -- product and power together stay the same while the exponent is halved
  induction exponent using Nat.strongRecOn generalizing product base with
  | ind exponent ih =>
    rw [squaring?]
    by_cases hnone : exponent = 0
    · rw [if_pos hnone,hnone,pow_zero,mul_one,fit?_toInt]
    · rw [if_neg hnone,factor_eq_fit?,pow_eq_mul_square_pow base.toInt exponent,← mul_assoc]
      refine bind_fit? (fun n hn => ?_) inRange_factor
      have hzero' : n.toInt = 0 → base.toInt = 0 := by
        intro h
        rw [hn] at h
        exact (mul_eq_zero.mp h).elim hzero eq_zero_of_pow_eq_zero
      rw [← hn]
      by_cases hone : exponent = 1
      · rw [if_pos hone,hone]
        simp
      · rw [if_neg hone]
        refine bind_fit? (fun m hm => ?_) fun hpower => ?_
        · rw [← hm]
          refine ih (exponent / 2) (by omega) fun h => ?_
          rw [hm,hzero' h,mul_zero]
        · by_cases h : n.toInt = 0
          · rw [hzero' h,mul_zero]
            exact inRange_toInt 0
          · exact hpower.of_mul_pow h (by omega)

theorem not_inRange_pow {b : Int} {e : Nat} (hb : 2 ≤ b.natAbs) (he : 64 ≤ e) : ¬InRange (b ^ e) := by
  intro h
  have hbound := h.natAbs_le
  have hle : 2 ^ 64 ≤ (b ^ e).natAbs := by
    rw [Int.natAbs_pow]
    calc 2 ^ 64 ≤ 2 ^ e := Nat.pow_le_pow_right (by omega) he
      _ ≤ b.natAbs ^ e := Nat.pow_le_pow_left hb e
  omega

theorem power?_eq_fit? (l r : Int64) : power? l r =
    if 0 ≤ r.toInt ∧ r.toInt < 2 ^ 32 then fit? (l.toInt ^ r.toInt.toNat) else none := by
  have hguard : (r < 0 ∨ UInt32.size ≤ r.toInt.toNat) ↔ ¬(0 ≤ r.toInt ∧ r.toInt < 2 ^ 32) := by
    rw [Int64.lt_iff_toInt_lt,Int64.toInt_zero]
    have hsize : UInt32.size = 2 ^ 32 := rfl
    omega
  unfold power?
  dsimp only
  by_cases hr : 0 ≤ r.toInt ∧ r.toInt < 2 ^ 32
  · rw [if_neg (fun h => hguard.mp h hr),if_pos hr]
    -- powers of 0, 1 and -1 always fit; others have left 64 bits by the 64th factor
    by_cases hzero : l.toInt = 0
    · rw [if_pos hzero,hzero,zero_pow_eq]
    rw [if_neg hzero]
    by_cases hone : l.toInt = 1
    · rw [if_pos hone,hone,one_pow]
    rw [if_neg hone]
    by_cases hneg : l.toInt = -1
    · rw [if_pos hneg,hneg,neg_one_pow_eq_ite]
      simp only [Nat.even_iff]
    rw [if_neg hneg]
    by_cases hlarge : 64 ≤ r.toInt.toNat
    · rw [if_pos hlarge,fit?_eq_none (not_inRange_pow (by omega) hlarge)]
    · rw [if_neg hlarge]
      rfl
  · rw [if_pos (hguard.mpr hr),if_neg hr]

/-- Whether the result of an operation on whole numbers is certain. -/
def Certain (op : BinaryOp) (l r : Int) : Prop :=
  match op with
  | .add => InRange (l + r)
  | .sub => InRange (l - r)
  | .mul => InRange (l * r)
  | .div | .intDiv | .mod => 0 ≤ l ∧ 0 < r
  | .pow => 0 ≤ r ∧ r < 2 ^ 32 ∧ InRange (l ^ r.toNat)
  | .eq | .ne | .lt | .le | .gt | .ge => True
  | .concat | .and | .or => False

def IsWhole (v : Literal) (x : Int) : Prop := ∃ n : Int64, v = .integer n ∧ n.toInt = x

/-- The constant is the result of an operation on whole numbers. For division and remainder it is
the one of rounding towards zero as well as the one of rounding down. -/
def Exact (op : BinaryOp) (l r : Int) (v : Literal) : Prop :=
  match op with
  | .add => IsWhole v (l + r)
  | .sub => IsWhole v (l - r)
  | .mul => IsWhole v (l * r)
  | .div | .intDiv => IsWhole v (l.tdiv r) ∧ IsWhole v (l.fdiv r)
  | .mod => IsWhole v (l.tmod r) ∧ IsWhole v (l.fmod r)
  | .pow => IsWhole v (l ^ r.toNat)
  | .eq => v = .boolean (l = r)
  | .ne => v = .boolean (l ≠ r)
  | .lt => v = .boolean (l < r)
  | .le => v = .boolean (l ≤ r)
  | .gt => v = .boolean (l > r)
  | .ge => v = .boolean (l ≥ r)
  | .concat | .and | .or => False

theorem IsWhole.inRange {v : Literal} {x : Int} (h : IsWhole v x) : InRange x := by
  obtain ⟨n,_,rfl⟩ := h
  exact inRange_toInt n

theorem map_fit?_eq_some_iff {x : Int} {v : Literal} :
    (fit? x).map Literal.integer = some v ↔ IsWhole v x := by
  rw [Option.map_eq_some_iff]
  constructor
  · rintro ⟨n,hn,rfl⟩
    exact ⟨n,rfl,fit?_eq_some_iff.mp hn⟩
  · rintro ⟨n,rfl,hn⟩
    exact ⟨n,fit?_eq_some_iff.mpr hn,rfl⟩

theorem guarded_fit?_eq_some_iff {p : Prop} [Decidable p] {x : Int} {v : Literal} :
    (if p then (fit? x).map Literal.integer else none) = some v ↔ p ∧ IsWhole v x := by
  by_cases hp : p
  · rw [if_pos hp,map_fit?_eq_some_iff,and_iff_right hp]
  · simp [hp]

theorem exists_isWhole {x : Int} (h : InRange x) : ∃ v, IsWhole v x := ⟨_,_,rfl,h.toInt_ofInt⟩

section

variable {op : BinaryOp} {l r : Int64} {v : Literal}

/-- Where nothing is negative, rounding towards zero is rounding down. -/
theorem roundings_div {l r : Int} (hl : 0 ≤ l) (hr : 0 < r) :
    IsWhole v (l.tdiv r) ∧ IsWhole v (l.fdiv r) ↔ IsWhole v (l / r) := by
  rw [Int.tdiv_eq_ediv_of_nonneg hl,Int.fdiv_eq_ediv_of_nonneg _ (Int.le_of_lt hr),and_self]

theorem roundings_mod {l r : Int} (hl : 0 ≤ l) (hr : 0 < r) :
    IsWhole v (l.tmod r) ∧ IsWhole v (l.fmod r) ↔ IsWhole v (l % r) := by
  rw [Int.tmod_eq_emod_of_nonneg hl,Int.fmod_eq_emod_of_nonneg _ (Int.le_of_lt hr),and_self]

theorem divides_iff : 0 ≤ l ∧ 0 < r ↔ 0 ≤ l.toInt ∧ 0 < r.toInt := by
  rw [Int64.le_iff_toInt_le,Int64.lt_iff_toInt_lt,Int64.toInt_zero]

theorem integer?_comparison (h : op.isComparison = true) :
    integer? op l r = some v ↔ Exact op l.toInt r.toInt v := by
  have heq : (l == r) = decide (l.toInt = r.toInt) := by
    rw [beq_eq_decide,decide_eq_decide,Int64.toInt_inj]
  have hle : ∀ a b : Int, (decide (a < b) || decide (a = b)) = decide (a ≤ b) := by
    intro a b
    rw [← Bool.decide_or,decide_eq_decide,Int.le_iff_lt_or_eq]
  have hge : ∀ a b : Int, (decide (b < a) || decide (a = b)) = decide (a ≥ b) := by
    intro a b
    rw [← Bool.decide_or,decide_eq_decide,ge_iff_le,Int.le_iff_lt_or_eq,eq_comm]
  cases op with
  | eq | ne | lt | le | gt | ge =>
    simp only [integer?,compare?,heq,Int64.lt_iff_toInt_lt,hle,hge,← decide_not,Option.some_inj]
    exact eq_comm
  | _ => cases h

/-- An operation on integer constants has a result exactly if it is certain, and then the exact one. -/
theorem integer?_eq_some_iff :
    integer? op l r = some v ↔ Certain op l.toInt r.toInt ∧ Exact op l.toInt r.toInt v := by
  cases op with
  | add | sub | mul =>
    exact map_fit?_eq_some_iff.trans ⟨fun h => ⟨h.inRange,h⟩,And.right⟩
  | div | intDiv =>
    rw [integer?,guarded_fit?_eq_some_iff,divides_iff]
    exact and_congr_right fun h => (roundings_div h.1 h.2).symm
  | mod =>
    rw [integer?,guarded_fit?_eq_some_iff,divides_iff]
    exact and_congr_right fun h => (roundings_mod h.1 h.2).symm
  | pow =>
    rw [integer?,power?_eq_fit?,apply_ite (Option.map Literal.integer),Option.map_none,
      guarded_fit?_eq_some_iff]
    exact ⟨fun h => ⟨⟨h.1.1,h.1.2,h.2.inRange⟩,h.2⟩,fun h => ⟨⟨h.1.1,h.1.2.1⟩,h.2⟩⟩
  | eq | ne | lt | le | gt | ge =>
    rw [integer?_comparison rfl,Certain,true_and]
  | concat | and | or => simp [integer?,compare?,Certain]

theorem exists_exact (h : Certain op l.toInt r.toInt) : ∃ v, Exact op l.toInt r.toInt v := by
  cases op with
  | add | sub | mul => exact exists_isWhole h
  | div | intDiv =>
    have hmin := Int.ediv_nonneg h.1 (Int.le_of_lt h.2)
    have hmax := Int.ediv_le_self r.toInt h.1
    obtain ⟨v,hv⟩ := exists_isWhole (inRange_of_le_toInt hmin hmax)
    exact ⟨v,(roundings_div h.1 h.2).mpr hv⟩
  | mod =>
    have hmin := Int.emod_nonneg l.toInt (Int.ne_of_gt h.2)
    have hmax := Int.emod_lt_of_pos l.toInt h.2
    obtain ⟨v,hv⟩ := exists_isWhole (inRange_of_le_toInt hmin (Int.le_of_lt hmax))
    exact ⟨v,(roundings_mod h.1 h.2).mpr hv⟩
  | pow => exact exists_isWhole h.2.2
  | eq | ne | lt | le | gt | ge => exact ⟨_,rfl⟩
  | concat | and | or => exact h.elim

end

/-- An operation on integer constants has a result exactly if it is certain: comparisons always, sums,
differences and products that fit, quotients and remainders where nothing is negative or divided by
zero, powers that fit with an exponent below two to the 32nd. The result is then the exact one, and
repeated squaring in 64 bits gives powers in the same cases. -/
theorem integer?_exact (op : BinaryOp) (l r : Int64) :
    ((∃ v, integer? op l r = some v) ↔ Certain op l.toInt r.toInt) ∧
    (∀ v, integer? op l r = some v → Exact op l.toInt r.toInt v) ∧
    integer? .pow l r = (if 0 ≤ r.toInt ∧ r.toInt < 2 ^ 32 then squaring? 1 l r.toInt.toNat
      else none).map .integer := by
  refine ⟨⟨?_,fun h => ?_⟩,fun v hv => (integer?_eq_some_iff.mp hv).2,?_⟩
  · rintro ⟨v,hv⟩
    exact (integer?_eq_some_iff.mp hv).1
  · obtain ⟨v,hv⟩ := exists_exact h
    exact ⟨v,integer?_eq_some_iff.mpr ⟨h,hv⟩⟩
  · have hsquaring : squaring? 1 l r.toInt.toNat = fit? (l.toInt ^ r.toInt.toNat) := by
      rw [squaring?_eq_fit? _ fun h => absurd h (by decide),Int64.toInt_one,one_mul]
    rw [integer?,power?_eq_fit?,hsquaring]

end Folding

end StackCompiler
