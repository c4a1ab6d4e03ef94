/-
  SCALING BY A TRUNCATED RECIPROCAL.

  A number `x` is to be multiplied by the ratio `f / K`.  Dividing it by the whole number `K / f`
  instead truncates twice, with opposite effects: the inner quotient is too small, which makes the
  result too large, and the outer quotient is too small itself.

  * `scaled_ge`     — the result never falls below the truncated exact one;
  * `scaled_mul_le` — it is too large by the factor `(q + 1) / q` at most, where `q` is anything the
                      inner quotient reaches.

  Where `x` is itself a product taken modulo `B`, scaling keeps the order of the first factor up to
  a bound exactly if the product does not wrap below that bound (`wrapped_mono_iff`).
-/
import Mathlib.Tactic.Ring
import Mathlib.Algebra.Order.Ring.Nat

namespace Num

/-- `x · f / K`, computed by one division by a whole number. -/
def scaled (K f x : Nat) : Nat := x / (K / f)

section
variable {K f x q : Nat}

theorem reciprocal_mul_le (K f : Nat) : K / f * f ≤ K := Nat.div_mul_le_self K f

/-- The exact reciprocal is less than one above the truncated one. -/
theorem lt_reciprocal_mul (hf : 0 < f) : K < (K / f + 1) * f := by
  have h := Nat.lt_mul_div_succ K hf
  rwa [Nat.mul_comm] at h

/-- **No shortfall**: at least the exact result, truncated. -/
theorem scaled_ge (hf : 0 < f) (hfK : f ≤ K) : x * f / K ≤ scaled K f x := by
  have hpos : 0 < K / f := Nat.div_pos hfK hf
  have hK : 0 < K := by omega
  unfold scaled
  rw [Nat.le_div_iff_mul_le hpos]
  -- with y the exact result: y * (K / f) * f ≤ y * K ≤ x * f
  have hexact : x * f / K * K ≤ x * f := Nat.div_mul_le_self _ _
  have hrec : x * f / K * (K / f * f) ≤ x * f / K * K :=
    Nat.mul_le_mul_left _ (reciprocal_mul_le K f)
  have hall : x * f / K * (K / f) * f ≤ x * f := by
    rw [Nat.mul_assoc]
    omega
  exact Nat.le_of_mul_le_mul_right hall hf

/-- **Bounded excess**: the result is too large by at most one part in `q`. -/
theorem scaled_mul_le (hf : 0 < f) (hq : q ≤ K / f) :
    scaled K f x * K * q ≤ (q + 1) * (x * f) := by
  unfold scaled
  -- the reciprocal K / f is short of the exact one by less than one part in q
  have hrec : K * q ≤ (q + 1) * (K / f * f) := by
    calc K * q ≤ (K / f + 1) * f * q := Nat.mul_le_mul_right q (lt_reciprocal_mul hf).le
      _ = K / f * f * q + f * q := by ring
      _ ≤ K / f * f * q + f * (K / f) := Nat.add_le_add_left (Nat.mul_le_mul_left f hq) _
      _ = (q + 1) * (K / f * f) := by ring
  have hout : x / (K / f) * (K / f) ≤ x := Nat.div_mul_le_self _ _
  calc x / (K / f) * K * q = x / (K / f) * (K * q) := by ring
    _ ≤ x / (K / f) * ((q + 1) * (K / f * f)) := Nat.mul_le_mul_left _ hrec
    _ = (q + 1) * (x / (K / f) * (K / f) * f) := by ring
    _ ≤ (q + 1) * (x * f) := Nat.mul_le_mul_left _ (Nat.mul_le_mul_right f hout)

end

/-! ### Scaling up first

Number and ratio are both taken `m` times: the inner quotient keeps more of the reciprocal. -/

section
variable {g m f n q : Nat}

theorem scaled_up_ge (hm : 0 < m) (hf : 0 < f) (hfg : f ≤ g * m) :
    n * f / g ≤ scaled (g * m) f (n * m) := by
  have hup : n * m * f / (g * m) = n * f / g := by
    rw [Nat.mul_right_comm, Nat.mul_div_mul_right _ _ hm]
  have h := scaled_ge (x := n * m) hf hfg
  rwa [hup] at h

theorem scaled_up_mul_le (hm : 0 < m) (hf : 0 < f) (hq : q ≤ g * m / f) :
    scaled (g * m) f (n * m) * g * q ≤ (q + 1) * (n * f) := by
  have h := scaled_mul_le (x := n * m) hf hq
  have hleft : scaled (g * m) f (n * m) * (g * m) * q =
      scaled (g * m) f (n * m) * g * q * m := by ring
  have hright : (q + 1) * (n * m * f) = (q + 1) * (n * f) * m := by ring
  rw [hleft, hright] at h
  exact Nat.le_of_mul_le_mul_right h hm

end

/-! ## Wrapping products -/

section
variable {B m d N : Nat}

/-- The last multiple of `m` below `B` scales to more than the next one, which wraps. -/
theorem wrapped_falls (hd : 0 < d) (hm : 0 < m) (hB : 2 * m + d ≤ B) :
    ((B - 1) / m + 1) * m % B / d < (B - 1) / m * m % B / d := by
  have hlast : (B - 1) / m * m ≤ B - 1 := Nat.div_mul_le_self _ _
  have hnext : B - 1 < ((B - 1) / m + 1) * m := lt_reciprocal_mul hm
  have hsucc : ((B - 1) / m + 1) * m = (B - 1) / m * m + m := Nat.succ_mul _ _
  -- the next multiple is taken back below m, the last one is within m of B
  have hwrap : ((B - 1) / m + 1) * m % B = ((B - 1) / m + 1) * m - B := by
    rw [Nat.mod_eq_sub_mod (by omega), Nat.mod_eq_of_lt (by omega)]
  have hkeep : (B - 1) / m * m % B = (B - 1) / m * m := Nat.mod_eq_of_lt (by omega)
  rw [hwrap, hkeep, Nat.div_lt_iff_lt_mul hd]
  have hlow : ((B - 1) / m + 1) * m - B + d ≤ (B - 1) / m * m := by omega
  have hdiv : (B - 1) / m * m < ((B - 1) / m * m / d + 1) * d := lt_reciprocal_mul hd
  rw [Nat.succ_mul] at hdiv
  omega

/-- **Order up to a bound**: exactly where the product does not wrap below it. -/
theorem wrapped_mono_iff (hd : 0 < d) (hB : 2 * m + d ≤ B) :
    (∀ a b, a ≤ b → b ≤ N → a * m % B / d ≤ b * m % B / d) ↔ N * m < B := by
  constructor
  · intro hmono
    by_contra hwraps
    have hN : B ≤ N * m := Nat.le_of_not_lt hwraps
    have hm : 0 < m := by
      rcases Nat.eq_zero_or_pos m with rfl | hm
      · omega
      · exact hm
    -- the first multiple that wraps is within the bound
    have hbound : (B - 1) / m + 1 ≤ N := by
      have hlt : (B - 1) / m * m < N * m := by
        have := Nat.div_mul_le_self (B - 1) m
        omega
      exact Nat.lt_of_mul_lt_mul_right hlt
    have hle := hmono ((B - 1) / m) ((B - 1) / m + 1) (Nat.le_succ _) hbound
    have hlt := wrapped_falls hd hm hB
    omega
  · intro hN a b hab hbN
    have ha : a * m ≤ N * m := Nat.mul_le_mul_right m (Nat.le_trans hab hbN)
    have hb : b * m ≤ N * m := Nat.mul_le_mul_right m hbN
    rw [Nat.mod_eq_of_lt (by omega), Nat.mod_eq_of_lt (by omega)]
    exact Nat.div_le_div_right (Nat.mul_le_mul_right m hab)

end

end Num
