import Libft.CPPClass.Theorems.Arithmetic
import Mathlib.Data.Int.ModEq

/-!
# Modular powers

`mod_pow` multiplies by the base once for each unit of the exponent. The remainder of a negative base is negative and above minus the
modulus, so the loop that makes it positive ends after one turn. The other loop keeps the power of the base that the exponent still
asks for: times the accumulator it stays the same modulo the modulus, and each turn takes one from the exponent.
-/

namespace Libft.CPPClass.BigNumber

open Decimal Int

variable {n base exponent modulus acc rem : BigNumber}

/-- Taking the sign off changes negative numbers only. -/
theorem toInt_unsigned (h : 0 ≤ n.toInt) : n.unsigned.toInt = n.toInt := by
  have hv : n.unsigned.toInt = n.magnitude := congrArg Nat.cast (value_stripZeros n.digits)
  rw [hv]
  unfold toInt signed at h ⊢
  split_ifs at h ⊢ <;> omega

theorem stripped_unsigned (n : BigNumber) : n.unsigned.Stripped := stripZeros_stripZeros n.digits

/-- The remainder that is assigned. -/
theorem assigned_modulo_spec (hn : n.Stripped) (hm : modulus.Stripped) (hp : 0 < modulus.toInt) :
    (assigned (n.modulo modulus)).Stripped ∧ (assigned (n.modulo modulus)).toInt = n.toInt.tmod modulus.toInt := by
  obtain ⟨r, hr, hs, hv⟩ := modulo_spec hn hm hp.ne'
  rw [hr]
  exact ⟨hs, hv⟩

/-! ## The loops -/

/-- The loop that adds the modulus ends at a remainder that is not negative. -/
theorem raiseLoop_spec (hr : rem.Stripped) (hm : modulus.Stripped) (hl : -modulus.toInt < rem.toInt) :
    ∃ r, (∀ ts, raiseLoop modulus (ts + 2) rem = some r) ∧ r.Stripped ∧ 0 ≤ r.toInt ∧
      r.toInt ≡ rem.toInt [ZMOD modulus.toInt] := by
  by_cases hneg : rem.isNegative = true
  · have hsum := toInt_add hr hm
    have hs : ¬(rem.add modulus).isNegative = true := by
      rw [isNegative_iff]
      omega
    refine ⟨rem.add modulus, fun ts => ?_, (addSigned_spec hr hm _ _).2, by omega, ?_⟩
    · rw [raiseLoop, if_pos hneg, raiseLoop, if_neg hs]
    · rw [hsum]
      exact add_modEq_right
  · have hng : 0 ≤ rem.toInt := by
      rw [isNegative_iff] at hneg
      omega
    exact ⟨rem, fun ts => by rw [raiseLoop, if_neg hneg], hr, hng, Int.ModEq.refl _⟩

theorem stripped_one : one.Stripped := rfl

theorem toInt_one : one.toInt = 1 := rfl

/-- The loop over an exponent takes as many turns as the exponent has units, and one to see that there are no more. -/
theorem powerLoop_spec (hbs : 0 ≤ base.toInt) (hmd : modulus.Stripped) (hp : 0 < modulus.toInt) {k : Nat}
    (he : exponent.Stripped) (hk : exponent.toInt = k) (ha : acc.Stripped)
    (hng : 0 ≤ acc.toInt) (hlt : 0 < k ∨ acc.toInt < modulus.toInt) :
    ∃ r, (∀ ts, powerLoop base modulus (ts + k + 1) exponent acc = some r) ∧ 0 ≤ r.toInt ∧
      r.toInt < modulus.toInt ∧ r.toInt ≡ acc.toInt * base.toInt ^ k [ZMOD modulus.toInt] := by
  induction k generalizing exponent acc with
  | zero =>
    have hst : isZeroValue exponent.digits = true := (isZeroValue_iff_toInt _).mpr hk
    refine ⟨acc, fun ts => ?_, hng, hlt.resolve_left (Nat.lt_irrefl 0), ?_⟩
    · rw [powerLoop, if_pos hst]
    · rw [pow_zero, mul_one]
  | succ k ih =>
    have hgo : ¬isZeroValue exponent.digits = true := by
      rw [isZeroValue_iff_toInt]
      omega
    have hl : (exponent.subtract one).toInt = k := by
      rw [toInt_subtract he stripped_one, hk, toInt_one]
      omega
    obtain ⟨hs, hv⟩ := assigned_modulo_spec (stripped_multiply acc base) hmd hp
    rw [toInt_multiply, tmod_eq_emod_of_nonneg (mul_nonneg hng hbs)] at hv
    obtain ⟨r, hlp, h0, hb, hm⟩ := ih (stripped_unsigned _) ((toInt_unsigned (by omega)).trans hl) hs
      (hv ▸ emod_nonneg _ hp.ne') (Or.inr (hv ▸ emod_lt_of_pos _ hp))
    refine ⟨r, fun ts => ?_, h0, hb, ?_⟩
    · rw [powerLoop, if_neg hgo]
      exact hlp ts
    · calc r.toInt
        _ ≡ acc.toInt * base.toInt % modulus.toInt * base.toInt ^ k [ZMOD modulus.toInt] := hv ▸ hm
        _ ≡ acc.toInt * base.toInt * base.toInt ^ k [ZMOD modulus.toInt] := (mod_modEq _ _).mul_right _
        _ = acc.toInt * base.toInt ^ (k + 1) := by rw [pow_succ', mul_assoc]

/-! ## The power -/

/-- For a positive modulus and an exponent that is not negative `mod_pow` ends, with the number below the modulus that is congruent to
the power. -/
theorem modPow_spec (hbase : base.Stripped) (hnonneg : 0 ≤ exponent.toInt) (hpos : 0 < modulus.toInt) :
    ∃ power enough, (∀ turns ≥ enough, modPow turns base exponent modulus = some (.ok power)) ∧ 0 ≤ power.toInt ∧
      power.toInt < modulus.toInt ∧ power.toInt ≡ base.toInt ^ exponent.toInt.toNat [ZMOD modulus.toInt] := by
  have hm : modulus.unsigned.toInt = modulus.toInt := toInt_unsigned hpos.le
  have he : exponent.unsigned.toInt = exponent.toInt := toInt_unsigned hnonneg
  rw [← hm] at hpos
  have hd : ¬isZeroValue modulus.digits = true := by
    rw [isZeroValue_iff_toInt]
    omega
  have hsg : ¬modulus.isNegative = true ∧ ¬exponent.isNegative = true := by
    rw [isNegative_iff, isNegative_iff]
    omega
  have hs := stripped_unsigned modulus
  rw [← hm, ← he]
  rw [← he] at hnonneg
  generalize hm' : modulus.unsigned = m at *
  obtain ⟨hrem, hv⟩ := assigned_modulo_spec hbase hs hpos
  obtain ⟨r, hrs, hr, hr0, hrm⟩ := raiseLoop_spec hrem hs (hv ▸ lt_tmod_of_pos _ hpos)
  -- the base and the remainder it is taken for are congruent
  have hc : r.toInt ≡ base.toInt [ZMOD m.toInt] := by
    refine hrm.trans (modEq_iff_dvd.mpr ⟨base.toInt.tdiv m.toInt, ?_⟩)
    have := tmod_add_mul_tdiv base.toInt m.toInt
    omega
  obtain ⟨k, hk⟩ := eq_ofNat_of_zero_le hnonneg
  rw [hk, toNat_natCast]
  have hmp : ∀ turns, modPow (turns + 2) base exponent modulus =
      if isZeroValue exponent.unsigned.digits then some (.ok (assigned (one.modulo m)).unsigned)
      else (powerLoop r.trimLeadingZeros m (turns + 2) exponent.unsigned one).map fun power => .ok power.unsigned := by
    intro turns
    rw [modPow, if_neg hd, if_neg hsg.1, if_neg hsg.2, hm', hrs]
  rcases Nat.eq_zero_or_pos k with rfl | hkp
  · have hz : isZeroValue exponent.unsigned.digits = true := (isZeroValue_iff_toInt _).mpr hk
    obtain ⟨-, ho⟩ := assigned_modulo_spec stripped_one hs hpos
    rw [toInt_one, tmod_eq_emod_of_nonneg zero_le_one] at ho
    rw [← toInt_unsigned (ho ▸ emod_nonneg _ hpos.ne')] at ho
    refine ⟨(assigned (one.modulo m)).unsigned, 2, fun turns ht => ?_, ?_⟩
    · obtain ⟨turns, rfl⟩ := Nat.exists_eq_add_of_le' ht
      rw [hmp, if_pos hz]
    · rw [ho, pow_zero]
      exact ⟨emod_nonneg _ hpos.ne', emod_lt_of_pos _ hpos, mod_modEq _ _⟩
  · have hgo : ¬isZeroValue exponent.unsigned.digits = true := by
      rw [isZeroValue_iff_toInt, hk]
      omega
    have htr := toInt_trimLeadingZeros r
    obtain ⟨power, hl, h0, hb, hmod⟩ := powerLoop_spec (htr ▸ hr0) hs hpos (stripped_unsigned exponent) hk
      stripped_one (by decide) (Or.inl hkp)
    rw [htr, toInt_one, one_mul] at hmod
    have hp := toInt_unsigned h0
    rw [← hp] at h0 hb hmod
    refine ⟨_, k + 2, fun turns ht => ?_, h0, hb, hmod.trans (hc.pow k)⟩
    obtain ⟨turns, rfl⟩ := Nat.exists_eq_add_of_le' ht
    have ht := hl (turns + 1)
    rw [show turns + 1 + k + 1 = turns + k + 2 by omega] at ht
    rw [← Nat.add_assoc, hmp, if_neg hgo, ht]
    rfl

/-- A negative base. -/
theorem modPow_spec_negative :
    (ofText (ascii "-7")).Stripped ∧ (ofText (ascii "13")).toInt = 13 ∧ (ofText (ascii "10")).toInt = 10 ∧
      ∃ power enough, ∀ turns ≥ enough,
        modPow turns (ofText (ascii "-7")) (ofText (ascii "13")) (ofText (ascii "10")) = some (.ok power) := by
  have hb : (ofText (ascii "-7")).Stripped := (Built.assign _ .initialise).stripped
  obtain ⟨power, enough, h, -⟩ := @modPow_spec (ofText (ascii "-7")) (ofText (ascii "13")) (ofText (ascii "10")) hb (by decide)
    (by decide)
  exact ⟨hb, rfl, rfl, power, enough, h⟩

end Libft.CPPClass.BigNumber
