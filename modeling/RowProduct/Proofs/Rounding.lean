import Mathlib.Tactic.Common
import RowProduct.Number

namespace RowProduct.Binary64

theorem same_iff {x y : Binary64} : x.same y ↔ x.place = y.place ∧ (x.negative = y.negative ∨ x.place = 0) := by
  simp [same]

theorem same_refl (x : Binary64) : x.same x := same_iff.2 ⟨rfl, .inl rfl⟩

theorem same_comm (x y : Binary64) : x.same y = y.same x := by
  rw [Bool.eq_iff_iff, same_iff, same_iff]
  constructor <;> rintro ⟨hplace, hsign⟩ <;> exact ⟨hplace.symm, hsign.imp Eq.symm (hplace ▸ ·)⟩

theorem same_trans {x y z : Binary64} (hxy : x.same y) (hyz : y.same z) : x.same z := by
  obtain ⟨hplace, hsign⟩ := same_iff.1 hxy
  obtain ⟨hplace', hsign'⟩ := same_iff.1 hyz
  refine same_iff.2 ⟨hplace.trans hplace', ?_⟩
  rcases hsign with hsign | hzero
  · rw [hsign, hplace]
    exact hsign'
  · exact .inr hzero

theorem twoTo_pos (n : Int) : 0 < twoTo n := Nat.pow_pos (by decide)

theorem twoTo_of_nonpos {n : Int} (h : n ≤ 0) : twoTo n = 1 := by
  rw [twoTo, Int.toNat_of_nonpos h]

theorem pow_mul_twoTo (m n : Nat) : Nat.pow 2 m * twoTo (n - m) = Nat.pow 2 n * twoTo (m - n) := by
  have hle {m n : Nat} (h : m ≤ n) : Nat.pow 2 m * twoTo (n - m) = Nat.pow 2 n * twoTo (m - n) := by
    have hsub : ((n : Int) - m).toNat = n - m := by omega
    calc Nat.pow 2 m * twoTo (n - m)
        = Nat.pow 2 (m + (n - m)) := by rw [twoTo, hsub]; exact (Nat.pow_add 2 m (n - m)).symm
      _ = Nat.pow 2 n * twoTo (m - n) := by
          rw [Nat.add_sub_cancel' h, @twoTo_of_nonpos (m - n) (by omega), Nat.mul_one]
  rcases Nat.le_total m n with h | h
  · exact hle h
  · exact (hle h).symm

theorem le_roundRatio (num den : Nat) : num / den ≤ roundRatio num den := by
  simp only [roundRatio]
  split <;> omega

theorem roundRatio_one (num : Nat) : roundRatio num 1 = num := by
  simp [roundRatio, Nat.mod_one]

section

variable {n : Nat} (hn : n ≠ 0)
include hn

theorem pow_mul_le (k : Nat) : Nat.pow 2 k * twoTo (n.log2 - k) ≤ n * twoTo (k - n.log2) := by
  rw [← pow_mul_twoTo]
  exact Nat.mul_le_mul_right _ (Nat.log2_self_le hn)

theorem scale_one : scale n 1 = n.log2 - 52 := by
  have hlow : max (-1074) ((n.log2 : Int) - Nat.log2 1 - 53) = n.log2 - 53 := by
    have hone : Nat.log2 1 = 0 := by decide
    omega
  have hfull : ¬ n * twoTo (-(n.log2 - 53)) < 1 * twoTo (n.log2 - 53) * (2 * binade) := by
    rw [Int.neg_sub, Nat.one_mul, Nat.mul_comm (twoTo _), Nat.not_lt]
    exact pow_mul_le hn 53
  simp only [scale, hlow, if_neg hfull]
  omega

theorem nearestPlace_one : nearestPlace n 1 =
    (n.log2 + 1022) * binade + roundRatio (n * twoTo (52 - n.log2)) (twoTo (n.log2 - 52)) := by
  have hplace : ((n.log2 : Int) - 52 + 1074).toNat = n.log2 + 1022 := by omega
  simp only [nearestPlace, if_neg hn, scale_one hn, hplace, Int.neg_sub, Nat.one_mul]

theorem le_nearestPlace : (n.log2 + 1023) * binade ≤ nearestPlace n 1 := by
  have hquotient : binade ≤ n * twoTo (52 - n.log2) / twoTo (n.log2 - 52) :=
    (Nat.le_div_iff_mul_le (twoTo_pos _)).2 (pow_mul_le hn 52)
  rw [nearestPlace_one hn, Nat.succ_mul]
  exact Nat.add_le_add_left (Nat.le_trans hquotient (le_roundRatio _ _)) _

theorem nearestPlace_pos : 0 < nearestPlace n 1 :=
  Nat.lt_of_lt_of_le (Nat.mul_pos (Nat.succ_pos _) (by decide)) (le_nearestPlace hn)

theorem log2_lt_iff : n.log2 < 53 ↔ n < 2 * binade := Nat.log2_lt hn

variable (hlt : n < 2 * binade)
include hlt

/-- An integer of at most 53 bits is shifted and not rounded. -/
theorem nearestPlace_of_lt : nearestPlace n 1 = (n.log2 + 1022) * binade + n * twoTo (52 - n.log2) := by
  have hlog := (log2_lt_iff hn).2 hlt
  rw [nearestPlace_one hn, @twoTo_of_nonpos (n.log2 - 52) (by omega), roundRatio_one]

theorem nearestPlace_lt : nearestPlace n 1 < (n.log2 + 1024) * binade := by
  have hlog := (log2_lt_iff hn).2 hlt
  have hone : twoTo (n.log2 - 52) = 1 := twoTo_of_nonpos (by omega)
  have hpow : Nat.pow 2 n.log2 * twoTo (52 - n.log2) = Nat.pow 2 52 * twoTo (n.log2 - 52) :=
    pow_mul_twoTo n.log2 52
  have hshift : n * twoTo (52 - n.log2) < 2 * binade :=
    calc n * twoTo (52 - n.log2)
        < Nat.pow 2 n.log2 * 2 * twoTo (52 - n.log2) :=
          Nat.mul_lt_mul_of_pos_right Nat.lt_log2_self (twoTo_pos _)
      _ = 2 * (Nat.pow 2 n.log2 * twoTo (52 - n.log2)) := by rw [Nat.mul_comm _ 2, Nat.mul_assoc]
      _ = 2 * binade := by rw [hpow, hone]
  have hnext : (n.log2 + 1024) * binade = (n.log2 + 1022) * binade + 2 * binade :=
    Nat.add_mul (n.log2 + 1022) 2 binade
  rw [nearestPlace_of_lt hn hlt, hnext]
  exact Nat.add_lt_add_left hshift _

theorem nearestPlace_lt_count : nearestPlace n 1 < count - 1 := by
  have hlog := (log2_lt_iff hn).2 hlt
  calc nearestPlace n 1
      < (n.log2 + 1024) * binade := nearestPlace_lt hn hlt
    _ ≤ (52 + 1024) * binade := Nat.mul_le_mul_right _ (by omega)
    _ ≤ count - 1 := by decide

end

section

variable {m n : Nat} (hm : m ≠ 0) (hn : n ≠ 0) (hlt : m < 2 * binade)
include hm hn hlt

theorem log2_le_of_nearestPlace_le (h : nearestPlace n 1 ≤ nearestPlace m 1) : n.log2 ≤ m.log2 := by
  have hplaces : (n.log2 + 1023) * binade < (m.log2 + 1024) * binade :=
    Nat.lt_of_le_of_lt (Nat.le_trans (le_nearestPlace hn) h) (nearestPlace_lt hm hlt)
  have hlogs := Nat.lt_of_mul_lt_mul_right hplaces
  omega

theorem eq_of_nearestPlace_eq (h : nearestPlace m 1 = nearestPlace n 1) : m = n := by
  have hle := log2_le_of_nearestPlace_le hm hn hlt (Nat.le_of_eq h.symm)
  have hlog := (log2_lt_iff hm).2 hlt
  have hnlt : n < 2 * binade := (log2_lt_iff hn).1 (by omega)
  have heq : m.log2 = n.log2 := Nat.le_antisymm (log2_le_of_nearestPlace_le hn hm hnlt (Nat.le_of_eq h)) hle
  rw [nearestPlace_of_lt hm hlt, nearestPlace_of_lt hn hnlt, heq] at h
  exact Nat.eq_of_mul_eq_mul_right (twoTo_pos _) (Nat.add_left_cancel h)

end

theorem place_ofInt (n : Int) : (ofInt n).place = min (nearestPlace n.natAbs 1) (count - 1) := rfl

theorem place_ofInt_eq_zero_iff {n : Int} : (ofInt n).place = 0 ↔ n = 0 := by
  constructor
  · intro h
    by_contra hn
    have hpos := nearestPlace_pos (Int.natAbs_ne_zero.2 hn)
    have hcount : 0 < count - 1 := by decide
    rw [place_ofInt] at h
    omega
  · rintro rfl
    rfl

theorem not_same_ofInt {m n : Int} (hm : m < 0) (hn : 0 ≤ n) : ¬ (ofInt m).same (ofInt n) := by
  intro h
  rcases (same_iff.1 h).2 with hsign | hzero
  · have hsign : decide (m < 0) = decide (n < 0) := hsign
    rw [decide_eq_decide] at hsign
    omega
  · have hzero := place_ofInt_eq_zero_iff.1 hzero
    omega

/-- An integer below `2 ^ 53` shares its double with no other one. -/
theorem eq_of_same_ofInt {m n : Int} (hm : m.natAbs < 2 * binade) (h : (ofInt m).same (ofInt n)) : m = n := by
  obtain ⟨hplace, hsign⟩ := same_iff.1 h
  by_cases hm0 : m = 0
  · rw [hm0, place_ofInt_eq_zero_iff.2 rfl] at hplace
    rw [hm0, place_ofInt_eq_zero_iff.1 hplace.symm]
  · have hn0 : n ≠ 0 := by
      intro hn0
      rw [hn0, place_ofInt_eq_zero_iff.2 rfl] at hplace
      exact hm0 (place_ofInt_eq_zero_iff.1 hplace)
    have hcount := nearestPlace_lt_count (Int.natAbs_ne_zero.2 hm0) hm
    have habs : m.natAbs = n.natAbs := by
      rw [place_ofInt, place_ofInt] at hplace
      exact eq_of_nearestPlace_eq (Int.natAbs_ne_zero.2 hm0) (Int.natAbs_ne_zero.2 hn0) hm (by omega)
    rcases hsign with hsign | hzero
    · have hsign : decide (m < 0) = decide (n < 0) := hsign
      rw [decide_eq_decide] at hsign
      omega
    · exact absurd (place_ofInt_eq_zero_iff.1 hzero) hm0

end RowProduct.Binary64
