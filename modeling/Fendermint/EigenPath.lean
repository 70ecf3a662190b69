import Fendermint.Shared
import Fendermint.Mmr
import Mathlib.Data.Nat.Bitwise

namespace Fendermint.EigenPath

open Ipld Bits Shared Mmr

variable {Cid : Type} {i n d : Nat}

/-- Below the count, a leaf index first differs from it at a bit where the count has a one and
the index a zero; above that bit the two agree. -/
theorem top_of_lt (hin : i < n) (hd : (i ^^^ n).testBit d) (hlt : i ^^^ n < 2 ^ (d + 1)) :
    n.testBit d ∧ i.testBit d = false ∧ ∀ k, d < k → i.testBit k = n.testBit k := by
  have habove : ∀ k, d < k → i.testBit k = n.testBit k := fun k hk => by
    have := Nat.testBit_lt_two_pow (lt_of_lt_of_le hlt (Nat.pow_le_pow_right (by omega) hk))
    simpa [Nat.testBit_xor] using this
  rw [Nat.testBit_xor] at hd
  cases hi : i.testBit d
  · simp_all
  · have hn : n.testBit d = false := by simpa [hi] using hd
    exact absurd (Nat.lt_of_testBit d hn hi fun k hk => (habove k hk).symm) (by omega)

theorem div_eq_of_above (habove : ∀ k, d < k → i.testBit k = n.testBit k) :
    i / 2 ^ (d + 1) = n / 2 ^ (d + 1) :=
  Nat.eq_of_testBit_eq fun k => by
    rw [← Nat.shiftRight_eq_div_pow, ← Nat.shiftRight_eq_div_pow, Nat.testBit_shiftRight,
      Nat.testBit_shiftRight, habove _ (by omega)]

theorem mod_succ_of_testBit (hi : i.testBit d = false) : i % 2 ^ (d + 1) = i % 2 ^ d := by
  rw [Nat.mod_pow_succ, ← Nat.toNat_testBit, hi, Bool.toNat_false, Nat.mul_zero, Nat.add_zero]

/-- The peak heights of a count with a one at bit `d`: those above `d`, whose leaves come
first, then `d`, then those below. -/
theorem setBits_split (hn : n < 2 ^ 64) (hd : d < 64) (hbit : n.testBit d) :
    ∃ hi, setBits n = hi ++ d :: bitsBelow n d ∧ weight hi + n % 2 ^ (d + 1) = n := by
  obtain ⟨hi, hsplit, -⟩ := bitsBelow_append n (show d + 1 ≤ 64 by omega)
  have hsum := weight_bitsBelow n 64
  rw [hsplit, weight_append, weight_bitsBelow, Nat.mod_eq_of_lt hn] at hsum
  exact ⟨hi, by rw [setBits, hsplit, bitsBelow, if_pos hbit], hsum⟩

theorem pathForEigenRoot_of_le (h : n ≤ i) :
    (pathForEigenRoot i n : Except (Abort Cid) (Nat × Nat)) = .error (.err .leafIndexOutOfRange) := by
  simp [pathForEigenRoot, h]
  rfl

/-- `path_for_eigen_root` below the count, once the top bit `d` where index and count differ is
known: the path `i % 2 ^ d + 2 ^ d`, and the index of the peak, the count's ones less those
below `d`, less one. -/
theorem pathForEigenRoot_eq (hin : i < n) (hd : d < 64) (hlz : leadingZeros (i ^^^ n) = 63 - d)
    (hc : countOnes (n % 2 ^ d) < countOnes n) (hadd : i % 2 ^ d + 2 ^ d < 2 ^ 64) :
    (pathForEigenRoot i n : Except (Abort Cid) (Nat × Nat)) =
      .ok (i % 2 ^ d + 2 ^ d, countOnes n - countOnes (n % 2 ^ d) - 1) := by
  have h1 : 63 - d ≤ 64 := by omega
  have h2 : 1 ≤ 64 - (63 - d) := by omega
  have h3 : 64 - (63 - d) - 1 < 64 := by omega
  have h4 : 1 ≤ countOnes n - countOnes (n % 2 ^ d) := by omega
  have hshl : 1 <<< (64 - (63 - d) - 1) % 2 ^ 64 = 2 ^ d := by
    rw [show 64 - (63 - d) - 1 = d by omega, Nat.one_shiftLeft,
      Nat.mod_eq_of_lt (Nat.pow_lt_pow_right (by omega) hd)]
  simp only [pathForEigenRoot, ge_iff_le, Nat.not_le.2 hin, if_false, hlz, checkedSub_of_le h1,
    checkedSub_of_le h2, checkedShl_of_lt h3, ok_bind, hshl, checkedSub_of_le Nat.one_le_two_pow,
    Nat.and_pow_two_sub_one_eq_mod, checkedSub_of_le hc.le, checkedSub_of_le h4, checkedAdd_of_lt hadd]
  rfl

/-- `path_for_eigen_root` below the count: the peak whose block holds the leaf, and the path
`2 ^ h + o` to the leaf at offset `o` of that peak's perfect tree of height `h`. -/
theorem pathForEigenRoot_of_lt (hn : n < 2 ^ 64) (hin : i < n) :
    ∃ e h, (setBits n)[e]? = some h ∧ blockStart (setBits n) e ≤ i ∧
      i < blockStart (setBits n) e + 2 ^ h ∧ (pathForEigenRoot i n : Except (Abort Cid) (Nat × Nat)) =
        .ok (2 ^ h + (i - blockStart (setBits n) e), e) := by
  obtain ⟨d, hd, hlt⟩ := exists_top (Nat.xor_ne_zero.2 (Nat.ne_of_lt hin))
  have hd64 : d < 64 := (Nat.pow_lt_pow_iff_right (by omega)).1
    (lt_of_le_of_lt (Nat.testBit_implies_ge hd) (Nat.xor_lt_two_pow (by omega) hn))
  obtain ⟨hnd, hid, habove⟩ := top_of_lt hin hd hlt
  obtain ⟨hi, hsplit, hsum⟩ := setBits_split hn hd64 hnd
  have hstart : blockStart (setBits n) hi.length = weight hi := by
    simp [blockStart, hsplit]
  have hi_eq : i = weight hi + i % 2 ^ d := by
    have h1 := Nat.div_add_mod i (2 ^ (d + 1))
    have h2 := Nat.div_add_mod n (2 ^ (d + 1))
    rw [div_eq_of_above habove, mod_succ_of_testBit hid] at h1
    omega
  have hmod := Nat.mod_lt i (Nat.two_pow_pos d)
  have hpow : 2 ^ d * 2 ≤ 2 ^ 64 := by
    rw [← Nat.pow_succ]; exact Nat.pow_le_pow_right (by omega) hd64
  have hcount : countOnes n = hi.length + 1 + countOnes (n % 2 ^ d) := by
    rw [countOnes, ← length_bitsBelow, ← setBits, hsplit, countOnes_mod hd64.le]; simp; omega
  refine ⟨hi.length, d, by rw [hsplit, List.getElem?_append_right le_rfl, Nat.sub_self,
    List.getElem?_cons_zero],
    by omega, by omega, ?_⟩
  rw [pathForEigenRoot_eq hin hd64 (leadingZeros_of_top hd64 hd hlt) (by omega) (by omega), hstart]
  exact congrArg Except.ok (Prod.ext (by dsimp only; omega) (by dsimp only; omega))

/-- `path_for_eigen_root` against a scan over the peaks, tallest first: an error exactly when
the index is not below the count; below it, and with no overflow or underflow on the way, the
one peak whose block of leaves holds the index, and the path to the leaf in that peak's tree. -/
theorem pathForEigenRoot_spec (leafIndex leafCount : Nat) (hn : leafCount < 2 ^ 64) :
    (leafCount ≤ leafIndex → (pathForEigenRoot leafIndex leafCount : Except (Abort Cid) (Nat × Nat)) =
      .error (.err .leafIndexOutOfRange)) ∧
    (leafIndex < leafCount → ∃ e h, (setBits leafCount)[e]? = some h ∧ e < countOnes leafCount ∧
      blockStart (setBits leafCount) e ≤ leafIndex ∧ leafIndex < blockStart (setBits leafCount) e + 2 ^ h ∧
      (∀ j h', (setBits leafCount)[j]? = some h' → blockStart (setBits leafCount) j ≤ leafIndex →
        leafIndex < blockStart (setBits leafCount) j + 2 ^ h' → j = e) ∧
      (pathForEigenRoot leafIndex leafCount : Except (Abort Cid) (Nat × Nat)) =
        .ok (2 ^ h + (leafIndex - blockStart (setBits leafCount) e), e)) := by
  refine ⟨pathForEigenRoot_of_le, fun hin => ?_⟩
  obtain ⟨e, h, he, h1, h2, hrun⟩ := pathForEigenRoot_of_lt hn hin
  refine ⟨e, h, he, ?_, h1, h2, fun j h' hj hj1 hj2 => blockStart_unique hj he hj1 hj2 h1 h2, hrun⟩
  rw [← length_setBits]
  exact (List.getElem?_eq_some_iff.1 he).1

theorem pathForEigenRoot_spec_eleven : 11 < 2 ^ 64 ∧
    ((11 ≤ 5 → (pathForEigenRoot 5 11 : Except (Abort Nat) (Nat × Nat)) =
      .error (.err .leafIndexOutOfRange)) ∧
    (5 < 11 → ∃ e h, (setBits 11)[e]? = some h ∧ e < countOnes 11 ∧
      blockStart (setBits 11) e ≤ 5 ∧ 5 < blockStart (setBits 11) e + 2 ^ h ∧
      (∀ j h', (setBits 11)[j]? = some h' → blockStart (setBits 11) j ≤ 5 →
        5 < blockStart (setBits 11) j + 2 ^ h' → j = e) ∧
      (pathForEigenRoot 5 11 : Except (Abort Nat) (Nat × Nat)) =
        .ok (2 ^ h + (5 - blockStart (setBits 11) e), e))) :=
  ⟨by decide, pathForEigenRoot_spec 5 11 (by decide)⟩

end Fendermint.EigenPath
