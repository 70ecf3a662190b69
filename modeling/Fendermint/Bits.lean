import Mathlib.Algebra.Group.Nat.Basic
import Mathlib.Data.List.Range

namespace Fendermint.Bits

/-- Zero bits of `x` read from bit `b - 1` down, up to the first one bit. -/
def zerosDown (x : Nat) : Nat → Nat
  | 0 => 0
  | b + 1 => if x.testBit b then 0 else zerosDown x b + 1

/-- Zero bits of `x` read from bit `b` up over `k` bits, up to the first one bit. -/
def zerosUp (x : Nat) : Nat → Nat → Nat
  | _, 0 => 0
  | b, k + 1 => if x.testBit b then 0 else zerosUp x (b + 1) k + 1

/-- One bits of `x` below bit `b`. -/
def onesBelow (x : Nat) : Nat → Nat
  | 0 => 0
  | b + 1 => onesBelow x b + (x.testBit b).toNat

/-- Positions of the one bits of `x` below bit `b`, the highest first. -/
def bitsBelow (x : Nat) : Nat → List Nat
  | 0 => []
  | b + 1 => if x.testBit b then b :: bitsBelow x b else bitsBelow x b

/-- `u64::leading_zeros`. -/
def leadingZeros (x : Nat) : Nat := zerosDown x 64

/-- `u64::trailing_zeros`. -/
def trailingZeros (x : Nat) : Nat := zerosUp x 0 64

/-- `u64::count_ones`. -/
def countOnes (x : Nat) : Nat := onesBelow x 64

/-- `!x` on a `u64`. -/
def complement (x : Nat) : Nat := x ^^^ (2 ^ 64 - 1)

/-- The heights of the peaks of an accumulator of `n` leaves: the one bits of `n`, the
tallest first. -/
def setBits (n : Nat) : List Nat := bitsBelow n 64

@[simp] theorem setBits_zero : setBits 0 = [] := by decide

@[simp] theorem length_bitsBelow (x b : Nat) : (bitsBelow x b).length = onesBelow x b := by
  induction b with
  | zero => rfl
  | succ b ih => cases h : x.testBit b <;> simp [bitsBelow, onesBelow, h, ih]

theorem length_bitsBelow_le (x b : Nat) : (bitsBelow x b).length ≤ b := by
  induction b with
  | zero => exact Nat.le_refl 0
  | succ b ih =>
      cases h : x.testBit b <;>
        simp only [bitsBelow, h, Bool.false_eq_true, if_true, if_false, List.length_cons] <;> omega

theorem length_setBits (n : Nat) : (setBits n).length = countOnes n := length_bitsBelow n 64

theorem mem_bitsBelow {x b h : Nat} : h ∈ bitsBelow x b ↔ h < b ∧ x.testBit h := by
  induction b with
  | zero => simp [bitsBelow]
  | succ b ih =>
      rw [Nat.lt_succ_iff_lt_or_eq, or_and_right, ← ih]
      by_cases hb : x.testBit b
      · simp only [bitsBelow, hb, if_true, List.mem_cons]
        rw [or_comm]
        exact or_congr_right ⟨fun (e : h = b) => ⟨e, e ▸ hb⟩, And.left⟩
      · simp only [bitsBelow, hb, if_false]
        constructor
        · exact Or.inl
        · rintro (h1 | ⟨rfl, h2⟩)
          · exact h1
          · simp_all

theorem bitsBelow_of_ones {x b : Nat} (h : ∀ i < b, x.testBit i) : bitsBelow x b = (List.range b).reverse := by
  induction b with
  | zero => rfl
  | succ b ih => simp [bitsBelow, h b (by omega), ih (fun i hi => h i (by omega)), List.range_succ]

theorem bitsBelow_of_zeros {x b : Nat} (h : ∀ i < b, x.testBit i = false) : bitsBelow x b = [] := by
  induction b with
  | zero => rfl
  | succ b ih => simp [bitsBelow, h b (by omega), ih (fun i hi => h i (by omega))]

theorem testBit_complement {x i : Nat} (hi : i < 64) : (complement x).testBit i = !x.testBit i := by
  rw [complement, Nat.testBit_xor, Nat.testBit_two_pow_sub_one]
  simp [hi]

theorem zerosUp_spec (x : Nat) : ∀ k b,
    zerosUp x b k ≤ k ∧ (∀ i, b ≤ i → i < b + zerosUp x b k → x.testBit i = false) ∧
      (zerosUp x b k < k → x.testBit (b + zerosUp x b k) = true) := by
  intro k
  induction k with
  | zero => intro b; simp only [zerosUp]; exact ⟨le_rfl, fun i h h' => by omega, fun h => by omega⟩
  | succ k ih =>
      intro b
      cases hb : x.testBit b
      · obtain ⟨h1, h2, h3⟩ := ih (b + 1)
        simp only [zerosUp, hb, Bool.false_eq_true, ↓reduceIte]
        refine ⟨by omega, fun i hi hi' => ?_, fun h => ?_⟩
        · rcases Nat.eq_or_lt_of_le hi with rfl | hi
          · simpa using hb
          · exact h2 i hi (by omega)
        · rw [show b + (zerosUp x (b + 1) k + 1) = b + 1 + zerosUp x (b + 1) k by omega]
          exact h3 (by omega)
      · simp only [zerosUp, hb, ↓reduceIte]
        exact ⟨by omega, fun i h h' => by omega, fun _ => by simpa using hb⟩

theorem mod_two_pow_of_ones {x k : Nat} (h : ∀ i < k, x.testBit i) : x % 2 ^ k = 2 ^ k - 1 :=
  Nat.eq_of_testBit_eq fun i => by
    by_cases hi : i < k
    · simp [hi, h i hi]
    · simp [hi]

theorem trailingZeros_complement_spec {n : Nat} (hn : n + 1 < 2 ^ 64) :
    trailingZeros (complement n) < 64 ∧ (∀ i < trailingZeros (complement n), n.testBit i) ∧
      n.testBit (trailingZeros (complement n)) = false := by
  obtain ⟨hle, hlow, htop⟩ := zerosUp_spec (complement n) 64 0
  simp only [Nat.zero_add] at hlow htop
  have hones : ∀ i < zerosUp (complement n) 0 64, n.testBit i := fun i hi => by
    simpa [testBit_complement (show i < 64 by omega)] using hlow i (Nat.zero_le i) hi
  have hlt : zerosUp (complement n) 0 64 < 64 := by
    refine lt_of_le_of_ne hle fun heq => ?_
    have := mod_two_pow_of_ones (heq ▸ hones)
    have := Nat.mod_le n (2 ^ 64)
    omega
  have := htop hlt
  rw [testBit_complement hlt] at this
  exact ⟨hlt, hones, by simpa using this⟩

theorem testBit_succ_of_run {n t : Nat} (hlow : ∀ i < t, n.testBit i) (ht : n.testBit t = false)
    (i : Nat) : (n + 1).testBit i = if i < t then false else if i = t then true else n.testBit i := by
  have hmod : n % 2 ^ (t + 1) = 2 ^ t - 1 := Nat.eq_of_testBit_eq fun i => by
    rw [Nat.testBit_mod_two_pow, Nat.testBit_two_pow_sub_one]
    rcases Nat.lt_trichotomy i t with h | rfl | h
    · simp [h, hlow i h, show i < t + 1 by omega]
    · simp [ht]
    · simp [show ¬ i < t + 1 by omega, show ¬ i < t by omega]
  have hpos := Nat.one_le_two_pow (n := t)
  have hpow : 2 ^ (t + 1) = 2 * 2 ^ t := Nat.pow_succ'
  have hn : n = 2 ^ (t + 1) * (n / 2 ^ (t + 1)) + (2 ^ t - 1) := by rw [← hmod, Nat.div_add_mod]
  have hs : n + 1 = 2 ^ (t + 1) * (n / 2 ^ (t + 1)) + 2 ^ t := by omega
  rw [hs, Nat.testBit_mul_pow_two_add _ (by omega)]
  conv_rhs => rw [hn, Nat.testBit_mul_pow_two_add _ (by omega)]
  rcases Nat.lt_trichotomy i t with h | rfl | h
  · simp [h, show i < t + 1 by omega, Nat.testBit_two_pow, show t ≠ i by omega]
  · simp [Nat.testBit_two_pow]
  · simp [show ¬ i < t + 1 by omega, show ¬ i < t by omega, show i ≠ t by omega]

theorem bitsBelow_succ_of_run {n t : Nat} (hlow : ∀ i < t, n.testBit i) (ht : n.testBit t = false) :
    ∀ b, t < b → ∃ hi, bitsBelow n b = hi ++ (List.range t).reverse ∧ bitsBelow (n + 1) b = hi ++ [t] := by
  have hsucc := testBit_succ_of_run hlow ht
  intro b
  induction b with
  | zero => intro h; omega
  | succ b ih =>
      intro hb
      rcases Nat.lt_or_ge t b with h | h
      · obtain ⟨hi, h1, h2⟩ := ih h
        have hbit : (n + 1).testBit b = n.testBit b := by
          rw [hsucc]; simp [show ¬ b < t by omega, show b ≠ t by omega]
        cases hnb : n.testBit b
        · exact ⟨hi, by simp [bitsBelow, hnb, h1], by simp [bitsBelow, hbit, hnb, h2]⟩
        · exact ⟨b :: hi, by simp [bitsBelow, hnb, h1], by simp [bitsBelow, hbit, hnb, h2]⟩
      · obtain rfl : b = t := by omega
        refine ⟨[], ?_, ?_⟩
        · simp [bitsBelow, ht, bitsBelow_of_ones hlow]
        · have hzero : ∀ i < b, (n + 1).testBit i = false := fun i hi => by rw [hsucc]; simp [hi]
          simp [bitsBelow, hsucc, bitsBelow_of_zeros hzero]

/-- A push onto `n` leaves clears the run of low one bits of `n` and sets the bit above it:
the run's peaks merge into one peak, at the height the run's length gives. -/
theorem setBits_succ {n : Nat} (hn : n + 1 < 2 ^ 64) :
    ∃ hi, setBits n = hi ++ (List.range (trailingZeros (complement n))).reverse ∧
      setBits (n + 1) = hi ++ [trailingZeros (complement n)] := by
  obtain ⟨hlt, hlow, ht⟩ := trailingZeros_complement_spec hn
  exact bitsBelow_succ_of_run hlow ht 64 hlt

example : setBits 11 = [3, 1, 0] ∧ trailingZeros (complement 11) = 2 ∧ setBits 12 = [3, 2] := by
  decide

theorem bitsBelow_congr {x y b : Nat} (h : ∀ i < b, x.testBit i = y.testBit i) :
    bitsBelow x b = bitsBelow y b := by
  induction b with
  | zero => rfl
  | succ b ih => simp only [bitsBelow, h b (by omega), ih fun i hi => h i (by omega)]

theorem bitsBelow_append (x : Nat) {c b : Nat} (h : c ≤ b) :
    ∃ hi, bitsBelow x b = hi ++ bitsBelow x c ∧ ∀ a ∈ hi, c ≤ a := by
  induction b, h using Nat.le_induction with
  | base => exact ⟨[], rfl, by simp⟩
  | succ b hcb ih =>
      obtain ⟨hi, h1, h2⟩ := ih
      by_cases hb : x.testBit b
      · exact ⟨b :: hi, by simp [bitsBelow, hb, h1], by simpa [hcb] using h2⟩
      · exact ⟨hi, by simp [bitsBelow, hb, h1], h2⟩

theorem bitsBelow_of_lt {x c b : Nat} (hc : c ≤ b) (hx : x < 2 ^ c) : bitsBelow x b = bitsBelow x c := by
  obtain ⟨hi, h1, h2⟩ := bitsBelow_append x hc
  have : hi = [] := List.eq_nil_iff_forall_not_mem.2 fun a ha => by
    have := (mem_bitsBelow.1 (h1 ▸ List.mem_append_left _ ha : a ∈ bitsBelow x b)).2
    rw [Nat.testBit_lt_two_pow (lt_of_lt_of_le hx (Nat.pow_le_pow_right (by omega) (h2 a ha)))] at this
    exact Bool.false_ne_true this
  rw [h1, this, List.nil_append]

/-- The number of leaves of peaks of the heights `hs`. -/
def weight : List Nat → Nat
  | [] => 0
  | h :: hs => 2 ^ h + weight hs

@[simp] theorem weight_nil : weight [] = 0 := rfl

@[simp] theorem weight_cons (h : Nat) (hs : List Nat) : weight (h :: hs) = 2 ^ h + weight hs := rfl

@[simp] theorem weight_append (hs hs' : List Nat) : weight (hs ++ hs') = weight hs + weight hs' := by
  induction hs with
  | nil => simp
  | cons h hs ih => simp [ih, Nat.add_assoc]

/-- The one bits of `x` below `b` weigh `x % 2 ^ b`. -/
theorem weight_bitsBelow (x b : Nat) : weight (bitsBelow x b) = x % 2 ^ b := by
  induction b with
  | zero => simp [bitsBelow, Nat.mod_one]
  | succ b ih =>
      rw [Nat.mod_pow_succ, ← Nat.toNat_testBit, ← ih]
      cases h : x.testBit b <;> simp [bitsBelow, h, Nat.add_comm]

theorem countOnes_mod {x d : Nat} (hd : d ≤ 64) : countOnes (x % 2 ^ d) = (bitsBelow x d).length := by
  rw [countOnes, ← length_bitsBelow, bitsBelow_of_lt hd (Nat.mod_lt _ (Nat.two_pow_pos d))]
  exact congrArg List.length (bitsBelow_congr fun i hi => by simp [Nat.testBit_mod_two_pow, hi])

theorem zerosDown_of_top {x d : Nat} (hx : x.testBit d) (habove : ∀ i, d < i → x.testBit i = false) :
    ∀ b, d < b → zerosDown x b = b - 1 - d
  | 0, h => absurd h (Nat.not_lt_zero d)
  | b + 1, h => by
      rcases Nat.lt_or_ge d b with hb | hb
      · rw [zerosDown, if_neg (by simp [habove b hb]), zerosDown_of_top hx habove b hb]
        omega
      · obtain rfl : b = d := by omega
        simp [zerosDown, hx]

/-- `leading_zeros` of a `u64` whose top one bit is bit `d`. -/
theorem leadingZeros_of_top {x d : Nat} (hd : d < 64) (hx : x.testBit d) (hlt : x < 2 ^ (d + 1)) :
    leadingZeros x = 63 - d :=
  zerosDown_of_top hx (fun _ hi => Nat.testBit_lt_two_pow
    (lt_of_lt_of_le hlt (Nat.pow_le_pow_right (by omega) hi))) 64 hd

theorem shiftRight_and_one (x s : Nat) : (x >>> s) &&& 1 = (x.testBit s).toNat := by
  rw [Nat.and_one_is_mod, Nat.shiftRight_eq_div_pow, Nat.toNat_testBit]

/-- Below `2 ^ (k + 1)`, bit `k` splits a number into its low part and `2 ^ k`. -/
theorem eq_mod_add_of_lt {o k : Nat} (ho : o < 2 ^ (k + 1)) : o = o % 2 ^ k + 2 ^ k * (o.testBit k).toNat := by
  rw [Nat.toNat_testBit, ← Nat.mod_pow_succ, Nat.mod_eq_of_lt ho]

theorem exists_top {x : Nat} (hx : x ≠ 0) : ∃ d, x.testBit d ∧ x < 2 ^ (d + 1) := by
  refine ⟨x.log2, ?_, Nat.lt_log2_self⟩
  have hle := Nat.log2_self_le hx
  have hlt : x < 2 * 2 ^ x.log2 := by rw [← Nat.pow_succ']; exact Nat.lt_log2_self
  rw [Nat.testBit_to_div_mod, Nat.div_eq_of_lt_le (k := 1) (by omega) (by omega)]
  rfl

end Fendermint.Bits
