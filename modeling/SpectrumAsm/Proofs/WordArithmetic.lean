/-
Operators on whole numbers.

Whatever the operands, an operation on words of 64 bits gives the word of the exact result, and words can be shifted by
any number of places. Nothing but a division by zero is a fault.
-/
import Mathlib.Data.Int.ModEq
import Mathlib.Tactic.Positivity
import Mathlib.Tactic.Ring
import SpectrumAsm.Value.Operators

namespace SpectrumAsm.Value

/-- The outcome is this whole number. -/
def Gives (outcome : Except ExprFault Value) (n : Int) : Prop := ∃ i : Int64, outcome = .ok (int i) ∧ i.toInt = n

variable {l r : Value} {a b : Int64} {k : Nat}

/-! ## Shifts -/

theorem bmod_wide (n : Int) (h : 64 ≤ k) : (n * 2 ^ k).bmod (2 ^ 64) = 0 := by
  obtain ⟨k, rfl⟩ := Nat.exists_eq_add_of_le h
  exact Int.bmod_eq_zero_of_dvd ⟨n * 2 ^ k, by rw [pow_add]; push_cast; ring⟩

theorem fdiv_wide (a : Int64) (h : 64 ≤ k) : a.toInt.fdiv (2 ^ k) = if a < 0 then -1 else 0 := by
  have hbound : (2 : Int) ^ 64 ≤ 2 ^ k := by exact_mod_cast Nat.pow_le_pow_right Nat.two_pos h
  have hlow := a.le_toInt
  have hhigh := a.toInt_lt
  rw [Int.fdiv_eq_ediv_of_nonneg _ (by positivity)]
  simp only [Int64.lt_iff_toInt_lt, Int64.toInt_zero]
  split
  · exact (Int.ediv_eq_iff_of_pos (by positivity)).2 (by omega)
  · exact Int.ediv_eq_zero_of_lt (by omega) (by omega)

section
variable (h : b.toInt = k) (hk : k < 64)
include h hk

theorem smod_width : (b.toBitVec.smod 64).toNat = k := by
  have hword : b = Int64.ofNat k := Int64.toInt_inj.1 (h.trans (Int64.toInt_ofNat_of_lt (by omega)).symm)
  have hsmod : ∀ k < 64, ((Int64.ofNat k).toBitVec.smod 64).toNat = k := by decide
  rw [hword, hsmod k hk]

theorem toInt_shl : (a <<< b).toInt = (a.toInt * 2 ^ k).bmod (2 ^ 64) := by
  rw [← Int64.toInt_toBitVec, Int64.toBitVec_shiftLeft, BitVec.shiftLeft_eq', smod_width h hk, BitVec.toInt_shiftLeft,
    Nat.shiftLeft_eq, ← Int64.toInt_toBitVec a, BitVec.toInt_eq_toNat_bmod, Int.bmod_mul_bmod]
  push_cast
  rfl

theorem toInt_shr : (a >>> b).toInt = a.toInt.fdiv (2 ^ k) := by
  rw [← Int64.toInt_toBitVec, Int64.toBitVec_shiftRight, BitVec.sshiftRight_eq', smod_width h hk,
    BitVec.toInt_sshiftRight, Int.shiftRight_eq_div_pow, Int.fdiv_eq_ediv_of_nonneg _ (by positivity),
    Int64.toInt_toBitVec]
  push_cast
  rfl

end

/-! ## Whole operands -/

section
variable (hl : l.integer? = some a) (hr : r.integer? = some b)
include hl hr

theorem binary_whole (op : BinaryOp) : binary op l r =
    if op ∈ [.and, .or, .xor, .shl, .shr] then ((bitwise op a b).map fun i => Except.ok (int i)).getD
      (.error (.binary op.symbol l.typeName r.typeName))
    else integral op a b := by
  cases l <;> cases r <;> simp_all [binary, integer?]

theorem shifts (h : 0 ≤ b.toInt) : Gives (binary .shl l r) ((a.toInt * 2 ^ b.toInt.toNat).bmod (2 ^ 64)) ∧
    Gives (binary .shr l r) (a.toInt.fdiv (2 ^ b.toInt.toNat)) := by
  obtain ⟨k, hk⟩ := Int.eq_ofNat_of_zero_le h
  rw [hk, Int.toNat_natCast]
  by_cases hwide : 64 ≤ k
  · rw [bmod_wide _ hwide, fdiv_wide _ hwide]
    simp [Gives, binary_whole hl hr, bitwise, hk, show ¬ k < 64 by omega]
    split <;> rfl
  · have hk' : k < 64 := by omega
    refine ⟨⟨a <<< b, ?_, toInt_shl hk hk'⟩, a >>> b, ?_, toInt_shr hk hk'⟩ <;>
      simp [binary_whole hl hr, bitwise, hk, hk']

theorem division (hb : b ≠ 0) : ∃ q m : Int64, binary .div l r = .ok (int q) ∧ binary .mod l r = .ok (int m) ∧
    q.toInt = (a.toInt.tdiv b.toInt).bmod (2 ^ 64) ∧ m.toInt = a.toInt.tmod b.toInt ∧
    q.toInt * b.toInt + m.toInt ≡ a.toInt [ZMOD 2 ^ 64] := by
  refine ⟨a / b, a % b, ?_, ?_, Int64.toInt_div a b, Int64.toInt_mod a b, ?_⟩
  · simp [binary_whole hl hr, integral, hb]
  · simp [binary_whole hl hr, integral, hb]
  · rw [Int64.toInt_div, Int64.toInt_mod]
    nth_rewrite 3 [← Int.tdiv_mul_add_tmod a.toInt b.toInt]
    have hq : (a.toInt.tdiv b.toInt).bmod (2 ^ 64) ≡ a.toInt.tdiv b.toInt [ZMOD 2 ^ 64] := Int.bmod_emod
    exact (hq.mul_right _).add_right _

end

/-- Results are those of the integers, brought back to 64 bits. Only a division by zero fails: the lowest number can be
divided by minus one, and all places can be shifted out. -/
theorem whole_operators (hl : l.integer? = some a) (hr : r.integer? = some b) :
    Gives (binary .add l r) ((a.toInt + b.toInt).bmod (2 ^ 64)) ∧
      Gives (binary .sub l r) ((a.toInt - b.toInt).bmod (2 ^ 64)) ∧
      Gives (binary .mul l r) ((a.toInt * b.toInt).bmod (2 ^ 64)) ∧
      Gives (unary .neg l) ((-a.toInt).bmod (2 ^ 64)) ∧
      (∀ op ∈ [BinaryOp.div, .mod], binary op l r = .error .divideByZero ↔ b = 0) ∧
      (b ≠ 0 → ∃ q m : Int64, binary .div l r = .ok (int q) ∧ binary .mod l r = .ok (int m) ∧
        q.toInt = (a.toInt.tdiv b.toInt).bmod (2 ^ 64) ∧ m.toInt = a.toInt.tmod b.toInt ∧
        q.toInt * b.toInt + m.toInt ≡ a.toInt [ZMOD 2 ^ 64]) ∧
      (0 ≤ b.toInt → Gives (binary .shl l r) ((a.toInt * 2 ^ b.toInt.toNat).bmod (2 ^ 64)) ∧
        Gives (binary .shr l r) (a.toInt.fdiv (2 ^ b.toInt.toNat))) ∧
      binary .eq l r = .ok (bool (a.toInt = b.toInt)) ∧ binary .ne l r = .ok (bool (a.toInt ≠ b.toInt)) ∧
      binary .lt l r = .ok (bool (a.toInt < b.toInt)) ∧ binary .le l r = .ok (bool (a.toInt ≤ b.toInt)) ∧
      binary .gt l r = .ok (bool (b.toInt < a.toInt)) ∧ binary .ge l r = .ok (bool (b.toInt ≤ a.toInt)) := by
  have hneg : unary .neg l = .ok (int (-a)) := by cases l <;> simp_all [unary, integer?]
  refine ⟨⟨a + b, ?_, a.toInt_add b⟩, ⟨a - b, ?_, a.toInt_sub b⟩, ⟨a * b, ?_, a.toInt_mul b⟩,
    ⟨-a, hneg, a.toInt_neg⟩, ?_, division hl hr, shifts hl hr, ?_⟩
  any_goals simp [binary_whole hl hr, integral]
  rcases lt_trichotomy a.toInt b.toInt with h | h | h
  · simp [compares, compare, compareOfLessAndEq, h, h.ne, h.le, h.not_gt]
  · simp [compares, compare, compareOfLessAndEq, h]
  · simp [compares, compare, compareOfLessAndEq, h, h.ne', h.le, h.not_gt]

/-- One less than the lowest number, the one given as a truth value. -/
theorem whole_operators_lowest : (int Int64.minValue).integer? = some Int64.minValue ∧
    (bool true).integer? = some 1 ∧
    Gives (binary .sub (int Int64.minValue) (bool true)) ((Int64.minValue.toInt - Int64.toInt 1).bmod (2 ^ 64)) :=
  ⟨rfl, rfl, (whole_operators (l := int Int64.minValue) (r := bool true) rfl rfl).2.1⟩

end SpectrumAsm.Value
