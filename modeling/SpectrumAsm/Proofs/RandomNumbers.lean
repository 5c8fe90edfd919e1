/-
The generator of random numbers.

A step of the generator is linear over the two-element field, and its characteristic polynomial has an odd number of
terms and a constant one: so zero is the only state that a step leaves alone or that leads to zero.
-/
import Mathlib.Data.Nat.Bitwise
import SpectrumAsm.Function

namespace SpectrumAsm

namespace Random

/-! ## Polynomials of a step -/

/-- The steps from a state that coefficients select, added up without carries. -/
def combined : List Bool → UInt64 → UInt64
  | [], _ => 0
  | c :: cs, x => (if c then x else 0) ^^^ combined cs (step x)

/-- The coefficients of the characteristic polynomial of a step. -/
def annihilator : List Bool := (List.range 65).map (Nat.testBit 0x1013ED4A358913201)

variable {x y : UInt64} {g : Random}

theorem step_xor (x y : UInt64) : step (x ^^^ y) = step x ^^^ step y := by
  have hleft (k x y : UInt64) : (x ^^^ y) ^^^ ((x ^^^ y) <<< k) = (x ^^^ (x <<< k)) ^^^ (y ^^^ (y <<< k)) := by
    rw [UInt64.shiftLeft_xor]
    ac_rfl
  have hright (k x y : UInt64) : (x ^^^ y) ^^^ ((x ^^^ y) >>> k) = (x ^^^ (x >>> k)) ^^^ (y ^^^ (y >>> k)) := by
    rw [UInt64.shiftRight_xor]
    ac_rfl
  unfold step
  dsimp only
  rw [hleft 13, hright 7, hleft 17]

theorem combined_xor (cs : List Bool) (x y : UInt64) : combined cs (x ^^^ y) = combined cs x ^^^ combined cs y := by
  induction cs generalizing x y with
  | nil => exact UInt64.xor_self.symm
  | cons c cs ih =>
    simp only [combined, step_xor, ih]
    cases c
    · simp
    · simp only [if_true]
      ac_rfl

theorem xor_induction {P : UInt64 → Prop} (zero : P 0) (bit : ∀ k < 64, P (.ofBitVec (.twoPow 64 k)))
    (xor : ∀ x y, P x → P y → P (x ^^^ y)) (x : UInt64) : P x := by
  -- by the number of the lowest bits that may be set
  have hbits (k : Nat) (hk : k ≤ 64) (x : BitVec 64) (hx : ∀ i, k ≤ i → x.getLsbD i = false) :
      P (.ofBitVec x) := by
    induction k generalizing x with
    | zero =>
      obtain rfl : x = 0 := BitVec.eq_of_getLsbD_eq fun i _ => by simpa using hx i (Nat.zero_le i)
      exact zero
    | succ k ih =>
      cases hbit : x.getLsbD k with
      | false =>
        refine ih (by omega) x fun i hi => ?_
        rcases Nat.eq_or_lt_of_le hi with rfl | hi
        · exact hbit
        · exact hx i hi
      | true =>
        have hlow : P (.ofBitVec (x ^^^ .twoPow 64 k)) := by
          refine ih (by omega) _ fun i hi => ?_
          rcases Nat.eq_or_lt_of_le hi with rfl | hi
          · simp [hbit]
            omega
          · simp [hx i hi]
            omega
        have := xor _ _ hlow (bit k (by omega))
        rwa [← UInt64.ofBitVec_xor, BitVec.xor_assoc, BitVec.xor_self, BitVec.xor_zero] at this
  exact hbits 64 (Nat.le_refl 64) x.toBitVec fun i hi => BitVec.getLsbD_of_ge _ _ hi

theorem combined_annihilator (x : UInt64) : combined annihilator x = 0 := by
  induction x using xor_induction with
  | zero => decide +kernel
  | bit k hk => revert k; decide +kernel
  | xor x y hx hy => rw [combined_xor, hx, hy, UInt64.xor_self]

theorem combined_zero (cs : List Bool) : combined cs 0 = 0 := by
  induction cs with
  | nil => rfl
  | cons c cs ih =>
    show (if c then 0 else 0) ^^^ combined cs 0 = 0
    rw [ih, ite_self, UInt64.xor_self]

theorem combined_fixed (h : step x = x) (cs : List Bool) :
    combined cs x = if (cs.count true) % 2 = 1 then x else 0 := by
  induction cs with
  | nil => rfl
  | cons c cs ih =>
    rw [combined, h, ih]
    cases c with
    | false => simp
    | true =>
      rw [List.count_cons_self]
      rcases Nat.mod_two_eq_zero_or_one (cs.count true) with h | h <;> simp [h, Nat.add_mod]

/-- Zero is the only state that leads to zero, and the only one that is left alone. -/
theorem step_ne (h : x ≠ 0) : step x ≠ 0 ∧ step x ≠ x := by
  have hzero := combined_annihilator x
  refine ⟨fun hx => h ?_, fun hx => h ?_⟩
  · have hhead : annihilator = true :: annihilator.tail := by decide +kernel
    rw [hhead, combined, hx, combined_zero] at hzero
    simpa using hzero
  · have hodd : annihilator.count true % 2 = 1 := by decide +kernel
    rwa [combined_fixed hx, if_pos hodd] at hzero

/-! ## Draws -/

/-- The generators that draws of any kind lead to. -/
inductive Reached (seed : UInt64) : Random → Prop where
  | seed : Reached seed (ofSeed seed)
  | next64 {g : Random} (h : Reached seed g) : Reached seed g.next64.2
  | next32 {g : Random} (h : Reached seed g) : Reached seed g.next32.2
  | range {g : Random} (h : Reached seed g) (lo hi : Int64) : Reached seed (g.range lo hi).2

theorem Reached.state_ne_zero {seed : UInt64} (h : Reached seed g) : g.state ≠ 0 := by
  induction h with
  | seed =>
    intro hzero
    have := congrArg (fun x => x.toBitVec.getLsbD 0) hzero
    simp [ofSeed] at this
  | next64 _ ih | next32 _ ih | range _ _ _ ih => exact (step_ne ih).1

theorem range_exact {lo hi : Int64} (h : lo ≤ hi) (g : Random) :
    (g.range lo hi).1.toInt = lo.toInt + g.next64.1.toNat % (hi.toInt - lo.toInt + 1) := by
  have hle := Int64.le_iff_toInt_le.1 h
  have hlo := lo.le_toInt
  have hhi := hi.toInt_lt
  obtain ⟨n, hn⟩ := Int.eq_ofNat_of_zero_le (show 0 ≤ hi.toInt - lo.toInt + 1 by omega)
  have hmod : g.next64.1.toNat % n < n := Nat.mod_lt _ (by omega)
  have hspan : (hi.toInt - lo.toInt + 1) % (1 <<< 128 : Nat) = n := by
    rw [Int.natCast_one, hn]
    exact Int.emod_eq_of_lt (by omega) (by omega)
  unfold range
  dsimp only
  rw [hspan, hn, Int.toNat_natCast, Int64.toInt_ofInt_of_le]
  · rfl
  · omega
  · omega

end Random

theorem call_rnd {v w : Value} {lo hi : Int64} (hv : v.integer? = some lo) (hw : w.integer? = some hi) (g : Random) :
    (Function.call "rnd" [v, w]).run.run g = if hi < lo then (.error (.domain "rnd"), g)
      else (.ok (.int (g.range lo hi).1), (g.range lo hi).2) := by
  have hint : v.isIntegral = true ∧ w.isIntegral = true := by
    cases v <;> cases w <;> simp_all [Value.isIntegral, Value.integer?]
  have hlo : Function.intArg [v, w] 0 = lo := by simp [Function.intArg, hv]
  have hhi : Function.intArg [v, w] 1 = hi := by simp [Function.intArg, hw]
  have hnamed : Function.all.filter (·.name == "rnd") = Function.mathematics.drop 35 := rfl
  unfold Function.call
  dsimp only
  simp only [hnamed, Int64.lt_iff_toInt_lt]
  by_cases h : hi.toInt < lo.toInt <;>
    simp [Function.mathematics, Function.Signature.fits, Function.Param.accepts, hint, hlo, hhi, h] <;> rfl

/-- After any draws the generator still moves. It draws a number from any range, up to that of all numbers, and a call
fails only if the range is empty. -/
theorem random_draws {seed : UInt64} {g : Random} (h : Random.Reached seed g) :
    g.state ≠ 0 ∧ g.next64.2 ≠ g ∧
      (∀ lo hi : Int64, lo ≤ hi → 0 < hi.toInt - lo.toInt + 1 ∧ hi.toInt - lo.toInt + 1 ≤ 2 ^ 64 ∧
        (g.range lo hi).1.toInt = lo.toInt + g.next64.1.toNat % (hi.toInt - lo.toInt + 1) ∧
        lo ≤ (g.range lo hi).1 ∧ (g.range lo hi).1 ≤ hi) ∧
      ∀ (v w : Value) (lo hi : Int64), v.integer? = some lo → w.integer? = some hi →
        ((Function.call "rnd" [v, w]).run.run g).1 =
          if hi < lo then .error (.domain "rnd") else .ok (.int (g.range lo hi).1) := by
  have hstate := h.state_ne_zero
  refine ⟨hstate, fun hstuck => (Random.step_ne hstate).2 (congrArg Random.state hstuck), fun lo hi hle => ?_, ?_⟩
  · have hexact := Random.range_exact hle g
    have hle := Int64.le_iff_toInt_le.1 hle
    have hlo := lo.le_toInt
    have hhi := hi.toInt_lt
    have hmod := Int.emod_nonneg g.next64.1.toNat (show hi.toInt - lo.toInt + 1 ≠ 0 by omega)
    have hmod' := Int.emod_lt_of_pos g.next64.1.toNat (show 0 < hi.toInt - lo.toInt + 1 by omega)
    rw [Int64.le_iff_toInt_le, Int64.le_iff_toInt_le]
    omega
  · intro v w lo hi hv hw
    rw [call_rnd hv hw]
    split <;> rfl

/-- A number drawn from all numbers, after another one. -/
theorem random_draws_all :
    let g := (Random.ofSeed 0).next64.2
    let n := (g.range Int64.minValue Int64.maxValue).1
    Random.Reached 0 g ∧ g.state ≠ 0 ∧ n.toInt = Int64.minValue.toInt + g.next64.1.toNat % (1 <<< 64 : Nat) ∧
      Int64.minValue ≤ n ∧ n ≤ Int64.maxValue :=
  have h : Random.Reached 0 (Random.ofSeed 0).next64.2 := .next64 .seed
  ⟨h, (random_draws h).1, ((random_draws h).2.2.1 Int64.minValue Int64.maxValue (by decide)).2.2⟩

end SpectrumAsm
