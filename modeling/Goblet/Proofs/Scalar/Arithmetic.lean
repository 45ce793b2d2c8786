import Goblet.Proofs.Scalar.Expr

/-!
# Operations on values compute the arithmetic of expressions

On integers and booleans an operation on values gives what the operator gives on scalars, an error where that traps
(`Scalar.binary_agrees`, `Scalar.unary_agrees`), and the type of its result is the one that the operator has.
-/

namespace Goblet

open Int64

/-- The error that stands for a trap. -/
def Trap.error? : Trap → Option ValueError
  | .divisionByZero => some .divisionByZero
  | .negativeShift => some .negativeShift
  | .illTyped => none

/-- The result of an operation on values is the result on scalars. -/
def Agree : Except Trap Scalar → Except ValueError Value → Prop
  | .ok x, r => r = .ok x.value
  | .error e, r => ∃ err, e.error? = some err ∧ r = .error err

namespace Scalar

variable {y x : Int64} {op : Operator} {bop : BinOp}

/-! ## Integers cut to 64 bits -/

theorem ofInt_not (x : Int64) : ofInt (-x.toInt - 1) = ~~~x := by
  rw [ofInt_eq_iff_bmod_eq_toInt, toInt_not]

theorem ofInt_tdiv (x y : Int64) : ofInt (x.toInt.tdiv y.toInt) = x / y := by
  rw [ofInt_eq_iff_bmod_eq_toInt, toInt_div]

theorem ofInt_tmod (x y : Int64) : ofInt (x.toInt.tmod y.toInt) = x % y := by
  rw [← toInt_mod, ofInt_toInt]

theorem toBitVec_ofInt_mul_pow (x : Int64) (k : Nat) :
    (ofInt (x.toInt * 2 ^ k)).toBitVec = x.toBitVec <<< k := by
  have hp : BitVec.ofInt 64 (2 ^ k) = BitVec.twoPow 64 k := by
    rw [show (2 ^ k : Int) = ((2 ^ k : Nat) : Int) by simp, BitVec.ofInt_natCast]
    exact BitVec.eq_of_toNat_eq (by simp [BitVec.toNat_twoPow])
  rw [toBitVec_ofInt, BitVec.ofInt_mul, hp, BitVec.shiftLeft_eq_mul_twoPow]
  congr 1
  exact BitVec.ofInt_toInt

theorem toBitVec_ofInt_div_pow (x : Int64) (k : Nat) :
    (ofInt (x.toInt / 2 ^ k)).toBitVec = x.toBitVec.sshiftRight k := by
  have hs : (x.toBitVec.sshiftRight k).toInt = x.toInt / 2 ^ k := by
    rw [BitVec.toInt_sshiftRight, Int.shiftRight_eq_div_pow]
    simp
  rw [toBitVec_ofInt, ← hs, BitVec.ofInt_toInt]

theorem toNat_smod (h0 : 0 ≤ y.toInt) (h : y.toInt < 64) : (y.toBitVec.smod 64).toNat = y.toInt.toNat := by
  have hm : y.toBitVec.msb = false := BitVec.msb_eq_false_iff_two_mul_lt.mpr
    (by have := BitVec.toInt_eq_toNat_cond y.toBitVec; simp only [toInt] at h0 h; split at this <;> omega)
  have hn : y.toInt = (y.toBitVec.toNat : Int) := BitVec.toInt_eq_toNat_of_msb hm
  rw [BitVec.toNat_smod, hm]
  simp only [show (64 : BitVec 64).msb = false by decide, BitVec.umod_eq, BitVec.toNat_umod]
  rw [show (64 : BitVec 64).toNat = 64 by decide]
  omega

theorem shl_eq (h0 : 0 ≤ y.toInt) : ofInt (x.toInt * 2 ^ y.toInt.toNat) = if 64 ≤ y then 0 else x <<< y := by
  apply toBitVec.inj
  rw [toBitVec_ofInt_mul_pow]
  split
  · next h =>
    have h : 64 ≤ y.toInt := le_iff_toInt_le.mp h
    exact BitVec.shiftLeft_eq_zero (by omega)
  · next h =>
    have h : y.toInt < 64 := by
      rw [le_iff_toInt_le] at h
      exact Int.not_le.mp h
    rw [Int64.toBitVec_shiftLeft, BitVec.shiftLeft_eq', toNat_smod h0 h]

theorem div_pow_of_le {k : Nat} (h : 64 ≤ k) : x.toInt / 2 ^ k = if x < 0 then -1 else 0 := by
  have hk : (2 : Int) ^ 64 ≤ 2 ^ k := by exact_mod_cast Nat.pow_le_pow_right (by decide : 0 < 2) h
  have hl := x.le_toInt
  have hu := x.toInt_lt
  split
  · next hn =>
    rw [lt_iff_toInt_lt] at hn
    exact Int.ediv_eq_neg_one_of_neg_of_le hn (by omega)
  · next hn =>
    rw [lt_iff_toInt_lt, toInt_zero] at hn
    exact Int.ediv_eq_zero_of_lt (by omega) (by omega)

theorem shr_eq (h0 : 0 ≤ y.toInt) : ofInt (x.toInt / 2 ^ y.toInt.toNat) =
    if 64 ≤ y then if x < 0 then -1 else 0 else x >>> y := by
  split
  · next h =>
    have h : 64 ≤ y.toInt := le_iff_toInt_le.mp h
    rw [div_pow_of_le (by omega)]
    split <;> rfl
  · next h =>
    have h : y.toInt < 64 := by
      rw [le_iff_toInt_le] at h
      exact Int.not_le.mp h
    apply toBitVec.inj
    rw [toBitVec_ofInt_div_pow, Int64.toBitVec_shiftRight, BitVec.sshiftRight_eq', toNat_smod h0 h]

theorem toInt_eq_zero_iff : y.toInt = 0 ↔ y = 0 := by rw [← toInt_inj, toInt_zero]

theorem toInt_lt_zero_iff : y.toInt < 0 ↔ y < 0 := by rw [lt_iff_toInt_lt, toInt_zero]

/-! ## Operations -/

theorem unary_agrees {x : Scalar} {t : Ty} (h : Expr.unaryType? op x.ty = some t) {u : UnOp}
    (hu : (op = .sub ∧ u = .neg) ∨ (op = .xor ∧ u = .bitNot) ∨ (op = .not ∧ u = .not)) :
    Agree (x.unary op) (x.value.unary u) := by
  obtain ⟨rfl, rfl⟩ | ⟨rfl, rfl⟩ | ⟨rfl, rfl⟩ := hu
  · cases x with
    | int n => simp [Agree, unary, value, Value.unary, wrap]
    | bool b => cases h
  · cases x with
    | int n => simp only [Agree, unary, value, Value.unary, wrap, ofInt_not]
    | bool b => cases h
  · cases x with
    | int n => cases h
    | bool b => rfl

theorem intOp_agrees (hb : BinOp.ofOperator? op = some bop)
    (hc : bop.isComparison = false) (x y : Int64) : Agree (onInts op x y) ((Value.intOp bop x y).map .int) := by
  cases op <;> cases hb <;> cases hc <;> simp only [onInts, Value.intOp, toInt_eq_zero_iff, toInt_lt_zero_iff]
  case quo =>
    split
    · exact ⟨_, rfl, rfl⟩
    · rw [wrap, ofInt_tdiv]; rfl
  case rem =>
    split
    · exact ⟨_, rfl, rfl⟩
    · rw [wrap, ofInt_tmod]; rfl
  case shl =>
    split
    · exact ⟨_, rfl, rfl⟩
    · next h => rw [wrap, shl_eq (by rw [← toInt_lt_zero_iff] at h; omega)]; rfl
  case shr =>
    split
    · exact ⟨_, rfl, rfl⟩
    · next h => rw [wrap, shr_eq (by rw [← toInt_lt_zero_iff] at h; omega)]; rfl
  all_goals simp [Agree, wrap, value, Except.map]

theorem compare_agrees (hb : BinOp.ofOperator? op = some bop) (hc : bop.isComparison) (x y : Int64) :
    Agree (onInts op x y) ((Value.compare bop (.int x) (.int y)).map .bool) := by
  have heq : x = y ↔ x.toInt = y.toInt := toInt_inj.symm
  cases op <;> cases hb <;> first | (cases hc; done) | skip
  all_goals
    refine congrArg (fun b => Except.ok (Value.bool b)) (Bool.eq_iff_iff.mpr ?_)
    simp [BinOp.ordered, lt_iff_toInt_lt, heq]
  all_goals omega

theorem binary_agrees (hb : BinOp.ofOperator? op = some bop) {x y : Scalar} {t : Ty}
    (h : Expr.binaryType? op x.ty y.ty = some t) : Agree (binary op x y) (x.value.binary bop y.value) := by
  cases x with
  | int n =>
    cases y with
    | bool b => cases h
    | int m =>
      simp only [binary, value, Value.binary]
      split
      · next hc => exact compare_agrees hb hc n m
      · next hc => exact intOp_agrees hb (by simpa using hc) n m
  | bool b =>
    cases y with
    | int n => cases h
    | bool c => cases op <;> cases hb <;> cases h <;> cases b <;> cases c <;> rfl

/-! ## Types of results -/

/-- The operators that are operations on values have on integers and booleans the types of those. -/
theorem binaryResult_of_type (hb : BinOp.ofOperator? op = some bop) {t u v : Ty}
    (h : Expr.binaryType? op t u = some v) : Ty.binaryResult bop t u = .ok v := by
  cases t <;> try cases h
  all_goals cases u <;> try cases h
  all_goals cases op <;> cases hb <;> cases h <;> rfl

end Scalar

end Goblet
