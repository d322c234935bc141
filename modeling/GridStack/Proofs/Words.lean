import GridStack.Proofs.Lowered
import GridStack.Proofs.Reference

/-!
# Words in registers

A word of sixteen bits is held in a register of 64 bits with a sign, as the number from 0 to 65535 that it
is (`Reference.content`). What the code of an operator does to such numbers is the operator on words
(`unary_lowered`, `binary_lowered`): a sum or a product is cut to its low sixteen bits, which know nothing
of the bits above them, and a comparison sees no sign, as there is none.
-/

namespace GridStack

namespace Reference

/-- The bits of a content. -/
theorem toBitVec_content (x : Word) : (content x).toBitVec = x.setWidth 64 := by
  unfold content
  rw [Int64.toBitVec_ofNat', BitVec.ofNat_toNat]

/-- The number of a content. -/
theorem toInt_content (x : Word) : (content x).toInt = x.toNat := by
  have lt := x.isLt
  exact Int64.toInt_ofNat_of_lt (by omega)

/-- A content is known by its bits. -/
theorem eq_content {v : Int64} {x : Word} (h : v.toBitVec = x.setWidth 64) : v = content x :=
  Int64.toBitVec_inj.1 (h.trans (toBitVec_content x).symm)

/-- Different words are different contents. -/
theorem content_inj {x y : Word} : content x = content y ↔ x = y := by
  constructor
  · intro h
    have same := congrArg Int64.toInt h
    rw [toInt_content, toInt_content] at same
    exact BitVec.eq_of_toNat_eq (by omega)
  · intro h
    rw [h]

/-- The word zero is zero. -/
theorem content_zero {x : Word} : content x = 0 ↔ x = 0 :=
  content_inj (y := 0)

/-- Contents are ordered as words. -/
theorem content_lt {x y : Word} : content x < content y ↔ x < y := by
  rw [Int64.lt_iff_toInt_lt, toInt_content, toInt_content, BitVec.lt_def]
  omega

/-- What is cut to a word is the content of the low bits. -/
theorem wrap_eq (v : Int64) : wrap v = content (v.toBitVec.setWidth 16) := by
  refine eq_content ?_
  unfold wrap
  rw [Int64.toBitVec_and]
  refine BitVec.eq_of_toNat_eq ?_
  -- The mask keeps the remainder by its successor, which is what is left of the low bits.
  have mask : (65535 : Int64).toBitVec.toNat = 2 ^ 16 - 1 := rfl
  rw [BitVec.toNat_and, mask, Nat.and_two_pow_sub_one_eq_mod, BitVec.toNat_setWidth, BitVec.toNat_setWidth]
  omega

/-- A condition is the same word either way. -/
theorem truth_eq (condition : Bool) : GridStack.truth condition = content (truth condition) := by
  cases condition <;> rfl

/-- The low bits of a content are its word. -/
theorem low_content (x : Word) : (content x).toBitVec.setWidth 16 = x := by
  rw [toBitVec_content, BitVec.setWidth_setWidth_of_le _ (by decide), BitVec.setWidth_eq]

/-- The sum of two contents, cut to a word. -/
theorem wrap_add (x y : Word) : wrap (content x + content y) = content (x + y) := by
  rw [wrap_eq, Int64.toBitVec_add, BitVec.setWidth_add _ _ (by decide), low_content, low_content]

/-- The product of two contents, cut to a word. -/
theorem wrap_mul (x y : Word) : wrap (content x * content y) = content (x * y) := by
  rw [wrap_eq, Int64.toBitVec_mul, BitVec.setWidth_mul _ _ (by decide), low_content, low_content]

/-- The largest word stands for -1. -/
theorem wrap_neg (x : Word) : wrap (content x * 65535) = content (-x) := by
  have minus_one : x * 65535 = -x := by
    show x * -1#16 = -x
    rw [BitVec.mul_neg, BitVec.mul_one]
  rw [← minus_one, ← wrap_mul]
  rfl

/-- What an operator in front of one operand does to a content. -/
theorem unary_lowered (op : UnaryOp) (x : Word) : op.lowered (content x) = content (unary op x) := by
  cases op with
  | neg => exact wrap_neg x
  | not =>
    rw [UnaryOp.lowered, unary, ← truth_eq]
    exact congrArg _ (decide_eq_decide.2 (content_inj (y := 0)))
  | complement =>
    rw [UnaryOp.lowered, unary, wrap_eq, Int64.toBitVec_not, BitVec.setWidth_not (by decide), low_content]

/-- Places of a shift that are less than 64 are not reduced. -/
theorem places (y : Word) (h : y.toNat < 64) :
    ((content y).toBitVec.smod 64).toNat = y.toNat := by
  have same : (content y).toBitVec.smod 64 = (content y).toBitVec := by
    refine BitVec.eq_of_toInt_eq ?_
    have bits : (content y).toBitVec.toInt = y.toNat := toInt_content y
    have modulus : (64 : BitVec 64).toInt = 64 := rfl
    rw [BitVec.toInt_smod, bits, modulus, Int.fmod_eq_emod_of_nonneg _ (by decide)]
    omega
  rw [same, toBitVec_content, BitVec.toNat_setWidth]
  omega

/-- A left shift of contents. -/
theorem shiftLeft_content (x y : Word) : shiftLeft (content x) (content y) = content (x <<< y) := by
  unfold shiftLeft
  have bound : content y < 16 ↔ y.toNat < 16 := by
    rw [Int64.lt_iff_toInt_lt, toInt_content]
    show (y.toNat : Int) < 16 ↔ _
    omega
  split
  · next h =>
    -- The bits that go out at the top are those that the mask cuts off.
    have few := bound.1 h
    rw [wrap_eq, Int64.toBitVec_shiftLeft]
    congr 1
    refine BitVec.eq_of_toNat_eq ?_
    rw [BitVec.shiftLeft_eq', BitVec.shiftLeft_eq', places y (by omega), toBitVec_content,
      BitVec.toNat_setWidth, BitVec.toNat_shiftLeft, BitVec.toNat_shiftLeft,
      BitVec.toNat_setWidth_of_le (by decide)]
    exact Nat.mod_mod_of_dvd _ (by decide)
  · next h =>
    have nothing : x <<< y = 0 := by
      rw [BitVec.shiftLeft_eq']
      exact BitVec.shiftLeft_eq_zero (Nat.le_of_not_lt (mt bound.2 h))
    rw [nothing]
    rfl

/-- A right shift of contents. -/
theorem shiftRight_content (x y : Word) : shiftRight (content x) (content y) = content (x >>> y) := by
  unfold shiftRight
  have bound : content y < 64 ↔ y.toNat < 64 := by
    rw [Int64.lt_iff_toInt_lt, toInt_content]
    show (y.toNat : Int) < 64 ↔ _
    omega
  split
  · next h =>
    -- A shift that keeps the sign is one of bits, as a content has no sign.
    refine eq_content ?_
    have positive : (x.setWidth 64).msb = false := by
      rw [BitVec.msb_setWidth, BitVec.getLsbD_of_ge x 63 (by decide), Bool.and_false]
    rw [Int64.toBitVec_shiftRight]
    show BitVec.sshiftRight _ (BitVec.toNat _) = _
    rw [places y (bound.1 h), toBitVec_content, BitVec.sshiftRight_eq_of_msb_false positive]
    refine BitVec.eq_of_toNat_eq ?_
    rw [BitVec.ushiftRight_eq', BitVec.toNat_ushiftRight, BitVec.toNat_setWidth_of_le (by decide),
      BitVec.toNat_setWidth_of_le (by decide), BitVec.toNat_ushiftRight]
  · next h =>
    have nothing : x >>> y = 0 := by
      rw [BitVec.ushiftRight_eq']
      have many := mt bound.2 h
      exact BitVec.ushiftRight_eq_zero (by omega)
    rw [nothing]
    rfl

/-- The bits that two contents have in common. -/
theorem content_and (x y : Word) : content x &&& content y = content (x &&& y) := by
  refine eq_content ?_
  rw [Int64.toBitVec_and, toBitVec_content, toBitVec_content, BitVec.setWidth_and]

/-- The bits that one of two contents has. -/
theorem content_or (x y : Word) : content x ||| content y = content (x ||| y) := by
  refine eq_content ?_
  rw [Int64.toBitVec_or, toBitVec_content, toBitVec_content, BitVec.setWidth_or]

/-- The bits in which two contents differ. -/
theorem content_xor (x y : Word) : content x ^^^ content y = content (x ^^^ y) := by
  refine eq_content ?_
  rw [Int64.toBitVec_xor, toBitVec_content, toBitVec_content, BitVec.setWidth_xor]

/-- The meaning of an operator and what its code does to contents. -/
theorem binary_lowered {op : BinaryOp} {g : Word → Word → Word} (h : binary? op = some g) :
    ∃ f, op.lowered? = some f ∧ ∀ x y, f (content x) (content y) = content (g x y) := by
  have negated : ∀ (p : Prop) [Decidable p], GridStack.truth (GridStack.truth (decide p) = 0)
      = content (truth (decide ¬ p)) := by
    intro p _
    by_cases hp : p
    · simp only [hp]
      rfl
    · simp only [hp]
      rfl
  have one : ∀ y : Word, wrap (content y + 1) = content (y + 1) := fun y => wrap_add y 1
  have equal : ∀ x y : Word, decide (content x = content y) = decide (x = y) := fun x y =>
    decide_eq_decide.2 content_inj
  have less : ∀ x y : Word, decide (content x < content y) = decide (x < y) := fun x y =>
    decide_eq_decide.2 content_lt
  -- Both sides say the comparisons by `=` and `<`: `x <= y` is `x < y + 1`, whose sum is cut to a word.
  cases op <;> cases h <;> refine ⟨_, rfl, fun x y => ?_⟩
  case add => exact wrap_add x y
  case sub =>
    rw [wrap_neg, wrap_add, ← BitVec.sub_eq_add_neg]
  case mul => exact wrap_mul x y
  case bitAnd => exact content_and x y
  case bitOr => exact content_or x y
  case bitXor => exact content_xor x y
  case shl => exact shiftLeft_content x y
  case shr => exact shiftRight_content x y
  case eq => rw [truth_eq, equal]
  case lt => rw [truth_eq, less]
  case ne => exact (congrArg _ (by rw [equal])).trans (negated (x = y))
  case le => rw [one, truth_eq, less]
  case gt => exact (congrArg _ (by rw [one, less])).trans (negated (x < y + 1))
  case ge => exact (congrArg _ (by rw [less])).trans (negated (x < y))

/-- The remainder of a number as a content. -/
theorem content_ofInt (n : Int64) : content (BitVec.ofInt 16 n.toInt) = wrap n := by
  rw [wrap_eq]
  congr 1
  refine BitVec.eq_of_toNat_eq ?_
  have cases := BitVec.toInt_eq_toNat_cond n.toBitVec
  rw [BitVec.toNat_ofInt, BitVec.toNat_setWidth, show n.toInt = n.toBitVec.toInt from rfl]
  split at cases <;> omega

/-- What is cut to a word is the remainder. -/
theorem toInt_wrap (v : Int64) : (wrap v).toInt = v.toInt % 65536 := by
  rw [← content_ofInt, toInt_content, BitVec.toNat_ofInt]
  omega

/-- A remainder with a sign is the same modulo a divisor. -/
theorem bmod_emod_word (n : Int) {m : Nat} (divides : (65536 : Int) ∣ m) : n.bmod m % 65536 = n % 65536 := by
  rw [← Int.emod_emod_of_dvd _ divides, Int.bmod_emod, Int.emod_emod_of_dvd _ divides]

/-- A sum with an operand, cut to a word. -/
theorem toInt_wrap_add (x : Int64) (n : Int) :
    (wrap (x + (Int32.ofInt n).toInt64)).toInt = (x.toInt + n) % 65536 := by
  have operand : (Int32.ofInt n).toInt % 65536 = n % 65536 := by
    rw [Int32.toInt_ofInt, bmod_emod_word n (by decide)]
  calc (wrap (x + (Int32.ofInt n).toInt64)).toInt
    _ = (x + (Int32.ofInt n).toInt64).toInt % 65536 := toInt_wrap _
    _ = (x.toInt + (Int32.ofInt n).toInt) % 65536 := by
      rw [Int64.toInt_add, Int32.toInt_toInt64, bmod_emod_word _ (by decide)]
    _ = (x.toInt + n) % 65536 := by omega

/-- The word of a literal is its remainder. -/
theorem literal_eq {n : Int64} {word : Int32} (h : literalWord? n = some word) :
    word.toInt64 = content (BitVec.ofInt 16 n.toInt) := by
  unfold literalWord? at h
  split at h
  · contradiction
  · next range =>
    cases h
    rw [Int64.lt_iff_toInt_lt, Int64.lt_iff_toInt_lt] at range
    have low : (-maxWord.toInt64).toInt = -65535 := rfl
    have high : maxWord.toInt64.toInt = 65535 := rfl
    -- In this range nothing is lost by the passage through 32 bits.
    have same : n.toInt32.toInt64 = n := by
      refine Int64.toInt_inj.1 ?_
      rw [Int32.toInt_toInt64, Int64.toInt_toInt32]
      exact Int.bmod_eq_of_le (by omega) (by omega)
    rw [content_ofInt, wrap, Int32.toInt64_and, same]
    rfl

end Reference
end GridStack
