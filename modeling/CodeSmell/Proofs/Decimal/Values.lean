import CodeSmell.Proofs.Decimal.Order
import CodeSmell.Proofs.Lexer.Step

/-!
The value of a number literal is a number: a text is read by rounding a quotient, or by multiplying
with a base and adding digits, and neither of them leads away from the numbers. So it is for the
tokens of a source.
-/

namespace CodeSmell

namespace Decimal

open Float.Model Float.Model.UnpackedFloat

theorem isNaN_unpack {spec : Format} {bits : BitVec spec.numBits}
    (h : unpackExponent bits = -1#_ → unpackMantissa bits = 0#_) :
    (UnpackedFloat.unpack spec bits).isNaN = false := by
  unfold UnpackedFloat.unpack
  dsimp only
  split_ifs with full empty subnormal zero
  · rfl
  · exact absurd (h full) empty
  · rfl
  · rfl
  · rfl

theorem isNaN_pack {a : UnpackedFloat} (h : a.isNaN = false) : (Float.Model.pack a).isNaN = false := by
  apply isNaN_unpack
  show unpackExponent (UnpackedFloat.pack .binary64 a) = _ →
    unpackMantissa (UnpackedFloat.pack .binary64 a) = _
  cases a with
  | notANumber => cases h
  | infinity => simp [UnpackedFloat.pack, packedInfinity]
  | zero => simp [UnpackedFloat.pack, packedZero]
  | finite s m e pos =>
    unfold UnpackedFloat.pack
    dsimp only
    split_ifs with overflow normal
    · simp [packedInfinity]
    · -- an exponent below overflow is not the one that is kept for infinity
      intro full
      rw [unpackExponent_packComponents] at full
      have biased := congrArg BitVec.toNat full
      simp only [Nat.cast_ofNat, BitVec.toNat_ofNat, Nat.reducePow, BitVec.reduceNeg, Nat.mod_succ]
        at biased
      omega
    · simp

theorem isNaN_ofBits {n : Nat} (h : n ≤ infinityBits) :
    (Float.ofBits n.toUInt64).isNaN = false := by
  apply isNaN_pack
  apply isNaN_unpack
  intro full
  have exponent := congrArg BitVec.toNat full
  apply BitVec.eq_of_toNat_eq
  simp [unpackExponent, unpackMantissa, Nat.shiftRight_eq_div_pow] at exponent ⊢
  simp only [infinityBits, Nat.pow_eq, Nat.reducePow, Nat.reduceMul] at h
  omega

section Operations

variable {spec : Format} {a b : UnpackedFloat}

theorem isNaN_roundWithAccuracy {s : Sign} {m : Nat} {e : Int} {accuracy : Accuracy} :
    (roundWithAccuracy spec s m e accuracy).isNaN = false := by
  unfold roundWithAccuracy
  dsimp only
  split_ifs <;> rfl

theorem isNaN_normalize {m e : Int} {s : Sign} :
    (UnpackedFloat.normalize spec m e s).isNaN = false := by
  unfold UnpackedFloat.normalize
  cases compare m 0 with
  | lt => exact isNaN_roundWithAccuracy
  | eq => rfl
  | gt => exact isNaN_roundWithAccuracy

theorem isNaN_unpackedNeg (h : a.isNaN = false) : a.neg.isNaN = false := by
  cases a with
  | notANumber => cases h
  | infinity | zero | finite => rfl

theorem isNaN_unpackedAdd (ha : a.isNaN = false) (hb : b.isFinite = true) :
    (UnpackedFloat.add spec a b).isNaN = false := by
  cases b with
  | infinity | notANumber => cases hb
  | zero t =>
    cases a with
    | notANumber => cases ha
    | infinity | finite => rfl
    | zero s => cases s <;> cases t <;> rfl
  | finite =>
    cases a with
    | notANumber => cases ha
    | infinity | zero => rfl
    | finite => exact isNaN_normalize

theorem isNaN_unpackedMul (ha : a.isNaN = false) (hb : b.isFinite = true)
    (nonzero : b.beq (.zero .positive) = false) : (UnpackedFloat.mul spec a b).isNaN = false := by
  cases b with
  | infinity | notANumber => cases hb
  | zero => cases nonzero
  | finite =>
    cases a with
    | notANumber => cases ha
    | infinity | zero => rfl
    | finite => exact isNaN_roundWithAccuracy

variable {x y : Float}

theorem isNaN_neg (h : x.isNaN = false) : (-x).isNaN = false := isNaN_pack (isNaN_unpackedNeg h)

theorem isNaN_add (hx : x.isNaN = false) (hy : y.isFinite = true) : (x + y).isNaN = false :=
  isNaN_pack (isNaN_unpackedAdd hx hy)

theorem isNaN_mul (hx : x.isNaN = false) (hy : y.isFinite = true) (nonzero : (y == 0) = false) :
    (x * y).isNaN = false :=
  isNaN_pack (isNaN_unpackedMul hx hy nonzero)

theorem isNaN_of_isFinite (h : x.isFinite = true) : x.isNaN = false := by
  change x.toModel.unpack.isFinite = true at h
  show x.toModel.unpack.isNaN = false
  cases unpacked : x.toModel.unpack with
  | notANumber =>
    rw [unpacked] at h
    cases h
  | infinity | zero | finite => rfl

end Operations

theorem isFinite_digit : ∀ n < 16, n.toFloat.isFinite = true := by
  decide +kernel

theorem isNaN_zero : (0 : Float).isNaN = false := by
  apply isNaN_of_isFinite
  exact isFinite_digit 0 (by decide)

theorem isNaN_ofDecimal (digits : Nat) (exponent : Int) :
    (ofDecimal digits exponent).isNaN = false := by
  unfold ofDecimal
  dsimp only
  split_ifs
  · exact isNaN_zero
  · exact isNaN_ofBits le_rfl
  · apply isNaN_ofBits
    unfold nearestBits
    split_ifs
    · exact Nat.zero_le _
    · exact Nat.min_le_right _ _

end Decimal

namespace Number

open Decimal

theorem hexValue?_lt (b : UInt8) : (Ascii.hexValue? b).getD 0 < 16 := by
  have all : ∀ n < 256, (Ascii.hexValue? n.toUInt8).getD 0 < 16 := by decide +kernel
  simpa using all b.toNat b.toNat_lt

theorem isNaN_basedValue {base : Nat} {marker : UInt8} (known : base? marker = some base)
    (digits : Bytes) : (basedValue base digits).isNaN = false := by
  have ⟨finite, nonzero⟩ : base.toFloat.isFinite = true ∧ (base.toFloat == 0) = false := by
    unfold base? at known
    dsimp only at known
    split_ifs at known
    all_goals obtain rfl := Option.some.inj known
    all_goals decide +kernel
  induction digits using List.reverseRecOn with
  | nil => exact isNaN_zero
  | append_singleton digits b ih =>
    rw [basedValue, List.foldl_concat]
    exact isNaN_add (isNaN_mul ih finite nonzero) (isFinite_digit _ (hexValue?_lt b))

theorem isNaN_value (text : Bytes) : (value text).isNaN = false := by
  unfold value
  dsimp only
  split
  · split_ifs
    · split
      · next known => exact isNaN_basedValue known _
      · exact isNaN_ofDecimal _ _
    · exact isNaN_ofDecimal _ _
  · exact isNaN_ofDecimal _ _

end Number

namespace Lexer

theorem layout_value (s : State) (kind : TokenKind) (column : Int) :
    (s.layout kind column).value.isNaN = false := Decimal.isNaN_zero

theorem lexeme_value {s s' : State} {t : Token} (h : lexeme s = .ok (t, s')) :
    t.value.isNaN = false := by
  unfold lexeme at h
  split at h
  · split at h
    · obtain ⟨rfl, -⟩ := Prod.mk.inj (Except.ok.inj h)
      exact Decimal.isNaN_zero
    · cases h
  split_ifs at h
  · obtain ⟨rfl, -⟩ := Prod.mk.inj (Except.ok.inj h)
    exact Decimal.isNaN_zero
  · obtain ⟨rfl, -⟩ := Prod.mk.inj (Except.ok.inj h)
    exact Number.isNaN_value _
  · split at h
    · obtain ⟨_, -, h⟩ := bind_eq_ok.1 h
      obtain ⟨rfl, -⟩ := Prod.mk.inj (Except.ok.inj h)
      exact Decimal.isNaN_zero
    · cases h

section Steps

variable {s s' : State} {new : List Token}

theorem State.LineStep.values (h : s.LineStep new s') : ∀ t ∈ new, t.value.isNaN = false := by
  cases h with
  | gap => simp
  | lineEnd => exact List.forall_mem_singleton.2 (layout_value s _ _)
  | lexeme _ lexed => exact List.forall_mem_singleton.2 (lexeme_value lexed)

theorem State.Indents.values {width : Nat} (h : s.Indents width new s') :
    ∀ t ∈ new, t.value.isNaN = false := by
  intro t mem
  obtain ⟨kind, -, rfl⟩ := h.layout t mem
  exact layout_value s kind 1

theorem State.Steps.values (h : s.Steps new s') : ∀ t ∈ new, t.value.isNaN = false := by
  cases h with
  | within _ line => exact line.values
  | start _ _ start =>
    cases start with
    | blank => simp
    | line _ indents line => exact List.forall_mem_append.2 ⟨indents.values, line.values⟩

end Steps

theorem tokenize_values {source : Bytes} {tokens : List Token} (h : tokenize source = .ok tokens) :
    ∀ t ∈ tokens, t.value.isNaN = false := by
  obtain ⟨read, s, final, scanned, closed, rfl⟩ := tokenize_cases h
  have kept : ∀ t ∈ read, t.value.isNaN = false := by
    refine scan_keeps (I := fun tokens _ => ∀ t ∈ tokens, t.value.isNaN = false) ?_ (by simp) scanned
    intro tokens new s s' before steps
    rw [List.forall_mem_append]
    exact ⟨fun t mem => steps.values t (List.mem_reverse.1 mem), before⟩
  obtain ⟨-, lineEnd, isLineEnd, rfl⟩ := closing_cases closed
  intro t mem
  simp only [List.mem_append, List.mem_reverse, List.mem_map, List.mem_singleton] at mem
  rcases mem with mem | (mem | ⟨_, -, rfl⟩) | rfl
  · exact kept t mem
  · rw [isLineEnd t mem]
    exact layout_value _ _ _
  · exact layout_value _ _ _
  · exact layout_value _ _ _

end Lexer

end CodeSmell
