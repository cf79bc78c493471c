import NanoSwift.Lib.Edwards
import NanoSwift.Monocypher.FieldPower

/-!
# Points of the curve

Keys and signatures are points of the curve `-x² + y² = 1 + d x² y²` over the numbers modulo
`2 ^ 255 - 19` (`curve`). Monocypher holds them in extended coordinates, each as ten limbs
(`ge.IsPoint`), and those it adds often in a form of their own (`ge_cached`, `ge_precomp`).
The operations are those of the group of the points, however large the limbs of carried
coordinates are.
-/

namespace MonocypherC

open NanoSwift (Bytes)
open Edwards

/-! ## Definitions -/

/-- A point, with `x = X / Z`, `y = Y / Z` and `T = X Y / Z`. -/
structure ge where
  X : fe
  Y : fe
  Z : fe
  T : fe

/-- A point to be added: `Y + X`, `Y - X`, `Z`, and `2 d T`. -/
structure ge_cached where
  Yp : fe
  Ym : fe
  Z : fe
  T2 : fe

/-- A point to be added whose `Z` is one. -/
structure ge_precomp where
  Yp : fe
  Ym : fe
  T2 : fe

def ge_zero : ge := ⟨fe_0, fe_1, fe_1, fe_0⟩

def ge_tobytes (h : ge) : Bytes :=
  let recip := fe_invert h.Z
  let x := fe_mul h.X recip
  let y := fe_mul h.Y recip
  (fe_tobytes y).modify 31 fun b => b ^^^ UInt8.ofInt (fe_isodd x * 2 ^ 7)

/-- The point with the ordinate and the sign that `s` gives, if there is one. -/
def ge_frombytes_vartime (s : Bytes) : Option ge :=
  let Y := fe_frombytes s
  let Z := fe_1
  let T := fe_sq Y
  let X := fe_mul T d
  let T := fe_sub T Z
  let X := fe_add X Z
  let X := fe_mul T X
  let isr := invsqrt X
  if isr.2 = 0 then none
  else
    let X := fe_mul T isr.1
    let X := if fe_isodd X ≠ ((s.getD 31 0 >>> 7).toNat : ℤ) then fe_neg X else X
    some ⟨X, Y, Z, fe_mul X Y⟩

def ge_cache (p : ge) : ge_cached := ⟨fe_add p.Y p.X, fe_sub p.Y p.X, p.Z, fe_mul p.T D2⟩

def ge_add (p : ge) (q : ge_cached) : ge :=
  let a := fe_add p.Y p.X
  let b := fe_sub p.Y p.X
  let a := fe_mul a q.Yp
  let b := fe_mul b q.Ym
  let Y := fe_add a b
  let X := fe_sub a b
  let Z := fe_add p.Z p.Z
  let Z := fe_mul Z q.Z
  let T := fe_mul p.T q.T2
  let a := fe_add Z T
  let b := fe_sub Z T
  ⟨fe_mul X b, fe_mul Y a, fe_mul a b, fe_mul X Y⟩

def ge_sub (p : ge) (q : ge_cached) : ge := ge_add p ⟨q.Ym, q.Yp, q.Z, fe_neg q.T2⟩

def ge_madd (p : ge) (q : ge_precomp) : ge :=
  let a := fe_add p.Y p.X
  let b := fe_sub p.Y p.X
  let a := fe_mul a q.Yp
  let b := fe_mul b q.Ym
  let Y := fe_add a b
  let X := fe_sub a b
  let Z := fe_add p.Z p.Z
  let T := fe_mul p.T q.T2
  let a := fe_add Z T
  let b := fe_sub Z T
  ⟨fe_mul X b, fe_mul Y a, fe_mul a b, fe_mul X Y⟩

def ge_msub (p : ge) (q : ge_precomp) : ge :=
  let a := fe_add p.Y p.X
  let b := fe_sub p.Y p.X
  let a := fe_mul a q.Ym
  let b := fe_mul b q.Yp
  let Y := fe_add a b
  let X := fe_sub a b
  let Z := fe_add p.Z p.Z
  let T := fe_mul p.T q.T2
  let a := fe_sub Z T
  let b := fe_add Z T
  ⟨fe_mul X b, fe_mul Y a, fe_mul a b, fe_mul X Y⟩

def ge_double (p : ge) : ge :=
  let qX := fe_sq p.X
  let qY := fe_sq p.Y
  let qZ := fe_sq2 p.Z
  let qT := fe_add p.X p.Y
  let sT := fe_sq qT
  let qT := fe_add qY qX
  let qY := fe_sub qY qX
  let qX := fe_sub sT qT
  let qZ := fe_sub qZ qY
  ⟨fe_mul qX qZ, fe_mul qT qY, fe_mul qY qZ, fe_mul qX qT⟩

/-! ## The curve -/

theorem eval_D2 : eval D2 = 2 * eval d := by
  decide +kernel

theorem holds_d : Holds d 1 (eval d) := ⟨by decide, rfl⟩

theorem holds_D2 : Holds D2 1 (2 * eval d) := ⟨by decide, eval_D2⟩

theorem isSquare_neg_one : IsSquare (-1 : F25519) := ⟨rootM1, by rw [← rootM1_sq, sq]⟩

/-- By Euler's criterion. -/
theorem not_isSquare_d : ¬IsSquare (eval d) := by
  have hd : eval d = ((eval d).val : F25519) := (ZMod.natCast_rightInverse _).symm
  have hne : eval d ≠ 0 := by decide +kernel
  have hpow : (eval d).val ^ (p25519 / 2) % p25519 = p25519 - 1 := by
    rw [← Pocklington.powMod_eq (k := 256) _ _ (by decide +kernel)]
    decide +kernel
  rw [ZMod.euler_criterion p25519 hne, hd, ← Nat.cast_pow, ← ZMod.natCast_mod, hpow]
  decide +kernel

/-- The curve of the points. -/
def curve : Curve F25519 where
  a := -1
  d := eval d
  isSquare_a := isSquare_neg_one
  not_isSquare_d := not_isSquare_d
  two_ne_zero := by decide +kernel

/-! ## Coordinates -/

/-- The limbs of the coordinates, all carried. -/
structure Coordinates (h : ge) (P : Extended F25519) : Prop where
  X : Holds h.X 1 P.X
  Y : Holds h.Y 1 P.Y
  Z : Holds h.Z 1 P.Z
  T : Holds h.T 1 P.T

/-- The sum and the difference of two coordinates are not carried. -/
structure CachedCoordinates (q : ge_cached) (c : Cached F25519) : Prop where
  Yp : Holds q.Yp 2 c.Yp
  Ym : Holds q.Ym 2 c.Ym
  Z : Holds q.Z 1 c.Z
  T2 : Holds q.T2 1 c.T2

structure PrecompCoordinates (q : ge_precomp) (c : Cached F25519) : Prop where
  Yp : Holds q.Yp 1 c.Yp
  Ym : Holds q.Ym 1 c.Ym
  Z : c.Z = 1
  T2 : Holds q.T2 1 c.T2

section Coordinates

variable {p : ge} {q : ge_cached} {r : ge_precomp} {P : Extended F25519} {c : Cached F25519}

theorem coordinates_zero : Coordinates ge_zero Extended.zero :=
  ⟨holds_0.mono (by decide), holds_1, holds_1, holds_0.mono (by decide)⟩

theorem coordinates_cache (hp : Coordinates p P) :
    CachedCoordinates (ge_cache p) (P.cache (2 * curve.d)) where
  Yp := holds_add hp.Y hp.X (by decide)
  Ym := holds_sub hp.Y hp.X (by decide)
  Z := hp.Z
  T2 := holds_mul (hp.T.mono (by decide)) (holds_D2.mono (by decide))

theorem coordinates_neg (hq : CachedCoordinates q c) :
    CachedCoordinates ⟨q.Ym, q.Yp, q.Z, fe_neg q.T2⟩ c.neg :=
  ⟨hq.Ym, hq.Yp, hq.Z, holds_neg hq.T2 (by decide)⟩

/-- The last products of an addition, and of a doubling. -/
theorem coordinates_ofQuotients {x y a b : fe} {U V G H : F25519} (hx : Holds x 3 U)
    (hy : Holds y 3 V) (ha : Holds a 3 G) (hb : Holds b 3 H) :
    Coordinates ⟨fe_mul x b, fe_mul y a, fe_mul a b, fe_mul x y⟩ (.ofQuotients U V G H) :=
  ⟨holds_mul hx hb, holds_mul hy ha, holds_mul ha hb, holds_mul hx hy⟩

theorem coordinates_add (hp : Coordinates p P) (hq : CachedCoordinates q c) :
    Coordinates (ge_add p q) (P.add c) := by
  have hYp := holds_mul ((holds_add hp.Y hp.X (by decide)).mono (by decide))
    (hq.Yp.mono (b := 3) (by decide))
  have hYm := holds_mul ((holds_sub hp.Y hp.X (by decide)).mono (by decide))
    (hq.Ym.mono (b := 3) (by decide))
  have hZ := holds_mul ((holds_add hp.Z hp.Z (by decide)).mono (by decide))
    (hq.Z.mono (b := 3) (by decide))
  have hT := holds_mul (hp.T.mono (by decide)) (hq.T2.mono (b := 3) (by decide))
  exact coordinates_ofQuotients ((holds_sub hYp hYm (by decide)).mono (by decide))
    ((holds_add hYp hYm (by decide)).mono (by decide))
    ((holds_add hZ hT (by decide)).mono (by decide))
    ((holds_sub hZ hT (by decide)).mono (by decide))

theorem coordinates_madd (hp : Coordinates p P) (hr : PrecompCoordinates r c) :
    Coordinates (ge_madd p r) (P.add c) := by
  have hYp := holds_mul ((holds_add hp.Y hp.X (by decide)).mono (by decide))
    (hr.Yp.mono (b := 3) (by decide))
  have hYm := holds_mul ((holds_sub hp.Y hp.X (by decide)).mono (by decide))
    (hr.Ym.mono (b := 3) (by decide))
  have hZ := holds_add hp.Z hp.Z (by decide)
  have hT := holds_mul (hp.T.mono (by decide)) (hr.T2.mono (b := 3) (by decide))
  simp only [Extended.add, hr.Z, mul_one]
  exact coordinates_ofQuotients ((holds_sub hYp hYm (by decide)).mono (by decide))
    ((holds_add hYp hYm (by decide)).mono (by decide)) (holds_add hZ hT (by decide))
    (holds_sub hZ hT (by decide))

theorem coordinates_msub (hp : Coordinates p P) (hr : PrecompCoordinates r c) :
    Coordinates (ge_msub p r) (P.add c.neg) := by
  have hYp := holds_mul ((holds_add hp.Y hp.X (by decide)).mono (by decide))
    (hr.Ym.mono (b := 3) (by decide))
  have hYm := holds_mul ((holds_sub hp.Y hp.X (by decide)).mono (by decide))
    (hr.Yp.mono (b := 3) (by decide))
  have hZ := holds_add hp.Z hp.Z (by decide)
  have hT := holds_mul (hp.T.mono (by decide)) (hr.T2.mono (b := 3) (by decide))
  simp only [Extended.add, Cached.neg, hr.Z, mul_one, mul_neg, sub_neg_eq_add, ← sub_eq_add_neg]
  exact coordinates_ofQuotients ((holds_sub hYp hYm (by decide)).mono (by decide))
    ((holds_add hYp hYm (by decide)).mono (by decide)) (holds_sub hZ hT (by decide))
    (holds_add hZ hT (by decide))

theorem coordinates_double (hp : Coordinates p P) : Coordinates (ge_double p) P.double := by
  have hX := holds_sq (hp.X.mono (by decide))
  have hY := holds_sq (hp.Y.mono (by decide))
  have hZ := holds_sq2 (hp.Z.mono (by decide))
  rw [two_mul] at hZ
  have hsum := holds_sq ((holds_add hp.X hp.Y (by decide)).mono (by decide))
  have hT := holds_add hY hX (by decide)
  have hG := holds_sub hY hX (by decide)
  exact coordinates_ofQuotients (holds_sub hsum hT (by decide)) (hT.mono (by decide))
    (hG.mono (by decide)) (holds_sub hZ hG (by decide))

end Coordinates

/-! ## Operations of the group -/

/-- The limbs are those of coordinates of the point. -/
def ge.IsPoint (h : ge) (p : Point curve) : Prop := ∃ P, Coordinates h P ∧ P.Represents p

def ge_cached.IsPoint (q : ge_cached) (p : Point curve) : Prop :=
  ∃ c, CachedCoordinates q c ∧ c.Represents p

def ge_precomp.IsPoint (q : ge_precomp) (p : Point curve) : Prop :=
  ∃ c, PrecompCoordinates q c ∧ c.Represents p

section Group

variable {h : ge} {q : ge_cached} {r : ge_precomp} {p p' : Point curve}

theorem isPoint_zero : ge_zero.IsPoint 0 := ⟨_, coordinates_zero, represents_zero⟩

theorem isPoint_cache : h.IsPoint p → (ge_cache h).IsPoint p := by
  rintro ⟨P, hP, hp⟩
  exact ⟨_, coordinates_cache hP, hp.cache⟩

theorem isPoint_add : h.IsPoint p → q.IsPoint p' → (ge_add h q).IsPoint (p + p') := by
  rintro ⟨P, hP, hp⟩ ⟨c, hc, hp'⟩
  exact ⟨_, coordinates_add hP hc, hp.add rfl hp'⟩

theorem isPoint_sub : h.IsPoint p → q.IsPoint p' → (ge_sub h q).IsPoint (p - p') := by
  rintro ⟨P, hP, hp⟩ ⟨c, hc, hp'⟩
  rw [sub_eq_add_neg]
  exact ⟨_, coordinates_add hP (coordinates_neg hc), hp.add rfl hp'.neg⟩

theorem isPoint_madd : h.IsPoint p → r.IsPoint p' → (ge_madd h r).IsPoint (p + p') := by
  rintro ⟨P, hP, hp⟩ ⟨c, hc, hp'⟩
  exact ⟨_, coordinates_madd hP hc, hp.add rfl hp'⟩

theorem isPoint_msub : h.IsPoint p → r.IsPoint p' → (ge_msub h r).IsPoint (p - p') := by
  rintro ⟨P, hP, hp⟩ ⟨c, hc, hp'⟩
  rw [sub_eq_add_neg]
  exact ⟨_, coordinates_msub hP hc, hp.add rfl hp'.neg⟩

theorem isPoint_double : h.IsPoint p → (ge_double h).IsPoint (2 • p) := by
  rintro ⟨P, hP, hp⟩
  exact ⟨_, coordinates_double hP, hp.double rfl⟩

end Group

/-! ## Encoding -/

/-- Two points with one ordinate differ in whether the abscissa is odd. -/
theorem val_neg_mod_two {x : F25519} (hx : x ≠ 0) : (-x).val % 2 = 1 - x.val % 2 := by
  have hlt := ZMod.val_lt x
  have hp : p25519 % 2 = 1 := by decide +kernel
  rw [ZMod.neg_val, if_neg hx]
  omega

theorem eq_of_parity {p q : Point curve} (hy : p.y = q.y) (hx : p.x.val % 2 = q.x.val % 2) :
    p = q := by
  rcases Point.eq_or_eq_neg hy with rfl | rfl
  · rfl
  · by_cases h0 : q.x = 0
    · ext
      · rw [Point.neg_x, h0, neg_zero]
      · rfl
    · rw [Point.neg_x, val_neg_mod_two h0] at hx
      omega

/-- A point as a number: the ordinate, and whether the abscissa is odd. -/
def encode (p : Point curve) : ℕ := p.y.val + 2 ^ 255 * (p.x.val % 2)

theorem val_lt (x : F25519) : x.val < 2 ^ 255 :=
  (ZMod.val_lt x).trans (by decide +kernel)

theorem encode_injective : Function.Injective encode := by
  intro p q h
  have hp := val_lt p.y
  have hq := val_lt q.y
  simp only [encode] at h
  exact eq_of_parity (ZMod.val_injective _ (by omega)) (by omega)

/-- The sign goes to the top bit. -/
theorem toNat_xor_sign {b : UInt8} (hb : b.toNat < 128) (n : ℕ) :
    (b ^^^ UInt8.ofInt ((n % 2 : ℕ) * 2 ^ 7)).toNat = b.toNat + 128 * (n % 2) := by
  have hxor : ∀ m : Fin 128, m.val ^^^ 128 = m.val + 128 := by decide +kernel
  rw [UInt8.toNat_xor]
  rcases Nat.mod_two_eq_zero_or_one n with h | h <;> rw [h]
  · exact Nat.xor_zero _
  · exact hxor ⟨b.toNat, hb⟩

theorem leValue_ge_tobytes {h : ge} {p : Point curve} (hp : h.IsPoint p) :
    leValue (ge_tobytes h) = encode p ∧ (ge_tobytes h).length = 32 := by
  obtain ⟨P, hP, hrep⟩ := hp
  have hrecip := (holds_invert (hP.Z.mono (by decide))).mono (b := 3) (by decide)
  have hx := holds_mul (hP.X.mono (by decide)) hrecip
  have hy := holds_mul (hP.Y.mono (by decide)) hrecip
  rw [hrep.X_eq, mul_inv_cancel_right₀ hrep.Z_ne_zero] at hx
  rw [hrep.Y_eq, mul_inv_cancel_right₀ hrep.Z_ne_zero] at hy
  obtain ⟨hval, hlen⟩ := leValue_tobytes hy.abs_le
  rw [hy.eval_eq] at hval
  have hlt := val_lt p.y
  have htop := toNat_getD (fe_tobytes (fe_mul h.Y (fe_invert h.Z))) 31
  rw [hval] at htop
  have hi : 31 < (fe_tobytes (fe_mul h.Y (fe_invert h.Z))).length := by
    rw [hlen]
    decide
  have hmodify := leValue_modify hi
    fun b => b ^^^ UInt8.ofInt (fe_isodd (fe_mul h.X (fe_invert h.Z)) * 2 ^ 7)
  rw [fe_isodd_eq hx.abs_le, hx.eval_eq, toNat_xor_sign (by omega), hval] at hmodify
  refine ⟨?_, (List.length_modify ..).trans hlen⟩
  rw [ge_tobytes, fe_isodd_eq hx.abs_le, hx.eval_eq, encode]
  omega

/-! ## Decoding -/

/-- The bytes give the point. None is given where the abscissa is zero. -/
structure Decodes (s : Bytes) (p : Point curve) : Prop where
  x_ne_zero : p.x ≠ 0
  y_eq : p.y = ((leValue s % 2 ^ 255 : ℕ) : F25519)
  sign_eq : p.x.val % 2 = leValue s / 2 ^ 255

theorem Decodes.unique {s : Bytes} {p q : Point curve} (hp : Decodes s p) (hq : Decodes s q) :
    p = q :=
  eq_of_parity (hp.y_eq.trans hq.y_eq.symm) (hp.sign_eq.trans hq.sign_eq.symm)

section Abscissa

variable {x y r v : F25519}

theorem denominator_ne_zero (y : F25519) : y ^ 2 * eval d + 1 ≠ 0 := by
  intro h
  have hy : y ≠ 0 := by
    rintro rfl
    simp at h
  apply not_isSquare_d
  rw [eq_div_of_mul_eq (pow_ne_zero 2 hy) (show eval d * y ^ 2 = -1 by linear_combination h)]
  exact isSquare_neg_one.div (IsSquare.sq y)

/-- The equation of the curve, solved for the abscissa. -/
theorem on_curve_iff : curve.a * x ^ 2 + y ^ 2 = 1 + curve.d * x ^ 2 * y ^ 2 ↔
    x ^ 2 * (y ^ 2 * eval d + 1) = y ^ 2 - 1 := by
  simp only [curve]
  constructor <;> intro h <;> linear_combination -h

/-- A root of the inverse of numerator times denominator gives an abscissa. -/
theorem on_curve_root (hr : r ^ 2 * ((y ^ 2 - 1) * (y ^ 2 * eval d + 1)) = 1) :
    curve.a * ((y ^ 2 - 1) * r) ^ 2 + y ^ 2 = 1 + curve.d * ((y ^ 2 - 1) * r) ^ 2 * y ^ 2 := by
  rw [on_curve_iff]
  linear_combination (y ^ 2 - 1) * hr

theorem isSquare_of_on_curve (p : Point curve) (hx : p.x ≠ 0) :
    (p.y ^ 2 - 1) * (p.y ^ 2 * eval d + 1) ≠ 0 ∧
      IsSquare ((p.y ^ 2 - 1) * (p.y ^ 2 * eval d + 1)) := by
  rw [← on_curve_iff.1 p.on_curve]
  refine ⟨mul_ne_zero (mul_ne_zero (pow_ne_zero 2 hx) ?_) ?_,
    p.x * (p.y ^ 2 * eval d + 1), by ring⟩ <;> exact denominator_ne_zero p.y

end Abscissa

theorem sign_eq {s : Bytes} (hs : s.length = 32) :
    (s.getD 31 0 >>> 7).toNat = leValue s / 2 ^ 255 := by
  have hlt := leValue_lt s
  have hbyte := toNat_getD s 31
  have hshift : (s.getD 31 0 >>> 7).toNat = (s.getD 31 0).toNat / 2 ^ 7 := by
    rw [UInt8.toNat_shiftRight, Nat.shiftRight_eq_div_pow]
    rfl
  rw [hs] at hlt
  rw [hshift, hbyte]
  omega

/-- The last step of decoding: the sign is made that which the bytes say. -/
theorem isPoint_signed {s : Bytes} {X Y : fe} {x y : F25519} (hs : s.length = 32)
    (hX : Holds X 1 x) (hY : Holds Y 1 y) (hx : x ≠ 0)
    (hy : ((leValue s % 2 ^ 255 : ℕ) : F25519) = y)
    (h : curve.a * x ^ 2 + y ^ 2 = 1 + curve.d * x ^ 2 * y ^ 2) {X' : fe}
    (hX' : X' = if fe_isodd X ≠ ((s.getD 31 0 >>> 7).toNat : ℤ) then fe_neg X else X) :
    ∃ p, ge.IsPoint ⟨X', Y, fe_1, fe_mul X' Y⟩ p ∧ Decodes s p := by
  have hlt := leValue_lt s
  let p : Point curve := ⟨x, y, h⟩
  rw [hs] at hlt
  rw [sign_eq hs, fe_isodd_eq hX.abs_le, hX.eval_eq] at hX'
  simp only [ne_eq, Int.natCast_inj, ite_not] at hX'
  have hpoint {q : Point curve} (hx : Holds X' 1 q.x) (hy : Holds Y 1 q.y) :
      ge.IsPoint ⟨X', Y, fe_1, fe_mul X' Y⟩ q :=
    ⟨.ofAffine q.x q.y, ⟨hx, hy, holds_1, holds_mul (hx.mono (by decide)) (hy.mono (by decide))⟩,
      represents_ofAffine q⟩
  by_cases hsign : x.val % 2 = leValue s / 2 ^ 255
  · rw [if_pos hsign] at hX'
    subst hX'
    exact ⟨p, hpoint hX hY, hx, hy.symm, hsign⟩
  · rw [if_neg hsign] at hX'
    subst hX'
    refine ⟨-p, hpoint (holds_neg hX (by decide)) hY, neg_ne_zero.2 hx, hy.symm, ?_⟩
    rw [Point.neg_x, val_neg_mod_two hx]
    have hmod := Nat.mod_two_eq_zero_or_one x.val
    omega

/-- The bytes that give a point are accepted, and no others. -/
theorem ge_frombytes_cases {s : Bytes} (hs : s.length = 32) :
    (∃ h p, ge_frombytes_vartime s = some h ∧ h.IsPoint p ∧ Decodes s p) ∨
      ge_frombytes_vartime s = none ∧ ∀ p, ¬Decodes s p := by
  have hY := holds_frombytes hs
  generalize hy : ((leValue s % 2 ^ 255 : ℕ) : F25519) = y at hY
  have hsq := holds_sq (hY.mono (by decide))
  have hnum := (holds_sub hsq holds_1 (by decide)).mono (b := 3) (by decide)
  have hden := holds_add (holds_mul (hsq.mono (by decide)) (holds_d.mono (by decide))) holds_1
    (by decide)
  have hprod := holds_mul hnum (hden.mono (by decide))
  obtain ⟨r, hr, hret01, hiff, -, hroot, -⟩ := invsqrt_spec (hprod.mono (by decide))
  rw [ge_frombytes_vartime]
  rcases hret01 with hret | hret
  · refine .inr ⟨if_pos hret, fun p hp => ?_⟩
    have hp' := isSquare_of_on_curve p hp.x_ne_zero
    rw [hp.y_eq, hy] at hp'
    rw [hiff.2 hp'] at hret
    exact absurd hret one_ne_zero
  · obtain ⟨hv, hsquare⟩ := hiff.1 hret
    have hone := hroot hv hsquare
    have hx : (y ^ 2 - 1) * r ≠ 0 := by
      refine mul_ne_zero (left_ne_zero_of_mul hv) fun h0 => ?_
      rw [h0] at hone
      simp at hone
    obtain ⟨p, hp, hdec⟩ := isPoint_signed hs (holds_mul hnum (hr.mono (by decide))) hY hx hy
      (on_curve_root hone) rfl
    exact .inl ⟨_, p, if_neg (hret ▸ one_ne_zero), hp, hdec⟩

/-! ## Round trips -/

section RoundTrip

variable {h h' : ge} {p : Point curve} {s : Bytes}

theorem decodes_tobytes (hp : h.IsPoint p) (hx : p.x ≠ 0) : Decodes (ge_tobytes h) p := by
  have hy := val_lt p.y
  have hsign := Nat.mod_two_eq_zero_or_one p.x.val
  obtain ⟨hval, -⟩ := leValue_ge_tobytes hp
  rw [encode] at hval
  refine ⟨hx, ?_, by omega⟩
  rw [show leValue (ge_tobytes h) % 2 ^ 255 = p.y.val by omega]
  exact (ZMod.natCast_rightInverse _).symm

/-- What is decoded from the bytes of a point is that point. -/
theorem frombytes_tobytes (hp : h.IsPoint p) (hx : p.x ≠ 0) :
    ∃ h', ge_frombytes_vartime (ge_tobytes h) = some h' ∧ h'.IsPoint p := by
  have hdec := decodes_tobytes hp hx
  rcases ge_frombytes_cases (leValue_ge_tobytes hp).2 with ⟨h', q, hret, hq, hq'⟩ | ⟨-, hnone⟩
  · obtain rfl := hq'.unique hdec
    exact ⟨h', hret, hq⟩
  · exact absurd hdec (hnone p)

theorem frombytes_tobytes_eq_none (hp : h.IsPoint p) (hx : p.x = 0) :
    ge_frombytes_vartime (ge_tobytes h) = none := by
  rcases ge_frombytes_cases (leValue_ge_tobytes hp).2 with ⟨h', q, -, -, hq⟩ | ⟨hnone, -⟩
  · -- The ordinate of another point would be that of `p`, which has no abscissa but zero.
    have hy := val_lt p.y
    have hval := (leValue_ge_tobytes hp).1
    have hqy := hq.y_eq
    rw [hval, encode, hx, ZMod.val_zero, Nat.zero_mod, Nat.mul_zero, Nat.add_zero,
      Nat.mod_eq_of_lt hy, ZMod.natCast_rightInverse p.y] at hqy
    have hzero : q.x = 0 := by
      rcases Point.eq_or_eq_neg hqy with rfl | rfl
      · exact hx
      · rw [Point.neg_x, hx, neg_zero]
    exact absurd hzero hq.x_ne_zero
  · exact hnone

/-- Bytes that give a point are its own, but that the ordinate may be written with the prime
    added. -/
theorem leValue_of_decodes (hdec : Decodes s p) :
    encode p = leValue s % 2 ^ 255 % p25519 + 2 ^ 255 * (leValue s / 2 ^ 255) := by
  rw [encode, hdec.sign_eq, hdec.y_eq, ZMod.val_natCast]

/-- Points are decoded from the bytes they are encoded as, except those that are their own
    opposites, which are refused. Bytes that are not refused are encoded again as they were, with
    the ordinate reduced modulo the prime. -/
theorem encode_decode :
    (∀ h p, h.IsPoint p → (ge_frombytes_vartime (ge_tobytes h) = none ↔ 2 • p = 0) ∧
      ∀ h', ge_frombytes_vartime (ge_tobytes h) = some h' → h'.IsPoint p) ∧
    ∀ s h, s.length = 32 → ge_frombytes_vartime s = some h →
      leValue (ge_tobytes h) = leValue s % 2 ^ 255 % p25519 + 2 ^ 255 * (leValue s / 2 ^ 255) := by
  refine ⟨fun h p hp => ?_, fun s h hs hret => ?_⟩
  · rw [← Point.x_eq_zero_iff]
    by_cases hx : p.x = 0
    · have hnone := frombytes_tobytes_eq_none hp hx
      simp [hnone, hx]
    · obtain ⟨h', hret, hp'⟩ := frombytes_tobytes hp hx
      simp [hret, hx, hp']
  · rcases ge_frombytes_cases hs with ⟨h', p, hret', hp, hdec⟩ | ⟨hnone, -⟩
    · rw [hret] at hret'
      cases hret'
      rw [(leValue_ge_tobytes hp).1, leValue_of_decodes hdec]
    · rw [hret] at hnone
      cases hnone

end RoundTrip

end MonocypherC
