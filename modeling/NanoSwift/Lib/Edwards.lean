import Mathlib.Algebra.Field.Basic
import Mathlib.Algebra.Group.Even
import Mathlib.Tactic

/-!
# Twisted Edwards curves

The curve `a x² + y² = 1 + d x² y²`, where `a` is a square and `d` is not: the law of addition
has no exceptions then (`Point.one_add_ne_zero`, `Point.one_sub_ne_zero`), and makes the points
a commutative group.

Associativity is an identity of polynomials modulo the equations of three points
(`assoc_x`, `assoc_y`).

For `a = -1`, points are also held without denominators, in *extended* coordinates
(`Extended.Represents`): addition and doubling are products and sums there.
-/

namespace Edwards

/-! ## Identities -/

section Identities

variable {R : Type*} [CommRing R] {a d x₁ y₁ x₂ y₂ x₃ y₃ : R}

/-- The sum of two points is on the curve. -/
theorem closed (h₁ : a * x₁ ^ 2 + y₁ ^ 2 = 1 + d * x₁ ^ 2 * y₁ ^ 2)
    (h₂ : a * x₂ ^ 2 + y₂ ^ 2 = 1 + d * x₂ ^ 2 * y₂ ^ 2) :
    a * (x₁ * y₂ + y₁ * x₂) ^ 2 * (1 - d * x₁ * x₂ * y₁ * y₂) ^ 2 +
        (y₁ * y₂ - a * x₁ * x₂) ^ 2 * (1 + d * x₁ * x₂ * y₁ * y₂) ^ 2 =
      (1 + d * x₁ * x₂ * y₁ * y₂) ^ 2 * (1 - d * x₁ * x₂ * y₁ * y₂) ^ 2 +
        d * (x₁ * y₂ + y₁ * x₂) ^ 2 * (y₁ * y₂ - a * x₁ * x₂) ^ 2 := by
  linear_combination
    (x₁ ^ 2 * y₁ ^ 2 * x₂ ^ 4 * a ^ 2 * d + 2 * x₁ ^ 2 * y₁ ^ 2 * x₂ ^ 2 * a ^ 2 -
      2 * x₁ ^ 2 * y₁ ^ 2 * x₂ ^ 2 * a * d + x₁ ^ 2 * y₁ ^ 2 * y₂ ^ 4 * d +
      2 * x₁ ^ 2 * y₁ ^ 2 * y₂ ^ 2 * a - 2 * x₁ ^ 2 * y₁ ^ 2 * y₂ ^ 2 * d -
      2 * x₁ ^ 2 * y₁ ^ 2 * a + x₁ ^ 2 * y₁ ^ 2 * d - x₁ ^ 2 * x₂ ^ 2 * a ^ 2 -
      x₁ ^ 2 * y₂ ^ 2 * a + x₁ ^ 2 * a - y₁ ^ 2 * x₂ ^ 2 * a - y₁ ^ 2 * y₂ ^ 2 + y₁ ^ 2 + 1) * h₁ +
    (x₁ ^ 4 * y₁ ^ 4 * x₂ ^ 2 * y₂ ^ 2 * d ^ 3 + x₁ ^ 4 * y₁ ^ 4 * x₂ ^ 2 * a * d ^ 2 +
      x₁ ^ 4 * y₁ ^ 4 * y₂ ^ 2 * d ^ 2 + 2 * x₁ ^ 4 * y₁ ^ 4 * a * d - x₁ ^ 4 * y₁ ^ 4 * d ^ 2 -
      x₁ ^ 4 * y₁ ^ 2 * x₂ ^ 2 * a ^ 2 * d - x₁ ^ 4 * y₁ ^ 2 * y₂ ^ 2 * a * d -
      2 * x₁ ^ 4 * y₁ ^ 2 * a ^ 2 + x₁ ^ 4 * a ^ 2 - x₁ ^ 2 * y₁ ^ 4 * x₂ ^ 2 * a * d -
      x₁ ^ 2 * y₁ ^ 4 * y₂ ^ 2 * d - 2 * x₁ ^ 2 * y₁ ^ 4 * a + 4 * x₁ ^ 2 * y₁ ^ 2 * a -
      2 * x₁ ^ 2 * y₁ ^ 2 * d + y₁ ^ 4) * h₂

/-- The first coordinate of a sum of three points. -/
theorem assoc_x (h₁ : a * x₁ ^ 2 + y₁ ^ 2 = 1 + d * x₁ ^ 2 * y₁ ^ 2)
    (h₂ : a * x₂ ^ 2 + y₂ ^ 2 = 1 + d * x₂ ^ 2 * y₂ ^ 2)
    (h₃ : a * x₃ ^ 2 + y₃ ^ 2 = 1 + d * x₃ ^ 2 * y₃ ^ 2) :
    ((x₁ * y₂ + y₁ * x₂) * (1 - d * x₁ * x₂ * y₁ * y₂) * y₃ +
        (y₁ * y₂ - a * x₁ * x₂) * (1 + d * x₁ * x₂ * y₁ * y₂) * x₃) *
      ((1 + d * x₂ * x₃ * y₂ * y₃) * (1 - d * x₂ * x₃ * y₂ * y₃) +
        d * x₁ * y₁ * (x₂ * y₃ + y₂ * x₃) * (y₂ * y₃ - a * x₂ * x₃)) =
    ((x₂ * y₃ + y₂ * x₃) * (1 - d * x₂ * x₃ * y₂ * y₃) * y₁ +
        (y₂ * y₃ - a * x₂ * x₃) * (1 + d * x₂ * x₃ * y₂ * y₃) * x₁) *
      ((1 + d * x₁ * x₂ * y₁ * y₂) * (1 - d * x₁ * x₂ * y₁ * y₂) +
        d * x₃ * y₃ * (x₁ * y₂ + y₁ * x₂) * (y₁ * y₂ - a * x₁ * x₂)) := by
  linear_combination
    (x₁ * x₂ ^ 4 * y₂ ^ 3 * x₃ ^ 2 * y₃ * a * d ^ 2 - x₁ * x₂ ^ 4 * y₂ * x₃ ^ 2 * y₃ * a ^ 2 * d
      - x₁ * x₂ ^ 3 * y₂ ^ 4 * x₃ * y₃ ^ 2 * d ^ 2 - x₁ * x₂ ^ 3 * y₂ ^ 2 * x₃ ^ 3 * a ^ 2 * d +
      x₁ * x₂ ^ 3 * y₂ ^ 2 * x₃ * a * d + x₁ * x₂ ^ 2 * y₂ ^ 3 * y₃ ^ 3 * d -
      x₁ * x₂ ^ 2 * y₂ ^ 3 * y₃ * d + x₁ * x₂ * y₂ ^ 4 * x₃ * y₃ ^ 2 * d +
      y₁ * x₂ ^ 4 * y₂ ^ 3 * x₃ * y₃ ^ 2 * d ^ 2 - y₁ * x₂ ^ 4 * y₂ * x₃ * y₃ ^ 2 * a * d +
      y₁ * x₂ ^ 3 * y₂ ^ 4 * x₃ ^ 2 * y₃ * d ^ 2 + y₁ * x₂ ^ 3 * y₂ ^ 2 * y₃ ^ 3 * d -
      y₁ * x₂ ^ 3 * y₂ ^ 2 * y₃ * d + y₁ * x₂ ^ 2 * y₂ ^ 3 * x₃ ^ 3 * a * d -
      y₁ * x₂ ^ 2 * y₂ ^ 3 * x₃ * d - y₁ * x₂ * y₂ ^ 4 * x₃ ^ 2 * y₃ * d) * h₁ +
    (x₁ ^ 3 * x₂ ^ 2 * y₂ * x₃ ^ 2 * y₃ * a ^ 2 * d - x₁ ^ 3 * x₂ * y₂ ^ 2 * x₃ * y₃ ^ 2 * a * d
      - x₁ ^ 2 * y₁ * x₂ ^ 2 * y₂ * x₃ ^ 3 * a ^ 2 * d + x₁ ^ 2 * y₁ * x₂ ^ 2 * y₂ * x₃ * a * d -
      x₁ ^ 2 * y₁ * x₂ * y₂ ^ 2 * y₃ ^ 3 * d + x₁ ^ 2 * y₁ * x₂ * y₂ ^ 2 * y₃ * d -
      x₁ * y₁ ^ 2 * x₂ ^ 2 * y₂ * y₃ ^ 3 * d + x₁ * y₁ ^ 2 * x₂ ^ 2 * y₂ * y₃ * d +
      x₁ * y₁ ^ 2 * x₂ * y₂ ^ 2 * x₃ ^ 3 * a * d - x₁ * y₁ ^ 2 * x₂ * y₂ ^ 2 * x₃ * d -
      x₁ * x₂ ^ 2 * y₂ * x₃ ^ 2 * y₃ * a * d + x₁ * x₂ * y₂ ^ 2 * x₃ * y₃ ^ 2 * d +
      y₁ ^ 3 * x₂ ^ 2 * y₂ * x₃ * y₃ ^ 2 * d + y₁ ^ 3 * x₂ * y₂ ^ 2 * x₃ ^ 2 * y₃ * d -
      y₁ * x₂ ^ 2 * y₂ * x₃ * y₃ ^ 2 * d - y₁ * x₂ * y₂ ^ 2 * x₃ ^ 2 * y₃ * d) * h₂ +
    (x₁ ^ 3 * x₂ ^ 3 * y₂ ^ 2 * x₃ * a ^ 2 * d - x₁ ^ 3 * x₂ ^ 2 * y₂ ^ 3 * y₃ * a * d -
      x₁ ^ 2 * y₁ * x₂ ^ 4 * y₂ ^ 3 * x₃ * a * d ^ 2 + x₁ ^ 2 * y₁ * x₂ ^ 4 * y₂ * x₃ * a ^ 2 * d
      - x₁ ^ 2 * y₁ * x₂ ^ 3 * y₂ ^ 4 * y₃ * d ^ 2 + x₁ ^ 2 * y₁ * x₂ * y₂ ^ 4 * y₃ * d -
      x₁ * y₁ ^ 2 * x₂ ^ 4 * y₂ ^ 3 * y₃ * d ^ 2 + x₁ * y₁ ^ 2 * x₂ ^ 4 * y₂ * y₃ * a * d +
      x₁ * y₁ ^ 2 * x₂ ^ 3 * y₂ ^ 4 * x₃ * d ^ 2 - x₁ * y₁ ^ 2 * x₂ * y₂ ^ 4 * x₃ * d -
      x₁ * x₂ ^ 3 * y₂ ^ 2 * x₃ * a * d + x₁ * x₂ ^ 2 * y₂ ^ 3 * y₃ * d -
      y₁ ^ 3 * x₂ ^ 3 * y₂ ^ 2 * y₃ * d - y₁ ^ 3 * x₂ ^ 2 * y₂ ^ 3 * x₃ * d +
      y₁ * x₂ ^ 3 * y₂ ^ 2 * y₃ * d + y₁ * x₂ ^ 2 * y₂ ^ 3 * x₃ * d) * h₃

/-- The second coordinate of a sum of three points. -/
theorem assoc_y (h₁ : a * x₁ ^ 2 + y₁ ^ 2 = 1 + d * x₁ ^ 2 * y₁ ^ 2)
    (h₂ : a * x₂ ^ 2 + y₂ ^ 2 = 1 + d * x₂ ^ 2 * y₂ ^ 2)
    (h₃ : a * x₃ ^ 2 + y₃ ^ 2 = 1 + d * x₃ ^ 2 * y₃ ^ 2) :
    ((y₁ * y₂ - a * x₁ * x₂) * (1 + d * x₁ * x₂ * y₁ * y₂) * y₃ -
        a * (x₁ * y₂ + y₁ * x₂) * (1 - d * x₁ * x₂ * y₁ * y₂) * x₃) *
      ((1 + d * x₂ * x₃ * y₂ * y₃) * (1 - d * x₂ * x₃ * y₂ * y₃) -
        d * x₁ * y₁ * (x₂ * y₃ + y₂ * x₃) * (y₂ * y₃ - a * x₂ * x₃)) =
    ((y₂ * y₃ - a * x₂ * x₃) * (1 + d * x₂ * x₃ * y₂ * y₃) * y₁ -
        a * (x₂ * y₃ + y₂ * x₃) * (1 - d * x₂ * x₃ * y₂ * y₃) * x₁) *
      ((1 + d * x₁ * x₂ * y₁ * y₂) * (1 - d * x₁ * x₂ * y₁ * y₂) -
        d * x₃ * y₃ * (x₁ * y₂ + y₁ * x₂) * (y₁ * y₂ - a * x₁ * x₂)) := by
  linear_combination
    (-x₁ * x₂ ^ 4 * y₂ ^ 3 * x₃ * y₃ ^ 2 * a * d ^ 2 + x₁ * x₂ ^ 4 * y₂ * x₃ * y₃ ^ 2 * a ^ 2 * d
      - x₁ * x₂ ^ 3 * y₂ ^ 4 * x₃ ^ 2 * y₃ * a * d ^ 2 - x₁ * x₂ ^ 3 * y₂ ^ 2 * y₃ ^ 3 * a * d +
      x₁ * x₂ ^ 3 * y₂ ^ 2 * y₃ * a * d - x₁ * x₂ ^ 2 * y₂ ^ 3 * x₃ ^ 3 * a ^ 2 * d +
      x₁ * x₂ ^ 2 * y₂ ^ 3 * x₃ * a * d + x₁ * x₂ * y₂ ^ 4 * x₃ ^ 2 * y₃ * a * d +
      y₁ * x₂ ^ 4 * y₂ ^ 3 * x₃ ^ 2 * y₃ * a * d ^ 2 - y₁ * x₂ ^ 4 * y₂ * x₃ ^ 2 * y₃ * a ^ 2 * d
      - y₁ * x₂ ^ 3 * y₂ ^ 4 * x₃ * y₃ ^ 2 * d ^ 2 - y₁ * x₂ ^ 3 * y₂ ^ 2 * x₃ ^ 3 * a ^ 2 * d +
      y₁ * x₂ ^ 3 * y₂ ^ 2 * x₃ * a * d + y₁ * x₂ ^ 2 * y₂ ^ 3 * y₃ ^ 3 * d -
      y₁ * x₂ ^ 2 * y₂ ^ 3 * y₃ * d + y₁ * x₂ * y₂ ^ 4 * x₃ * y₃ ^ 2 * d) * h₁ +
    (-x₁ ^ 3 * x₂ ^ 2 * y₂ * x₃ * y₃ ^ 2 * a ^ 2 * d -
      x₁ ^ 3 * x₂ * y₂ ^ 2 * x₃ ^ 2 * y₃ * a ^ 2 * d - x₁ ^ 2 * y₁ * x₂ ^ 2 * y₂ * y₃ ^ 3 * a * d
      + x₁ ^ 2 * y₁ * x₂ ^ 2 * y₂ * y₃ * a * d + x₁ ^ 2 * y₁ * x₂ * y₂ ^ 2 * x₃ ^ 3 * a ^ 2 * d -
      x₁ ^ 2 * y₁ * x₂ * y₂ ^ 2 * x₃ * a * d + x₁ * y₁ ^ 2 * x₂ ^ 2 * y₂ * x₃ ^ 3 * a ^ 2 * d -
      x₁ * y₁ ^ 2 * x₂ ^ 2 * y₂ * x₃ * a * d + x₁ * y₁ ^ 2 * x₂ * y₂ ^ 2 * y₃ ^ 3 * d -
      x₁ * y₁ ^ 2 * x₂ * y₂ ^ 2 * y₃ * d + x₁ * x₂ ^ 2 * y₂ * x₃ * y₃ ^ 2 * a * d +
      x₁ * x₂ * y₂ ^ 2 * x₃ ^ 2 * y₃ * a * d + y₁ ^ 3 * x₂ ^ 2 * y₂ * x₃ ^ 2 * y₃ * a * d -
      y₁ ^ 3 * x₂ * y₂ ^ 2 * x₃ * y₃ ^ 2 * d - y₁ * x₂ ^ 2 * y₂ * x₃ ^ 2 * y₃ * a * d +
      y₁ * x₂ * y₂ ^ 2 * x₃ * y₃ ^ 2 * d) * h₂ +
    (x₁ ^ 3 * x₂ ^ 3 * y₂ ^ 2 * y₃ * a ^ 2 * d + x₁ ^ 3 * x₂ ^ 2 * y₂ ^ 3 * x₃ * a ^ 2 * d -
      x₁ ^ 2 * y₁ * x₂ ^ 4 * y₂ ^ 3 * y₃ * a * d ^ 2 + x₁ ^ 2 * y₁ * x₂ ^ 4 * y₂ * y₃ * a ^ 2 * d
      + x₁ ^ 2 * y₁ * x₂ ^ 3 * y₂ ^ 4 * x₃ * a * d ^ 2 - x₁ ^ 2 * y₁ * x₂ * y₂ ^ 4 * x₃ * a * d +
      x₁ * y₁ ^ 2 * x₂ ^ 4 * y₂ ^ 3 * x₃ * a * d ^ 2 - x₁ * y₁ ^ 2 * x₂ ^ 4 * y₂ * x₃ * a ^ 2 * d
      + x₁ * y₁ ^ 2 * x₂ ^ 3 * y₂ ^ 4 * y₃ * d ^ 2 - x₁ * y₁ ^ 2 * x₂ * y₂ ^ 4 * y₃ * d -
      x₁ * x₂ ^ 3 * y₂ ^ 2 * y₃ * a * d - x₁ * x₂ ^ 2 * y₂ ^ 3 * x₃ * a * d +
      y₁ ^ 3 * x₂ ^ 3 * y₂ ^ 2 * x₃ * a * d - y₁ ^ 3 * x₂ ^ 2 * y₂ ^ 3 * y₃ * d -
      y₁ * x₂ ^ 3 * y₂ ^ 2 * x₃ * a * d + y₁ * x₂ ^ 2 * y₂ ^ 3 * y₃ * d) * h₃

end Identities

/-! ## Points -/

/-- A curve whose law of addition is complete. -/
structure Curve (F : Type*) [Field F] where
  a : F
  d : F
  isSquare_a : IsSquare a
  not_isSquare_d : ¬IsSquare d
  two_ne_zero : (2 : F) ≠ 0

/-- A point of a curve. -/
@[ext]
structure Point {F : Type*} [Field F] (E : Curve F) where
  x : F
  y : F
  on_curve : E.a * x ^ 2 + y ^ 2 = 1 + E.d * x ^ 2 * y ^ 2

namespace Point

variable {F : Type*} [Field F] {E : Curve F}

/-- The term in the denominators of a sum. -/
def cross (p q : Point E) : F := E.d * p.x * q.x * p.y * q.y

theorem cross_comm (p q : Point E) : p.cross q = q.cross p := by
  simp only [cross]
  ring

/-- The denominators of a sum do not vanish. Otherwise `d` is a square, namely that of a
    quotient of sums of coordinates. -/
theorem cross_sq_ne_one (p q : Point E) : p.cross q ^ 2 ≠ 1 := by
  intro h
  obtain ⟨c, hc⟩ := E.isSquare_a
  have hp := p.on_curve
  have hq := q.on_curve
  have hne : p.cross q ≠ 0 := by
    rintro h0
    simp [h0] at h
  simp only [cross] at h hne
  have hx : p.x ≠ 0 := by rintro h0; simp [h0] at hne
  have hy : p.y ≠ 0 := by rintro h0; simp [h0] at hne
  have hy' : q.y ≠ 0 := by rintro h0; simp [h0] at hne
  -- for either root of `a`
  have key (c : F) (hc : E.a = c * c) : c * q.x + q.y = 0 := by
    by_contra h0
    have hsq : E.d * (p.x * p.y * (c * q.x + q.y)) ^ 2 =
        (c * p.x + E.d * p.x * q.x * p.y * q.y * p.y) ^ 2 := by
      linear_combination E.d * p.x ^ 2 * p.y ^ 2 * hq - hp +
        (p.x ^ 2 - E.d * p.x ^ 2 * p.y ^ 2 * q.x ^ 2) * hc + (1 - p.y ^ 2) * h
    have hden : p.x * p.y * (c * q.x + q.y) ≠ 0 := mul_ne_zero (mul_ne_zero hx hy) h0
    apply E.not_isSquare_d
    rw [eq_div_of_mul_eq (pow_ne_zero 2 hden) hsq, ← div_pow]
    exact IsSquare.sq _
  have h₁ := key c hc
  have h₂ := key (-c) (by rw [hc]; ring)
  have h2 : 2 * q.y = 0 := by linear_combination h₁ + h₂
  exact (mul_ne_zero E.two_ne_zero hy') h2

theorem one_add_ne_zero (p q : Point E) : 1 + p.cross q ≠ 0 := fun h =>
  cross_sq_ne_one p q (by linear_combination (p.cross q - 1) * h)

theorem one_sub_ne_zero (p q : Point E) : 1 - p.cross q ≠ 0 := fun h =>
  cross_sq_ne_one p q (by linear_combination (-p.cross q - 1) * h)

/-- The equation of the curve for a point given by quotients. -/
theorem on_curve_div {a d A B u v : F} (hu : u ≠ 0) (hv : v ≠ 0)
    (h : a * A ^ 2 * v ^ 2 + B ^ 2 * u ^ 2 = u ^ 2 * v ^ 2 + d * A ^ 2 * B ^ 2) :
    a * (A / u) ^ 2 + (B / v) ^ 2 = 1 + d * (A / u) ^ 2 * (B / v) ^ 2 := by
  field_simp
  linear_combination h

instance : Zero (Point E) := ⟨⟨0, 1, by simp⟩⟩

instance : Neg (Point E) := ⟨fun p => ⟨-p.x, p.y, by simpa using p.on_curve⟩⟩

instance : Add (Point E) where
  add p q :=
    { x := (p.x * q.y + p.y * q.x) / (1 + p.cross q)
      y := (p.y * q.y - E.a * p.x * q.x) / (1 - p.cross q)
      on_curve := on_curve_div (one_add_ne_zero p q) (one_sub_ne_zero p q)
        (closed p.on_curve q.on_curve) }

@[simp] theorem zero_x : (0 : Point E).x = 0 := rfl
@[simp] theorem zero_y : (0 : Point E).y = 1 := rfl
@[simp] theorem neg_x (p : Point E) : (-p).x = -p.x := rfl
@[simp] theorem neg_y (p : Point E) : (-p).y = p.y := rfl

theorem add_x (p q : Point E) : (p + q).x * (1 + p.cross q) = p.x * q.y + p.y * q.x :=
  div_mul_cancel₀ _ (one_add_ne_zero p q)

theorem add_y (p q : Point E) : (p + q).y * (1 - p.cross q) = p.y * q.y - E.a * p.x * q.x :=
  div_mul_cancel₀ _ (one_sub_ne_zero p q)

/-- The sum is determined by its equations. -/
theorem eq_add_iff {p q r : Point E} :
    r = p + q ↔ r.x * (1 + p.cross q) = p.x * q.y + p.y * q.x ∧
      r.y * (1 - p.cross q) = p.y * q.y - E.a * p.x * q.x := by
  constructor
  · rintro rfl
    exact ⟨add_x p q, add_y p q⟩
  · rintro ⟨hx, hy⟩
    ext
    · exact mul_right_cancel₀ (one_add_ne_zero p q) (hx.trans (add_x p q).symm)
    · exact mul_right_cancel₀ (one_sub_ne_zero p q) (hy.trans (add_y p q).symm)

protected theorem add_comm (p q : Point E) : p + q = q + p := by
  rw [eq_add_iff, cross_comm q p, add_x, add_y]
  constructor <;> ring

protected theorem zero_add (p : Point E) : 0 + p = p := by
  rw [eq_comm, eq_add_iff]
  simp [cross]

protected theorem neg_add_cancel (p : Point E) : -p + p = 0 := by
  rw [eq_comm, eq_add_iff]
  refine ⟨by simp; ring, ?_⟩
  simp only [zero_y, neg_x, neg_y, cross]
  linear_combination -p.on_curve

/-- The denominators of a sum of three points are those of the first sum times those of the
    second. -/
theorem cross_add (p q r : Point E) :
    (1 + p.cross q) * (1 - p.cross q) * (p + q).cross r =
      E.d * r.x * r.y * (p.x * q.y + p.y * q.x) * (p.y * q.y - E.a * p.x * q.x) := by
  rw [← add_x, ← add_y]
  simp only [cross]
  ring

theorem add_add_ne_zero (p q r : Point E) :
    (1 + p.cross q) * (1 - p.cross q) +
      E.d * r.x * r.y * (p.x * q.y + p.y * q.x) * (p.y * q.y - E.a * p.x * q.x) ≠ 0 := by
  have h : (1 + p.cross q) * (1 - p.cross q) * (1 + (p + q).cross r) ≠ 0 :=
    mul_ne_zero (mul_ne_zero (one_add_ne_zero p q) (one_sub_ne_zero p q)) (one_add_ne_zero _ r)
  rwa [mul_one_add, cross_add] at h

theorem add_sub_ne_zero (p q r : Point E) :
    (1 + p.cross q) * (1 - p.cross q) -
      E.d * r.x * r.y * (p.x * q.y + p.y * q.x) * (p.y * q.y - E.a * p.x * q.x) ≠ 0 := by
  have h : (1 + p.cross q) * (1 - p.cross q) * (1 - (p + q).cross r) ≠ 0 :=
    mul_ne_zero (mul_ne_zero (one_add_ne_zero p q) (one_sub_ne_zero p q)) (one_sub_ne_zero _ r)
  rwa [mul_one_sub, cross_add] at h

theorem add_add_x (p q r : Point E) :
    (p + q + r).x * ((1 + p.cross q) * (1 - p.cross q) +
      E.d * r.x * r.y * (p.x * q.y + p.y * q.x) * (p.y * q.y - E.a * p.x * q.x)) =
      (p.x * q.y + p.y * q.x) * (1 - p.cross q) * r.y +
        (p.y * q.y - E.a * p.x * q.x) * (1 + p.cross q) * r.x := by
  rw [← cross_add, ← add_x p q, ← add_y p q]
  linear_combination (1 + p.cross q) * (1 - p.cross q) * add_x (p + q) r

theorem add_add_y (p q r : Point E) :
    (p + q + r).y * ((1 + p.cross q) * (1 - p.cross q) -
      E.d * r.x * r.y * (p.x * q.y + p.y * q.x) * (p.y * q.y - E.a * p.x * q.x)) =
      (p.y * q.y - E.a * p.x * q.x) * (1 + p.cross q) * r.y -
        E.a * (p.x * q.y + p.y * q.x) * (1 - p.cross q) * r.x := by
  rw [← cross_add, ← add_x p q, ← add_y p q]
  linear_combination (1 + p.cross q) * (1 - p.cross q) * add_y (p + q) r

/-- Equal quotients have equal cross products. -/
theorem eq_of_cross_eq {X X' D D' N N' : F} (h : X * D = N) (h' : X' * D' = N')
    (hD : D ≠ 0) (hD' : D' ≠ 0) (hN : N * D' = N' * D) : X = X' := by
  apply mul_right_cancel₀ (mul_ne_zero hD hD')
  linear_combination D' * h - D * h' + hN

protected theorem add_assoc (p q r : Point E) : p + q + r = p + (q + r) := by
  rw [Point.add_comm p (q + r)]
  ext
  · refine eq_of_cross_eq (add_add_x p q r) (add_add_x q r p) (add_add_ne_zero p q r)
      (add_add_ne_zero q r p) ?_
    simp only [cross]
    linear_combination assoc_x p.on_curve q.on_curve r.on_curve
  · refine eq_of_cross_eq (add_add_y p q r) (add_add_y q r p) (add_sub_ne_zero p q r)
      (add_sub_ne_zero q r p) ?_
    simp only [cross]
    linear_combination assoc_y p.on_curve q.on_curve r.on_curve

instance : AddCommGroup (Point E) where
  add_assoc := Point.add_assoc
  zero_add := Point.zero_add
  add_zero p := by rw [Point.add_comm, Point.zero_add]
  neg_add_cancel := Point.neg_add_cancel
  add_comm := Point.add_comm
  nsmul := nsmulRec
  zsmul := zsmulRec

/-- Two points with one ordinate are equal or opposite. -/
theorem eq_or_eq_neg {p q : Point E} (h : p.y = q.y) : p = q ∨ p = -q := by
  have hp := p.on_curve
  have hq := q.on_curve
  have hne : E.a - E.d * q.y ^ 2 ≠ 0 := by
    intro h0
    have hy : q.y ≠ 0 := by
      rintro hy
      have ha : E.a = 0 := by simpa [hy] using h0
      simp [hy, ha] at hq
    apply E.not_isSquare_d
    rw [eq_div_of_mul_eq (pow_ne_zero 2 hy) (sub_eq_zero.1 h0).symm]
    exact E.isSquare_a.div (IsSquare.sq _)
  have hx : (p.x - q.x) * (p.x + q.x) = 0 := by
    apply mul_right_cancel₀ hne
    rw [h] at hp
    linear_combination hp - hq
  rcases mul_eq_zero.1 hx with hx | hx
  · exact .inl (Point.ext (sub_eq_zero.1 hx) h)
  · exact .inr (Point.ext (by simpa using eq_neg_of_add_eq_zero_left hx) h)

/-- The points that are their own opposites. -/
theorem x_eq_zero_iff {p : Point E} : p.x = 0 ↔ 2 • p = 0 := by
  rw [two_nsmul, add_eq_zero_iff_eq_neg]
  constructor
  · intro h
    ext
    · rw [neg_x, h, neg_zero]
    · rfl
  · intro h
    have hx : p.x = -p.x := congrArg Point.x h
    have h2 : 2 * p.x = 0 := by linear_combination hx
    exact (mul_eq_zero.1 h2).resolve_left E.two_ne_zero

end Point

/-! ## Extended coordinates -/

/-- A point as three quotients, `X / Z`, `Y / Z` and their product `T / Z`. -/
@[ext]
structure Extended (R : Type*) where
  X : R
  Y : R
  Z : R
  T : R

/-- What addition uses of a point: the sum and the difference of its coordinates, and `2 d`
    times their product. -/
@[ext]
structure Cached (R : Type*) where
  Yp : R
  Ym : R
  Z : R
  T2 : R

section Formulas

variable {R : Type*} [CommRing R]

/-- The point `(U / G, V / H)`. -/
def Extended.ofQuotients (U V G H : R) : Extended R := ⟨U * H, V * G, G * H, U * V⟩

def Extended.zero : Extended R := ⟨0, 1, 1, 0⟩

/-- The point `(x, y)`. -/
def Extended.ofAffine (x y : R) : Extended R := ⟨x, y, 1, x * y⟩

/-- What addition uses, where `k` is `2 d`. -/
def Extended.cache (k : R) (P : Extended R) : Cached R :=
  ⟨P.Y + P.X, P.Y - P.X, P.Z, P.T * k⟩

def Cached.neg (c : Cached R) : Cached R := ⟨c.Ym, c.Yp, c.Z, -c.T2⟩

def Extended.add (P : Extended R) (c : Cached R) : Extended R :=
  let A := (P.Y + P.X) * c.Yp
  let B := (P.Y - P.X) * c.Ym
  let Z := (P.Z + P.Z) * c.Z
  let T := P.T * c.T2
  .ofQuotients (A - B) (A + B) (Z + T) (Z - T)

def Extended.double (P : Extended R) : Extended R :=
  let H := P.Y ^ 2 + P.X ^ 2
  let G := P.Y ^ 2 - P.X ^ 2
  .ofQuotients ((P.X + P.Y) ^ 2 - H) H G (P.Z ^ 2 + P.Z ^ 2 - G)

/-- The multiple by a number of `n` bits, by doubling and adding. -/
def Extended.multiple (c : Cached R) : (n k : ℕ) → Extended R
  | 0, _ => .zero
  | n + 1, k =>
    let P := (multiple c n (k / 2)).double
    if k % 2 = 0 then P else P.add c

end Formulas

variable {F : Type*} [Field F] {E : Curve F}

/-- The coordinates are those of the point. -/
structure Extended.Represents (P : Extended F) (p : Point E) : Prop where
  Z_ne_zero : P.Z ≠ 0
  X_eq : P.X = p.x * P.Z
  Y_eq : P.Y = p.y * P.Z
  T_eq : P.T = p.x * p.y * P.Z

structure Cached.Represents (c : Cached F) (p : Point E) : Prop where
  Z_ne_zero : c.Z ≠ 0
  Yp_eq : c.Yp = (p.y + p.x) * c.Z
  Ym_eq : c.Ym = (p.y - p.x) * c.Z
  T2_eq : c.T2 = p.x * p.y * c.Z * (2 * E.d)

section Represents

variable {P Q : Extended F} {c : Cached F} {p q : Point E}

theorem represents_ofQuotients {U V G H : F} (hG : G ≠ 0) (hH : H ≠ 0) (hU : U = p.x * G)
    (hV : V = p.y * H) : (Extended.ofQuotients U V G H).Represents p where
  Z_ne_zero := mul_ne_zero hG hH
  X_eq := by simp only [Extended.ofQuotients, hU]; ring
  Y_eq := by simp only [Extended.ofQuotients, hV]; ring
  T_eq := by simp only [Extended.ofQuotients, hU, hV]; ring

theorem represents_zero : (Extended.zero : Extended F).Represents (0 : Point E) := by
  constructor <;> simp [Extended.zero]

theorem represents_ofAffine (p : Point E) : (Extended.ofAffine p.x p.y).Represents p := by
  constructor <;> simp [Extended.ofAffine]

theorem Extended.Represents.cache (h : P.Represents p) : (P.cache (2 * E.d)).Represents p where
  Z_ne_zero := h.Z_ne_zero
  Yp_eq := by simp only [Extended.cache, h.X_eq, h.Y_eq]; ring
  Ym_eq := by simp only [Extended.cache, h.X_eq, h.Y_eq]; ring
  T2_eq := by simp only [Extended.cache, h.T_eq]

theorem Cached.Represents.neg (h : c.Represents p) : c.neg.Represents (-p) where
  Z_ne_zero := h.Z_ne_zero
  Yp_eq := by simp only [Cached.neg, h.Ym_eq, Point.neg_x, Point.neg_y]; ring
  Ym_eq := by simp only [Cached.neg, h.Yp_eq, Point.neg_x, Point.neg_y]; ring
  T2_eq := by simp only [Cached.neg, h.T2_eq, Point.neg_x, Point.neg_y]; ring

theorem Extended.Represents.add (ha : E.a = -1) (hP : P.Represents p) (hc : c.Represents q) :
    (P.add c).Represents (p + q) := by
  have hx := Point.add_x p q
  have hy := Point.add_y p q
  have hz : 2 * P.Z * c.Z ≠ 0 := mul_ne_zero (mul_ne_zero E.two_ne_zero hP.Z_ne_zero) hc.Z_ne_zero
  have hG := mul_ne_zero hz (Point.one_add_ne_zero p q)
  have hH := mul_ne_zero hz (Point.one_sub_ne_zero p q)
  simp only [Extended.add, hP.X_eq, hP.Y_eq, hP.T_eq, hc.Yp_eq, hc.Ym_eq, hc.T2_eq]
  simp only [Point.cross] at hx hy hG hH
  apply represents_ofQuotients
  · convert hG using 1
    ring
  · convert hH using 1
    ring
  · linear_combination (-2 * P.Z * c.Z) * hx
  · linear_combination (-2 * P.Z * c.Z) * hy + 2 * P.Z * c.Z * p.x * q.x * ha

theorem Extended.Represents.double (ha : E.a = -1) (hP : P.Represents p) :
    P.double.Represents (2 • p) := by
  have hp := p.on_curve
  have hx := Point.add_x p p
  have hy := Point.add_y p p
  have hz : P.Z ^ 2 ≠ 0 := pow_ne_zero 2 hP.Z_ne_zero
  have hG := mul_ne_zero hz (Point.one_add_ne_zero p p)
  have hH := mul_ne_zero hz (Point.one_sub_ne_zero p p)
  rw [two_nsmul]
  simp only [Extended.double, hP.X_eq, hP.Y_eq]
  simp only [Point.cross] at hx hy hG hH
  rw [ha] at hp
  apply represents_ofQuotients
  · convert hG using 1
    linear_combination P.Z ^ 2 * hp
  · convert hH using 1
    linear_combination -P.Z ^ 2 * hp
  · linear_combination (-P.Z ^ 2) * hx - (p + p).x * P.Z ^ 2 * hp
  · linear_combination (-P.Z ^ 2) * hy + P.Z ^ 2 * p.x * p.x * ha + (p + p).y * P.Z ^ 2 * hp

theorem Cached.Represents.multiple (ha : E.a = -1) (hc : c.Represents q) {n k : ℕ}
    (hk : k < 2 ^ n) : (Extended.multiple c n k).Represents (k • q) := by
  induction n generalizing k with
  | zero =>
    obtain rfl : k = 0 := by simpa using hk
    rw [zero_nsmul]
    exact represents_zero
  | succ n ih =>
    have hdouble := (ih (k := k / 2) (by rw [pow_succ] at hk; omega)).double ha
    rw [← mul_nsmul'] at hdouble
    rw [Extended.multiple]
    split_ifs with heven
    · rwa [show 2 * (k / 2) = k by omega] at hdouble
    · have hadd := hdouble.add ha hc
      rwa [← succ_nsmul, show 2 * (k / 2) + 1 = k by omega] at hadd

/-- Two representations of one point, up to their denominators. -/
theorem Extended.Represents.eq (hP : P.Represents p) (hQ : Q.Represents q) :
    p = q ↔ P.X * Q.Z = Q.X * P.Z ∧ P.Y * Q.Z = Q.Y * P.Z := by
  have hz : P.Z * Q.Z ≠ 0 := mul_ne_zero hP.Z_ne_zero hQ.Z_ne_zero
  rw [hP.X_eq, hP.Y_eq, hQ.X_eq, hQ.Y_eq]
  constructor
  · rintro rfl
    constructor <;> ring
  · rintro ⟨hx, hy⟩
    ext
    · exact mul_right_cancel₀ hz (by linear_combination hx)
    · exact mul_right_cancel₀ hz (by linear_combination hy)

/-- Coordinates in proportion to those of a representation represent its point. -/
theorem Extended.Represents.cached (hP : P.Represents p) (hz : c.Z ≠ 0)
    (hp : c.Yp * P.Z = (P.Y + P.X) * c.Z) (hm : c.Ym * P.Z = (P.Y - P.X) * c.Z)
    (ht : c.T2 * P.Z = P.T * c.Z * (2 * E.d)) : c.Represents p := by
  rw [hP.X_eq, hP.Y_eq] at hp hm
  rw [hP.T_eq] at ht
  refine ⟨hz, ?_, ?_, ?_⟩ <;> apply mul_right_cancel₀ hP.Z_ne_zero
  · linear_combination hp
  · linear_combination hm
  · linear_combination ht

end Represents

end Edwards
