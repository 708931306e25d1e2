import Mathlib.AlgebraicGeometry.EllipticCurve.Affine.Point
import Mathlib.GroupTheory.OrderOfElement

/-!
# Points with a common denominator

Points of a curve `y² = x³ + a x + b` in coordinates that are scaled by the powers of a denominator,
which is not stored.  Two points with one denominator are added without knowing it, and Montgomery's
ladder keeps two such points: their difference is the point that is multiplied, from which the
denominator is recovered in the end.
-/

namespace Foundation.CoZ

open WeierstrassCurve.Affine

variable {F : Type*} [Field F]

/-- The curve `y² = x³ + a x + b`. -/
def shortCurve (a b : F) : WeierstrassCurve.Affine F where
  a₁ := 0
  a₂ := 0
  a₃ := 0
  a₄ := a
  a₆ := b

theorem equation_shortCurve_iff {a b x y : F} :
    (shortCurve a b).Equation x y ↔ y ^ 2 = x ^ 3 + a * x + b := by
  rw [equation_iff]
  simp only [shortCurve, zero_mul, add_zero]

/-- The two points of the ladder. -/
abbrev PointPair (F : Type*) := (F × F) × (F × F)

/-- The first point in the coordinates of the sum, and the sum of two points with one
denominator. -/
def add (p q : F × F) : PointPair F :=
  let A := (q.1 - p.1) ^ 2
  let B := p.1 * A
  let C := q.1 * A
  let x := (q.2 - p.2) ^ 2 - B - C
  let y := p.2 * (C - B)
  ((B, y), (x, (q.2 - p.2) * (B - x) - y))

/-- The difference and the sum of two points with one denominator. -/
def addConjugate (p q : F × F) : PointPair F :=
  let A := (q.1 - p.1) ^ 2
  let B := p.1 * A
  let C := q.1 * A
  let E := p.2 * (C - B)
  let x := (q.2 - p.2) ^ 2 - (B + C)
  let x' := (q.2 + p.2) ^ 2 - (B + C)
  ((x', (q.2 + p.2) * (x' - B) - E), (x, (q.2 - p.2) * (B - x) - E))

/-- The double of a point with denominator `z`, whose denominator is `p.2 * z`. -/
def double (a z : F) (p : F × F) : F × F :=
  let A := p.1 * p.2 ^ 2
  let B := (3 * p.1 ^ 2 + a * z ^ 4) / 2
  let x := B ^ 2 - 2 * A
  (x, B * (A - x) - p.2 ^ 4)

/-- Coordinates in another denominator. -/
def rescale (z : F) (p : F × F) : F × F := (p.1 * z ^ 2, p.2 * z ^ 3)

/-- The coordinates of a point scaled by a denominator. -/
structure Scaled {a b : F} (z : F) (p : F × F) (P : (shortCurve a b).Point) : Prop where
  denominator_ne_zero : z ≠ 0
  point_eq : ∃ x y, ∃ nonsingular : (shortCurve a b).Nonsingular x y,
    P = .some x y nonsingular ∧ p = rescale z (x, y)

namespace Scaled

variable {a b z : F} {p q : F × F} {P Q : (shortCurve a b).Point}

theorem neg (scaled : Scaled z p P) : Scaled z (p.1, -p.2) (-P) := by
  obtain ⟨nonzero, x, y, nonsingular, rfl, rfl⟩ := scaled
  refine ⟨nonzero, x, _, _, Point.neg_some nonsingular, ?_⟩
  ext
  · rfl
  · simp only [rescale, negY, shortCurve]
    ring

/-- Points with one denominator have the same abscissa when they are equal or opposite. -/
theorem fst_eq_iff (first : Scaled z p P) (second : Scaled z q Q) :
    p.1 = q.1 ↔ P = Q ∨ P = -Q := by
  obtain ⟨nonzero, x₁, y₁, h₁, rfl, rfl⟩ := first
  obtain ⟨_, x₂, y₂, h₂, rfl, rfl⟩ := second
  rw [← Point.X_eq_iff]
  exact mul_left_inj' (pow_ne_zero 2 nonzero)

/-- A point has one pair of coordinates for each denominator. -/
theorem eq_of_same (first : Scaled z p P) (second : Scaled z q P) : p = q := by
  obtain ⟨_, x₁, y₁, h₁, rfl, rfl⟩ := first
  obtain ⟨_, x₂, y₂, h₂, same, rfl⟩ := second
  obtain ⟨rfl, rfl⟩ := Point.some.inj same
  rfl

theorem rescale {z' : F} (scaled : Scaled z p P) (nonzero : z' ≠ 0) :
    Scaled (z * z') (CoZ.rescale z' p) P := by
  obtain ⟨denominator, x, y, nonsingular, rfl, rfl⟩ := scaled
  refine ⟨mul_ne_zero denominator nonzero, x, y, nonsingular, rfl, ?_⟩
  ext <;> simp only [CoZ.rescale] <;> ring

theorem point_ne_zero (scaled : Scaled z p P) : P ≠ 0 := by
  obtain ⟨_, x, y, nonsingular, rfl, _⟩ := scaled
  exact Point.some_ne_zero nonsingular

theorem of_some {x y : F} (nonsingular : (shortCurve a b).Nonsingular x y) :
    Scaled 1 (x, y) (.some x y nonsingular : (shortCurve a b).Point) := by
  refine ⟨one_ne_zero, x, y, nonsingular, rfl, ?_⟩
  ext <;> simp only [CoZ.rescale] <;> ring

/-- The denominator `1` is no denominator. -/
theorem exists_eq_some (scaled : Scaled 1 p P) :
    ∃ nonsingular : (shortCurve a b).Nonsingular p.1 p.2, P = .some p.1 p.2 nonsingular := by
  obtain ⟨_, x, y, nonsingular, rfl, rfl⟩ := scaled
  have unscaled : CoZ.rescale 1 (x, y) = (x, y) := by
    ext <;> simp only [CoZ.rescale] <;> ring
  rw [unscaled]
  exact ⟨nonsingular, rfl⟩

section Group

variable [DecidableEq F]

theorem add (first : Scaled z p P) (second : Scaled z q Q) (apart : p.1 ≠ q.1) :
    Scaled (z * (q.1 - p.1)) (CoZ.add p q).1 P ∧
      Scaled (z * (q.1 - p.1)) (CoZ.add p q).2 (P + Q) := by
  obtain ⟨nonzero, x₁, y₁, h₁, rfl, rfl⟩ := first
  obtain ⟨_, x₂, y₂, h₂, rfl, rfl⟩ := second
  have different : x₁ ≠ x₂ := fun same => apart (by rw [same]; rfl)
  have scale := mul_ne_zero nonzero (sub_ne_zero.mpr (Ne.symm apart))
  refine ⟨⟨scale, x₁, y₁, h₁, rfl, ?_⟩, ⟨scale, _, _, _, Point.add_of_X_ne different, ?_⟩⟩
  · ext <;> simp only [CoZ.add, CoZ.rescale] <;> ring
  · have difference : x₁ - x₂ ≠ 0 := sub_ne_zero.mpr different
    rw [slope_of_X_ne different]
    ext <;>
      · simp only [CoZ.add, CoZ.rescale, addX, addY, negAddY, negY, shortCurve]
        field_simp
        ring

/-- The conjugate addition is the addition of both the second point and its opposite. -/
theorem addConjugate (first : Scaled z p P) (second : Scaled z q Q) (apart : p.1 ≠ q.1) :
    Scaled (z * (q.1 - p.1)) (CoZ.addConjugate p q).1 (P - Q) ∧
      Scaled (z * (q.1 - p.1)) (CoZ.addConjugate p q).2 (P + Q) := by
  have difference : (CoZ.addConjugate p q).1 = (CoZ.add p (q.1, -q.2)).2 := by
    ext <;> simp only [CoZ.addConjugate, CoZ.add] <;> ring
  have sum : (CoZ.addConjugate p q).2 = (CoZ.add p q).2 := by
    ext <;> simp only [CoZ.addConjugate, CoZ.add] <;> ring
  rw [difference, sum, sub_eq_add_neg P Q]
  exact ⟨(first.add second.neg apart).2, (first.add second apart).2⟩

theorem double (scaled : Scaled z p P) (nonzero : p.2 ≠ 0) (two : (2 : F) ≠ 0) :
    Scaled (p.2 * z) (CoZ.double a z p) (P + P) := by
  obtain ⟨denominator, x, y, nonsingular, rfl, rfl⟩ := scaled
  have ordinate : y ≠ 0 := fun zero => nonzero (by simp [CoZ.rescale, zero])
  have twice : y ≠ (shortCurve a b).negY x y := by
    intro same
    simp only [negY, shortCurve] at same
    have zero : 2 * y = 0 := by linear_combination same
    exact ordinate ((mul_eq_zero.mp zero).resolve_left two)
  refine ⟨mul_ne_zero nonzero denominator, _, _, _, Point.add_self_of_Y_ne twice, ?_⟩
  have tangent : y - (shortCurve a b).negY x y = 2 * y := by
    simp only [negY, shortCurve]
    ring
  rw [slope_of_Y_ne rfl twice, tangent]
  ext <;>
    · simp only [CoZ.double, CoZ.rescale, addX, addY, negAddY, negY, shortCurve]
      field_simp
      ring

end Group

end Scaled

end Foundation.CoZ
