import Mathlib.Data.List.Forall2
import PocketCalc.Proofs.Decimal.Places
import PocketCalc.Proofs.Graph.Grid

/-!
# The points of a curve

* `pointAt?_eq_some` — a point is drawn where the formula has a finite value;
* `sample_ordered` — over a range with a finite span, the points are in order, and there is one for each point of the grid at
  which the formula has a finite value;
* `isFinite_points` — what is drawn is finite, but for the points of a grid that leaves the finite numbers.
-/

namespace PocketCalc

open Binary64 Float.Model.UnpackedFloat

variable {e : Formula} {r : Range} {p : Point} {x : Binary64}

/-- The formula has the finite value `y` at `x`. -/
def HasValueAt (e : Formula) (x y : Binary64) : Prop := e.evaluate (some x) = .ok y ∧ y.isFinite = true

/-- A point is drawn where the formula has a finite value, with both coordinates rounded. -/
theorem pointAt?_eq_some :
    pointAt? e x = some p ↔ ∃ y, HasValueAt e x y ∧ p = ⟨x.toPlaces placesOfX, y.toPlaces placesOfY⟩ := by
  unfold pointAt? HasValueAt
  generalize e.evaluate (some x) = result
  cases result with
  | error err => exact ⟨nofun, fun ⟨_, ⟨hy, _⟩, _⟩ => nomatch hy⟩
  | ok y =>
    simp only [Except.ok.injEq]
    constructor
    · intro h
      split at h
      next hfinite => exact ⟨y, ⟨rfl, hfinite⟩, (Option.some.inj h).symm⟩
      next => cases h
    · rintro ⟨y', ⟨rfl, hfinite⟩, rfl⟩
      exact if_pos hfinite

theorem Range.Sound.sample_eq (h : r.Sound) (e : Formula) :
    sample e r = (List.range r.points).filterMap fun i => pointAt? e (r.abscissa i) := by
  rw [sample, h.grid_eq, List.filterMap_map]
  rfl

/-- What is left of a list, and where it comes from. -/
theorem forall₂_filterMap {α β : Type} (f : α → Option β) (l : List α) :
    List.Forall₂ (fun a b => f a = some b) (l.filter fun a => (f a).isSome) (l.filterMap f) := by
  induction l with
  | nil => exact .nil
  | cons a l ih =>
    cases h : f a with
    | none => rwa [List.filter_cons_of_neg (by simp [h]), List.filterMap_cons_none h]
    | some b =>
      rw [List.filter_cons_of_pos (by simp [h]), List.filterMap_cons_some h]
      exact .cons h ih

theorem Range.Sound.mem_sample (h : r.Sound) :
    p ∈ sample e r ↔ ∃ i < r.points, ∃ y, HasValueAt e (r.abscissa i) y ∧
      p = ⟨(r.abscissa i).toPlaces placesOfX, y.toPlaces placesOfY⟩ := by
  simp only [h.sample_eq, List.mem_filterMap, List.mem_range, pointAt?_eq_some]

/-- The points of a curve are in order, as those of the grid are. -/
theorem Range.Sound.pairwise_sample (h : r.Sound) (hspan : (r.high - r.low).isFinite = true) (e : Formula) :
    (sample e r).Pairwise fun p q => p.x.le q.x = true := by
  have hgrid : (List.range r.points).Pairwise fun i j => (r.abscissa i).le (r.abscissa j) = true :=
    List.pairwise_lt_range.imp_of_mem fun _ hj hij => h.abscissa_le hspan hij.le (List.mem_range.1 hj)
  rw [h.sample_eq]
  refine List.Pairwise.filterMap _ (fun i j hij p hp q hq => ?_) hgrid
  obtain ⟨-, -, rfl⟩ := pointAt?_eq_some.1 hp
  obtain ⟨-, -, rfl⟩ := pointAt?_eq_some.1 hq
  exact toPlaces_le hij _

/-- **The points of a curve are in order, and each stands for a point of the grid**, where the span of the range is finite:
the horizontal coordinates do not decrease and none is a NaN, and the curve has one point, in their order, for each number of a
point of the grid at which the formula has a finite value. -/
theorem sample_ordered (h : r.fault? = none) (hspan : (r.high - r.low).isFinite = true) (e : Formula) :
    (sample e r).Pairwise (fun p q => p.x.le q.x = true) ∧ (∀ p ∈ sample e r, p.x.isNaN = false) ∧
      ∃ is : List ℕ, is.Pairwise (· < ·) ∧ (∀ i, i ∈ is ↔ i < r.points ∧ ∃ y, HasValueAt e (r.abscissa i) y) ∧
        List.Forall₂ (fun i p => ∃ y, HasValueAt e (r.abscissa i) y ∧
          p = ⟨(r.abscissa i).toPlaces placesOfX, y.toPlaces placesOfY⟩) is (sample e r) := by
  have hsound := Range.sound_of_fault? h
  refine ⟨hsound.pairwise_sample hspan e, fun p hp => ?_, ?_⟩
  · obtain ⟨i, hi, y, -, rfl⟩ := hsound.mem_sample.1 hp
    have hle := hsound.abscissa_le hspan le_rfl hi
    exact (isNaN_toPlaces _ _).trans (isNaN_of_le hle).1
  · refine ⟨(List.range r.points).filter fun i => (pointAt? e (r.abscissa i)).isSome, ?_, fun i => ?_, ?_⟩
    · exact List.pairwise_lt_range.filter _
    · simp only [List.mem_filter, List.mem_range, Option.isSome_iff_exists, pointAt?_eq_some]
      exact and_congr_right fun _ => ⟨fun ⟨_, y, hy, _⟩ => ⟨y, hy⟩, fun ⟨y, hy⟩ => ⟨_, y, hy, rfl⟩⟩
    · rw [hsound.sample_eq]
      have hpoints := forall₂_filterMap (fun i => pointAt? e (r.abscissa i)) (List.range r.points)
      exact hpoints.imp fun _ _ hp => pointAt?_eq_some.1 hp

/-- Over a range up to the greatest number, `1 / x` has a point for each point of the grid but the first. -/
theorem sample_ordered_greatest :
    let r : Range := ⟨0, ofScaled false (2 ^ 53 - 1) 971, 3⟩
    let e : Formula := .binary .div (.number 1) .x
    r.fault? = none ∧ (r.high - r.low).isFinite = true ∧ (sample e r).Pairwise (fun p q => p.x.le q.x = true) ∧
      (∀ p ∈ sample e r, p.x.isNaN = false) ∧
      ∃ is : List ℕ, is.Pairwise (· < ·) ∧ (∀ i, i ∈ is ↔ i < 3 ∧ ∃ y, HasValueAt e (r.abscissa i) y) ∧
        List.Forall₂ (fun i p => ∃ y, HasValueAt e (r.abscissa i) y ∧
          p = ⟨(r.abscissa i).toPlaces placesOfX, y.toPlaces placesOfY⟩) is (sample e r) ∧ is.length = 2 := by
  intro r e
  have hfault : r.fault? = none := by decide +kernel
  have hspan : (r.high - r.low).isFinite = true := by decide +kernel
  have hlength : (sample e r).length = 2 := by decide +kernel
  obtain ⟨hordered, hnumbers, is, hincreasing, hmem, hpoints⟩ := sample_ordered hfault hspan e
  exact ⟨hfault, hspan, hordered, hnumbers, is, hincreasing, hmem, hpoints, hpoints.length_eq.trans hlength⟩

/-! ## Points that are not finite -/

/-- A curve is drawn of some formula. -/
theorem exists_points_ofText (t : Text) (r : Range) : ∃ e, (Curve.ofText t r).points = sample e r := by
  unfold Curve.ofText
  split
  next e _ => exact ⟨e, rfl⟩
  next => exact ⟨Curve.fallback, rfl⟩

theorem isFinite_y (hp : p ∈ sample e r) : p.y.isFinite = true := by
  obtain ⟨x, -, hx⟩ := List.mem_filterMap.1 hp
  obtain ⟨y, ⟨-, hy⟩, rfl⟩ := pointAt?_eq_some.1 hx
  exact (isFinite_toPlaces _ _).trans hy

/-- The curve of a number has all points of the grid. -/
theorem Range.Sound.mem_points_one (h : r.Sound) {i : ℕ} (hi : i < r.points) :
    ∃ p ∈ (Curve.ofText "1".toList r).points, p.x = (r.abscissa i).toPlaces placesOfX := by
  have hparse : Formula.parse "1".toList = .ok (.number 1) := by decide +kernel
  have hpoints : (Curve.ofText "1".toList r).points = sample (.number 1) r := by
    unfold Curve.ofText
    rw [hparse]
  have hvalue : HasValueAt (.number 1) (r.abscissa i) 1 := ⟨rfl, rfl⟩
  exact ⟨_, hpoints ▸ h.mem_sample.2 ⟨i, hi, 1, hvalue, rfl⟩, rfl⟩

/-- **What is drawn is finite, as long as the grid is.** Vertical coordinates are always finite. Horizontal ones are finite for
every text exactly if the last point of the grid is, which it is if the ends are at most `2 ^ 1021` away from zero. -/
theorem isFinite_points (h : r.fault? = none) :
    (∀ t, ∀ p ∈ (Curve.ofText t r).points, p.y.isFinite = true) ∧
      ((∀ t, ∀ p ∈ (Curve.ofText t r).points, p.x.isFinite = true) ↔ (r.abscissa (r.points - 1)).isFinite = true) ∧
      (r.low.distance ≤ 2 ^ (1021 : ℤ) → r.high.distance ≤ 2 ^ (1021 : ℤ) →
        (r.abscissa (r.points - 1)).isFinite = true) := by
  have hsound := Range.sound_of_fault? h
  have htwo := hsound.two_le
  refine ⟨fun t p hp => ?_, ⟨fun hall => ?_, fun hlast t p hp => ?_⟩, hsound.isFinite_last⟩
  · obtain ⟨e, he⟩ := exists_points_ofText t r
    rw [he] at hp
    exact isFinite_y hp
  · obtain ⟨p, hp, hx⟩ := hsound.mem_points_one (show r.points - 1 < r.points by omega)
    have hfinite := hall _ p hp
    rwa [hx, isFinite_toPlaces] at hfinite
  · obtain ⟨e, he⟩ := exists_points_ofText t r
    rw [he] at hp
    obtain ⟨i, hi, y, -, rfl⟩ := hsound.mem_sample.1 hp
    exact (isFinite_toPlaces _ _).trans (hsound.isFinite_abscissa hlast hi)

/-- The ends may be farther away from zero, as long as the span is a number. -/
theorem isFinite_points_widest :
    let r : Range := ⟨ofScaled true 1 1022, ofScaled false 1 1022, 10000⟩
    r.fault? = none ∧ ∀ t, ∀ p ∈ (Curve.ofText t r).points, p.x.isFinite = true ∧ p.y.isFinite = true := by
  intro r
  have hfault : r.fault? = none := by decide +kernel
  have hlast : (r.abscissa 9999).isFinite = true := by decide +kernel
  obtain ⟨hy, hx, -⟩ := isFinite_points hfault
  exact ⟨hfault, fun t p hp => ⟨hx.2 hlast t p hp, hy t p hp⟩⟩

/-- Over a range with which nothing is wrong, but whose span is infinite, the grid begins with a NaN and goes on with
infinities. -/
theorem points_beyond_numbers :
    let r : Range := ⟨-Decimal.toBinary64 ⟨1, 308⟩, Decimal.toBinary64 ⟨1, 308⟩, 3⟩
    r.fault? = none ∧ (Curve.ofText "1".toList r).points = [⟨.nan, 1⟩, ⟨.infinity, 1⟩, ⟨.infinity, 1⟩] := by
  decide +kernel

end PocketCalc
