import BoundedPlanning.Encoding.Entity
import Mathlib.Tactic.Linarith
import Mathlib.Tactic.Ring

namespace BoundedPlanning

theorem isqrt_bounds (n : Nat) :
    isqrt n * isqrt n ≤ n ∧ n < (isqrt n + 1) * (isqrt n + 1) := by
  fun_induction isqrt n with
  | case1 n hn =>
      have hcases : n = 0 ∨ n = 1 := by omega
      rcases hcases with rfl | rfl <;> decide
  | case2 n hn half hle ih =>
      refine ⟨hle, ?_⟩
      -- the two low bits of `n` stay below the next square
      have hquarter : n / 4 + 1 ≤ (isqrt (n / 4) + 1) * (isqrt (n / 4) + 1) := ih.2
      have hn4 : n < 4 * (n / 4 + 1) := by omega
      calc
        n < 4 * (n / 4 + 1) := hn4
        _ ≤ 4 * ((isqrt (n / 4) + 1) * (isqrt (n / 4) + 1)) :=
          Nat.mul_le_mul_left 4 hquarter
        _ = (half + 1 + 1) * (half + 1 + 1) := by ring
  | case3 n hn half hlt ih =>
      refine ⟨?_, Nat.lt_of_not_le hlt⟩
      calc
        half * half = 4 * (isqrt (n / 4) * isqrt (n / 4)) := by ring
        _ ≤ 4 * (n / 4) := Nat.mul_le_mul_left 4 ih.1
        _ ≤ n := Nat.mul_div_le n 4

theorem isqrt_eq {n root : Nat} (hle : root * root ≤ n) (hlt : n < (root + 1) * (root + 1)) :
    isqrt n = root := by
  obtain ⟨hle', hlt'⟩ := isqrt_bounds n
  rcases Nat.lt_trichotomy (isqrt n) root with h | h | h
  · have := Nat.mul_le_mul (Nat.succ_le_of_lt h) (Nat.succ_le_of_lt h)
    simp only [Nat.succ_eq_add_one] at this
    omega
  · exact h
  · have := Nat.mul_le_mul (Nat.succ_le_of_lt h) (Nat.succ_le_of_lt h)
    simp only [Nat.succ_eq_add_one] at this
    omega

/-- The key of a pair, however large. -/
def shellKey (x y : Nat) : Nat := if x < y then y * y + x else x * x + x + y

/-- Nothing that a key is computed from is larger than the key, so a pair has no key only if its key
does not fit. -/
theorem pair_eq (x y : Nat) :
    pair x y = if shellKey x y < keyBound then some (shellKey x y) else none := by
  unfold pair shellKey boundedProduct? boundedSum?
  by_cases hxy : x < y
  · rw [if_pos hxy, if_pos hxy]
    generalize y * y = square
    by_cases hsquare : square < keyBound
    · rw [if_pos hsquare, Option.bind_some]
    · rw [if_neg hsquare, if_neg (by omega), Option.bind_none]
  · rw [if_neg hxy, if_neg hxy]
    generalize x * x = square
    by_cases hsquare : square < keyBound
    · rw [if_pos hsquare, Option.bind_some]
      by_cases hcorner : square + x < keyBound
      · rw [if_pos hcorner, Option.bind_some]
      · rw [if_neg hcorner, if_neg (by omega), Option.bind_none]
    · rw [if_neg hsquare, if_neg (by omega), Option.bind_none]

theorem pair_eq_some_iff {x y key : Nat} :
    pair x y = some key ↔ key = shellKey x y ∧ key < keyBound := by
  rw [pair_eq, Option.ite_none_right_eq_some, Option.some.injEq]
  constructor
  · rintro ⟨hfits, rfl⟩
    exact ⟨rfl, hfits⟩
  · rintro ⟨rfl, hfits⟩
    exact ⟨hfits, rfl⟩

theorem unpair_of_pair {x y key : Nat} (h : pair x y = some key) : unpair key = (x, y) := by
  obtain ⟨hkey, -⟩ := pair_eq_some_iff.mp h
  unfold shellKey at hkey
  unfold unpair
  by_cases hxy : x < y
  · rw [if_pos hxy] at hkey
    have hroot : isqrt key = y := isqrt_eq (by omega) (by nlinarith)
    have hrest : key - y * y = x := by omega
    simp [hroot, hrest, hxy]
  · rw [if_neg hxy] at hkey
    have hroot : isqrt key = x := isqrt_eq (by omega) (by nlinarith)
    have hrest : key - x * x = x + y := by omega
    simp [hroot, hrest]

theorem isSome_pair {x y : Nat} (hx : x < 4294967296) (hy : y < 4294967296) :
    (pair x y).isSome = true := by
  refine Option.isSome_iff_exists.mpr ⟨_, pair_eq_some_iff.mpr ⟨rfl, ?_⟩⟩
  unfold shellKey keyBound
  split <;> nlinarith

/-- Only numbers of 32 bits have a key. -/
theorem lt_of_pair {x y key : Nat} (h : pair x y = some key) : x < bound32 ∧ y < bound32 := by
  obtain ⟨rfl, hfits⟩ := pair_eq_some_iff.mp h
  unfold shellKey keyBound at hfits
  unfold bound32
  split at hfits
  · have hy : y < 4294967296 := by nlinarith
    omega
  · have hx : x < 4294967296 := by nlinarith
    omega

def difference? (a b : Nat) : Option Nat := if b ≤ a then some (a - b) else none

/-- The pair with the given key, if no product on the way exceeds the bound of keys and no
difference falls below 0. -/
def boundedUnpair? (key : Nat) : Option (Nat × Nat) :=
  let root := isqrt key
  (boundedProduct? root root).bind fun square =>
    (difference? key square).bind fun rest =>
      if rest < root then some (rest, root)
      else (difference? rest root).map fun second => (root, second)

theorem boundedUnpair?_eq {key : Nat} (hkey : key < keyBound) :
    boundedUnpair? key = some (unpair key) := by
  have hsquare := (isqrt_bounds key).1
  rw [boundedUnpair?, unpair, boundedProduct?, if_pos (hsquare.trans_lt hkey), Option.bind_some,
    difference?, if_pos hsquare, Option.bind_some]
  by_cases hrest : key - isqrt key * isqrt key < isqrt key
  · rw [if_pos hrest, if_pos hrest]
  · rw [if_neg hrest, if_neg hrest, difference?, if_pos (Nat.le_of_not_lt hrest), Option.map_some]

theorem shellKey_unpair (key : Nat) : shellKey (unpair key).1 (unpair key).2 = key := by
  obtain ⟨hle, hlt⟩ := isqrt_bounds key
  have hshell : (isqrt key + 1) * (isqrt key + 1) =
      isqrt key * isqrt key + isqrt key + isqrt key + 1 := by ring
  unfold unpair shellKey
  by_cases hrest : key - isqrt key * isqrt key < isqrt key
  · simp only [if_pos hrest]
    omega
  · have hcorner : ¬ isqrt key < key - isqrt key * isqrt key - isqrt key := by omega
    simp only [if_neg hrest, if_neg hcorner]
    omega

theorem pair_unpair {key : Nat} (hkey : key < keyBound) :
    pair (unpair key).1 (unpair key).2 = some key :=
  pair_eq_some_iff.mpr ⟨(shellKey_unpair key).symm, hkey⟩

theorem pair_eq_none_iff {x y : Nat} : pair x y = none ↔ bound32 ≤ max x y := by
  rw [← Option.not_isSome_iff_eq_none, ← Nat.not_lt, not_iff_not, max_lt_iff]
  constructor
  · intro h
    obtain ⟨key, hkey⟩ := Option.isSome_iff_exists.mp h
    exact lt_of_pair hkey
  · rintro ⟨hx, hy⟩
    exact isSome_pair hx hy

/-- Pairs of 32-bit numbers and keys correspond one to one, up to the highest number and the highest
key; no other pair has a key.  Whatever would fit is given out, and in neither direction a step
exceeds the bound of keys or falls below 0. -/
theorem pairing_bijective :
    (∀ x y, pair x y = none ↔ bound32 ≤ max x y) ∧
    (∀ x y, max x y < bound32 → ∃ key < keyBound, pair x y = some key ∧ unpair key = (x, y)) ∧
    (∀ x y, pair x y = if shellKey x y < keyBound then some (shellKey x y) else none) ∧
    ∀ key < keyBound, (unpair key).1 < bound32 ∧ (unpair key).2 < bound32 ∧
      boundedUnpair? key = some (unpair key) ∧
      pair (unpair key).1 (unpair key).2 = some key := by
  refine ⟨fun x y => pair_eq_none_iff, fun x y hmax => ?_, pair_eq, fun key hkey => ?_⟩
  · obtain ⟨hx, hy⟩ := max_lt_iff.mp hmax
    obtain ⟨key, hkey⟩ := Option.isSome_iff_exists.mp (isSome_pair hx hy)
    exact ⟨key, (pair_eq_some_iff.mp hkey).2, hkey, unpair_of_pair hkey⟩
  · obtain ⟨hx, hy⟩ := lt_of_pair (pair_unpair hkey)
    exact ⟨hx, hy, boundedUnpair?_eq hkey, pair_unpair hkey⟩

theorem pairing_bijective_highest :
    pair 4294967295 4294967295 = some 18446744073709551615 ∧
    unpair 18446744073709551615 = (4294967295, 4294967295) ∧
    boundedUnpair? 18446744073709551615 = some (4294967295, 4294967295) ∧
    pair 0 4294967296 = none := by
  obtain ⟨hnone, hpair, hexact, hkey⟩ := pairing_bijective
  have hhighest : pair 4294967295 4294967295 = some 18446744073709551615 := by
    rw [hexact]
    decide
  obtain ⟨key, -, hsome, hunpair⟩ := hpair 4294967295 4294967295 (by decide)
  obtain rfl := Option.some.inj (hhighest.symm.trans hsome)
  refine ⟨hhighest, hunpair, ?_, (hnone 0 4294967296).mpr (by decide)⟩
  rw [(hkey 18446744073709551615 (by decide)).2.2.1, hunpair]

namespace Entity

theorem ofStepKey_of_stepKey {entity : Entity} {step key : Nat}
    (h : entity.stepKey step = some key) : ofStepKey key = (entity, step) := by
  rw [ofStepKey, unpair_of_pair h, ofKey_key]

theorem isSome_stepKey {entity : Entity} {step : Nat} (hentity : entity.key < 4294967296)
    (hstep : step < 4294967296) : (entity.stepKey step).isSome = true :=
  isSome_pair hentity hstep

theorem isSome_stepKey_iff {entity : Entity} {step : Nat} :
    (entity.stepKey step).isSome = true ↔ entity.key < bound32 ∧ step < bound32 := by
  constructor
  · intro h
    obtain ⟨key, hkey⟩ := Option.isSome_iff_exists.mp h
    exact lt_of_pair hkey
  · rintro ⟨hentity, hstep⟩
    exact isSome_stepKey hentity hstep

theorem number_le_key (entity : Entity) : entity.number ≤ entity.key := by
  cases entity <;> simp only [number, key] <;> omega

/-- The entity and the step of a key were numbers of 32 bits when the key was made. -/
theorem ofStepKey?_of_stepKey {entity : Entity} {step key : Nat}
    (h : entity.stepKey step = some key) : ofStepKey? key = some (entity, step) := by
  obtain ⟨hentity, hstep⟩ := lt_of_pair h
  rw [ofStepKey?, ofStepKey_of_stepKey h]
  exact if_pos ⟨entity.number_le_key.trans_lt hentity, hstep⟩

end Entity

end BoundedPlanning
