import FourFunction.Proofs.NearestNumber
import FourFunction.Proofs.Numerals

/-!
# The fewest digits that read back

No decimal that reads back as a number has fewer digits than the shortest one of it. What reads back is
convex, so a grid that holds a decimal reading back has one next to the value. The grids are tried from
the one above the value down, and the first that succeeds gives as many digits as grids were left behind.
A decimal with fewer digits would lie on one of these, or below all values that have its leading digit.
-/

namespace FourFunction

open Binary64

namespace Decimal

/-! ### Counting digits -/

def digitCount (n : Nat) : Nat :=
  (wholeText n).length

theorem digitCount_pos (n : Nat) : 0 < digitCount n :=
  List.length_pos_iff.mpr (wholeText_ne_nil n)

theorem digitCount_le_iff {n k : Nat} (hk : 0 < k) : digitCount n ≤ k ↔ n < 10 ^ k :=
  Nat.length_toDigits_le_iff (by decide) hk

theorem lt_ten_pow_digitCount (n : Nat) : n < 10 ^ digitCount n :=
  (digitCount_le_iff (digitCount_pos n)).mp (le_refl _)

theorem ten_pow_le {n : Nat} (hn : n ≠ 0) : 10 ^ (digitCount n - 1) ≤ n := by
  rcases Nat.eq_zero_or_pos (digitCount n - 1) with hone | hmore
  · rw [hone]
    exact Nat.one_le_iff_ne_zero.mpr hn
  · by_contra hless
    have hcount := (digitCount_le_iff hmore).mpr (not_le.mp hless)
    omega

theorem ten_zpow_pos (exponent : Int) : (0 : ℚ) < 10 ^ exponent :=
  zpow_pos (by norm_num) exponent

theorem ten_zpow_split (exponent : Int) (n : Nat) : (10 : ℚ) ^ exponent = 10 ^ n * 10 ^ (exponent - n) := by
  rw [← zpow_natCast, ← zpow_add₀ (by norm_num), add_sub_cancel]

theorem value_lt_ten_zpow (d : Decimal) : d.value < 10 ^ (d.exponent + digitCount d.coefficient) := by
  have hcoefficient : (d.coefficient : ℚ) < (10 ^ digitCount d.coefficient : Nat) :=
    Nat.cast_lt.mpr (lt_ten_pow_digitCount _)
  rw [Nat.cast_pow, Nat.cast_ofNat] at hcoefficient
  rw [value, zpow_add₀ (by norm_num), zpow_natCast, mul_comm]
  exact mul_lt_mul_of_pos_left hcoefficient (ten_zpow_pos _)

theorem ten_zpow_le_value {d : Decimal} (hne : d.coefficient ≠ 0) :
    (10 : ℚ) ^ (d.exponent + (digitCount d.coefficient - 1)) ≤ d.value := by
  have hpos := digitCount_pos d.coefficient
  have hcount : (digitCount d.coefficient - 1 : Int) = (digitCount d.coefficient - 1 : Nat) := by omega
  have hcoefficient : ((10 ^ (digitCount d.coefficient - 1) : Nat) : ℚ) ≤ d.coefficient :=
    Nat.cast_le.mpr (ten_pow_le hne)
  rw [Nat.cast_pow, Nat.cast_ofNat] at hcoefficient
  rw [value, hcount, zpow_add₀ (by norm_num), zpow_natCast, mul_comm]
  exact mul_le_mul_of_nonneg_right hcoefficient (ten_zpow_pos _).le

/-! ### The neighbours on a grid -/

/-- The value of a rank, rounded down on the grid of an exponent. -/
def gridFloor (rank : Nat) (exponent : Int) : Nat :=
  units rank * powerOfTen (-exponent).toNat / (unitsPerOne * powerOfTen exponent.toNat)

theorem magnitude_div_ten_zpow (rank : Nat) (exponent : Int) :
    magnitude rank / 10 ^ exponent =
      (units rank * powerOfTen (-exponent).toNat : Nat) / (unitsPerOne * powerOfTen exponent.toNat : Nat) := by
  rw [magnitude, ten_zpow_eq_div, div_div_div_eq, Nat.cast_mul, Nat.cast_mul]

theorem floor_magnitude (rank : Nat) (exponent : Int) :
    ⌊magnitude rank / 10 ^ exponent⌋₊ = gridFloor rank exponent := by
  rw [magnitude_div_ten_zpow, Nat.floor_div_eq_div, gridFloor]

theorem gridFloor_le (rank : Nat) (exponent : Int) :
    (gridFloor rank exponent * 10 ^ exponent : ℚ) ≤ magnitude rank := by
  have hpower := ten_zpow_pos exponent
  rw [← le_div_iff₀ hpower, ← floor_magnitude]
  exact Nat.floor_le (div_nonneg (magnitude_nonneg rank) hpower.le)

theorem lt_gridFloor_add_one (rank : Nat) (exponent : Int) :
    magnitude rank < (gridFloor rank exponent + 1) * 10 ^ exponent := by
  rw [← div_lt_iff₀ (ten_zpow_pos exponent), ← floor_magnitude]
  exact Nat.lt_floor_add_one _

theorem value_exact_eq (rank : Nat) : (exact rank).value = magnitude rank := by
  rw [magnitude, eq_div_iff cast_unitsPerOne_pos.ne', value_exact]

/-- The neighbour that is found is one of the two, and if none is found neither reads back. -/
theorem neighbour?_cases (rank : Nat) (exponent : Int) :
    let below : Decimal := ⟨gridFloor rank exponent, exponent⟩
    let above : Decimal := ⟨gridFloor rank exponent + 1, exponent⟩
    neighbour? rank exponent = some below ∨ neighbour? rank exponent = some above ∨
      neighbour? rank exponent = none ∧ below.rank ≠ rank ∧ above.rank ≠ rank := by
  intro below above
  rw [neighbour?]
  split
  · exact .inr (.inl rfl)
  · rename_i habove
    split
    · exact .inl rfl
    · rename_i hbelow
      exact .inr (.inr ⟨rfl, hbelow, fun hread => habove ⟨hread, .inl hbelow⟩⟩)

section

variable {rank : Nat} {exponent : Int}

theorem coefficient_of_neighbour? {d : Decimal} (hfound : neighbour? rank exponent = some d) :
    d.exponent = exponent ∧ d.coefficient ≤ gridFloor rank exponent + 1 := by
  rcases neighbour?_cases rank exponent with hbelow | habove | ⟨hnone, _⟩
  · obtain rfl := Option.some.inj (hbelow.symm.trans hfound)
    exact ⟨rfl, Nat.le_succ _⟩
  · obtain rfl := Option.some.inj (habove.symm.trans hfound)
    exact ⟨rfl, le_refl _⟩
  · cases hnone.symm.trans hfound

/-- The decimal on another grid. -/
def onGrid (d : Decimal) (exponent : Int) : Decimal :=
  ⟨d.coefficient * powerOfTen (d.exponent - exponent).toNat, exponent⟩

theorem value_onGrid {d : Decimal} (hfiner : exponent ≤ d.exponent) : (d.onGrid exponent).value = d.value := by
  have hsplit : (10 : ℚ) ^ d.exponent = 10 ^ (d.exponent - exponent).toNat * 10 ^ exponent := by
    rw [← zpow_natCast, ← zpow_add₀ (by norm_num)]
    congr 1
    omega
  rw [value, value, onGrid, hsplit, Nat.cast_mul, cast_powerOfTen, mul_assoc]

theorem value_mono (exponent : Int) : Monotone fun coefficient : Nat => value ⟨coefficient, exponent⟩ := by
  intro left right hle
  exact mul_le_mul_of_nonneg_right (Nat.cast_le.mpr hle) (ten_zpow_pos exponent).le

/-- A grid that holds a decimal that reads back has a neighbour that does. -/
theorem neighbour?_ne_none {d : Decimal} (hrank : rank < infinityRank) (hd : d.rank = rank)
    (hfiner : exponent ≤ d.exponent) : neighbour? rank exponent ≠ none := by
  intro hnone
  have hexact : (exact rank).rank = rank := rank_exact hrank
  have hread : (d.onGrid exponent).rank = rank := (rank_congr (value_onGrid hfiner)).trans hd
  have hfloor : value ⟨gridFloor rank exponent, exponent⟩ ≤ (exact rank).value := by
    rw [value_exact_eq]
    exact gridFloor_le rank exponent
  have hnext : (exact rank).value ≤ value ⟨gridFloor rank exponent + 1, exponent⟩ := by
    rw [value_exact_eq, value, Nat.cast_add_one]
    exact (lt_gridFloor_add_one rank exponent).le
  rcases neighbour?_cases rank exponent with hbelow | habove | ⟨_, hbelow, habove⟩
  · cases hbelow.symm.trans hnone
  · cases habove.symm.trans hnone
  · rcases Nat.lt_or_ge (gridFloor rank exponent) (d.onGrid exponent).coefficient with hgreater | hless
    · apply habove
      exact (rank_of_between (hexact.trans hread.symm) hnext (value_mono exponent hgreater)).trans hread
    · apply hbelow
      exact (rank_of_between (hread.trans hexact.symm) (value_mono exponent hless) hfloor).trans hexact

end

/-! ### The leading exponent -/

/-- The least number is more than one in this place. -/
theorem gridFloor_ne_zero {rank : Nat} (hne : rank ≠ 0) : gridFloor rank (-324) ≠ 0 := by
  have hone : unitsPerOne * powerOfTen (-324 : Int).toNat ≤ 1 * powerOfTen (-(-324) : Int).toNat := by
    decide +kernel
  have hunits : 1 ≤ units rank := Nat.one_le_iff_ne_zero.mpr (units_ne_zero hne)
  have hpos : 0 < unitsPerOne * powerOfTen (-324 : Int).toNat :=
    Nat.mul_pos unitsPerOne_pos (powerOfTen_pos _)
  exact (Nat.div_pos (hone.trans (Nat.mul_le_mul_right _ hunits)) hpos).ne'

theorem leadingExponent_eq (rank : Nat) :
    leadingExponent rank = digitCount (gridFloor rank (-324)) - (324 : Nat) := by
  have hone : powerOfTen (-324 : Int).toNat = 1 := powerOfTen_zero
  rw [leadingExponent, digitCount, gridFloor, hone, Nat.mul_one]
  rfl

theorem neg_324_lt_leadingExponent (rank : Nat) : -324 < leadingExponent rank := by
  have hpos := digitCount_pos (gridFloor rank (-324))
  rw [leadingExponent_eq]
  omega

theorem ten_zpow_leadingExponent (rank : Nat) (back : Int) :
    (10 : ℚ) ^ (leadingExponent rank - back) =
      10 ^ (digitCount (gridFloor rank (-324)) - back) * 10 ^ (-324 : Int) := by
  rw [leadingExponent_eq, ← zpow_add₀ (by norm_num)]
  congr 1
  omega

theorem ten_zpow_le_magnitude {rank : Nat} (hne : rank ≠ 0) :
    (10 : ℚ) ^ (leadingExponent rank - 1) ≤ magnitude rank := by
  have hcount : (digitCount (gridFloor rank (-324)) - 1 : Int) = (digitCount (gridFloor rank (-324)) - 1 : Nat) := by
    have hpos := digitCount_pos (gridFloor rank (-324))
    omega
  have hlow : ((10 ^ (digitCount (gridFloor rank (-324)) - 1) : Nat) : ℚ) ≤ gridFloor rank (-324) :=
    Nat.cast_le.mpr (ten_pow_le (gridFloor_ne_zero hne))
  rw [ten_zpow_leadingExponent, hcount, zpow_natCast]
  rw [Nat.cast_pow, Nat.cast_ofNat] at hlow
  exact (mul_le_mul_of_nonneg_right hlow (ten_zpow_pos _).le).trans (gridFloor_le rank (-324))

theorem magnitude_lt_ten_zpow (rank : Nat) : magnitude rank < 10 ^ leadingExponent rank := by
  have hhigh : ((gridFloor rank (-324) + 1 : Nat) : ℚ) ≤ (10 ^ digitCount (gridFloor rank (-324)) : Nat) :=
    Nat.cast_le.mpr (lt_ten_pow_digitCount _)
  have hsplit := ten_zpow_leadingExponent rank 0
  rw [sub_zero, sub_zero, zpow_natCast] at hsplit
  rw [Nat.cast_pow, Nat.cast_ofNat, Nat.cast_add_one] at hhigh
  rw [hsplit]
  exact (lt_gridFloor_add_one rank (-324)).trans_le (mul_le_mul_of_nonneg_right hhigh (ten_zpow_pos _).le)

/-! ### The search -/

theorem exists_first_of_findSome? {α : Type} {f : Nat → Option α} {size : Nat} {found : α}
    (hsearch : (List.range size).findSome? f = some found) : ∃ n, f n = some found ∧ ∀ m < n, f m = none := by
  induction size with
  | zero => cases hsearch
  | succ size ih =>
    rw [List.range_succ, List.findSome?_append] at hsearch
    cases hbefore : (List.range size).findSome? f with
    | some other =>
      rw [hbefore] at hsearch
      exact ih (hbefore.trans hsearch)
    | none =>
      rw [hbefore] at hsearch
      refine ⟨size, by simpa using hsearch, fun m hm => ?_⟩
      exact List.findSome?_eq_none_iff.mp hbefore m (List.mem_range.mpr hm)

variable {rank : Nat}

/-- The shortest decimal is the neighbour on the first grid that has one. -/
theorem exists_first_neighbour? (hrank : rank < infinityRank) :
    ∃ n : Nat, neighbour? rank (leadingExponent rank - n) = some (shortest rank) ∧
      ∀ m : Nat, m < n → neighbour? rank (leadingExponent rank - m) = none := by
  rw [shortest]
  generalize hsearch : List.findSome? _ _ = found
  cases found with
  | some d => exact exists_first_of_findSome? hsearch
  | none =>
    have hleading := neg_324_lt_leadingExponent rank
    have hlast := List.findSome?_eq_none_iff.mp hsearch (leadingExponent rank + 1074).toNat
      (List.mem_range.mpr (by omega))
    have hexponent : leadingExponent rank - (leadingExponent rank + 1074).toNat ≤ (exact rank).exponent := by
      show _ ≤ (-1074 : Int)
      omega
    exact absurd hlast (neighbour?_ne_none hrank (rank_exact hrank) hexponent)

/-! ### The fewest digits -/

theorem coefficient_ne_zero {d : Decimal} (hd : d.rank ≠ 0) : d.coefficient ≠ 0 := by
  intro hzero
  exact hd (if_pos (.inl hzero))

/-- A decimal that reads back needs a digit for every grid that is left behind. -/
theorem exists_neighbour?_of_rank (hrank : rank < infinityRank) (hne : rank ≠ 0) {d : Decimal}
    (hd : d.rank = rank) :
    ∃ n ≤ digitCount d.coefficient, neighbour? rank (leadingExponent rank - n) ≠ none := by
  rcases le_or_gt (leadingExponent rank - digitCount d.coefficient) d.exponent with hfiner | hcoarser
  · exact ⟨_, le_refl _, neighbour?_ne_none hrank hd hfiner⟩
  · -- The digits end above the leading digit of the value, so the power of ten there reads back too.
    refine ⟨1, digitCount_pos _, ?_⟩
    let lead : Decimal := ⟨1, leadingExponent rank - 1⟩
    have hlead : lead.value = 10 ^ (leadingExponent rank - 1) := by
      rw [value, Nat.cast_one, one_mul]
    have hbelow : d.value ≤ lead.value := by
      rw [hlead]
      exact d.value_lt_ten_zpow.le.trans (zpow_le_zpow_right₀ (by norm_num) (by omega))
    have habove : lead.value ≤ (exact rank).value := by
      rw [hlead, value_exact_eq]
      exact ten_zpow_le_magnitude hne
    have hexact : (exact rank).rank = rank := rank_exact hrank
    have hread : lead.rank = rank := (rank_of_between (hd.trans hexact.symm) hbelow habove).trans hexact
    exact neighbour?_ne_none hrank hread (le_refl _)

theorem coefficient_shortest_le {n : Nat}
    (hfound : neighbour? rank (leadingExponent rank - n) = some (shortest rank)) :
    (shortest rank).coefficient ≤ 10 ^ n := by
  have hpower := ten_zpow_pos (leadingExponent rank - n)
  have hgrid := (gridFloor_le rank (leadingExponent rank - n)).trans_lt (magnitude_lt_ten_zpow rank)
  have hsplit := ten_zpow_split (leadingExponent rank) n
  rw [hsplit, mul_lt_mul_iff_left₀ hpower] at hgrid
  have hfloor : gridFloor rank (leadingExponent rank - n) < 10 ^ n := by exact_mod_cast hgrid
  exact (coefficient_of_neighbour? hfound).2.trans hfloor

/-- No decimal that reads back has fewer digits than the shortest one. -/
theorem digitCount_shortest_le (hrank : rank < infinityRank) (hne : rank ≠ 0) {d : Decimal} (hd : d.rank = rank) :
    digitCount (shortest rank).coefficient ≤ digitCount d.coefficient := by
  obtain ⟨n, hfound, hfirst⟩ := exists_first_neighbour? hrank
  obtain ⟨m, hm, hmNone⟩ := exists_neighbour?_of_rank hrank hne hd
  have hnm : n ≤ m := by
    by_contra hlt
    exact hmNone (hfirst m (not_le.mp hlt))
  have hle := coefficient_shortest_le hfound
  rcases Nat.eq_zero_or_pos n with rfl | hpos
  · have hone : digitCount (shortest rank).coefficient ≤ 1 := by
      rw [digitCount_le_iff Nat.one_pos]
      omega
    exact hone.trans (digitCount_pos _)
  · have hless : (shortest rank).coefficient < 10 ^ n := by
      apply lt_of_le_of_ne hle
      intro hpower
      -- A power of ten here is the one on the first grid.
      let lead : Decimal := ⟨1, leadingExponent rank⟩
      have hexponent := (coefficient_of_neighbour? hfound).1
      have hvalue : lead.value = (shortest rank).value := by
        have hcast : ((10 ^ n : Nat) : ℚ) = 10 ^ n := by rw [Nat.cast_pow, Nat.cast_ofNat]
        rw [value, value, hpower, hexponent, hcast, ← ten_zpow_split, Nat.cast_one, one_mul]
      have hread : lead.rank = rank := (rank_congr hvalue).trans (rank_shortest hrank)
      exact neighbour?_ne_none hrank hread (Int.sub_le_self _ (Int.natCast_nonneg 0)) (hfirst 0 hpos)
    exact ((digitCount_le_iff hpos).mpr hless).trans (hnm.trans hm)

/-- The shortest decimal does not end in a zero. -/
theorem coefficient_shortest_mod (hrank : rank < infinityRank) (hne : rank ≠ 0) :
    (shortest rank).coefficient % 10 ≠ 0 := by
  intro hzero
  have hten : (shortest rank).coefficient = 10 * ((shortest rank).coefficient / 10) := by omega
  let shorter : Decimal := ⟨(shortest rank).coefficient / 10, (shortest rank).exponent + 1⟩
  have hvalue : shorter.value = (shortest rank).value := by
    rw [value, value, zpow_add₀ (by norm_num), zpow_one, hten]
    push_cast
    ring
  have hread : shorter.rank = rank := (rank_congr hvalue).trans (rank_shortest hrank)
  have hcount : digitCount (shortest rank).coefficient ≤ digitCount shorter.coefficient :=
    digitCount_shortest_le hrank hne hread
  have hlow : 10 ^ (digitCount shorter.coefficient - 1) ≤ shorter.coefficient :=
    ten_pow_le (coefficient_ne_zero (hread.trans_ne hne))
  have hhigh : (shortest rank).coefficient < 10 ^ digitCount shorter.coefficient :=
    (digitCount_le_iff (digitCount_pos _)).mp hcount
  have hpower : 10 ^ digitCount shorter.coefficient = 10 * 10 ^ (digitCount shorter.coefficient - 1) := by
    rw [← Nat.pow_succ', Nat.succ_eq_add_one, Nat.sub_add_cancel (digitCount_pos _)]
  have hshorter : (shortest rank).coefficient = 10 * shorter.coefficient := hten
  omega

end Decimal

end FourFunction
