import Mathlib.Algebra.Order.BigOperators.Group.List
import Mathlib.Algebra.Order.Ring.Nat
import Mathlib.Data.List.Sort
import Graft.Proofs.Nanoseconds
import Graft.Report

/-! # Statistics of reports

A report is the samples in order, whatever order they came in (`ofSamples?_eq_some_iff`), so its total,
average and median are told by the sorted list. In nanoseconds the total is the sum
(`Sorts.total?_eq`), the median is the middle sample (`Middle.median?_of_odd`) or half the sum of the two
middle samples (`Middle.median?_of_even`), and the average is the total over the number of samples
reduced to 32 bits (`Sorts.average?_eq`). The last is the mean only for fewer than `2 ^ 32` samples.
-/

set_option autoImplicit false

namespace Graft
open Duration

/-- The nanoseconds of all the durations together. -/
def Duration.totalNanos (ds : List Duration) : Nat := (ds.map toNanos).sum

theorem Duration.totalNanos_append (ds es : List Duration) :
    totalNanos (ds ++ es) = totalNanos ds + totalNanos es := by
  rw [totalNanos, List.map_append, List.sum_append, totalNanos, totalNanos]

theorem Duration.totalNanos_replicate (n : Nat) (d : Duration) :
    totalNanos (List.replicate n d) = n * d.toNanos := by
  rw [totalNanos, List.map_replicate, List.sum_replicate_nat]

theorem Duration.toNanos_le_totalNanos {d : Duration} {ds : List Duration} (h : d ∈ ds) :
    d.toNanos ≤ totalNanos ds :=
  List.le_sum_of_mem (List.mem_map_of_mem h)

theorem Duration.foldlM_add?_eq (start : Duration) (ds : List Duration) :
    ds.foldlM add? start = ofNanos? (start.toNanos + totalNanos ds) := by
  induction ds generalizing start with
  | nil =>
    rw [totalNanos, List.map_nil, List.sum_nil, Nat.add_zero, ofNanos?_toNanos]
    rfl
  | cons d ds ih =>
    have htotal : totalNanos (d :: ds) = d.toNanos + totalNanos ds := List.sum_cons
    rw [List.foldlM_cons, add?_eq, htotal, ← Nat.add_assoc]
    cases hsum : ofNanos? (start.toNanos + d.toNanos) with
    | none =>
      -- a sum that is too large on the way is too large in the end
      have hlarge := ofNanos?_eq_none_iff.mp hsum
      exact (ofNanos?_eq_none_iff.mpr (by omega)).symm
    | some sum =>
      rw [← ofNanos?_eq_some_iff.mp hsum]
      exact ih sum

namespace Report

/-! ## Samples in order -/

/-- The report has these samples, the shortest first. -/
structure Sorts (r : Report) (samples : List Duration) : Prop where
  perm : r.samples.Perm samples
  sorted : r.samples.Pairwise fun a b => a.toNanos ≤ b.toNanos

theorem sorts_mergeSort (samples : List Duration) : Sorts ⟨samples.mergeSort le⟩ samples where
  perm := List.mergeSort_perm samples le
  sorted := (List.pairwise_mergeSort le_trans le_total samples).imp fun {a b} h => (le_iff a b).mp h

theorem Sorts.unique {r r' : Report} {samples : List Duration} (h : r.Sorts samples)
    (h' : r'.Sorts samples) : r = r' := by
  have hsamples : r.samples = r'.samples :=
    (h.perm.trans h'.perm.symm).eq_of_pairwise
      (fun a b _ _ hab hba => toNanos_inj.mp (Nat.le_antisymm hab hba)) h.sorted h'.sorted
  cases r
  cases r'
  exact congrArg Report.mk hsamples

/-- There is a report exactly if there are samples, and it has them in order. -/
theorem ofSamples?_eq_some_iff {samples : List Duration} {r : Report} :
    ofSamples? samples = some r ↔ samples ≠ [] ∧ r.Sorts samples := by
  cases samples with
  | nil => simp [ofSamples?]
  | cons d samples =>
    rw [ofSamples?, Option.some_inj]
    · constructor
      · rintro rfl
        exact ⟨List.cons_ne_nil d samples, sorts_mergeSort _⟩
      · rintro ⟨-, h⟩
        exact (sorts_mergeSort _).unique h
    · exact List.cons_ne_nil d samples

theorem exists_ofSamples? {samples : List Duration} (h : samples ≠ []) :
    ∃ r, ofSamples? samples = some r ∧ r.Sorts samples :=
  ⟨_, ofSamples?_eq_some_iff.mpr ⟨h, sorts_mergeSort samples⟩, sorts_mergeSort samples⟩

namespace Sorts
variable {r : Report} {samples : List Duration} (h : r.Sorts samples)
include h

theorem runs_eq : r.runs = samples.length := h.perm.length_eq

theorem totalNanos_eq : totalNanos r.samples = totalNanos samples := (h.perm.map toNanos).sum_nat

theorem of_perm {others : List Duration} (hperm : others.Perm samples) : r.Sorts others :=
  ⟨h.perm.trans hperm.symm, h.sorted⟩

theorem toNanos_mono {i j : Nat} (hj : j < r.samples.length) (hij : i ≤ j) :
    (r.samples.get ⟨i, Nat.lt_of_le_of_lt hij hj⟩).toNanos ≤ (r.samples.get ⟨j, hj⟩).toNanos := by
  rcases Nat.eq_or_lt_of_le hij with rfl | hlt
  · exact Nat.le_refl _
  · exact List.pairwise_iff_getElem.mp h.sorted i j _ hj hlt

end Sorts

/-! ## Extremes -/

/-- The shortest and the longest of some durations. -/
structure Extremes (samples : List Duration) (least greatest : Duration) : Prop where
  least_mem : least ∈ samples
  greatest_mem : greatest ∈ samples
  least_le : ∀ d ∈ samples, least.toNanos ≤ d.toNanos
  le_greatest : ∀ d ∈ samples, d.toNanos ≤ greatest.toNanos

theorem Sorts.exists_extremes {r : Report} {samples : List Duration} (h : r.Sorts samples)
    (hne : samples ≠ []) : ∃ least greatest, Extremes samples least greatest := by
  have hlast : r.samples.length - 1 < r.samples.length := by
    have hpos := List.length_pos_of_ne_nil hne
    rw [h.perm.length_eq]
    omega
  have hindex : ∀ d ∈ samples, ∃ i, ∃ hi : i < r.samples.length, r.samples.get ⟨i, hi⟩ = d :=
    fun d hd => List.mem_iff_getElem.mp (h.perm.mem_iff.mpr hd)
  refine ⟨r.samples.get ⟨0, by omega⟩, r.samples.get ⟨_, hlast⟩, h.perm.mem_iff.mp (List.get_mem _ _),
    h.perm.mem_iff.mp (List.get_mem _ _), fun d hd => ?_, fun d hd => ?_⟩
  · obtain ⟨i, hi, rfl⟩ := hindex d hd
    exact h.toNanos_mono hi (Nat.zero_le i)
  · obtain ⟨i, hi, rfl⟩ := hindex d hd
    exact h.toNanos_mono hlast (by omega)

/-- The whole part of the mean of some durations is between their extremes. -/
theorem Extremes.mean {samples : List Duration} {least greatest : Duration}
    (h : Extremes samples least greatest) :
    least.toNanos ≤ totalNanos samples / samples.length ∧
      totalNanos samples / samples.length ≤ greatest.toNanos := by
  have hpos : 0 < samples.length := List.length_pos_of_mem h.least_mem
  have hlow := List.card_nsmul_le_sum (samples.map toNanos) least.toNanos (by simpa using h.least_le)
  have hhigh := List.sum_le_card_nsmul (samples.map toNanos) greatest.toNanos
    (by simpa using h.le_greatest)
  rw [List.length_map, nsmul_eq_mul, Nat.cast_id, Nat.mul_comm] at hlow hhigh
  exact ⟨(Nat.le_div_iff_mul_le hpos).mpr hlow, Nat.div_le_of_le_mul (by rwa [Nat.mul_comm])⟩

/-! ## Total and average -/

section
variable {r : Report} {samples : List Duration} (h : r.Sorts samples)
include h

theorem Sorts.total?_eq : r.total? = ofNanos? (totalNanos samples) := by
  have hzero : Duration.zero.toNanos = 0 := rfl
  rw [total?, foldlM_add?_eq, hzero, Nat.zero_add, h.totalNanos_eq]

/-- The divisor has 32 bits, and there is no average where it is zero. -/
theorem Sorts.average?_eq (hfits : totalNanos samples < limit) :
    r.average? = if samples.length % pow2 32 = 0 then none
      else ofNanos? (totalNanos samples / (samples.length % pow2 32)) := by
  obtain ⟨total, htotal, hnanos⟩ := exists_ofNanos? hfits
  rw [average?, h.total?_eq, htotal, h.runs_eq, Option.bind_eq_bind, Option.bind_some]
  split
  · next hzero => rw [hzero, div?_zero]
  · next hzero => rw [div?_eq total (Nat.pos_of_ne_zero hzero), hnanos]

end

/-! ## Middle and median -/

/-- The two samples in the middle, which are one if there is an odd number of samples. -/
structure Middle (r : Report) (lower upper : Duration) : Prop where
  lower_eq : r.samples[(r.runs - 1) / 2]? = some lower
  upper_eq : r.samples[r.runs / 2]? = some upper

theorem exists_middle {r : Report} (h : r.samples ≠ []) : ∃ lower upper, r.Middle lower upper := by
  have hpos := List.length_pos_of_ne_nil h
  have hlower : (r.runs - 1) / 2 < r.samples.length := by
    rw [runs]
    omega
  have hupper : r.runs / 2 < r.samples.length := by
    rw [runs]
    omega
  exact ⟨_, _, List.getElem?_eq_getElem hlower, List.getElem?_eq_getElem hupper⟩

theorem Middle.eq_of_odd {r : Report} {lower upper : Duration} (h : r.Middle lower upper)
    (hodd : r.runs % 2 = 1) : lower = upper := by
  have hsame : (r.runs - 1) / 2 = r.runs / 2 := by omega
  exact Option.some_inj.mp (h.lower_eq.symm.trans (hsame ▸ h.upper_eq))

theorem Middle.median?_of_odd {r : Report} {lower upper : Duration} (h : r.Middle lower upper)
    (hodd : r.runs % 2 = 1) : r.median? = some upper := by
  rw [median?, if_neg (by omega)]
  exact h.upper_eq

theorem Middle.median?_of_even {r : Report} {lower upper : Duration} (h : r.Middle lower upper)
    (hpos : 0 < r.runs) (heven : r.runs % 2 = 0) (hfits : lower.toNanos + upper.toNanos < limit) :
    r.median? = ofNanos? ((lower.toNanos + upper.toNanos) / 2) := by
  have hbefore : r.runs / 2 - 1 = (r.runs - 1) / 2 := by omega
  have hsum : ((lower.add? upper).bind fun sum => sum.div? 2) =
      ofNanos? ((lower.toNanos + upper.toNanos) / 2) := by
    obtain ⟨sum, hsum, hnanos⟩ := exists_ofNanos? hfits
    rw [add?_eq, hsum, Option.bind_some, div?_eq sum (by decide), hnanos]
  rw [median?, if_pos heven, hbefore, h.lower_eq, h.upper_eq]
  exact hsum

section
variable {r : Report} {samples : List Duration} (h : r.Sorts samples) {lower upper : Duration}
  (hmiddle : r.Middle lower upper)
include h hmiddle

theorem Sorts.lower_le_upper : lower.toNanos ≤ upper.toNanos := by
  obtain ⟨hi, rfl⟩ := List.getElem?_eq_some_iff.mp hmiddle.lower_eq
  obtain ⟨hj, rfl⟩ := List.getElem?_eq_some_iff.mp hmiddle.upper_eq
  exact h.toNanos_mono hj (by omega)

theorem Sorts.lower_add_upper_le (heven : r.runs % 2 = 0) (hpos : 0 < r.runs) :
    lower.toNanos + upper.toNanos ≤ totalNanos samples := by
  obtain ⟨hi, rfl⟩ := List.getElem?_eq_some_iff.mp hmiddle.lower_eq
  obtain ⟨hj, rfl⟩ := List.getElem?_eq_some_iff.mp hmiddle.upper_eq
  -- the two are in different halves of the sorted list, so each counts once
  have hfirst : r.samples[(r.runs - 1) / 2] ∈ r.samples.take (r.runs / 2) :=
    List.mem_take_iff_getElem.mpr ⟨(r.runs - 1) / 2, by omega, rfl⟩
  have hsecond : r.samples[r.runs / 2] ∈ r.samples.drop (r.runs / 2) :=
    List.mem_drop_iff_getElem.mpr ⟨0, by omega, by simp only [Nat.add_zero]⟩
  have hhalves := totalNanos_append (r.samples.take (r.runs / 2)) (r.samples.drop (r.runs / 2))
  rw [List.take_append_drop, h.totalNanos_eq] at hhalves
  rw [hhalves]
  exact Nat.add_le_add (toNanos_le_totalNanos hfirst) (toNanos_le_totalNanos hsecond)

end

/-- Samples up to a place of the sorted list are no longer than the one there. -/
theorem Sorts.lt_countP {r : Report} {samples : List Duration} (h : r.Sorts samples) {i : Nat}
    {d : Duration} (hd : r.samples[i]? = some d) :
    i < samples.countP (·.toNanos ≤ d.toNanos) := by
  obtain ⟨hi, rfl⟩ := List.getElem?_eq_some_iff.mp hd
  have hfront : (r.samples.take (i + 1)).countP (·.toNanos ≤ r.samples[i].toNanos) = i + 1 := by
    rw [List.countP_eq_length.mpr, List.length_take, Nat.min_eq_left hi]
    intro e he
    obtain ⟨j, hj, rfl⟩ := List.mem_take_iff_getElem.mp he
    rw [decide_eq_true_eq]
    exact h.toNanos_mono hi (by omega)
  have hall := (List.take_sublist (i + 1) r.samples).countP_le (p := (·.toNanos ≤ r.samples[i].toNanos))
  rw [hfront] at hall
  rw [← h.perm.countP_eq]
  exact hall

/-! ## Order statistics -/

/-- Samples whose sum is a duration have a report, the same for every order in which they come. Its total
is the exact sum. Its median is the middle sample of an odd number and the whole part of the mean of the
two middle samples of an even number; it is between these two, and between the shortest and the longest
sample, and half of the samples are no longer than the upper of the two. -/
theorem order_statistics (samples : List Duration) (hne : samples ≠ [])
    (hfits : totalNanos samples < limit) :
    ∃ r, ofSamples? samples = some r ∧ r.Sorts samples ∧
      (∀ others : List Duration, others.Perm samples → ofSamples? others = some r) ∧
      (∃ total, r.total? = some total ∧ total.toNanos = totalNanos samples) ∧
      ∃ lower upper median, r.Middle lower upper ∧ r.median? = some median ∧
        (samples.length % 2 = 1 → lower = upper ∧ median = upper) ∧
        (samples.length % 2 = 0 → median.toNanos = (lower.toNanos + upper.toNanos) / 2) ∧
        samples.length ≤ 2 * samples.countP (·.toNanos ≤ upper.toNanos) ∧
        (lower.toNanos ≤ median.toNanos ∧ median.toNanos ≤ upper.toNanos) ∧
        ∃ least greatest, Extremes samples least greatest ∧
          least.toNanos ≤ median.toNanos ∧ median.toNanos ≤ greatest.toNanos := by
  obtain ⟨r, hr, h⟩ := exists_ofSamples? hne
  have hruns := h.runs_eq
  have hpos : 0 < r.runs := hruns ▸ List.length_pos_of_ne_nil hne
  obtain ⟨lower, upper, hmiddle⟩ := exists_middle (List.ne_nil_of_length_pos hpos)
  have hle := h.lower_le_upper hmiddle
  obtain ⟨least, greatest, hextremes⟩ := h.exists_extremes hne
  have hlower : lower ∈ samples := h.perm.mem_iff.mp (List.mem_of_getElem? hmiddle.lower_eq)
  have hupper : upper ∈ samples := h.perm.mem_iff.mp (List.mem_of_getElem? hmiddle.upper_eq)
  have hcount := h.lt_countP hmiddle.upper_eq
  obtain ⟨median, hmedian, hodd, heven, hlow, hhigh⟩ : ∃ median, r.median? = some median ∧
      (r.runs % 2 = 1 → lower = upper ∧ median = upper) ∧
      (r.runs % 2 = 0 → median.toNanos = (lower.toNanos + upper.toNanos) / 2) ∧
      lower.toNanos ≤ median.toNanos ∧ median.toNanos ≤ upper.toNanos := by
    rcases Nat.mod_two_eq_zero_or_one r.runs with hparity | hparity
    · have hsum := Nat.lt_of_le_of_lt (h.lower_add_upper_le hmiddle hparity hpos) hfits
      obtain ⟨median, hmedian, hnanos⟩ :=
        exists_ofNanos? (Nat.lt_of_le_of_lt (Nat.div_le_self _ 2) hsum)
      refine ⟨median, (hmiddle.median?_of_even hpos hparity hsum).trans hmedian, fun hodd => ?_,
        fun _ => hnanos, ?_, ?_⟩ <;> omega
    · have hsame := hmiddle.eq_of_odd hparity
      refine ⟨upper, hmiddle.median?_of_odd hparity, fun _ => ⟨hsame, rfl⟩, fun heven => ?_, hle,
        Nat.le_refl _⟩
      omega
  rw [hruns] at hodd heven hcount
  refine ⟨r, hr, h, fun others hperm => ?_, ?_, lower, upper, median, hmiddle, hmedian, hodd, heven,
    by omega, ⟨hlow, hhigh⟩, least, greatest, hextremes,
    Nat.le_trans (hextremes.least_le lower hlower) hlow,
    Nat.le_trans hhigh (hextremes.le_greatest upper hupper)⟩
  · have hothers : others ≠ [] := fun hnil => hne (List.Perm.nil_eq (hnil ▸ hperm)).symm
    exact ofSamples?_eq_some_iff.mpr ⟨hothers, h.of_perm hperm⟩
  · rw [h.total?_eq]
    exact exists_ofNanos? hfits

/-- Four samples whose sum is not far from the largest duration. -/
def farSamples : List Duration :=
  [⟨pow2 62, 999999999, by decide, by decide⟩, ⟨1, 500000002, by decide, by decide⟩,
    ⟨0, 3, Duration.zero.secs_lt, by decide⟩, ⟨pow2 63, 0, by decide, Duration.zero.nanos_lt⟩]

/-- Half a nanosecond is dropped. -/
theorem order_statistics_far : farSamples ≠ [] ∧ totalNanos farSamples < limit ∧
    ∃ r median, ofSamples? farSamples = some r ∧ r.median? = some median ∧
      median.secs = pow2 61 + 1 ∧ median.nanos = 250000000 := by
  have hne : farSamples ≠ [] := List.cons_ne_nil _ _
  have hfits : totalNanos farSamples < limit := by decide
  obtain ⟨r, hr, hsorts, -, -, lower, upper, median, hmiddle, hmedian, -, heven, -⟩ :=
    order_statistics farSamples hne hfits
  have hsorted : Sorts ⟨[farSamples[2], farSamples[1], farSamples[0], farSamples[3]]⟩ farSamples :=
    ⟨by decide, by decide⟩
  cases hsorts.unique hsorted
  cases hmiddle.lower_eq
  cases hmiddle.upper_eq
  have hvalue : median = ⟨pow2 61 + 1, 250000000, by decide, by decide⟩ :=
    toNanos_inj.mp ((heven rfl).trans (by decide))
  exact ⟨hne, hfits, _, _, hr, hmedian, by rw [hvalue], by rw [hvalue]⟩

/-! ## The mean -/

/-- The average of fewer than `2 ^ 32` samples whose sum is a duration is the whole part of their mean,
and is between the shortest and the longest. For more samples only the last 32 bits of their number
count: the total is divided by these, and there is no average if they are zero. -/
theorem average?_exact (samples : List Duration) (hne : samples ≠ [])
    (hfits : totalNanos samples < limit) :
    ∃ r, ofSamples? samples = some r ∧
      (samples.length < pow2 32 → ∃ average, r.average? = some average ∧
        average.toNanos = totalNanos samples / samples.length ∧
        ∃ least greatest, Extremes samples least greatest ∧
          least.toNanos ≤ average.toNanos ∧ average.toNanos ≤ greatest.toNanos) ∧
      (r.average? = none ↔ pow2 32 ∣ samples.length) ∧
      ∀ average, r.average? = some average ↔ samples.length % pow2 32 ≠ 0 ∧
        average.toNanos = totalNanos samples / (samples.length % pow2 32) := by
  obtain ⟨r, hr, h⟩ := exists_ofSamples? hne
  have haverage := h.average?_eq hfits
  have hquotient : ∀ n, totalNanos samples / n < limit := fun n =>
    Nat.lt_of_le_of_lt (Nat.div_le_self _ n) hfits
  refine ⟨r, hr, fun hlength => ?_, ?_, fun average => ?_⟩
  · have hpos := List.length_pos_of_ne_nil hne
    rw [Nat.mod_eq_of_lt hlength, if_neg (Nat.ne_of_gt hpos)] at haverage
    obtain ⟨average, hsome, hnanos⟩ := exists_ofNanos? (hquotient samples.length)
    obtain ⟨least, greatest, hextremes⟩ := h.exists_extremes hne
    refine ⟨average, haverage.trans hsome, hnanos, least, greatest, hextremes, ?_⟩
    rw [hnanos]
    exact hextremes.mean
  · rw [haverage, Nat.dvd_iff_mod_eq_zero, ite_eq_left_iff, imp_iff_not_or, not_not]
    refine or_iff_left fun hnone => ?_
    exact absurd (hquotient _) (Nat.not_lt.mpr (ofNanos?_eq_none_iff.mp hnone))
  · rw [haverage]
    split
    · next hzero => simp [hzero]
    · next hzero => rw [ofNanos?_eq_some_iff, and_iff_right hzero]

def second : Duration := ⟨1, 0, by decide, Duration.zero.nanos_lt⟩

theorem average?_exact_thirds : totalNanos [second, second, .zero] < limit ∧
    ∃ r average, ofSamples? [second, second, .zero] = some r ∧ r.average? = some average ∧
      average.secs = 0 ∧ average.nanos = 666666666 := by
  have hfits : totalNanos [second, second, .zero] < limit := by decide
  obtain ⟨r, hr, hmean, -⟩ := average?_exact _ (List.cons_ne_nil _ _) hfits
  obtain ⟨average, haverage, hnanos, -⟩ := hmean (by decide)
  have hvalue : average = ⟨0, 666666666, by decide, by decide⟩ :=
    toNanos_inj.mp (hnanos.trans (by decide))
  exact ⟨hfits, r, average, hr, haverage, by rw [hvalue], by rw [hvalue]⟩

/-- As many samples of one second as 32 bits can tell apart have no average, and with one more sample the
average is more than a century. -/
theorem average?_of_many :
    (totalNanos (List.replicate (pow2 32) second) < limit ∧
      ∃ r, ofSamples? (List.replicate (pow2 32) second) = some r ∧ r.average? = none) ∧
    totalNanos (List.replicate (pow2 32 + 1) second) < limit ∧
      ∃ r average, ofSamples? (List.replicate (pow2 32 + 1) second) = some r ∧
        r.average? = some average ∧ average.secs = pow2 32 + 1 := by
  have hfits : totalNanos (List.replicate (pow2 32) second) < limit := by
    rw [totalNanos_replicate]
    decide
  have hfits' : totalNanos (List.replicate (pow2 32 + 1) second) < limit := by
    rw [totalNanos_replicate]
    decide
  have hne : List.replicate (pow2 32) second ≠ [] :=
    List.ne_nil_of_length_pos (by rw [List.length_replicate]; decide)
  have hne' : List.replicate (pow2 32 + 1) second ≠ [] :=
    List.ne_nil_of_length_pos (by rw [List.length_replicate]; decide)
  obtain ⟨r, hr, h⟩ := exists_ofSamples? hne
  obtain ⟨r', hr', h'⟩ := exists_ofSamples? hne'
  have haverage := h.average?_eq hfits
  have haverage' := h'.average?_eq hfits'
  rw [List.length_replicate, if_pos (by decide)] at haverage
  rw [List.length_replicate, if_neg (by decide), totalNanos_replicate] at haverage'
  have hvalue : ofNanos? ((pow2 32 + 1) * second.toNanos / ((pow2 32 + 1) % pow2 32)) =
      some ⟨pow2 32 + 1, 0, by decide, by decide⟩ := ofNanos?_eq_some_iff.mpr (by decide)
  exact ⟨⟨hfits, r, hr, haverage⟩, hfits', r', _, hr', haverage'.trans hvalue, rfl⟩

end Report

end Graft
