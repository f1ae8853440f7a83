import TemporalAlgebra.Proofs.Number.Grid
import TemporalAlgebra.Proofs.Number.Growing
import TemporalAlgebra.Proofs.Temporal.EverAlways
import TemporalAlgebra.Temporal.Bins

/-!
# The search through bins of floating point numbers

The bins of a number are searched from the bin of its least value on. Bins are counted by a number
to which one is added, and their bounds are rounded. So counting on may lead nowhere, and then the
search does not end unless a bin is refused or lies above the greatest value. Rounded bounds do not
fall, and as long as all numbers lie within `2 ^ 49` widths of zero they rise with every bin.
-/
namespace TemporalAlgebra

open Binary64

def counted (k : Float) : ℕ → Float
  | 0 => k
  | n + 1 => counted k n + 1.0

lemma counted_succ (k : Float) (n : ℕ) : counted k (n + 1) = counted (k + 1.0) n := by
  induction n with
  | zero => rfl
  | succ n ih => exact congrArg (· + 1.0) ih

lemma counted_of_stuck {k : Float} {n : ℕ} (h : counted k (n + 1) = counted k n) (m : ℕ) :
    counted k (n + m) = counted k n := by
  induction m with
  | zero => rfl
  | succ m ih => exact (congrArg (· + 1.0) ih).trans h

section

variable {α : Type} (width origin greatest : Float) (part : Float → Result (List α))

/-- The turns of the search from the bin of number `k` on, until it ends with an outcome. They do
not give up where counting on leads nowhere. -/
inductive Runs : Float → Result (List α) → Prop
  | past {k : Float} (h : greatest < origin + k * width) : Runs k (.ok [])
  | refused {k : Float} {e : Failure} (h : ¬greatest < origin + k * width)
      (hpart : part (origin + k * width) = .error e) : Runs k (.error e)
  | next {k : Float} {here : List α} {r : Result (List α)} (h : ¬greatest < origin + k * width)
      (hpart : part (origin + k * width) = .ok here) (hrest : Runs (k + 1.0) r) :
      Runs k (do return here ++ (← r))

/-- The search does not go on after the bin of number `k`. -/
def HaltsAt (k : Float) : Prop :=
  greatest < origin + k * width ∨ ∃ e, part (origin + k * width) = .error e

variable {width origin greatest part} {k : Float}

lemma exists_part_of_not_haltsAt (h : ¬HaltsAt width origin greatest part k) :
    ¬greatest < origin + k * width ∧ ∃ here, part (origin + k * width) = .ok here := by
  obtain ⟨hin, hpart⟩ := not_or.mp h
  refine ⟨hin, ?_⟩
  cases hp : part (origin + k * width) with
  | error e => exact absurd ⟨e, hp⟩ hpart
  | ok here => exact ⟨here, rfl⟩

lemma exists_runs_of_haltsAt (h : HaltsAt width origin greatest part k) :
    ∃ r, Runs width origin greatest part k r := by
  by_cases hover : greatest < origin + k * width
  · exact ⟨_, .past hover⟩
  · obtain ⟨e, he⟩ := h.resolve_left hover
    exact ⟨_, .refused hover he⟩

/-- Turns end where the search halts after some of them. -/
lemma runs_iff_haltsAt : (∃ r, Runs width origin greatest part k r) ↔
    ∃ n, HaltsAt width origin greatest part (counted k n) := by
  constructor
  · rintro ⟨r, hr⟩
    induction hr with
    | past h => exact ⟨0, Or.inl h⟩
    | refused _ hpart => exact ⟨0, Or.inr ⟨_, hpart⟩⟩
    | next _ _ _ ih =>
      obtain ⟨n, hn⟩ := ih
      exact ⟨n + 1, (counted_succ _ n).symm ▸ hn⟩
  · rintro ⟨n, hn⟩
    induction n generalizing k with
    | zero => exact exists_runs_of_haltsAt hn
    | succ n ih =>
      by_cases hhalts : HaltsAt width origin greatest part k
      · exact exists_runs_of_haltsAt hhalts
      · obtain ⟨hin, here, hpart⟩ := exists_part_of_not_haltsAt hhalts
        obtain ⟨r, hr⟩ := ih (counted_succ k n ▸ hn)
        exact ⟨_, .next hin hpart hr⟩

/-- Turns go on for ever where counting on leads nowhere before the search halts. -/
lemma not_runs_iff_stuck : (¬∃ r, Runs width origin greatest part k r) ↔
    ∃ n, (∀ m ≤ n, ¬HaltsAt width origin greatest part (counted k m)) ∧
      counted k (n + 1) = counted k n := by
  rw [runs_iff_haltsAt]
  constructor
  · intro h
    have hgoes := not_exists.mp h
    by_contra hstuck
    have hrises : ∀ n : ℕ, orderKey k + n ≤ orderKey (counted k n) := by
      intro n
      induction n with
      | zero => exact (add_zero _).le
      | succ n ih =>
        have hlt := (add_one_cases (counted k n)).resolve_right fun heq =>
          hstuck ⟨n, fun m _ => hgoes m, heq⟩
        change _ ≤ orderKey (counted k n + 1.0)
        push_cast
        omega
    -- there are not that many numbers
    have hmany := hrises (2 ^ 63 - orderKey k).toNat
    have hlast := orderKey_lt (counted k (2 ^ 63 - orderKey k).toNat)
    omega
  · rintro ⟨n, hgoes, hstuck⟩ ⟨m, hm⟩
    rcases le_total m n with hmn | hnm
    · exact hgoes m hmn hm
    · obtain ⟨d, rfl⟩ := Nat.exists_eq_add_of_le hnm
      rw [counted_of_stuck hstuck] at hm
      exact hgoes n le_rfl hm

lemma binsFrom_of_past (h : greatest < origin + k * width) :
    binsFrom width origin greatest part k = .ok [] := by
  rw [binsFrom]
  exact if_pos h

lemma binsFrom_of_refused {e : Failure} (h : ¬greatest < origin + k * width)
    (hpart : part (origin + k * width) = .error e) :
    binsFrom width origin greatest part k = .error e := by
  rw [binsFrom]
  exact (if_neg h).trans (bind_of_error hpart)

lemma binsFrom_of_found {here : List α} (h : ¬greatest < origin + k * width)
    (hpart : part (origin + k * width) = .ok here) :
    binsFrom width origin greatest part k =
      if orderKey k < orderKey (k + 1.0) then
        do return here ++ (← binsFrom width origin greatest part (k + 1.0))
      else .error .aborted := by
  rw [binsFrom]
  refine (if_neg h).trans ((bind_of_ok hpart).trans ?_)
  split <;> rfl

/-- A search that ends has the outcome of its turns. -/
lemma Runs.binsFrom_eq {r : Result (List α)} (h : Runs width origin greatest part k r) :
    binsFrom width origin greatest part k = r := by
  induction h with
  | past h => exact binsFrom_of_past h
  | refused h hpart => exact binsFrom_of_refused h hpart
  | @next k here r h hpart hrest ih =>
    have hrises : orderKey k < orderKey (k + 1.0) := by
      refine (add_one_cases k).resolve_right fun hstuck => ?_
      refine not_runs_iff_stuck.mpr ⟨0, fun m hm => ?_, hstuck⟩ ⟨r, hstuck ▸ hrest⟩
      obtain rfl : m = 0 := by omega
      rintro (hover | ⟨e, he⟩)
      · exact h hover
      · cases hpart.symm.trans he
    rw [binsFrom_of_found h hpart, if_pos hrises, ih]

lemma Runs.ne_aborted {r : Result (List α)} (h : Runs width origin greatest part k r)
    (hpart : ∀ lower, part lower ≠ .error .aborted) : r ≠ .error .aborted := by
  induction h with
  | past _ => exact nofun
  | refused _ hrefused => exact hrefused ▸ hpart _
  | @next k here r _ _ _ ih =>
    cases r with
    | ok rest => exact nofun
    | error e => exact ih

/-- A search that does not end is given up. -/
lemma binsFrom_of_not_runs (h : ¬∃ r, Runs width origin greatest part k r) :
    binsFrom width origin greatest part k = .error .aborted := by
  obtain ⟨n, -, hstuck⟩ := not_runs_iff_stuck.mp h
  induction n generalizing k with
  | zero =>
    obtain ⟨hin, here, hpart⟩ := exists_part_of_not_haltsAt (mt exists_runs_of_haltsAt h)
    have hfixed : orderKey (k + 1.0) = orderKey k := congrArg orderKey hstuck
    rw [binsFrom_of_found hin hpart, hfixed, if_neg (lt_irrefl _)]
  | succ n ih =>
    obtain ⟨hin, here, hpart⟩ := exists_part_of_not_haltsAt (mt exists_runs_of_haltsAt h)
    have hrest : binsFrom width origin greatest part (k + 1.0) = .error .aborted := by
      refine ih (fun ⟨r, hr⟩ => h ⟨_, .next hin hpart hr⟩) ?_
      rw [← counted_succ, ← counted_succ]
      exact hstuck
    rw [binsFrom_of_found hin hpart, bind_of_error hrest, ite_self]

end

section

variable {width origin greatest k : Float} {j : ℤ}

/-- Rounding moves the start of a bin by less than a third of its width, as long as its number and
the origin are not too large. -/
lemma abs_lower_sub_le (ho : (shape origin).isFinite = true) (hw : (shape width).isFinite = true)
    (hpos : 0 < value width) (hk : Whole k j) (hj : j.natAbs ≤ 2 ^ 50 + 1)
    (hnear : |value origin| ≤ 2 ^ 49 * value width)
    (hlower : (shape (origin + k * width)).isFinite = true) :
    |value (origin + k * width) - (value origin + j * value width)| ≤ value width / 3 := by
  obtain ⟨-, hproduct⟩ := isFinite_of_add hlower
  have hunit : (2 : ℚ) ^ (-53 : ℤ) = 1 / 2 ^ 53 := by norm_num
  have hfirst : |value (k * width) - j * value width| ≤ 1 / 2 ^ 53 * |j * value width| := by
    rw [(rounds_mul hk.isFinite hw).value_eq hproduct, hk.value_eq, ← hunit]
    exact ((onGrid_value hw).intCast_mul j).abs_nearest_sub_le
  have hsecond : |value (origin + k * width) - (value origin + value (k * width))| ≤
      1 / 2 ^ 53 * |value origin + value (k * width)| := by
    rw [(rounds_add ho hproduct).value_eq hlower, ← hunit]
    exact ((onGrid_value ho).add (onGrid_value hproduct)).abs_nearest_sub_le
  have hnumber : |j| ≤ 2 ^ 50 + 1 := by
    rw [Int.abs_eq_natAbs]
    exact_mod_cast hj
  have hsize : |j * value width| ≤ (2 ^ 50 + 1) * value width := by
    rw [abs_mul, abs_of_pos hpos]
    exact mul_le_mul_of_nonneg_right (by exact_mod_cast hnumber) hpos.le
  have hreach : |value (k * width)| ≤ |value (k * width) - j * value width| + |j * value width| :=
    sub_le_iff_le_add.mp (abs_sub_abs_le_abs_sub _ _)
  have hsum := abs_add_le (value origin) (value (k * width))
  have htotal := abs_sub_le (value (origin + k * width)) (value origin + value (k * width))
    (value origin + j * value width)
  rw [add_sub_add_left_eq_sub] at htotal
  linarith

end

section

variable {lower upper : Float} {s : FloatSpan}

lemma rises_of_new (h : Span.new lower upper true false = .ok s) :
    lower.isNaN = false ∧ orderKey lower < orderKey upper := by
  obtain ⟨hvalid, hmake⟩ := check_bind_eq_ok.mp (reported_eq_ok.mp h)
  obtain ⟨-, hmake⟩ := check_bind_eq_ok.mp hmake
  obtain ⟨hrises, -⟩ := check_bind_eq_ok.mp hmake
  have hlower := (Bool.and_eq_true_iff.mp (require_eq_ok.mp hvalid)).1
  have horder := (Bool.or_eq_true_iff.mp (require_eq_ok.mp hrises)).resolve_right Bool.false_ne_true
  exact ⟨Bool.not_eq_true' _ |>.mp hlower, compare_lt_iff_lt.mp (eq_of_beq horder)⟩

lemma ne_aborted_of_new {e : Failure} {lowerInc upperInc : Bool}
    (h : Span.new lower upper lowerInc upperInc = .error e) : e ≠ .aborted := by
  have hsilent : Silent (Span.make lower upper lowerInc upperInc) :=
    (Silent.require _ _).bind fun _ => (Silent.require _ _).bind fun _ =>
      (Silent.require _ _).bind fun _ => Silent.ok _
  unfold Span.new at h
  cases hmake : Span.make lower upper lowerInc upperInc with
  | ok s =>
    rw [hmake] at h
    cases h
  | error f =>
    obtain ⟨cause, rfl⟩ := hsilent f hmake
    rw [hmake] at h
    cases h
    exact Failure.noConfusion

/-- The search goes on only after a bin with a finite lower bound. -/
lemma isFinite_of_new {width greatest : Float} (hg : (shape greatest).isFinite = true)
    (hw : (shape width).isFinite = true) (hin : ¬greatest < lower)
    (h : Span.new lower (lower + width) true false = .ok s) : (shape lower).isFinite = true := by
  obtain ⟨hnan, hrises⟩ := rises_of_new h
  cases hlower : shape lower with
  | zero t => rfl
  | finite t m e hpos => rfl
  | notANumber =>
    have hisNaN : (shape lower).isNaN = false := hnan
    rw [hlower] at hisNaN
    cases hisNaN
  | infinity t =>
    cases t with
    | positive => exact absurd (lt_of_infinite hg hlower) hin
    | negative =>
      have hstays : lower + width = lower := add_of_infinite hlower hw
      rw [hstays] at hrises
      exact absurd hrises (lt_irrefl _)

end

namespace Temporal

/-- A value that takes finite numbers, and bins of a finite positive width from a finite origin. The
times at which the value crosses the bounds of bins are told, since it is short and ends early if it
is interpolated. -/
structure Binnable (v : Temporal Float) (size origin : Float) : Prop where
  wellFormed : v.WellFormed
  short : v.Short
  early : v.Early
  finite : ∀ i ∈ v.instants, isFinite i.value = true
  size_finite : isFinite size = true
  size_pos : 0.0 < size
  origin_finite : isFinite origin = true

/-- All numbers and the origin lie within `2 ^ 49` widths of zero. -/
structure Near (v : Temporal Float) (size origin : Float) : Prop where
  values : ∀ i ∈ v.instants, |value i.value| ≤ 2 ^ 49 * value size
  origin : |value origin| ≤ 2 ^ 49 * value size

/-- The number of a bin. The first one is that of the bin of the least value. -/
def binNumber (v : Temporal Float) (size origin : Float) (n : ℕ) : Float :=
  counted (Binary64.floor ((v.minInstant.value - origin) / size)) n

def binBound (v : Temporal Float) (size origin : Float) (n : ℕ) : Float :=
  origin + v.binNumber size origin n * size

/-- The search does not go on after a bin: it lies above the greatest value, or it is refused. -/
def Halts (v : Temporal Float) (size origin : Float) (n : ℕ) : Prop :=
  v.maxInstant.value < v.binBound size origin n ∨
    ∃ e, (Span.new (v.binBound size origin n) (v.binBound size origin n + size) true false :
      Result FloatSpan) = .error e

/-- The turns of the search through all bins of a value end with an outcome. -/
def BinsEnd (v : Temporal Float) (size origin : Float)
    (r : Result (List (Float × Temporal Float))) : Prop :=
  Runs size origin v.maxInstant.value (v.inValueBin size) (v.binNumber size origin 0) r

lemma foldl_choice_mem {α : Type} (better : α → α → Bool) {best : α} {as all : List α}
    (hbest : best ∈ all) (has : as ⊆ all) :
    as.foldl (fun best a => if better a best then a else best) best ∈ all := by
  induction as generalizing best with
  | nil => exact hbest
  | cons a as ih =>
    refine ih ?_ (List.subset_of_cons_subset has)
    dsimp only
    split
    · exact has List.mem_cons_self
    · exact hbest

lemma minInstant_mem (v : Temporal Float) : v.minInstant ∈ v.instants :=
  foldl_choice_mem (fun i best : Instant Float => BaseValue.order i.value best.value == .lt)
    v.firstInstant_mem (List.Subset.refl _)

lemma maxInstant_mem (v : Temporal Float) : v.maxInstant ∈ v.instants :=
  foldl_choice_mem (fun i best : Instant Float => BaseValue.order i.value best.value == .gt)
    v.firstInstant_mem (List.Subset.refl _)

section

variable {v : Temporal Float} {size origin : Float} {n : ℕ}

/-- The search goes on after a bin whose bounds rise. -/
lemma not_halts (hin : ¬v.maxInstant.value < v.binBound size origin n)
    (hlower : Binary64.parts (v.binBound size origin n) ≠ .nan)
    (hupper : Binary64.parts (v.binBound size origin n + size) ≠ .nan)
    (hrises : orderKey (v.binBound size origin n) < orderKey (v.binBound size origin n + size)) :
    ¬v.Halts size origin n := by
  rintro (hover | ⟨e, he⟩)
  · exact hin hover
  · cases (Span.new_number hlower hupper hrises true false).symm.trans he

namespace Binnable

variable (h : v.Binnable size origin)

include h

lemma shape_least : (shape v.minInstant.value).isFinite = true :=
  isFinite_shape (h.finite _ v.minInstant_mem)

lemma shape_greatest : (shape v.maxInstant.value).isFinite = true :=
  isFinite_shape (h.finite _ v.maxInstant_mem)

lemma shape_size : (shape size).isFinite = true := isFinite_shape h.size_finite

lemma shape_origin : (shape origin).isFinite = true := isFinite_shape h.origin_finite

lemma value_size_pos : 0 < value size := value_zero ▸ value_lt_of_lt rfl h.shape_size h.size_pos

lemma proper : v.Proper := by
  intro i hi
  refine (beq_self_iff i.value).mpr fun hnan => ?_
  have hfinite := isFinite_shape (h.finite i hi)
  rw [hnan] at hfinite
  cases hfinite

/-- The part in a bin is found unless the bin is refused. -/
lemma inValueBin_eq_error_iff {lower : Float} {e : Failure} :
    v.inValueBin size lower = .error e ↔
      (Span.new lower (lower + size) true false : Result FloatSpan) = .error e := by
  unfold inValueBin
  cases hnew : (Span.new lower (lower + size) true false : Result FloatSpan) with
  | error f =>
    rw [bind_of_error rfl, Except.error.injEq, Except.error.injEq]
  | ok bin =>
    have hparts := spans_partition h.wellFormed h.proper (.ofSpan bin)
    obtain ⟨found, hfound⟩ := hparts.part_unrefused.exists_ok (hparts.told h.short h.early).1
    have hat : v.atSpan bin = .ok found := hfound
    rw [bind_of_ok rfl, bind_of_ok hat]
    cases found <;> exact iff_of_false nofun nofun

lemma haltsAt_iff : HaltsAt size origin v.maxInstant.value (v.inValueBin size)
    (counted (v.binNumber size origin 0) n) ↔ v.Halts size origin n :=
  or_congr Iff.rfl (exists_congr fun _ => h.inValueBin_eq_error_iff)

lemma valueSplit_eq_reported : v.valueSplit size origin = reported (binsFrom size origin
    v.maxInstant.value (v.inValueBin size) (v.binNumber size origin 0)) := by
  unfold valueSplit
  have hpos : decide ((0.0 : Float) < NumericValue.toFloat size) = true := decide_eq_true h.size_pos
  dsimp only
  rw [hpos]
  rfl

lemma isFinite_binBound (hgoes : ¬v.Halts size origin n) :
    (shape (v.binBound size origin n)).isFinite = true := by
  obtain ⟨hin, hnew⟩ := not_or.mp hgoes
  cases hs : (Span.new (v.binBound size origin n) (v.binBound size origin n + size) true false :
    Result FloatSpan) with
  | error e => exact absurd ⟨e, hs⟩ hnew
  | ok s => exact isFinite_of_new h.shape_greatest h.shape_size hin hs

lemma isFinite_binNumber (hgoes : ¬v.Halts size origin n) :
    (shape (v.binNumber size origin n)).isFinite = true :=
  (isFinite_of_mul (isFinite_of_add (h.isFinite_binBound hgoes)).2).1

lemma binBound_above (hgoes : ¬v.Halts size origin n) :
    Above (v.binBound size origin n) (v.binBound size origin (n + 1)) := by
  have hbound := h.isFinite_binBound hgoes
  have hnumber := h.isFinite_binNumber hgoes
  obtain ⟨-, hproduct⟩ := isFinite_of_add hbound
  exact ((Above.add_one hnumber).mul_right hnumber h.shape_size h.value_size_pos
    hproduct).add_left hproduct h.shape_origin hbound

lemma isFinite_difference (hfinite : (shape (v.binNumber size origin 0)).isFinite = true) :
    (shape (v.minInstant.value - origin)).isFinite = true := by
  rcases rounds_sub h.shape_least h.shape_origin with ⟨hdifference, -⟩ | ⟨s, hinfinite, -⟩
  · exact hdifference
  · obtain ⟨t, hquotient⟩ := div_of_infinite hinfinite h.shape_size
    change (shape (floor ((v.minInstant.value - origin) / size))).isFinite = true at hfinite
    rw [floor_of_infinite hquotient, hquotient] at hfinite
    cases hfinite

/-- The least number is at most `2 ^ 50` widths away from the origin, also as it is computed. -/
lemma abs_quotient_le (hnear : v.Near size origin)
    (hdifference : (shape (v.minInstant.value - origin)).isFinite = true) :
    (shape ((v.minInstant.value - origin) / size)).isFinite = true ∧
      |value ((v.minInstant.value - origin) / size)| ≤ 2 ^ 50 := by
  have hpos := h.value_size_pos
  have hreach : |value (v.minInstant.value - origin)| ≤ 2 ^ 50 * value size := by
    have hleast := hnear.values _ v.minInstant_mem
    have horigin := hnear.origin
    rw [(rounds_sub h.shape_least h.shape_origin).value_eq hdifference,
      ← nearest_two_pow_mul h.shape_size 50]
    exact abs_nearest_le ((abs_sub _ _).trans (by linarith))
  have hratio : |value (v.minInstant.value - origin) / value size| ≤ 2 ^ 50 := by
    rwa [abs_div, abs_of_pos hpos, div_le_iff₀ hpos]
  have hexact : nearest (2 ^ 50) = 2 ^ 50 := by
    have h := nearest_two_pow_mul (x := 1.0) rfl 50
    rwa [value_one, mul_one] at h
  have hnearest : |nearest (value (v.minInstant.value - origin) / value size)| ≤ 2 ^ 50 :=
    hexact ▸ abs_nearest_le hratio
  have hrounds := rounds_div hdifference h.shape_size hpos.ne'
  have hquotient : (shape ((v.minInstant.value - origin) / size)).isFinite = true := by
    refine hrounds.isFinite (hnearest.trans_lt ?_)
    exact_mod_cast zpow_lt_zpow_right₀ (one_lt_two (α := ℚ)) (by decide : (50 : ℤ) < 1024)
  exact ⟨hquotient, hrounds.value_eq hquotient ▸ hnearest⟩

lemma exists_whole_first (hnear : v.Near size origin)
    (hfinite : (shape (v.binNumber size origin 0)).isFinite = true) :
    ∃ j : ℤ, Whole (v.binNumber size origin 0) j ∧ j.natAbs ≤ 2 ^ 50 := by
  obtain ⟨hquotient, hbound⟩ := h.abs_quotient_le hnear (h.isFinite_difference hfinite)
  obtain ⟨hlow, hhigh⟩ := abs_le.mp hbound
  have hfloor : (⌊value ((v.minInstant.value - origin) / size)⌋).natAbs ≤ 2 ^ 50 := by
    have hle : ⌊value ((v.minInstant.value - origin) / size)⌋ ≤ 2 ^ 50 :=
      Int.floor_le_iff.mpr (by push_cast; linarith)
    have hge : -2 ^ 50 ≤ ⌊value ((v.minInstant.value - origin) / size)⌋ :=
      Int.le_floor.mpr (by exact_mod_cast hlow)
    omega
  exact ⟨_, whole_floor hquotient (by omega), hfloor⟩

/-- The numbers of the bins are integers as long as the search goes on. -/
lemma exists_whole (hnear : v.Near size origin) (hgoes : ∀ m ≤ n, ¬v.Halts size origin m) :
    ∃ j : ℤ, Whole (v.binNumber size origin n) j ∧ j.natAbs ≤ 2 ^ 50 := by
  induction n with
  | zero => exact h.exists_whole_first hnear (h.isFinite_binNumber (hgoes 0 le_rfl))
  | succ n ih =>
    obtain ⟨j, hj, hbits⟩ := ih fun m hm => hgoes m (Nat.le_succ_of_le hm)
    have hnext : Whole (v.binNumber size origin (n + 1)) (j + 1) := hj.add_one (by omega)
    refine ⟨j + 1, hnext, ?_⟩
    have hpos := h.value_size_pos
    have hbound := h.isFinite_binBound (hgoes (n + 1) le_rfl)
    have hclose := abs_le.mp (abs_lower_sub_le h.shape_origin h.shape_size hpos hnext
      (by omega) hnear.origin hbound)
    have horigin := abs_le.mp hnear.origin
    have hgreatest := abs_le.mp (hnear.values _ v.maxInstant_mem)
    have hin : value (v.binBound size origin (n + 1)) ≤ value v.maxInstant.value :=
      not_lt.mp fun hover =>
        (hgoes (n + 1) le_rfl) (Or.inl (lt_of_value_lt h.shape_greatest hbound hover))
    have hwidths : ((j + 1 : ℤ) : ℚ) * value size < (2 ^ 50 + 1) * value size := by
      unfold binBound at hin
      linarith
    have hlt : j + 1 < 2 ^ 50 + 1 := by exact_mod_cast lt_of_mul_lt_mul_right hwidths hpos.le
    omega

lemma binBound_lt (hnear : v.Near size origin) (hgoes : ∀ m ≤ n, ¬v.Halts size origin m) :
    v.binBound size origin n < v.binBound size origin (n + 1) := by
  have hpos := h.value_size_pos
  have hbound := h.isFinite_binBound (hgoes n le_rfl)
  obtain ⟨j, hj, hbits⟩ := h.exists_whole hnear hgoes
  refine (h.binBound_above (hgoes n le_rfl)).lt hbound fun hnext => ?_
  have hlow := abs_le.mp (abs_lower_sub_le h.shape_origin h.shape_size hpos hj (by omega)
    hnear.origin hbound)
  have hhigh := abs_le.mp (abs_lower_sub_le h.shape_origin h.shape_size hpos
    (hj.add_one (by omega)) (by omega) hnear.origin hnext)
  change value (origin + v.binNumber size origin n * size) <
    value (origin + (v.binNumber size origin n + 1.0) * size)
  push_cast at hhigh
  linarith

lemma not_binsEnd_iff : (¬∃ r, v.BinsEnd size origin r) ↔
    ∃ n, (∀ m ≤ n, ¬v.Halts size origin m) ∧
      v.binNumber size origin (n + 1) = v.binNumber size origin n := by
  simp only [← h.haltsAt_iff]
  exact not_runs_iff_stuck

lemma binsEnd_iff : (∃ r, v.BinsEnd size origin r) ↔ ∃ n, v.Halts size origin n := by
  simp only [← h.haltsAt_iff]
  exact runs_iff_haltsAt

/-- What the turns end with is reported, and it is a value or a refusal. -/
lemma valueSplit_of_binsEnd {r : Result (List (Float × Temporal Float))}
    (hr : v.BinsEnd size origin r) :
    v.valueSplit size origin = reported r ∧ r ≠ .error .aborted := by
  refine ⟨h.valueSplit_eq_reported.trans (congrArg reported hr.binsFrom_eq), ?_⟩
  exact hr.ne_aborted fun lower he => ne_aborted_of_new (h.inValueBin_eq_error_iff.mp he) rfl

/-- The search is given up when its turns go on for ever, and only then. -/
lemma valueSplit_eq_aborted_iff :
    v.valueSplit size origin = .error .aborted ↔ ¬∃ r, v.BinsEnd size origin r := by
  constructor
  · rintro hsplit ⟨r, hr⟩
    obtain ⟨hreported, hne⟩ := h.valueSplit_of_binsEnd hr
    rw [hsplit] at hreported
    rcases r with (⟨cause, reports⟩ | -) | found
    · cases hreported
    · exact hne rfl
    · cases hreported
  · intro hends
    rw [h.valueSplit_eq_reported, binsFrom_of_not_runs hends]
    rfl

end Binnable

/-- The search through the bins of finite numbers ends when a bin is refused or lies above the
greatest value, and else it goes on for ever because counting on leads nowhere. What it ends with is
the answer. Bins never start lower than the ones before them. Within `2 ^ 49` widths of zero the
search ends, and every bin starts higher than the one before it. -/
theorem value_bins_search_spec (h : v.Binnable size origin) :
    (∀ r, v.BinsEnd size origin r → v.valueSplit size origin = reported r ∧ r ≠ .error .aborted) ∧
    (v.valueSplit size origin = .error .aborted ↔ ¬∃ r, v.BinsEnd size origin r) ∧
    ((∃ r, v.BinsEnd size origin r) ↔ ∃ n, v.Halts size origin n) ∧
    ((¬∃ r, v.BinsEnd size origin r) ↔ ∃ n, (∀ m ≤ n, ¬v.Halts size origin m) ∧
      v.binNumber size origin (n + 1) = v.binNumber size origin n) ∧
    (∀ n, ¬v.Halts size origin n → v.binBound size origin n ≤ v.binBound size origin (n + 1)) ∧
    (v.Near size origin → (∃ r, v.BinsEnd size origin r) ∧
      ∀ n, (∀ m ≤ n, ¬v.Halts size origin m) →
        v.binBound size origin n < v.binBound size origin (n + 1)) := by
  refine ⟨fun r hr => h.valueSplit_of_binsEnd hr, h.valueSplit_eq_aborted_iff, h.binsEnd_iff,
    h.not_binsEnd_iff, fun n hgoes => (h.binBound_above hgoes).le (h.isFinite_binBound hgoes),
    fun hnear => ⟨?_, fun n hgoes => h.binBound_lt hnear hgoes⟩⟩
  by_contra hends
  obtain ⟨n, hgoes, hstuck⟩ := h.not_binsEnd_iff.mp hends
  have hlt := h.binBound_lt hnear hgoes
  have hsame : v.binBound size origin (n + 1) = v.binBound size origin n :=
    congrArg (origin + · * size) hstuck
  rw [hsame] at hlt
  exact lt_irrefl _ (lt_iff.mp hlt).2.2

end

def slope : Temporal Float :=
  sequence (.ofRun ⟨1.0, .nearest 0⟩ [⟨9.5, .nearest 10⟩] true true .linear)

theorem slope_searched :
    slope.Binnable 2.5 0.0 ∧ slope.Near 2.5 0.0 ∧ (∃ r, slope.BinsEnd 2.5 0.0 r) ∧
      slope.valueSplit 2.5 0.0 ≠ .error .aborted ∧
      slope.binBound 2.5 0.0 0 < slope.binBound 2.5 0.0 1 := by
  have hbinnable : slope.Binnable 2.5 0.0 := by
    refine ⟨rfl, fun _ => by decide, fun _ => by decide, ?_, by decide +kernel, by decide +kernel,
      by decide +kernel⟩
    exact List.forall_mem_cons.mpr
      ⟨by decide +kernel, List.forall_mem_singleton.mpr (by decide +kernel)⟩
  have hnear : slope.Near 2.5 0.0 := by
    refine ⟨?_, by decide +kernel⟩
    exact List.forall_mem_cons.mpr
      ⟨by decide +kernel, List.forall_mem_singleton.mpr (by decide +kernel)⟩
  obtain ⟨-, haborted, -, -, -, hsearch⟩ := value_bins_search_spec hbinnable
  obtain ⟨hends, hrises⟩ := hsearch hnear
  refine ⟨hbinnable, hnear, hends, fun h => haborted.mp h hends, hrises 0 fun m hm => ?_⟩
  obtain rfl : m = 0 := by omega
  exact not_halts (by decide +kernel) (by decide +kernel) (by decide +kernel) (by decide +kernel)

def spot (x : Float) : Temporal Float := instant ⟨x, .nearest 0⟩

lemma spot_binnable {x size origin : Float} (hx : isFinite x = true) (hs : isFinite size = true)
    (hpos : 0.0 < size) (ho : isFinite origin = true) : (spot x).Binnable size origin :=
  ⟨wellFormed_instant _, nofun, nofun, List.forall_mem_singleton.mpr hx, hs, hpos, ho⟩

/-- Zero in bins of one from `-2 ^ 60` on: the number of the bin is `2 ^ 60`, and adding one to it
does not change it. And `2 ^ 52 + 1` in bins of three fifths from `2 ^ 52` on: the first two bins
start at the same number. -/
theorem bins_stand_still :
    ((spot 0.0).Binnable 1.0 (-1152921504606846976.0) ∧
      ¬∃ r, (spot 0.0).BinsEnd 1.0 (-1152921504606846976.0) r) ∧
    (spot 4503599627370497.0).Binnable 0.6 4503599627370496.0 ∧
      ¬(spot 4503599627370497.0).Halts 0.6 4503599627370496.0 0 ∧
      ¬(spot 4503599627370497.0).binBound 0.6 4503599627370496.0 0 <
        (spot 4503599627370497.0).binBound 0.6 4503599627370496.0 1 := by
  have hzero : (spot 0.0).Binnable 1.0 (-1152921504606846976.0) :=
    spot_binnable (by decide +kernel) (by decide +kernel) (by decide +kernel) (by decide +kernel)
  refine ⟨⟨hzero, hzero.not_binsEnd_iff.mpr ⟨0, fun m hm => ?_, ?_⟩⟩,
    spot_binnable (by decide +kernel) (by decide +kernel) (by decide +kernel) (by decide +kernel),
    ?_, by decide +kernel⟩
  · obtain rfl : m = 0 := by omega
    exact not_halts (by decide +kernel) (by decide +kernel) (by decide +kernel) (by decide +kernel)
  · exact orderKey_injective (by decide +kernel)
  · exact not_halts (by decide +kernel) (by decide +kernel) (by decide +kernel) (by decide +kernel)

end Temporal

end TemporalAlgebra
