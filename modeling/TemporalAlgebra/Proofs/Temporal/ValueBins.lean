import Mathlib.Data.List.Nodup
import TemporalAlgebra.Proofs.Number.Flooring
import TemporalAlgebra.Proofs.Temporal.EverAlways
import TemporalAlgebra.Temporal.Bins

/-!
# Integers split by bins of values

The bins are counted and their bounds computed with floating point numbers. For integers of 32 bits
all of these numbers are integers of fewer than 53 bits, so nothing is rounded but the quotient that
numbers the first bin, of which only the integer below it counts. So the bins are those of the
integers: every integer lies in one, which starts at a multiple of the width, counted from the
origin.
-/
namespace TemporalAlgebra

open Binary64

/-- Where the bin of a width starts that holds an integer. -/
def binLower (size origin x : Int) : Int := origin + (x - origin) / size * size

section

variable {size origin x : Int}

lemma binLower_bounds (hpos : 0 < size) (origin x : Int) :
    binLower size origin x ≤ x ∧ x < binLower size origin x + size := by
  have hsum := Int.emod_add_mul_ediv (x - origin) size
  have hlower := Int.emod_nonneg (x - origin) hpos.ne'
  have hupper := Int.emod_lt_of_pos (x - origin) hpos
  rw [Int.mul_comm] at hsum
  unfold binLower
  omega

lemma eq_of_mem_bins {l l' : Int} (hl : size ∣ l - origin) (hl' : size ∣ l' - origin)
    (hx : l ≤ x ∧ x < l + size) (hx' : l' ≤ x ∧ x < l' + size) : l = l' := by
  have hdvd : size ∣ l - l' := by
    have hsub := Int.dvd_sub hl hl'
    rwa [sub_sub_sub_cancel_right] at hsub
  have hzero : l - l' = 0 := by
    refine Int.eq_zero_of_abs_lt_dvd hdvd ?_
    rw [abs_lt]
    omega
  omega

end

def binLowers (size : Int) : Int → Nat → List Int
  | _, 0 => []
  | first, n + 1 => first :: binLowers size (first + size) n

section

variable {size first origin greatest l x : Int} {n : Nat}

lemma mem_binLowers : l ∈ binLowers size first n ↔ ∃ i < n, l = first + i * size := by
  induction n generalizing first with
  | zero => simp [binLowers]
  | succ n ih =>
    rw [binLowers, List.mem_cons, ih]
    constructor
    · rintro (rfl | ⟨i, hi, rfl⟩)
      · exact ⟨0, by omega, by omega⟩
      · exact ⟨i + 1, by omega, by push_cast; ring⟩
    · rintro ⟨i, hi, rfl⟩
      cases i with
      | zero => exact Or.inl (by omega)
      | succ i => exact Or.inr ⟨i, by omega, by push_cast; ring⟩

lemma le_of_mem_binLowers (hpos : 0 < size) (hl : l ∈ binLowers size first n) : first ≤ l := by
  obtain ⟨i, -, rfl⟩ := mem_binLowers.mp hl
  have := Int.mul_nonneg (Int.natCast_nonneg i) hpos.le
  omega

lemma dvd_of_mem_binLowers (hl : l ∈ binLowers size (binLower size origin x) n) :
    size ∣ l - origin := by
  obtain ⟨i, -, rfl⟩ := mem_binLowers.mp hl
  refine ⟨(x - origin) / size + i, ?_⟩
  unfold binLower
  ring

lemma pairwise_binLowers (hpos : 0 < size) : (binLowers size first n).Pairwise (· < ·) := by
  induction n generalizing first with
  | zero => exact List.Pairwise.nil
  | succ n ih =>
    refine List.Pairwise.cons (fun l hl => ?_) ih
    have := le_of_mem_binLowers hpos hl
    omega

/-- The bins that start no later than some integer. -/
def EndAt (size first greatest : Int) (n : Nat) : Prop :=
  (∀ l ∈ binLowers size first n, l ≤ greatest) ∧ greatest < first + n * size

lemma exists_endAt (hpos : 0 < size) (hle : first ≤ greatest) :
    ∃ n, EndAt size first greatest (n + 1) := by
  have hsum := Int.emod_add_mul_ediv (greatest - first) size
  have hlower := Int.emod_nonneg (greatest - first) hpos.ne'
  have hupper := Int.emod_lt_of_pos (greatest - first) hpos
  have hcount := Int.ediv_nonneg (by omega : 0 ≤ greatest - first) hpos.le
  obtain ⟨n, hn⟩ := Int.eq_ofNat_of_zero_le hcount
  rw [hn, Int.mul_comm] at hsum
  refine ⟨n, fun l hl => ?_, ?_⟩
  · obtain ⟨i, hi, rfl⟩ := mem_binLowers.mp hl
    have := Int.mul_le_mul_of_nonneg_right (by omega : (i : Int) ≤ n) hpos.le
    omega
  · push_cast
    rw [Int.add_mul]
    omega

lemma EndAt.binLower_mem (h : EndAt size (binLower size origin l) greatest n) (hpos : 0 < size)
    (hlo : l ≤ x) (hhi : x ≤ greatest) :
    binLower size origin x ∈ binLowers size (binLower size origin l) n := by
  have hrises := Int.ediv_le_ediv hpos (by omega : l - origin ≤ x - origin)
  obtain ⟨i, hi⟩ : ∃ i : Nat, (x - origin) / size = (l - origin) / size + i :=
    ⟨((x - origin) / size - (l - origin) / size).toNat, by omega⟩
  have hlower : binLower size origin x = binLower size origin l + i * size := by
    unfold binLower
    rw [hi, Int.add_mul, Int.add_assoc]
  refine mem_binLowers.mpr ⟨i, ?_, hlower⟩
  have hx := (binLower_bounds hpos origin x).1
  have hend := h.2
  have : (i : Int) * size < n * size := by omega
  exact Int.ofNat_lt.mp (Int.lt_of_mul_lt_mul_right this hpos.le)

end

section

variable {α : Type} {part : Float → Result (List α)} {width origin greatest k : Int} {n : Nat}

/-- One bin, and the bins from the next number on. -/
lemma binsFrom_step (hpos : 0 < width) (hwidth : width ≤ 2 ^ 32) (horigin : origin.natAbs ≤ 2 ^ 32)
    (hgreatest : greatest.natAbs ≤ 2 ^ 32) (hk : (k * width).natAbs ≤ 2 ^ 40) :
    binsFrom (ofInt width) (ofInt origin) (ofInt greatest) part (ofInt k) =
      if greatest < origin + k * width then .ok []
      else do
        let here ← part (ofInt (origin + k * width))
        return here ++
          (← binsFrom (ofInt width) (ofInt origin) (ofInt greatest) part (ofInt (k + 1))) := by
  have hcount : k.natAbs ≤ 2 ^ 40 := by
    rw [Int.natAbs_mul] at hk
    exact (Nat.le_mul_of_pos_right _ (by omega)).trans hk
  have hlower : ofInt origin + ofInt k * ofInt width = ofInt (origin + k * width) := by
    rw [ofInt_mul hpos (by omega) (by omega) (by omega)]
    exact ofInt_add (by omega) (by omega) (by omega)
  have hone : (1.0 : Float) = ofInt 1 := shape_injective rfl
  have hnext : ofInt k + 1.0 = ofInt (k + 1) := by
    rw [hone]
    exact ofInt_add (by omega) (by decide) (by omega)
  have hrises : orderKey (ofInt k) < orderKey (ofInt (k + 1)) :=
    (orderKey_ofInt_lt_iff (by omega) (by omega)).mpr (by omega)
  rw [binsFrom]
  simp only [hlower, hnext, ofInt_lt_iff (a := greatest) (b := origin + k * width) (by omega)
    (by omega), hrises, dite_true]

/-- The bins from some number on are those of the integers, one after the other. -/
lemma binsFrom_ofInt (hpos : 0 < width) (hwidth : width ≤ 2 ^ 32) (horigin : origin.natAbs ≤ 2 ^ 32)
    (hgreatest : greatest.natAbs ≤ 2 ^ 32) (hk : (k * width).natAbs ≤ 2 ^ 40)
    (hend : EndAt width (origin + k * width) greatest n) :
    binsFrom (ofInt width) (ofInt origin) (ofInt greatest) part (ofInt k) =
      List.flatten <$> (binLowers width (origin + k * width) n).mapM fun l => part (ofInt l) := by
  induction n generalizing k with
  | zero =>
    have hover : greatest < origin + k * width := by simpa using hend.2
    rw [binsFrom_step hpos hwidth horigin hgreatest hk, if_pos hover]
    rfl
  | succ n ih =>
    have hnext : origin + (k + 1) * width = origin + k * width + width := by ring
    have hin : origin + k * width ≤ greatest := hend.1 _ (List.mem_cons_self ..)
    have hrest : EndAt width (origin + (k + 1) * width) greatest n := by
      rw [hnext]
      refine ⟨fun l hl => hend.1 l (List.mem_cons_of_mem _ hl), ?_⟩
      have hover := hend.2
      push_cast at hover
      linarith
    have hwithin : ((k + 1) * width).natAbs ≤ 2 ^ 40 := by
      rw [Int.add_mul]
      omega
    rw [binsFrom_step hpos hwidth horigin hgreatest hk, if_neg (by omega), ih hwithin hrest, hnext,
      binLowers, List.mapM_cons]
    simp only [map_eq_pure_bind, bind_assoc, pure_bind, List.flatten_cons]

end

/-- The numbers of a bin of integers. -/
lemma numbersFrom_spec {size l : Int} (hpos : 0 < size) (hsize : size ≤ 2 ^ 32)
    (hl : l.natAbs ≤ 2 ^ 40) :
    ∃ s : FloatSpan, Span.new (ofInt l) (ofInt l + ofInt size) true false = .ok s ∧ s.Valid ∧
      ∀ y : Integer, s.containsValue (NumericValue.toFloat y) = true ↔
        l ≤ y.val ∧ y.val < l + size := by
  have hlt : orderKey (ofInt l) < orderKey (ofInt (l + size)) :=
    (orderKey_ofInt_lt_iff (by omega) (by omega)).mpr (by omega)
  rw [ofInt_add (by omega) (by omega) (by omega)]
  refine ⟨_, Span.new_number (parts_ofInt_ne_nan (by omega)) (parts_ofInt_ne_nan (by omega)) hlt
    true false, (Span.valid_iff_of_continuous rfl).mpr (Or.inl hlt), fun y => ?_⟩
  have hlower := y.lower
  have hupper := y.upper
  have hbelow := orderKey_ofInt_lt_iff (m := y.val) (n := l) (by omega) (by omega)
  have habove := orderKey_ofInt_lt_iff (m := y.val) (n := l + size) (by omega) (by omega)
  rw [Span.containsValue_iff_between]
  change ((orderKey (ofInt l) < orderKey (ofInt y.val) ∨
      true = true ∧ orderKey (ofInt l) = orderKey (ofInt y.val)) ∧
    (orderKey (ofInt y.val) < orderKey (ofInt (l + size)) ∨ false = true ∧ _)) ↔ _
  simp only [true_and, Bool.false_eq_true, false_and, or_false]
  omega

namespace Temporal

lemma key_foldl_le {α : Type} (key : α → Int) (better : α → α → Bool)
    (hbetter : ∀ a b, better a b = true ↔ key a < key b) (best : α) (as : List α) :
    ∀ a ∈ best :: as,
      key (as.foldl (fun best a => if better a best then a else best) best) ≤ key a := by
  induction as generalizing best with
  | nil => simp
  | cons a as ih =>
    have hstep := ih (if better a best then a else best)
    rw [List.forall_mem_cons] at hstep
    have hfirst : key (if better a best then a else best) ≤ key best ∧
        key (if better a best then a else best) ≤ key a := by
      by_cases h : better a best = true
      · rw [if_pos h]
        have := (hbetter a best).mp h
        omega
      · rw [if_neg h]
        have := mt (hbetter a best).mpr h
        omega
    rw [List.forall_mem_cons, List.forall_mem_cons, List.foldl_cons]
    exact ⟨hstep.1.trans hfirst.1, hstep.1.trans hfirst.2, hstep.2⟩

section

variable {v : Temporal Integer} {size origin : Integer}

lemma between_of_mem_instants {i : Instant Integer} (hi : i ∈ v.instants) :
    v.minInstant.value.val ≤ i.value.val ∧ i.value.val ≤ v.maxInstant.value.val := by
  have hmin := key_foldl_le (fun i : Instant Integer => i.value.val)
    (fun i best => BaseValue.order i.value best.value == .lt)
    (fun a b => by
      rw [beq_iff_eq]
      exact Int.compare_eq_lt) v.firstInstant v.instants i (List.mem_cons_of_mem _ hi)
  have hmax := key_foldl_le (fun i : Instant Integer => -i.value.val)
    (fun i best => BaseValue.order i.value best.value == .gt)
    (fun a b => by
      rw [beq_iff_eq, Int.neg_lt_neg_iff]
      exact Int.compare_eq_gt) v.firstInstant v.instants i (List.mem_cons_of_mem _ hi)
  exact ⟨hmin, Int.neg_le_neg_iff.mp hmax⟩

lemma minInstant_le_maxInstant : v.minInstant.value.val ≤ v.maxInstant.value.val :=
  (between_of_mem_instants v.firstInstant_mem).1.trans
    (between_of_mem_instants v.firstInstant_mem).2

def firstLower (v : Temporal Integer) (size origin : Integer) : Int :=
  binLower size.val origin.val v.minInstant.value.val

lemma Takes.exists_bin {n : Int} {x : Integer} (h : v.Takes n x) (hpos : 0 < size.val) {count : Nat}
    (hend : EndAt size.val (v.firstLower size origin) v.maxInstant.value.val count) :
    ∃ l ∈ binLowers size.val (v.firstLower size origin) count,
      l ≤ x.val ∧ x.val < l + size.val := by
  obtain ⟨i, hi, rfl⟩ := h.exists_instant
  obtain ⟨hlo, hhi⟩ := between_of_mem_instants hi
  exact ⟨_, hend.binLower_mem hpos hlo hhi, binLower_bounds hpos origin.val i.value.val⟩

/-- The part of a value in one bin: what the value takes of the numbers of the bin. -/
structure IsBin (v : Temporal Integer) (size : Integer) (bin : Integer × Temporal Integer) :
    Prop where
  wellFormed : bin.2.WellFormed
  valueAt_iff : ∀ t x, bin.2.valueAt t = some x ↔
    v.valueAt t = some x ∧ bin.1.val ≤ x.val ∧ x.val < bin.1.val + size.val

/-- What is found in the bin that starts at some integer: a part, or nothing if no number of the bin
is taken. -/
def Yields (v : Temporal Integer) (size : Integer) (lower : Int)
    (here : List (Integer × Temporal Integer)) : Prop :=
  (here = [] ∧ ∀ t x, v.valueAt t = some x → ¬(lower ≤ x.val ∧ x.val < lower + size.val)) ∨
    ∃ bin, here = [bin] ∧ bin.1.val = lower ∧ v.IsBin size bin

/-- The refusal of a bin that starts at no integer of 32 bits. -/
def outside (lower : Int) : Error :=
  .outOfRange ("Value " ++ Decimal.plain (ofInt lower) ++ " does not fit in an integer")

lemma integerOfFloat_ofInt {lower : Int} (h : lower.natAbs < 2 ^ 53) :
    integerOfFloat (ofInt lower) = orRefuse (Signed.ofInt? lower) (outside lower) := by
  unfold integerOfFloat
  rw [nearest?_ofInt h]
  rfl

lemma inValueBin_eq {width lower : Float} {s : FloatSpan} {found : Option (Temporal Integer)}
    (hs : Span.new lower (lower + width) true false = .ok s) (hfound : v.atSpan s = .ok found) :
    v.inValueBin width lower = match found with
      | some part => do return [(← integerOfFloat lower, part)]
      | none => .ok [] := by
  unfold inValueBin
  rw [bind_of_ok hs, bind_of_ok hfound]
  cases found <;> rfl

/-- A bin is found as it is, or refused if it starts at an integer of more than 32 bits. -/
lemma Sound.inValueBin_spec (h : v.Sound) (hpos : 0 < size.val) {lower : Int}
    (hlower : lower.natAbs ≤ 2 ^ 40) :
    (∃ here, v.inValueBin (ofInt size.val) (ofInt lower) = .ok here ∧ v.Yields size lower here) ∨
      (Signed.ofInt? lower : Option Integer) = none ∧
        v.inValueBin (ofInt size.val) (ofInt lower) = refuse (outside lower) := by
  have hsize := size.upper
  obtain ⟨s, hs, hvalid, hcontains⟩ := numbersFrom_spec hpos (by omega) hlower
  have hwf := SpanSet.wellFormed_ofSpan hvalid
  obtain ⟨found, -, hfound, -, hin, -⟩ := h.spans_spec hwf
  have hvalues : ∀ t x, (found.bind fun r => r.valueAt t) = some x ↔
      v.valueAt t = some x ∧ lower ≤ x.val ∧ x.val < lower + size.val := by
    intro t x
    rw [bind_valueAt_eq_some_iff hin.wellFormed, hin.takes_iff inferInstance,
      h.wellFormed.valueAt_eq_some_iff]
    refine and_congr_right fun hx => ?_
    rw [h.wellFormed.selects_iff_of_takes hx, ← hcontains, Span.containsValue_iff,
      ← SpanSet.covers_ofSpan]
    exact hwf.containsValue_iff _
  rw [inValueBin_eq hs hfound]
  cases found with
  | none =>
    refine Or.inl ⟨[], rfl, Or.inl ⟨rfl, fun t x hx hmem => ?_⟩⟩
    have hnone := (hvalues t x).mpr ⟨hx, hmem⟩
    cases hnone
  | some part =>
    dsimp only
    rw [integerOfFloat_ofInt (by omega)]
    cases hfits : (Signed.ofInt? lower : Option Integer) with
    | none => exact Or.inr ⟨rfl, rfl⟩
    | some l =>
      have hl : lower = l.val := Signed.ofInt?_eq_some.mp hfits
      subst hl
      exact Or.inl ⟨[(l, part)], rfl, Or.inr ⟨_, rfl, rfl, hin.wellFormed part rfl, hvalues⟩⟩

/-- What the parts of a value in bins of numbers are: they follow on each other, start at multiples
of the width from the origin, hold what the value takes of their numbers, and every timestamp of the
value belongs to one of them. -/
structure PartedByValue (v : Temporal Integer) (size origin : Integer)
    (bins : List (Integer × Temporal Integer)) : Prop where
  rising : bins.Pairwise fun a b => a.1.val < b.1.val
  aligned : ∀ bin ∈ bins, size.val ∣ bin.1.val - origin.val
  isBin : ∀ bin ∈ bins, v.IsBin size bin
  once : ∀ t, (v.valueAt t).isSome = true →
    ∃! bin, bin ∈ bins ∧ (bin.2.valueAt t).isSome = true

lemma Yields.isBin {lower : Int} {here : List (Integer × Temporal Integer)}
    (h : v.Yields size lower here) {bin : Integer × Temporal Integer} (hbin : bin ∈ here) :
    bin.1.val = lower ∧ v.IsBin size bin := by
  rcases h with ⟨rfl, -⟩ | ⟨b, rfl, hlower, hpart⟩
  · cases hbin
  · obtain rfl := List.mem_singleton.mp hbin
    exact ⟨hlower, hpart⟩

lemma Yields.pairwise {lower : Int} {here : List (Integer × Temporal Integer)}
    (h : v.Yields size lower here) : here.Pairwise fun a b => a.1.val < b.1.val := by
  rcases h with ⟨rfl, -⟩ | ⟨b, rfl, -, -⟩
  · exact List.Pairwise.nil
  · exact List.pairwise_singleton _ _

lemma Yields.exists_mem {lower : Int} {here : List (Integer × Temporal Integer)}
    (h : v.Yields size lower here) {t : Timestamp} {x : Integer} (hx : v.valueAt t = some x)
    (hmem : lower ≤ x.val ∧ x.val < lower + size.val) :
    ∃ bin ∈ here, bin.2.valueAt t = some x := by
  rcases h with ⟨-, hnone⟩ | ⟨b, rfl, hlower, hpart⟩
  · exact absurd hmem (hnone t x hx)
  · subst hlower
    exact ⟨b, List.mem_singleton_self b, (hpart.valueAt_iff t x).mpr ⟨hx, hmem⟩⟩

/-- What the bins of a value yield one after the other parts it. -/
lemma Sound.partedByValue (h : v.Sound) (hpos : 0 < size.val) {count : Nat}
    (hend : EndAt size.val (v.firstLower size origin) v.maxInstant.value.val count)
    {heres : List (List (Integer × Temporal Integer))} (hyields : List.Forall₂ (v.Yields size)
      (binLowers size.val (v.firstLower size origin) count) heres) :
    v.PartedByValue size origin heres.flatten := by
  have hfrom : ∀ bin ∈ heres.flatten, size.val ∣ bin.1.val - origin.val ∧ v.IsBin size bin := by
    intro bin hbin
    obtain ⟨here, hhere, hin⟩ := List.mem_flatten.mp hbin
    obtain ⟨l, hl, hyield⟩ := exists_of_mem_right hyields hhere
    obtain ⟨rfl, hpart⟩ := hyield.isBin hin
    exact ⟨dvd_of_mem_binLowers hl, hpart⟩
  have hrising : heres.flatten.Pairwise fun a b => a.1.val < b.1.val := by
    refine List.pairwise_flatten.mpr ⟨fun here hhere => ?_, ?_⟩
    · obtain ⟨l, -, hyield⟩ := exists_of_mem_right hyields hhere
      exact hyield.pairwise
    · refine pairwise_of_forall₂ hyields (pairwise_binLowers hpos)
        fun l here l' here' hl hl' hlt a ha b hb => ?_
      rw [(hl.isBin ha).1, (hl'.isBin hb).1]
      exact hlt
  refine ⟨hrising, fun bin hbin => (hfrom bin hbin).1, fun bin hbin => (hfrom bin hbin).2,
    fun t ht => ?_⟩
  obtain ⟨x, hx⟩ := Option.isSome_iff_exists.mp ht
  obtain ⟨l, hl, hmem⟩ :=
    Takes.exists_bin ((h.wellFormed.valueAt_eq_some_iff t x).mp hx) hpos hend
  obtain ⟨here, hhere, hyield⟩ := exists_of_mem_left hyields hl
  obtain ⟨bin, hbin, hvalue⟩ := hyield.exists_mem hx hmem
  have hin := List.mem_flatten.mpr ⟨here, hhere, hbin⟩
  refine ⟨bin, ⟨hin, Option.isSome_of_mem hvalue⟩, ?_⟩
  -- another part at the same timestamp has the same value there, so it belongs to the same bin
  rintro other ⟨hother, hdefined⟩
  obtain ⟨y, hy⟩ := Option.isSome_iff_exists.mp hdefined
  obtain ⟨hdvd, hpart⟩ := hfrom bin hin
  obtain ⟨hdvd', hpart'⟩ := hfrom other hother
  obtain ⟨hvx, hxmem⟩ := (hpart.valueAt_iff t x).mp hvalue
  obtain ⟨hvy, hymem⟩ := (hpart'.valueAt_iff t y).mp hy
  obtain rfl : x = y := Option.some.inj (hvx.symm.trans hvy)
  have hkeys : (heres.flatten.map fun bin => bin.1.val).Nodup :=
    List.pairwise_map.mpr (hrising.imp ne_of_lt)
  exact List.inj_on_of_nodup_map hkeys hother hin (eq_of_mem_bins hdvd' hdvd hymem hxmem)

lemma valueSplit_eq (v : Temporal Integer) (origin : Integer) (hpos : 0 < size.val) : ∃ n,
    EndAt size.val (v.firstLower size origin) v.maxInstant.value.val (n + 1) ∧
      v.valueSplit size origin = reported (List.flatten <$>
        (binLowers size.val (v.firstLower size origin) (n + 1)).mapM
          fun l => v.inValueBin (ofInt size.val) (ofInt l)) := by
  have hleast := v.minInstant.value.lower
  have hleast' := v.minInstant.value.upper
  have hgreatest := v.maxInstant.value.lower
  have hgreatest' := v.maxInstant.value.upper
  have hsize := size.upper
  have horigin := origin.lower
  have horigin' := origin.upper
  have hfirst := binLower_bounds hpos origin.val v.minInstant.value.val
  obtain ⟨n, hend⟩ := exists_endAt hpos (hfirst.1.trans minInstant_le_maxInstant)
  refine ⟨n, hend, congrArg reported ?_⟩
  have hwidth : decide ((0.0 : Float) < ofInt size.val) = true :=
    decide_eq_true ((ofInt_lt_iff (a := 0) (by decide) (by omega)).mpr hpos)
  change (require (decide ((0.0 : Float) < ofInt size.val)) _ >>= fun _ =>
    binsFrom (ofInt size.val) (ofInt origin.val) (ofInt v.maxInstant.value.val)
      (v.inValueBin (ofInt size.val)) (floor ((ofInt v.minInstant.value.val - ofInt origin.val) /
        ofInt size.val))) = _
  rw [hwidth, ofInt_sub (by omega) (by omega) (by omega), floor_div (by omega) hpos (by omega)]
  unfold firstLower binLower at *
  exact binsFrom_ofInt hpos (by omega) (by omega) (by omega) (by omega) hend

/-- The split of an integer by bins of values ends, with the parts of the value in its bins, unless
the first bin starts below all integers of 32 bits: then that is refused. -/
theorem Sound.valueSplit_parts (h : v.Sound) (origin : Integer) (hpos : 0 < size.val) :
    (∃ bins, v.valueSplit size origin = .ok bins ∧ v.PartedByValue size origin bins) ∨
      v.firstLower size origin < -2 ^ 31 ∧
        v.valueSplit size origin = reported (refuse (outside (v.firstLower size origin))) := by
  obtain ⟨n, hend, hsplit⟩ := v.valueSplit_eq origin hpos
  have hmin := v.minInstant.value.lower
  have hmax := v.maxInstant.value.upper
  have hrange := minInstant_le_maxInstant (v := v)
  have hsize := size.upper
  obtain ⟨hle, hlt⟩ : v.firstLower size origin ≤ v.minInstant.value.val ∧
      v.minInstant.value.val < v.firstLower size origin + size.val :=
    binLower_bounds hpos origin.val v.minInstant.value.val
  -- the bins after the first one start above the least integer, so they fit
  have hrest : ∀ l ∈ binLowers size.val (v.firstLower size origin + size.val) n,
      ∃ here, v.inValueBin (ofInt size.val) (ofInt l) = .ok here ∧ v.Yields size l here := by
    intro l hl
    have hlo := le_of_mem_binLowers hpos hl
    have hhi := hend.1 l (List.mem_cons_of_mem _ hl)
    refine (h.inValueBin_spec hpos (by omega)).resolve_right fun hnone => ?_
    have := Signed.ofInt?_eq_none.mp hnone.1
    omega
  have hnear : (v.firstLower size origin).natAbs ≤ 2 ^ 40 := by omega
  rcases h.inValueBin_spec hpos hnear with hhere | ⟨hnone, hrefused⟩
  · obtain ⟨heres, hheres⟩ := exists_forall₂_iff.mpr (List.forall_mem_cons.mpr ⟨hhere, hrest⟩)
    have hfound : (binLowers size.val (v.firstLower size origin) (n + 1)).mapM
        (fun l => v.inValueBin (ofInt size.val) (ofInt l)) = .ok heres :=
      mapM_eq_ok.mpr (hheres.imp fun _ _ hl => hl.1)
    refine Or.inl ⟨heres.flatten, ?_, h.partedByValue hpos hend (hheres.imp fun _ _ hl => hl.2)⟩
    rw [hsplit, hfound]
    rfl
  · have hfits := Signed.ofInt?_eq_none.mp hnone
    refine Or.inr ⟨by omega, ?_⟩
    rw [hsplit, binLowers, List.mapM_cons, bind_of_error hrefused]
    rfl

/-- What goes up by steps is split by bins of two numbers each; its last value has a part. -/
theorem stairs_split_by_values :
    stairs.Sound ∧ 0 < (Signed.clamp 2 : Integer).val ∧
      ∃ bins, stairs.valueSplit (.clamp 2) (.clamp (-3)) = .ok bins ∧
        stairs.PartedByValue (.clamp 2) (.clamp (-3)) bins ∧
        ∃ bin ∈ bins, (bin.2.valueAt (.nearest 10)).isSome = true := by
  have hsound : stairs.Sound := ⟨stairs_wellFormed, rfl⟩
  have hpos : 0 < (Signed.clamp 2 : Integer).val := by decide
  obtain ⟨bins, hbins, hparts⟩ := (hsound.valueSplit_parts (.clamp (-3)) hpos).resolve_right
    fun h => absurd h.1 (by decide +kernel)
  obtain ⟨bin, ⟨hbin, hdefined⟩, -⟩ := hparts.once (.nearest 10) (by decide +kernel)
  exact ⟨hsound, hpos, bins, hbins, hparts, bin, hbin, hdefined⟩

end

end Temporal

end TemporalAlgebra
