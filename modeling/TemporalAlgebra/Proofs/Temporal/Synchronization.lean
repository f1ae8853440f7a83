import TemporalAlgebra.Proofs.Temporal.Held
import TemporalAlgebra.Temporal.Lift

/-!
# Synchronized sequences

A function lifted to two sequences is applied at the timestamps at which either one has an instant.
Between two of these neither one has any, so that the values held there are those at the first of
them and one result stands for the whole stretch. The stretches follow each other without a gap, and
the results are defined all over the common period.
-/
namespace TemporalAlgebra

namespace Timestamp

/-- Neighbours that differ rise if they did not fall. -/
lemma distinctBy_spec {times : List Timestamp}
    (h : times.Pairwise fun t u => t.place ≤ u.place) :
    ((Temporal.distinctBy (· == ·) times).Pairwise fun t u => t.place < u.place) ∧
      ∀ t, t ∈ Temporal.distinctBy (· == ·) times ↔ t ∈ times := by
  fun_induction Temporal.distinctBy with
  | case1 => simp
  | case2 => simp
  | case3 a b rest heq ih =>
    obtain ⟨hrise, hmem⟩ := ih (h.sublist (by simp))
    refine ⟨hrise, fun t => ?_⟩
    rw [hmem, eq_of_beq heq]
    simp
  | case4 a b rest hne ih =>
    obtain ⟨hrise, hmem⟩ := ih h.tail
    have hab : a.place < b.place := by
      have := List.rel_of_pairwise_cons h (List.mem_cons_self (a := b) (l := rest))
      rw [beq_iff] at hne
      omega
    refine ⟨List.pairwise_cons.mpr ⟨fun t ht => ?_, hrise⟩, fun t => ?_⟩
    · rcases List.mem_cons.mp ((hmem t).mp ht) with rfl | ht
      · exact hab
      · have := List.rel_of_pairwise_cons h.tail ht
        omega
    · rw [List.mem_cons, hmem, ← List.mem_cons]

/-- Distinct timestamps rise and are the given ones. -/
lemma distinct_spec (times : List Timestamp) :
    ((distinct times).Pairwise fun t u => t.place < u.place) ∧
      ∀ t, t ∈ distinct times ↔ t ∈ times := by
  have hsorted : (times.mergeSort fun t u => t ≤ u).Pairwise fun t u => decide (t ≤ u) = true := by
    refine List.pairwise_mergeSort (fun t u w htu huw => ?_) (fun t u => ?_) times
    · rw [decide_eq_true_eq, le_iff] at htu huw ⊢
      omega
    · rw [Bool.or_eq_true, decide_eq_true_eq, decide_eq_true_eq, le_iff, le_iff]
      omega
  obtain ⟨hrise, hmem⟩ := distinctBy_spec (hsorted.imp fun {t u} htu => by
    rwa [decide_eq_true_eq, le_iff] at htu)
  exact ⟨hrise, fun t => (hmem t).trans (List.mergeSort_perm times _).mem_iff⟩

/-- Of rising timestamps none lies between two neighbours. -/
lemma isChain_of_rising {times : List Timestamp}
    (h : times.Pairwise fun t u => t.place < u.place) : times.IsChain fun t u =>
      (t ∈ times ∧ u ∈ times) ∧ t.place < u.place ∧
        ∀ x ∈ times, x.place ≤ t.place ∨ u.place ≤ x.place := by
  induction times with
  | nil => exact List.isChain_nil
  | cons t rest ih =>
    cases rest with
    | nil => exact List.isChain_singleton t
    | cons u rest =>
      have htu : t.place < u.place := List.rel_of_pairwise_cons h (by simp)
      refine List.isChain_cons_cons.mpr ⟨⟨by simp, htu, fun x hx => ?_⟩, ?_⟩
      · rcases List.mem_cons.mp hx with rfl | hx
        · exact Or.inl (le_refl _)
        · rcases List.mem_cons.mp hx with rfl | hx
          · exact Or.inr (le_refl _)
          · exact Or.inr (List.rel_of_pairwise_cons h.tail hx).le
      · refine (ih h.tail).imp fun {y z} hyz => ?_
        obtain ⟨⟨hy, hz⟩, hlt, hno⟩ := hyz
        refine ⟨⟨List.mem_cons_of_mem _ hy, List.mem_cons_of_mem _ hz⟩, hlt, fun x hx => ?_⟩
        rcases List.mem_cons.mp hx with rfl | hx
        · exact Or.inl (List.rel_of_pairwise_cons h hy).le
        · exact hno x hx

end Timestamp

namespace Sequence

variable {V R : Type} [TemporalValue V] [TemporalValue R]

/-- From a timestamp on which a sequence has begun up to another one it has no instant. -/
structure Steady (s : Sequence V) (t0 t1 : Timestamp) : Prop where
  begun : s.first.time.place ≤ t0.place
  no_instant : ∀ i ∈ s.instants, i.time.place ≤ t0.place ∨ t1.place ≤ i.time.place

lemma Steady.held_eq {s : Sequence V} {t0 t1 : Timestamp} (h : s.Steady t0 t1)
    (hs : s.instants.Pairwise Instant.Precedes) {n : Int} (hlo : t0.place ≤ n)
    (hhi : n < t1.place) : s.held n = s.held t0.place := by
  obtain ⟨i, hi, hv⟩ := exists_latest hs (h.begun.trans hlo)
  have hle : i.time.place ≤ t0.place := by
    have := hi.place_le
    rcases h.no_instant i hi.mem with hle | hge
    · exact hle
    · omega
  have hlatest : Latest t0.place s.instants i :=
    ⟨hi.mem, hle, fun j hj hjt => hi.le_place j hj (hjt.trans hlo)⟩
  exact hv.trans (heldFrom_of_latest hs hlatest).symm

/-- Pieces that are defined from one place to another, where they have the results of a function of
the values held by two sequences. -/
structure Spreads (g : Lifting V R) (a b : Sequence V) (interp : Interpolation) (lo hi : Int)
    (pieces : List (Sequence R)) : Prop where
  wellFormed : ∀ x ∈ pieces, x.WellFormed
  interp_eq : ∀ x ∈ pieces, x.interp = interp
  covers_iff : ∀ n, (∃ x ∈ pieces, x.Covers n) ↔ lo ≤ n ∧ n ≤ hi
  apply_eq : StepValue V → StepValue R → ∀ x ∈ pieces, ∀ n, x.Covers n →
    g.apply (a.held n) (b.held n) = .ok (x.held n)

section

variable {g : Lifting V R} {a b : Sequence V} {interp : Interpolation}

lemma Spreads.nil {lo hi : Int} (h : hi < lo) : Spreads g a b interp lo hi [] := by
  refine ⟨by simp, by simp, fun n => ?_, by simp⟩
  simp only [List.not_mem_nil, false_and, exists_false, false_iff]
  omega

lemma Spreads.single {lo hi : Int} {x : Sequence R} (hx : x.WellFormed) (hi' : x.interp = interp)
    (hc : ∀ n, x.Covers n ↔ lo ≤ n ∧ n ≤ hi)
    (happly : StepValue V → StepValue R → ∀ n, lo ≤ n ∧ n ≤ hi →
      g.apply (a.held n) (b.held n) = .ok (x.held n)) : Spreads g a b interp lo hi [x] := by
  refine ⟨by simpa using hx, by simpa using hi', by simpa using hc, fun hv hr y hy n hn => ?_⟩
  obtain rfl := List.mem_singleton.mp hy
  exact happly hv hr n ((hc n).mp hn)

lemma Spreads.append {lo mid hi : Int} {pieces more : List (Sequence R)}
    (h : Spreads g a b interp lo (mid - 1) pieces) (h' : Spreads g a b interp mid hi more)
    (hlo : lo ≤ mid) (hhi : mid - 1 ≤ hi) : Spreads g a b interp lo hi (pieces ++ more) := by
  refine ⟨fun x hx => ?_, fun x hx => ?_, fun n => ?_, fun hv hr x hx => ?_⟩
  · exact (List.mem_append.mp hx).elim (h.wellFormed x) (h'.wellFormed x)
  · exact (List.mem_append.mp hx).elim (h.interp_eq x) (h'.interp_eq x)
  · simp only [List.mem_append, or_and_right, exists_or, h.covers_iff n, h'.covers_iff n]
    omega
  · exact (List.mem_append.mp hx).elim (h.apply_eq hv hr x) (h'.apply_eq hv hr x)

omit [TemporalValue R] in
lemma liftAt_eq_ok {t : Timestamp} {i : Instant R} : liftAt g a b t = .ok i ↔
    ∃ x, a.valueNear t = .ok x ∧ ∃ y, b.valueNear t = .ok y ∧
      ∃ z, g.apply x y = .ok z ∧ ⟨z, t⟩ = i := by
  unfold liftAt
  simp only [bind_eq_ok, pure_eq_ok]

omit [TemporalValue R] in
lemma apply_held (ha : a.WellFormed) (hb : b.WellFormed) (hv : StepValue V) {t : Timestamp}
    {i : Instant R} (h : liftAt g a b t = .ok i) :
    g.apply (a.held t.place) (b.held t.place) = .ok i.value := by
  obtain ⟨x, hx, y, hy, z, hz, rfl⟩ := liftAt_eq_ok.mp h
  rw [valueNear_eq ha.interp_ne_linear] at hx
  rw [valueNear_eq hb.interp_ne_linear] at hy
  rw [Except.ok.inj hx, Except.ok.inj hy, hz]

variable [LawfulValue R]

lemma spreads_ofInstant (ha : a.WellFormed) (hb : b.WellFormed) {t : Timestamp} {i : Instant R}
    (h : liftAt g a b t = .ok i) (hi : interp = .linear → TemporalValue.continuous R = true) :
    Spreads g a b interp t.place t.place [ofInstant i interp] := by
  have htime : i.time = t := by
    obtain ⟨_, -, _, -, _, -, rfl⟩ := liftAt_eq_ok.mp h
    rfl
  refine Spreads.single (wellFormed_ofInstant _ hi) rfl (fun n => ?_) fun hv _ n hn => ?_
  · rw [covers_ofInstant, htime]
    omega
  · obtain rfl : n = t.place := by omega
    rw [apply_held ha hb hv h]
    rfl

/-- A run of two instants that excludes the second one. -/
lemma makeRun_pair_spec {start stop : Instant R} {lowerInc : Bool} {x : Sequence R}
    (h : makeRun start [stop] lowerInc false interp false = .ok x) (hd : interp ≠ .discrete) :
    x.WellFormed ∧ x.interp = interp ∧
      (∀ n, x.Covers n ↔ (start.time.place + if lowerInc then 0 else 1) ≤ n ∧
        n ≤ stop.time.place - 1) ∧
      (interp = .step → ∀ n < stop.time.place, x.held n = start.value) := by
  have hbuilt := builtFrom_of_makeRun h
  obtain ⟨-, -, hx⟩ := makeRun_eq_ok_iff.mp h
  refine ⟨hbuilt.wellFormed, hbuilt.interp_eq, fun n => ?_, fun hs n hn => ?_⟩
  · rw [covers_of_continuous (isDiscrete_eq_false_iff.mpr (hbuilt.interp_eq ▸ hd)), hbuilt.lo_eq,
      hbuilt.hi_eq]
    rfl
  · rw [← hx]
    change heldFrom n start [stop] = start.value
    rw [heldFrom, if_neg (by omega)]

omit [TemporalValue R] in
lemma inside_eq {s : Sequence V} (h : s.interp ≠ .linear) (t0 t1 : Timestamp) :
    s.inside t0 t1 = .ok (s.held t0.place) := by
  unfold inside
  rw [bind_of_ok (valueNear_eq h t0)]
  cases hi : s.interp with
  | linear => exact absurd hi h
  | discrete => rfl
  | step => rfl

variable [LawfulValue V]

/-- The results over a stretch in which neither sequence has an instant. -/
lemma liftStretch_spec (ha : a.WellFormed) (hb : b.WellFormed) {t0 t1 : Timestamp}
    (hta : a.Steady t0 t1) (htb : b.Steady t0 t1) (hd : interp ≠ .discrete)
    (hc : interp = .linear → TemporalValue.continuous R = true) {lowerInc : Bool}
    {pieces : List (Sequence R)} (hlt : t0.place < t1.place)
    (h : liftStretch g a b interp lowerInc t0 t1 = .ok pieces) :
    Spreads g a b interp (t0.place + if lowerInc then 0 else 1) (t1.place - 1) pieces := by
  unfold liftStretch at h
  rw [bind_eq_ok] at h
  obtain ⟨start, hstart, h⟩ := h
  have happly : StepValue V → ∀ n, t0.place ≤ n → n < t1.place →
      g.apply (a.held n) (b.held n) = .ok start.value := by
    intro hv n hlo hhi
    rw [hta.held_eq ha.rising hlo hhi, htb.held_eq hb.rising hlo hhi, apply_held ha hb hv hstart]
  have hfirst := hstart
  obtain ⟨_, -, _, -, z, -, rfl⟩ := liftAt_eq_ok.mp hstart
  split at h
  · rename_i hlinear
    simp only [bind_eq_ok, pure_eq_ok] at h
    obtain ⟨_, -, _, -, _, -, x, hx, rfl⟩ := h
    obtain ⟨hwf, hi, hcov, -⟩ := makeRun_pair_spec hx hd
    refine Spreads.single hwf hi hcov fun _ hr => ?_
    exact absurd (hi.trans (eq_of_beq hlinear)) hwf.interp_ne_linear
  · rename_i hstep
    obtain rfl : interp = .step := by
      cases interp with
      | linear => exact absurd rfl hstep
      | discrete => exact absurd rfl hd
      | step => rfl
    simp only [bind_eq_ok] at h
    obtain ⟨x, hxmid, y, hymid, mid, hmid, h⟩ := h
    split at h
    · simp only [bind_eq_ok, pure_eq_ok] at h
      obtain ⟨x, hx, rfl⟩ := h
      obtain ⟨hwf, hi, hcov, hheld⟩ := makeRun_pair_spec hx hd
      refine Spreads.single hwf hi hcov fun hv _ n hn => ?_
      rw [happly hv n (by split at hn <;> omega) (by omega)]
      exact congrArg Except.ok (hheld rfl n (by change n < t1.place; omega)).symm
    · rename_i hne
      simp only [bind_eq_ok, pure_eq_ok] at h
      obtain ⟨x, hx, rfl⟩ := h
      obtain ⟨hwf, hi, hcov, -⟩ := makeRun_pair_spec hx hd
      -- without interpolation the two results are one
      have hsame : StepValue V → StepValue R → False := by
        intro hv hr
        have hstep := apply_held ha hb hv hfirst
        rw [inside_eq ha.interp_ne_linear] at hxmid
        rw [inside_eq hb.interp_ne_linear] at hymid
        rw [← Except.ok.inj hxmid, ← Except.ok.inj hymid, hstep] at hmid
        obtain rfl := Except.ok.inj hmid
        exact hne BEq.rfl
      have hrest : Spreads g a b .step (t0.place + 1) (t1.place - 1) [x] :=
        Spreads.single hwf hi hcov fun hv hr => (hsame hv hr).elim
      cases lowerInc with
      | false => exact hrest
      | true =>
        have hinstant :
            Spreads g a b .step t0.place (t0.place + 1 - 1) [ofInstant ⟨z, t0⟩ .step] := by
          rw [Int.add_sub_cancel]
          exact spreads_ofInstant ha hb hstart (by simp)
        simp only [if_true, Int.add_zero]
        exact hinstant.append hrest (by omega) (by omega)

/-- The results over all stretches follow each other. -/
lemma liftStretches_spec (ha : a.WellFormed) (hb : b.WellFormed) (hd : interp ≠ .discrete)
    (hc : interp = .linear → TemporalValue.continuous R = true) {upperInc : Bool}
    {t : Timestamp} {rest : List Timestamp} {lowerInc : Bool} {pieces : List (Sequence R)}
    (hchain : (t :: rest).IsChain fun t0 t1 =>
      t0.place < t1.place ∧ a.Steady t0 t1 ∧ b.Steady t0 t1)
    (hinc : lowerInc = true ∨ rest ≠ [])
    (h : liftStretches g a b interp upperInc lowerInc (t :: rest) = .ok pieces) :
    t.place ≤ (rest.getLastD t).place ∧
      Spreads g a b interp (t.place + if lowerInc then 0 else 1)
        ((rest.getLastD t).place - if upperInc then 0 else 1) pieces := by
  induction rest generalizing t lowerInc pieces with
  | nil =>
    obtain rfl : lowerInc = true := hinc.resolve_right (by simp)
    refine ⟨le_refl _, ?_⟩
    rw [liftStretches] at h
    cases upperInc with
    | true =>
      simp only [if_true, bind_eq_ok, pure_eq_ok] at h
      obtain ⟨i, hi, rfl⟩ := h
      simpa using spreads_ofInstant ha hb hi hc
    | false =>
      obtain rfl := Except.ok.inj h
      exact Spreads.nil (by rw [List.getLastD_nil, if_neg Bool.false_ne_true]; omega)
  | cons t1 rest ih =>
    obtain ⟨⟨hlt, hta, htb⟩, hchain⟩ := List.isChain_cons_cons.mp hchain
    rw [liftStretches] at h
    simp only [bind_eq_ok, pure_eq_ok] at h
    obtain ⟨first, hfirst, more, hmore, rfl⟩ := h
    obtain ⟨hle, hspreads⟩ := ih hchain (Or.inl rfl) hmore
    simp only [if_true, Int.add_zero] at hspreads
    rw [List.getLastD_cons]
    refine ⟨by omega, ?_⟩
    refine Spreads.append (liftStretch_spec ha hb hta htb hd hc hlt hfirst) hspreads ?_ ?_
    · split <;> omega
    · split <;> omega

end

/-- Rising timestamps from the one end of a period to the other with those of all instants of two
sequences between the ends. -/
structure Synchronizes (a b : Sequence V) (p : Period) (times : List Timestamp) : Prop where
  rising : times.Pairwise fun t u => t.place < u.place
  lower_mem : p.lower ∈ times
  upper_mem : p.upper ∈ times
  within : ∀ t ∈ times, p.lower.place ≤ t.place ∧ t.place ≤ p.upper.place
  instants_mem : ∀ i ∈ a.instants ++ b.instants, p.lower.place < i.time.place →
    i.time.place < p.upper.place → i.time ∈ times

section

variable {a b : Sequence V} {p : Period}

lemma synchronizes_commonTimes (hp : p.lower.place ≤ p.upper.place) :
    Synchronizes a b p (commonTimes a b p) := by
  obtain ⟨hrise, hmem⟩ := Timestamp.distinct_spec
    (((a.instants ++ b.instants).map Instant.time).filter
      (fun t => decide (p.lower < t ∧ t < p.upper)) ++ [p.lower, p.upper])
  have hmem' : ∀ t, t ∈ commonTimes a b p ↔
      ((∃ i ∈ a.instants ++ b.instants, i.time = t) ∧ p.lower.place < t.place ∧
        t.place < p.upper.place) ∨ t = p.lower ∨ t = p.upper := by
    intro t
    refine (hmem t).trans ?_
    rw [List.mem_append, List.mem_filter, List.mem_map, decide_eq_true_eq, Timestamp.lt_iff,
      Timestamp.lt_iff, List.mem_pair]
  refine ⟨hrise, ?_, ?_, fun t ht => ?_, fun i hi hlo hhi => ?_⟩
  · exact (hmem' _).mpr (Or.inr (Or.inl rfl))
  · exact (hmem' _).mpr (Or.inr (Or.inr rfl))
  · rcases (hmem' t).mp ht with ⟨-, hlo, hhi⟩ | rfl | rfl
    · omega
    · exact ⟨le_refl _, hp⟩
    · exact ⟨hp, le_refl _⟩
  · exact (hmem' _).mpr (Or.inl ⟨⟨i, hi, rfl⟩, hlo, hhi⟩)

omit [TemporalValue R] in
lemma between_of_turningTime {g : Lifting V R} {t0 t1 t : Timestamp}
    (h : turningTime g a b t0 t1 = .ok (some t)) : t0.place < t.place ∧ t.place < t1.place := by
  unfold turningTime at h
  simp only [bind_eq_ok] at h
  obtain ⟨_, -, _, -, _, -, _, -, h⟩ := h
  split at h
  · cases h
  · simp only [bind_eq_ok, pure_eq_ok] at h
    obtain ⟨u, -, hu⟩ := h
    split at hu
    · rename_i hin
      obtain rfl := Option.some.inj hu
      rwa [Timestamp.lt_iff, Timestamp.lt_iff] at hin
    · cases hu

omit [TemporalValue R] in
/-- Turning points lie between timestamps that are there already. -/
lemma Synchronizes.withTurnings {times more : List Timestamp} (h : Synchronizes a b p times)
    {g : Lifting V R} (hmore : withTurnings g a b times = .ok more) :
    Synchronizes a b p more := by
  unfold Sequence.withTurnings at hmore
  simp only [bind_eq_ok, pure_eq_ok] at hmore
  obtain ⟨turnings, hturnings, rfl⟩ := hmore
  obtain ⟨hrise, hmem⟩ := Timestamp.distinct_spec (times ++ turnings.filterMap id)
  have hold : ∀ t ∈ times, t ∈ Timestamp.distinct (times ++ turnings.filterMap id) := fun t ht =>
    (hmem t).mpr (List.mem_append_left _ ht)
  refine ⟨hrise, hold _ h.lower_mem, hold _ h.upper_mem, fun t ht => ?_,
    fun i hi hlo hhi => hold _ (h.instants_mem i hi hlo hhi)⟩
  rcases List.mem_append.mp ((hmem t).mp ht) with ht | ht
  · exact h.within t ht
  · obtain ⟨found, hfound, rfl⟩ := List.mem_filterMap.mp ht
    obtain ⟨⟨t0, t1⟩, hpair, hturn⟩ := mem_of_mapM_eq_ok hturnings hfound
    obtain ⟨h0, h1⟩ := List.of_mem_zip hpair
    have h0 := h.within t0 h0
    have h1 := h.within t1 (List.mem_of_mem_tail h1)
    have hbetween : t0.place < t.place ∧ t.place < t1.place := between_of_turningTime hturn
    omega

lemma Synchronizes.isChain {times : List Timestamp} (h : Synchronizes a b p times)
    (ha : a.first.time.place ≤ p.lower.place) (hb : b.first.time.place ≤ p.lower.place) :
    times.IsChain fun t0 t1 => t0.place < t1.place ∧ a.Steady t0 t1 ∧ b.Steady t0 t1 := by
  refine (Timestamp.isChain_of_rising h.rising).imp fun {t0 t1} ht => ?_
  obtain ⟨⟨h0, h1⟩, hlt, hno⟩ := ht
  have h0 := h.within t0 h0
  have h1 := h.within t1 h1
  have hsteady : ∀ i ∈ a.instants ++ b.instants,
      i.time.place ≤ t0.place ∨ t1.place ≤ i.time.place := by
    intro i hi
    by_cases hlo : p.lower.place < i.time.place
    · by_cases hhi : i.time.place < p.upper.place
      · exact hno _ (h.instants_mem i hi hlo hhi)
      · omega
    · omega
  exact ⟨hlt, ⟨by omega, fun i hi => hsteady i (List.mem_append_left _ hi)⟩,
    ⟨by omega, fun i hi => hsteady i (List.mem_append_right _ hi)⟩⟩

/-- Synchronized timestamps go from the one end of the period to the other. -/
lemma Synchronizes.exists_cons {times : List Timestamp} (h : Synchronizes a b p times)
    (hp : p.lower.place < p.upper.place) :
    ∃ rest, times = p.lower :: rest ∧ rest ≠ [] ∧ rest.getLastD p.lower = p.upper := by
  obtain ⟨t, rest, rfl⟩ := List.exists_cons_of_ne_nil (List.ne_nil_of_mem h.lower_mem)
  have hfirst : t = p.lower := by
    rcases List.mem_cons.mp h.lower_mem with heq | hmem
    · exact heq.symm
    · have := List.rel_of_pairwise_cons h.rising hmem
      have := (h.within t (by simp)).1
      omega
  have hrest : rest ≠ [] := by
    rintro rfl
    have := List.mem_singleton.mp h.upper_mem
    rw [this, hfirst] at hp
    omega
  refine ⟨rest, by rw [hfirst], hrest, ?_⟩
  obtain ⟨xs, z, rfl⟩ := (List.eq_nil_or_concat' rest).resolve_left hrest
  rw [List.getLastD_concat]
  have hz := (h.within z (by simp)).2
  refine Timestamp.eq_iff.mpr (le_antisymm hz ?_)
  have hrise := h.rising
  rw [← List.cons_append, List.pairwise_append] at hrise
  rcases List.mem_append.mp (List.cons_append ▸ h.upper_mem) with hmem | hmem
  · exact (hrise.2.2 _ hmem z (by simp)).le
  · rw [List.mem_singleton.mp hmem]

/-- Interpolation of the results of a function of two sequences. -/
def liftedInterp (R : Type) [TemporalValue R] (a b : Interpolation) : Interpolation :=
  if TemporalValue.continuous R && (a == .linear || b == .linear) then .linear else .step

omit [TemporalValue V] in
lemma liftedInterp_ne_discrete (a b : Interpolation) : liftedInterp R a b ≠ .discrete := by
  unfold liftedInterp
  split <;> simp

omit [TemporalValue V] in
lemma continuous_of_liftedInterp {a b : Interpolation} (h : liftedInterp R a b = .linear) :
    TemporalValue.continuous R = true := by
  unfold liftedInterp at h
  split at h
  · rename_i hcond
    exact (Bool.and_eq_true_iff.mp hcond).1
  · cases h

variable [LawfulValue V] [LawfulValue R]

/-- What is lifted over a common period is defined all over it. -/
lemma lift_spec {g : Lifting V R} (ha : a.WellFormed) (hb : b.WellFormed)
    (hfa : a.first.time.place ≤ p.lower.place) (hfb : b.first.time.place ≤ p.lower.place)
    (hp : p.lo ≤ p.hi) {pieces : List (Sequence R)} (h : lift g a b p = .ok pieces) :
    Spreads g a b (liftedInterp R a.interp b.interp) p.lo p.hi pieces := by
  have hdef : lift g a b p =
      if p.isInstant then
        return [ofInstant (← liftAt g a b p.lower) (liftedInterp R a.interp b.interp)]
      else
        (if a.interp == .linear || b.interp == .linear then withTurnings g a b (commonTimes a b p)
        else pure (commonTimes a b p)) >>= fun times =>
          liftStretches g a b (liftedInterp R a.interp b.interp) p.upperInc p.lowerInc times := by
    unfold lift
    dsimp only
    split
    · rfl
    · split <;> rfl
  rw [hdef] at h
  split at h
  · rename_i hinstant
    simp only [bind_eq_ok, pure_eq_ok] at h
    obtain ⟨i, hi, rfl⟩ := h
    obtain ⟨hlo, hhi⟩ := Period.ends_of_isInstant hp hinstant
    rw [hlo, hhi]
    exact spreads_ofInstant ha hb hi continuous_of_liftedInterp
  · rename_i hinstant
    have hlt := Period.lower_lt_upper hp hinstant
    have hcommon := synchronizes_commonTimes (a := a) (b := b) hlt.le
    obtain ⟨times, htimes, h⟩ := bind_eq_ok.mp h
    have hsync : Synchronizes a b p times := by
      split at htimes
      · exact hcommon.withTurnings htimes
      · rwa [← pure_eq_ok.mp htimes]
    have hchain := hsync.isChain hfa hfb
    obtain ⟨rest, rfl, hrest, hlast⟩ := hsync.exists_cons hlt
    have hspreads := (liftStretches_spec ha hb (liftedInterp_ne_discrete _ _)
      continuous_of_liftedInterp hchain (Or.inr hrest) h).2
    rw [hlast] at hspreads
    rwa [Period.lo_eq, Period.hi_eq]

omit [LawfulValue V] [TemporalValue R] [LawfulValue R] in
lemma begun_of_intersection (h : a.period.intersection b.period = some p) :
    a.first.time.place ≤ p.lower.place ∧ b.first.time.place ≤ p.lower.place ∧
      p.lo = max a.lo b.lo ∧ p.hi = min a.hi b.hi ∧ p.lo ≤ p.hi := by
  obtain ⟨hlo, hhi, hle⟩ := Span.intersection_eq_some_iff.mp h
  change p.lo = max a.lo b.lo at hlo
  have hplo := Period.lo_eq p
  have halo := lo_eq a
  have hblo := lo_eq b
  have := p.lower.place_emod
  have := a.first.time.place_emod
  have := b.first.time.place_emod
  refine ⟨?_, ?_, hlo, hhi, hle⟩
  · split at hplo <;> split at halo <;> omega
  · split at hplo <;> split at hblo <;> omega

/-- What is lifted over the common period is defined where both sequences are. -/
lemma liftCommon_spec {g : Lifting V R} (ha : a.WellFormed) (hb : b.WellFormed)
    {pieces : List (Sequence R)} (h : liftCommon g a b = .ok pieces) :
    Spreads g a b (liftedInterp R a.interp b.interp) (max a.lo b.lo) (min a.hi b.hi) pieces := by
  unfold liftCommon at h
  cases hcommon : a.period.intersection b.period with
  | none =>
    rw [hcommon] at h
    obtain rfl := Except.ok.inj h
    exact Spreads.nil (Span.intersection_eq_none_iff.mp hcommon)
  | some p =>
    rw [hcommon] at h
    obtain ⟨hfa, hfb, hlo, hhi, hle⟩ := begun_of_intersection hcommon
    rw [← hlo, ← hhi]
    exact lift_spec ha hb hfa hfb hle h

end

end Sequence

end TemporalAlgebra
