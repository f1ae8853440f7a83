import TemporalAlgebra.Proofs.Binary.Reading

/-!
# Decoding any bytes

Bytes that are no binary form are refused as such, and by nothing else. A reader does not look at
what follows the bytes that it takes: bytes that are a form are none any more when some of them are
missing at the end, or when more of them follow.
-/
namespace TemporalAlgebra.Binary

def Cursor.followedBy (cursor : Cursor) (more : Bytes) : Cursor :=
  ⟨cursor.bytes ++ more, cursor.little⟩

@[simp] lemma Cursor.followedBy_nil (cursor : Cursor) : cursor.followedBy [] = cursor := by
  unfold followedBy
  rw [List.append_nil]

namespace Reader

variable {α β : Type} {p : α → Prop} {q : β → Prop}

/-- A reader refuses what is at a cursor as no binary form. -/
def Refuses (r : Reader α) (cursor : Cursor) : Prop :=
  ∃ text next, r.runAt cursor = (.error (.refused (.binaryInput text) 0), next)

/-- A reader takes what is at a cursor, whatever follows it, and returns `a`. -/
def Takes (r : Reader α) (cursor : Cursor) (a : α) (next : Cursor) : Prop :=
  ∀ more, r.runAt (cursor.followedBy more) = (.ok a, next.followedBy more)

/-- Wherever it stands, a reader refuses or takes what is there. What it returns has a property. -/
def Reliable (r : Reader α) (p : α → Prop) : Prop :=
  ∀ cursor, Refuses r cursor ∨ ∃ a next, p a ∧ Takes r cursor a next

lemma Takes.runAt {r : Reader α} {cursor next : Cursor} {a : α} (h : Takes r cursor a next) :
    r.runAt cursor = (.ok a, next) := by
  have hnil := h []
  rwa [Cursor.followedBy_nil, Cursor.followedBy_nil] at hnil

lemma Refuses.bind {r : Reader α} {cursor : Cursor} (h : Refuses r cursor) (f : α → Reader β) :
    Refuses (r >>= f) cursor := by
  obtain ⟨text, next, h⟩ := h
  refine ⟨text, next, ?_⟩
  unfold runAt at *
  rw [ExceptT.run_bind, StateT.run_bind, h]
  rfl

lemma Refuses.after {r : Reader α} {f : α → Reader β} {cursor next : Cursor} {a : α}
    (hr : Takes r cursor a next) (hf : Refuses (f a) next) : Refuses (r >>= f) cursor := by
  obtain ⟨text, last, hf⟩ := hf
  exact ⟨text, last, (runAt_bind hr.runAt).trans hf⟩

lemma Takes.bind {r : Reader α} {f : α → Reader β} {cursor next last : Cursor} {a : α} {b : β}
    (hr : Takes r cursor a next) (hf : Takes (f a) next b last) : Takes (r >>= f) cursor b last :=
  fun more => (runAt_bind (hr more)).trans (hf more)

lemma reliable_pure {a : α} (h : p a) : Reliable (pure a) p :=
  fun cursor => Or.inr ⟨a, cursor, h, fun _ => rfl⟩

lemma reliable_fail (text : String) : Reliable (fail text) p :=
  fun cursor => Or.inl ⟨text, cursor, rfl⟩

lemma reliable_fail_bind (text : String) (f : α → Reader β) : Reliable (fail text >>= f) q :=
  fun cursor => Or.inl (Refuses.bind ⟨text, cursor, rfl⟩ f)

lemma Reliable.bind {r : Reader α} {f : α → Reader β} (hr : Reliable r p)
    (hf : ∀ a, p a → Reliable (f a) q) : Reliable (r >>= f) q := by
  intro cursor
  rcases hr cursor with hrefused | ⟨a, next, ha, htakes⟩
  · exact Or.inl (hrefused.bind f)
  · rcases hf a ha next with hrefused | ⟨b, last, hb, hlast⟩
    · exact Or.inl (Refuses.after htakes hrefused)
    · exact Or.inr ⟨b, last, hb, htakes.bind hlast⟩

lemma Reliable.map {r : Reader α} {f : α → β} (h : Reliable r fun a => q (f a)) :
    Reliable (f <$> r) q := by
  rw [map_eq_pure_bind]
  exact h.bind fun a ha => reliable_pure ha

lemma refuses_need {n : Nat} {cursor : Cursor} (h : cursor.bytes.length < n) :
    Refuses (need n) cursor := by
  refine ⟨"Unexpected end of input: need " ++ Decimal.ofNat n ++ " bytes, " ++
    Decimal.ofNat cursor.bytes.length ++ " left", cursor, ?_⟩
  unfold need
  rw [runAt_bind (runAt_get cursor), if_pos h]
  rfl

lemma takes_need {n : Nat} {cursor : Cursor} (h : n ≤ cursor.bytes.length) :
    Takes (need n) cursor () cursor := by
  refine fun more => runAt_need ?_
  change n ≤ (cursor.bytes ++ more).length
  rw [List.length_append]
  omega

lemma reliable_need (n : Nat) : Reliable (need n) fun _ => True := by
  intro cursor
  rcases Nat.lt_or_ge cursor.bytes.length n with hlt | hle
  · exact Or.inl (refuses_need hlt)
  · exact Or.inr ⟨(), cursor, trivial, takes_need hle⟩

lemma reliable_take (n : Nat) : Reliable (take n) fun bytes => bytes.length = n := by
  intro cursor
  rcases Nat.lt_or_ge cursor.bytes.length n with hlt | hle
  · exact Or.inl ((refuses_need hlt).bind _)
  · refine Or.inr ⟨cursor.bytes.take n, ⟨cursor.bytes.drop n, cursor.little⟩,
      List.length_take_of_le hle, fun more => ?_⟩
    unfold take
    rw [runAt_bind (takes_need hle more)]
    change (Except.ok (List.take n (cursor.bytes ++ more)),
      Cursor.mk (List.drop n (cursor.bytes ++ more)) cursor.little) = _
    rw [List.take_append_of_le_length hle, List.drop_append_of_le_length hle]
    rfl

lemma ofLittle_lt (bytes : Bytes) : ofLittle bytes < 256 ^ bytes.length := by
  induction bytes with
  | nil => exact Nat.one_pos
  | cons b bytes ih =>
    have := b.toNat_lt
    rw [ofLittle, List.length_cons, Nat.pow_succ]
    omega

lemma reliable_nat (width : Nat) : Reliable (nat width) fun n => n < 256 ^ width := by
  refine (reliable_take width).bind fun bytes hlen cursor => ?_
  refine Or.inr ⟨ofBytes cursor.little bytes, cursor, ?_, fun _ => rfl⟩
  unfold ofBytes
  refine lt_of_lt_of_eq (ofLittle_lt _) ?_
  split
  · rw [hlen]
  · rw [List.length_reverse, hlen]

lemma reliable_int (width : Nat) : Reliable (int width) fun _ => True :=
  (reliable_nat width).bind fun _ _ => reliable_pure trivial

lemma reliable_order : Reliable order fun _ => True := by
  refine (reliable_nat 1).bind fun n _ => ?_
  match n with
  | 0 => exact fun cursor => Or.inr ⟨(), ⟨cursor.bytes, false⟩, trivial, fun _ => rfl⟩
  | 1 => exact fun cursor => Or.inr ⟨(), ⟨cursor.bytes, true⟩, trivial, fun _ => rfl⟩
  | n + 2 => exact reliable_fail _

lemma reliable_count (size : Nat) : Reliable (count size) fun n => n ≠ 0 ∧ n < 2 ^ 32 := by
  refine (reliable_nat 4).bind fun n hn => ?_
  dsimp only
  split
  · exact reliable_fail_bind _ _
  · exact (reliable_need _).bind fun _ _ => reliable_pure ⟨‹_›, hn⟩

lemma reliable_type (expected : TypeTag) : Reliable (type expected) fun _ => True := by
  refine (reliable_nat 2).bind fun id _ => ?_
  cases TypeTag.ofId? id with
  | none => exact reliable_fail _
  | some found =>
    dsimp only
    split
    · exact reliable_fail _
    · exact reliable_pure trivial

lemma Reliable.many {r : Reader α} (h : Reliable r p) (n : Nat) :
    Reliable (many r n) fun as => as.length = n ∧ ∀ a ∈ as, p a := by
  induction n with
  | zero => exact reliable_pure ⟨rfl, by simp⟩
  | succ n ih =>
    refine h.bind fun a ha => ih.bind fun as has => reliable_pure ?_
    exact ⟨by rw [List.length_cons, has.1], List.forall_mem_cons.mpr ⟨ha, has.2⟩⟩

lemma reliable_ofResult {outcome : Result α} (hsilent : Silent outcome)
    (hreturns : Returns p outcome) : Reliable (ofResult outcome) p := by
  cases outcome with
  | ok a => exact reliable_pure (hreturns a rfl)
  | error f =>
    obtain ⟨cause, rfl⟩ := hsilent f rfl
    intro cursor
    cases cause <;> exact Or.inl ⟨_, cursor, rfl⟩

lemma Reliable.counted {β : Type} {r : Reader β} {q : β → Prop} {size : Nat}
    {build : List β → Result α} (h : Reliable r q) (hsilent : ∀ bs, Silent (build bs))
    (hbuild : ∀ bs, bs.length < 2 ^ 32 → (∀ b ∈ bs, q b) → Returns p (build bs)) :
    Reliable (count size >>= fun n => Reader.many r n >>= fun bs => ofResult (build bs)) p := by
  refine (reliable_count size).bind fun n hn => (h.many n).bind fun bs hbs => ?_
  exact reliable_ofResult (hsilent bs) (hbuild bs (hbs.1 ▸ hn.2) hbs.2)

end Reader

open Reader

variable {α : Type} [BinaryForm α] {p : α → Prop}

/-- Decoding refuses bytes as no binary form. -/
def Rejects (α : Type) [BinaryForm α] (bytes : Bytes) : Prop :=
  ∃ text, (BinaryForm.decode bytes : Result α) = .error (.refused (.binaryInput text) 1)

/-- Any bytes are rejected or are the form of a value that has a property, and that value is read
back from its own form. No bytes are a form that other ones go on from. -/
structure DecodesReliably (α : Type) [BinaryForm α] (p : α → Prop) : Prop where
  rejects_or_returns : ∀ bytes, Rejects α bytes ∨ ∃ x : α, BinaryForm.decode bytes = .ok x ∧ p x
  stable : ∀ {bytes} {x : α}, BinaryForm.decode bytes = .ok x → ∀ variant, ∃ again,
    BinaryForm.encode x variant = .ok again ∧ BinaryForm.decode again = .ok x
  rejects_shorter : ∀ {front back} {x : α}, BinaryForm.decode (front ++ back) = .ok x →
    back ≠ [] → Rejects α front
  rejects_longer : ∀ {bytes more} {x : α}, BinaryForm.decode bytes = .ok x →
    more ≠ [] → Rejects α (bytes ++ more)

lemma rejects_of_refuses {bytes : Bytes}
    (h : Refuses (BinaryForm.read : Reader α) ⟨bytes, true⟩) : Rejects α bytes := by
  obtain ⟨text, next, h⟩ := h.bind fun a => do finish; return a
  refine ⟨text, ?_⟩
  unfold BinaryForm.decode whole
  change reported (Prod.fst (Reader.runAt _ _)) = _
  rw [h]
  rfl

lemma decode_of_takes {bytes : Bytes} {little : Bool} {x : α}
    (h : Takes BinaryForm.read ⟨bytes, true⟩ x ⟨[], little⟩) : BinaryForm.decode bytes = .ok x := by
  unfold BinaryForm.decode whole
  change reported (Prod.fst (Reader.runAt _ _)) = _
  rw [runAt_bind h.runAt]
  rfl

lemma rejects_of_takes {bytes rest : Bytes} {little : Bool} {x : α}
    (h : Takes BinaryForm.read ⟨bytes, true⟩ x ⟨rest, little⟩) (hrest : rest ≠ []) :
    Rejects α bytes := by
  refine ⟨Decimal.ofNat rest.length ++ " trailing bytes after value", ?_⟩
  unfold BinaryForm.decode whole
  change reported (Prod.fst (Reader.runAt _ _)) = _
  rw [runAt_bind h.runAt]
  cases rest with
  | nil => exact absurd rfl hrest
  | cons b rest => rfl

lemma takes_of_decode (hread : Reliable (BinaryForm.read : Reader α) p) {bytes : Bytes} {x : α}
    (h : BinaryForm.decode bytes = .ok x) :
    p x ∧ ∃ little, Takes BinaryForm.read ⟨bytes, true⟩ x ⟨[], little⟩ := by
  have hnot : ¬Rejects α bytes := by
    rintro ⟨text, hrejects⟩
    rw [h] at hrejects
    cases hrejects
  rcases hread ⟨bytes, true⟩ with hrefused | ⟨y, ⟨rest, little⟩, hy, htakes⟩
  · exact absurd (rejects_of_refuses hrefused) hnot
  · obtain rfl : rest = [] := by
      by_contra hrest
      exact hnot (rejects_of_takes htakes hrest)
    rw [decode_of_takes htakes] at h
    obtain rfl := Except.ok.inj h
    exact ⟨hy, little, htakes⟩

/-- Decoding can be relied on if the reader of a type can be and if what it returns is read back. -/
theorem decodesReliably_of_read (hread : Reliable (BinaryForm.read : Reader α) p)
    (hstable : ∀ x, p x → ∀ variant, ∃ again, BinaryForm.encode x variant = .ok again ∧
      BinaryForm.decode again = .ok x) : DecodesReliably α p where
  rejects_or_returns bytes := by
    rcases hread ⟨bytes, true⟩ with hrefused | ⟨x, ⟨rest, little⟩, hx, htakes⟩
    · exact Or.inl (rejects_of_refuses hrefused)
    · by_cases hrest : rest = []
      · subst hrest
        exact Or.inr ⟨x, decode_of_takes htakes, hx⟩
      · exact Or.inl (rejects_of_takes htakes hrest)
  stable h variant := hstable _ (takes_of_decode hread h).1 variant
  rejects_shorter {front back x} h hback := by
    obtain ⟨-, little, htakes⟩ := takes_of_decode hread h
    rcases hread ⟨front, true⟩ with hrefused | ⟨y, ⟨rest, little'⟩, -, hfront⟩
    · exact rejects_of_refuses hrefused
    · -- The reader would leave the same bytes of both.
      have hall : (Except.ok y, Cursor.mk (rest ++ back) little') = (.ok x, ⟨[], little⟩) :=
        (hfront back).symm.trans htakes.runAt
      have hrest := (Cursor.mk.inj (Prod.mk.inj hall).2).1
      exact absurd (List.append_eq_nil_iff.mp hrest).2 hback
  rejects_longer {bytes more x} h hmore := by
    obtain ⟨-, little, htakes⟩ := takes_of_decode hread h
    have hlonger : Takes BinaryForm.read ⟨bytes ++ more, true⟩ x ⟨more, little⟩ := by
      intro others
      have hboth := htakes (more ++ others)
      unfold Cursor.followedBy at hboth ⊢
      rwa [← List.append_assoc] at hboth
    exact rejects_of_takes hlonger hmore

lemma DecodesReliably.imp {q : α → Prop} (h : DecodesReliably α p) (hpq : ∀ x, p x → q x) :
    DecodesReliably α q where
  rejects_or_returns bytes :=
    (h.rejects_or_returns bytes).imp_right fun ⟨x, hx, hp⟩ => ⟨x, hx, hpq x hp⟩
  stable := h.stable
  rejects_shorter := h.rejects_shorter
  rejects_longer := h.rejects_longer

end TemporalAlgebra.Binary
