import TemporalAlgebra.Proofs.Outcome
import TemporalAlgebra.SpanSet.Form

/-!
# Reading what was written

A reader reads a value from the bytes that were written for it if it takes these bytes, whatever
follows them, and returns the value. Readers of parts make up a reader of the whole.
-/
namespace TemporalAlgebra.Binary

section Words

lemma ofLittle_toLittle {width n : Nat} (h : n < 256 ^ width) :
    ofLittle (toLittle width n) = n := by
  induction width generalizing n with
  | zero =>
    rw [Nat.pow_zero, Nat.lt_one_iff] at h
    exact h.symm
  | succ width ih =>
    have hdiv : n / 256 < 256 ^ width := by
      rwa [Nat.div_lt_iff_lt_mul (by decide), ← Nat.pow_succ]
    rw [toLittle, ofLittle, ih hdiv, UInt8.toNat_ofNat']
    omega

lemma ofBytes_toBytes (little : Bool) {width n : Nat} (h : n < 256 ^ width) :
    ofBytes little (toBytes little width n) = n := by
  cases little <;> simp [ofBytes, toBytes, ofLittle_toLittle h]

lemma complement_lt (width : Nat) (n : Int) : complement width n < 256 ^ width := by
  have hpos : 0 < 256 ^ width := Nat.pow_pos (by decide)
  unfold complement
  have hlt := Int.emod_lt_of_pos n (Int.natCast_pos.mpr hpos)
  omega

lemma signed_complement {width : Nat} {n : Int} (hlower : -(256 ^ width : Nat) ≤ 2 * n)
    (hupper : 2 * n < (256 ^ width : Nat)) : signed width (complement width n) = n := by
  unfold signed complement
  generalize 256 ^ width = size at *
  by_cases hn : 0 ≤ n
  · rw [Int.emod_eq_of_lt hn (by omega)]
    split <;> omega
  · have hemod : n % size = n + size := by
      rw [← Int.add_emod_right, Int.emod_eq_of_lt (by omega) (by omega)]
    rw [hemod]
    split <;> omega

end Words

namespace Reader

variable {α β : Type} {little : Bool} {bytes more : Bytes} {a : α} {b : β}

/-- What a reader returns at a cursor, and where it stands then. -/
def runAt (r : Reader α) (cursor : Cursor) : Except Failure α × Cursor :=
  StateT.run (ExceptT.run r) cursor

lemma runAt_bind {r : Reader α} {f : α → Reader β} {cursor next : Cursor}
    (h : r.runAt cursor = (.ok a, next)) : (r >>= f).runAt cursor = (f a).runAt next := by
  unfold runAt at *
  rw [ExceptT.run_bind, StateT.run_bind, h]
  rfl

lemma runAt_get (cursor : Cursor) : (get : Reader Cursor).runAt cursor = (.ok cursor, cursor) := rfl

/-- A reader takes given bytes, in a given order, and returns `a`. -/
def Reads (little : Bool) (r : Reader α) (bytes : Bytes) (a : α) : Prop :=
  ∀ rest, r.runAt ⟨bytes ++ rest, little⟩ = (.ok a, ⟨rest, little⟩)

lemma reads_pure (little : Bool) (a : α) : Reads little (pure a) [] a := fun _ => rfl

lemma Reads.bind {r : Reader α} {f : α → Reader β} (hr : Reads little r bytes a)
    (hf : Reads little (f a) more b) : Reads little (r >>= f) (bytes ++ more) b := by
  intro rest
  rw [List.append_assoc, runAt_bind (hr (more ++ rest))]
  exact hf rest

/-- What is returned without reading on. -/
lemma Reads.bind_pure {r : Reader α} {f : α → Reader β} (hr : Reads little r bytes a)
    (hf : f a = pure b) : Reads little (r >>= f) bytes b := by
  have h := hr.bind (hf ▸ reads_pure little b)
  rwa [List.append_nil] at h

lemma Reads.after_pure {f : α → Reader β} (hf : Reads little (f a) bytes b) :
    Reads little (pure a >>= f) bytes b := (reads_pure little a).bind hf

lemma runAt_need {n : Nat} {cursor : Cursor} (h : n ≤ cursor.bytes.length) :
    (need n).runAt cursor = (.ok (), cursor) := by
  unfold need
  rw [runAt_bind (runAt_get cursor), if_neg (Nat.not_lt.mpr h)]
  rfl

lemma reads_take (little : Bool) (bytes : Bytes) :
    Reads little (take bytes.length) bytes bytes := by
  intro rest
  unfold take
  rw [runAt_bind (runAt_need (by simp))]
  change (Except.ok (List.take bytes.length (bytes ++ rest)),
    Cursor.mk (List.drop bytes.length (bytes ++ rest)) little) = _
  rw [List.take_left, List.drop_left]

lemma reads_nat (little : Bool) {width n : Nat} (h : n < 256 ^ width) :
    Reads little (nat width) (toBytes little width n) n := by
  intro rest
  have htake := reads_take little (toBytes little width n) rest
  rw [length_toBytes] at htake
  unfold nat
  rw [runAt_bind htake]
  change (Except.ok (ofBytes little (toBytes little width n)), Cursor.mk rest little) = _
  rw [ofBytes_toBytes little h]

lemma reads_byte (little : Bool) {n : Nat} (h : n < 256) :
    Reads little (nat 1) [UInt8.ofNat n] n := by
  have hread : Reads little (nat 1) (toBytes little 1 n) n := reads_nat little h
  cases little <;> simpa [toBytes, toLittle, Nat.mod_eq_of_lt h] using hread

lemma reads_int (little : Bool) {width : Nat} {n : Int} (hlower : -(256 ^ width : Nat) ≤ 2 * n)
    (hupper : 2 * n < (256 ^ width : Nat)) :
    Reads little (int width) (toBytes little width (complement width n)) n := by
  apply (reads_nat little (complement_lt width n)).bind_pure
  rw [signed_complement hlower hupper]

lemma Reads.count {size n : Nat} {f : Nat → Reader α} (hn : n ≠ 0) (hlt : n < 2 ^ 32)
    (hroom : n * size ≤ bytes.length) (hf : Reads little (f n) bytes a) :
    Reads little (Reader.count size >>= f) (toBytes little 4 n ++ bytes) a := by
  have hcount : ∀ rest, (Reader.count size).runAt ⟨toBytes little 4 n ++ (bytes ++ rest), little⟩ =
      (.ok n, ⟨bytes ++ rest, little⟩) := by
    intro rest
    unfold Reader.count
    rw [runAt_bind (reads_nat little hlt _), if_neg hn]
    have hneed : min (n * size) (2 ^ 64 - 1) ≤ (bytes ++ rest).length := by
      rw [List.length_append]
      omega
    change (do need (min (n * size) (2 ^ 64 - 1)); return n : Reader Nat).runAt _ = _
    rw [runAt_bind (runAt_need hneed)]
    rfl
  intro rest
  rw [List.append_assoc, runAt_bind (hcount rest)]
  exact hf rest

lemma reads_many {r : Reader β} {as : List α} {write : α → Bytes} {g : α → β}
    (h : ∀ a ∈ as, Reads little r (write a) (g a)) :
    Reads little (many r as.length) (as.flatMap write) (as.map g) := by
  induction as with
  | nil => exact reads_pure little []
  | cons a as ih =>
    rw [List.flatMap_cons, List.map_cons]
    exact (h a (by simp)).bind ((ih fun x hx => h x (by simp [hx])).bind_pure rfl)

lemma reads_type (little : Bool) (t : TypeTag) :
    Reads little (type t) (toBytes little 2 t.id) () := by
  have hid : t.id < 256 ^ 2 := by cases t <;> decide
  have hfound : TypeTag.ofId? t.id = some t := by cases t <;> decide
  apply (reads_nat little hid).bind_pure
  simp only [hfound, ne_eq, not_true_eq_false, if_false]

lemma runAt_order (variant : Variant) (rest : Bytes) (little : Bool) :
    order.runAt ⟨putOrder variant ++ rest, little⟩ = (.ok (), ⟨rest, variant.little⟩) := by
  unfold putOrder order
  cases variant.little with
  | false => exact runAt_bind (reads_byte little (n := 0) (by decide) rest)
  | true => exact runAt_bind (reads_byte little (n := 1) (by decide) rest)

lemma whole_order {variant : Variant} {f : Unit → Reader α}
    (h : Reads variant.little (f ()) bytes a) :
    whole (order >>= f) (putOrder variant ++ bytes) = .ok a := by
  have hbody := h []
  rw [List.append_nil] at hbody
  have hread := (runAt_bind (runAt_order variant bytes true)).trans hbody
  change ((do let a ← order >>= f; finish; return a : Reader α).runAt _).1 = _
  rw [runAt_bind hread]
  rfl

end Reader

lemma mul_le_length_flatMap {α : Type} {as : List α} {write : α → Bytes} {size : Nat}
    (h : ∀ a ∈ as, size ≤ (write a).length) : as.length * size ≤ (as.flatMap write).length := by
  induction as with
  | nil => simp
  | cons a as ih =>
    have ha := h a (by simp)
    have has := ih fun x hx => h x (by simp [hx])
    rw [List.length_cons, Nat.succ_mul, List.flatMap_cons, List.length_append]
    omega

lemma Reader.Reads.counted {α β : Type} {little : Bool} {r : Reader β} {write : β → Bytes}
    {size : Nat} {bs : List β} {f : List β → Reader α} {a : α} (hne : bs ≠ [])
    (hlt : bs.length < 2 ^ 32) (hsize : ∀ b ∈ bs, size ≤ (write b).length)
    (hreads : ∀ b ∈ bs, Reads little r (write b) b) (hf : f bs = pure a) :
    Reads little (Reader.count size >>= fun n => Reader.many r n >>= f)
      (toBytes little 4 bs.length ++ bs.flatMap write) a := by
  have hmany : Reads little (Reader.many r bs.length) (bs.flatMap write) (bs.map id) :=
    reads_many hreads
  rw [List.map_id] at hmany
  apply Reads.count (by simpa using hne) hlt (mul_le_length_flatMap hsize)
  exact hmany.bind_pure hf

lemma reads_readWord (little : Bool) {w width : Nat} (hw : 2 ^ (w + 1) = 256 ^ width)
    (x : Signed w) :
    Reader.Reads little (SpanDomain.readWord width)
      (toBytes little width (complement width x.val)) x := by
  have hsize : ((256 ^ width : Nat) : Int) = 2 * 2 ^ w := by
    rw [← hw, Nat.pow_succ]
    push_cast
    omega
  have := x.lower
  have := x.upper
  apply (Reader.reads_int little (by omega) (by omega)).bind_pure
  rw [Signed.clamp_val]

lemma reads_boundFlags (little lowerInc upperInc : Bool) :
    Reader.Reads little BoundFlags.read (BoundFlags.write lowerInc upperInc)
      (lowerInc, upperInc) := by
  cases lowerInc <;> cases upperInc <;>
    exact (Reader.reads_byte little (by decide)).bind_pure rfl

end TemporalAlgebra.Binary
