import MindPos.RlpEncoding

/-! # A bbolt bucket

A bucket keeps its entries in the order `bytes.Compare` gives their keys. `Put` replaces the value
of a key the bucket holds and otherwise inserts the key in its place, and a cursor's `Seek` stops
at the first entry whose key is not below the key sought. Keys of one length compare as the
big-endian numbers they spell. -/
namespace BoltBucket

open RlpEncoding

variable {V : Type*}

def putEntries : List (List UInt8 × V) → List UInt8 → V → List (List UInt8 × V)
  | [], k, v => [(k, v)]
  | e :: rest, k, v =>
    if k < e.1 then (k, v) :: e :: rest
    else if k = e.1 then (k, v) :: rest
    else e :: putEntries rest k v

/-- Entries whose keys increase. -/
def Sorted (entries : List (List UInt8 × V)) : Prop := entries.Pairwise fun e e' => e.1 < e'.1

theorem mem_putEntries {entries : List (List UInt8 × V)} (h : Sorted entries) {k : List UInt8}
    {v : V} {e : List UInt8 × V} :
    e ∈ putEntries entries k v ↔ e = (k, v) ∨ e ∈ entries ∧ e.1 ≠ k := by
  induction entries with
  | nil => simp [putEntries]
  | cons e' rest ih =>
    obtain ⟨hlt, hrest⟩ := List.pairwise_cons.mp h
    have habove : ∀ x ∈ rest, k ≤ e'.1 → x.1 ≠ k := by
      intro x hx hk hxk
      have hkx := List.lt_of_le_of_lt hk (hlt x hx)
      rw [hxk] at hkx
      exact List.lt_irrefl k hkx
    rw [putEntries]
    split_ifs with hk hk'
    · have hne : e'.1 ≠ k := fun h => List.lt_irrefl k (h ▸ hk)
      simp only [List.mem_cons]
      constructor
      · rintro (rfl | rfl | hx)
        · exact .inl rfl
        · exact .inr ⟨.inl rfl, hne⟩
        · exact .inr ⟨.inr hx, habove e hx (List.le_of_lt hk)⟩
      · rintro (rfl | ⟨rfl | hx, -⟩)
        · exact .inl rfl
        · exact .inr (.inl rfl)
        · exact .inr (.inr hx)
    · simp only [List.mem_cons]
      constructor
      · rintro (rfl | hx)
        · exact .inl rfl
        · exact .inr ⟨.inr hx, habove e hx (hk' ▸ List.le_refl _)⟩
      · rintro (rfl | ⟨rfl | hx, hne⟩)
        · exact .inl rfl
        · exact absurd hk'.symm hne
        · exact .inr hx
    · have hne : e'.1 ≠ k := fun h => hk' h.symm
      simp only [List.mem_cons, ih hrest]
      constructor
      · rintro (rfl | rfl | ⟨hx, hxk⟩)
        · exact .inr ⟨.inl rfl, hne⟩
        · exact .inl rfl
        · exact .inr ⟨.inr hx, hxk⟩
      · rintro (rfl | ⟨rfl | hx, hxk⟩)
        · exact .inr (.inl rfl)
        · exact .inl rfl
        · exact .inr (.inr ⟨hx, hxk⟩)

theorem sorted_putEntries {entries : List (List UInt8 × V)} (h : Sorted entries)
    (k : List UInt8) (v : V) : Sorted (putEntries entries k v) := by
  induction entries with
  | nil => exact List.pairwise_singleton _ _
  | cons e rest ih =>
    obtain ⟨hlt, hrest⟩ := List.pairwise_cons.mp h
    rw [putEntries]
    split_ifs with hk hk'
    · refine List.Pairwise.cons (fun x hx => ?_) h
      rcases List.mem_cons.mp hx with rfl | hx
      · exact hk
      · exact List.lt_trans hk (hlt x hx)
    · exact List.Pairwise.cons (fun x hx => hk' ▸ hlt x hx) hrest
    · have hek : e.1 < k := by
        rcases Std.lt_trichotomy k e.1 with h | h | h
        · exact absurd h hk
        · exact absurd h hk'
        · exact h
      refine List.Pairwise.cons (fun x hx => ?_) (ih hrest)
      rcases (mem_putEntries hrest).mp hx with rfl | ⟨hx, -⟩
      · exact hek
      · exact hlt x hx

/-- A bucket: its entries in the order of their keys. -/
structure Bucket (V : Type*) where
  entries : List (List UInt8 × V)
  sorted : Sorted entries

def Bucket.empty : Bucket V := ⟨[], List.Pairwise.nil⟩

/-- `Bucket.Put`. -/
def Bucket.put (b : Bucket V) (k : List UInt8) (v : V) : Bucket V :=
  ⟨putEntries b.entries k v, sorted_putEntries b.sorted k v⟩

/-- `Cursor.Seek`: the first entry whose key is not below `k`. -/
def Bucket.seek (b : Bucket V) (k : List UInt8) : Option (List UInt8 × V) :=
  b.entries.find? fun e => !decide (e.1 < k)

theorem Bucket.mem_put {b : Bucket V} {k : List UInt8} {v : V} {e : List UInt8 × V} :
    e ∈ (b.put k v).entries ↔ e = (k, v) ∨ e ∈ b.entries ∧ e.1 ≠ k :=
  mem_putEntries b.sorted

theorem Bucket.seek_eq_some {b : Bucket V} {k : List UInt8} {e : List UInt8 × V}
    (h : b.seek k = some e) :
    e ∈ b.entries ∧ ¬ e.1 < k ∧ ∀ e' ∈ b.entries, ¬ e'.1 < k → ¬ e'.1 < e.1 := by
  obtain ⟨hp, as, bs, hsplit, has⟩ := List.find?_eq_some_iff_append.mp h
  refine ⟨hsplit ▸ List.mem_append_right as List.mem_cons_self, by simpa using hp, ?_⟩
  intro e' he' hk he'e
  have hsorted := b.sorted
  rw [Sorted, hsplit, List.pairwise_append] at hsorted
  rw [hsplit] at he'
  rcases List.mem_append.mp he' with has' | hbs
  · exact hk (by simpa using has e' has')
  · rcases List.mem_cons.mp hbs with rfl | hbs
    · exact List.lt_irrefl _ he'e
    · exact List.lt_asymm he'e ((List.pairwise_cons.mp hsorted.2.1).1 e' hbs)

theorem Bucket.seek_eq_none {b : Bucket V} {k : List UInt8} :
    b.seek k = none ↔ ∀ e ∈ b.entries, e.1 < k := by
  simp [Bucket.seek, List.find?_eq_none]

/-! ## Keys of one length -/

theorem add_lt_of_digit_lt {a b x B : ℕ} (hab : a < b) (hx : x < B) : a * B + x < b * B :=
  calc a * B + x < a * B + B := by omega
    _ = (a + 1) * B := (Nat.succ_mul a B).symm
    _ ≤ b * B := Nat.mul_le_mul_right B hab

theorem lt_iff_ofBE_lt : ∀ {l₁ l₂ : List UInt8}, l₁.length = l₂.length →
    (l₁ < l₂ ↔ ofBE l₁ < ofBE l₂)
  | [], [], _ => by simp
  | a :: l₁, b :: l₂, hlen => by
    have hlen' : l₁.length = l₂.length := by simpa using hlen
    have ih := lt_iff_ofBE_lt hlen'
    have h₁ := ofBE_lt l₁
    have h₂ := ofBE_lt l₂
    rw [← hlen'] at h₂
    rw [List.cons_lt_cons_iff, ofBE_cons, ofBE_cons, ih, ← hlen', UInt8.lt_iff_toNat_lt,
      ← UInt8.toNat_inj]
    generalize 256 ^ l₁.length = B at h₁ h₂ ⊢
    constructor
    · rintro (hab | ⟨hab, hlt⟩)
      · have := add_lt_of_digit_lt hab h₁
        omega
      · rw [hab]
        omega
    · intro h
      rcases Nat.lt_trichotomy a.toNat b.toNat with hab | hab | hab
      · exact .inl hab
      · exact .inr ⟨hab, by rw [hab] at h; omega⟩
      · have := add_lt_of_digit_lt hab h₂
        omega

end BoltBucket
