import Mathlib
import MindPos.PolybftStateSync
import MindPos.BoltBucket

/-! # Finding the commitment of a state sync event

`consensus/polybft/state_store_state_sync.go`. The signed commitments are kept in the
`commitments` bucket under the eight big-endian bytes of their end ID, and
`getCommitmentForStateSync` seeks the first key not below the event's ID and checks that the
commitment there contains the event. Keys of eight bytes sort as the IDs they encode, so the seek
finds the commitment of least end ID at or above the event: the one that contains it, when the
stored ranges are non-empty and pairwise disjoint. A stored range whose start is above its end
hides the commitment behind it. The values are kept as they are put, not as JSON, and of a
signed commitment only the message is read. -/
namespace PolybftStateSync

open EdgeTypes RlpEncoding BoltBucket

/-- `common.EncodeUint64ToBytes`. -/
def encodeUint64ToBytes (value : UInt64) : List UInt8 := rightAlign 8 (toBE value.toNat)

def errNoCommitmentForStateSync : String := "no commitment found for given state sync event"

/-- `insertCommitmentMessage`: the commitment goes under its end ID. -/
def insertCommitmentMessage (b : Bucket StateSyncCommitment) (commitment : StateSyncCommitment) :
    Bucket StateSyncCommitment :=
  b.put (encodeUint64ToBytes commitment.endID) commitment

/-- `getCommitmentForStateSync`. -/
def getCommitmentForStateSync (b : Bucket StateSyncCommitment) (stateSyncID : UInt64) :
    Except String StateSyncCommitment :=
  match b.seek (encodeUint64ToBytes stateSyncID) with
  | none => .error errNoCommitmentForStateSync
  | some (_, commitment) =>
    if commitment.containsStateSync stateSyncID then .ok commitment
    else .error errNoCommitmentForStateSync

def insertCommitmentMessages (commitments : List StateSyncCommitment) :
    Bucket StateSyncCommitment :=
  commitments.foldl insertCommitmentMessage Bucket.empty

def storedCommitments (b : Bucket StateSyncCommitment) : List StateSyncCommitment :=
  b.entries.map Prod.snd

theorem encodeUint64ToBytes_lt_iff {a b : UInt64} :
    encodeUint64ToBytes a < encodeUint64ToBytes b ↔ a < b := by
  have hofBE : ∀ v : UInt64, ofBE (encodeUint64ToBytes v) = v.toNat := fun v =>
    ofBE_rightAlign_toBE (by simpa using v.toNat_lt)
  rw [lt_iff_ofBE_lt (by rw [encodeUint64ToBytes, encodeUint64ToBytes, rightAlign_length,
    rightAlign_length]), hofBE, hofBE, UInt64.lt_iff_toNat_lt]

/-- Every entry is filed under the end ID of its commitment. -/
def KeyedByEnd (b : Bucket StateSyncCommitment) : Prop :=
  ∀ e ∈ b.entries, e.1 = encodeUint64ToBytes e.2.endID

theorem keyedByEnd_insertCommitmentMessages (commitments : List StateSyncCommitment) :
    KeyedByEnd (insertCommitmentMessages commitments) := by
  unfold insertCommitmentMessages
  suffices h : ∀ b, KeyedByEnd b → KeyedByEnd (commitments.foldl insertCommitmentMessage b) from
    h _ fun _ he => nomatch he
  induction commitments with
  | nil => exact fun _ hb => hb
  | cons c cs ih =>
    intro b hb
    refine ih _ fun e he => ?_
    rcases Bucket.mem_put.mp he with rfl | ⟨he, -⟩
    · rfl
    · exact hb e he

section Seek

variable {b : Bucket StateSyncCommitment} (hb : KeyedByEnd b) {x : UInt64}
include hb

theorem seek_encodeUint64ToBytes {e : List UInt8 × StateSyncCommitment}
    (h : b.seek (encodeUint64ToBytes x) = some e) :
    e.2 ∈ storedCommitments b ∧ x ≤ e.2.endID ∧
      ∀ c ∈ storedCommitments b, x ≤ c.endID → e.2.endID ≤ c.endID := by
  obtain ⟨he, hx, hleast⟩ := Bucket.seek_eq_some h
  rw [hb e he, encodeUint64ToBytes_lt_iff, UInt64.not_lt] at hx
  refine ⟨List.mem_map_of_mem he, hx, fun c hc hxc => ?_⟩
  obtain ⟨e', he', rfl⟩ := List.mem_map.mp hc
  have h' := hleast e' he'
  rw [hb e' he', hb e he, encodeUint64ToBytes_lt_iff, encodeUint64ToBytes_lt_iff,
    UInt64.not_lt, UInt64.not_lt] at h'
  exact h' hxc

theorem seek_encodeUint64ToBytes_none (h : b.seek (encodeUint64ToBytes x) = none) :
    ∀ c ∈ storedCommitments b, c.endID < x := by
  intro c hc
  obtain ⟨e, he, rfl⟩ := List.mem_map.mp hc
  have hlt := Bucket.seek_eq_none.mp h e he
  rwa [hb e he, encodeUint64ToBytes_lt_iff] at hlt

end Seek

/-- Two commitments no event belongs to both of. -/
def RangesDisjoint (c d : StateSyncCommitment) : Prop :=
  ∀ x, ¬ (c.containsStateSync x ∧ d.containsStateSync x)

instance : Std.Symm RangesDisjoint := ⟨fun _ _ h x hx => h x hx.symm⟩

theorem containsStateSync_iff {c : StateSyncCommitment} {x : UInt64} :
    c.containsStateSync x ↔ c.startID ≤ x ∧ x ≤ c.endID := by
  simp [StateSyncCommitment.containsStateSync]

theorem commitment_lookup_by_event (commitments : List StateSyncCommitment)
    (hrange : ∀ c ∈ storedCommitments (insertCommitmentMessages commitments),
      c.startID ≤ c.endID)
    (hdisj : (storedCommitments (insertCommitmentMessages commitments)).Pairwise RangesDisjoint)
    (x : UInt64) :
    (∀ c ∈ storedCommitments (insertCommitmentMessages commitments), c.containsStateSync x →
      getCommitmentForStateSync (insertCommitmentMessages commitments) x = .ok c) ∧
    ((∀ c ∈ storedCommitments (insertCommitmentMessages commitments), ¬ c.containsStateSync x) →
      getCommitmentForStateSync (insertCommitmentMessages commitments) x =
        .error errNoCommitmentForStateSync) := by
  have hb := keyedByEnd_insertCommitmentMessages commitments
  generalize insertCommitmentMessages commitments = b at hb hrange hdisj ⊢
  refine ⟨fun c hc hx => ?_, fun hnone => ?_⟩
  · unfold getCommitmentForStateSync
    split
    · next hseek =>
      have hlt := seek_encodeUint64ToBytes_none hb hseek c hc
      have hle := (containsStateSync_iff.mp hx).2
      exact absurd hle (UInt64.not_le.mpr hlt)
    · next k d hseek =>
      obtain ⟨hd, hxd, hleast⟩ := seek_encodeUint64ToBytes hb hseek
      have hxc := containsStateSync_iff.mp hx
      have hdc := hleast c hc hxc.2
      have hdeq : d = c := by
        by_contra hne
        refine hdisj.forall hd hc hne d.endID ⟨?_, ?_⟩
        · exact containsStateSync_iff.mpr ⟨hrange d hd, UInt64.le_refl _⟩
        · exact containsStateSync_iff.mpr ⟨UInt64.le_trans hxc.1 hxd, hdc⟩
      subst hdeq
      simp [hx]
  · unfold getCommitmentForStateSync
    split
    · rfl
    · next k d hseek =>
      have hd := (seek_encodeUint64ToBytes hb hseek).1
      simp [hnone d hd]

def wideCommitment : StateSyncCommitment := ⟨1, 10, zeroHash⟩

def invertedCommitment : StateSyncCommitment := ⟨6, 5, zeroHash⟩

theorem commitment_lookup_of_one_commitment :
    (∀ c ∈ storedCommitments (insertCommitmentMessages [wideCommitment]), c.startID ≤ c.endID) ∧
    (storedCommitments (insertCommitmentMessages [wideCommitment])).Pairwise RangesDisjoint ∧
    getCommitmentForStateSync (insertCommitmentMessages [wideCommitment]) 3 =
      .ok wideCommitment := by
  have hstored : storedCommitments (insertCommitmentMessages [wideCommitment]) =
      [wideCommitment] := by decide
  have hrange : ∀ c ∈ storedCommitments (insertCommitmentMessages [wideCommitment]),
      c.startID ≤ c.endID := by
    rw [hstored]
    decide
  have hdisj : (storedCommitments (insertCommitmentMessages [wideCommitment])).Pairwise
      RangesDisjoint := by
    rw [hstored]
    exact List.pairwise_singleton _ _
  exact ⟨hrange, hdisj, (commitment_lookup_by_event [wideCommitment] hrange hdisj 3).1
    wideCommitment (by rw [hstored]; exact List.mem_singleton_self _) (by decide)⟩

theorem commitment_lookup_misses_behind_inverted_range :
    (storedCommitments (insertCommitmentMessages [wideCommitment, invertedCommitment])).Pairwise
      RangesDisjoint ∧
    wideCommitment ∈ storedCommitments (insertCommitmentMessages [wideCommitment,
      invertedCommitment]) ∧
    wideCommitment.containsStateSync 3 ∧
    getCommitmentForStateSync (insertCommitmentMessages [wideCommitment, invertedCommitment]) 3 =
      .error errNoCommitmentForStateSync := by
  have hstored : storedCommitments (insertCommitmentMessages [wideCommitment,
      invertedCommitment]) = [invertedCommitment, wideCommitment] := by decide
  refine ⟨?_, by rw [hstored]; simp, by decide, by decide⟩
  rw [hstored]
  refine List.pairwise_pair.mpr fun x hx => ?_
  have hinv := containsStateSync_iff.mp hx.1
  exact absurd (UInt64.le_trans hinv.1 hinv.2) (by decide)

end PolybftStateSync
