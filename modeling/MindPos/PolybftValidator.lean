import Mathlib
import MindPos.EdgeTypes
import MindPos.KeyedLists

/-! # Validator metadata, account sets and validator set deltas

The `consensus/polybft/validator` and `bitmap` packages. BLS public keys are values of an
arbitrary type `K`, marshalled by a `KeyCodec`; a nil key is `none`. Account sets are
immutable values here, so `AccountSet.Copy` is the identity. -/
namespace PolybftValidator

open RlpEncoding EdgeTypes

variable {K : Type}

/-- `bls.PublicKey.Marshal` and `bls.UnmarshalPublicKey`. -/
structure KeyCodec (K : Type) where
  marshal : K → List UInt8
  unmarshal : List UInt8 → Except String K

/-- A key read back from bytes is read back again from its own marshalling. -/
def KeyCodec.RoundTrips (kc : KeyCodec K) : Prop :=
  ∀ b k, kc.unmarshal b = .ok k → kc.unmarshal (kc.marshal k) = .ok k

/-- `validator.ValidatorMetadata`. -/
structure ValidatorMetadata (K : Type) where
  address : Address
  blsKey : Option K
  votingPower : Int
  isActive : Bool
  deriving DecidableEq

abbrev AccountSet (K : Type) := List (ValidatorMetadata K)

section Metadata

variable [DecidableEq K]

def ValidatorMetadata.equalAddressAndBlsKey (v b : ValidatorMetadata K) : Bool :=
  v.address = b.address && v.blsKey = b.blsKey

def ValidatorMetadata.equals (v b : ValidatorMetadata K) : Bool :=
  v.equalAddressAndBlsKey b && v.votingPower = b.votingPower && v.isActive = b.isActive

theorem ValidatorMetadata.equals_iff (v b : ValidatorMetadata K) : v.equals b = true ↔ v = b := by
  cases v; cases b
  simp [equals, equalAddressAndBlsKey, and_assoc]

/-- `AccountSet.Equals`: same length and pairwise equal, order included. -/
def AccountSet.equals (as other : AccountSet K) : Bool :=
  as.length = other.length && (as.zip other).all fun (a, b) => a.equals b

theorem AccountSet.equals_iff (as other : AccountSet K) : as.equals other = true ↔ as = other := by
  induction as generalizing other with
  | nil => cases other <;> simp [equals]
  | cons a as ih =>
    cases other with
    | nil => simp [equals]
    | cons b bs =>
      have := ih bs
      simp only [equals, Bool.and_eq_true, decide_eq_true_eq, List.zip_cons_cons,
        List.all_cons, List.length_cons, Nat.add_right_cancel_iff] at this ⊢
      rw [ValidatorMetadata.equals_iff, List.cons.injEq]
      tauto

end Metadata

def AccountSet.getAddresses (as : AccountSet K) : List Address := as.map (·.address)

/-- `AccountSet.Index`, with `none` for -1. -/
def AccountSet.index (as : AccountSet K) (addr : Address) : Option Nat :=
  as.findIdx? (·.address = addr)

def AccountSet.containsAddress (as : AccountSet K) (addr : Address) : Bool :=
  (as.index addr).isSome

def AccountSet.getTotalVotingPower (as : AccountSet K) : Int :=
  (as.map (·.votingPower)).sum

theorem AccountSet.containsAddress_iff (as : AccountSet K) (addr : Address) :
    as.containsAddress addr = true ↔ addr ∈ as.getAddresses := by
  simp [containsAddress, index, getAddresses, List.findIdx?_isSome]

/-! ## Bitmaps: index 0 is the lowest bit of the first byte -/

abbrev Bitmap := List UInt8

def extendByteSlice (b : List UInt8) (needLen : Nat) : List UInt8 :=
  if 0 < needLen - b.length then b ++ List.replicate (needLen - b.length) 0 else b

def bitOf (idx : Nat) : UInt8 := 1 <<< UInt8.ofNat (idx % 8)

def Bitmap.set (b : Bitmap) (idx : Nat) : Bitmap :=
  (extendByteSlice b (idx / 8 + 1)).modify (idx / 8) (· ||| bitOf idx)

def Bitmap.len (b : Bitmap) : Nat := b.length * 8

def Bitmap.isSet (b : Bitmap) (idx : Nat) : Bool :=
  if b.len ≤ idx then false else (b.getD (idx / 8) 0 &&& bitOf idx) == bitOf idx

theorem toNat_bitOf (idx : Nat) : (bitOf idx).toNat = 2 ^ (idx % 8) := by
  have h8 : idx % 8 < 8 := Nat.mod_lt _ (by omega)
  have hlt : 2 ^ (idx % 8) < 2 ^ 8 := Nat.pow_lt_pow_right (by omega) h8
  rw [bitOf, UInt8.toNat_shiftLeft, UInt8.toNat_ofNat']
  simp only [UInt8.toNat_one, Nat.one_shiftLeft, Nat.mod_eq_of_lt (h8.trans (by omega : 8 < 2 ^ 8)),
    Nat.mod_eq_of_lt h8]
  exact Nat.mod_eq_of_lt hlt

theorem and_bitOf_eq (x : UInt8) (idx : Nat) :
    ((x &&& bitOf idx) == bitOf idx) = x.toNat.testBit (idx % 8) := by
  rw [Bool.eq_iff_iff, beq_iff_eq, ← UInt8.toNat_inj, UInt8.toNat_and, toNat_bitOf, Nat.and_two_pow]
  cases x.toNat.testBit (idx % 8) <;> simp [(Nat.two_pow_pos _).ne]

theorem Bitmap.isSet_eq_testBit (b : Bitmap) (idx : Nat) :
    b.isSet idx = (b.getD (idx / 8) 0).toNat.testBit (idx % 8) := by
  unfold Bitmap.isSet Bitmap.len
  split_ifs with h
  · rw [List.getD_eq_default _ _ (by omega)]
    simp
  · exact and_bitOf_eq _ _

theorem getD_extendByteSlice (b : List UInt8) (n m : Nat) :
    (extendByteSlice b n).getD m 0 = b.getD m 0 := by
  unfold extendByteSlice
  split_ifs
  · by_cases hm : m < b.length
    · exact List.getD_append _ _ _ _ hm
    · rw [List.getD_append_right _ _ _ _ (by omega), List.getD_eq_default b _ (by omega)]
      simp
  · rfl

theorem length_extendByteSlice (b : List UInt8) (n : Nat) :
    (extendByteSlice b n).length = max b.length n := by
  unfold extendByteSlice
  split_ifs <;> simp <;> omega

theorem getD_modify {α : Type} (l : List α) (n m : Nat) (f : α → α) (d : α) (hn : n < l.length) :
    (l.modify n f).getD m d = if m = n then f (l.getD m d) else l.getD m d := by
  simp only [List.getD_eq_getElem?_getD, List.getElem?_modify]
  by_cases h : m = n
  · subst h
    simp [hn]
  · cases l[m]? <;> simp [h, Ne.symm h]

@[simp] theorem Bitmap.isSet_nil (i : Nat) : Bitmap.isSet [] i = false := by
  simp [Bitmap.isSet, Bitmap.len]

@[simp] theorem Bitmap.isSet_set (b : Bitmap) (idx i : Nat) :
    (b.set idx).isSet i = (i == idx || b.isSet i) := by
  have hlen : idx / 8 < (extendByteSlice b (idx / 8 + 1)).length := by
    rw [length_extendByteSlice]; omega
  rw [Bitmap.isSet_eq_testBit, Bitmap.isSet_eq_testBit, Bitmap.set, getD_modify _ _ _ _ _ hlen,
    getD_extendByteSlice]
  split_ifs with hq
  · rw [UInt8.toNat_or, toNat_bitOf, Nat.testBit_lor, Nat.testBit_two_pow]
    have hbit : decide (idx % 8 = i % 8) = (i == idx) := by
      rw [Bool.eq_iff_iff, decide_eq_true_iff, beq_iff_eq]
      omega
    rw [hbit, Bool.or_comm]
  · have : i ≠ idx := fun h => hq (h ▸ rfl)
    simp [this]

/-- `AccountSet.GetFilteredValidators`: the validators whose bit is set; a bit set past the
end of the set is an error. -/
def AccountSet.getFilteredValidators (as : AccountSet K) (bitmap : Bitmap) :
    Except String (AccountSet K) :=
  if as = [] then .ok []
  else if as.length < bitmap.len ∧
      (List.range' as.length (bitmap.len - as.length)).any bitmap.isSet then
    .error "invalid bitmap filter provided"
  else .ok ((as.zipIdx).filterMap fun (v, i) => if bitmap.isSet i then some v else none)

/-! ## Validator set deltas -/

/-- `validator.ValidatorSetDelta`. -/
structure ValidatorSetDelta (K : Type) where
  added : AccountSet K
  updated : AccountSet K
  removed : Bitmap
  deriving DecidableEq

def ValidatorSetDelta.empty : ValidatorSetDelta K := ⟨[], [], []⟩

def ValidatorSetDelta.isEmpty (d : ValidatorSetDelta K) : Bool :=
  d.added.length = 0 && d.updated.length = 0 && d.removed.len = 0

theorem ValidatorSetDelta.isEmpty_iff (d : ValidatorSetDelta K) : d.isEmpty = true ↔ d = .empty := by
  obtain ⟨added, updated, removed⟩ := d
  simp [isEmpty, empty, Bitmap.len, and_assoc]

/-- `ValidatorSetDelta.Equals` on the receiver `d`; a nil argument is unequal. -/
def ValidatorSetDelta.equals [DecidableEq K] (d : ValidatorSetDelta K)
    (other : Option (ValidatorSetDelta K)) : Bool :=
  match other with
  | none => false
  | some o => d.added.equals o.added && d.updated.equals o.updated && d.removed = o.removed

theorem ValidatorSetDelta.equals_iff [DecidableEq K] (d : ValidatorSetDelta K)
    (other : Option (ValidatorSetDelta K)) : d.equals other = true ↔ other = some d := by
  cases other with
  | none => simp [equals]
  | some o =>
    cases d; cases o
    simp only [equals, Bool.and_eq_true, AccountSet.equals_iff, decide_eq_true_eq,
      Option.some.injEq, ValidatorSetDelta.mk.injEq]
    tauto

def keepUnremoved (d : ValidatorSetDelta K) : Nat → AccountSet K → AccountSet K
  | _, [] => []
  | i, v :: vs =>
    if !d.removed.isSet i || d.added.containsAddress v.address then v :: keepUnremoved d (i + 1) vs
    else keepUnremoved d (i + 1) vs

def appendAdded (acc : AccountSet K) (a : ValidatorMetadata K) : Except String (AccountSet K) :=
  if acc.containsAddress a.address then
    .error "validator is already present in the validators snapshot"
  else .ok (acc ++ [a])

def replaceUpdated (acc : AccountSet K) (u : ValidatorMetadata K) : Except String (AccountSet K) :=
  match acc.index u.address with
  | none => .error "incorrect delta provided: validator is marked as updated but not found in the validators"
  | some i => .ok (acc.set i u)

/-- `AccountSet.ApplyDelta`. -/
def AccountSet.applyDelta (as : AccountSet K) (delta : Option (ValidatorSetDelta K)) :
    Except String (AccountSet K) :=
  match delta with
  | none => .ok as
  | some d =>
    if d.isEmpty then .ok as
    else do
      let withAdded ← d.added.foldlM appendAdded (keepUnremoved d 0 as)
      d.updated.foldlM replaceUpdated withAdded

theorem AccountSet.applyDelta_of_isEmpty (as : AccountSet K) {d : ValidatorSetDelta K}
    (hd : d.isEmpty = true) : as.applyDelta (some d) = .ok as := by
  simp [AccountSet.applyDelta, hd]

/-! ## Applying a well-formed delta

A delta whose removed bits mark the records to drop, whose added records are new and whose
updated records are present and kept, is applied as: filter, append, replace by address. -/

theorem keepUnremoved_eq_filter (d : ValidatorSetDelta K) (keep : ValidatorMetadata K → Bool) :
    ∀ (k : Nat) (vs : AccountSet K), (∀ p (hp : p < vs.length), d.removed.isSet (k + p) = !keep vs[p]) →
      keepUnremoved d k vs = vs.filter fun v => keep v || d.added.containsAddress v.address
  | _, [], _ => rfl
  | k, v :: vs, hbits => by
    have hv : d.removed.isSet k = !keep v := by
      have := hbits 0 (by simp)
      rwa [Nat.add_zero, List.getElem_cons_zero] at this
    have hvs : ∀ p (hp : p < vs.length), d.removed.isSet (k + 1 + p) = !keep vs[p] := by
      intro p hp
      have := hbits (p + 1) (by simpa using hp)
      rwa [List.getElem_cons_succ, show k + (p + 1) = k + 1 + p by omega] at this
    rw [keepUnremoved, hv, Bool.not_not, List.filter_cons, keepUnremoved_eq_filter d keep (k + 1) vs hvs]

theorem foldlM_appendAdded :
    ∀ (added acc : AccountSet K), added.getAddresses.Nodup →
      (∀ a ∈ added, a.address ∉ acc.getAddresses) → added.foldlM appendAdded acc = .ok (acc ++ added)
  | [], acc, _, _ => by simp
  | a :: as, acc, hnodup, hnew => by
    rw [AccountSet.getAddresses, List.map_cons, List.nodup_cons] at hnodup
    have ha : appendAdded acc a = .ok (acc ++ [a]) := by
      rw [appendAdded, if_neg]
      rw [AccountSet.containsAddress_iff]
      exact hnew a List.mem_cons_self
    have has : ∀ b ∈ as, b.address ∉ (acc ++ [a]).getAddresses := by
      intro b hb
      simp only [AccountSet.getAddresses, List.map_append, List.map_cons, List.map_nil,
        List.mem_append, List.mem_singleton, not_or]
      refine ⟨hnew b (List.mem_cons_of_mem a hb), fun he => hnodup.1 ?_⟩
      exact he ▸ List.mem_map_of_mem hb
    rw [List.foldlM_cons, ha, Except.ok_bind_eq, foldlM_appendAdded as _ hnodup.2 has]
    simp

theorem foldlM_replaceUpdated :
    ∀ (updated acc : AccountSet K), acc.getAddresses.Nodup →
      (∀ u ∈ updated, u.address ∈ acc.getAddresses) →
        updated.foldlM replaceUpdated acc = .ok (KeyedLists.replaceAll (·.address) acc updated)
  | [], acc, _, _ => rfl
  | u :: us, acc, hnodup, hpresent => by
    obtain ⟨i, hi⟩ := Option.isSome_iff_exists.mp
      ((AccountSet.containsAddress_iff acc u.address).mpr (hpresent u List.mem_cons_self))
    have hu : replaceUpdated acc u = .ok (KeyedLists.replaceKey (·.address) acc u) := by
      rw [replaceUpdated, hi]
      exact congrArg Except.ok (KeyedLists.set_eq_replaceKey hnodup hi)
    have hnodup' : (AccountSet.getAddresses (KeyedLists.replaceKey (·.address) acc u)).Nodup := by
      rw [AccountSet.getAddresses, KeyedLists.map_key_replaceKey]
      exact hnodup
    have hpresent' :
        ∀ v ∈ us, v.address ∈ AccountSet.getAddresses (KeyedLists.replaceKey (·.address) acc u) := by
      intro v hv
      rw [AccountSet.getAddresses, KeyedLists.map_key_replaceKey]
      exact hpresent v (List.mem_cons_of_mem u hv)
    rw [List.foldlM_cons, hu, Except.ok_bind_eq, foldlM_replaceUpdated us _ hnodup' hpresent']
    rfl

section WellFormedDelta

variable (as : AccountSet K) (d : ValidatorSetDelta K) (keep : ValidatorMetadata K → Bool)

/-- The conditions under which `ApplyDelta` succeeds and drops exactly the records failing
`keep`. -/
structure DeltaFits : Prop where
  nodup : as.getAddresses.Nodup
  removed : ∀ p (hp : p < as.length), d.removed.isSet p = !keep as[p]
  added_new : ∀ a ∈ d.added, a.address ∉ as.getAddresses
  added_nodup : d.added.getAddresses.Nodup
  updated_kept : ∀ u ∈ d.updated, ∃ v ∈ as, keep v ∧ v.address = u.address
  keep_of_isEmpty : d.isEmpty → ∀ v ∈ as, keep v

variable {as d keep}

theorem DeltaFits.keepUnremoved_eq (h : DeltaFits as d keep) :
    keepUnremoved d 0 as = as.filter keep := by
  rw [keepUnremoved_eq_filter d keep 0 as (by simpa using h.removed)]
  apply List.filter_congr
  intro v hv
  have : d.added.containsAddress v.address = false := by
    rw [Bool.eq_false_iff, ne_eq, AccountSet.containsAddress_iff]
    intro hmem
    obtain ⟨a, ha, hav⟩ := List.mem_map.mp hmem
    exact h.added_new a ha (hav ▸ List.mem_map_of_mem hv)
  rw [this, Bool.or_false]

theorem DeltaFits.nodup_kept (h : DeltaFits as d keep) :
    (AccountSet.getAddresses (as.filter keep ++ d.added)).Nodup := by
  rw [AccountSet.getAddresses, List.map_append, List.nodup_append]
  refine ⟨(h.nodup.sublist ((List.filter_sublist).map _)), h.added_nodup, ?_⟩
  intro a ha b hb hab
  obtain ⟨v, hv, rfl⟩ := List.mem_map.mp ha
  obtain ⟨w, hw, rfl⟩ := List.mem_map.mp hb
  exact h.added_new w hw (hab ▸ List.mem_map_of_mem (List.mem_filter.mp hv).1)

theorem DeltaFits.applyDelta_eq (h : DeltaFits as d keep) :
    as.applyDelta (some d) = .ok (KeyedLists.replaceAll (·.address) (as.filter keep ++ d.added) d.updated) := by
  by_cases hempty : d.isEmpty
  · have hall := h.keep_of_isEmpty hempty
    simp only [ValidatorSetDelta.isEmpty, Bool.and_eq_true, decide_eq_true_eq, List.length_eq_zero_iff] at hempty
    rw [AccountSet.applyDelta, if_pos (by simp [ValidatorSetDelta.isEmpty, hempty]), hempty.1.1,
      hempty.1.2, List.filter_eq_self.mpr hall]
    simp
  · have hnew : ∀ a ∈ d.added, a.address ∉ AccountSet.getAddresses (as.filter keep) := by
      intro a ha hmem
      obtain ⟨v, hv, hvu⟩ := List.mem_map.mp hmem
      exact h.added_new a ha (hvu ▸ List.mem_map_of_mem (List.mem_filter.mp hv).1)
    have hpresent : ∀ u ∈ d.updated, u.address ∈ AccountSet.getAddresses (as.filter keep ++ d.added) := by
      intro u hu
      obtain ⟨v, hv, hkeep, hvu⟩ := h.updated_kept u hu
      rw [AccountSet.getAddresses, List.map_append]
      exact List.mem_append_left _ (hvu ▸ List.mem_map_of_mem (List.mem_filter.mpr ⟨hv, hkeep⟩))
    rw [AccountSet.applyDelta, if_neg hempty, h.keepUnremoved_eq,
      foldlM_appendAdded d.added _ h.added_nodup hnew, Except.ok_bind_eq,
      foldlM_replaceUpdated d.updated _ h.nodup_kept hpresent]

end WellFormedDelta

/-! ## Validator sets and quorums -/

/-- `common.BigIntDivCeil`: `(a + b - 1) / b` with Euclidean division. -/
def bigIntDivCeil (a b : Int) : Int := (a + b - 1) / b

theorem le_mul_bigIntDivCeil {a b : Int} (hb : 0 < b) : a ≤ b * bigIntDivCeil a b := by
  have hlt := Int.emod_lt_of_pos (a + b - 1) hb
  have hdiv := Int.mul_ediv_add_emod (a + b - 1) b
  unfold bigIntDivCeil
  omega

theorem bigIntDivCeil_pos {a b : Int} (hb : 0 < b) (ha : 0 < a) : 0 < bigIntDivCeil a b := by
  unfold bigIntDivCeil
  have := (Int.le_ediv_iff_mul_le hb).mpr (by omega : 1 * b ≤ a + b - 1)
  omega

/-- `getQuorumSize`: two thirds of the total voting power, rounded up. -/
def getQuorumSize (totalVotingPower : Int) : Int := bigIntDivCeil (totalVotingPower * 2) 3

/-- `validatorSet.votingPowerMap`: a later entry for an address overwrites an earlier one. -/
def votingPowerOf (as : AccountSet K) (addr : Address) : Int :=
  ((as.reverse.find? (·.address = addr)).map (·.votingPower)).getD 0

/-- `validatorSet.HasQuorum`; `signers` is the set of signing addresses. -/
def hasQuorum (as : AccountSet K) (signers : List Address) : Bool :=
  getQuorumSize as.getTotalVotingPower ≤ (signers.dedup.map (votingPowerOf as)).sum

def signerPower (as : AccountSet K) (signers : Finset Address) : Int :=
  ∑ a ∈ signers.filter (fun a => as.containsAddress a = true), votingPowerOf as a

theorem votingPowerOf_append (as : AccountSet K) (v : ValidatorMetadata K) (addr : Address) :
    votingPowerOf (as ++ [v]) addr = if v.address = addr then v.votingPower else votingPowerOf as addr := by
  by_cases h : v.address = addr <;> simp [votingPowerOf, h]

theorem votingPowerOf_of_not_mem {as : AccountSet K} {addr : Address}
    (h : as.containsAddress addr = false) : votingPowerOf as addr = 0 := by
  have hnone : as.reverse.find? (·.address = addr) = none := by
    rw [List.find?_eq_none]
    intro v hv hva
    have hmem : addr ∈ as.getAddresses :=
      List.mem_map.mpr ⟨v, List.mem_reverse.mp hv, by simpa using hva⟩
    rw [← AccountSet.containsAddress_iff, h] at hmem
    exact Bool.false_ne_true hmem
  simp [votingPowerOf, hnone]

theorem votingPowerOf_nonneg {as : AccountSet K} (hpos : ∀ v ∈ as, 0 ≤ v.votingPower) (addr : Address) :
    0 ≤ votingPowerOf as addr := by
  unfold votingPowerOf
  cases hv : as.reverse.find? (·.address = addr) with
  | none => simp
  | some v => simpa using hpos v (List.mem_reverse.mp (List.mem_of_find?_eq_some hv))

theorem sum_votingPowerOf_le {as : AccountSet K} (hpos : ∀ v ∈ as, 0 ≤ v.votingPower)
    (A : Finset Address) : ∑ a ∈ A, votingPowerOf as a ≤ as.getTotalVotingPower := by
  induction as using List.reverseRecOn with
  | nil => simp [votingPowerOf, AccountSet.getTotalVotingPower]
  | append_singleton as v ih =>
    have hpos' : ∀ w ∈ as, 0 ≤ w.votingPower := fun w hw => hpos w (by simp [hw])
    have hv : 0 ≤ v.votingPower := hpos v (by simp)
    calc ∑ a ∈ A, votingPowerOf (as ++ [v]) a
        ≤ ∑ a ∈ A, (votingPowerOf as a + if v.address = a then v.votingPower else 0) := by
          apply Finset.sum_le_sum
          intro a _
          rw [votingPowerOf_append]
          split_ifs
          · simpa using votingPowerOf_nonneg hpos' a
          · simp
      _ = ∑ a ∈ A, votingPowerOf as a + if v.address ∈ A then v.votingPower else 0 := by
          rw [Finset.sum_add_distrib, Finset.sum_ite_eq]
      _ ≤ AccountSet.getTotalVotingPower as + v.votingPower := by
          have := ih hpos'
          split_ifs <;> omega
      _ = AccountSet.getTotalVotingPower (as ++ [v]) := by simp [AccountSet.getTotalVotingPower]

theorem sum_dedup_votingPowerOf (as : AccountSet K) (signers : List Address) :
    (signers.dedup.map (votingPowerOf as)).sum = signerPower as signers.toFinset := by
  have hset : signers.dedup.toFinset = signers.toFinset := List.toFinset.ext fun _ => List.mem_dedup
  rw [signerPower, Finset.sum_filter_of_ne, ← hset, List.sum_toFinset _ (List.nodup_dedup _)]
  intro a _ ha
  by_contra hmem
  exact ha (votingPowerOf_of_not_mem (Bool.not_eq_true _ ▸ hmem))

theorem hasQuorum_iff (as : AccountSet K) (signers : List Address) :
    hasQuorum as signers = true ↔
      2 * as.getTotalVotingPower ≤ 3 * signerPower as signers.toFinset := by
  rw [hasQuorum, sum_dedup_votingPowerOf, decide_eq_true_iff, getQuorumSize, bigIntDivCeil]
  omega

theorem signerPower_union_inter (as : AccountSet K) (A B : Finset Address) :
    signerPower as (A ∪ B) + signerPower as (A ∩ B) = signerPower as A + signerPower as B := by
  rw [signerPower, signerPower, Finset.filter_union, Finset.filter_inter_distrib,
    Finset.sum_union_inter]
  rfl

theorem quorums_intersect {as : AccountSet K} (hpos : ∀ v ∈ as, 0 ≤ v.votingPower)
    {S₁ S₂ : List Address} (h₁ : hasQuorum as S₁ = true) (h₂ : hasQuorum as S₂ = true) :
    as.getTotalVotingPower ≤ 3 * signerPower as (S₁.toFinset ∩ S₂.toFinset) := by
  have hunion := sum_votingPowerOf_le hpos ((S₁.toFinset ∪ S₂.toFinset).filter
    (fun a => as.containsAddress a = true))
  have hsplit := signerPower_union_inter as S₁.toFinset S₂.toFinset
  rw [hasQuorum_iff] at h₁ h₂
  unfold signerPower at h₁ h₂ hsplit ⊢
  omega

/-- Quorum safety: under non-negative voting power, `HasQuorum` is the two-thirds rule and two
quorums share a third of the power. -/
theorem quorum_two_thirds_intersect {as : AccountSet K} (hpos : ∀ v ∈ as, 0 ≤ v.votingPower)
    (S₁ S₂ : List Address) :
    (hasQuorum as S₁ = true ↔ 2 * as.getTotalVotingPower ≤ 3 * signerPower as S₁.toFinset) ∧
      (hasQuorum as S₁ = true → hasQuorum as S₂ = true →
        as.getTotalVotingPower ≤ 3 * signerPower as (S₁.toFinset ∩ S₂.toFinset)) :=
  ⟨hasQuorum_iff as S₁, quorums_intersect hpos⟩

def quorumSample (p : Int) : AccountSet Unit :=
  [⟨bytesToAddress [1], none, 3, true⟩, ⟨bytesToAddress [2], none, 3, true⟩,
    ⟨bytesToAddress [3], none, p, true⟩]

theorem quorum_two_thirds_intersect_of_sample :
    hasQuorum (quorumSample 3) [bytesToAddress [1], bytesToAddress [2]] = true ∧
      hasQuorum (quorumSample 3) [bytesToAddress [2], bytesToAddress [3]] = true ∧
      (quorumSample 3).getTotalVotingPower ≤ 3 * signerPower (quorumSample 3)
        ([bytesToAddress [1], bytesToAddress [2]].toFinset ∩
          [bytesToAddress [2], bytesToAddress [3]].toFinset) := by
  have h₁ : hasQuorum (quorumSample 3) [bytesToAddress [1], bytesToAddress [2]] = true := by decide
  have h₂ : hasQuorum (quorumSample 3) [bytesToAddress [2], bytesToAddress [3]] = true := by decide
  exact ⟨h₁, h₂, (quorum_two_thirds_intersect (by decide) _ _).2 h₁ h₂⟩

/-- A negative voting power breaks the intersection: two disjoint single signers both reach the
quorum of a set of total power 3. -/
theorem disjoint_quorums_of_negative_power :
    hasQuorum (quorumSample (-3)) [bytesToAddress [1]] = true ∧
      hasQuorum (quorumSample (-3)) [bytesToAddress [2]] = true ∧
      3 * signerPower (quorumSample (-3))
        ([bytesToAddress [1]].toFinset ∩ [bytesToAddress [2]].toFinset) <
        (quorumSample (-3)).getTotalVotingPower := by
  have hdisj : [bytesToAddress [1]].toFinset ∩ [bytesToAddress [2]].toFinset = ∅ := by decide
  refine ⟨by decide, by decide, ?_⟩
  rw [hdisj, signerPower, Finset.filter_empty, Finset.sum_empty]
  decide

/-! ## Encoding -/

def marshalBlsKey (kc : KeyCodec K) : Option K → List UInt8
  | some k => kc.marshal k
  | none => []

def ValidatorMetadata.marshalRLPWith (kc : KeyCodec K) (v : ValidatorMetadata K) : Value :=
  .array [newBytes v.address.bytes, newBytes (marshalBlsKey kc v.blsKey),
    newBigInt v.votingPower, newBool v.isActive]

def ValidatorMetadata.unmarshalRLPWith (kc : KeyCodec K) (val : Value) :
    Except String (ValidatorMetadata K) := do
  let elems ← val.getElems
  match elems with
  | [addressV, blsKeyV, votingPowerV, isActiveV] =>
    let addressRaw ← addressV.getBytes.mapError
      ("expected 'Address' field encoded as bytes. Error: " ++ ·)
    let blsKeyRaw ← blsKeyV.getBytes.mapError ("expected 'BlsKey' encoded as bytes: " ++ ·)
    let blsKey ← (kc.unmarshal blsKeyRaw).mapError ("failed to unmarshal BLS public key: " ++ ·)
    let votingPower ← votingPowerV.getBigInt.mapError
      ("expected 'VotingPower' encoded as big int: " ++ ·)
    let isActive ← isActiveV.getBool.mapError ("expected 'IsActive' encoded as bool: " ++ ·)
    pure ⟨bytesToAddress addressRaw, some blsKey, votingPower, isActive⟩
  | _ => .error ("incorrect elements count to decode validator account, expected 4 but found " ++
      toString elems.length)

def unmarshalValidators (kc : KeyCodec K) (validatorsRaw : List Value) :
    Except String (AccountSet K) :=
  validatorsRaw.mapM (ValidatorMetadata.unmarshalRLPWith kc)

def ValidatorSetDelta.marshalRLPWith (kc : KeyCodec K) (d : ValidatorSetDelta K) : Value :=
  .array [.array (d.added.map (·.marshalRLPWith kc)), .array (d.updated.map (·.marshalRLPWith kc)),
    newBytes d.removed]

def ValidatorSetDelta.unmarshalRLPWith (kc : KeyCodec K) (v : Value) :
    Except String (ValidatorSetDelta K) := do
  let elems ← v.getElems
  match elems with
  | [] => pure .empty
  | [addedV, updatedV, removedV] =>
    let addedRaw ← addedV.getElems.mapError fun _ => "array expected for added validators"
    let added ← unmarshalValidators kc addedRaw
    let updatedRaw ← updatedV.getElems.mapError fun _ => "array expected for updated validators"
    let updated ← unmarshalValidators kc updatedRaw
    let removed ← removedV.getBytes
    pure ⟨added, updated, removed⟩
  | _ => .error ("incorrect elements count to decode validator set delta, expected 3 but found " ++
      toString elems.length)

end PolybftValidator
