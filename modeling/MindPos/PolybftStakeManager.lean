import Mathlib
import MindPos.PolybftValidator

/-! # The stake manager: from the full validator set to the next validator set

`consensus/polybft/stake_manager.go`. The full validator set is a map from addresses to
validator metadata; here it is the list of its entries in the order the map is ranged over,
with its one entry per address as a field. At the end of an epoch the next validator set is
the `getSorted` prefix of the map, and `UpdateValidatorSet` states it as a delta against the
current set: a removed bit per old position, the re-weighted validators and the new ones.

The main result is that the two halves agree: applying the delta to a current set of distinct
addresses succeeds and gives the `getSorted` validators with their voting powers. -/
namespace PolybftStakeManager

open EdgeTypes PolybftValidator KeyedLists

variable {K : Type}

/-- `validatorStakeMap`. -/
structure ValidatorStakeMap (K : Type) where
  entries : List (ValidatorMetadata K)
  nodup : (entries.map (·.address)).Nodup

def stakeLess (v1 v2 : ValidatorMetadata K) : Bool :=
  match compare v1.votingPower v2.votingPower with
  | .gt => true
  | .eq => bytesCompare v1.address.bytes v2.address.bytes == .lt
  | .lt => false

/-- `validatorStakeMap.getSorted`. `sort.Slice` is not stable, but on distinct addresses its
`less` is a strict total order, so every sort gives one list; insertion sort is one of them. -/
def ValidatorStakeMap.getSorted (sc : ValidatorStakeMap K) (maxValidatorSetSize : Nat) :
    AccountSet K :=
  let activeValidators := sc.entries.filter fun v => 0 < v.votingPower
  let sorted := activeValidators.insertionSort fun v1 v2 => stakeLess v2 v1 = false
  if sorted.length ≤ maxValidatorSetSize then sorted else sorted.take maxValidatorSetSize

/-- `oldActiveMap`: the old validator of an address; a later entry overwrites an earlier one. -/
def oldActiveMap (oldValidatorSet : AccountSet K) (addr : Address) : Option (ValidatorMetadata K) :=
  oldValidatorSet.reverse.find? (·.address = addr)

def markRemoved (addressesSet : List Address) : Bitmap → Nat → AccountSet K → Bitmap
  | removedBitmap, _, [] => removedBitmap
  | removedBitmap, i, v :: vs =>
    markRemoved addressesSet
      (if v.address ∈ addressesSet then removedBitmap else removedBitmap.set i) (i + 1) vs

def withBlsKey (getBlsKey : Address → Except String K) (v : ValidatorMetadata K) :
    Except String (ValidatorMetadata K) :=
  match v.blsKey with
  | some _ => .ok v
  | none => do
    let blsKey ← (getBlsKey v.address).mapError ("could not retrieve validator data. Error: " ++ ·)
    pure { v with blsKey := some blsKey }

def classifyValidators (oldActive : Address → Option (ValidatorMetadata K))
    (getBlsKey : Address → Except String K) :
    AccountSet K → AccountSet K → AccountSet K → Except String (AccountSet K × AccountSet K)
  | updated, added, [] => .ok (updated, added)
  | updated, added, newValidator :: rest =>
    match oldActive newValidator.address with
    | some oldValidator =>
      if oldValidator.votingPower ≠ newValidator.votingPower then
        classifyValidators oldActive getBlsKey (updated ++ [newValidator]) added rest
      else classifyValidators oldActive getBlsKey updated added rest
    | none => do
      let newValidator ← withBlsKey getBlsKey newValidator
      classifyValidators oldActive getBlsKey updated (added ++ [newValidator]) rest

/-- `stakeManager.UpdateValidatorSet`, with the full validator set read from the store given as
`stakeMap`. At the debug log level the delta is applied once to the old set, and an error of
that is returned. -/
def updateValidatorSet (stakeMap : ValidatorStakeMap K) (maxValidatorSetSize : Nat)
    (getBlsKey : Address → Except String K) (isDebug : Bool) (oldValidatorSet : AccountSet K) :
    Except String (ValidatorSetDelta K) := do
  let newValidatorSet := stakeMap.getSorted maxValidatorSetSize
  let addressesSet := newValidatorSet.getAddresses
  let removedBitmap := markRemoved addressesSet [] 0 oldValidatorSet
  let classified ←
    classifyValidators (oldActiveMap oldValidatorSet) getBlsKey [] [] newValidatorSet
  let delta : ValidatorSetDelta K := ⟨classified.2, classified.1, removedBitmap⟩
  if isDebug then do
    let _ ← oldValidatorSet.applyDelta (some delta)
    pure delta
  else pure delta

/-! ## The sorted validators -/

section GetSorted

variable (sc : ValidatorStakeMap K) (m : Nat)

theorem getSorted_sublist_perm :
    ∃ l, (sc.getSorted m).Sublist l ∧ l.Perm (sc.entries.filter fun v => 0 < v.votingPower) := by
  refine ⟨_, ?_, List.perm_insertionSort (fun v1 v2 => stakeLess v2 v1 = false) _⟩
  rw [ValidatorStakeMap.getSorted]
  split_ifs
  · exact List.Sublist.refl _
  · exact List.take_sublist _ _

theorem getSorted_nodup : (sc.getSorted m).getAddresses.Nodup := by
  obtain ⟨l, hsub, hperm⟩ := getSorted_sublist_perm sc m
  have hfilter : ((sc.entries.filter fun v => 0 < v.votingPower).map (·.address)).Nodup :=
    sc.nodup.sublist (List.filter_sublist.map _)
  exact ((hperm.map _).nodup_iff.mpr hfilter).sublist (hsub.map _)

theorem mem_getSorted {v : ValidatorMetadata K} (hv : v ∈ sc.getSorted m) :
    v ∈ sc.entries ∧ 0 < v.votingPower := by
  obtain ⟨l, hsub, hperm⟩ := getSorted_sublist_perm sc m
  simpa using hperm.subset (hsub.subset hv)

theorem length_getSorted_le : (sc.getSorted m).length ≤ m := by
  rw [ValidatorStakeMap.getSorted]
  split_ifs with h
  · exact h
  · simp

end GetSorted

/-! ## The two loops -/

theorem isSet_markRemoved (A : List Address) :
    ∀ (b : Bitmap) (k : Nat) (vs : AccountSet K) (i : Nat),
      (markRemoved A b k vs).isSet i =
        (b.isSet i || decide (k ≤ i) && vs[i - k]?.any fun v => decide (v.address ∉ A))
  | b, k, [], i => by simp [markRemoved]
  | b, k, v :: vs, i => by
    rw [markRemoved, isSet_markRemoved A _ (k + 1) vs i]
    rcases lt_trichotomy i k with hik | rfl | hki
    · have hne : (i == k) = false := beq_eq_false_iff_ne.mpr (by omega)
      have hle : ¬k ≤ i := by omega
      have hle1 : ¬k + 1 ≤ i := by omega
      split_ifs <;> simp [hne, hle, hle1]
    · by_cases hv : v.address ∈ A <;> simp [hv]
    · obtain ⟨j, rfl⟩ : ∃ j, i = k + 1 + j := ⟨i - (k + 1), by omega⟩
      have hne : (k + 1 + j == k) = false := beq_eq_false_iff_ne.mpr (by omega)
      have hidx : k + 1 + j - k = j + 1 := by omega
      have hle : k ≤ k + 1 + j := by omega
      split_ifs <;> simp [hne, hidx, hle]

theorem isSet_markRemoved_zero (A : List Address) (vs : AccountSet K) (p : Nat) (hp : p < vs.length) :
    (markRemoved A [] 0 vs).isSet p = !decide (vs[p].address ∈ A) := by
  simp [isSet_markRemoved, List.getElem?_eq_getElem hp]

theorem oldActiveMap_eq_none_iff (old : AccountSet K) (a : Address) :
    oldActiveMap old a = none ↔ a ∉ old.getAddresses := by
  simp [oldActiveMap, List.find?_eq_none, AccountSet.getAddresses]

theorem oldActiveMap_eq_some_iff {old : AccountSet K} (hold : old.getAddresses.Nodup)
    (a : Address) (o : ValidatorMetadata K) :
    oldActiveMap old a = some o ↔ o ∈ old ∧ o.address = a := by
  constructor
  · intro h
    exact ⟨List.mem_reverse.mp (List.mem_of_find?_eq_some h), by simpa using List.find?_some h⟩
  · rintro ⟨ho, rfl⟩
    obtain ⟨o', ho'⟩ := Option.ne_none_iff_exists'.mp
      (mt (oldActiveMap_eq_none_iff old o.address).mp (not_not.mpr (List.mem_map_of_mem ho)))
    have hmem := List.mem_reverse.mp (List.mem_of_find?_eq_some ho')
    have haddr : o'.address = o.address := by simpa using List.find?_some ho'
    rw [ho', List.inj_on_of_nodup_map hold hmem ho haddr]

theorem withBlsKey_ok {getBlsKey : Address → Except String K} {v w : ValidatorMetadata K}
    (h : withBlsKey getBlsKey v = .ok w) : w.address = v.address ∧ w.votingPower = v.votingPower := by
  unfold withBlsKey at h
  split at h
  · cases h
    exact ⟨rfl, rfl⟩
  · obtain ⟨k, -, hk⟩ := Except.bind_eq_ok_iff.mp h
    cases hk
    exact ⟨rfl, rfl⟩

theorem classifyValidators_ok {oldActive : Address → Option (ValidatorMetadata K)}
    {getBlsKey : Address → Except String K} :
    ∀ (updated added ns : AccountSet K) {u a : AccountSet K},
      classifyValidators oldActive getBlsKey updated added ns = .ok (u, a) →
        u = updated ++ ns.filter (fun n => (oldActive n.address).any (·.votingPower ≠ n.votingPower)) ∧
        pairs (·.address) (·.votingPower) a = pairs (·.address) (·.votingPower) added ++
          pairs (·.address) (·.votingPower) (ns.filter fun n => (oldActive n.address).isNone)
  | updated, added, [], _, _, h => by
    cases h
    simp [pairs]
  | updated, added, n :: ns, u, a, h => by
    unfold classifyValidators at h
    split at h
    · rename_i o ho
      split_ifs at h with hvp
      · obtain ⟨hu, ha⟩ := classifyValidators_ok _ _ ns h
        refine ⟨by simp [hu, ho, hvp], by simp [ha, ho]⟩
      · obtain ⟨hu, ha⟩ := classifyValidators_ok _ _ ns h
        refine ⟨by simp [hu, ho, hvp], by simp [ha, ho]⟩
    · rename_i ho
      obtain ⟨w, hw, h⟩ := Except.bind_eq_ok_iff.mp h
      obtain ⟨hu, ha⟩ := classifyValidators_ok _ _ ns h
      obtain ⟨hwa, hwv⟩ := withBlsKey_ok hw
      refine ⟨by simp [hu, ho], ?_⟩
      rw [ha]
      simp [ho, pairs, hwa, hwv]

/-! ## The delta applies to the sorted validators -/

section Delta

variable {sc : ValidatorStakeMap K} {m : Nat} {getBlsKey : Address → Except String K}
  {old : AccountSet K}

theorem updateValidatorSet_ok {isDebug : Bool} {d : ValidatorSetDelta K}
    (h : updateValidatorSet sc m getBlsKey isDebug old = .ok d) :
    ∃ u a, classifyValidators (oldActiveMap old) getBlsKey [] [] (sc.getSorted m) = .ok (u, a) ∧
      d = ⟨a, u, markRemoved (sc.getSorted m).getAddresses [] 0 old⟩ := by
  obtain ⟨⟨u, a⟩, hc, h⟩ := Except.bind_eq_ok_iff.mp h
  refine ⟨u, a, hc, ?_⟩
  cases isDebug
  · cases h
    rfl
  · obtain ⟨_, -, h⟩ := Except.bind_eq_ok_iff.mp h
    cases h
    rfl

variable {u a : AccountSet K}
  (hc : classifyValidators (oldActiveMap old) getBlsKey [] [] (sc.getSorted m) = .ok (u, a))
include hc

theorem pairs_added :
    pairs (·.address) (·.votingPower) a = pairs (·.address) (·.votingPower)
      ((sc.getSorted m).filter fun n => (oldActiveMap old n.address).isNone) := by
  simpa [pairs] using (classifyValidators_ok [] [] _ hc).2

theorem addresses_added :
    a.getAddresses =
      AccountSet.getAddresses ((sc.getSorted m).filter fun n => (oldActiveMap old n.address).isNone) := by
  have := congrArg (List.map Prod.fst) (pairs_added hc)
  rwa [map_fst_pairs, map_fst_pairs] at this

theorem mem_added {v : ValidatorMetadata K} (hv : v ∈ a) :
    ∃ n ∈ sc.getSorted m, oldActiveMap old n.address = none ∧ n.address = v.address ∧
      n.votingPower = v.votingPower := by
  have hmem : (v.address, v.votingPower) ∈ pairs (fun x : ValidatorMetadata K => x.address)
      (fun x => x.votingPower) a := mem_pairs.mpr ⟨v, hv, rfl, rfl⟩
  rw [pairs_added hc] at hmem
  obtain ⟨n, hn, hnv, hnvp⟩ := mem_pairs.mp hmem
  obtain ⟨hnN, hnone⟩ := List.mem_filter.mp hn
  exact ⟨n, hnN, Option.isNone_iff_eq_none.mp hnone, hnv, hnvp⟩

theorem mem_updated {v : ValidatorMetadata K} (hv : v ∈ u) :
    v ∈ sc.getSorted m ∧ (oldActiveMap old v.address).any (·.votingPower ≠ v.votingPower) := by
  have hu := (classifyValidators_ok [] [] _ hc).1
  rw [List.nil_append] at hu
  subst hu
  simpa using hv

variable (hold : old.getAddresses.Nodup)
include hold

theorem deltaFits_updateValidatorSet :
    DeltaFits old ⟨a, u, markRemoved (sc.getSorted m).getAddresses [] 0 old⟩
      (fun v => decide (v.address ∈ (sc.getSorted m).getAddresses)) := by
  have hremoved := isSet_markRemoved_zero (sc.getSorted m).getAddresses old
  constructor
  · exact hold
  · exact hremoved
  · intro v hv hmem
    obtain ⟨n, -, hnone, hnv, -⟩ := mem_added hc hv
    rw [oldActiveMap_eq_none_iff] at hnone
    exact hnone (hnv ▸ hmem)
  · rw [addresses_added hc]
    exact (getSorted_nodup sc m).sublist (List.filter_sublist.map _)
  · intro v hv
    obtain ⟨hvs, hany⟩ := mem_updated hc hv
    obtain ⟨o, ho, -⟩ := (Option.any_eq_true _ _).mp hany
    obtain ⟨hoold, hoaddr⟩ := (oldActiveMap_eq_some_iff hold _ _).mp ho
    refine ⟨o, hoold, ?_, hoaddr⟩
    rw [decide_eq_true_iff, hoaddr]
    exact List.mem_map_of_mem hvs
  · intro hempty v hv
    have hnil : markRemoved (sc.getSorted m).getAddresses [] 0 old = [] := by
      simp [ValidatorSetDelta.isEmpty, Bitmap.len] at hempty
      exact hempty.2
    obtain ⟨p, hp, rfl⟩ := List.mem_iff_getElem.mp hv
    have := hremoved p hp
    rw [hnil, Bitmap.isSet_nil] at this
    simpa using this

end Delta

/-- Applying the delta of `UpdateValidatorSet` to a current set of distinct addresses succeeds
and gives a set of distinct addresses with the same (address, voting power) pairs as the
`getSorted` validators of the stake map. -/
theorem applyDelta_updateValidatorSet (sc : ValidatorStakeMap K) (maxValidatorSetSize : Nat)
    (getBlsKey : Address → Except String K) (isDebug : Bool) {old : AccountSet K}
    (hold : old.getAddresses.Nodup) {d : ValidatorSetDelta K}
    (hd : updateValidatorSet sc maxValidatorSetSize getBlsKey isDebug old = .ok d) :
    ∃ r, old.applyDelta (some d) = .ok r ∧ r.getAddresses.Nodup ∧
      (pairs (·.address) (·.votingPower) r).Perm
        (pairs (·.address) (·.votingPower) (sc.getSorted maxValidatorSetSize)) := by
  obtain ⟨u, a, hc, rfl⟩ := updateValidatorSet_ok hd
  set N := sc.getSorted maxValidatorSetSize
  have hfits := deltaFits_updateValidatorSet hc hold
  have hnodup : AccountSet.getAddresses
      (replaceAll (·.address) (old.filter (fun v => decide (v.address ∈ N.getAddresses)) ++ a) u)
        |>.Nodup := by
    rw [AccountSet.getAddresses, map_key_replaceAll]
    exact hfits.nodup_kept
  refine ⟨_, hfits.applyDelta_eq, hnodup, pairs_perm_of_agrees hnodup (getSorted_nodup sc _) ?_ ?_⟩
  · intro k
    rw [map_key_replaceAll, List.map_append, List.mem_append, ← AccountSet.getAddresses,
      ← AccountSet.getAddresses, addresses_added hc]
    constructor
    · rintro (hk | hk)
      · obtain ⟨v, hv, rfl⟩ := List.mem_map.mp hk
        exact of_decide_eq_true (List.mem_filter.mp hv).2
      · exact (List.filter_sublist.map _).subset hk
    · intro hk
      obtain ⟨n, hn, rfl⟩ := List.mem_map.mp hk
      cases ho : oldActiveMap old n.address with
      | none =>
        exact .inr (List.mem_map_of_mem (List.mem_filter.mpr ⟨hn, Option.isNone_iff_eq_none.mpr ho⟩))
      | some o =>
        obtain ⟨hoold, hoaddr⟩ := (oldActiveMap_eq_some_iff hold _ _).mp ho
        refine .inl (hoaddr ▸ List.mem_map_of_mem (List.mem_filter.mpr ⟨hoold, ?_⟩))
        rw [decide_eq_true_iff, hoaddr]
        exact List.mem_map_of_mem hn
  · intro v hv
    rcases mem_replaceAll hv with hu | ⟨hv', hvu⟩
    · exact ⟨v, (mem_updated hc hu).1, rfl, rfl⟩
    · rcases List.mem_append.mp hv' with hkept | hadded
      · obtain ⟨hvold, hvN⟩ := List.mem_filter.mp hkept
        obtain ⟨n, hn, hnv⟩ := List.mem_map.mp (of_decide_eq_true hvN)
        refine ⟨n, hn, hnv, ?_⟩
        by_contra hne
        have ho : oldActiveMap old n.address = some v :=
          (oldActiveMap_eq_some_iff hold _ _).mpr ⟨hvold, hnv.symm⟩
        have hnu : n ∈ u := by
          have hu := (classifyValidators_ok [] [] _ hc).1
          rw [List.nil_append] at hu
          rw [hu, List.mem_filter]
          exact ⟨hn, by simp [ho, Ne.symm hne]⟩
        exact hvu (hnv ▸ List.mem_map_of_mem hnu)
      · obtain ⟨n, hn, -, hnv, hnvp⟩ := mem_added hc hadded
        exact ⟨n, hn, hnv, hnvp⟩

def stakedValidator (b : UInt8) (votingPower : ℤ) : ValidatorMetadata Unit :=
  ⟨bytesToAddress [b], none, votingPower, decide (0 < votingPower)⟩

def sampleStakeMap : ValidatorStakeMap Unit :=
  ⟨[stakedValidator 2 3, stakedValidator 3 1, stakedValidator 1 0], by decide⟩

def sampleOldSet : AccountSet Unit := [stakedValidator 1 1, stakedValidator 2 2]

def sampleDelta : ValidatorSetDelta Unit :=
  ⟨[{ stakedValidator 3 1 with blsKey := some () }], [stakedValidator 2 3], [1]⟩

theorem applyDelta_updateValidatorSet_of_sample :
    updateValidatorSet sampleStakeMap 2 (fun _ => .ok ()) false sampleOldSet = .ok sampleDelta ∧
      ∃ r, sampleOldSet.applyDelta (some sampleDelta) = .ok r ∧ r.getAddresses.Nodup ∧
        (pairs (·.address) (·.votingPower) r).Perm
          (pairs (·.address) (·.votingPower) (sampleStakeMap.getSorted 2)) :=
  ⟨rfl, applyDelta_updateValidatorSet sampleStakeMap 2 (fun _ => .ok ()) false (by decide) rfl⟩

theorem updateValidatorSet_debug_eq (sc : ValidatorStakeMap K) (m : Nat)
    (getBlsKey : Address → Except String K) {old : AccountSet K} (hold : old.getAddresses.Nodup) :
    updateValidatorSet sc m getBlsKey true old = updateValidatorSet sc m getBlsKey false old := by
  cases hc : classifyValidators (oldActiveMap old) getBlsKey [] [] (sc.getSorted m) with
  | error e => simp only [updateValidatorSet, hc, Except.error_bind_eq]
  | ok ua =>
    obtain ⟨u, a⟩ := ua
    simp only [updateValidatorSet, hc, Except.ok_bind_eq, if_true]
    rw [(deltaFits_updateValidatorSet hc hold).applyDelta_eq]
    rfl

end PolybftStakeManager
