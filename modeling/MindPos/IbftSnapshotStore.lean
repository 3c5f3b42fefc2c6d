import MindPos.IbftSnapshot
import MindPos.GoSort

/-! # The snapshot store

`snapshotStore` of `validators/store/snapshot`: snapshots sorted by number, `find` returning
the one that governs a height, and the updates `add`, `putByNumber` and `deleteLower`. A Go
index out of range is `none`. -/
namespace IbftSnapshot

open GoSort EdgeTypes

structure SnapshotStore where
  lastNumber : UInt64
  list : List Snapshot
  deriving DecidableEq

/-- `list[i].Number`, read where `sort.Search` reads it: below the length. -/
def numberAt (list : List Snapshot) (i : ℕ) : UInt64 := (list[i]?.map (·.number)).getD 0

def goIndex (list : List Snapshot) (i : ℤ) : Option Snapshot :=
  if 0 ≤ i then list[i.toNat]? else none

/-- `snapshotSortedList.Less`. -/
def numberLess (a b : Snapshot) : Bool := a.number < b.number

def SnapshotStore.add (s : SnapshotStore) (snap : Snapshot) : SnapshotStore :=
  { s with list := insertionSort numberLess (s.list ++ [snap]) }

def SnapshotStore.find (s : SnapshotStore) (num : UInt64) : Option Snapshot :=
  match s.list.getLast? with
  | none => none
  | some last =>
    if last.number < num then some last
    else
      let i := search s.list.length fun i => num ≤ numberAt s.list i
      if i < s.list.length then
        if i = 0 then s.list.head?
        else if numberAt s.list i = num then s.list[i]?
        else s.list[i - 1]?
      else none

def SnapshotStore.putByNumber (s : SnapshotStore) (snap : Snapshot) : SnapshotStore :=
  let i := search s.list.length fun i => numberAt s.list i == snap.number
  if i < s.list.length then { s with list := s.list.set i snap }
  else { s with list := insertionSort numberLess (s.list ++ [snap]) }

/-- How the loop of `findClosestSnapshotIndex` ends: on an exact hit, or with the bounds. -/
inductive ClosestExit
  | found (mid : ℕ)
  | bounds (low high : ℤ)
  deriving DecidableEq

def closestLoop (list : List Snapshot) (blockNum : UInt64) :
    ℕ → ℤ → ℤ → Option ClosestExit
  | 0, low, high => some (.bounds low high)
  | fuel + 1, low, high =>
    if low ≤ high then
      let mid := (high + low) / 2
      match goIndex list mid with
      | none => none
      | some snap =>
        if blockNum < snap.number then closestLoop list blockNum fuel low (mid - 1)
        else if blockNum > snap.number then closestLoop list blockNum fuel (mid + 1) high
        else some (.found mid.toNat)
    else some (.bounds low high)

def findClosestSnapshotIndex (list : List Snapshot) (blockNum : UInt64) : Option ℕ := do
  let first ← list.head?
  if blockNum < first.number then return 0
  let last ← list.getLast?
  if blockNum > last.number then return list.length - 1
  match ← closestLoop list blockNum list.length 0 (list.length - 1) with
  | .found mid => return mid
  | .bounds low high =>
    let lowSnap ← goIndex list low
    let highSnap ← goIndex list high
    -- the lower neighbour is chosen only when the higher one is strictly nearer to `blockNum`
    if lowSnap.number - blockNum < blockNum - highSnap.number then return high.toNat
    return low.toNat

def SnapshotStore.deleteLower (s : SnapshotStore) (num : UInt64) : Option SnapshotStore := do
  let pruneIndex ← findClosestSnapshotIndex s.list num
  return { s with list := s.list.drop pruneIndex }

/-- Snapshots in strictly increasing number. -/
def Sorted (list : List Snapshot) : Prop := list.Pairwise fun a b => a.number < b.number

instance (list : List Snapshot) : Decidable (Sorted list) :=
  inferInstanceAs (Decidable (list.Pairwise _))

def governing (list : List Snapshot) (h : UInt64) : Option Snapshot :=
  (list.filter fun s => s.number ≤ h).getLast?.or list.head?

theorem numberAt_of_lt {list : List Snapshot} {i : ℕ} (hi : i < list.length) :
    numberAt list i = list[i].number := by
  simp [numberAt, List.getElem?_eq_getElem hi]

theorem Sorted.lt {list : List Snapshot} (hs : Sorted list) {a b : ℕ} (hab : a < b)
    (hb : b < list.length) : list[a].number < list[b].number :=
  List.pairwise_iff_getElem.mp hs a b (by omega) hb hab

theorem Sorted.le {list : List Snapshot} (hs : Sorted list) {a b : ℕ} (hab : a ≤ b)
    (hb : b < list.length) : list[a].number ≤ list[b].number := by
  rcases Nat.lt_or_eq_of_le hab with hab | rfl
  · exact UInt64.le_of_lt (hs.lt hab hb)
  · exact UInt64.le_refl _

theorem filter_le_of_sorted {list : List Snapshot} (hs : Sorted list) {num : UInt64} {i : ℕ}
    (hi : i < list.length) (hbelow : ∀ k (hk : k < i), list[k].number < num)
    (hat : num ≤ list[i].number) :
    list.filter (fun s => s.number ≤ num) =
      list.take i ++ if list[i].number = num then [list[i]] else [] := by
  have htake : (list.take i).filter (fun s => s.number ≤ num) = list.take i := by
    rw [List.filter_eq_self]
    intro a ha
    obtain ⟨k, hk, rfl⟩ := List.mem_take_iff_getElem.mp ha
    exact decide_eq_true (UInt64.le_of_lt (hbelow k (by omega)))
  have hdrop : (list.drop (i + 1)).filter (fun s => s.number ≤ num) = [] := by
    rw [List.filter_eq_nil_iff]
    intro a ha
    obtain ⟨k, hk, rfl⟩ := List.mem_drop_iff_getElem.mp ha
    have hgt := UInt64.lt_of_le_of_lt hat (hs.lt (by omega : i < i + 1 + k) (by omega : i + 1 + k < list.length))
    exact fun hle => UInt64.not_le.mpr hgt (of_decide_eq_true hle)
  conv_lhs => rw [← List.take_append_drop i list, List.drop_eq_getElem_cons hi]
  rw [List.filter_append, List.filter_cons, htake, hdrop]
  by_cases heq : list[i].number = num
  · simp [heq]
  · have hnle : ¬ list[i].number ≤ num := fun hle => heq (UInt64.le_antisymm hle hat)
    simp [heq, hnle]

theorem Sorted.le_getLast {list : List Snapshot} (hs : Sorted list) {last : Snapshot}
    (hlast : list.getLast? = some last) {s : Snapshot} (hmem : s ∈ list) :
    s.number ≤ last.number := by
  rw [List.getLast?_eq_getElem?] at hlast
  obtain ⟨hn, rfl⟩ := List.getElem?_eq_some_iff.mp hlast
  obtain ⟨k, hk, rfl⟩ := List.mem_iff_getElem.mp hmem
  exact hs.le (by omega) hn

theorem find_eq_governing {s : SnapshotStore} (hs : Sorted s.list) (num : UInt64) :
    s.find num = governing s.list num := by
  unfold SnapshotStore.find
  cases hlast : s.list.getLast? with
  | none =>
    rw [List.getLast?_eq_none_iff] at hlast
    simp [governing, hlast]
  | some last =>
    dsimp only
    by_cases hlt : last.number < num
    · have hall : s.list.filter (fun t => t.number ≤ num) = s.list :=
        List.filter_eq_self.mpr fun t ht =>
          decide_eq_true (UInt64.le_of_lt (UInt64.lt_of_le_of_lt (hs.le_getLast hlast ht) hlt))
      rw [if_pos hlt, governing, hall, hlast]
      rfl
    · rw [if_neg hlt]
      have hmono : ∀ a b, a ≤ b → b < s.list.length →
          decide (num ≤ numberAt s.list a) = true → decide (num ≤ numberAt s.list b) = true := by
        intro a b hab hb ha
        rw [numberAt_of_lt (by omega)] at ha
        rw [numberAt_of_lt hb]
        exact decide_eq_true (UInt64.le_trans (of_decide_eq_true ha) (hs.le hab hb))
      obtain ⟨-, -, habove⟩ := search_spec s.list.length fun i => decide (num ≤ numberAt s.list i)
      set i := search s.list.length fun i => decide (num ≤ numberAt s.list i) with hi_def
      clear_value i
      have hn : s.list.length - 1 < s.list.length := by
        have hne : s.list ≠ [] := by
          intro h
          simp [h] at hlast
        have := List.length_pos_iff.mpr hne
        omega
      have hi : i < s.list.length := by
        by_contra hge
        have hfalse := (lt_search_iff hmono hn).mp (by omega)
        rw [List.getLast?_eq_getElem?, List.getElem?_eq_getElem hn, Option.some_inj] at hlast
        rw [numberAt_of_lt hn, hlast, decide_eq_false_iff_not] at hfalse
        exact hfalse (UInt64.not_lt.mp hlt)
      have hbelow : ∀ k (hk : k < i), s.list[k].number < num := by
        intro k hk
        have hkn : k < s.list.length := by omega
        have hfalse := (lt_search_iff hmono (k := k) hkn).mp (hi_def ▸ hk)
        rw [numberAt_of_lt hkn, decide_eq_false_iff_not] at hfalse
        exact UInt64.not_le.mp hfalse
      have hat : num ≤ s.list[i].number := by
        have htrue := habove hi
        rw [numberAt_of_lt hi] at htrue
        exact of_decide_eq_true htrue
      rw [if_pos hi, governing, filter_le_of_sorted hs hi hbelow hat, numberAt_of_lt hi,
        List.getLast?_append]
      by_cases hzero : i = 0
      · subst hzero
        split_ifs <;> simp [List.head?_eq_getElem?]
      · by_cases heq : s.list[i].number = num
        · simp [hzero, heq]
        · simp [hzero, heq, List.getLast?_take,
            List.getElem?_eq_getElem (by omega : i - 1 < s.list.length)]

theorem Sorted.sublist {l l' : List Snapshot} (hs : Sorted l') (hsub : l.Sublist l') : Sorted l :=
  List.Pairwise.sublist hsub hs

theorem sorted_iff_map (list : List Snapshot) :
    Sorted list ↔ (list.map (·.number)).Pairwise (· < ·) := by
  rw [Sorted, List.pairwise_map]

theorem governing_self {list : List Snapshot} (hs : Sorted list) {t : Snapshot} (ht : t ∈ list) :
    governing list t.number = some t := by
  obtain ⟨k, hk, rfl⟩ := List.mem_iff_getElem.mp ht
  have hbelow : ∀ j (hj : j < k), list[j].number < list[k].number := fun j hj => hs.lt hj hk
  rw [governing, filter_le_of_sorted hs hk hbelow (UInt64.le_refl _), if_pos rfl,
    List.getLast?_append, List.getLast?_singleton]
  rfl

theorem sorted_insertionSort_append {list : List Snapshot} (hs : Sorted list) {snap : Snapshot}
    (hnew : ∀ t ∈ list, t.number ≠ snap.number) :
    Sorted (insertionSort numberLess (list ++ [snap])) := by
  have hpw : list.Pairwise fun a b => numberLess b a = false :=
    hs.imp fun hab => by simp [numberLess, UInt64.not_lt.mpr (UInt64.le_of_lt hab)]
  rw [insertionSort_append_of_pairwise hpw]
  set p := numberLess snap
  have hAB : (list.reverse.dropWhile p).reverse ++ (list.reverse.takeWhile p).reverse = list := by
    rw [← List.reverse_append, List.takeWhile_append_dropWhile, List.reverse_reverse]
  have hB : ∀ b ∈ (list.reverse.takeWhile p).reverse, snap.number < b.number := by
    intro b hb
    have hpb := List.mem_takeWhile_imp (List.mem_reverse.mp hb)
    simpa [p, numberLess] using hpb
  have hA : ∀ a ∈ (list.reverse.dropWhile p).reverse, a.number < snap.number := by
    intro a ha
    rw [List.mem_reverse] at ha
    cases hd : list.reverse.dropWhile p with
    | nil => simp [hd] at ha
    | cons d t =>
      have hdp : p d = false := by simpa [hd] using List.head_dropWhile_not p (l := list.reverse)
      have hdmem : d ∈ list := List.mem_reverse.mp
        ((List.dropWhile_suffix p).subset (hd ▸ List.mem_cons_self))
      have hdle : d.number ≤ snap.number := by simpa [p, numberLess] using hdp
      have hdlt : d.number < snap.number :=
        UInt64.lt_of_le_of_ne hdle (hnew d hdmem)
      rw [hd] at ha
      rcases List.mem_cons.mp ha with rfl | hat
      · exact hdlt
      · have hsuf : (d :: t).Pairwise fun a b => b.number < a.number :=
          hd ▸ (List.pairwise_reverse.mpr hs).sublist (List.dropWhile_suffix p).sublist
        exact UInt64.lt_trans ((List.pairwise_cons.mp hsuf).1 a hat) hdlt
  have hsAB : Sorted ((list.reverse.dropWhile p).reverse ++ (list.reverse.takeWhile p).reverse) := by
    rw [hAB]
    exact hs
  rw [Sorted, List.pairwise_append] at hsAB ⊢
  refine ⟨hsAB.1, List.pairwise_cons.mpr ⟨hB, hsAB.2.1⟩, fun a ha b hb => ?_⟩
  rcases List.mem_cons.mp hb with rfl | hb
  · exact hA a ha
  · exact hsAB.2.2 a ha b hb

theorem putByNumber_of_found {s : SnapshotStore} (hs : Sorted s.list) {snap : Snapshot}
    (hfound : search s.list.length (fun i => numberAt s.list i == snap.number) < s.list.length) :
    Sorted (s.putByNumber snap).list ∧ (s.putByNumber snap).find snap.number = some snap := by
  obtain ⟨-, -, habove⟩ := search_spec s.list.length fun i => numberAt s.list i == snap.number
  set i := search s.list.length (fun i => numberAt s.list i == snap.number)
  have hnum : s.list[i].number = snap.number := by
    have := habove hfound
    rwa [numberAt_of_lt hfound, beq_iff_eq] at this
  have hlist : (s.putByNumber snap).list = s.list.set i snap := by
    simp only [SnapshotStore.putByNumber]
    rw [if_pos hfound]
  have hsorted : Sorted (s.list.set i snap) := by
    have hmap : (s.list.set i snap).map (·.number) = s.list.map (·.number) := by
      have hself := List.set_getElem_self (show i < (s.list.map (·.number)).length by simpa using hfound)
      rw [List.map_set, ← hnum]
      simpa using hself
    rw [sorted_iff_map, hmap, ← sorted_iff_map]
    exact hs
  rw [find_eq_governing (hlist ▸ hsorted), hlist]
  exact ⟨hsorted, governing_self hsorted (List.mem_set hfound snap)⟩

theorem putByNumber_of_new {s : SnapshotStore} (hs : Sorted s.list) {snap : Snapshot}
    (hnew : ∀ t ∈ s.list, t.number ≠ snap.number) :
    Sorted (s.putByNumber snap).list ∧ (s.putByNumber snap).find snap.number = some snap := by
  obtain ⟨-, -, habove⟩ := search_spec s.list.length fun i => numberAt s.list i == snap.number
  set i := search s.list.length (fun i => numberAt s.list i == snap.number)
  have hmiss : ¬ i < s.list.length := by
    intro hi
    have := habove hi
    rw [numberAt_of_lt hi, beq_iff_eq] at this
    exact hnew _ (List.getElem_mem hi) this
  have hlist : (s.putByNumber snap).list = insertionSort numberLess (s.list ++ [snap]) := by
    simp only [SnapshotStore.putByNumber]
    rw [if_neg hmiss]
  have hsorted := sorted_insertionSort_append hs hnew
  have hmem : snap ∈ insertionSort numberLess (s.list ++ [snap]) := by
    have hpw : s.list.Pairwise fun a b => numberLess b a = false :=
      hs.imp fun hab => by simp [numberLess, UInt64.not_lt.mpr (UInt64.le_of_lt hab)]
    rw [insertionSort_append_of_pairwise hpw]
    simp
  rw [find_eq_governing (hlist ▸ hsorted), hlist]
  exact ⟨hsorted, governing_self hsorted hmem⟩

def sampleSnapshot (number : UInt64) (validators : List Validator) : Snapshot :=
  ⟨number, zeroHash, [], ⟨.ecdsa, validators⟩⟩

def sampleStore (numbers : List UInt64) : SnapshotStore :=
  ⟨0, numbers.map fun n => sampleSnapshot n []⟩

/-- `UpdateValidatorSet` puts a snapshot at height 3 into a store numbered 1, 3, 5, 7: sort.Search
steps past the entry at 3, the new snapshot is appended after it, and `find` keeps returning the
old one. -/
theorem putByNumber_keeps_stale_snapshot :
    Sorted (sampleStore [1, 3, 5, 7]).list ∧
      (((sampleStore [1, 3, 5, 7]).putByNumber (sampleSnapshot 3 [.ecdsa zeroAddress])).list.map
        (·.number) = [1, 3, 3, 5, 7]) ∧
      ((sampleStore [1, 3, 5, 7]).putByNumber (sampleSnapshot 3 [.ecdsa zeroAddress])).find 3 =
        some (sampleSnapshot 3 []) := by
  decide

/-- `SignerInterface`, as far as `ProcessHeader` uses it. -/
structure Signer where
  type : ValidatorType
  ecrecoverFromHeader : Header → Except String Address

structure SnapshotValidatorStore where
  epochSize : UInt64
  store : SnapshotStore
  deriving DecidableEq

def preservedEpochs : UInt64 := 2

def indexOutOfRange : String := "runtime error: index out of range"

def SnapshotValidatorStore.getSnapshot (s : SnapshotValidatorStore) (height : UInt64) :
    Option Snapshot :=
  s.store.find height

def SnapshotValidatorStore.saveSnapshotIfChanged (s : SnapshotValidatorStore)
    (parentSnapshot snapshot : Snapshot) (header : Header) : SnapshotValidatorStore :=
  if snapshot.equal parentSnapshot then s
  else { s with store := s.store.add { snapshot with number := header.number, hash := header.hash } }

def SnapshotValidatorStore.removeLowerSnapshots (s : SnapshotValidatorStore) (currentHeight : UInt64) :
    Except String SnapshotValidatorStore := do
  let currentEpoch := currentHeight / s.epochSize
  if currentEpoch < preservedEpochs then return s
  let purgeBlock := (currentEpoch - preservedEpochs) * s.epochSize
  match s.store.deleteLower purgeBlock with
  | some store => return { s with store := store }
  | none => throw indexOutOfRange

def SnapshotValidatorStore.updateLastBlock (s : SnapshotValidatorStore) (num : UInt64) :
    SnapshotValidatorStore :=
  { s with store := { s.store with lastNumber := num } }

def SnapshotValidatorStore.applyHeader (s : SnapshotValidatorStore) (signer : Signer)
    (proposer : Address) (parentSnap : Snapshot) (header : Header) :
    Except String SnapshotValidatorStore :=
  if header.number % s.epochSize = 0 then do
    -- a new epoch: the votes are reset and old snapshots pruned
    let s ← (s.saveSnapshotIfChanged parentSnap { parentSnap with votes := [] } header).removeLowerSnapshots
      header.number
    return s.updateLastBlock header.number
  else if header.miner = List.replicate 20 0 then return s.updateLastBlock header.number
  else do
    let snap ← processVote parentSnap header signer.type proposer
    return (s.updateLastBlock header.number).saveSnapshotIfChanged parentSnap snap header

def SnapshotValidatorStore.processHeader (getSigner : UInt64 → Except String (Option Signer))
    (s : SnapshotValidatorStore) (header : Header) : Except String SnapshotValidatorStore := do
  let some signer ← getSigner header.number
    | throw ("signer not found at " ++ toString header.number)
  let proposer ← signer.ecrecoverFromHeader header
  let some parentSnap := s.getSnapshot (header.number - 1) | throw "not found snapshot"
  if !parentSnap.set.includes proposer then throw "unauthorized proposer"
  else s.applyHeader signer proposer parentSnap header

/-- `ProcessHeadersInRange` over a list of headers: the first error stops it. -/
def SnapshotValidatorStore.processHeaders (getSigner : UInt64 → Except String (Option Signer))
    (s : SnapshotValidatorStore) (headers : List Header) : Except String SnapshotValidatorStore :=
  headers.foldlM (processHeader getSigner) s

theorem find_mem {s : SnapshotStore} {num : UInt64} {t : Snapshot} (h : s.find num = some t) :
    t ∈ s.list := by
  unfold SnapshotStore.find at h
  split at h
  · cases h
  · rename_i last hlast
    split_ifs at h with hlt
    · cases h
      exact List.mem_of_getLast? hlast
    · dsimp only at h
      split_ifs at h
      · exact List.mem_of_mem_head? h
      · exact List.mem_of_getElem? h
      · exact List.mem_of_getElem? h

theorem mem_add {s : SnapshotStore} {snap t : Snapshot} (ht : t ∈ (s.add snap).list) :
    t ∈ s.list ∨ t = snap := by
  have hperm := @insertionSort_perm Snapshot numberLess (s.list ++ [snap])
  simpa using hperm.subset ht

/-! ## Votes over runs of headers -/

/-- Every stored snapshot has its votes from current validators, at most one per voter and
candidate validator. -/
def StoreVotesWellFormed (s : SnapshotValidatorStore) : Prop :=
  ∀ snap ∈ s.store.list, VotesWellFormed snap

theorem votesWellFormed_noVotes (snap : Snapshot) : VotesWellFormed { snap with votes := [] } :=
  ⟨fun _ hv => absurd hv List.not_mem_nil, fun _ _ => Nat.zero_le 1⟩

theorem saveSnapshotIfChanged_wellFormed {s : SnapshotValidatorStore} (hwf : StoreVotesWellFormed s)
    {parentSnap snap : Snapshot} (hsnap : VotesWellFormed snap) (header : Header) :
    StoreVotesWellFormed (s.saveSnapshotIfChanged parentSnap snap header) := by
  unfold SnapshotValidatorStore.saveSnapshotIfChanged
  split_ifs
  · exact hwf
  · intro t ht
    rcases mem_add ht with ht | rfl
    · exact hwf t ht
    · exact ⟨hsnap.voter_in_set, hsnap.one_vote⟩

theorem removeLowerSnapshots_wellFormed {s s' : SnapshotValidatorStore}
    (hwf : StoreVotesWellFormed s) {height : UInt64}
    (h : s.removeLowerSnapshots height = .ok s') : StoreVotesWellFormed s' := by
  unfold SnapshotValidatorStore.removeLowerSnapshots at h
  dsimp only at h
  split_ifs at h
  · obtain rfl := Except.ok.inj h
    exact hwf
  · split at h
    · rename_i store hstore
      obtain rfl := Except.ok.inj h
      obtain ⟨pruneIndex, -, hstore⟩ := Option.bind_eq_some_iff.mp hstore
      obtain rfl := Option.some.inj hstore
      exact fun t ht => hwf t (List.mem_of_mem_drop ht)
    · cases h

theorem updateLastBlock_wellFormed {s : SnapshotValidatorStore} (hwf : StoreVotesWellFormed s)
    (num : UInt64) : StoreVotesWellFormed (s.updateLastBlock num) :=
  hwf

theorem applyHeader_wellFormed {s s' : SnapshotValidatorStore} (hwf : StoreVotesWellFormed s)
    {signer : Signer} {proposer : Address} {parentSnap : Snapshot} (hparent : VotesWellFormed parentSnap)
    (hproposer : parentSnap.set.includes proposer = true) {header : Header}
    (h : s.applyHeader signer proposer parentSnap header = .ok s') : StoreVotesWellFormed s' := by
  unfold SnapshotValidatorStore.applyHeader at h
  split_ifs at h
  · obtain ⟨s₁, hs₁, h⟩ := Except.bind_eq_ok_iff.mp h
    obtain rfl := Except.ok.inj h
    exact updateLastBlock_wellFormed (removeLowerSnapshots_wellFormed
      (saveSnapshotIfChanged_wellFormed hwf (votesWellFormed_noVotes parentSnap) header) hs₁) _
  · obtain rfl := Except.ok.inj h
    exact updateLastBlock_wellFormed hwf _
  · obtain ⟨snap, hsnap, h⟩ := Except.bind_eq_ok_iff.mp h
    obtain rfl := Except.ok.inj h
    exact saveSnapshotIfChanged_wellFormed (updateLastBlock_wellFormed hwf _)
      (processVote_wellFormed hparent hproposer hsnap) header

theorem processHeader_wellFormed {getSigner : UInt64 → Except String (Option Signer)}
    {s s' : SnapshotValidatorStore} (hwf : StoreVotesWellFormed s) {header : Header}
    (h : s.processHeader getSigner header = .ok s') : StoreVotesWellFormed s' := by
  obtain ⟨signer?, -, h⟩ := Except.bind_eq_ok_iff.mp h
  cases signer? with
  | none => cases h
  | some signer =>
    obtain ⟨proposer, -, h⟩ := Except.bind_eq_ok_iff.mp h
    split at h
    · rename_i parentSnap hparent
      split_ifs at h with hunauth
      have hproposer : parentSnap.set.includes proposer = true := by simpa using hunauth
      exact applyHeader_wellFormed hwf (hwf parentSnap (find_mem hparent)) hproposer h
    · cases h

theorem processHeaders_wellFormed {getSigner : UInt64 → Except String (Option Signer)} :
    ∀ (headers : List Header) {s s' : SnapshotValidatorStore}, StoreVotesWellFormed s →
      s.processHeaders getSigner headers = .ok s' → StoreVotesWellFormed s'
  | [], s, s', hwf, h => by
    obtain rfl := Except.ok.inj h
    exact hwf
  | header :: headers, s, s', hwf, h => by
    obtain ⟨s₁, hs₁, h⟩ := Except.bind_eq_ok_iff.mp h
    exact processHeaders_wellFormed headers (processHeader_wellFormed hwf hs₁) h

def voteHeader (number : UInt64) (proposer : Address) (miner nonce : List UInt8) : Header :=
  ⟨zeroHash, zeroHash, miner, zeroHash, zeroHash, zeroHash, [], 1, number, 0, 0, 0, proposer.bytes,
    zeroHash, nonce, zeroHash, 0⟩

def blsSigner : Signer := ⟨.bls, fun h => .ok (bytesToAddress h.extraData)⟩

def voterP : Address := bytesToAddress [1]
def voterQ : Address := bytesToAddress [2]
def candidateX : Address := bytesToAddress [3]

def blsVoteStore : SnapshotValidatorStore :=
  ⟨100, ⟨0, [⟨0, zeroHash, [], ⟨.bls, [.bls voterP [0xa], .bls voterQ [0xb]]⟩⟩]⟩⟩

def blsVoteHeaders : List Header :=
  [voteHeader 1 voterP (validatorToMiner (.bls candidateX [2])) nonceAuthVote,
   voteHeader 2 voterP (validatorToMiner (.bls candidateX [1])) nonceAuthVote,
   voteHeader 3 voterQ (validatorToMiner (.bls candidateX [1])) nonceAuthVote]

/-- After two headers P has two live votes for the address X; after the third, X is in the set
and P's vote to add it with key 2 is still live. -/
theorem bls_votes_for_one_address_split :
    (blsVoteStore.processHeaders (fun _ => .ok (some blsSigner)) (blsVoteHeaders.take 2)).map
        (fun s => (s.getSnapshot 2).map (·.votes)) =
      .ok (some [⟨voterP, .bls candidateX [2], true⟩, ⟨voterP, .bls candidateX [1], true⟩]) ∧
    (blsVoteStore.processHeaders (fun _ => .ok (some blsSigner)) blsVoteHeaders).map
        (fun s => (s.getSnapshot 3).map fun snap => (snap.votes, snap.set.includes candidateX)) =
      .ok (some ([⟨voterP, .bls candidateX [2], true⟩], true)) := by
  decide +kernel

end IbftSnapshot
