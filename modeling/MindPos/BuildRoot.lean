import Mathlib
import MindPos.BuildRootFast

/-! # The root of an ordered list

`CalculateRoot` takes the fast hasher's root when it succeeds and otherwise builds the trie:
`deriveSlow` inserts each value under the RLP of its index into a new trie and hashes it. The
inserts of the values `0` to `k - 1` leave `rootTree h k` spelled by the transaction's objects,
whatever the values; hashing it gives the item the fast hasher computes, so the two roots agree
whenever the fast hasher succeeds. -/
namespace BuildRoot

open EdgeTypes RlpEncoding Keccak ImmutableTrie PointerCells StateExcept

/-- `deriveSlow`: the values put into a new trie under the RLP of their index, then the trie's
hash. A panic of the trie is an error. -/
def deriveSlow (num : ℕ) (h : ℕ → List UInt8) : Except String (List UInt8) :=
  (do
    let txn ← (List.range num).foldlM
      (fun (txn : Txn) i => txn.insert (encode (newUint (UInt64.ofNat i))) (h i))
      ((Trie.mk none 0).txn ⟨[]⟩)
    txn.hash).run' Mem.empty

/-- `CalculateRoot`. -/
def calculateRoot (num : ℕ) (h : ℕ → List UInt8) : Except String Hash :=
  if num = 0 then pure emptyRootHash
  else
    let fast := if num ≤ 128 then FastHasher.hash num h else none
    fast.elim (bytesToHash <$> deriveSlow num h) fun dst => pure (bytesToHash dst)

/-- `calculateRootWithRlp`: the values given as RLP items. -/
def calculateRootWithRlp (num : ℕ) (h : ℕ → Value) : Except String Hash :=
  calculateRoot num fun i => encode (h i)

/-! ## Keys -/

theorem toBE_of_lt {n : ℕ} (h0 : 0 < n) (h256 : n < 256) : toBE n = [UInt8.ofNat n] := by
  obtain ⟨n', rfl⟩ : ∃ n', n = n' + 1 := ⟨n - 1, by omega⟩
  rw [toBE, toBEAux, if_neg (by omega), Nat.div_eq_of_lt h256, Nat.mod_eq_of_lt h256]
  cases n' <;> rfl

theorem key_zero : bytesToHexNibbles (encode (newUint (UInt64.ofNat 0))) = [8, 0, 16] := by
  decide

theorem key_of_pos {i : ℕ} (h0 : 0 < i) (h128 : i < 128) :
    bytesToHexNibbles (encode (newUint (UInt64.ofNat i))) =
      [UInt8.ofNat (i / 16), UInt8.ofNat (i % 16), 16] := by
  have hi : (UInt64.ofNat i).toNat = i := UInt64.toNat_ofNat_of_lt' (show i < 2 ^ 64 by omega)
  have hbyte := toNat_ofNat_byte (show i < 256 by omega)
  rw [newUint, hi, toBE_of_lt h0 (by omega), encode_single_small (by omega)]
  have hdiv : UInt8.ofNat i / 16 = UInt8.ofNat (i / 16) := UInt8.toNat_inj.mp (by
    rw [UInt8.toNat_div, hbyte, toNat_ofNat_byte (by omega)]
    rfl)
  have hmod : UInt8.ofNat i % 16 = UInt8.ofNat (i % 16) := UInt8.toNat_inj.mp (by
    rw [UInt8.toNat_mod, hbyte, toNat_ofNat_byte (by omega)]
    rfl)
  rw [bytesToHexNibbles, List.flatMap_cons, List.flatMap_nil, List.append_nil, hdiv, hmod]
  rfl

/-! ## What the inserts build -/

variable (h : ℕ → List UInt8)

/-- After the inserts of the values `0` to `k - 1`, the transaction's objects spell
`rootTree h k`. -/
structure Built (k : ℕ) (txn : Txn) (m : Mem) : Prop where
  batch : txn.batch = false
  spells : ∃ S, Spells m.heap txn.epoch txn.root (rootTree h k) S ∧ ∀ q ∈ S, q < m.heap.next

theorem built_zero : Built h 0 ((Trie.mk none 0).txn ⟨[]⟩) Mem.empty :=
  ⟨rfl, [], .nil, fun _ hq => absurd hq List.not_mem_nil⟩

variable {h}

theorem Built.insert {k : ℕ} {txn : Txn} {m : Mem} {key : List UInt8} {r : Ptr} {S : List Ptr}
    (hb : Built h k txn m)
    (hrun : Completes (txn.insertNode (walkFuel (bytesToHexNibbles key)) txn.root
      (bytesToHexNibbles key) (h k)) m (some r)
      (Inserted txn.epoch S m (some r) (rootTree h (k + 1)))) :
    Completes (txn.insert key (h k)) m { txn with root := some r }
      (Built h (k + 1) { txn with root := some r }) := by
  rw [Txn.insert]
  refine hrun.bind fun m' hm' => ?_
  obtain ⟨S', hs', hbound', -⟩ := hm'.spells
  exact Completes.pure ⟨hb.batch, S', hs', hbound'⟩

/-! ## Slots and shapes -/

theorem set_map_range {α : Type} (g : ℕ → α) (n i : ℕ) (x : α) :
    ((List.range n).map g).set i x = (List.range n).map (Function.update g i x) := by
  apply List.ext_getElem (by simp)
  intro j h₁ h₂
  rw [List.getElem_set, List.getElem_map, List.getElem_map, List.getElem_range,
    Function.update_apply]
  split_ifs <;> first | rfl | omega

theorem replicate_eq_map_range {α : Type} (n : ℕ) (x : α) :
    List.replicate n x = (List.range n).map fun _ => x := by
  simp

theorem getD_map_range {α : Type} (g : ℕ → α) {n i : ℕ} (hi : i < n) (d : α) :
    ((List.range n).map g).getD i d = g i := by
  simp [List.getD_eq_getElem?_getD, hi]

theorem groupTree_of_one {k a : ℕ} (hone : min k (16 * a + 16) = max 1 (16 * a) + 1) :
    groupTree h k a =
      .short [UInt8.ofNat (max 1 (16 * a) % 16), 16] (.value (h (max 1 (16 * a)))) := by
  unfold groupTree
  dsimp only
  rw [if_neg (by omega), if_pos hone]

theorem groupTree_of_two {k a : ℕ} (htwo : max 1 (16 * a) + 1 < min k (16 * a + 16)) :
    groupTree h k a = .full ((List.range 16).map fun b =>
      if max 1 (16 * a) ≤ 16 * a + b ∧ 16 * a + b < min k (16 * a + 16)
      then groupLeaf (h (16 * a + b)) else .nil) .nil := by
  unfold groupTree
  dsimp only
  rw [if_neg (by omega), if_neg (by omega)]

theorem groupTree_succ_of_ne {k b : ℕ} (hb : b ≠ k / 16) : groupTree h (k + 1) b = groupTree h k b := by
  rcases Nat.lt_or_gt_of_ne hb with hlt | hgt
  · unfold groupTree
    rw [show min (k + 1) (16 * b + 16) = min k (16 * b + 16) by omega]
  · rw [groupTree_of_le h (by omega), groupTree_of_le h (by omega)]

theorem rootTree_of_two {k : ℕ} (hk : 2 ≤ k) : rootTree h k = .full ((List.range 16).map fun a =>
    if a = 8 then .short [0, 16] (.value (h 0)) else groupTree h k a) .nil := by
  unfold rootTree
  rw [if_neg (by omega), if_neg (by omega)]

theorem rootTree_ne_nil {k : ℕ} (hk : 1 ≤ k) : rootTree h k ≠ .nil := by
  unfold rootTree
  rw [if_neg (by omega)]
  split_ifs <;> intro hnil <;> cases hnil

/-! ## One insert -/

section Insert

variable {t : Txn}

theorem nibble_lt {n : ℕ} (hn : n < 16) : UInt8.ofNat n < 16 := by
  rw [UInt8.lt_iff_toNat_lt, toNat_ofNat_byte (by omega)]
  exact hn

theorem insertNode_group {m : Mem} {k : ℕ} (hk2 : 2 ≤ k) (hk : k < 128) {c : Option Ptr}
    {S₀ : List Ptr} (hs : Spells m.heap t.epoch c (groupTree h k (k / 16)) S₀)
    (hbound : ∀ q ∈ S₀, q < m.heap.next) :
    ∃ nc, Completes (t.insertNode 15 c [UInt8.ofNat (k % 16), 16] (h k)) m nc
      (Inserted t.epoch S₀ m nc (groupTree h (k + 1) (k / 16))) := by
  have hk16 : (UInt8.ofNat (k % 16)).toNat = k % 16 := toNat_ofNat_byte (by omega)
  by_cases hfirst : k ≤ max 1 (16 * (k / 16))
  · rw [groupTree_of_le h (by omega)] at hs
    obtain ⟨rfl, rfl⟩ := Spells.of_nil hs
    rw [groupTree_of_one (by omega), show max 1 (16 * (k / 16)) = k by omega]
    exact ⟨_, insertNode_none 13 (List.cons_ne_nil _ _) (h k) m⟩
  by_cases hsecond : k = max 1 (16 * (k / 16)) + 1
  · rw [groupTree_of_one (by omega)] at hs
    have hlo := toNat_ofNat_byte (show max 1 (16 * (k / 16)) % 16 < 256 by omega)
    obtain ⟨p, rfl⟩ := hs.exists_some (by simp)
    refine ⟨_, hs.insertNode_short_split hbound ?_ (List.cons_ne_nil _ _) (nibble_lt (by omega))
      fun m₁ S₁ hs₁ hb₁ => ?_⟩
    · rw [prefixLen, if_neg]
      intro heq
      have := congrArg UInt8.toNat heq
      rw [hk16, hlo] at this
      omega
    refine (hs₁.insertNode_full hb₁ (nibble_lt (by omega)) (groupLeaf (h k))
      fun c' S' hc' _ => ?_).mono fun m' hm' => ?_
    · rw [hk16, hlo, getD_set_ne (by omega), List.getD_replicate _ (by omega)] at hc'
      obtain ⟨rfl, rfl⟩ := Spells.of_nil hc'
      exact ⟨_, insertNode_none 11 (List.cons_ne_nil _ _) (h k) m₁⟩
    · rw [hk16, hlo] at hm'
      rw [groupTree_of_two (by omega)]
      convert hm' using 3
      rw [replicate_eq_map_range, set_map_range, set_map_range]
      congr 1
      funext b
      simp only [Function.update_apply, groupLeaf]
      split_ifs <;> first | rfl | omega | (congr 3; omega)
  · rw [groupTree_of_two (by omega)] at hs
    obtain ⟨p, rfl⟩ := hs.exists_some (by simp)
    refine ⟨_, (hs.insertNode_full hbound (nibble_lt (by omega)) (groupLeaf (h k))
      fun c' S' hc' _ => ?_).mono fun m' hm' => ?_⟩
    · rw [hk16, getD_map_range _ (by omega), if_neg (by omega)] at hc'
      obtain ⟨rfl, rfl⟩ := Spells.of_nil hc'
      exact ⟨_, insertNode_none 12 (List.cons_ne_nil _ _) (h k) m⟩
    · rw [hk16, set_map_range] at hm'
      rw [groupTree_of_two (by omega)]
      convert hm' using 3
      funext b
      simp only [Function.update_apply, groupLeaf]
      split_ifs <;> first | rfl | omega | (congr 3; omega)

theorem Built.insert_zero {txn : Txn} {m : Mem} (hb : Built h 0 txn m) :
    ∃ txn', Completes (txn.insert (encode (newUint (UInt64.ofNat 0))) (h 0)) m txn'
      (Built h 1 txn') := by
  obtain ⟨S, hs, -⟩ := hb.spells
  rw [rootTree, if_pos rfl] at hs
  obtain ⟨hroot, rfl⟩ := Spells.of_nil hs
  refine ⟨_, hb.insert (r := m.heap.next + 1) (S := []) ?_⟩
  rw [hroot, key_zero]
  refine (insertNode_none 14 (List.cons_ne_nil _ _) (h 0) m).mono fun m' hm' => ?_
  rw [rootTree, if_neg (by omega), if_pos rfl]
  exact hm'

theorem Built.insert_one {txn : Txn} {m : Mem} (hb : Built h 1 txn m) :
    ∃ txn', Completes (txn.insert (encode (newUint (UInt64.ofNat 1))) (h 1)) m txn'
      (Built h 2 txn') := by
  obtain ⟨S, hs, hbound⟩ := hb.spells
  obtain ⟨r, hroot⟩ := hs.exists_some (rootTree_ne_nil le_rfl)
  rw [rootTree, if_neg (by omega), if_pos rfl, hroot] at hs
  refine ⟨_, hb.insert (r := m.heap.next + 1) (S := S) ?_⟩
  rw [hroot, key_of_pos (by omega) (by omega)]
  refine hs.insertNode_short_split hbound (by decide) (List.cons_ne_nil _ _) (by decide)
    fun m₁ S₁ hs₁ hb₁ => ?_
  refine (hs₁.insertNode_full hb₁ (by decide) (.short [UInt8.ofNat (1 % 16), 16] (.value (h 1)))
    fun c S' hc _ => ?_).mono fun m' hm' => ?_
  · rw [show (UInt8.ofNat (1 / 16)).toNat = 0 from rfl, getD_set_ne (by decide),
      List.getD_replicate _ (by decide)] at hc
    obtain ⟨rfl, rfl⟩ := Spells.of_nil hc
    exact ⟨_, insertNode_none 12 (List.cons_ne_nil _ _) (h 1) m₁⟩
  · rw [show (UInt8.ofNat (1 / 16)).toNat = 0 from rfl, show (8 : UInt8).toNat = 8 from rfl] at hm'
    rw [rootTree_of_two (le_refl 2)]
    convert hm' using 3
    rw [replicate_eq_map_range, set_map_range, set_map_range]
    congr 1
    funext a
    simp only [Function.update_apply]
    by_cases h0 : a = 0
    · subst h0
      rw [if_neg (by decide), if_pos rfl, groupTree_of_one (by decide)]
      rfl
    by_cases h8 : a = 8
    · subst h8
      rw [if_pos rfl, if_neg (by decide), if_pos rfl]
    · rw [if_neg h8, if_neg h0, if_neg h8, groupTree_of_le h (by omega)]

theorem Built.insert_group {k : ℕ} (hk2 : 2 ≤ k) (hk : k < 128) {txn : Txn} {m : Mem}
    (hb : Built h k txn m) :
    ∃ txn', Completes (txn.insert (encode (newUint (UInt64.ofNat k))) (h k)) m txn'
      (Built h (k + 1) txn') := by
  obtain ⟨S, hs, hbound⟩ := hb.spells
  obtain ⟨r, hroot⟩ := hs.exists_some (rootTree_ne_nil (by omega))
  rw [rootTree_of_two hk2, hroot] at hs
  have hk16 : (UInt8.ofNat (k / 16)).toNat = k / 16 := toNat_ofNat_byte (by omega)
  refine ⟨_, hb.insert (r := r) (S := S) ?_⟩
  rw [hroot, key_of_pos (by omega) hk]
  refine (hs.insertNode_full hbound (nibble_lt (by omega)) (groupTree h (k + 1) (k / 16))
    fun c S₀ hc hc₀ => ?_).mono fun m' hm' => ?_
  · rw [hk16, getD_map_range _ (by omega), if_neg (by omega)] at hc
    exact insertNode_group hk2 hk hc hc₀
  · rw [hk16, set_map_range] at hm'
    rw [rootTree_of_two (by omega)]
    convert hm' using 3
    funext a
    simp only [Function.update_apply]
    by_cases hka : a = k / 16
    · subst hka
      rw [if_neg (by omega), if_pos rfl]
    · rw [if_neg hka]
      by_cases h8 : a = 8
      · rw [if_pos h8, if_pos h8]
      · rw [if_neg h8, if_neg h8, groupTree_succ_of_ne hka]

theorem Built.insert_step {k : ℕ} (hk : k < 128) {txn : Txn} {m : Mem} (hb : Built h k txn m) :
    ∃ txn', Completes (txn.insert (encode (newUint (UInt64.ofNat k))) (h k)) m txn'
      (Built h (k + 1) txn') := by
  rcases k with _ | _ | k
  · exact hb.insert_zero
  · exact hb.insert_one
  · exact hb.insert_group (by omega) hk

end Insert

/-! ## The run of `deriveSlow` -/

theorem built_range (k : ℕ) (hk : k ≤ 128) :
    ∃ txn, Completes ((List.range k).foldlM
      (fun (txn : Txn) i => txn.insert (encode (newUint (UInt64.ofNat i))) (h i))
      ((Trie.mk none 0).txn ⟨[]⟩)) Mem.empty txn (Built h k txn) := by
  induction k with
  | zero => exact ⟨_, Completes.pure (built_zero h)⟩
  | succ k ih =>
    obtain ⟨txn, hrun⟩ := ih (by omega)
    rw [List.range_succ, List.foldlM_append]
    refine hrun.bind_exists fun m hm => ?_
    obtain ⟨txn', hstep⟩ := hm.insert_step (by omega)
    rw [List.foldlM_cons]
    exact ⟨txn', hstep.bind fun m' hm' => Completes.pure hm'⟩

theorem get_completes (m : Mem) : Completes (get : TrieM Mem) m m (· = m) := ⟨m, rfl, rfl⟩

theorem Built.hash_completes {k : ℕ} (hk : 1 ≤ k) {txn : Txn} {m : Mem} (hb : Built h k txn m)
    {r : List UInt8} (hitem : (rootTree h k).item = .bytes r) (hr : r.length = 32) :
    Completes txn.hash m r fun _ => True := by
  obtain ⟨S, hs, hbound⟩ := hb.spells
  obtain ⟨p, hroot⟩ := hs.exists_some (rootTree_ne_nil hk)
  rw [hroot] at hs
  have hlen : S.length ≤ m.heap.next + 1 :=
    (length_le_of_subset hs.nodup fun q hq => List.mem_range.mpr (hbound q hq)).trans
      (by rw [List.length_range]; omega)
  rw [Txn.hash, hroot]
  refine (get_completes m).bind fun m₀ hm₀ => ?_
  subst m₀
  refine (hs.hashNode_completes hb.batch p rfl _ hlen m fun _ _ => rfl).bind fun m₁ _ => ?_
  rw [hitem]
  dsimp only
  rw [if_neg (by omega)]
  exact Completes.pure trivial

theorem deriveSlow_zero : deriveSlow 0 h = .ok emptyRootHash.bytes := rfl

theorem deriveSlow_eq {num : ℕ} (h1 : 1 ≤ num) (h128 : num ≤ 128) {r : List UInt8}
    (hitem : (rootTree h num).item = .bytes r) (hr : r.length = 32) : deriveSlow num h = .ok r := by
  obtain ⟨txn, hrun⟩ := built_range num h128
  exact (hrun.bind fun m hm => hm.hash_completes h1 hitem hr).run'_eq

/-! ## The two roots agree -/

theorem fast_eq_deriveSlow {num : ℕ} (h1 : 1 ≤ num) (h128 : num ≤ 128)
    (hfit : ∀ i < num, Fits (h i)) :
    ∃ root, FastHasher.hash num h = some root ∧ deriveSlow num h = .ok root := by
  have heq := FastHasher.hash_eq h1 h128 hfit
  cases hhash : FastHasher.hash num h with
  | none => rw [hhash] at heq; cases heq
  | some root =>
    rw [hhash, Option.map_some] at heq
    exact ⟨root, rfl, deriveSlow_eq h1 h128 (Option.some.inj heq).symm
      (FastHasher.hash_length hhash)⟩

/-- `CalculateRoot` is the root of the trie `deriveSlow` builds: the fast hasher's result, when
it has one, is that root. The values are Go byte slices, shorter than `2 ^ 63`. -/
theorem calculateRoot_eq_deriveSlow (num : ℕ) (h : ℕ → List UInt8)
    (hlen : ∀ i < num, (h i).length < 2 ^ 63) :
    calculateRoot num h = bytesToHash <$> deriveSlow num h ∧
      (1 ≤ num → num ≤ 128 → (∀ i < num, 32 ≤ (h i).length) →
        ∃ root, FastHasher.hash num h = some root ∧ deriveSlow num h = .ok root) := by
  have hfast : 1 ≤ num → num ≤ 128 → (∀ i < num, 32 ≤ (h i).length) →
      ∃ root, FastHasher.hash num h = some root ∧ deriveSlow num h = .ok root :=
    fun h1 h128 h32 => fast_eq_deriveSlow h1 h128 fun i hi => ⟨h32 i hi, hlen i hi⟩
  refine ⟨?_, hfast⟩
  unfold calculateRoot
  by_cases h0 : num = 0
  · subst h0
    rw [if_pos rfl, deriveSlow_zero]
    simp
  rw [if_neg h0]
  dsimp only
  by_cases h128 : num ≤ 128
  · rw [if_pos h128]
    cases hhash : FastHasher.hash num h with
    | none => rfl
    | some root =>
      have h32 : ∀ i < num, 32 ≤ (h i).length := fun i hi => by
        by_contra hshort
        rw [FastHasher.hash_eq_none h128 hi (by omega)] at hhash
        cases hhash
      obtain ⟨root', hhash', hslow⟩ := hfast (by omega) h128 h32
      rw [hhash] at hhash'
      cases hhash'
      rw [hslow]
      rfl
  · rw [if_neg h128]
    rfl

def sampleValue (i : ℕ) : List UInt8 := List.replicate (32 + i) (UInt8.ofNat i)

theorem calculateRoot_eq_deriveSlow_of_twenty :
    (∀ i < 20, (sampleValue i).length < 2 ^ 63) ∧
      calculateRoot 20 sampleValue = bytesToHash <$> deriveSlow 20 sampleValue ∧
      ∃ root, FastHasher.hash 20 sampleValue = some root ∧ deriveSlow 20 sampleValue = .ok root := by
  have hlen : ∀ i < 20, (sampleValue i).length < 2 ^ 63 := fun i hi => by
    rw [sampleValue, List.length_replicate]
    omega
  have hthm := calculateRoot_eq_deriveSlow 20 sampleValue hlen
  exact ⟨hlen, hthm.1, hthm.2 (by norm_num) (by norm_num) fun i _ => by simp [sampleValue]⟩

end BuildRoot
