import MindPos.PolybftCheckpointManager

/-! # Proofs of membership in a Merkle tree

`merkle/merkle_tree.go`: `NewMerkleTree`, `LeafIndex`, `GenerateProof` and `VerifyProof`, with
keccak a parameter. Leaves and inner nodes are hashed alike, and the verifier bounds the index by
the length of the proof, not by the number of leaves. So a proof can open the copy that pads an
odd level, or open the two child hashes of a node as a leaf of 64 bytes, whatever the hash. The
tree also takes an empty leaf, whose proof the verifier refuses. -/
namespace PolybftCheckpointManager

open EdgeTypes

variable (keccak : List UInt8 → Hash)

/-- `NewMerkleTree`. -/
def newMerkleTree (data : List (List UInt8)) : Except String (ExitTree keccak) :=
  match hr : MerkleTree.root (nodeHash keccak) (data.map keccak) with
  | none => .error "tree must contain at least one leaf"
  | some r => .ok ⟨data, r, hr⟩

variable {keccak}

theorem newMerkleTree_of_root {data : List (List UInt8)} {r : Hash}
    (hr : MerkleTree.root (nodeHash keccak) (data.map keccak) = some r) :
    newMerkleTree keccak data = .ok ⟨data, r, hr⟩ := by
  unfold newMerkleTree
  split
  · next hnone => rw [hr] at hnone; cases hnone
  · next r' hr' =>
    obtain rfl : r' = r := Option.some.inj (hr'.symm.trans hr)
    rfl

theorem newMerkleTree_leaves {data : List (List UInt8)} {t : ExitTree keccak}
    (ht : newMerkleTree keccak data = .ok t) : t.leaves = data := by
  unfold newMerkleTree at ht
  split at ht
  · cases ht
  · cases ht
    rfl

theorem ExitTree.findIdx?_leaf (t : ExitTree keccak) {i : ℕ} (hi : i < t.leaves.length) :
    ∃ j, t.leaves.findIdx? (· = t.leaves[i]) = some j ∧ j < t.leaves.length := by
  have hsome : (t.leaves.findIdx? (· = t.leaves[i])).isSome := by
    rw [List.findIdx?_isSome]
    exact List.any_eq_true.mpr ⟨t.leaves[i], List.getElem_mem hi, by simp⟩
  obtain ⟨j, hj⟩ := Option.isSome_iff_exists.mp hsome
  exact ⟨j, hj, (List.findIdx?_eq_some_iff_getElem.mp hj).1⟩

/-- Where no node below the top level hashes to the root, the proof `GenerateProof` gives for a
non-empty leaf has `⌈log₂ n⌉` siblings and verifies at the index `LeafIndex` gives. -/
theorem generateProof_verifies {data : List (List UInt8)} {t : ExitTree keccak}
    (ht : newMerkleTree keccak data = .ok t) (hlow : ∀ ℓ ∈ t.levels.dropLast, t.rootHash ∉ ℓ)
    {i : ℕ} (hi : i < data.length) (hleaf : data[i] ≠ []) :
    ∃ j proof, t.leafIndex data[i] = .ok j ∧ t.generateProof data[i] = .ok proof ∧
      proof.length = Nat.clog 2 data.length ∧
      verifyProof keccak j data[i] proof t.rootHash = .ok () := by
  have hleaves := newMerkleTree_leaves ht
  subst hleaves
  obtain ⟨j, hj, hjlt⟩ := t.findIdx?_leaf hi
  have hidx : t.leafIndex t.leaves[i] = .ok j := by simp only [ExitTree.leafIndex, hj]
  have hgen : t.generateProof t.leaves[i] =
      .ok (MerkleTree.proofFrom t.rootHash t.levels j) := by
    simp only [ExitTree.generateProof, hj]
  refine ⟨j, _, hidx, hgen, ?_, verifyProof_generateProof keccak hleaf hidx hgen hlow⟩
  have hjlt' : j < (t.leaves.map keccak).length := by simpa using hjlt
  have hne : t.leaves.map keccak ≠ [] := List.ne_nil_of_length_pos (by omega)
  rw [ExitTree.levels, MerkleTree.length_proofFrom _ t.root_eq hlow hjlt',
    MerkleTree.length_levels _ hne, List.length_map, Nat.add_sub_cancel]

/-- The third of three leaves is proved with two siblings, under keccak, which has no collision
among the six inputs of the tree. -/
theorem generateProof_verifies_of_three_leaves :
    ∃ t : ExitTree merkleKeccak, newMerkleTree merkleKeccak [[1], [2], [3]] = .ok t ∧
      (∀ ℓ ∈ t.levels.dropLast, t.rootHash ∉ ℓ) ∧
      ∃ j proof, t.leafIndex [3] = .ok j ∧ t.generateProof [3] = .ok proof ∧
        proof.length = Nat.clog 2 3 ∧ verifyProof merkleKeccak j [3] proof t.rootHash = .ok () := by
  obtain ⟨r, hr⟩ := Option.isSome_iff_exists.mp (MerkleTree.root_isSome (nodeHash merkleKeccak)
    (l := [[1], [2], [3]].map merkleKeccak) (by simp))
  obtain ⟨t, ht⟩ : ∃ t, newMerkleTree merkleKeccak [[1], [2], [3]] = .ok t :=
    ⟨_, newMerkleTree_of_root hr⟩
  have hleaves := newMerkleTree_leaves ht
  have hinj : ∀ x ∈ t.inputs, ∀ y ∈ t.inputs, merkleKeccak x = merkleKeccak y → x = y := by
    rw [ExitTree.inputs, ExitTree.levels, hleaves, MerkleTree.levels_of_one_lt_length _ (by simp),
      MerkleTree.levels_of_one_lt_length _ (by simp [MerkleTree.nextLevel]),
      MerkleTree.levels_of_length_le_one _ (by simp [MerkleTree.nextLevel])]
    decide +kernel
  have hlow := t.root_not_mem_lower hinj (by rw [hleaves]; decide)
  exact ⟨t, ht, hlow, generateProof_verifies ht hlow (i := 2) (by decide) (by decide)⟩

/-- The tree takes an empty leaf and proves it with the empty proof, which the verifier refuses,
whatever the hash. -/
theorem verifyProof_refuses_empty_leaf_of_tree (keccak : List UInt8 → Hash) :
    ∃ t : ExitTree keccak, newMerkleTree keccak [[]] = .ok t ∧ t.leafIndex [] = .ok 0 ∧
      t.generateProof [] = .ok [] ∧ verifyProof keccak 0 [] [] t.rootHash = .error "empty leaf" := by
  have hr : MerkleTree.root (nodeHash keccak) ([[]].map keccak) = some (keccak []) := by simp
  refine ⟨_, newMerkleTree_of_root hr, rfl, ?_, rfl⟩
  simp [ExitTree.generateProof, ExitTree.levels, MerkleTree.levels_of_length_le_one,
    MerkleTree.proofFrom]

theorem merkle_proof_of_empty_leaf_rejected :
    ∃ t : ExitTree merkleKeccak, newMerkleTree merkleKeccak [[]] = .ok t ∧
      t.leafIndex [] = .ok 0 ∧ t.generateProof [] = .ok [] ∧
      verifyProof merkleKeccak 0 [] [] t.rootHash = .error "empty leaf" :=
  verifyProof_refuses_empty_leaf_of_tree merkleKeccak

theorem verifyProof_eq_ok {index : ℕ} {leaf : List UInt8} {proof : List Hash} {root : Hash} :
    verifyProof keccak index leaf proof root = .ok () ↔
      leaf ≠ [] ∧ index < 2 ^ proof.length ∧
        root = MerkleTree.proofHash (nodeHash keccak) (keccak leaf) index proof := by
  unfold verifyProof
  split_ifs <;> simp_all

theorem verifyProof_sound {data : List (List UInt8)} {t : ExitTree keccak}
    (ht : newMerkleTree keccak data = .ok t) (hlow : ∀ ℓ ∈ t.levels.dropLast, t.rootHash ∉ ℓ)
    {index : ℕ} (hindex : index < data.length) {leaf : List UInt8} {proof : List Hash}
    (hdepth : proof.length = Nat.clog 2 data.length)
    (hv : verifyProof keccak index leaf proof t.rootHash = .ok ()) :
    leaf = data[index] ∨ ∃ x y, x ≠ y ∧ keccak x = keccak y := by
  have hleaves := newMerkleTree_leaves ht
  subst hleaves
  obtain ⟨-, -, hroot⟩ := verifyProof_eq_ok.mp hv
  have hidx : index < (t.leaves.map keccak).length := by simpa using hindex
  have hne : t.leaves.map keccak ≠ [] := List.ne_nil_of_length_pos (by omega)
  have hhonest := MerkleTree.proofHash_proofFrom (nodeHash keccak) t.root_eq hidx
  have hhlen := MerkleTree.length_proofFrom (nodeHash keccak) t.root_eq hlow hidx
  rw [MerkleTree.length_levels _ hne, List.length_map, Nat.add_sub_cancel] at hhlen
  rcases MerkleTree.eq_or_collision_of_proofHash_eq (nodeHash keccak) (hdepth.trans hhlen.symm)
    (hroot.symm.trans hhonest.symm) with hleaf | ⟨a, b, c, d, hpair, hcoll⟩
  · rw [List.getElem_map] at hleaf
    by_cases heq : leaf = t.leaves[index]
    · exact .inl heq
    · exact .inr ⟨leaf, t.leaves[index], heq, hleaf⟩
  · exact .inr ⟨_, _, fun h => hpair (nodeHash_input_inj h), hcoll⟩

theorem merkle_proof_verifies_leaf_outside_tree (keccak : List UInt8 → Hash) :
    ∃ t : ExitTree keccak, newMerkleTree keccak [[1], [2], [3]] = .ok t ∧
      verifyProof keccak 3 [3] [keccak [3], nodeHash keccak (keccak [1]) (keccak [2])]
        t.rootHash = .ok () ∧
      verifyProof keccak 0 ((keccak [1]).bytes ++ (keccak [2]).bytes)
        [nodeHash keccak (keccak [3]) (keccak [3])] t.rootHash = .ok () ∧
      t.leaves.length = 3 ∧ t.leaves[0]? ≠ some ((keccak [1]).bytes ++ (keccak [2]).bytes) := by
  have hr : MerkleTree.root (nodeHash keccak) ([[1], [2], [3]].map keccak) =
      some (nodeHash keccak (nodeHash keccak (keccak [1]) (keccak [2]))
        (nodeHash keccak (keccak [3]) (keccak [3]))) := by
    rw [MerkleTree.root_of_one_lt_length _ (by simp),
      MerkleTree.root_of_one_lt_length _ (by simp [MerkleTree.nextLevel]),
      MerkleTree.root_of_length_le_one _ (by simp [MerkleTree.nextLevel])]
    rfl
  have hlen : ((keccak [1]).bytes ++ (keccak [2]).bytes).length = 64 := by
    rw [List.length_append, (keccak [1]).length_eq, (keccak [2]).length_eq]
  refine ⟨_, newMerkleTree_of_root hr, ?_, ?_, rfl, ?_⟩
  · simp [verifyProof, MerkleTree.proofHash]
  · have hne : (keccak [1]).bytes ≠ [] :=
      List.ne_nil_of_length_pos (by rw [(keccak [1]).length_eq]; omega)
    simp [verifyProof, MerkleTree.proofHash, nodeHash, hne]
  · intro h
    have h1 := congrArg List.length (Option.some.inj h)
    rw [hlen] at h1
    simp at h1

end PolybftCheckpointManager
