import Mathlib

/-! # Binary Merkle trees that pair an odd last node with itself

A level is paired left to right into the level above, an odd last node with itself, until one
node is left. The proof of the node at position `p` lists the sibling met on each level; the
verifier combines them in the order the bits of `p` give. Proof generation walks up until it
meets a node equal to the root, as a walk that compares hashes does. Nothing here assumes the
node function is collision resistant. -/
namespace MerkleTree

variable {β : Type*} (node : β → β → β)

def nextLevel : List β → List β
  | a :: b :: rest => node a b :: nextLevel rest
  | [a] => [node a a]
  | [] => []

theorem length_nextLevel : ∀ l : List β, (nextLevel node l).length = (l.length + 1) / 2
  | a :: b :: rest => by
    simp only [nextLevel, List.length_cons, length_nextLevel rest]
    omega
  | [a] => by simp [nextLevel]
  | [] => by simp [nextLevel]

theorem getElem?_nextLevel : ∀ (l : List β) (i : ℕ),
    (nextLevel node l)[i]? = l[2 * i]?.map fun a => node a (l[2 * i + 1]?.getD a)
  | a :: b :: rest, 0 => rfl
  | a :: b :: rest, i + 1 => by
    rw [nextLevel, List.getElem?_cons_succ, getElem?_nextLevel rest i,
      show 2 * (i + 1) = 2 * i + 2 by omega, show 2 * i + 2 + 1 = 2 * i + 1 + 2 by omega]
    rfl
  | [a], 0 => rfl
  | [a], i + 1 => by simp [nextLevel]
  | [], i => by simp [nextLevel]

def levels (l : List β) : List (List β) :=
  if l.length ≤ 1 then [l] else l :: levels (nextLevel node l)
termination_by l.length
decreasing_by rw [length_nextLevel]; omega

def root (l : List β) : Option β :=
  if l.length ≤ 1 then l.head? else root (nextLevel node l)
termination_by l.length
decreasing_by rw [length_nextLevel]; omega

theorem levels_of_length_le_one {l : List β} (h : l.length ≤ 1) : levels node l = [l] := by
  rw [levels, if_pos h]

theorem levels_of_one_lt_length {l : List β} (h : 1 < l.length) :
    levels node l = l :: levels node (nextLevel node l) := by
  rw [levels, if_neg (by omega)]

theorem root_of_length_le_one {l : List β} (h : l.length ≤ 1) : root node l = l.head? := by
  rw [root, if_pos h]

theorem root_of_one_lt_length {l : List β} (h : 1 < l.length) :
    root node l = root node (nextLevel node l) := by
  rw [root, if_neg (by omega)]

theorem levels_ne_nil (l : List β) : levels node l ≠ [] := by
  rw [levels]
  split_ifs <;> simp

@[simp] theorem root_singleton (a : β) : root node [a] = some a :=
  root_of_length_le_one node (by simp)

theorem root_isSome {l : List β} (hl : l ≠ []) : (root node l).isSome := by
  induction l using root.induct node with
  | case1 l h1 =>
    rw [root_of_length_le_one node h1]
    cases l with
    | nil => exact absurd rfl hl
    | cons a l => rfl
  | case2 l h1 ih =>
    have hnext : nextLevel node l ≠ [] := by
      rw [← List.length_pos_iff, length_nextLevel]
      omega
    rw [root_of_one_lt_length node (by omega)]
    exact ih hnext

/-! ## The nodes of the levels -/

def pairs : List β → List (β × β)
  | a :: b :: rest => (a, b) :: pairs rest
  | [a] => [(a, a)]
  | [] => []

theorem nextLevel_eq_map_pairs : ∀ l : List β, nextLevel node l = (pairs l).map fun p => node p.1 p.2
  | a :: b :: rest => by rw [nextLevel, pairs, List.map_cons, nextLevel_eq_map_pairs rest]
  | [a] => rfl
  | [] => rfl

theorem fst_mem_of_mem_pairs : ∀ {l : List β} {p : β × β}, p ∈ pairs l → p.1 ∈ l
  | a :: b :: rest, p, hp => by
    rcases List.mem_cons.mp hp with rfl | hp
    · exact List.mem_cons_self
    · exact List.mem_cons_of_mem _ (List.mem_cons_of_mem _ (fst_mem_of_mem_pairs hp))
  | [a], p, hp => by
    rw [pairs, List.mem_singleton] at hp
    subst hp
    exact List.mem_singleton_self _
  | [], p, hp => by simp [pairs] at hp

theorem dropLast_levels_of_one_lt_length {l : List β} (h : 1 < l.length) :
    (levels node l).dropLast = l :: (levels node (nextLevel node l)).dropLast := by
  rw [levels_of_one_lt_length node h, List.dropLast_cons_of_ne_nil (levels_ne_nil node _)]

theorem mem_levels_nextLevel {l : List β} (h : 1 < l.length) {ℓ : List β} {x : β}
    (hℓ : ℓ ∈ levels node (nextLevel node l)) (hx : x ∈ ℓ) :
    ∃ ℓ₀ ∈ (levels node l).dropLast, ∃ p ∈ pairs ℓ₀, x = node p.1 p.2 := by
  induction l using root.induct node generalizing ℓ with
  | case1 l h1 => omega
  | case2 l _ ih =>
    rw [dropLast_levels_of_one_lt_length node h]
    by_cases hnext : nextLevel node l = ℓ
    · subst hnext
      rw [nextLevel_eq_map_pairs] at hx
      obtain ⟨p, hp, rfl⟩ := List.mem_map.mp hx
      exact ⟨l, List.mem_cons_self, p, hp, rfl⟩
    · have h' : 1 < (nextLevel node l).length := by
        by_contra hle
        rw [levels_of_length_le_one node (not_lt.mp hle), List.mem_singleton] at hℓ
        exact hnext hℓ.symm
      rw [levels_of_one_lt_length node h', List.mem_cons] at hℓ
      obtain ⟨ℓ₀, hℓ₀, hp⟩ := ih h' (hℓ.resolve_left (Ne.symm hnext)) hx
      exact ⟨ℓ₀, List.mem_cons_of_mem _ hℓ₀, hp⟩

theorem root_mem_levels {l : List β} {r : β} (hr : root node l = some r) :
    ∃ ℓ ∈ levels node l, r ∈ ℓ := by
  induction l using root.induct node with
  | case1 l h1 =>
    rw [root_of_length_le_one node h1] at hr
    exact ⟨l, by rw [levels_of_length_le_one node h1]; exact List.mem_singleton_self _,
      List.mem_of_mem_head? hr⟩
  | case2 l h1 ih =>
    rw [root_of_one_lt_length node (by omega)] at hr
    obtain ⟨ℓ, hℓ, hrℓ⟩ := ih hr
    exact ⟨ℓ, by rw [levels_of_one_lt_length node (by omega)]; exact List.mem_cons_of_mem _ hℓ, hrℓ⟩

section Lower

variable {l : List β}
  (hinj : ∀ ℓ ∈ (levels node l).dropLast, ∀ ℓ' ∈ (levels node l).dropLast, ∀ p ∈ pairs ℓ,
    ∀ q ∈ pairs ℓ', node p.1 p.2 = node q.1 q.2 → p = q)
  (hleaf : ∀ x ∈ l, ∀ ℓ ∈ (levels node l).dropLast, ∀ p ∈ pairs ℓ, x ≠ node p.1 p.2)

include hleaf in
theorem not_mem_levels_nextLevel (h : 1 < l.length) {x : β} (hx : x ∈ l) {ℓ : List β}
    (hℓ : ℓ ∈ levels node (nextLevel node l)) : x ∉ ℓ := by
  intro hxℓ
  obtain ⟨ℓ₀, hℓ₀, p, hp, rfl⟩ := mem_levels_nextLevel node h hℓ hxℓ
  exact hleaf _ hx ℓ₀ hℓ₀ p hp rfl

include hinj hleaf in
theorem root_not_mem_lower {r : β} (hr : root node l = some r) :
    ∀ ℓ ∈ (levels node l).dropLast, r ∉ ℓ := by
  induction l using root.induct node with
  | case1 l h1 => simp [levels_of_length_le_one node h1]
  | case2 l h1 ih =>
    have h : 1 < l.length := by omega
    rw [root_of_one_lt_length node h] at hr
    have hsub : (levels node (nextLevel node l)).dropLast ⊆ (levels node l).dropLast := by
      rw [dropLast_levels_of_one_lt_length node h]
      exact List.subset_cons_self _ _
    have hupper : ∀ ℓ ∈ (levels node (nextLevel node l)).dropLast, ℓ ∈ levels node (nextLevel node l) :=
      fun ℓ hℓ => List.dropLast_subset _ hℓ
    have hleaf' : ∀ x ∈ nextLevel node l, ∀ ℓ ∈ (levels node (nextLevel node l)).dropLast,
        ∀ p ∈ pairs ℓ, x ≠ node p.1 p.2 := by
      intro x hx ℓ hℓ p hp hxp
      rw [nextLevel_eq_map_pairs] at hx
      obtain ⟨q, hq, rfl⟩ := List.mem_map.mp hx
      have hl : l ∈ (levels node l).dropLast := by
        rw [dropLast_levels_of_one_lt_length node h]
        exact List.mem_cons_self
      obtain rfl := hinj l hl ℓ (hsub hℓ) q hq p hp hxp
      exact not_mem_levels_nextLevel node hleaf h (fst_mem_of_mem_pairs hq) (hupper ℓ hℓ)
        (fst_mem_of_mem_pairs hp)
    rw [dropLast_levels_of_one_lt_length node h]
    intro ℓ hℓ
    rcases List.mem_cons.mp hℓ with rfl | hℓ
    · obtain ⟨ℓ', hℓ', hrℓ'⟩ := root_mem_levels node hr
      exact fun hr' => not_mem_levels_nextLevel node hleaf h hr' hℓ' hrℓ'
    · exact ih (fun ℓ hℓ ℓ' hℓ' => hinj ℓ (hsub hℓ) ℓ' (hsub hℓ')) hleaf' hr ℓ hℓ

end Lower

/-! ## Proofs -/

def sibling [DecidableEq β] (ℓ : List β) (p : ℕ) (n : β) : β :=
  let left := ℓ.getD (2 * (p / 2)) n
  let right := ℓ.getD (2 * (p / 2) + 1) left
  if left = n then right else left

/-- `GenerateProof` from position `p` of the first of `ls`: the siblings on the way up, until a
node equal to the root `r` is met. -/
def proofFrom [DecidableEq β] (r : β) : List (List β) → ℕ → List β
  | [], _ => []
  | ℓ :: ls, p =>
    match ℓ[p]? with
    | none => []
    | some n => if n = r then [] else sibling ℓ p n :: proofFrom r ls (p / 2)

/-- `getProofHash`: the hash `h` combined with the proof, on the side the bits of `index`
give. -/
def proofHash : β → ℕ → List β → β
  | h, _, [] => h
  | h, index, s :: proof =>
    proofHash (if index % 2 = 0 then node h s else node s h) (index / 2) proof

theorem combine_sibling [DecidableEq β] {ℓ : List β} {p : ℕ} (hp : p < ℓ.length) :
    (nextLevel node ℓ)[p / 2]? =
      some (if p % 2 = 0 then node ℓ[p] (sibling ℓ p ℓ[p]) else node (sibling ℓ p ℓ[p]) ℓ[p]) := by
  rw [getElem?_nextLevel]
  rcases Nat.mod_two_eq_zero_or_one p with heven | hodd
  · have h2 : 2 * (p / 2) = p := by omega
    simp only [sibling, h2, List.getD_eq_getElem?_getD, List.getElem?_eq_getElem hp,
      Option.getD_some, if_true, heven, Option.map_some]
  · have h2 : 2 * (p / 2) + 1 = p := by omega
    have hl : 2 * (p / 2) < ℓ.length := by omega
    simp only [sibling, h2, List.getD_eq_getElem?_getD, List.getElem?_eq_getElem hp,
      List.getElem?_eq_getElem hl, Option.getD_some, Option.map_some, hodd]
    by_cases he : ℓ[2 * (p / 2)] = ℓ[p]
    · simp [he]
    · simp [he]

theorem proofHash_proofFrom [DecidableEq β] {l : List β} {r : β} (hr : root node l = some r)
    {p : ℕ} (hp : p < l.length) :
    proofHash node l[p] p (proofFrom r (levels node l) p) = r := by
  induction l using root.induct node generalizing p with
  | case1 l h1 =>
    rw [levels_of_length_le_one node h1]
    rw [root_of_length_le_one node h1] at hr
    have hp0 : p = 0 := by omega
    subst hp0
    cases l with
    | nil => simp at hp
    | cons a l =>
      cases hr
      simp [proofFrom, proofHash]
  | case2 l h1 ih =>
    rw [levels_of_one_lt_length node (by omega)]
    rw [root_of_one_lt_length node (by omega)] at hr
    simp only [proofFrom, List.getElem?_eq_getElem hp]
    split_ifs with hn
    · exact hn
    · have hq : p / 2 < (nextLevel node l).length := by rw [length_nextLevel]; omega
      have hparent := combine_sibling node hp
      rw [List.getElem?_eq_getElem hq, Option.some.injEq] at hparent
      rw [proofHash, ← hparent]
      exact ih hr hq

theorem length_levels {l : List β} (hl : l ≠ []) :
    (levels node l).length = Nat.clog 2 l.length + 1 := by
  induction l using root.induct node with
  | case1 l h1 => rw [levels_of_length_le_one node h1, Nat.clog_of_right_le_one h1]; rfl
  | case2 l h1 ih =>
    have hnext : nextLevel node l ≠ [] := by
      rw [← List.length_pos_iff, length_nextLevel]
      omega
    have hclog : Nat.clog 2 l.length = Nat.clog 2 ((l.length + 1) / 2) + 1 :=
      Nat.clog_of_two_le (by decide) (by omega)
    rw [levels_of_one_lt_length node (by omega), List.length_cons, ih hnext, length_nextLevel,
      hclog]

theorem length_proofFrom [DecidableEq β] {l : List β} {r : β} (hr : root node l = some r)
    (hlow : ∀ ℓ ∈ (levels node l).dropLast, r ∉ ℓ) {p : ℕ} (hp : p < l.length) :
    (proofFrom r (levels node l) p).length = (levels node l).length - 1 := by
  induction l using root.induct node generalizing p with
  | case1 l h1 =>
    rw [levels_of_length_le_one node h1]
    rw [root_of_length_le_one node h1] at hr
    have hp0 : p = 0 := by omega
    subst hp0
    cases l with
    | nil => simp at hp
    | cons a l =>
      cases hr
      simp [proofFrom]
  | case2 l h1 ih =>
    rw [levels_of_one_lt_length node (by omega)] at hlow ⊢
    rw [root_of_one_lt_length node (by omega)] at hr
    rw [List.dropLast_cons_of_ne_nil (levels_ne_nil node _)] at hlow
    have hn : l[p] ≠ r := fun he => hlow l List.mem_cons_self (he ▸ List.getElem_mem hp)
    have hq : p / 2 < (nextLevel node l).length := by rw [length_nextLevel]; omega
    have ih' := ih hr (fun ℓ hℓ => hlow ℓ (List.mem_cons_of_mem l hℓ)) hq
    have hpos := List.length_pos_iff.mpr (levels_ne_nil node (nextLevel node l))
    simp only [proofFrom, List.getElem?_eq_getElem hp, if_neg hn, List.length_cons, ih']
    omega

theorem lt_two_pow_length_proofFrom [DecidableEq β] {l : List β} {r : β}
    (hr : root node l = some r) (hlow : ∀ ℓ ∈ (levels node l).dropLast, r ∉ ℓ) {p : ℕ}
    (hp : p < l.length) : p < 2 ^ (proofFrom r (levels node l) p).length := by
  rw [length_proofFrom node hr hlow hp, length_levels node (List.ne_nil_of_length_pos (by omega)),
    Nat.add_sub_cancel]
  exact Nat.lt_of_lt_of_le hp (Nat.le_pow_clog (by decide) _)

theorem eq_or_collision_of_proofHash_eq :
    ∀ {proof proof' : List β} {h h' : β} {index : ℕ}, proof.length = proof'.length →
      proofHash node h index proof = proofHash node h' index proof' →
      h = h' ∨ ∃ a b c d, (a, b) ≠ (c, d) ∧ node a b = node c d
  | [], [], _, _, _, _, heq => .inl heq
  | s :: proof, s' :: proof', h, h', index, hlen, heq => by
    rw [proofHash, proofHash] at heq
    rcases eq_or_collision_of_proofHash_eq (by simpa using hlen) heq with hnode | hcoll
    · split_ifs at hnode
      · by_cases hpair : (h, s) = (h', s')
        · exact .inl (Prod.mk.inj hpair).1
        · exact .inr ⟨h, s, h', s', hpair, hnode⟩
      · by_cases hpair : (s, h) = (s', h')
        · exact .inl (Prod.mk.inj hpair).2
        · exact .inr ⟨s, h, s', h', hpair, hnode⟩
    · exact .inr hcoll

end MerkleTree
