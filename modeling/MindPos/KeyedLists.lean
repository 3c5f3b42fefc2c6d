import Mathlib

/-! # Lists of records keyed by a field

A list whose records have distinct keys stands for a finite map. Two such lists hold the same
key–value pairs, up to order, when they have the same keys and every record of one has a
partner of the same key and value in the other. Writing a record at the position where its key
is found is replacing every record of that key. -/
namespace KeyedLists

variable {α κ β : Type*} (key : α → κ) (val : α → β)

def pairs (l : List α) : List (κ × β) := l.map fun v => (key v, val v)

/-- Every record of `l` has a record of the same key and value in `r`. -/
def Agrees (l r : List α) : Prop := ∀ v ∈ l, ∃ n ∈ r, key n = key v ∧ val n = val v

def replaceKey [DecidableEq κ] (l : List α) (u : α) : List α :=
  l.map fun v => if key v = key u then u else v

def replaceAll [DecidableEq κ] (l us : List α) : List α := us.foldl (replaceKey key) l

variable {key val}

theorem nodup_pairs {l : List α} (hl : (l.map key).Nodup) : (pairs key val l).Nodup := by
  apply List.Nodup.of_map Prod.fst
  rw [pairs, List.map_map]
  exact hl

@[simp] theorem map_fst_pairs (l : List α) : (pairs key val l).map Prod.fst = l.map key := by
  simp [pairs]

theorem mem_pairs {l : List α} {k : κ} {b : β} :
    (k, b) ∈ pairs key val l ↔ ∃ v ∈ l, key v = k ∧ val v = b := by
  simp [pairs]

theorem pairs_perm_of_agrees {l r : List α} (hl : (l.map key).Nodup) (hr : (r.map key).Nodup)
    (hk : ∀ k, k ∈ l.map key ↔ k ∈ r.map key) (ha : Agrees key val l r) :
    (pairs key val l).Perm (pairs key val r) := by
  rw [List.perm_ext_iff_of_nodup (nodup_pairs hl) (nodup_pairs hr)]
  rintro ⟨k, b⟩
  rw [mem_pairs, mem_pairs]
  constructor
  · rintro ⟨v, hv, rfl, rfl⟩
    exact ha v hv
  · rintro ⟨n, hn, rfl, rfl⟩
    obtain ⟨v, hv, hvk⟩ := List.mem_map.mp ((hk (key n)).mpr (List.mem_map_of_mem hn))
    obtain ⟨n', hn', hkey, hval⟩ := ha v hv
    have hnn : n' = n := List.inj_on_of_nodup_map hr hn' hn (hkey.trans hvk)
    exact ⟨v, hv, hvk, hnn ▸ hval.symm⟩

section Replace

variable [DecidableEq κ]

@[simp] theorem map_key_replaceKey (l : List α) (u : α) :
    (replaceKey key l u).map key = l.map key := by
  simp only [replaceKey, List.map_map]
  apply List.map_congr_left
  intro v _
  by_cases h : key v = key u <;> simp [h]

theorem mem_replaceKey {l : List α} {u v : α} (hv : v ∈ replaceKey key l u) :
    v = u ∨ (v ∈ l ∧ key v ≠ key u) := by
  obtain ⟨w, hw, rfl⟩ := List.mem_map.mp hv
  by_cases h : key w = key u
  · exact .inl (if_pos h)
  · rw [if_neg h]
    exact .inr ⟨hw, h⟩

theorem set_eq_replaceKey {l : List α} (hl : (l.map key).Nodup) {u : α} {i : ℕ}
    (hi : l.findIdx? (fun v => key v = key u) = some i) : l.set i u = replaceKey key l u := by
  obtain ⟨hlt, hkey, -⟩ := List.findIdx?_eq_some_iff_getElem.mp hi
  apply List.ext_getElem (by simp [replaceKey])
  intro j hj₁ hj₂
  rw [List.getElem_set]
  simp only [replaceKey, List.getElem_map]
  have hlj : j < l.length := by simpa using hj₁
  have hiff : key l[j] = key u ↔ i = j := by
    rw [← of_decide_eq_true hkey]
    constructor
    · intro h
      have hi' : i < (l.map key).length := by simpa using hlt
      have hj' : j < (l.map key).length := by simpa using hlj
      have hmap : (l.map key)[i] = (l.map key)[j] := by
        rw [List.getElem_map, List.getElem_map]
        exact h.symm
      exact (List.Nodup.getElem_inj_iff hl).mp hmap
    · rintro rfl
      rfl
  by_cases hij : i = j
  · simp [hij, hiff.mpr hij]
  · simp [hij, mt hiff.mp hij]

@[simp] theorem replaceAll_nil (l : List α) : replaceAll key l [] = l := rfl

@[simp] theorem replaceAll_cons (l : List α) (u : α) (us : List α) :
    replaceAll key l (u :: us) = replaceAll key (replaceKey key l u) us := rfl

@[simp] theorem map_key_replaceAll (l us : List α) :
    (replaceAll key l us).map key = l.map key := by
  induction us generalizing l with
  | nil => rfl
  | cons u us ih => rw [replaceAll_cons, ih, map_key_replaceKey]

theorem mem_replaceAll {l us : List α} {v : α} (hv : v ∈ replaceAll key l us) :
    v ∈ us ∨ (v ∈ l ∧ key v ∉ us.map key) := by
  induction us generalizing l with
  | nil => exact .inr ⟨hv, List.not_mem_nil⟩
  | cons u us ih =>
    rcases ih hv with hu | ⟨hl, hk⟩
    · exact .inl (List.mem_cons_of_mem u hu)
    · rcases mem_replaceKey hl with rfl | ⟨hl', hne⟩
      · exact .inl List.mem_cons_self
      · refine .inr ⟨hl', ?_⟩
        rw [List.map_cons, List.mem_cons, not_or]
        exact ⟨hne, hk⟩

end Replace

end KeyedLists
