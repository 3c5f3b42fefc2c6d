import MindPos.PolybftValidator

/-! # Signer bitmaps of PolyBFT

The bitmap `fsm.Insert` and `getAggSignatureForCommitmentMessage` build of the signers: a map of
the validator set's addresses to their positions, then the bit of each signer's position. Read
back with `AccountSet.GetFilteredValidators`, it gives the signers in the set's order; and a bitmap
is refused exactly when it sets a bit past the end of the set. -/
namespace PolybftValidator

open EdgeTypes

variable {K : Type}

def addressIndexMap (as : AccountSet K) : List (Address × ℕ) :=
  as.zipIdx.foldl (fun m (v, i) => (v.address, i) :: m) []

def signersBitmap (indexMap : List (Address × ℕ)) (voters : List Address) : Bitmap :=
  voters.foldl (fun bmap addr =>
    match indexMap.lookup addr with
    | some index => bmap.set index
    | none => bmap) []

/-! ## The index map -/

theorem foldl_cons_eq_reverse {α β : Type} (g : α → β) :
    ∀ (xs : List α) (acc : List β), xs.foldl (fun m x => g x :: m) acc = (xs.map g).reverse ++ acc
  | [], acc => rfl
  | x :: xs, acc => by
    rw [List.foldl_cons, foldl_cons_eq_reverse g xs, List.map_cons, List.reverse_cons,
      List.append_assoc, List.singleton_append]

theorem lookup_eq_some_iff {β : Type} :
    ∀ {L : List (Address × β)}, (L.map Prod.fst).Nodup → ∀ {a : Address} {b : β},
      L.lookup a = some b ↔ (a, b) ∈ L
  | [], _, _, _ => by simp
  | (a', b') :: L, hL, a, b => by
    rw [List.map_cons, List.nodup_cons] at hL
    by_cases ha : a = a'
    · subst ha
      have hnot : ∀ c, (a, c) ∉ L := fun c hc => hL.1 (List.mem_map.mpr ⟨_, hc, rfl⟩)
      simp only [List.lookup_cons_self, Option.some.injEq, List.mem_cons, Prod.mk.injEq, true_and]
      constructor
      · rintro rfl
        exact Or.inl rfl
      · rintro (rfl | hc)
        · rfl
        · exact absurd hc (hnot b)
    · have hb : (a == a') = false := beq_false_of_ne ha
      rw [List.lookup_cons, hb]
      dsimp only
      rw [lookup_eq_some_iff hL.2, List.mem_cons]
      simp [ha]

theorem lookup_addressIndexMap {as : AccountSet K} (hnodup : as.getAddresses.Nodup)
    {a : Address} {i : ℕ} :
    (addressIndexMap as).lookup a = some i ↔ ∃ h : i < as.length, as[i].address = a := by
  have hkeys : ((addressIndexMap as).map Prod.fst).Nodup := by
    rw [addressIndexMap, foldl_cons_eq_reverse, List.append_nil, List.map_reverse,
      List.nodup_reverse, List.map_map]
    have hfst : (Prod.fst ∘ fun (x : ValidatorMetadata K × ℕ) => (x.1.address, x.2)) =
        (·.address) ∘ Prod.fst := rfl
    rw [hfst, ← List.map_map, List.zipIdx_map_fst]
    exact hnodup
  rw [lookup_eq_some_iff hkeys, addressIndexMap, foldl_cons_eq_reverse, List.append_nil,
    List.mem_reverse, List.mem_map]
  constructor
  · rintro ⟨⟨v, j⟩, hv, hvj⟩
    dsimp only at hvj
    obtain ⟨rfl, rfl⟩ := Prod.mk.inj hvj
    obtain ⟨h, hget⟩ := List.getElem?_eq_some_iff.mp (List.mem_zipIdx_iff_getElem?.mp hv)
    exact ⟨h, by rw [hget]⟩
  · rintro ⟨h, rfl⟩
    exact ⟨(as[i], i), List.mem_zipIdx_iff_getElem?.mpr (List.getElem?_eq_getElem h), rfl⟩

/-! ## The bitmap built -/

theorem isSet_foldl_set {α : Type} (f : α → Option ℕ) :
    ∀ (xs : List α) (b : Bitmap) (i : ℕ),
      (xs.foldl (fun bmap x => match f x with
        | some index => bmap.set index
        | none => bmap) b).isSet i = true ↔ (∃ x ∈ xs, f x = some i) ∨ b.isSet i = true
  | [], b, i => by simp
  | x :: xs, b, i => by
    rw [List.foldl_cons, isSet_foldl_set f xs]
    cases hx : f x with
    | none =>
      simp only [List.mem_cons, exists_eq_or_imp, hx, reduceCtorEq, false_or]
    | some index =>
      simp only [Bitmap.isSet_set, Bool.or_eq_true, beq_iff_eq, List.mem_cons, exists_eq_or_imp,
        hx, Option.some.injEq]
      constructor
      · rintro (h | rfl | h)
        · exact Or.inl (Or.inr h)
        · exact Or.inl (Or.inl rfl)
        · exact Or.inr h
      · rintro ((rfl | h) | h)
        · exact Or.inr (Or.inl rfl)
        · exact Or.inl h
        · exact Or.inr (Or.inr h)

theorem isSet_signersBitmap {as S : AccountSet K} (hnodup : as.getAddresses.Nodup) (hS : S ⊆ as)
    (i : ℕ) :
    (signersBitmap (addressIndexMap as) (S.map (·.address))).isSet i = true ↔
      ∃ h : i < as.length, as[i] ∈ S := by
  rw [signersBitmap, isSet_foldl_set, Bitmap.isSet_nil]
  simp only [List.mem_map, lookup_addressIndexMap hnodup, Bool.false_eq_true, or_false]
  constructor
  · rintro ⟨_, ⟨s, hs, rfl⟩, h, hi⟩
    have heq : as[i] = s :=
      List.inj_on_of_nodup_map (hnodup : (as.map (·.address)).Nodup) (List.getElem_mem h) (hS hs) hi
    exact ⟨h, heq ▸ hs⟩
  · rintro ⟨h, hmem⟩
    exact ⟨_, ⟨as[i], hmem, rfl⟩, h, rfl⟩

/-! ## Reading it back -/

theorem filterMap_zipIdx_eq_filter {α : Type} (p : ℕ → Bool) (q : α → Bool) :
    ∀ (xs : List α) (k : ℕ), (∀ (i : ℕ) (h : i < xs.length), p (i + k) = q xs[i]) →
      (xs.zipIdx k).filterMap (fun (v, i) => if p i then some v else none) = xs.filter q
  | [], _, _ => rfl
  | x :: xs, k, h => by
    have hx : p k = q x := by
      have h0 := h 0 (by simp)
      rwa [List.getElem_cons_zero, Nat.zero_add] at h0
    have hxs : ∀ (i : ℕ) (hi : i < xs.length), p (i + (k + 1)) = q xs[i] := by
      intro i hi
      have hi1 := h (i + 1) (by simpa using hi)
      rwa [List.getElem_cons_succ, show i + 1 + k = i + (k + 1) by omega] at hi1
    rw [List.zipIdx_cons, List.filterMap_cons]
    dsimp only
    rw [hx, List.filter_cons, filterMap_zipIdx_eq_filter p q xs (k + 1) hxs]
    cases q x <;> rfl

theorem getFilteredValidators_of_isSet_lt {as : AccountSet K} {bitmap : Bitmap}
    (h : ∀ i, bitmap.isSet i = true → i < as.length) :
    as.getFilteredValidators bitmap =
      .ok ((as.zipIdx).filterMap fun (v, i) => if bitmap.isSet i then some v else none) := by
  unfold AccountSet.getFilteredValidators
  by_cases hnil : as = []
  · subst hnil
    rfl
  · rw [if_neg hnil, if_neg]
    rintro ⟨-, hany⟩
    obtain ⟨i, hi, hset⟩ := List.any_eq_true.mp hany
    have := h i hset
    simp only [List.mem_range'_1] at hi
    omega

theorem getFilteredValidators_error_iff {as : AccountSet K} (hne : as ≠ []) (bitmap : Bitmap) :
    (∃ err, as.getFilteredValidators bitmap = .error err) ↔
      ∃ i, as.length ≤ i ∧ bitmap.isSet i = true := by
  unfold AccountSet.getFilteredValidators
  rw [if_neg hne]
  constructor
  · rintro ⟨err, herr⟩
    split_ifs at herr with hbad
    obtain ⟨-, hany⟩ := hbad
    obtain ⟨i, hi, hset⟩ := List.any_eq_true.mp hany
    simp only [List.mem_range'_1] at hi
    exact ⟨i, hi.1, hset⟩
  · rintro ⟨i, hi, hset⟩
    have hlt : i < bitmap.len := by
      by_contra hge
      simp [Bitmap.isSet, not_lt.mp hge] at hset
    refine ⟨_, if_pos ⟨by omega, List.any_eq_true.mpr ⟨i, ?_, hset⟩⟩⟩
    simp only [List.mem_range'_1]
    omega

section Round

variable [DecidableEq K]

theorem signer_bitmap_round_trip :
    (∀ V S : AccountSet K, V.getAddresses.Nodup → S ⊆ V →
      V.getFilteredValidators (signersBitmap (addressIndexMap V) (S.map (·.address))) =
        .ok (V.filter fun v => v ∈ S)) ∧
    ∀ (V : AccountSet K) (bitmap : Bitmap), V ≠ [] →
      ((∃ err, V.getFilteredValidators bitmap = .error err) ↔
        ∃ i, V.length ≤ i ∧ bitmap.isSet i = true) := by
  refine ⟨?_, fun V bitmap hne => getFilteredValidators_error_iff hne bitmap⟩
  intro V S hnodup hS
  have hbits := isSet_signersBitmap hnodup hS
  rw [getFilteredValidators_of_isSet_lt fun i hi => ((hbits i).mp hi).1]
  congr 1
  apply filterMap_zipIdx_eq_filter
  intro i h
  rw [Nat.add_zero, Bool.eq_iff_iff, hbits i, decide_eq_true_iff]
  exact ⟨fun ⟨_, hm⟩ => hm, fun hm => ⟨h, hm⟩⟩

def signerSampleSet : AccountSet Unit :=
  [⟨bytesToAddress [1], none, 1, true⟩, ⟨bytesToAddress [2], none, 1, true⟩,
    ⟨bytesToAddress [3], none, 1, true⟩]

def signerSample : AccountSet Unit := [⟨bytesToAddress [3], none, 1, true⟩,
  ⟨bytesToAddress [1], none, 1, true⟩]

theorem signer_bitmap_round_trip_of_sample :
    (signerSampleSet.getAddresses.Nodup ∧ signerSample ⊆ signerSampleSet ∧
      signerSampleSet.getFilteredValidators
          (signersBitmap (addressIndexMap signerSampleSet) (signerSample.map (·.address))) =
        .ok (signerSampleSet.filter fun v => v ∈ signerSample)) ∧
    (signerSampleSet ≠ [] ∧
      ((∃ err, signerSampleSet.getFilteredValidators [8] = .error err) ↔
        ∃ i, signerSampleSet.length ≤ i ∧ Bitmap.isSet [8] i = true)) := by
  have hnodup : signerSampleSet.getAddresses.Nodup := by decide +kernel
  have hsub : signerSample ⊆ signerSampleSet := by decide +kernel
  have hne : signerSampleSet ≠ [] := by decide
  exact ⟨⟨hnodup, hsub, signer_bitmap_round_trip.1 _ _ hnodup hsub⟩,
    ⟨hne, signer_bitmap_round_trip.2 _ _ hne⟩⟩

end Round

end PolybftValidator
