import Mathlib
import MindPos.IbftSealing

/-! # Committed seals of IBFT and the quorum they prove

`VerifyCommittedSeals` of the ECDSA and BLS key managers and of the signer
(`consensus/ibft/signer`), and `calculateProposalHash` of `consensus/ibft/verifier.go`. ECDSA seals
are counted one per seal, each recovered to a validator's address that no earlier seal recovered
to. A BLS seal is one multi-signature and a bitmap of positions in the validator set: bits past the
end of the set are not read, and the count is the number of keys aggregated, one per position. The
cryptography is a parameter, with the two assumptions the seals rest on: ECDSA recovery inverts
signing, and a multi-signature verifies exactly when it aggregates a signature of every aggregated
key (`BLSVerifier.Faithful`). -/
namespace IbftSigner

open RlpEncoding EdgeTypes Keccak IbftSnapshot

/-! ## Lists -/

section Lists

variable {ε α β γ : Type}

theorem foldlM_append_filter (p : α → Bool) (g : α → Except ε β) :
    ∀ (xs : List α) (acc : List β),
      xs.foldlM (fun acc x => if p x then do let y ← g x; pure (acc ++ [y]) else pure acc) acc =
        (acc ++ ·) <$> (xs.filter p).mapM g
  | [], acc => by simp
  | x :: xs, acc => by
    rw [List.foldlM_cons, List.filter_cons]
    by_cases hx : p x
    · rw [if_pos hx, if_pos hx, List.mapM_cons]
      cases hg : g x with
      | error e => simp
      | ok y =>
        simp only [Except.ok_bind_eq, pure_bind]
        rw [foldlM_append_filter p g xs (acc ++ [y])]
        cases (xs.filter p).mapM g <;> simp
    · rw [if_neg hx, if_neg hx]
      exact foldlM_append_filter p g xs acc

theorem mapM_bind_eq_ok {f : α → Except ε β} {g : β → Except ε γ} :
    ∀ {xs : List α} {zs : List γ},
      xs.mapM (fun x => f x >>= g) = .ok zs ↔ ∃ ys, xs.mapM f = .ok ys ∧ ys.mapM g = .ok zs
  | [], zs => by simp [eq_comm]
  | x :: xs, zs => by
    rw [List.mapM_cons]
    constructor
    · intro h
      obtain ⟨z, hz, h⟩ := Except.bind_eq_ok_iff.mp h
      obtain ⟨zs', hzs', h⟩ := Except.bind_eq_ok_iff.mp h
      rw [Except.pure_eq_ok, Except.ok.injEq] at h
      subst h
      obtain ⟨y, hy, hyz⟩ := Except.bind_eq_ok_iff.mp hz
      obtain ⟨ys, hys, hys'⟩ := mapM_bind_eq_ok.mp hzs'
      refine ⟨y :: ys, ?_, ?_⟩
      · rw [List.mapM_cons, hy, Except.ok_bind_eq, hys, Except.ok_bind_eq]
        rfl
      · rw [List.mapM_cons, hyz, Except.ok_bind_eq, hys', Except.ok_bind_eq]
        rfl
    · rintro ⟨ys, hys, hzs⟩
      rw [List.mapM_cons] at hys
      obtain ⟨y, hy, hys⟩ := Except.bind_eq_ok_iff.mp hys
      obtain ⟨ys', hys', hys⟩ := Except.bind_eq_ok_iff.mp hys
      rw [Except.pure_eq_ok, Except.ok.injEq] at hys
      subst hys
      rw [List.mapM_cons] at hzs
      obtain ⟨z, hz, hzs⟩ := Except.bind_eq_ok_iff.mp hzs
      obtain ⟨zs', hzs', hzs⟩ := Except.bind_eq_ok_iff.mp hzs
      rw [Except.pure_eq_ok, Except.ok.injEq] at hzs
      subst hzs
      rw [hy, Except.ok_bind_eq, hz, Except.ok_bind_eq, mapM_bind_eq_ok.mpr ⟨ys', hys', hzs'⟩,
        Except.ok_bind_eq]
      rfl

theorem exists_nodup_of_positions {l : List α} (hl : l.Nodup) {P : List ℕ} (hP : P.Nodup)
    {R : α → Prop} (h : ∀ i ∈ P, ∃ hi : i < l.length, R l[i]) :
    ∃ vs : List α, vs.Nodup ∧ vs.length = P.length ∧ ∀ v ∈ vs, v ∈ l ∧ R v := by
  refine ⟨P.pmap (fun i hi => l[i]) fun i hi => (h i hi).1, ?_, List.length_pmap, ?_⟩
  · exact List.Nodup.pmap (fun i _ j _ hij => (List.Nodup.getElem_inj_iff hl).mp hij) hP
  · intro v hv
    obtain ⟨i, hi, rfl⟩ := List.mem_pmap.mp hv
    exact ⟨List.getElem_mem _, (h i hi).2⟩

theorem mapM_ok_mem_left {f : α → Except ε β} {xs : List α} {ys : List β}
    (h : xs.mapM f = .ok ys) {x : α} (hx : x ∈ xs) : ∃ y ∈ ys, f x = .ok y := by
  have hxy := mapM_ok_forall₂ h
  clear h
  induction hxy with
  | nil => cases hx
  | @cons a b as bs hab _ ih =>
    rcases List.mem_cons.mp hx with rfl | hx
    · exact ⟨b, List.mem_cons_self, hab⟩
    · obtain ⟨y, hy, hxy⟩ := ih hx
      exact ⟨y, List.mem_cons_of_mem _ hy, hxy⟩

theorem mapM_ok_mem_right {f : α → Except ε β} {xs : List α} {ys : List β}
    (h : xs.mapM f = .ok ys) {y : β} (hy : y ∈ ys) : ∃ x ∈ xs, f x = .ok y := by
  have hxy := mapM_ok_forall₂ h
  clear h
  induction hxy with
  | nil => cases hy
  | @cons a b as bs hab _ ih =>
    rcases List.mem_cons.mp hy with rfl | hy
    · exact ⟨a, List.mem_cons_self, hab⟩
    · obtain ⟨x, hx, hxy⟩ := ih hy
      exact ⟨x, List.mem_cons_of_mem _ hx, hxy⟩

theorem exists_nodup_of_keys {l : List α} {key : α → β} :
    ∀ {ks : List β}, ks.Nodup → (∀ k ∈ ks, ∃ x ∈ l, key x = k) →
      ∃ xs : List α, xs.Nodup ∧ xs.length = ks.length ∧ ∀ x ∈ xs, x ∈ l ∧ key x ∈ ks
  | [], _, _ => ⟨[], List.nodup_nil, rfl, fun _ hx => nomatch hx⟩
  | k :: ks, hks, h => by
    obtain ⟨hk, hnodup⟩ := List.nodup_cons.mp hks
    obtain ⟨x, hx, rfl⟩ := h k List.mem_cons_self
    obtain ⟨xs, hxs, hlen, hmem⟩ :=
      exists_nodup_of_keys hnodup fun k' hk' => h k' (List.mem_cons_of_mem _ hk')
    refine ⟨x :: xs, List.nodup_cons.mpr ⟨fun hx' => hk (hmem x hx').2, hxs⟩, by simp [hlen], ?_⟩
    intro y hy
    rcases List.mem_cons.mp hy with rfl | hy
    · exact ⟨hx, List.mem_cons_self⟩
    · exact ⟨(hmem y hy).1, List.mem_cons_of_mem _ (hmem y hy).2⟩

end Lists

/-! ## The model -/

def errInvalidCommittedSealType : String := "invalid committed seal type"

def errRepeatedCommittedSeal : String := "repeated seal in committed seals"

def errValidatorNotFound : String := "validator not found in validator set"

def errInvalidValidator : String := "invalid validator type"

def errInvalidSignature : String := "invalid signature"

def visitSeal (km : KeyManager) (msg : List UInt8) (validators : Validators)
    (visited : List Address) (sealBytes : List UInt8) : Except String (List Address) := do
  let addr ← km.ecrecover sealBytes msg
  if addr ∈ visited then throw errRepeatedCommittedSeal
  if !validators.includes addr then throw errNonValidatorCommittedSeal
  pure (addr :: visited)

/-- `ECDSAKeyManager.verifyCommittedSealsImpl`. -/
def KeyManager.verifyCommittedSealsImpl (km : KeyManager) (committedSeal : List (List UInt8))
    (msg : List UInt8) (validators : Validators) : Except String ℕ := do
  let numSeals := committedSeal.length
  if numSeals = 0 then throw errEmptyCommittedSeals
  let _ ← committedSeal.foldlM (visitSeal km msg validators) []
  pure numSeals

/-- `ECDSAKeyManager.VerifyCommittedSeals`. -/
def KeyManager.verifyECDSACommittedSeals (km : KeyManager) (rawCommittedSeal : Seals)
    (digest : List UInt8) (vals : Validators) : Except String ℕ :=
  match rawCommittedSeal with
  | .serialized committedSeal =>
    if vals.validatorType ≠ .ecdsa then throw errInvalidValidators
    else km.verifyCommittedSealsImpl committedSeal digest vals
  | .aggregated _ _ => throw errInvalidCommittedSealType

/-- The BLS operations `verifyBLSCommittedSealsImpl` calls. -/
structure BLSVerifier (PublicKey MultiPublicKey MultiSignature : Type) where
  /-- `crypto.UnmarshalBLSPublicKey`. -/
  unmarshalBLSPublicKey : List UInt8 → Except String PublicKey
  /-- `AggregatePublicKeys`. -/
  aggregatePublicKeys : List PublicKey → Except String MultiPublicKey
  /-- `MultiSignature.UnmarshalBinary`. -/
  unmarshalMultiSignature : List UInt8 → Except String MultiSignature
  /-- `VerifyMultiSignature`. -/
  verifyMultiSignature : MultiPublicKey → List UInt8 → MultiSignature → Except String Bool

variable {PublicKey MultiPublicKey MultiSignature : Type}

def blsPublicKeyAt (vals : Validators) (idx : ℕ) : Except String (List UInt8) :=
  match vals.validators[idx]? with
  | none => throw errValidatorNotFound
  | some (.ecdsa _) => throw errInvalidValidator
  | some (.bls _ blsPublicKey) => pure blsPublicKey

def createAggregatedBLSPubKeys (bls : BLSVerifier PublicKey MultiPublicKey MultiSignature)
    (vals : Validators) (bitMap : ℕ) : Except String (MultiPublicKey × ℕ) := do
  let pubkeys ← (List.range vals.len).foldlM (fun pubkeys idx =>
    if bitMap.testBit idx then do
      let pubKey ← blsPublicKeyAt vals idx >>= bls.unmarshalBLSPublicKey
      pure (pubkeys ++ [pubKey])
    else pure pubkeys) []
  let key ← bls.aggregatePublicKeys pubkeys
  pure (key, pubkeys.length)

/-- `verifyBLSCommittedSealsImpl`; a nil bitmap is checked before its length is read. -/
def verifyBLSCommittedSealsImpl (bls : BLSVerifier PublicKey MultiPublicKey MultiSignature)
    (bitmap : Option ℕ) (signature msg : List UInt8) (vals : Validators) : Except String ℕ :=
  match bitmap with
  | none => throw errEmptyCommittedSeals
  | some bitmap =>
    if signature = [] ∨ bitmap.size = 0 then throw errEmptyCommittedSeals
    else do
      let (aggregatedPubKey, numKeys) ← (createAggregatedBLSPubKeys bls vals bitmap).mapError
        ("failed to aggregate BLS Public Keys: " ++ ·)
      let signature ← bls.unmarshalMultiSignature signature
      let ok ← bls.verifyMultiSignature aggregatedPubKey msg signature
      if !ok then throw errInvalidSignature
      pure numKeys

/-- `BLSKeyManager.VerifyCommittedSeals`. -/
def verifyBLSCommittedSeals (bls : BLSVerifier PublicKey MultiPublicKey MultiSignature)
    (rawCommittedSeal : Seals) (message : List UInt8) (vals : Validators) : Except String ℕ :=
  match rawCommittedSeal with
  | .aggregated bitmap signature =>
    if vals.validatorType ≠ .bls then throw errInvalidValidators
    else verifyBLSCommittedSealsImpl bls bitmap signature message vals
  | .serialized _ => throw errInvalidCommittedSealType

/-- `VerifyCommittedSeals` of the key manager of `km`'s type, with `km`'s recovery. -/
def verifyCommittedSealsOf (km : KeyManager)
    (bls : BLSVerifier PublicKey MultiPublicKey MultiSignature) :
    Seals → List UInt8 → Validators → Except String ℕ :=
  match km.type with
  | .ecdsa => km.verifyECDSACommittedSeals
  | .bls => verifyBLSCommittedSeals bls

/-- `SignerImpl.VerifyCommittedSeals`. -/
def Signer.verifyCommittedSeals (s : Signer) (hash : Hash) (committedSeals : Seals)
    (validators : Validators) (quorumSize : ℤ) : Except String Unit := do
  let rawMsg := keccak256 (wrapCommitHash hash.bytes)
  let numSeals ← s.keyManager.verifyCommittedSeals committedSeals rawMsg validators
  if (numSeals : ℤ) < quorumSize then throw errNotEnoughCommittedSeals

/-- `calculateProposalHash` of `verifier.go`: the header's hash, or with a round, keccak of the
hash and the round's eight bytes. -/
def calculateProposalHash (header : Header) (round : Option UInt64) : Hash :=
  match round with
  | none => header.hash
  | some round => bytesToHash (keccak256 (header.hash.bytes ++ putUint64 round))

/-! ## Writing the seals into any extra -/

theorem IstanbulExtra.unmarshalRLPFrom_packed {i extra : IstanbulExtra} {a b c : Value}
    {rest : List Value}
    (hempty : ∀ p, i.parentCommittedSeals = some p → p.unmarshalRLPFrom newNullArray = .ok p)
    (h : i.unmarshalRLPFrom (.array (a :: b :: c :: rest)) = pure extra) {committedSeal : Seals}
    (hc : i.committedSeals.unmarshalRLPFrom committedSeal.marshalRLPWith = .ok committedSeal.decoded)
    (roundNumber : UInt64) :
    i.unmarshalRLPFrom (.array [a, b, committedSeal.marshalRLPWith,
        (a :: b :: c :: rest).getD 3 newNullArray, newBytes (toRoundBytes roundNumber)]) =
      pure { extra with committedSeals := committedSeal.decoded, roundNumber := some roundNumber } := by
  unfold IstanbulExtra.unmarshalRLPFrom at h ⊢
  simp only [getElems_array, lift_ok_bind] at h ⊢
  obtain ⟨validators, hv, -⟩ := lift_bind_eq_pure_iff.mp h
  rw [hv, lift_ok_bind] at h
  obtain ⟨proposerSeal, hp, -⟩ := lift_bind_eq_pure_iff.mp h
  rw [hp, lift_ok_bind] at h
  obtain ⟨committedSeals, hcs, -⟩ := lift_bind_eq_pure_iff.mp h
  rw [hcs, lift_ok_bind] at h
  rw [hv, lift_ok_bind, hp, lift_ok_bind, hc, lift_ok_bind]
  have hround := parseRound_toRoundBytes roundNumber
  rcases rest with _ | ⟨parentV, _ | ⟨roundV, rest⟩⟩ <;> cases hpar : i.parentCommittedSeals <;>
    simp only [hpar, List.getD_cons_succ, List.getD_cons_zero, List.getD_nil] at h ⊢
  · simp only [pure_bind, hround] at h ⊢
    obtain rfl := decode_pure_inj h
    rfl
  · simp [hround, hempty _ hpar] at h ⊢
    obtain rfl := decode_pure_inj h
    rfl
  · simp only [pure_bind, hround] at h ⊢
    obtain rfl := decode_pure_inj h
    rfl
  · simp [hround] at h ⊢
    obtain ⟨parent, hparent, rfl⟩ := map_eq_pure_exists h
    rw [hparent]
    rfl
  · simp [hround] at h ⊢
    obtain ⟨round, -, rfl⟩ := map_eq_pure_exists h
    rfl
  · simp [hround] at h ⊢
    obtain ⟨parent, hparent, h⟩ := lift_bind_eq_pure_iff.mp h
    obtain ⟨round, -, rfl⟩ := map_eq_pure_exists h
    simp [hparent]

theorem IstanbulExtra.elems_of_unmarshalRLPFrom {i extra : IstanbulExtra} {v : Value}
    (h : i.unmarshalRLPFrom v = pure extra) : ∃ a b c rest, v = .array (a :: b :: c :: rest) := by
  unfold IstanbulExtra.unmarshalRLPFrom at h
  cases v with
  | bytes bs => cases h
  | array elems =>
    rw [getElems_array, lift_ok_bind] at h
    rcases elems with _ | ⟨a, _ | ⟨b, _ | ⟨c, rest⟩⟩⟩
    · cases h
    · cases h
    · cases h
    · exact ⟨a, b, c, rest, rfl⟩

theorem IstanbulExtra.unmarshalRLPFrom_fields {i extra : IstanbulExtra} {a b c : Value}
    {rest : List Value} (h : i.unmarshalRLPFrom (.array (a :: b :: c :: rest)) = pure extra) :
    i.validators.unmarshalRLPFrom a = .ok extra.validators ∧
      b.getBytes.mapError ("failed to decode Seal: " ++ ·) = .ok extra.proposerSeal ∧
      i.committedSeals.unmarshalRLPFrom c = .ok extra.committedSeals := by
  unfold IstanbulExtra.unmarshalRLPFrom at h
  simp only [getElems_array, lift_ok_bind] at h
  obtain ⟨validators, hv, h⟩ := lift_bind_eq_pure_iff.mp h
  obtain ⟨proposerSeal, hp, h⟩ := lift_bind_eq_pure_iff.mp h
  obtain ⟨committedSeals, hcs, h⟩ := lift_bind_eq_pure_iff.mp h
  have hshape : ∃ parent round, extra = ⟨validators, proposerSeal, committedSeals, parent, round⟩ := by
    rcases rest with _ | ⟨parentV, _ | ⟨roundV, rest⟩⟩ <;> cases hpar : i.parentCommittedSeals <;>
      simp only [hpar, pure_bind] at h
    · exact ⟨_, _, (decode_pure_inj h).symm⟩
    · exact ⟨_, _, (decode_pure_inj h).symm⟩
    · exact ⟨_, _, (decode_pure_inj h).symm⟩
    · simp only [bind_pure_comp] at h
      obtain ⟨parent, -, rfl⟩ := map_eq_pure_exists h
      exact ⟨_, _, rfl⟩
    · simp only [bind_pure_comp] at h
      obtain ⟨round, -, rfl⟩ := map_eq_pure_exists h
      exact ⟨_, _, rfl⟩
    · obtain ⟨parent, -, h⟩ := lift_bind_eq_pure_iff.mp h
      simp only [bind_pure_comp] at h
      obtain ⟨round, -, rfl⟩ := map_eq_pure_exists h
      exact ⟨_, _, rfl⟩
  obtain ⟨parent, round, rfl⟩ := hshape
  exact ⟨hv, hp, hcs⟩

theorem Signer.validatorType_of_getIBFTExtra {s : Signer} {h : Header} {extra : IstanbulExtra}
    (hextra : s.getIBFTExtra h = pure extra) : extra.validators.validatorType = s.keyManager.type := by
  unfold Signer.getIBFTExtra IstanbulExtra.unmarshalRLP at hextra
  obtain ⟨⟨⟩, -, hextra⟩ := lift_bind_eq_pure_iff.mp hextra
  obtain ⟨v, -, hextra⟩ := lift_bind_eq_pure_iff.mp hextra
  obtain ⟨a, b, c, rest, rfl⟩ := IstanbulExtra.elems_of_unmarshalRLPFrom hextra
  have hv := (IstanbulExtra.unmarshalRLPFrom_fields hextra).1
  unfold Validators.unmarshalRLPFrom at hv
  obtain ⟨elems, -, hv⟩ := Except.bind_eq_ok_iff.mp hv
  obtain ⟨validators, -, hv⟩ := Except.bind_eq_ok_iff.mp hv
  rw [← Except.ok.inj hv]
  rfl

theorem Signer.getIBFTExtra_packCommittedSeals (s : Signer) {h : Header} {extra : IstanbulExtra}
    (hextra : s.getIBFTExtra h = pure extra) {committedSeal : Seals}
    (htype : committedSeal.type = s.keyManager.type) (roundNumber : UInt64) :
    s.getIBFTExtra { h with extraData :=
      packCommittedSealsAndRoundNumberIntoExtra h.extraData committedSeal (some roundNumber) } =
      pure { extra with committedSeals := committedSeal.decoded, roundNumber := some roundNumber } := by
  unfold Signer.getIBFTExtra IstanbulExtra.unmarshalRLP at hextra ⊢
  obtain ⟨⟨⟩, hsize, hextra⟩ := lift_bind_eq_pure_iff.mp hextra
  obtain ⟨v, hparse, hextra⟩ := lift_bind_eq_pure_iff.mp hextra
  obtain ⟨a, b, c, rest, rfl⟩ := IstanbulExtra.elems_of_unmarshalRLPFrom hextra
  have hlen : istanbulExtraVanity ≤ h.extraData.length := by
    unfold verifyIBFTExtraSize at hsize
    split_ifs at hsize with hlt
    omega
  have hpack : packCommittedSealsAndRoundNumberIntoExtra h.extraData committedSeal
      (some roundNumber) = h.extraData.take istanbulExtraVanity ++ encode (.array
        [a, b, committedSeal.marshalRLPWith, (a :: b :: c :: rest).getD 3 newNullArray,
          newBytes (toRoundBytes roundNumber)]) := by
    have h3 : ¬rest.length + 1 + 1 + 1 < 3 := by omega
    simp [packCommittedSealsAndRoundNumberIntoExtra, packFieldsIntoExtra, hparse,
      List.getD_eq_getElem?_getD, h3]
  have htake : (h.extraData.take istanbulExtraVanity).length = istanbulExtraVanity := by
    simp [hlen]
  have hsize' : verifyIBFTExtraSize { h with extraData :=
      packCommittedSealsAndRoundNumberIntoExtra h.extraData committedSeal (some roundNumber) } =
      .ok () := by
    simp [verifyIBFTExtraSize, hpack, htake]
  rw [hsize', lift_ok_bind, hpack, List.drop_left' htake, parse_encode, lift_ok_bind]
  refine IstanbulExtra.unmarshalRLPFrom_packed ?_ hextra ?_ roundNumber
  · intro p hp
    unfold Signer.emptyExtra at hp
    split_ifs at hp
    cases hp
    exact KeyManager.newEmptyCommittedSeals_unmarshalRLPFrom_null _
  · exact Seals.unmarshalRLPFrom_marshalRLPWith _
      ((KeyManager.type_newEmptyCommittedSeals _).trans htype.symm)

/-! ## Validator sets -/

theorem Validators.index_eq_some {V : Validators} {addr : Address} {i : ℕ}
    (h : V.index addr = some i) : ∃ hi : i < V.validators.length, V.validators[i].addr = addr := by
  obtain ⟨hi, haddr, -⟩ := List.findIdx?_eq_some_iff_getElem.mp h
  exact ⟨hi, of_decide_eq_true haddr⟩

theorem Validators.index_inj {V : Validators} {a b : Address} {i : ℕ} (ha : V.index a = some i)
    (hb : V.index b = some i) : a = b := by
  obtain ⟨_, rfl⟩ := Validators.index_eq_some ha
  obtain ⟨_, rfl⟩ := Validators.index_eq_some hb
  rfl

theorem Validators.exists_mem_of_includes {V : Validators} {addr : Address}
    (h : V.includes addr = true) : ∃ v ∈ V.validators, v.addr = addr := by
  obtain ⟨i, hi⟩ := Option.isSome_iff_exists.mp h
  obtain ⟨hlt, haddr⟩ := Validators.index_eq_some hi
  exact ⟨_, List.getElem_mem hlt, haddr⟩

/-! ## ECDSA: one seal for each distinct member -/

section ECDSA

variable {km : KeyManager} {msg : List UInt8} {validators : Validators}

theorem visitSeal_eq_ok {visited visited' : List Address} {sealBytes : List UInt8} :
    visitSeal km msg validators visited sealBytes = .ok visited' ↔
      ∃ addr, km.ecrecover sealBytes msg = .ok addr ∧ addr ∉ visited ∧
        validators.includes addr = true ∧ visited' = addr :: visited := by
  unfold visitSeal
  cases hrec : km.ecrecover sealBytes msg with
  | error e => simp
  | ok addr =>
    simp only [Except.ok_bind_eq]
    by_cases hv : addr ∈ visited
    · rw [if_pos hv]
      refine ⟨fun h => (nomatch h), ?_⟩
      rintro ⟨a, ha, hnew, -, -⟩
      cases ha
      exact absurd hv hnew
    · rw [if_neg hv]
      cases hinc : validators.includes addr
      · refine ⟨fun h => (nomatch h), ?_⟩
        rintro ⟨a, ha, -, hinc', -⟩
        cases ha
        rw [hinc] at hinc'
        cases hinc'
      · refine ⟨fun h => ⟨addr, rfl, hv, hinc, (Except.ok.inj h).symm⟩, ?_⟩
        rintro ⟨a, ha, -, -, rfl⟩
        cases ha
        rfl

theorem foldlM_visitSeal_of_ok :
    ∀ {seals : List (List UInt8)} {visited out : List Address},
      seals.foldlM (visitSeal km msg validators) visited = .ok out →
      ∃ addrs, seals.mapM (km.ecrecover · msg) = .ok addrs ∧ addrs.Nodup ∧
        ∀ addr ∈ addrs, addr ∉ visited ∧ validators.includes addr = true
  | [], _, _, _ => ⟨[], rfl, List.nodup_nil, fun _ h => nomatch h⟩
  | sealBytes :: seals, visited, out, h => by
    rw [List.foldlM_cons] at h
    obtain ⟨visited', hvisit, h⟩ := Except.bind_eq_ok_iff.mp h
    obtain ⟨addr, hrec, hnew, hinc, rfl⟩ := visitSeal_eq_ok.mp hvisit
    obtain ⟨addrs, hmap, hnodup, haddrs⟩ := foldlM_visitSeal_of_ok h
    refine ⟨addr :: addrs, ?_, ?_, ?_⟩
    · rw [List.mapM_cons, hrec, Except.ok_bind_eq, hmap, Except.ok_bind_eq]
      rfl
    · exact List.nodup_cons.mpr ⟨fun h => (haddrs addr h).1 List.mem_cons_self, hnodup⟩
    · intro a ha
      rcases List.mem_cons.mp ha with rfl | ha
      · exact ⟨hnew, hinc⟩
      · exact ⟨fun h => (haddrs a ha).1 (List.mem_cons_of_mem _ h), (haddrs a ha).2⟩

theorem foldlM_visitSeal_ok :
    ∀ {seals : List (List UInt8)} {addrs visited : List Address},
      seals.mapM (km.ecrecover · msg) = .ok addrs → addrs.Nodup →
      (∀ addr ∈ addrs, addr ∉ visited ∧ validators.includes addr = true) →
      ∃ out, seals.foldlM (visitSeal km msg validators) visited = .ok out
  | [], _, visited, _, _, _ => ⟨visited, rfl⟩
  | sealBytes :: seals, addrs, visited, hmap, hnodup, haddrs => by
    rw [List.mapM_cons] at hmap
    obtain ⟨addr, hrec, hmap⟩ := Except.bind_eq_ok_iff.mp hmap
    obtain ⟨addrs', hmap', hmap⟩ := Except.bind_eq_ok_iff.mp hmap
    obtain rfl : addrs = addr :: addrs' := (Except.ok.inj hmap).symm
    obtain ⟨hnotin, hnodup'⟩ := List.nodup_cons.mp hnodup
    obtain ⟨hnew, hinc⟩ := haddrs addr List.mem_cons_self
    have hvisit : visitSeal km msg validators visited sealBytes = .ok (addr :: visited) :=
      visitSeal_eq_ok.mpr ⟨addr, hrec, hnew, hinc, rfl⟩
    rw [List.foldlM_cons, hvisit, Except.ok_bind_eq]
    refine foldlM_visitSeal_ok hmap' hnodup' fun a ha => ⟨?_, (haddrs a (List.mem_cons_of_mem _ ha)).2⟩
    intro hmem
    rcases List.mem_cons.mp hmem with rfl | hmem
    · exact hnotin ha
    · exact (haddrs a (List.mem_cons_of_mem _ ha)).1 hmem

theorem KeyManager.verifyCommittedSealsImpl_of_ok {seals : List (List UInt8)} {n : ℕ}
    (h : km.verifyCommittedSealsImpl seals msg validators = .ok n) :
    n = seals.length ∧ ∃ addrs, seals.mapM (km.ecrecover · msg) = .ok addrs ∧ addrs.Nodup ∧
      ∀ addr ∈ addrs, validators.includes addr = true := by
  unfold KeyManager.verifyCommittedSealsImpl at h
  dsimp only at h
  split_ifs at h with hnil
  · cases h
  obtain ⟨out, hloop, h⟩ := Except.bind_eq_ok_iff.mp h
  obtain ⟨addrs, hmap, hnodup, haddrs⟩ := foldlM_visitSeal_of_ok hloop
  exact ⟨(Except.ok.inj h).symm, addrs, hmap, hnodup, fun a ha => (haddrs a ha).2⟩

theorem KeyManager.verifyCommittedSealsImpl_ok {seals : List (List UInt8)} {addrs : List Address}
    (hne : seals ≠ []) (hmap : seals.mapM (km.ecrecover · msg) = .ok addrs) (hnodup : addrs.Nodup)
    (hinc : ∀ addr ∈ addrs, validators.includes addr = true) :
    km.verifyCommittedSealsImpl seals msg validators = .ok seals.length := by
  obtain ⟨out, hloop⟩ := foldlM_visitSeal_ok hmap hnodup fun a ha =>
    ⟨List.not_mem_nil, hinc a ha⟩
  unfold KeyManager.verifyCommittedSealsImpl
  rw [if_neg (by simpa using hne), hloop, Except.ok_bind_eq]
  rfl

theorem KeyManager.signers_of_verifyECDSACommittedSeals {c : Seals} {n : ℕ}
    (h : km.verifyECDSACommittedSeals c msg validators = .ok n) :
    ∃ signers : List Validator, signers.Nodup ∧ signers.length = n ∧ ∀ v ∈ signers,
      v ∈ validators.validators ∧ ∃ seals, c = .serialized seals ∧
        ∃ sealBytes ∈ seals, km.ecrecover sealBytes msg = .ok v.addr := by
  cases c with
  | aggregated bitmap signature => cases h
  | serialized seals =>
    unfold KeyManager.verifyECDSACommittedSeals at h
    split_ifs at h with htype
    obtain ⟨rfl, addrs, hmap, hnodup, hinc⟩ := KeyManager.verifyCommittedSealsImpl_of_ok h
    obtain ⟨signers, hsigners, hlen, hmem⟩ :=
      exists_nodup_of_keys hnodup fun a ha => Validators.exists_mem_of_includes (hinc a ha)
    refine ⟨signers, hsigners, ?_, fun v hv => ⟨(hmem v hv).1, seals, rfl, ?_⟩⟩
    · rw [hlen, (mapM_ok_forall₂ hmap).length_eq]
    · exact mapM_ok_mem_right hmap (hmem v hv).2

end ECDSA

/-! ## BLS: one key for each set bit below the size of the set -/

/-- What the seals rest on of the BLS scheme, for the messages `Signs key msg sig` relates: a
multi-signature verifies only if every aggregated key signed the message, and signatures of the
message by every key of a set aggregate into one that verifies against the aggregate of the keys. -/
structure BLSVerifier.Faithful (bls : BLSVerifier PublicKey MultiPublicKey MultiSignature)
    (km : KeyManager) (Signs : List UInt8 → List UInt8 → List UInt8 → Prop) : Prop where
  signed_of_verify : ∀ {keys : List (List UInt8)} {pks : List PublicKey} {mpk : MultiPublicKey}
    {signature : List UInt8} {msig : MultiSignature} {msg : List UInt8},
    keys.mapM bls.unmarshalBLSPublicKey = .ok pks → bls.aggregatePublicKeys pks = .ok mpk →
    bls.unmarshalMultiSignature signature = .ok msig →
    bls.verifyMultiSignature mpk msg msig = .ok true → ∀ key ∈ keys, ∃ sig, Signs key msg sig
  verify_of_signed : ∀ {signed : List (List UInt8 × List UInt8)} {keys : List (List UInt8)}
    {msg : List UInt8}, signed ≠ [] → (∀ p ∈ signed, Signs p.1 msg p.2) →
    keys.Perm (signed.map Prod.fst) →
    ∃ sigs signature pks mpk msig,
      (signed.map Prod.snd).mapM km.unmarshalBLSSignature = .ok sigs ∧
      km.aggregateBLSSignatures sigs = .ok signature ∧ signature ≠ [] ∧
      keys.mapM bls.unmarshalBLSPublicKey = .ok pks ∧ bls.aggregatePublicKeys pks = .ok mpk ∧
      bls.unmarshalMultiSignature signature = .ok msig ∧
      bls.verifyMultiSignature mpk msg msig = .ok true

section BLS

variable (bls : BLSVerifier PublicKey MultiPublicKey MultiSignature)

theorem blsPublicKeyAt_eq_ok {vals : Validators} {idx : ℕ} {key : List UInt8} :
    blsPublicKeyAt vals idx = .ok key ↔ ∃ address, vals.validators[idx]? = some (.bls address key) := by
  unfold blsPublicKeyAt
  split <;> rename_i hv <;> simp [hv, eq_comm]

theorem createAggregatedBLSPubKeys_eq (vals : Validators) (bitMap : ℕ) :
    createAggregatedBLSPubKeys bls vals bitMap = (do
      let pubkeys ← ((List.range vals.len).filter bitMap.testBit).mapM
        fun idx => blsPublicKeyAt vals idx >>= bls.unmarshalBLSPublicKey
      let key ← bls.aggregatePublicKeys pubkeys
      pure (key, pubkeys.length)) := by
  unfold createAggregatedBLSPubKeys
  rw [foldlM_append_filter]
  cases ((List.range vals.len).filter bitMap.testBit).mapM
    (fun idx => blsPublicKeyAt vals idx >>= bls.unmarshalBLSPublicKey) <;> rfl

theorem createAggregatedBLSPubKeys_eq_ok {vals : Validators} {bitMap : ℕ} {key : MultiPublicKey}
    {numKeys : ℕ} :
    createAggregatedBLSPubKeys bls vals bitMap = .ok (key, numKeys) ↔
      ∃ keys pks, ((List.range vals.len).filter bitMap.testBit).mapM (blsPublicKeyAt vals) =
        .ok keys ∧ keys.mapM bls.unmarshalBLSPublicKey = .ok pks ∧
        bls.aggregatePublicKeys pks = .ok key ∧ numKeys = pks.length := by
  rw [createAggregatedBLSPubKeys_eq]
  constructor
  · intro h
    obtain ⟨pks, hpks, h⟩ := Except.bind_eq_ok_iff.mp h
    obtain ⟨key', hkey, h⟩ := Except.bind_eq_ok_iff.mp h
    obtain ⟨keys, hkeys, hpks⟩ := mapM_bind_eq_ok.mp hpks
    obtain ⟨rfl, rfl⟩ := Prod.mk.inj (Except.ok.inj h)
    exact ⟨keys, pks, hkeys, hpks, hkey, rfl⟩
  · rintro ⟨keys, pks, hkeys, hpks, hkey, rfl⟩
    rw [mapM_bind_eq_ok.mpr ⟨keys, hkeys, hpks⟩, Except.ok_bind_eq, hkey, Except.ok_bind_eq]
    rfl

theorem verifyBLSCommittedSealsImpl_eq_ok {bitmap : Option ℕ} {signature msg : List UInt8}
    {vals : Validators} {n : ℕ} :
    verifyBLSCommittedSealsImpl bls bitmap signature msg vals = .ok n ↔
      ∃ b, bitmap = some b ∧ signature ≠ [] ∧ b ≠ 0 ∧ ∃ key msig,
        createAggregatedBLSPubKeys bls vals b = .ok (key, n) ∧
        bls.unmarshalMultiSignature signature = .ok msig ∧
        bls.verifyMultiSignature key msg msig = .ok true := by
  cases bitmap with
  | none => exact ⟨fun h => (nomatch h), fun ⟨_, hb, _⟩ => (nomatch hb)⟩
  | some b =>
    unfold verifyBLSCommittedSealsImpl
    dsimp only
    by_cases hempty : signature = [] ∨ b.size = 0
    · rw [if_pos hempty]
      refine ⟨fun h => (nomatch h), ?_⟩
      rintro ⟨b', hb', hsig, hb, -⟩
      cases hb'
      rcases hempty with hempty | hempty
      · exact absurd hempty hsig
      · exact absurd (Nat.size_eq_zero.mp hempty) hb
    · rw [if_neg hempty]
      obtain ⟨hsig, hsize⟩ := not_or.mp hempty
      have hb : b ≠ 0 := fun hb => hsize (by rw [hb, Nat.size_zero])
      constructor
      · intro h
        obtain ⟨⟨key, numKeys⟩, hagg, h⟩ := Except.bind_eq_ok_iff.mp h
        obtain ⟨msig, hmsig, h⟩ := Except.bind_eq_ok_iff.mp h
        obtain ⟨ok, hok, h⟩ := Except.bind_eq_ok_iff.mp h
        cases ok
        · cases h
        · obtain rfl : numKeys = n := Except.ok.inj h
          exact ⟨b, rfl, hsig, hb, key, msig, Except.mapError_eq_ok.mp hagg, hmsig, hok⟩
      · rintro ⟨b', hb', -, -, key, msig, hagg, hmsig, hok⟩
        cases hb'
        rw [Except.mapError_eq_ok.mpr hagg, Except.ok_bind_eq, hmsig, Except.ok_bind_eq, hok,
          Except.ok_bind_eq]
        rfl

theorem signers_of_verifyBLSCommittedSeals {km : KeyManager}
    {Signs : List UInt8 → List UInt8 → List UInt8 → Prop} (hbls : bls.Faithful km Signs)
    {c : Seals} {msg : List UInt8} {vals : Validators} (hnodup : vals.validators.Nodup) {n : ℕ}
    (h : verifyBLSCommittedSeals bls c msg vals = .ok n) :
    ∃ signers : List Validator, signers.Nodup ∧ signers.length = n ∧ ∀ v ∈ signers,
      v ∈ vals.validators ∧ ∃ address key, v = .bls address key ∧ ∃ sig, Signs key msg sig := by
  cases c with
  | serialized seals => cases h
  | aggregated bitmap signature =>
    unfold verifyBLSCommittedSeals at h
    split_ifs at h with htype
    obtain ⟨b, rfl, -, -, key, msig, hagg, hmsig, hver⟩ :=
      (verifyBLSCommittedSealsImpl_eq_ok bls).mp h
    obtain ⟨keys, pks, hkeys, hpks, hmpk, rfl⟩ := (createAggregatedBLSPubKeys_eq_ok bls).mp hagg
    have hsigned := hbls.signed_of_verify hpks hmpk hmsig hver
    have hpos : ∀ i ∈ (List.range vals.len).filter b.testBit, ∃ hi : i < vals.validators.length,
        ∃ address key, vals.validators[i] = .bls address key ∧ ∃ sig, Signs key msg sig := by
      intro i hi
      obtain ⟨key, hkey, hat⟩ := mapM_ok_mem_left hkeys hi
      obtain ⟨address, haddr⟩ := blsPublicKeyAt_eq_ok.mp hat
      obtain ⟨hlt, hget⟩ := List.getElem?_eq_some_iff.mp haddr
      exact ⟨hlt, address, key, hget, hsigned key hkey⟩
    obtain ⟨signers, hsigners, hlen, hmem⟩ :=
      exists_nodup_of_positions (R := fun v => ∃ address key, v = .bls address key ∧
        ∃ sig, Signs key msg sig) hnodup (List.nodup_range.filter _) hpos
    refine ⟨signers, hsigners, ?_, hmem⟩
    rw [hlen, (mapM_ok_forall₂ hkeys).length_eq, (mapM_ok_forall₂ hpks).length_eq]

end BLS

/-! ## Generating seals that verify -/

theorem getBLSSignatures_ok {km : KeyManager} {vals : Validators} :
    ∀ {sealMap : List (Address × List UInt8)} {sigs : List (List UInt8)},
      (∀ p ∈ sealMap, (vals.index p.1).isSome) →
      (sealMap.map Prod.snd).mapM km.unmarshalBLSSignature = .ok sigs →
      ∃ bitMap, getBLSSignatures km vals sealMap = .ok (sigs, bitMap) ∧
        ∀ i, bitMap.testBit i = true ↔ ∃ p ∈ sealMap, vals.index p.1 = some i
  | [], sigs, _, h => by
    obtain rfl : sigs = [] := (Except.ok.inj h).symm
    exact ⟨0, rfl, by simp⟩
  | (addr, sealBytes) :: sealMap, sigs, hidx, h => by
    obtain ⟨i, hi⟩ := Option.isSome_iff_exists.mp (hidx _ List.mem_cons_self)
    rw [List.map_cons, List.mapM_cons] at h
    obtain ⟨bsig, hbsig, h⟩ := Except.bind_eq_ok_iff.mp h
    obtain ⟨sigs', hsigs', h⟩ := Except.bind_eq_ok_iff.mp h
    obtain rfl : sigs = bsig :: sigs' := (Except.ok.inj h).symm
    obtain ⟨bitMap, hget, hbits⟩ :=
      getBLSSignatures_ok (fun p hp => hidx p (List.mem_cons_of_mem _ hp)) hsigs'
    refine ⟨bitMap ||| 2 ^ i, ?_, fun j => ?_⟩
    · simp only [getBLSSignatures, hi, hbsig, hget]
      rfl
    · rw [Nat.testBit_or, Nat.testBit_two_pow, Bool.or_eq_true, hbits, decide_eq_true_iff]
      simp only [List.mem_cons, exists_eq_or_imp, hi, Option.some.injEq]
      exact or_comm

theorem filter_range_perm_index {vals : Validators} {sealMap : List (Address × List UInt8)}
    (hkeys : (sealMap.map Prod.fst).Nodup) (hidx : ∀ p ∈ sealMap, (vals.index p.1).isSome)
    {test : ℕ → Bool} (htest : ∀ i, test i = true ↔ ∃ p ∈ sealMap, vals.index p.1 = some i) :
    ((List.range vals.len).filter test).Perm
      ((sealMap.map Prod.fst).map fun a => (vals.index a).getD 0) := by
  have hinj : ∀ a ∈ sealMap.map Prod.fst, ∀ a' ∈ sealMap.map Prod.fst,
      (vals.index a).getD 0 = (vals.index a').getD 0 → a = a' := by
    intro a ha a' ha' heq
    obtain ⟨p, hp, rfl⟩ := List.mem_map.mp ha
    obtain ⟨p', hp', rfl⟩ := List.mem_map.mp ha'
    obtain ⟨i, hi⟩ := Option.isSome_iff_exists.mp (hidx p hp)
    obtain ⟨i', hi'⟩ := Option.isSome_iff_exists.mp (hidx p' hp')
    rw [hi, hi', Option.getD_some, Option.getD_some] at heq
    subst heq
    exact Validators.index_inj hi hi'
  refine (List.perm_ext_iff_of_nodup (List.nodup_range.filter _) (hkeys.map_on hinj)).mpr ?_
  intro i
  simp only [List.mem_filter, List.mem_range, htest, List.map_map, List.mem_map,
    Function.comp_apply]
  constructor
  · rintro ⟨-, p, hp, hi⟩
    exact ⟨p, hp, by rw [hi, Option.getD_some]⟩
  · rintro ⟨p, hp, rfl⟩
    obtain ⟨i, hi⟩ := Option.isSome_iff_exists.mp (hidx p hp)
    obtain ⟨hlt, -⟩ := Validators.index_eq_some hi
    exact ⟨by rw [hi, Option.getD_some]; exact hlt, p, hp, by rw [hi, Option.getD_some]⟩

theorem KeyManager.generateCommittedSeals_verifyECDSA {km : KeyManager} (hkm : km.type = .ecdsa)
    {vals : Validators} (htype : vals.validatorType = .ecdsa) {msg : List UInt8}
    {sealMap : List (Address × List UInt8)} (hne : sealMap ≠ [])
    (hkeys : (sealMap.map Prod.fst).Nodup)
    (hvalid : ∀ p ∈ sealMap, p.2.length = istanbulExtraSeal ∧ km.ecrecover p.2 msg = .ok p.1 ∧
      vals.includes p.1 = true) :
    ∃ committedSeal, km.generateCommittedSeals sealMap vals = .ok committedSeal ∧
      km.verifyECDSACommittedSeals committedSeal.decoded msg vals = .ok sealMap.length := by
  refine ⟨.serialized (sealMap.map Prod.snd), ?_, ?_⟩
  · unfold KeyManager.generateCommittedSeals
    rw [hkm]
    dsimp only
    rw [if_neg]
    · rfl
    · simpa using fun a sealBytes hp => (hvalid (a, sealBytes) hp).1
  · have hmap : (sealMap.map Prod.snd).mapM (km.ecrecover · msg) = .ok (sealMap.map Prod.fst) :=
      mapM_map_ok sealMap fun p hp => (hvalid p hp).2.1
    have hinc : ∀ a ∈ sealMap.map Prod.fst, vals.includes a = true := by
      intro a ha
      obtain ⟨p, hp, rfl⟩ := List.mem_map.mp ha
      exact (hvalid p hp).2.2
    have himpl := km.verifyCommittedSealsImpl_ok (by simpa using hne) hmap hkeys hinc
    rw [List.length_map] at himpl
    unfold KeyManager.verifyECDSACommittedSeals Seals.decoded
    dsimp only
    rw [if_neg (fun h => h htype)]
    exact himpl

theorem generateCommittedSeals_verifyBLS (bls : BLSVerifier PublicKey MultiPublicKey MultiSignature)
    {km : KeyManager} (hkm : km.type = .bls) {Signs : List UInt8 → List UInt8 → List UInt8 → Prop}
    (hbls : bls.Faithful km Signs) {vals : Validators} (htype : vals.validatorType = .bls)
    {msg : List UInt8} {sealMap : List (Address × List UInt8)} (hne : sealMap ≠ [])
    (hkeys : (sealMap.map Prod.fst).Nodup)
    (hvalid : ∀ p ∈ sealMap, ∃ index key, vals.index p.1 = some index ∧
      vals.validators[index]? = some (.bls p.1 key) ∧ Signs key msg p.2) :
    ∃ committedSeal, km.generateCommittedSeals sealMap vals = .ok committedSeal ∧
      verifyBLSCommittedSeals bls committedSeal.decoded msg vals = .ok sealMap.length := by
  have hidx : ∀ p ∈ sealMap, (vals.index p.1).isSome := by
    intro p hp
    obtain ⟨index, -, hi, -⟩ := hvalid p hp
    rw [hi]
    rfl
  let keyOf : ℕ → List UInt8 := fun i => match blsPublicKeyAt vals i with
    | .ok key => key
    | .error _ => []
  let posOf : Address → ℕ := fun a => (vals.index a).getD 0
  have hkeyOf : ∀ p ∈ sealMap, blsPublicKeyAt vals (posOf p.1) = .ok (keyOf (posOf p.1)) ∧
      Signs (keyOf (posOf p.1)) msg p.2 := by
    intro p hp
    obtain ⟨index, key, hi, hat, hsigns⟩ := hvalid p hp
    have hkey : blsPublicKeyAt vals index = .ok key := blsPublicKeyAt_eq_ok.mpr ⟨p.1, hat⟩
    simp only [posOf, keyOf, hi, Option.getD_some, hkey, true_and]
    exact hsigns
  let P := (List.range vals.len).filter fun i => sealMap.any fun p => vals.index p.1 == some i
  have hP : ∀ i, (sealMap.any fun p => vals.index p.1 == some i) = true ↔
      ∃ p ∈ sealMap, vals.index p.1 = some i := by
    simp
  let signed := sealMap.map fun p => (keyOf (posOf p.1), p.2)
  have hsigned : ∀ q ∈ signed, Signs q.1 msg q.2 := by
    intro q hq
    obtain ⟨p, hp, rfl⟩ := List.mem_map.mp hq
    exact (hkeyOf p hp).2
  have hpermKeys : (P.map keyOf).Perm (signed.map Prod.fst) := by
    have hfst : signed.map Prod.fst = ((sealMap.map Prod.fst).map posOf).map keyOf := by
      simp only [signed, List.map_map]
      rfl
    rw [hfst]
    exact (filter_range_perm_index hkeys hidx hP).map keyOf
  obtain ⟨sigs, signature, pks, mpk, msig, hsigs, hsignature, hsig, hpks, hmpk, hmsig, hver⟩ :=
    hbls.verify_of_signed (by simpa [signed] using hne) hsigned hpermKeys
  have hsnd : signed.map Prod.snd = sealMap.map Prod.snd := by
    simp only [signed, List.map_map]
    rfl
  rw [hsnd] at hsigs
  obtain ⟨b, hget, hbits⟩ := getBLSSignatures_ok hidx hsigs
  have hPb : (List.range vals.len).filter b.testBit = P :=
    List.filter_congr fun i _ => Bool.eq_iff_iff.mpr ((hbits i).trans (hP i).symm)
  have hb : b ≠ 0 := by
    obtain ⟨p, hp⟩ := List.exists_mem_of_ne_nil sealMap hne
    obtain ⟨i, hi⟩ := Option.isSome_iff_exists.mp (hidx p hp)
    rintro rfl
    exact absurd ((hbits i).mpr ⟨p, hp, hi⟩) (by simp)
  have hkeysP : P.mapM (blsPublicKeyAt vals) = .ok (P.map keyOf) := by
    have hmap := mapM_map_ok (f := blsPublicKeyAt vals) (g := id) (h := keyOf) P fun i hi => by
      obtain ⟨p, hp, hpi⟩ := (hP i).mp (List.mem_filter.mp hi).2
      have hpos : posOf p.1 = i := by simp [posOf, hpi]
      rw [id, ← hpos]
      exact (hkeyOf p hp).1
    rwa [List.map_id] at hmap
  refine ⟨.aggregated (some b) signature, ?_, ?_⟩
  · unfold KeyManager.generateCommittedSeals
    rw [hkm]
    dsimp only
    rw [if_neg (fun h => h htype)]
    simp only [hget, hsignature, Except.ok_bind_eq]
    rfl
  · unfold verifyBLSCommittedSeals Seals.decoded
    dsimp only
    rw [if_neg (fun h => h htype)]
    refine (verifyBLSCommittedSealsImpl_eq_ok bls).mpr ⟨b, rfl, hsig, hb, mpk, msig, ?_, hmsig, hver⟩
    refine (createAggregatedBLSPubKeys_eq_ok bls).mpr
      ⟨P.map keyOf, pks, by rw [hPb]; exact hkeysP, hpks, hmpk, ?_⟩
    rw [← (mapM_ok_forall₂ hpks).length_eq, List.length_map,
      (filter_range_perm_index hkeys hidx hP).length_eq, List.length_map, List.length_map]

/-! ## The quorum the seals prove -/

/-- The validator `v` produced a committed seal over `msg` that `c` carries: an ECDSA seal of `c`
recovers to its address, or its BLS key signed the message. -/
def HasCommittedSeal (Signs : List UInt8 → List UInt8 → List UInt8 → Prop) (km : KeyManager)
    (c : Seals) (msg : List UInt8) (v : Validator) : Prop :=
  match km.type with
  | .ecdsa => ∃ seals, c = .serialized seals ∧
      ∃ sealBytes ∈ seals, km.ecrecover sealBytes msg = .ok v.addr
  | .bls => ∃ address key, v = .bls address key ∧ ∃ sig, Signs key msg sig

/-- An entry of a seal map is a valid committed seal over `msg` by a member of `validators`: a
signature of 65 bytes recovering to the member, or a BLS signature by the key the set holds at the
member's position. -/
def IsCommittedSeal (Signs : List UInt8 → List UInt8 → List UInt8 → Prop) (km : KeyManager)
    (validators : Validators) (msg : List UInt8) (p : Address × List UInt8) : Prop :=
  match km.type with
  | .ecdsa => p.2.length = istanbulExtraSeal ∧ km.ecrecover p.2 msg = .ok p.1 ∧
      validators.includes p.1 = true
  | .bls => ∃ index key, validators.index p.1 = some index ∧
      validators.validators[index]? = some (.bls p.1 key) ∧ Signs key msg p.2

theorem Signer.verifyCommittedSeals_eq_ok {s : Signer} {hash : Hash} {c : Seals}
    {V : Validators} {q : ℤ} :
    s.verifyCommittedSeals hash c V q = .ok () ↔
      ∃ n, s.keyManager.verifyCommittedSeals c (keccak256 (wrapCommitHash hash.bytes)) V = .ok n ∧
        q ≤ n := by
  unfold Signer.verifyCommittedSeals
  dsimp only
  constructor
  · intro h
    obtain ⟨n, hn, h⟩ := Except.bind_eq_ok_iff.mp h
    refine ⟨n, hn, not_lt.mp fun hlt => ?_⟩
    rw [if_pos hlt] at h
    cases h
  · rintro ⟨n, hn, hq⟩
    rw [hn, Except.ok_bind_eq, if_neg (not_lt.mpr hq)]
    rfl

section Quorum

variable {s : Signer} {bls : BLSVerifier PublicKey MultiPublicKey MultiSignature}
  {Signs : List UInt8 → List UInt8 → List UInt8 → Prop}
  (hverify : s.keyManager.verifyCommittedSeals = verifyCommittedSealsOf s.keyManager bls)
  (hbls : bls.Faithful s.keyManager Signs)
include hverify hbls

theorem Signer.signers_of_verifyCommittedSeals {hash : Hash} {c : Seals} {V : Validators} {q : ℤ}
    (hnodup : s.keyManager.type = .bls → V.validators.Nodup)
    (h : s.verifyCommittedSeals hash c V q = .ok ()) :
    ∃ signers : List Validator, signers.Nodup ∧ q ≤ signers.length ∧ ∀ v ∈ signers,
      v ∈ V.validators ∧
        HasCommittedSeal Signs s.keyManager c (keccak256 (wrapCommitHash hash.bytes)) v := by
  obtain ⟨n, hn, hq⟩ := Signer.verifyCommittedSeals_eq_ok.mp h
  rw [hverify, verifyCommittedSealsOf] at hn
  unfold HasCommittedSeal
  cases hkm : s.keyManager.type with
  | ecdsa =>
    rw [hkm] at hn
    obtain ⟨signers, hsigners, hlen, hmem⟩ := KeyManager.signers_of_verifyECDSACommittedSeals hn
    exact ⟨signers, hsigners, hlen ▸ hq, hmem⟩
  | bls =>
    rw [hkm] at hn
    obtain ⟨signers, hsigners, hlen, hmem⟩ :=
      signers_of_verifyBLSCommittedSeals bls hbls (hnodup hkm) hn
    exact ⟨signers, hsigners, hlen ▸ hq, hmem⟩

theorem Signer.verifyCommittedSeals_writeCommittedSeals {h : Header} {V : Validators}
    {r : UInt64} {sealMap : List (Address × List UInt8)} {q : ℤ}
    (hV : s.getValidators h = pure V) (hne : sealMap ≠ []) (hkeys : (sealMap.map Prod.fst).Nodup)
    (hq : q ≤ sealMap.length)
    (hvalid : ∀ p ∈ sealMap, IsCommittedSeal Signs s.keyManager V
      (keccak256 (wrapCommitHash (calculateProposalHash h (some r)).bytes)) p) :
    ∃ h' extra, s.writeCommittedSeals h r sealMap = pure h' ∧ s.getIBFTExtra h' = pure extra ∧
      s.verifyCommittedSeals (calculateProposalHash h (some r)) extra.committedSeals V q =
        .ok () := by
  obtain ⟨extra, hextra, hV'⟩ := bind_eq_pure_iff.mp hV
  obtain rfl : extra.validators = V := decode_pure_inj hV'
  have htype := Signer.validatorType_of_getIBFTExtra hextra
  obtain ⟨committedSeal, hgen, hver⟩ : ∃ committedSeal,
      s.keyManager.generateCommittedSeals sealMap extra.validators = .ok committedSeal ∧
      verifyCommittedSealsOf s.keyManager bls committedSeal.decoded
        (keccak256 (wrapCommitHash (calculateProposalHash h (some r)).bytes)) extra.validators =
        .ok sealMap.length := by
    unfold verifyCommittedSealsOf
    unfold IsCommittedSeal at hvalid
    cases hkm : s.keyManager.type with
    | ecdsa =>
      simp only [hkm] at hvalid ⊢
      exact KeyManager.generateCommittedSeals_verifyECDSA hkm (htype.trans hkm) hne hkeys hvalid
    | bls =>
      simp only [hkm] at hvalid ⊢
      exact generateCommittedSeals_verifyBLS bls hkm hbls (htype.trans hkm) hne hkeys hvalid
  refine ⟨_, _, ?_, s.getIBFTExtra_packCommittedSeals hextra
    (KeyManager.type_of_generateCommittedSeals hgen) r, ?_⟩
  · unfold Signer.writeCommittedSeals
    rw [if_neg hne]
    simp only [hV, pure_bind, hgen, lift_ok_bind]
  · exact Signer.verifyCommittedSeals_eq_ok.mpr ⟨sealMap.length, by rw [hverify]; exact hver, hq⟩

end Quorum

theorem committed_seals_count_distinct_signers (s : Signer)
    (bls : BLSVerifier PublicKey MultiPublicKey MultiSignature)
    (Signs : List UInt8 → List UInt8 → List UInt8 → Prop)
    (hverify : s.keyManager.verifyCommittedSeals = verifyCommittedSealsOf s.keyManager bls)
    (hbls : bls.Faithful s.keyManager Signs) :
    (∀ (hash : Hash) (c : Seals) (V : Validators) (q : ℤ),
      (s.keyManager.type = .bls → V.validators.Nodup) →
      s.verifyCommittedSeals hash c V q = .ok () →
      ∃ signers : List Validator, signers.Nodup ∧ q ≤ signers.length ∧ ∀ v ∈ signers,
        v ∈ V.validators ∧
          HasCommittedSeal Signs s.keyManager c (keccak256 (wrapCommitHash hash.bytes)) v) ∧
    ∀ (h : Header) (V : Validators) (r : UInt64) (sealMap : List (Address × List UInt8)) (q : ℤ),
      s.getValidators h = pure V → sealMap ≠ [] → (sealMap.map Prod.fst).Nodup →
      q ≤ sealMap.length →
      (∀ p ∈ sealMap, IsCommittedSeal Signs s.keyManager V
        (keccak256 (wrapCommitHash (calculateProposalHash h (some r)).bytes)) p) →
      ∃ h' extra, s.writeCommittedSeals h r sealMap = pure h' ∧ s.getIBFTExtra h' = pure extra ∧
        s.verifyCommittedSeals (calculateProposalHash h (some r)) extra.committedSeals V q =
          .ok () :=
  ⟨fun _ _ _ _ hnodup h => Signer.signers_of_verifyCommittedSeals hverify hbls hnodup h,
    fun _ _ _ _ _ hV hne hkeys hq hvalid =>
      Signer.verifyCommittedSeals_writeCommittedSeals hverify hbls hV hne hkeys hq hvalid⟩

/-! ## A sample scheme -/

def sampleBLSVerifier : BLSVerifier (List UInt8) (List (List UInt8)) (List UInt8) :=
  ⟨pure, pure, fun sig => pure sig.tail,
    fun keys msg sig => pure (decide ((keys.map (· ++ msg.take 1)).flatten.Perm sig))⟩

def sampleSigns (key msg sig : List UInt8) : Prop := sig = key ++ msg.take 1

def sampleSealingKeyManager : KeyManager :=
  ⟨.bls, zeroAddress, fun _ => .ok [], fun sig _ => .ok (bytesToAddress (sig.take 20)), pure,
    fun sigs => .ok (1 :: sigs.flatten), fun _ _ _ => .ok 0⟩

def sampleSealingSigner : Signer :=
  ⟨{ sampleSealingKeyManager with
      verifyCommittedSeals := verifyCommittedSealsOf sampleSealingKeyManager sampleBLSVerifier },
    sampleSealingKeyManager⟩

theorem mapM_except_pure (xs : List (List UInt8)) :
    (xs.mapM pure : Except String (List (List UInt8))) = .ok xs := by
  induction xs with
  | nil => rfl
  | cons x xs ih =>
    rw [List.mapM_cons, ih]
    rfl

theorem sampleBLSVerifier_faithful :
    sampleBLSVerifier.Faithful sampleSealingSigner.keyManager sampleSigns where
  signed_of_verify := fun _ _ _ _ key _ => ⟨key ++ _, rfl⟩
  verify_of_signed := by
    intro signed keys msg _ hsigned hperm
    have hsigs : signed.map Prod.snd = (signed.map Prod.fst).map (· ++ msg.take 1) := by
      rw [List.map_map]
      exact List.map_congr_left hsigned
    refine ⟨_, _, keys, keys, _, mapM_except_pure _, rfl, List.cons_ne_nil _ _,
      mapM_except_pure keys, rfl, rfl, ?_⟩
    have hflat : (keys.map (· ++ msg.take 1)).flatten.Perm (signed.map Prod.snd).flatten := by
      rw [hsigs]
      exact (hperm.map _).flatten
    simp only [sampleBLSVerifier, List.tail_cons, decide_eq_true hflat]
    rfl

def sampleMember : Validator := .bls (bytesToAddress [1]) [7]

def secondMember : Validator := .bls (bytesToAddress [2]) [8]

def sampleMemberPair : Validators := ⟨.bls, [sampleMember, secondMember]⟩

def sampleSealingHeader : Header :=
  sampleSealingSigner.initIbftExtra { sampleHeader with number := 1 } sampleMemberPair none

/-- Both members sign: over the zero hash, whose commit message starts with 110, and over the
sample header in round 0, whose commit message starts with 214. -/
theorem committed_seals_count_distinct_signers_of_sample :
    (∃ signers : List Validator, signers.Nodup ∧ (2 : ℤ) ≤ signers.length ∧ ∀ v ∈ signers,
      v ∈ sampleMemberPair.validators ∧ HasCommittedSeal sampleSigns sampleSealingSigner.keyManager
        (.aggregated (some 3) [1, 8, 110, 7, 110]) (keccak256 (wrapCommitHash zeroHash.bytes)) v) ∧
    ∃ h' extra, sampleSealingSigner.writeCommittedSeals sampleSealingHeader 0
        [(bytesToAddress [2], [8, 214]), (bytesToAddress [1], [7, 214])] = pure h' ∧
      sampleSealingSigner.getIBFTExtra h' = pure extra ∧
      sampleSealingSigner.verifyCommittedSeals (calculateProposalHash sampleSealingHeader (some 0))
        extra.committedSeals sampleMemberPair 2 = .ok () := by
  have hquorum := committed_seals_count_distinct_signers sampleSealingSigner sampleBLSVerifier
    sampleSigns rfl sampleBLSVerifier_faithful
  have hV : sampleSealingSigner.getValidators sampleSealingHeader = pure sampleMemberPair :=
    ExceptT.ext (by decide)
  have hmsg : (keccak256 (wrapCommitHash
      (calculateProposalHash sampleSealingHeader (some 0)).bytes)).take 1 = [214] := by
    decide +kernel
  have hvalid : ∀ p ∈ [(bytesToAddress [2], [8, 214]), (bytesToAddress [1], [7, 214])],
      IsCommittedSeal sampleSigns sampleSealingSigner.keyManager sampleMemberPair
        (keccak256 (wrapCommitHash (calculateProposalHash sampleSealingHeader (some 0)).bytes)) p := by
    intro p hp
    simp only [List.mem_cons, List.not_mem_nil, or_false] at hp
    rcases hp with rfl | rfl
    · exact ⟨1, [8], by decide, rfl, by rw [sampleSigns, hmsg]; rfl⟩
    · exact ⟨0, [7], by decide, rfl, by rw [sampleSigns, hmsg]; rfl⟩
  exact ⟨hquorum.1 zeroHash _ sampleMemberPair 2 (fun _ => by decide) (by decide +kernel),
    hquorum.2 sampleSealingHeader sampleMemberPair 0 _ 2 hV (by decide) (by decide) (by decide)
      hvalid⟩

/-- The verifier checks the signature: a bitmap naming a member whose signature is missing is
refused. -/
example : sampleSealingSigner.verifyCommittedSeals zeroHash (.aggregated (some 3) [1, 8, 110])
    sampleMemberPair 1 = .error errInvalidSignature := by
  decide +kernel

def twiceListedMemberSet : Validators := ⟨.bls, [sampleMember, sampleMember]⟩

/-- A BLS bitmap counts positions: a set listing one validator twice and a bitmap with both bits
passes a quorum of two, although one validator signed. -/
theorem committed_seals_counted_by_position :
    sampleSealingSigner.keyManager.verifyCommittedSeals =
        verifyCommittedSealsOf sampleSealingSigner.keyManager sampleBLSVerifier ∧
      sampleBLSVerifier.Faithful sampleSealingSigner.keyManager sampleSigns ∧
      sampleSealingSigner.verifyCommittedSeals zeroHash (.aggregated (some 3) [1, 7, 110, 7, 110])
        twiceListedMemberSet 2 = .ok () ∧
      ¬∃ signers : List Validator, signers.Nodup ∧ (2 : ℤ) ≤ signers.length ∧
        ∀ v ∈ signers, v ∈ twiceListedMemberSet.validators := by
  refine ⟨rfl, sampleBLSVerifier_faithful, by decide +kernel, ?_⟩
  rintro ⟨signers, hnodup, hlen, hmem⟩
  rcases signers with _ | ⟨a, _ | ⟨b, rest⟩⟩
  · simp at hlen
  · simp at hlen
  · have ha : a = sampleMember := by
      simpa [twiceListedMemberSet] using hmem a List.mem_cons_self
    have hb : b = sampleMember := by
      simpa [twiceListedMemberSet] using hmem b (List.mem_cons_of_mem _ List.mem_cons_self)
    exact (List.nodup_cons.mp hnodup).1 (by simp [ha, hb])

end IbftSigner
