import MindPos.IbftSigner

/-! # Sealing an IBFT header does not change its hash

The header hash is taken over the header as `FilterHeaderForHash` rewrites it: the extra is
written again by `InitIBFTExtra` from the decoded validators and parent's seals only. A header
whose extra `InitIBFTExtra` wrote decodes to a known extra (`Signer.getIBFTExtra_initIbftExtra`);
packing a proposer seal, or committed seals and a round, changes only those fields of it; and
filtering reads nothing else. Decoding changes an aggregated seal without a bitmap, so filtering
is idempotent only when the parent's seals are non-empty above block 1. -/
namespace IbftSnapshot

open RlpEncoding EdgeTypes

/-! ## Validators read back -/


@[simp] theorem Validator.unmarshalRLPFrom_marshalRLPWith (v : Validator) :
    Validator.unmarshalRLPFrom v.type v.marshalRLPWith = .ok v := by
  cases v <;>
    simp [Validator.unmarshalRLPFrom, Validator.marshalRLPWith, Validator.type, newBytes,
      Except.mapError]

theorem Validator.type_of_unmarshalRLPFrom {t : ValidatorType} {v : Value} {x : Validator}
    (h : Validator.unmarshalRLPFrom t v = .ok x) : x.type = t := by
  cases t with
  | ecdsa =>
    obtain ⟨a, -, h⟩ := Except.bind_eq_ok_iff.mp h
    cases h
    rfl
  | bls =>
    obtain ⟨elems, -, h⟩ := Except.bind_eq_ok_iff.mp h
    match elems, h with
    | _ :: _ :: _, h =>
      obtain ⟨a, -, h⟩ := Except.bind_eq_ok_iff.mp h
      obtain ⟨k, -, h⟩ := Except.bind_eq_ok_iff.mp h
      cases h
      rfl

theorem Validators.unmarshalRLPFrom_marshalRLPWith (e V : Validators)
    (hV : ∀ x ∈ V.validators, x.type = e.validatorType) :
    e.unmarshalRLPFrom V.marshalRLPWith = .ok ⟨e.validatorType, V.validators⟩ := by
  have hmapM : (V.validators.map Validator.marshalRLPWith).mapM
      (Validator.unmarshalRLPFrom e.validatorType) = .ok V.validators := by
    rw [mapM_map_ok (h := id) V.validators fun x hx => by
      rw [← hV x hx, Validator.unmarshalRLPFrom_marshalRLPWith, id], List.map_id]
  simp [Validators.unmarshalRLPFrom, Validators.marshalRLPWith, hmapM]

theorem Validators.unmarshalRLPFrom_of_decoded {e V : Validators} {v : Value}
    (h : e.unmarshalRLPFrom v = .ok V) : e.unmarshalRLPFrom V.marshalRLPWith = .ok V := by
  obtain ⟨elems, -, h⟩ := Except.bind_eq_ok_iff.mp h
  obtain ⟨xs, hxs, h⟩ := Except.bind_eq_ok_iff.mp h
  cases h
  exact Validators.unmarshalRLPFrom_marshalRLPWith e _
    (forall_of_mapM_ok (fun _ _ => Validator.type_of_unmarshalRLPFrom) hxs)

end IbftSnapshot

namespace IbftSigner

open RlpEncoding EdgeTypes Keccak IbftSnapshot

/-! ## Seals read back -/

def Seals.type : Seals → ValidatorType
  | .serialized _ => .ecdsa
  | .aggregated _ _ => .bls

def Seals.decoded : Seals → Seals
  | .serialized seals => .serialized seals
  | .aggregated bitmap signature => .aggregated (some (bitmap.getD 0)) signature

def decodedParent (km : KeyManager) : Option Seals → Seals
  | none => km.newEmptyCommittedSeals
  | some p => p.decoded

theorem KeyManager.type_newEmptyCommittedSeals (km : KeyManager) :
    km.newEmptyCommittedSeals.type = km.type := by
  unfold KeyManager.newEmptyCommittedSeals
  cases km.type <;> rfl

theorem KeyManager.type_of_generateCommittedSeals {km : KeyManager}
    {sealMap : List (Address × List UInt8)} {validators : Validators} {committedSeal : Seals}
    (h : km.generateCommittedSeals sealMap validators = .ok committedSeal) :
    committedSeal.type = km.type := by
  unfold KeyManager.generateCommittedSeals at h
  split at h
  · rename_i hkm
    split at h
    · cases h
    · cases h
      exact hkm.symm
  · rename_i hkm
    split at h
    · cases h
    · obtain ⟨⟨blsSignatures, bitMap⟩, -, h⟩ := Except.bind_eq_ok_iff.mp h
      obtain ⟨multiSignatureBytes, -, h⟩ := Except.bind_eq_ok_iff.mp h
      cases h
      exact hkm.symm

@[simp] theorem Seals.type_decoded (p : Seals) : p.decoded.type = p.type := by
  cases p <;> rfl

@[simp] theorem Seals.decoded_decoded (p : Seals) : p.decoded.decoded = p.decoded := by
  cases p <;> rfl

theorem Seals.num_decoded {p : Seals} {n : ℕ} (hn : p.num = some n) : p.decoded.num = some n := by
  cases p with
  | serialized seals => exact hn
  | aggregated bitmap signature => cases bitmap <;> simp_all [Seals.num, Seals.decoded]

theorem type_decodedParent (km : KeyManager) {P : Option Seals}
    (hP : ∀ p, P = some p → p.type = km.type) : (decodedParent km P).type = km.type := by
  cases P with
  | none => exact km.type_newEmptyCommittedSeals
  | some p => exact (p.type_decoded).trans (hP p rfl)

theorem Seals.unmarshalRLPFrom_marshalRLPWith {e : Seals} (p : Seals) (he : e.type = p.type) :
    e.unmarshalRLPFrom p.marshalRLPWith = .ok p.decoded := by
  cases e <;> cases p <;> simp only [Seals.type, reduceCtorEq] at he
  · rename_i seals
    have hseals : (seals.map fun a => if a = [] then newNull else newBytes a).mapM Value.getBytes =
        .ok seals := by
      rw [mapM_map_ok (h := id) seals fun a _ => getBytes_nullOrBytes a, List.map_id]
    by_cases hnil : seals = []
    · simp [Seals.unmarshalRLPFrom, Seals.marshalRLPWith, Seals.decoded, hnil, newNullArray]
    · simp [Seals.unmarshalRLPFrom, Seals.marshalRLPWith, Seals.decoded, hnil, hseals]
  · rename_i bitmap signature
    cases bitmap <;>
      simp [Seals.unmarshalRLPFrom, Seals.marshalRLPWith, Seals.decoded]

theorem KeyManager.newEmptyCommittedSeals_unmarshalRLPFrom_null (km : KeyManager) :
    km.newEmptyCommittedSeals.unmarshalRLPFrom newNullArray = .ok km.newEmptyCommittedSeals := by
  unfold KeyManager.newEmptyCommittedSeals
  cases km.type <;> rfl

/-! ## The layout of the extra -/

theorem ofBE_putUint64 (n : UInt64) : UInt64.ofNat (ofBE (putUint64 n)) = n := by
  rw [putUint64, ofBE_rightAlign_toBE (by simpa using n.toNat_lt), UInt64.ofNat_toNat]

theorem parseRound_toRoundBytes (round : UInt64) :
    parseRound (newBytes (toRoundBytes round)) = pure (some round) := by
  have hlen : (putUint64 round).length = 8 := rightAlign_length 8 _
  have hne : putUint64 round ≠ [] := List.ne_nil_of_length_pos (by omega)
  simp [parseRound, toRoundBytes, hlen, hne, ofBE_putUint64]

theorem putIbftExtra_extraData (h : Header) :
    ∃ vanity, vanity.length = istanbulExtraVanity ∧
      ∀ i, (putIbftExtra h i).extraData = vanity ++ encode i.marshalRLPWith := by
  refine ⟨_, ?_, fun _ => rfl⟩
  split_ifs with hlt
  · simp only [List.length_append, List.length_replicate]
    omega
  · simp only [List.length_take]
    omega

theorem putIbftExtra_of_vanity {h : Header} {vanity rest : List UInt8}
    (hvanity : vanity.length = istanbulExtraVanity) (hextra : h.extraData = vanity ++ rest)
    (i : IstanbulExtra) :
    putIbftExtra h i = { h with extraData := vanity ++ encode i.marshalRLPWith } := by
  simp [putIbftExtra, hextra, ← hvanity]

theorem putIbftExtra_putIbftExtra (h : Header) (i i' : IstanbulExtra) :
    putIbftExtra (putIbftExtra h i) i' = putIbftExtra h i' := by
  obtain ⟨vanity, hvanity, hextra⟩ := putIbftExtra_extraData h
  calc putIbftExtra (putIbftExtra h i) i'
      = { h with extraData := vanity ++ encode i'.marshalRLPWith } :=
        putIbftExtra_of_vanity hvanity (hextra i) i'
    _ = { h with extraData := (putIbftExtra h i').extraData } := by rw [hextra i']
    _ = putIbftExtra h i' := rfl

theorem packFieldsIntoExtra_of_elems {vanity : List UInt8}
    (hvanity : vanity.length = istanbulExtraVanity) {elems : List Value} (h3 : 3 ≤ elems.length)
    (packFn : List Value → List Value) :
    packFieldsIntoExtra (vanity ++ encode (.array elems)) packFn =
      vanity ++ encode (.array (packFn elems)) := by
  simp [packFieldsIntoExtra, ← hvanity, parse_encode, not_lt.mpr h3]

theorem packProposerSealIntoExtra_of_elems {vanity : List UInt8}
    (hvanity : vanity.length = istanbulExtraVanity) (a b c d e : Value) (proposerSeal : List UInt8) :
    packProposerSealIntoExtra (vanity ++ encode (.array [a, b, c, d, e])) proposerSeal =
      vanity ++ encode (.array [a, newBytes proposerSeal, c, d, e]) := by
  rw [packProposerSealIntoExtra, packFieldsIntoExtra_of_elems hvanity (by simp)]
  rfl

theorem packCommittedSealsAndRoundNumberIntoExtra_of_elems {vanity : List UInt8}
    (hvanity : vanity.length = istanbulExtraVanity) (a b c d e : Value) (committedSeal : Seals)
    (roundNumber : UInt64) :
    packCommittedSealsAndRoundNumberIntoExtra (vanity ++ encode (.array [a, b, c, d, e]))
        committedSeal (some roundNumber) =
      vanity ++ encode (.array [a, b, committedSeal.marshalRLPWith, d,
        newBytes (toRoundBytes roundNumber)]) := by
  rw [packCommittedSealsAndRoundNumberIntoExtra, packFieldsIntoExtra_of_elems hvanity (by simp)]
  rfl

@[simp] theorem Signer.initIbftExtra_number (s : Signer) (h : Header) (V : Validators)
    (P : Option Seals) : (s.initIbftExtra h V P).number = h.number := rfl

theorem Signer.initIbftExtra_extraData (s : Signer) (h0 : Header) (V : Validators)
    {P : Option Seals} (hP : ∀ p, P = some p → p.type = s.parentKeyManager.type) :
    ∃ vanity parentV, vanity.length = istanbulExtraVanity ∧
      (s.initIbftExtra h0 V P).extraData = vanity ++ encode (.array [V.marshalRLPWith, newNull,
        s.keyManager.newEmptyCommittedSeals.marshalRLPWith, parentV, newNull]) ∧
      s.parentKeyManager.newEmptyCommittedSeals.unmarshalRLPFrom parentV =
        .ok (decodedParent s.parentKeyManager P) := by
  obtain ⟨vanity, hvanity, hextra⟩ := putIbftExtra_extraData h0
  cases P with
  | none =>
    exact ⟨vanity, _, hvanity, hextra _, KeyManager.newEmptyCommittedSeals_unmarshalRLPFrom_null _⟩
  | some p =>
    exact ⟨vanity, _, hvanity, hextra _, Seals.unmarshalRLPFrom_marshalRLPWith p
      (by rw [KeyManager.type_newEmptyCommittedSeals, hP p rfl])⟩

theorem Signer.initIbftExtra_of_vanity (s : Signer) {h : Header} {vanity rest rest' : List UInt8}
    (hvanity : vanity.length = istanbulExtraVanity) (hextra : h.extraData = vanity ++ rest)
    (V : Validators) (P : Option Seals) :
    s.initIbftExtra { h with extraData := vanity ++ rest' } V P = s.initIbftExtra h V P := by
  rw [Signer.initIbftExtra, Signer.initIbftExtra, putIbftExtra_of_vanity hvanity rfl,
    putIbftExtra_of_vanity hvanity hextra]

/-! ## Decoding what InitIBFTExtra and the packing functions write -/

theorem Signer.getIBFTExtra_withHash (s : Signer) (h : Header) (hash : Hash) :
    s.getIBFTExtra { h with hash := hash } = s.getIBFTExtra h := rfl

theorem Signer.getIBFTExtra_of_elems (s : Signer) {h : Header} {vanity : List UInt8}
    (hvanity : vanity.length = istanbulExtraVanity)
    {validatorsV proposerSealV committedSealsV parentV roundV : Value}
    (hextra : h.extraData = vanity ++
      encode (.array [validatorsV, proposerSealV, committedSealsV, parentV, roundV]))
    {proposerSeal : List UInt8} {committedSeals parent : Seals} {round : Option UInt64}
    (hseal : proposerSealV.getBytes = .ok proposerSeal)
    (hcommitted : s.keyManager.newEmptyCommittedSeals.unmarshalRLPFrom committedSealsV =
      .ok committedSeals)
    (hparent : s.parentKeyManager.newEmptyCommittedSeals.unmarshalRLPFrom parentV = .ok parent)
    (hround : parseRound roundV = pure round) :
    s.getIBFTExtra h = (fun validators => ⟨validators, proposerSeal, committedSeals,
      if h.number > 1 then some parent else none, round⟩) <$>
      (s.keyManager.newEmptyValidators.unmarshalRLPFrom validatorsV :
        ExceptT String Option Validators) := by
  have hsize : verifyIBFTExtraSize h = .ok () := by
    simp [verifyIBFTExtraSize, hextra, hvanity]
  have hbody : h.extraData.drop istanbulExtraVanity =
      encode (.array [validatorsV, proposerSealV, committedSealsV, parentV, roundV]) := by
    rw [hextra, ← hvanity, List.drop_left]
  rw [Signer.getIBFTExtra, hsize, lift_ok_bind, IstanbulExtra.unmarshalRLP, hbody, parse_encode,
    lift_ok_bind]
  cases hv : s.keyManager.newEmptyValidators.unmarshalRLPFrom validatorsV with
  | error err =>
    simp only [IstanbulExtra.unmarshalRLPFrom, getElems_array, Signer.emptyExtra, liftM_map,
      bind_pure_comp, map_pure, bind_map_left, pure_bind, lift_ok_bind, hv, lift_error_bind,
      map_lift_error]
  | ok validators =>
    by_cases hn : h.number > 1 <;>
      simp only [IstanbulExtra.unmarshalRLPFrom, getElems_array, Signer.emptyExtra, hn, ↓reduceIte,
        liftM_map, bind_pure_comp, map_pure, bind_map_left, pure_bind, lift_ok_bind, hv, hseal,
        Except.mapError_ok, hcommitted, hparent, hround, map_lift_ok]

section InitIbftExtra

variable (s : Signer) (h0 : Header) (V : Validators) {P : Option Seals}
  (hP : ∀ p, P = some p → p.type = s.parentKeyManager.type)
include hP

theorem Signer.getIBFTExtra_initIbftExtra :
    s.getIBFTExtra (s.initIbftExtra h0 V P) = (fun validators => ⟨validators, [],
      s.keyManager.newEmptyCommittedSeals.decoded,
      if h0.number > 1 then some (decodedParent s.parentKeyManager P) else none, none⟩) <$>
      (s.keyManager.newEmptyValidators.unmarshalRLPFrom V.marshalRLPWith :
        ExceptT String Option Validators) := by
  obtain ⟨vanity, parentV, hvanity, hextra, hparent⟩ := s.initIbftExtra_extraData h0 V hP
  exact s.getIBFTExtra_of_elems hvanity hextra rfl
    (Seals.unmarshalRLPFrom_marshalRLPWith _ rfl) hparent rfl

theorem Signer.getIBFTExtra_packProposerSealIntoExtra (proposerSeal : List UInt8) :
    s.getIBFTExtra { (s.initIbftExtra h0 V P) with
      extraData := packProposerSealIntoExtra (s.initIbftExtra h0 V P).extraData proposerSeal } =
      (fun extra => { extra with proposerSeal := proposerSeal }) <$>
        s.getIBFTExtra (s.initIbftExtra h0 V P) := by
  obtain ⟨vanity, parentV, hvanity, hextra, hparent⟩ := s.initIbftExtra_extraData h0 V hP
  rw [s.getIBFTExtra_initIbftExtra h0 V hP, Functor.map_map]
  exact s.getIBFTExtra_of_elems hvanity
    (by rw [hextra, packProposerSealIntoExtra_of_elems hvanity]) (getBytes_newBytes _)
    (Seals.unmarshalRLPFrom_marshalRLPWith _ rfl) hparent rfl

theorem Signer.getIBFTExtra_packCommittedSealsAndRoundNumberIntoExtra {committedSeal : Seals}
    (htype : committedSeal.type = s.keyManager.type) (roundNumber : UInt64) :
    s.getIBFTExtra { (s.initIbftExtra h0 V P) with
      extraData := packCommittedSealsAndRoundNumberIntoExtra (s.initIbftExtra h0 V P).extraData
        committedSeal (some roundNumber) } =
      (fun extra => { extra with
        committedSeals := committedSeal.decoded
        roundNumber := some roundNumber }) <$> s.getIBFTExtra (s.initIbftExtra h0 V P) := by
  obtain ⟨vanity, parentV, hvanity, hextra, hparent⟩ := s.initIbftExtra_extraData h0 V hP
  rw [s.getIBFTExtra_initIbftExtra h0 V hP, Functor.map_map]
  exact s.getIBFTExtra_of_elems hvanity
    (by rw [hextra, packCommittedSealsAndRoundNumberIntoExtra_of_elems hvanity]) rfl
    (Seals.unmarshalRLPFrom_marshalRLPWith _ (by rw [KeyManager.type_newEmptyCommittedSeals, htype]))
    hparent (parseRound_toRoundBytes roundNumber)

end InitIbftExtra

/-! ## Filtering and the header hash -/

theorem Signer.filterHeaderForHash_congr (s : Signer) {h h' : Header}
    {f : IstanbulExtra → IstanbulExtra} (hextra : s.getIBFTExtra h' = f <$> s.getIBFTExtra h)
    (hf : ∀ x, (f x).validators = x.validators ∧
      (f x).parentCommittedSeals = x.parentCommittedSeals)
    (hinit : ∀ V P, s.initIbftExtra h' V P = s.initIbftExtra h V P) :
    s.filterHeaderForHash h' = s.filterHeaderForHash h := by
  simp only [Signer.filterHeaderForHash, hextra, bind_map_left, (hf _).1, (hf _).2, hinit]

theorem keptParentCommittedSeals_of_num {p : Seals} {n : ℕ} (hn : p.num = some n) (hpos : 0 < n) :
    keptParentCommittedSeals (some p) = pure (some p) := by
  simp [keptParentCommittedSeals, hn, ExceptT.lift, hpos.ne']
  rfl

section Nonempty

variable (km : KeyManager) {number : UInt64} {P : Option Seals}
  (hnonempty : 1 < number → ∃ p n, P = some p ∧ p.num = some n ∧ 0 < n)
include hnonempty

theorem keptParentCommittedSeals_decodedParent :
    keptParentCommittedSeals (if number > 1 then some (decodedParent km P) else none) =
      pure (if number > 1 then some (decodedParent km P) else none) := by
  split_ifs with hn
  · obtain ⟨p, n, rfl, hnum, hpos⟩ := hnonempty hn
    exact keptParentCommittedSeals_of_num (Seals.num_decoded hnum) hpos
  · rfl

theorem decodedParent_decodedParent :
    (if number > 1 then
        some (decodedParent km (if number > 1 then some (decodedParent km P) else none))
      else none) = if number > 1 then some (decodedParent km P) else none := by
  split_ifs with hn
  · obtain ⟨p, n, rfl, -, -⟩ := hnonempty hn
    simp [decodedParent]
  · rfl

end Nonempty

section Hash

variable (s : Signer) (h0 : Header) (V : Validators) {P : Option Seals}
  (hP : ∀ p, P = some p → p.type = s.parentKeyManager.type)
include hP

theorem Signer.calculateHeaderHash_packProposerSealIntoExtra (proposerSeal : List UInt8) :
    s.calculateHeaderHash { (s.initIbftExtra h0 V P) with
      extraData := packProposerSealIntoExtra (s.initIbftExtra h0 V P).extraData proposerSeal } =
      s.calculateHeaderHash (s.initIbftExtra h0 V P) := by
  obtain ⟨vanity, parentV, hvanity, hextra, -⟩ := s.initIbftExtra_extraData h0 V hP
  have hfilter := s.filterHeaderForHash_congr
    (s.getIBFTExtra_packProposerSealIntoExtra h0 V hP proposerSeal) (fun _ => ⟨rfl, rfl⟩)
    fun V' P' => by
      rw [hextra, packProposerSealIntoExtra_of_elems hvanity]
      exact s.initIbftExtra_of_vanity hvanity hextra V' P'
  rw [Signer.calculateHeaderHash, Signer.calculateHeaderHash, hfilter]

theorem Signer.calculateHeaderHash_packCommittedSealsAndRoundNumberIntoExtra
    {committedSeal : Seals} (htype : committedSeal.type = s.keyManager.type)
    (roundNumber : UInt64) :
    s.calculateHeaderHash { (s.initIbftExtra h0 V P) with
      extraData := packCommittedSealsAndRoundNumberIntoExtra (s.initIbftExtra h0 V P).extraData
        committedSeal (some roundNumber) } =
      s.calculateHeaderHash (s.initIbftExtra h0 V P) := by
  obtain ⟨vanity, parentV, hvanity, hextra, -⟩ := s.initIbftExtra_extraData h0 V hP
  have hfilter := s.filterHeaderForHash_congr
    (s.getIBFTExtra_packCommittedSealsAndRoundNumberIntoExtra h0 V hP htype roundNumber)
    (fun _ => ⟨rfl, rfl⟩) fun V' P' => by
      rw [hextra, packCommittedSealsAndRoundNumberIntoExtra_of_elems hvanity]
      exact s.initIbftExtra_of_vanity hvanity hextra V' P'
  rw [Signer.calculateHeaderHash, Signer.calculateHeaderHash, hfilter]

theorem Signer.calculateHeaderHash_writeCommittedSeals {roundNumber : UInt64}
    {sealMap : List (Address × List UInt8)} {committed : Header}
    (hwrite : s.writeCommittedSeals (s.initIbftExtra h0 V P) roundNumber sealMap = pure committed) :
    s.calculateHeaderHash committed = s.calculateHeaderHash (s.initIbftExtra h0 V P) := by
  rw [Signer.writeCommittedSeals] at hwrite
  split at hwrite
  · exact nomatch hwrite
  · obtain ⟨validators, -, hwrite⟩ := bind_eq_pure_iff.mp hwrite
    obtain ⟨committedSeal, hseals, hwrite⟩ := lift_bind_eq_pure_iff.mp hwrite
    obtain rfl := decode_pure_inj hwrite
    exact s.calculateHeaderHash_packCommittedSealsAndRoundNumberIntoExtra h0 V hP
      (KeyManager.type_of_generateCommittedSeals hseals) roundNumber

theorem Signer.filterHeaderForHash_initIbftExtra
    (hnonempty : 1 < h0.number → ∃ p n, P = some p ∧ p.num = some n ∧ 0 < n) :
    s.filterHeaderForHash (s.initIbftExtra h0 V P) = (fun validators =>
      s.initIbftExtra (s.initIbftExtra h0 V P) validators
        (if h0.number > 1 then some (decodedParent s.parentKeyManager P) else none)) <$>
      (s.keyManager.newEmptyValidators.unmarshalRLPFrom V.marshalRLPWith :
        ExceptT String Option Validators) := by
  rw [Signer.filterHeaderForHash, s.getIBFTExtra_initIbftExtra h0 V hP, bind_map_left]
  simp only [keptParentCommittedSeals_decodedParent _ hnonempty, pure_bind]
  exact bind_pure_comp _ _

theorem Signer.filterHeaderForHash_filterHeaderForHash
    (hnonempty : 1 < h0.number → ∃ p n, P = some p ∧ p.num = some n ∧ 0 < n) :
    (s.filterHeaderForHash (s.initIbftExtra h0 V P) >>= s.filterHeaderForHash) =
      s.filterHeaderForHash (s.initIbftExtra h0 V P) := by
  rw [s.filterHeaderForHash_initIbftExtra h0 V hP hnonempty]
  cases hV : s.keyManager.newEmptyValidators.unmarshalRLPFrom V.marshalRLPWith with
  | error e => rfl
  | ok W =>
    have hpar : ∀ p, (if h0.number > 1 then some (decodedParent s.parentKeyManager P) else none) =
        some p → p.type = s.parentKeyManager.type := by
      intro p hp
      split_ifs at hp
      cases hp
      exact type_decodedParent _ hP
    have hnonempty' : 1 < h0.number → ∃ p n,
        (if h0.number > 1 then some (decodedParent s.parentKeyManager P) else none) = some p ∧
          p.num = some n ∧ 0 < n := by
      intro hn
      obtain ⟨p, n, rfl, hnum, hpos⟩ := hnonempty hn
      exact ⟨p.decoded, n, if_pos hn, Seals.num_decoded hnum, hpos⟩
    rw [map_lift_ok, pure_bind,
      s.filterHeaderForHash_initIbftExtra (s.initIbftExtra h0 V P) W hpar hnonempty',
      Validators.unmarshalRLPFrom_of_decoded hV, map_lift_ok, Signer.initIbftExtra_number,
      decodedParent_decodedParent _ hnonempty]
    simp only [Signer.initIbftExtra, putIbftExtra_putIbftExtra]

theorem Signer.calculateHeaderHash_filterHeaderForHash
    (hnonempty : 1 < h0.number → ∃ p n, P = some p ∧ p.num = some n ∧ 0 < n) :
    (s.filterHeaderForHash (s.initIbftExtra h0 V P) >>= s.calculateHeaderHash) =
      s.calculateHeaderHash (s.initIbftExtra h0 V P) := by
  have hcalc : s.calculateHeaderHash = fun header => s.filterHeaderForHash header >>=
      fun filteredHeader => pure (IbftSigner.calculateHeaderHash filteredHeader) := rfl
  rw [hcalc, ← bind_assoc, s.filterHeaderForHash_filterHeaderForHash h0 V hP hnonempty]

theorem Signer.ecrecoverFromHeader_writeProposerSeal
    (hinv : ∀ msg sig, s.keyManager.signProposerSeal msg = .ok sig →
      s.keyManager.ecrecover sig msg = .ok s.keyManager.address)
    {sealed : Header} {hash : Hash}
    (hwrite : s.writeProposerSeal (s.initIbftExtra h0 V P) = pure sealed)
    (hhash : s.calculateHeaderHash sealed = pure hash) :
    s.ecrecoverFromHeader { sealed with hash := hash } = pure s.keyManager.address := by
  obtain ⟨hash0, hcalc, hwrite⟩ := bind_eq_pure_iff.mp hwrite
  obtain ⟨proposerSeal, hsign, hwrite⟩ := lift_bind_eq_pure_iff.mp hwrite
  obtain rfl := decode_pure_inj hwrite
  rw [s.calculateHeaderHash_packProposerSealIntoExtra h0 V hP, hcalc] at hhash
  obtain rfl := decode_pure_inj hhash
  obtain ⟨filtered, hfilter, -⟩ := bind_eq_pure_iff.mp hcalc
  obtain ⟨extra, hextra, -⟩ := bind_eq_pure_iff.mp hfilter
  have hsealed := s.getIBFTExtra_packProposerSealIntoExtra h0 V hP proposerSeal
  rw [hextra] at hsealed
  rw [Signer.ecrecoverFromHeader, Signer.getIBFTExtra_withHash, hsealed, map_pure, pure_bind,
    hinv _ _ hsign]
  rfl

end Hash

theorem ibft_header_hash_ignores_seals (s : Signer) (h0 : Header) (V : Validators)
    (P : Option Seals) (hP : ∀ p, P = some p → p.type = s.parentKeyManager.type)
    (hnonempty : 1 < h0.number → ∃ p n, P = some p ∧ p.num = some n ∧ 0 < n) :
    let h := s.initIbftExtra h0 V P
    (∀ proposerSeal, s.calculateHeaderHash
        { h with extraData := packProposerSealIntoExtra h.extraData proposerSeal } =
      s.calculateHeaderHash h) ∧
    (∀ sealMap validators committedSeal roundNumber,
      s.keyManager.generateCommittedSeals sealMap validators = .ok committedSeal →
      s.calculateHeaderHash { h with
          extraData := packCommittedSealsAndRoundNumberIntoExtra h.extraData committedSeal
            (some roundNumber) } =
        s.calculateHeaderHash h) ∧
    (s.filterHeaderForHash h >>= s.calculateHeaderHash) = s.calculateHeaderHash h ∧
    ((∀ msg sig, s.keyManager.signProposerSeal msg = .ok sig →
        s.keyManager.ecrecover sig msg = .ok s.keyManager.address) →
      ∀ sealed hash, s.writeProposerSeal h = pure sealed →
        s.calculateHeaderHash sealed = pure hash →
        s.ecrecoverFromHeader { sealed with hash := hash } = pure s.keyManager.address) := by
  intro h
  refine ⟨s.calculateHeaderHash_packProposerSealIntoExtra h0 V hP, ?_,
    s.calculateHeaderHash_filterHeaderForHash h0 V hP hnonempty, ?_⟩
  · intro sealMap validators committedSeal roundNumber hseals
    exact s.calculateHeaderHash_packCommittedSealsAndRoundNumberIntoExtra h0 V hP
      (KeyManager.type_of_generateCommittedSeals hseals) roundNumber
  · intro hinv sealed hash hwrite hhash
    exact s.ecrecoverFromHeader_writeProposerSeal h0 V hP hinv hwrite hhash

def blsBlockTwo : Header := { sampleHeader with number := 2 }

def blsValidatorPair : Validators :=
  ⟨.bls, [.bls (bytesToAddress [1]) [7], .bls (bytesToAddress [2]) [8]]⟩

def blsParentSeals : Seals := .aggregated (some 3) [9, 9, 9]

theorem ibft_header_hash_ignores_seals_of_bls :
    (∀ p, some blsParentSeals = some p → p.type = blsSigner.parentKeyManager.type) ∧
    (1 < blsBlockTwo.number → ∃ p n, some blsParentSeals = some p ∧ p.num = some n ∧ 0 < n) ∧
    let h := blsSigner.initIbftExtra blsBlockTwo blsValidatorPair (some blsParentSeals)
    (∀ proposerSeal, blsSigner.calculateHeaderHash
        { h with extraData := packProposerSealIntoExtra h.extraData proposerSeal } =
      blsSigner.calculateHeaderHash h) ∧
    (∀ sealMap validators committedSeal roundNumber,
      blsSigner.keyManager.generateCommittedSeals sealMap validators = .ok committedSeal →
      blsSigner.calculateHeaderHash { h with
          extraData := packCommittedSealsAndRoundNumberIntoExtra h.extraData committedSeal
            (some roundNumber) } =
        blsSigner.calculateHeaderHash h) ∧
    (blsSigner.filterHeaderForHash h >>= blsSigner.calculateHeaderHash) =
      blsSigner.calculateHeaderHash h ∧
    ((∀ msg sig, blsSigner.keyManager.signProposerSeal msg = .ok sig →
        blsSigner.keyManager.ecrecover sig msg = .ok blsSigner.keyManager.address) →
      ∀ sealed hash, blsSigner.writeProposerSeal h = pure sealed →
        blsSigner.calculateHeaderHash sealed = pure hash →
        blsSigner.ecrecoverFromHeader { sealed with hash := hash } =
          pure blsSigner.keyManager.address) := by
  have hP : ∀ p, some blsParentSeals = some p → p.type = blsSigner.parentKeyManager.type := by
    rintro p ⟨⟩
    rfl
  have hnonempty : 1 < blsBlockTwo.number →
      ∃ p n, some blsParentSeals = some p ∧ p.num = some n ∧ 0 < n := fun _ =>
    ⟨_, 2, rfl, by decide, by decide⟩
  exact ⟨hP, hnonempty, ibft_header_hash_ignores_seals blsSigner blsBlockTwo blsValidatorPair _ hP
    hnonempty⟩

end IbftSigner
