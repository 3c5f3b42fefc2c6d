import Mathlib
import MindPos.IbftSnapshot
import MindPos.TypesRlp

/-! # The IBFT signer: extra data, seals and the header hash

`consensus/ibft/signer`. The extra of an IBFT header is its vanity bytes followed by the RLP of
the validators, the proposer seal, the committed seals, the parent's committed seals and the
round. The header hash is taken over the header with the seals and the round removed from the
extra (`FilterHeaderForHash`), so sealing a header does not change its hash. The seals are those
of a key manager: a list of ECDSA signatures, or an aggregated BLS signature with a bitmap of its
signers that is nil until one is decoded. Two reads of the decoder panic, `none` below:
`BitLen` of a nil bitmap, and `binary.BigEndian.Uint64` of a round shorter than eight bytes.
The cryptography of a key manager is a parameter. -/
namespace IbftSnapshot

open RlpEncoding EdgeTypes

/-! ## The RLP of validators -/

def Validator.marshalRLPWith : Validator → Value
  | .ecdsa address => newBytes address.bytes
  | .bls address blsPublicKey => .array [newBytes address.bytes, newBytes blsPublicKey]

/-- `ECDSAValidator.UnmarshalRLPFrom` and `BLSValidator.UnmarshalRLPFrom`, chosen by the type of
the set: `NewValidatorFromType`. -/
def Validator.unmarshalRLPFrom (validatorType : ValidatorType) (v : Value) :
    Except String Validator :=
  match validatorType with
  | .ecdsa => do
    let address ← v.getAddr
    pure (.ecdsa address)
  | .bls => do
    let elems ← v.getElems
    match elems with
    | addressV :: blsPublicKeyV :: _ =>
      let address ← (Value.getAddr addressV).mapError ("failed to decode Address: " ++ ·)
      let blsPublicKey ← blsPublicKeyV.getBytes.mapError ("failed to decode BLSPublicKey: " ++ ·)
      pure (.bls address blsPublicKey)
    | _ => .error ("incorrect number of elements to decode BLSValidator, expected 2 but found " ++
        toString elems.length)

theorem blsValidatorFromBytes_eq (input : List UInt8) :
    blsValidatorFromBytes input = (do
      let v ← parse input
      Validator.unmarshalRLPFrom .bls v) := rfl

def Validators.marshalRLPWith (s : Validators) : Value :=
  .array (s.validators.map Validator.marshalRLPWith)

def Validators.unmarshalRLPFrom (s : Validators) (v : Value) : Except String Validators := do
  let elems ← v.getElems
  let validators ← elems.mapM (Validator.unmarshalRLPFrom s.validatorType)
  pure ⟨s.validatorType, validators⟩

end IbftSnapshot

namespace IbftSigner

open RlpEncoding EdgeTypes Keccak IbftSnapshot

/-! ## Seals -/

/-- `Seals`: the `SerializedSeal` of ECDSA, or the `AggregatedSeal` of BLS, whose bitmap is a
pointer to a big integer. A nil signature and an empty one are the same list here. -/
inductive Seals
  | serialized (seals : List (List UInt8))
  | aggregated (bitmap : Option ℕ) (signature : List UInt8)
  deriving DecidableEq

/-- `Num`: the number of seals, or of the bits of the bitmap; `none` is `BitLen` of nil. -/
def Seals.num : Seals → Option ℕ
  | .serialized seals => some seals.length
  | .aggregated none _ => none
  | .aggregated (some bitmap) _ => some bitmap.size

def Seals.marshalRLPWith : Seals → Value
  | .serialized seals =>
    if seals = [] then newNullArray
    else .array (seals.map fun a => if a = [] then newNull else newBytes a)
  | .aggregated bitmap signature =>
    .array [(match bitmap with
        | none => newNull
        | some bitmap => newBytes (toBE bitmap)),
      if signature = [] then newNull else newBytes signature]

/-- `UnmarshalRLPFrom` into the seals of the receiver's type. An aggregated seal read from an
empty list keeps its fields. -/
def Seals.unmarshalRLPFrom (s : Seals) (v : Value) : Except String Seals :=
  match s with
  | .serialized _ => do
    let vals ← v.getElems.mapError fun _ =>
      "mismatch of RLP type for CommittedSeal, expected list but found bytes"
    let seals ← vals.mapM Value.getBytes
    pure (.serialized seals)
  | .aggregated bitmap signature => do
    let vals ← v.getElems.mapError fun _ =>
      "mismatch of RLP type for CommittedSeal, expected list but found bytes"
    match vals with
    | [] => pure (.aggregated bitmap signature)
    | [_] => throw "mismatch of RLP type for AggregatedCommittedSeal"
    | bitmapV :: signatureV :: _ =>
      let rawBitMap ← bitmapV.getBytes
      let signature ← signatureV.getBytes
      pure (.aggregated (some (ofBE rawBitMap)) signature)

/-! ## Key managers -/

/-- A key manager as the signer uses it: its type and address, and its cryptography. -/
structure KeyManager where
  type : ValidatorType
  address : Address
  /-- `SignProposerSeal`: `crypto.Sign` with the ECDSA key. -/
  signProposerSeal : List UInt8 → Except String (List UInt8)
  /-- `Ecrecover` of a signature and a digest. -/
  ecrecover : List UInt8 → List UInt8 → Except String Address
  /-- `bls_sig.Signature.UnmarshalBinary`. -/
  unmarshalBLSSignature : List UInt8 → Except String (List UInt8)
  /-- `AggregateSignatures` followed by `MarshalBinary`. -/
  aggregateBLSSignatures : List (List UInt8) → Except String (List UInt8)
  /-- `VerifyCommittedSeals`: the number of valid seals for a digest and a validator set. -/
  verifyCommittedSeals : Seals → List UInt8 → Validators → Except String ℕ

def KeyManager.newEmptyValidators (km : KeyManager) : Validators := ⟨km.type, []⟩

def KeyManager.newEmptyCommittedSeals (km : KeyManager) : Seals :=
  match km.type with
  | .ecdsa => .serialized []
  | .bls => .aggregated none []

def istanbulExtraSeal : ℕ := 65

def errInvalidCommittedSealLength : String := "invalid committed seal length"

def errInvalidValidators : String := "invalid validators type"

def errNonValidatorCommittedSeal : String := "found committed seal signed by non validator"

/-- `getBLSSignatures`: each seal's signer sets its bit of the bitmap. -/
def getBLSSignatures (km : KeyManager) (validators : Validators) :
    List (Address × List UInt8) → Except String (List (List UInt8) × ℕ)
  | [] => pure ([], 0)
  | (addr, committedSeal) :: sealMap => do
    let index ← match validators.index addr with
      | some index => pure index
      | none => throw errNonValidatorCommittedSeal
    let bsig ← km.unmarshalBLSSignature committedSeal
    let (blsSignatures, bitMap) ← getBLSSignatures km validators sealMap
    pure (bsig :: blsSignatures, bitMap ||| 2 ^ index)

/-- `GenerateCommittedSeals`; the seal map is a list in the order the map is ranged over. -/
def KeyManager.generateCommittedSeals (km : KeyManager) (sealMap : List (Address × List UInt8))
    (validators : Validators) : Except String Seals :=
  match km.type with
  | .ecdsa =>
    if sealMap.any fun (_, committedSeal) => committedSeal.length ≠ istanbulExtraSeal then
      throw errInvalidCommittedSealLength
    else pure (.serialized (sealMap.map Prod.snd))
  | .bls => do
    if validators.validatorType ≠ km.type then throw errInvalidValidators
    let (blsSignatures, bitMap) ← getBLSSignatures km validators sealMap
    let multiSignatureBytes ← km.aggregateBLSSignatures blsSignatures
    pure (.aggregated (some bitMap) multiSignatureBytes)

/-! ## The extra -/

/-- `IstanbulExtra`; the parent's seals and the round are pointers that may be nil. -/
structure IstanbulExtra where
  validators : Validators
  proposerSeal : List UInt8
  committedSeals : Seals
  parentCommittedSeals : Option Seals
  roundNumber : Option UInt64
  deriving DecidableEq

def istanbulExtraVanity : ℕ := 32

def errRoundNumberOverflow : String := "round number is out of range for 64bit"

/-- `toRoundBytes`: eight big-endian bytes. -/
def toRoundBytes (round : UInt64) : List UInt8 := putUint64 round

def IstanbulExtra.marshalRLPWith (i : IstanbulExtra) : Value :=
  .array [i.validators.marshalRLPWith,
    if i.proposerSeal = [] then newNull else newBytes i.proposerSeal,
    i.committedSeals.marshalRLPWith,
    (match i.parentCommittedSeals with
      | none => newNullArray
      | some parentCommittedSeals => parentCommittedSeals.marshalRLPWith),
    match i.roundNumber with
    | none => newNull
    | some roundNumber => newBytes (toRoundBytes roundNumber)]

/-- `parseRound`; `binary.BigEndian.Uint64` reads eight bytes and panics on fewer. -/
def parseRound (v : Value) : ExceptT String Option (Option UInt64) := do
  let roundBytes ← v.getBytes
  if roundBytes.length > 8 then throw errRoundNumberOverflow
  else if roundBytes.length = 0 then pure none
  else if roundBytes.length < 8 then EdgeTypes.indexOutOfRange
  else pure (some (UInt64.ofNat (ofBE roundBytes)))

/-- `UnmarshalRLPFrom` into the receiver: its validator set and seals give the types, and the
parent's seals are read only when the receiver has them. -/
def IstanbulExtra.unmarshalRLPFrom (i : IstanbulExtra) (v : Value) :
    ExceptT String Option IstanbulExtra := do
  let elems ← v.getElems
  match elems with
  | validatorsV :: proposerSealV :: committedSealsV :: rest =>
    let validators ← i.validators.unmarshalRLPFrom validatorsV
    let proposerSeal ← proposerSealV.getBytes.mapError ("failed to decode Seal: " ++ ·)
    let committedSeals ← i.committedSeals.unmarshalRLPFrom committedSealsV
    let parentCommittedSeals ← match rest, i.parentCommittedSeals with
      | parentV :: _, some parentCommittedSeals =>
        (some <$> parentCommittedSeals.unmarshalRLPFrom parentV : Except String _)
      | _, parentCommittedSeals => pure parentCommittedSeals
    let roundNumber ← match rest with
      | _ :: roundV :: _ => parseRound roundV
      | _ => pure i.roundNumber
    pure ⟨validators, proposerSeal, committedSeals, parentCommittedSeals, roundNumber⟩
  | _ => throw ("incorrect number of elements to decode istambul extra, expected 3 but found " ++
      toString elems.length)

def IstanbulExtra.unmarshalRLP (i : IstanbulExtra) (input : List UInt8) :
    ExceptT String Option IstanbulExtra := do
  let v ← parse input
  i.unmarshalRLPFrom v

/-- `unmarshalRLPFromForParentCS`: only the parent's seals, and the round, which is dropped. -/
def unmarshalRLPFromForParentCS (parentCommittedSeals : Seals) (v : Value) :
    ExceptT String Option Seals := do
  let elems ← v.getElems
  let parentCommittedSeals ← match elems with
    | _ :: _ :: _ :: parentV :: _ =>
      (parentCommittedSeals.unmarshalRLPFrom parentV : Except String _)
    | _ => pure parentCommittedSeals
  let _ ← match elems with
    | _ :: _ :: _ :: _ :: roundV :: _ => parseRound roundV
    | _ => pure none
  pure parentCommittedSeals

/-- `putIbftExtra`: the vanity is cut or padded to 32 bytes and the extra follows it. -/
def putIbftExtra (h : Header) (istanbulExtra : IstanbulExtra) : Header :=
  let extra := if h.extraData.length < istanbulExtraVanity then
      h.extraData ++ List.replicate (istanbulExtraVanity - h.extraData.length) 0
    else h.extraData.take istanbulExtraVanity
  { h with extraData := extra ++ encode istanbulExtra.marshalRLPWith }

/-- `packFieldsIntoExtra`: the elements of the extra are rewritten by `packFn`; a body that is not
a list of at least three elements is written as the empty list. -/
def packFieldsIntoExtra (extraBytes : List UInt8) (packFn : List Value → List Value) :
    List UInt8 :=
  let extraHeader := extraBytes.take istanbulExtraVanity
  let extraBody := extraBytes.drop istanbulExtraVanity
  let newElems := match parse extraBody with
    | .ok v => match v.getElems with
      | .ok elems => if elems.length < 3 then [] else packFn elems
      | .error _ => []
    | .error _ => []
  extraHeader ++ encode (.array newElems)

def packProposerSealIntoExtra (extraBytes proposerSeal : List UInt8) : List UInt8 :=
  packFieldsIntoExtra extraBytes fun oldValues =>
    [oldValues.getD 0 newNull, newBytes proposerSeal, oldValues.getD 2 newNull] ++
      (oldValues.drop 3).take 2

def packCommittedSealsAndRoundNumberIntoExtra (extraBytes : List UInt8) (committedSeal : Seals)
    (roundNumber : Option UInt64) : List UInt8 :=
  packFieldsIntoExtra extraBytes fun oldValues =>
    [oldValues.getD 0 newNull, oldValues.getD 1 newNull, committedSeal.marshalRLPWith,
      oldValues.getD 3 newNullArray,
      match roundNumber with
      | none => newNull
      | some roundNumber => newBytes (toRoundBytes roundNumber)]

/-- `calculateHeaderHash`: keccak of the RLP of the header's fields up to the extra. -/
def calculateHeaderHash (h : Header) : Hash :=
  bytesToHash (keccak256 (encode (.array [newBytes h.parentHash.bytes,
    newBytes h.sha3Uncles.bytes, newBytes h.miner, newBytes h.stateRoot.bytes,
    newBytes h.txRoot.bytes, newBytes h.receiptsRoot.bytes, newBytes h.logsBloom,
    newUint h.difficulty, newUint h.number, newUint h.gasLimit, newUint h.gasUsed,
    newUint h.timestamp, newBytes h.extraData])))

/-- `wrapCommitHash`: keccak of the data and the legacy commit code. -/
def wrapCommitHash (data : List UInt8) : List UInt8 := keccak256 (data ++ [2])

/-! ## The signer -/

structure Signer where
  keyManager : KeyManager
  parentKeyManager : KeyManager

def errEmptyCommittedSeals : String := "empty committed seals"

def errEmptyParentCommittedSeals : String := "empty parent committed seals"

def errNotEnoughCommittedSeals : String := "not enough seals to seal block"

def verifyIBFTExtraSize (header : Header) : Except String Unit :=
  if header.extraData.length < istanbulExtraVanity then
    .error ("wrong extra size, expected greater than or equal to 32 but actual " ++
      toString header.extraData.length)
  else .ok ()

def Signer.emptyExtra (s : Signer) (number : UInt64) : IstanbulExtra :=
  ⟨s.keyManager.newEmptyValidators, [], s.keyManager.newEmptyCommittedSeals,
    if number > 1 then some s.parentKeyManager.newEmptyCommittedSeals else none, none⟩

def Signer.getIBFTExtra (s : Signer) (header : Header) : ExceptT String Option IstanbulExtra := do
  verifyIBFTExtraSize header
  (s.emptyExtra header.number).unmarshalRLP (header.extraData.drop istanbulExtraVanity)

def Signer.getValidators (s : Signer) (header : Header) : ExceptT String Option Validators := do
  let extra ← s.getIBFTExtra header
  pure extra.validators

def Signer.initIbftExtra (s : Signer) (header : Header) (validators : Validators)
    (parentCommittedSeals : Option Seals) : Header :=
  putIbftExtra header ⟨validators, [], s.keyManager.newEmptyCommittedSeals, parentCommittedSeals,
    none⟩

def keptParentCommittedSeals : Option Seals → ExceptT String Option (Option Seals)
  | none => pure none
  | some parentCommittedSeals => do
    let num ← ExceptT.lift parentCommittedSeals.num
    pure (if num = 0 then none else some parentCommittedSeals)

def Signer.filterHeaderForHash (s : Signer) (header : Header) : ExceptT String Option Header := do
  let extra ← s.getIBFTExtra header
  let parentCommittedSeals ← keptParentCommittedSeals extra.parentCommittedSeals
  pure (s.initIbftExtra header extra.validators parentCommittedSeals)

def Signer.calculateHeaderHash (s : Signer) (header : Header) : ExceptT String Option Hash := do
  let filteredHeader ← s.filterHeaderForHash header
  pure (IbftSigner.calculateHeaderHash filteredHeader)

def Signer.writeProposerSeal (s : Signer) (header : Header) : ExceptT String Option Header := do
  let hash ← s.calculateHeaderHash header
  let proposerSeal ← s.keyManager.signProposerSeal (keccak256 hash.bytes)
  pure { header with extraData := packProposerSealIntoExtra header.extraData proposerSeal }

def Signer.ecrecoverFromHeader (s : Signer) (header : Header) : ExceptT String Option Address := do
  let extra ← s.getIBFTExtra header
  s.keyManager.ecrecover extra.proposerSeal (keccak256 header.hash.bytes)

def Signer.writeCommittedSeals (s : Signer) (header : Header) (roundNumber : UInt64)
    (sealMap : List (Address × List UInt8)) : ExceptT String Option Header := do
  if sealMap = [] then throw errEmptyCommittedSeals
  let validators ← s.getValidators header
  let committedSeal ← s.keyManager.generateCommittedSeals sealMap validators
  pure { header with extraData :=
    packCommittedSealsAndRoundNumberIntoExtra header.extraData committedSeal (some roundNumber) }

def Signer.getParentCommittedSeals (s : Signer) (header : Header) :
    ExceptT String Option Seals := do
  verifyIBFTExtraSize header
  let v ← parse (header.extraData.drop istanbulExtraVanity)
  unmarshalRLPFromForParentCS s.keyManager.newEmptyCommittedSeals v

/-- `VerifyParentCommittedSeals`. The seals are never a nil interface here, so `Num` is always
called. -/
def Signer.verifyParentCommittedSeals (s : Signer) (parentHash : Hash) (header : Header)
    (parentValidators : Validators) (quorum : ℕ) (mustExist : Bool) :
    ExceptT String Option Unit := do
  let parentCommittedSeals ← s.getParentCommittedSeals header
  let num ← ExceptT.lift parentCommittedSeals.num
  if num = 0 then
    if mustExist then throw errEmptyParentCommittedSeals else pure ()
  else do
    let rawMsg := keccak256 (wrapCommitHash parentHash.bytes)
    let numSeals ← s.keyManager.verifyCommittedSeals parentCommittedSeals rawMsg parentValidators
    if numSeals < quorum then throw errNotEnoughCommittedSeals

/-! ## Panics of the decoder -/

theorem parseRound_panics {b : List UInt8} (h0 : 0 < b.length) (h8 : b.length < 8) :
    (parseRound (.bytes b)).run = none := by
  have hne : b ≠ [] := List.ne_nil_of_length_pos h0
  simp [parseRound, show ¬ b.length > 8 by omega, h8, hne, EdgeTypes.indexOutOfRange]

theorem run_bind_of_panic {α β : Type} {x : ExceptT String Option α} (hx : x.run = none)
    (f : α → ExceptT String Option β) : (x >>= f).run = none := by
  rw [ExceptT.run_bind, hx]
  rfl

theorem filterHeaderForHash_of_nil_bitmap {s : Signer} {header : Header} {extra : IstanbulExtra}
    (hextra : (s.getIBFTExtra header).run = some (.ok extra)) {signature : List UInt8}
    (hparent : extra.parentCommittedSeals = some (.aggregated none signature)) :
    (s.filterHeaderForHash header).run = none := by
  have hpure : s.getIBFTExtra header = pure extra := ExceptT.ext (by rw [hextra]; rfl)
  rw [Signer.filterHeaderForHash, hpure, pure_bind, hparent, keptParentCommittedSeals]
  exact run_bind_of_panic (run_bind_of_panic rfl _) _

def sampleKeyManager (type : ValidatorType) : KeyManager :=
  ⟨type, zeroAddress, fun _ => .ok [], fun _ _ => .ok zeroAddress, .ok, fun _ => .ok [],
    fun _ _ _ => .ok 0⟩

def ecdsaSigner : Signer := ⟨sampleKeyManager .ecdsa, sampleKeyManager .ecdsa⟩

def blsSigner : Signer := ⟨sampleKeyManager .bls, sampleKeyManager .bls⟩

def threeElementHeader : Header :=
  { sampleHeader with
    number := 2
    extraData := List.replicate 32 0 ++ encode (.array [.array [], newNull, .array []]) }

def shortRoundHeader : Header :=
  { sampleHeader with
    number := 1
    extraData := List.replicate 32 0 ++
      encode (.array [.array [], newNull, .array [], .array [], newBytes [1]]) }

theorem ibft_header_decoding_panics :
    (blsSigner.getIBFTExtra threeElementHeader).run =
      some (.ok ⟨⟨.bls, []⟩, [], .aggregated none [], some (.aggregated none []), none⟩) ∧
    (blsSigner.filterHeaderForHash threeElementHeader).run = none ∧
    (blsSigner.calculateHeaderHash threeElementHeader).run = none ∧
    (blsSigner.verifyParentCommittedSeals zeroHash threeElementHeader ⟨.bls, []⟩ 1 true).run = none ∧
    (ecdsaSigner.getIBFTExtra shortRoundHeader).run = none ∧
    (ecdsaSigner.ecrecoverFromHeader shortRoundHeader).run = none := by
  have hextra : (blsSigner.getIBFTExtra threeElementHeader).run =
      some (.ok ⟨⟨.bls, []⟩, [], .aggregated none [], some (.aggregated none []), none⟩) := by
    decide
  have hfilter := filterHeaderForHash_of_nil_bitmap hextra rfl
  have hround : (ecdsaSigner.getIBFTExtra shortRoundHeader).run = none := by decide
  exact ⟨hextra, hfilter, run_bind_of_panic hfilter _, by decide, hround,
    run_bind_of_panic hround _⟩

end IbftSigner
