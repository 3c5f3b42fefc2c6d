import MindPos.PolybftValidator
import MindPos.TypesRlp

/-! # The PolyBFT extra data and the header hash

`consensus/polybft/extra.go` and `hash.go`. The RLP library (`umbracle/fastrlp`) is a codec
parameter `c`; the main results assume only that it parses what it encodes. -/
namespace PolybftExtra

open RlpEncoding EdgeTypes PolybftValidator

variable {K : Type}

/-- `polybft.Signature`: an aggregated signature and the bitmap of its signers. -/
structure Signature where
  aggregatedSignature : List UInt8
  bitmap : Bitmap
  deriving DecidableEq

/-- `polybft.CheckpointData`. -/
structure CheckpointData where
  blockRound : UInt64
  epochNumber : UInt64
  currentValidatorsHash : Hash
  nextValidatorsHash : Hash
  eventRoot : Hash
  deriving DecidableEq

/-- `polybft.Extra`; each field is a pointer that may be nil. -/
structure Extra (K : Type) where
  validators : Option (ValidatorSetDelta K)
  parent : Option Signature
  committed : Option Signature
  checkpoint : Option CheckpointData
  deriving DecidableEq

def extraVanity : Nat := 32

def Signature.marshalRLPWith (s : Signature) : Value :=
  .array [if s.aggregatedSignature.isEmpty then newNull else newBytes s.aggregatedSignature,
    if s.bitmap.isEmpty then newNull else newBytes s.bitmap]

def Signature.unmarshalRLPWith (v : Value) : Except String Signature := do
  let vals ← v.getElems.mapError fun _ => "array type expected for signature struct"
  match vals with
  | [aggregatedV, bitmapV] =>
    let aggregatedSignature ← aggregatedV.getBytes
    let bitmap ← bitmapV.getBytes
    pure ⟨aggregatedSignature, bitmap⟩
  | _ => .error ("incorrect elements count to decode Signature, expected 2 but found " ++
      toString vals.length)

def CheckpointData.marshalRLPWith (c : CheckpointData) : Value :=
  .array [newUint c.blockRound, newUint c.epochNumber, newBytes c.currentValidatorsHash.bytes,
    newBytes c.nextValidatorsHash.bytes, newBytes c.eventRoot.bytes]

def CheckpointData.unmarshalRLPWith (v : Value) : Except String CheckpointData := do
  let vals ← v.getElems.mapError fun _ => "array type expected for CheckpointData struct"
  match vals with
  | [blockRoundV, epochNumberV, currentV, nextV, eventRootV] =>
    let blockRound ← blockRoundV.getUint64
    let epochNumber ← epochNumberV.getUint64
    let currentValidatorsHashRaw ← currentV.getBytes
    let nextValidatorsHashRaw ← nextV.getBytes
    let eventRootRaw ← eventRootV.getBytes
    pure ⟨blockRound, epochNumber, bytesToHash currentValidatorsHashRaw,
      bytesToHash nextValidatorsHashRaw, bytesToHash eventRootRaw⟩
  | _ => .error ("incorrect elements count to decode CheckpointData, expected 5 but found " ++
      toString vals.length)

def Extra.marshalRLPWith (kc : KeyCodec K) (e : Extra K) : Value :=
  .array [(e.validators.map (·.marshalRLPWith kc)).getD newNullArray,
    (e.parent.map (·.marshalRLPWith)).getD newNullArray,
    (e.committed.map (·.marshalRLPWith)).getD newNullArray,
    (e.checkpoint.map (·.marshalRLPWith)).getD newNullArray]

def decodeIfPresent {α : Type} (decode : Value → Except String α) (v : Value) :
    Except String (Option α) :=
  if 0 < v.elems then some <$> decode v else pure none

def Extra.unmarshalRLPWith (kc : KeyCodec K) (v : Value) : Except String (Extra K) := do
  let elems ← v.getElems
  match elems with
  | [validatorsV, parentV, committedV, checkpointV] =>
    let validators ← decodeIfPresent (ValidatorSetDelta.unmarshalRLPWith kc) validatorsV
    let parent ← decodeIfPresent Signature.unmarshalRLPWith parentV
    let committed ← decodeIfPresent Signature.unmarshalRLPWith committedV
    let checkpoint ← decodeIfPresent CheckpointData.unmarshalRLPWith checkpointV
    pure ⟨validators, parent, committed, checkpoint⟩
  | _ => .error ("incorrect elements count to decode Extra, expected 4 but found " ++
      toString elems.length)

/-- `Extra.MarshalRLPTo(nil)`: the vanity bytes, then the encoded extra. -/
def Extra.marshalRLPTo (c : Codec) (kc : KeyCodec K) (e : Extra K) : List UInt8 :=
  List.replicate extraVanity 0 ++ c.marshalTo (e.marshalRLPWith kc)

def Extra.unmarshalRLP (c : Codec) (kc : KeyCodec K) (input : List UInt8) :
    Except String (Extra K) := do
  let v ← c.parse (input.drop extraVanity)
  Extra.unmarshalRLPWith kc v

/-! ## Checkpoint validation -/

/-- `CheckpointData.ValidateBasic`: the epoch is the parent's or the next, and neither
validator hash is empty. -/
def CheckpointData.validateBasic (c parentCheckpoint : CheckpointData) : Except String Unit :=
  if c.epochNumber ≠ parentCheckpoint.epochNumber ∧ c.epochNumber ≠ parentCheckpoint.epochNumber + 1
  then .error "invalid epoch number for epoch-beginning block"
  else if c.currentValidatorsHash = zeroHash then .error "current validators hash must not be empty"
  else if c.nextValidatorsHash = zeroHash then .error "next validators hash must not be empty"
  else .ok ()

/-- `CheckpointData.Validate`: the validator hashes against the current and next sets, and an
epoch that does not change in a block that changes the validators. -/
def CheckpointData.validate [DecidableEq K] (accountSetHash : AccountSet K → Except String Hash)
    (c parentCheckpoint : CheckpointData) (currentValidators nextValidators : AccountSet K) :
    Except String Unit := do
  c.validateBasic parentCheckpoint
  let currentValidatorsHash ← (accountSetHash currentValidators).mapError
    ("failed to calculate current validators hash: " ++ ·)
  if currentValidatorsHash ≠ c.currentValidatorsHash then
    throw "current validators hashes don't match"
  let nextValidatorsHash ← (accountSetHash nextValidators).mapError
    ("failed to calculate next validators hash: " ++ ·)
  if nextValidatorsHash ≠ c.nextValidatorsHash then
    throw "next validators hashes don't match"
  if !currentValidators.equals nextValidators && c.epochNumber ≠ parentCheckpoint.epochNumber then
    throw "epoch number should not change for epoch-ending block"

theorem CheckpointData.validateBasic_ok {c p : CheckpointData} (h : c.validateBasic p = .ok ()) :
    (c.epochNumber = p.epochNumber ∨ c.epochNumber = p.epochNumber + 1) ∧
      c.currentValidatorsHash ≠ zeroHash ∧ c.nextValidatorsHash ≠ zeroHash := by
  unfold CheckpointData.validateBasic at h
  split_ifs at h with h1 h2 h3
  refine ⟨?_, h2, h3⟩
  by_contra hne
  exact h1 (not_or.mp hne)

theorem CheckpointData.validate_ok [DecidableEq K] {accountSetHash : AccountSet K → Except String Hash}
    {c p : CheckpointData} {current next : AccountSet K}
    (h : c.validate accountSetHash p current next = .ok ()) :
    (c.epochNumber = p.epochNumber ∨ c.epochNumber = p.epochNumber + 1) ∧
      accountSetHash current = .ok c.currentValidatorsHash ∧
      accountSetHash next = .ok c.nextValidatorsHash ∧
      (current ≠ next → c.epochNumber = p.epochNumber) := by
  unfold CheckpointData.validate at h
  obtain ⟨_, hbasic, h₁⟩ := Except.bind_eq_ok_iff.mp h
  obtain ⟨hcur, hcurOk, h₂⟩ := Except.bind_eq_ok_iff.mp h₁
  by_cases hc : hcur = c.currentValidatorsHash
  · simp only [hc, ne_eq, not_true_eq_false, if_false] at h₂
    obtain ⟨hnext, hnextOk, h₃⟩ := Except.bind_eq_ok_iff.mp h₂
    by_cases hn : hnext = c.nextValidatorsHash
    · simp only [hn, not_true_eq_false, if_false] at h₃
      split_ifs at h₃ with hep
      refine ⟨(CheckpointData.validateBasic_ok hbasic).1, hc ▸ Except.mapError_eq_ok.mp hcurOk,
        hn ▸ Except.mapError_eq_ok.mp hnextOk, fun hne => ?_⟩
      have hneq : current.equals next = false := by
        rw [← Bool.not_eq_true, AccountSet.equals_iff]
        exact hne
      simp only [Bool.and_eq_true, Bool.not_eq_true', decide_eq_true_eq, not_and, not_not] at hep
      exact hep hneq
    · simp [hn] at h₃
  · simp [hc] at h₂

/-- `GetIbftExtra`: a nil validator set delta is replaced by an empty one. -/
def getIbftExtra (c : Codec) (kc : KeyCodec K) (extraRaw : List UInt8) : Except String (Extra K) :=
  if extraRaw.length < extraVanity then .error ("wrong extra size: " ++ toString extraRaw.length)
  else do
    let extra ← Extra.unmarshalRLP c kc extraRaw
    pure { extra with validators := some (extra.validators.getD .empty) }

theorem getIbftExtra_validators {c : Codec} {kc : KeyCodec K} {raw : List UInt8} {e : Extra K}
    (h : getIbftExtra c kc raw = .ok e) : e.validators = some (e.validators.getD .empty) := by
  unfold getIbftExtra at h
  split_ifs at h
  obtain ⟨extra, -, h'⟩ := Except.bind_eq_ok_iff.mp h
  rw [Except.pure_eq_ok, Except.ok.injEq] at h'
  subst h'
  rfl

/-- `GetIbftExtraClean`: the extra with the committed seals of the header itself emptied. -/
def getIbftExtraClean (c : Codec) (kc : KeyCodec K) (extraRaw : List UInt8) :
    Except String (List UInt8) := do
  let extra ← getIbftExtra c kc extraRaw
  pure (Extra.marshalRLPTo c kc
    { parent := extra.parent, validators := extra.validators, checkpoint := extra.checkpoint,
      committed := some ⟨[], []⟩ })

def polyBFTHeaderHash (c : Codec) (kc : KeyCodec K) (originalHeaderHash : Header → Hash)
    (h : Header) : Hash :=
  match getIbftExtraClean c kc h.extraData with
  | .error _ => zeroHash
  | .ok extra => originalHeaderHash { h with extraData := extra }

/-! ## Decoding inverts encoding on decoded values -/

section RoundTrip

variable (kc : KeyCodec K)

/-- A validator that its own encoding decodes back to: its key is read back by the key
codec and its voting power is not negative (big integers are written by magnitude). -/
def Canonical (v : ValidatorMetadata K) : Prop :=
  (∃ k, v.blsKey = some k ∧ kc.unmarshal (kc.marshal k) = .ok k) ∧ 0 ≤ v.votingPower

def DeltaCanonical (d : ValidatorSetDelta K) : Prop :=
  (∀ v ∈ d.added, Canonical kc v) ∧ ∀ v ∈ d.updated, Canonical kc v

def ExtraCanonical (e : Extra K) : Prop := ∀ d ∈ e.validators, DeltaCanonical kc d

@[simp] theorem signature_unmarshal_marshal (s : Signature) :
    Signature.unmarshalRLPWith s.marshalRLPWith = .ok s := by
  simp [Signature.unmarshalRLPWith, Signature.marshalRLPWith]

@[simp] theorem checkpoint_unmarshal_marshal (cp : CheckpointData) :
    CheckpointData.unmarshalRLPWith cp.marshalRLPWith = .ok cp := by
  simp [CheckpointData.unmarshalRLPWith, CheckpointData.marshalRLPWith, newBytes]

theorem metadata_unmarshal_marshal {v : ValidatorMetadata K} (hv : Canonical kc v) :
    ValidatorMetadata.unmarshalRLPWith kc (v.marshalRLPWith kc) = .ok v := by
  obtain ⟨⟨k, hk, hround⟩, hvp⟩ := hv
  obtain ⟨address, blsKey, votingPower, isActive⟩ := v
  simp only at hk hvp
  subst hk
  simp [ValidatorMetadata.unmarshalRLPWith, ValidatorMetadata.marshalRLPWith, marshalBlsKey,
    newBytes, hround, Int.natAbs_of_nonneg hvp]

theorem unmarshalValidators_map {as : AccountSet K} (h : ∀ v ∈ as, Canonical kc v) :
    unmarshalValidators kc (as.map (·.marshalRLPWith kc)) = .ok as := by
  induction as with
  | nil => rfl
  | cons v as ih =>
    simp only [List.mem_cons, forall_eq_or_imp] at h
    simp [unmarshalValidators, metadata_unmarshal_marshal kc h.1] at ih ⊢
    simp [ih h.2]

theorem delta_unmarshal_marshal {d : ValidatorSetDelta K} (hd : DeltaCanonical kc d) :
    ValidatorSetDelta.unmarshalRLPWith kc (d.marshalRLPWith kc) = .ok d := by
  simp [ValidatorSetDelta.unmarshalRLPWith, ValidatorSetDelta.marshalRLPWith, newBytes,
    unmarshalValidators_map kc hd.1, unmarshalValidators_map kc hd.2]

theorem decodeIfPresent_map {α : Type} {decode : Value → Except String α} {marshal : α → Value}
    {o : Option α} (hm : ∀ x ∈ o, decode (marshal x) = .ok x ∧ 0 < (marshal x).elems) :
    decodeIfPresent decode ((o.map marshal).getD newNullArray) = .ok o := by
  cases o with
  | none => rfl
  | some x =>
    obtain ⟨hdec, hpos⟩ := hm x rfl
    simp [decodeIfPresent, hpos, hdec]

theorem extra_unmarshal_marshal {e : Extra K} (he : ExtraCanonical kc e) :
    Extra.unmarshalRLPWith kc (e.marshalRLPWith kc) = .ok e := by
  have hv : decodeIfPresent (ValidatorSetDelta.unmarshalRLPWith kc)
      ((e.validators.map (·.marshalRLPWith kc)).getD newNullArray) = .ok e.validators :=
    decodeIfPresent_map fun d hd =>
      ⟨delta_unmarshal_marshal kc (he d hd), by simp [ValidatorSetDelta.marshalRLPWith]⟩
  have hsig : ∀ o : Option Signature,
      decodeIfPresent Signature.unmarshalRLPWith ((o.map (·.marshalRLPWith)).getD newNullArray) =
        .ok o := fun o =>
    decodeIfPresent_map fun s _ => ⟨signature_unmarshal_marshal s, by simp [Signature.marshalRLPWith]⟩
  have hcp : decodeIfPresent CheckpointData.unmarshalRLPWith
      ((e.checkpoint.map (·.marshalRLPWith)).getD newNullArray) = .ok e.checkpoint :=
    decodeIfPresent_map fun cp _ => ⟨checkpoint_unmarshal_marshal cp, by simp [CheckpointData.marshalRLPWith]⟩
  simp only [Extra.unmarshalRLPWith, Extra.marshalRLPWith, getElems_array, Except.ok_bind_eq]
  rw [hv, Except.ok_bind_eq, hsig, Except.ok_bind_eq, hsig, Except.ok_bind_eq, hcp,
    Except.ok_bind_eq, Except.pure_eq_ok]

theorem getIbftExtra_marshalRLPTo {c : Codec} (hc : c.ParsesWhatItEncodes) {e : Extra K}
    (he : ExtraCanonical kc e) :
    getIbftExtra c kc (e.marshalRLPTo c kc) =
      .ok { e with validators := some (e.validators.getD .empty) } := by
  rw [getIbftExtra, if_neg (by simp [Extra.marshalRLPTo])]
  simp only [Extra.unmarshalRLP, Extra.marshalRLPTo,
    List.drop_left' (List.length_replicate), hc _, Except.ok_bind_eq,
    extra_unmarshal_marshal kc he, Except.pure_eq_ok]

/-! ## What the decoder produces is canonical -/

theorem metadata_canonical_of_unmarshal (hk : kc.RoundTrips) {val : Value}
    {v : ValidatorMetadata K} (h : ValidatorMetadata.unmarshalRLPWith kc val = .ok v) :
    Canonical kc v := by
  unfold ValidatorMetadata.unmarshalRLPWith at h
  obtain ⟨elems, -, h⟩ := Except.bind_eq_ok_iff.mp h
  split at h
  · simp only [Except.bind_eq_ok_iff, Except.mapError_eq_ok, Except.pure_eq_ok,
      Except.ok.injEq] at h
    obtain ⟨raw, -, blsRaw, -, key, hkey, vp, -, active, -, rfl⟩ := h
    exact ⟨⟨key, rfl, hk _ _ hkey⟩, Int.natCast_nonneg vp⟩
  · cases h

theorem canonical_of_unmarshalValidators (hk : kc.RoundTrips) {raw : List Value}
    {as : AccountSet K} (h : unmarshalValidators kc raw = .ok as) : ∀ v ∈ as, Canonical kc v := by
  induction raw generalizing as with
  | nil =>
    simp only [unmarshalValidators, List.mapM_nil, Except.pure_eq_ok, Except.ok.injEq] at h
    subst h
    simp
  | cons r raw ih =>
    simp only [unmarshalValidators, List.mapM_cons, Except.bind_eq_ok_iff, Except.pure_eq_ok,
      Except.ok.injEq] at h
    obtain ⟨v, hv, vs, hvs, rfl⟩ := h
    intro w hw
    rcases List.mem_cons.mp hw with rfl | hw
    · exact metadata_canonical_of_unmarshal kc hk hv
    · exact ih hvs w hw

theorem delta_canonical_of_unmarshal (hk : kc.RoundTrips) {val : Value}
    {d : ValidatorSetDelta K} (h : ValidatorSetDelta.unmarshalRLPWith kc val = .ok d) :
    DeltaCanonical kc d := by
  unfold ValidatorSetDelta.unmarshalRLPWith at h
  obtain ⟨elems, -, h⟩ := Except.bind_eq_ok_iff.mp h
  split at h
  · cases h
    exact ⟨by simp [ValidatorSetDelta.empty], by simp [ValidatorSetDelta.empty]⟩
  · simp only [Except.bind_eq_ok_iff, Except.mapError_eq_ok, Except.pure_eq_ok,
      Except.ok.injEq] at h
    obtain ⟨_, -, added, hadded, _, -, updated, hupdated, _, -, rfl⟩ := h
    exact ⟨canonical_of_unmarshalValidators kc hk hadded,
      canonical_of_unmarshalValidators kc hk hupdated⟩
  · cases h

theorem decodeIfPresent_eq_ok {α : Type} {decode : Value → Except String α} {v : Value}
    {o : Option α} (h : decodeIfPresent decode v = .ok o) : ∀ x ∈ o, decode v = .ok x := by
  unfold decodeIfPresent at h
  split at h
  · cases hd : decode v with
    | error _ => simp [hd] at h
    | ok y => simp [hd] at h; subst h; simp
  · simp at h; subst h; simp

theorem extra_canonical_of_unmarshal (hk : kc.RoundTrips) {val : Value} {e : Extra K}
    (h : Extra.unmarshalRLPWith kc val = .ok e) : ExtraCanonical kc e := by
  unfold Extra.unmarshalRLPWith at h
  obtain ⟨elems, -, h⟩ := Except.bind_eq_ok_iff.mp h
  split at h
  · simp only [Except.bind_eq_ok_iff, Except.pure_eq_ok, Except.ok.injEq] at h
    obtain ⟨validators, hvalidators, _, -, _, -, _, -, rfl⟩ := h
    intro d hd
    exact delta_canonical_of_unmarshal kc hk (decodeIfPresent_eq_ok hvalidators d hd)
  · cases h

theorem getIbftExtra_canonical (hk : kc.RoundTrips) {c : Codec} {raw : List UInt8}
    {e : Extra K} (h : getIbftExtra c kc raw = .ok e) :
    ExtraCanonical kc e ∧ ∃ d, e.validators = some d := by
  unfold getIbftExtra at h
  split at h
  · simp at h
  · simp only [Extra.unmarshalRLP, Except.bind_eq_ok_iff, Except.pure_eq_ok, Except.ok.injEq] at h
    obtain ⟨e', ⟨v, -, hv⟩, rfl⟩ := h
    have he' := extra_canonical_of_unmarshal kc hk hv
    refine ⟨fun d hd => ?_, _, rfl⟩
    cases hval : e'.validators with
    | none => simp [hval] at hd; subst hd; exact ⟨by simp [ValidatorSetDelta.empty],
        by simp [ValidatorSetDelta.empty]⟩
    | some d' => simp [hval] at hd; subst hd; exact he' d' hval

end RoundTrip

/-! ## The header hash does not see the committed seals -/

section HeaderHash

variable {c : Codec} {kc : KeyCodec K}

theorem getIbftExtraClean_of_getIbftExtra {raw : List UInt8} {e : Extra K}
    (h : getIbftExtra c kc raw = .ok e) :
    getIbftExtraClean c kc raw = .ok (Extra.marshalRLPTo c kc { e with committed := some ⟨[], []⟩ }) := by
  simp [getIbftExtraClean, h]

theorem getIbftExtra_marshalRLPTo_of_delta (hc : c.ParsesWhatItEncodes) {e : Extra K}
    (he : ExtraCanonical kc e) {d : ValidatorSetDelta K} (hd : e.validators = some d) :
    getIbftExtra c kc (e.marshalRLPTo c kc) = .ok e := by
  rw [getIbftExtra_marshalRLPTo kc hc he]
  cases e
  simp_all

theorem getIbftExtraClean_with_committed (hc : c.ParsesWhatItEncodes) (hk : kc.RoundTrips)
    {raw : List UInt8} {e : Extra K} (h : getIbftExtra c kc raw = .ok e) (s : Signature) :
    getIbftExtraClean c kc (Extra.marshalRLPTo c kc { e with committed := some s }) =
      getIbftExtraClean c kc raw := by
  obtain ⟨he, d, hd⟩ := getIbftExtra_canonical kc hk h
  have hback : getIbftExtra c kc (Extra.marshalRLPTo c kc { e with committed := some s }) =
      .ok { e with committed := some s } :=
    getIbftExtra_marshalRLPTo_of_delta hc he hd
  rw [getIbftExtraClean_of_getIbftExtra hback, getIbftExtraClean_of_getIbftExtra h]

theorem polyBFTHeaderHash_ignores_committed (hc : c.ParsesWhatItEncodes) (hk : kc.RoundTrips)
    (originalHeaderHash : Header → Hash) :
    (∀ (h : Header) (e : Extra K) (s : Signature), getIbftExtra c kc h.extraData = .ok e →
      polyBFTHeaderHash c kc originalHeaderHash
          { h with extraData := Extra.marshalRLPTo c kc { e with committed := some s } } =
        polyBFTHeaderHash c kc originalHeaderHash h) ∧
    (∀ x y, getIbftExtraClean c kc x = .ok y → getIbftExtraClean c kc y = .ok y) := by
  constructor
  · intro h e s he
    simp only [polyBFTHeaderHash, getIbftExtraClean_with_committed hc hk he s]
  · intro x y hxy
    simp only [getIbftExtraClean, Except.bind_eq_ok_iff, Except.pure_eq_ok, Except.ok.injEq] at hxy
    obtain ⟨e, he, rfl⟩ := hxy
    obtain ⟨hcan, d, hd⟩ := getIbftExtra_canonical kc hk he
    have hback := getIbftExtra_marshalRLPTo_of_delta hc (e := { e with committed := some ⟨[], []⟩ })
      hcan hd
    rw [getIbftExtraClean_of_getIbftExtra hback]

end HeaderHash

def rawKeyCodec : KeyCodec (List UInt8) :=
  ⟨id, fun b => if b.length = 128 then .ok b else .error "invalid public key length"⟩

theorem rawKeyCodec_roundTrips : rawKeyCodec.RoundTrips := by
  intro b k h
  simp only [rawKeyCodec] at h ⊢
  split at h
  · cases h
    simp [*]
  · cases h

def emptyExtraRaw : List UInt8 := List.replicate extraVanity 0 ++ [0xc4, 0xc0, 0xc0, 0xc0, 0xc0]

def emptyExtraHeader : Header :=
  ⟨zeroHash, zeroHash, [], zeroHash, zeroHash, zeroHash, [], 0, 1, 0, 0, 0, emptyExtraRaw, zeroHash,
    [], zeroHash, 0⟩

/-! ## The round trip of an extra -/

/-- An extra whose validators carry keys read from bytes and non-negative voting powers is read
back from its written form, with a nil delta read back as the empty one. -/
theorem getIbftExtra_marshalRLPTo_of_nonneg_votingPower {c : Codec} (hc : c.ParsesWhatItEncodes)
    {kc : KeyCodec K} (hk : kc.RoundTrips) (e : Extra K)
    (hkeys : ∀ d ∈ e.validators, ∀ v ∈ d.added ++ d.updated,
      ∃ b k, v.blsKey = some k ∧ kc.unmarshal b = .ok k)
    (hpower : ∀ d ∈ e.validators, ∀ v ∈ d.added ++ d.updated, 0 ≤ v.votingPower) :
    getIbftExtra c kc (e.marshalRLPTo c kc) =
      .ok { e with validators := some (e.validators.getD .empty) } := by
  have hcanonical : ∀ d ∈ e.validators, ∀ v ∈ d.added ++ d.updated, Canonical kc v := by
    intro d hd v hv
    obtain ⟨b, k, hkey, hb⟩ := hkeys d hd v hv
    exact ⟨⟨k, hkey, hk b k hb⟩, hpower d hd v hv⟩
  apply getIbftExtra_marshalRLPTo kc hc
  intro d hd
  exact ⟨fun v hv => hcanonical d hd v (List.mem_append_left _ hv),
    fun v hv => hcanonical d hd v (List.mem_append_right _ hv)⟩

def negativePowerValidator : ValidatorMetadata (List UInt8) :=
  ⟨bytesToAddress [1], some (List.replicate 128 7), -1, true⟩

theorem getIbftExtra_marshalRLPTo_of_nonneg_votingPower_of_sample :
    (∀ d ∈ (⟨some ⟨[{ negativePowerValidator with votingPower := 1 }], [], []⟩, none, none,
        none⟩ : Extra (List UInt8)).validators, ∀ v ∈ d.added ++ d.updated,
      ∃ b k, v.blsKey = some k ∧ rawKeyCodec.unmarshal b = .ok k) ∧
    getIbftExtra rlp rawKeyCodec
        (Extra.marshalRLPTo rlp rawKeyCodec
          ⟨some ⟨[{ negativePowerValidator with votingPower := 1 }], [], []⟩, none, none, none⟩) =
      .ok ⟨some ⟨[{ negativePowerValidator with votingPower := 1 }], [], []⟩, none, none, none⟩ := by
  have hkeys : ∀ d ∈ (⟨some ⟨[{ negativePowerValidator with votingPower := 1 }], [], []⟩, none, none,
      none⟩ : Extra (List UInt8)).validators, ∀ v ∈ d.added ++ d.updated,
      ∃ b k, v.blsKey = some k ∧ rawKeyCodec.unmarshal b = .ok k := by
    intro d hd v hv
    simp only [Option.mem_def, Option.some.injEq] at hd
    subst hd
    simp only [List.append_nil, List.mem_singleton] at hv
    subst hv
    exact ⟨List.replicate 128 7, List.replicate 128 7, rfl, by simp [rawKeyCodec]⟩
  refine ⟨hkeys, ?_⟩
  exact getIbftExtra_marshalRLPTo_of_nonneg_votingPower rlp_parsesWhatItEncodes
    rawKeyCodec_roundTrips _ hkeys (fun d hd v hv => by
      simp only [Option.mem_def, Option.some.injEq] at hd
      subst hd
      simp only [List.append_nil, List.mem_singleton] at hv
      subst hv
      decide)

/-- Big integers are written by magnitude: a validator with voting power `-1` is read back with
voting power `1`. -/
theorem getIbftExtra_reads_negative_votingPower_back_positive :
    negativePowerValidator.votingPower = -1 ∧
    getIbftExtra rlp rawKeyCodec
        (Extra.marshalRLPTo rlp rawKeyCodec ⟨some ⟨[negativePowerValidator], [], []⟩, none, none, none⟩) =
      .ok ⟨some ⟨[{ negativePowerValidator with votingPower := 1 }], [], []⟩, none, none, none⟩ :=
  ⟨rfl, by decide +kernel⟩

def sealedExtra : Extra (List UInt8) :=
  ⟨some ⟨[{ negativePowerValidator with votingPower := 1 }], [], []⟩, some ⟨[1, 2], [3]⟩, none,
    some ⟨0, 1, hashOfNat 1, hashOfNat 2, hashOfNat 3⟩⟩

def sealedExtraHeader : Header :=
  { emptyExtraHeader with extraData := sealedExtra.marshalRLPTo rlp rawKeyCodec }

/-- Committing the header changes its bytes and its plain keccak hash, but not the PolyBFT hash. -/
theorem polyBFTHeaderHash_ignores_committed_of_sealed_extra :
    getIbftExtra rlp rawKeyCodec sealedExtraHeader.extraData = .ok sealedExtra ∧
    defHeaderHash { sealedExtraHeader with
        extraData := Extra.marshalRLPTo rlp rawKeyCodec { sealedExtra with committed := some ⟨[4, 5], [1]⟩ } } ≠
      defHeaderHash sealedExtraHeader ∧
    polyBFTHeaderHash rlp rawKeyCodec defHeaderHash
        { sealedExtraHeader with
          extraData := Extra.marshalRLPTo rlp rawKeyCodec { sealedExtra with committed := some ⟨[4, 5], [1]⟩ } } =
      polyBFTHeaderHash rlp rawKeyCodec defHeaderHash sealedExtraHeader ∧
    getIbftExtraClean rlp rawKeyCodec
        (Extra.marshalRLPTo rlp rawKeyCodec { sealedExtra with committed := some ⟨[], []⟩ }) =
      .ok (Extra.marshalRLPTo rlp rawKeyCodec { sealedExtra with committed := some ⟨[], []⟩ }) := by
  have hdec : getIbftExtra rlp rawKeyCodec sealedExtraHeader.extraData = .ok sealedExtra := by
    decide +kernel
  have hclean : getIbftExtraClean rlp rawKeyCodec sealedExtraHeader.extraData =
      .ok (Extra.marshalRLPTo rlp rawKeyCodec { sealedExtra with committed := some ⟨[], []⟩ }) :=
    getIbftExtraClean_of_getIbftExtra hdec
  have hthm := polyBFTHeaderHash_ignores_committed rlp_parsesWhatItEncodes rawKeyCodec_roundTrips
    defHeaderHash
  exact ⟨hdec, by decide +kernel, hthm.1 sealedExtraHeader sealedExtra ⟨[4, 5], [1]⟩ hdec,
    hthm.2 _ _ hclean⟩

end PolybftExtra
