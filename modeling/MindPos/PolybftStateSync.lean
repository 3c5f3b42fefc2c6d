import MindPos.PolybftCheckpointManager
import MindPos.TypesRlp

/-! # State sync commitments

`consensus/polybft/state_sync_manager.go` and `state_transaction.go`. Events bridged from the
root chain are committed to in ranges of consecutive IDs: the commitment carries the first and
last ID and the root of the Merkle tree (`merkle.MerkleTree`, the tree of the exit events) over
the events' ABI encodings. An event is proved against a commitment at the index of its ID in the
range.

The manager is a state: the stored events by ID, the next index to commit from and the pending
commitments. Signing, voting and gossiping a commitment are messages to other validators and
are left out; the view of a manager that forgets the Merkle trees (`RangeView`) computes the
ranges of the pending commitments on its own. -/
namespace PolybftStateSync

open EdgeTypes RlpEncoding PolybftCheckpointManager

/-- `contractsapi.StateSyncedEvent`; the manager reads its ID as a `uint64`. -/
structure StateSyncedEvent where
  id : UInt64
  sender : Address
  receiver : Address
  data : List UInt8
  deriving DecidableEq

/-- `StateSyncedEvent.EncodeAbi`, the type `tuple(tuple(uint256 id, address sender, address
receiver, bytes data))`: the offset of the inner tuple, then its head and the padded bytes. -/
def StateSyncedEvent.encodeAbi (e : StateSyncedEvent) : List UInt8 :=
  abiWord 32 ++ abiWord e.id.toNat ++ rightAlign 32 e.sender.bytes ++ rightAlign 32 e.receiver.bytes ++
    abiWord 128 ++ abiWord e.data.length ++ e.data ++
    List.replicate ((32 - e.data.length % 32) % 32) 0

/-- `contractsapi.StateSyncCommitment`. -/
structure StateSyncCommitment where
  startID : UInt64
  endID : UInt64
  root : Hash
  deriving DecidableEq

def minCommitmentSize : Nat := 2

def errNotEnoughStateSyncs : String := "there is either a gap or not enough sync events"

variable (keccak : List UInt8 → Hash)

/-- `createMerkleTree`: the ABI encodings of the events are the leaves. -/
def createMerkleTree (events : List StateSyncedEvent) : Except String (ExitTree keccak) :=
  let data := events.map StateSyncedEvent.encodeAbi
  match hr : MerkleTree.root (nodeHash keccak) (data.map keccak) with
  | none => .error "tree must contain at least one leaf"
  | some r => .ok ⟨data, r, hr⟩

/-- `PendingCommitment`. -/
structure PendingCommitment where
  commitment : StateSyncCommitment
  tree : ExitTree keccak
  epoch : UInt64

/-- `NewPendingCommitment`: the range from the first to the last event. The tree of no event
is refused before the range is read. -/
def newPendingCommitment (epoch : UInt64) (events : List StateSyncedEvent) :
    Except String (PendingCommitment keccak) := do
  let tree ← createMerkleTree keccak events
  match events with
  | [] => throw "tree must contain at least one leaf"
  | first :: rest =>
    pure ⟨⟨first.id, ((first :: rest).getLast (List.cons_ne_nil _ _)).id, tree.rootHash⟩, tree,
      epoch⟩

/-- `CommitmentMessageSigned.VerifyStateSyncProof` of a present event: its ID must lie in the
range, and it is proved at its offset from the first ID. -/
def StateSyncCommitment.verifyStateSyncProof (c : StateSyncCommitment) (proof : List Hash)
    (stateSync : StateSyncedEvent) : Except String Unit :=
  if stateSync.id < c.startID ∨ stateSync.id > c.endID then .error "invalid state sync ID"
  else verifyProof keccak (stateSync.id - c.startID).toNat stateSync.encodeAbi proof c.root

/-- `StateSyncCommitment.ContainsStateSync`. -/
def StateSyncCommitment.containsStateSync (c : StateSyncCommitment) (stateSyncID : UInt64) :
    Bool :=
  c.startID ≤ stateSyncID ∧ c.endID ≥ stateSyncID

/-- `StateSyncProof`. -/
structure StateSyncProof where
  proof : List Hash
  stateSync : StateSyncedEvent
  deriving DecidableEq

def buildProofsFor (events : List StateSyncedEvent) : Except String (List StateSyncProof) := do
  let tree ← (createMerkleTree keccak events).mapError ("could not create merkle tree. error: " ++ ·)
  events.mapM fun event => do
    let p ← (tree.generateProof event.encodeAbi).mapError
      (("error generating proof for event: " ++ toString event.id ++ ". error: ") ++ ·)
    pure ⟨p, event⟩

/-! ## Proofs against a commitment

The prover finds an event's leaf by its encoding, the verifier at the offset of its ID from the
first ID. The two agree when the IDs are consecutive: the second ABI word of an encoding is the
ID, so the first leaf equal to an encoding is the one of its position. -/

section Proofs

variable {keccak}

theorem abiWord_length (n : Nat) : (abiWord n).length = 32 := rightAlign_length 32 _

theorem ofBE_abiWord {n : Nat} (h : n < 256 ^ 32) : ofBE (abiWord n) = n :=
  ofBE_rightAlign_toBE h

theorem encodeAbi_id_word (e : StateSyncedEvent) :
    (e.encodeAbi.drop 32).take 32 = abiWord e.id.toNat := by
  simp only [StateSyncedEvent.encodeAbi, List.append_assoc]
  rw [List.drop_left' (abiWord_length 32), List.take_left' (abiWord_length _)]

theorem encodeAbi_injective_id {a b : StateSyncedEvent} (h : a.encodeAbi = b.encodeAbi) :
    a.id = b.id := by
  have hword : abiWord a.id.toNat = abiWord b.id.toNat := by
    rw [← encodeAbi_id_word, ← encodeAbi_id_word, h]
  have hbound : (2 : Nat) ^ 64 ≤ 256 ^ 32 := by decide
  have ha := ofBE_abiWord (lt_of_lt_of_le a.id.toNat_lt hbound)
  have hb := ofBE_abiWord (lt_of_lt_of_le b.id.toNat_lt hbound)
  exact UInt64.toNat_inj.mp (by rw [← ha, ← hb, hword])

theorem encodeAbi_ne_nil (e : StateSyncedEvent) : e.encodeAbi ≠ [] := by
  intro h
  have hlen := congrArg List.length h
  simp [StateSyncedEvent.encodeAbi, abiWord_length] at hlen

theorem encodeAbi_length_ne (e : StateSyncedEvent) : e.encodeAbi.length ≠ 64 := by
  simp only [StateSyncedEvent.encodeAbi, List.length_append, abiWord_length, rightAlign_length,
    List.length_replicate]
  omega

theorem createMerkleTree_leaves {events : List StateSyncedEvent} {t : ExitTree keccak}
    (h : createMerkleTree keccak events = .ok t) :
    t.leaves = events.map StateSyncedEvent.encodeAbi := by
  unfold createMerkleTree at h
  dsimp only at h
  split at h
  · cases h
  · cases h
    rfl

theorem newPendingCommitment_spec {epoch : UInt64} {events : List StateSyncedEvent}
    {pc : PendingCommitment keccak} (h : newPendingCommitment keccak epoch events = .ok pc) :
    createMerkleTree keccak events = .ok pc.tree ∧ ∃ hne : 0 < events.length,
      pc.commitment = ⟨events[0].id, events[events.length - 1].id, pc.tree.rootHash⟩ := by
  unfold newPendingCommitment at h
  obtain ⟨t, ht, h₁⟩ := Except.bind_eq_ok_iff.mp h
  cases events with
  | nil => cases h₁
  | cons first rest =>
    dsimp only at h₁
    rw [Except.pure_eq_ok, Except.ok.injEq] at h₁
    subst h₁
    refine ⟨ht, by simp, ?_⟩
    simp [List.getLast_eq_getElem]

theorem buildProofsFor_spec {events : List StateSyncedEvent} {proofs : List StateSyncProof}
    (h : buildProofsFor keccak events = .ok proofs) :
    ∃ t, createMerkleTree keccak events = .ok t ∧
      List.Forall₂ (fun e p => p.stateSync = e ∧ t.generateProof e.encodeAbi = .ok p.proof)
        events proofs := by
  unfold buildProofsFor at h
  obtain ⟨t, ht, h₁⟩ := Except.bind_eq_ok_iff.mp h
  refine ⟨t, ?_, (mapM_ok_forall₂ h₁).imp fun e p hp => ?_⟩
  · cases hc : createMerkleTree keccak events <;> simp_all [Except.mapError]
  · obtain ⟨proof, hproof, hp'⟩ := Except.bind_eq_ok_iff.mp hp
    rw [Except.pure_eq_ok, Except.ok.injEq] at hp'
    subst hp'
    cases hg : t.generateProof e.encodeAbi <;> simp_all [Except.mapError]

theorem createMerkleTree_ok (keccak : List UInt8 → Hash) {events : List StateSyncedEvent}
    (h : events ≠ []) :
    ∃ t, createMerkleTree keccak events = .ok t := by
  unfold createMerkleTree
  dsimp only
  split
  · next hr =>
    have hsome := MerkleTree.root_isSome (nodeHash keccak) (l := (events.map
      StateSyncedEvent.encodeAbi).map keccak) (by simpa using h)
    rw [hr] at hsome
    cases hsome
  · exact ⟨_, rfl⟩

theorem buildProofsFor_ok {events : List StateSyncedEvent} (h : events ≠ []) :
    ∃ proofs, buildProofsFor keccak events = .ok proofs := by
  obtain ⟨t, ht⟩ := createMerkleTree_ok keccak h
  have hgen : ∀ e ∈ events, ∃ p, t.generateProof e.encodeAbi = .ok p := by
    intro e he
    have hany : t.leaves.any (· = e.encodeAbi) = true := by
      rw [createMerkleTree_leaves ht]
      exact List.any_eq_true.mpr ⟨_, List.mem_map_of_mem he, by simp⟩
    obtain ⟨i, hi⟩ := Option.isSome_iff_exists.mp (List.findIdx?_isSome.trans hany)
    exact ⟨MerkleTree.proofFrom t.rootHash t.levels i, by simp only [ExitTree.generateProof, hi]⟩
  unfold buildProofsFor
  rw [ht]
  refine mapM_ok_of_forall fun e he => ?_
  obtain ⟨p, hp⟩ := hgen e he
  exact ⟨⟨p, e⟩, by rw [hp]; rfl⟩

section Consecutive

variable {events : List StateSyncedEvent} {s : Nat}
  (hids : ∀ (i : Nat) (h : i < events.length), events[i].id.toNat = s + i)
include hids

theorem leafIndex_of_consecutive {t : ExitTree keccak} (ht : createMerkleTree keccak events = .ok t)
    {i : Nat} (hi : i < events.length) : t.leafIndex events[i].encodeAbi = .ok i := by
  have hf : t.leaves.findIdx? (· = events[i].encodeAbi) = some i := by
    rw [createMerkleTree_leaves ht, List.findIdx?_eq_some_iff_getElem]
    refine ⟨by simpa using hi, by simp, fun j hji => ?_⟩
    simp only [List.getElem_map, decide_eq_true_eq]
    intro heq
    have hid := congrArg UInt64.toNat (encodeAbi_injective_id heq)
    rw [hids j (by omega), hids i hi] at hid
    omega
  simp [ExitTree.leafIndex, hf]

variable {epoch : UInt64} {pc : PendingCommitment keccak}
  (hpc : newPendingCommitment keccak epoch events = .ok pc)
include hpc

theorem commitment_startID_toNat : pc.commitment.startID.toNat = s := by
  obtain ⟨-, hne, hc⟩ := newPendingCommitment_spec hpc
  rw [hc, hids 0 hne]
  rfl

theorem commitment_endID_toNat : pc.commitment.endID.toNat = s + events.length - 1 := by
  obtain ⟨-, hne, hc⟩ := newPendingCommitment_spec hpc
  rw [hc]
  show events[events.length - 1].id.toNat = _
  rw [hids _ (by omega)]
  omega

theorem verifyStateSyncProof_of_generateProof
    (hlow : ∀ ℓ ∈ pc.tree.levels.dropLast, pc.tree.rootHash ∉ ℓ) {i : Nat}
    (hi : i < events.length) {proof : List Hash}
    (hp : pc.tree.generateProof events[i].encodeAbi = .ok proof) :
    pc.commitment.verifyStateSyncProof keccak proof events[i] = .ok () := by
  obtain ⟨htree, _hne, hc⟩ := newPendingCommitment_spec hpc
  have hstart := commitment_startID_toNat hids hpc
  have hend := commitment_endID_toNat hids hpc
  have hid := hids i hi
  have hin : ¬(events[i].id < pc.commitment.startID ∨ events[i].id > pc.commitment.endID) := by
    simp only [gt_iff_lt, UInt64.lt_iff_toNat_lt, hstart, hend, hid]
    omega
  have hoffset : (events[i].id - pc.commitment.startID).toNat = i := by
    rw [UInt64.toNat_sub_of_le _ _ (UInt64.le_iff_toNat_le.mpr (by omega)), hid, hstart]
    omega
  unfold StateSyncCommitment.verifyStateSyncProof
  rw [if_neg hin, hoffset, hc]
  exact verifyProof_generateProof keccak (encodeAbi_ne_nil _)
    (leafIndex_of_consecutive hids htree hi) hp hlow

theorem verifyStateSyncProof_outside {x : StateSyncedEvent}
    (hx : x.id.toNat < s ∨ s + events.length ≤ x.id.toNat) (proof : List Hash) :
    pc.commitment.verifyStateSyncProof keccak proof x = .error "invalid state sync ID" := by
  obtain ⟨-, hne, -⟩ := newPendingCommitment_spec hpc
  have hstart := commitment_startID_toNat hids hpc
  have hend := commitment_endID_toNat hids hpc
  have hout : x.id < pc.commitment.startID ∨ x.id > pc.commitment.endID := by
    simp only [gt_iff_lt, UInt64.lt_iff_toNat_lt, hstart, hend]
    omega
  unfold StateSyncCommitment.verifyStateSyncProof
  rw [if_pos hout]

end Consecutive

theorem stateSync_proofs_verify_against_commitment {events : List StateSyncedEvent} {s : Nat}
    (hids : ∀ (i : Nat) (h : i < events.length), events[i].id.toNat = s + i) {epoch : UInt64}
    {pc : PendingCommitment keccak} {proofs : List StateSyncProof}
    (hpc : newPendingCommitment keccak epoch events = .ok pc)
    (hproofs : buildProofsFor keccak events = .ok proofs)
    (hinj : ∀ x ∈ pc.tree.inputs, ∀ y ∈ pc.tree.inputs, keccak x = keccak y → x = y) :
    proofs.map (·.stateSync) = events ∧
      (∀ p ∈ proofs, pc.commitment.verifyStateSyncProof keccak p.proof p.stateSync = .ok ()) ∧
      ∀ x : StateSyncedEvent, (x.id.toNat < s ∨ s + events.length ≤ x.id.toNat) →
        ∀ proof, pc.commitment.verifyStateSyncProof keccak proof x = .error "invalid state sync ID" := by
  obtain ⟨htree, -⟩ := newPendingCommitment_spec hpc
  obtain ⟨t, ht, hall⟩ := buildProofsFor_spec hproofs
  obtain rfl : t = pc.tree := by rw [htree] at ht; exact (Except.ok.inj ht).symm
  have hlow := pc.tree.root_not_mem_lower hinj fun d hd => by
    rw [createMerkleTree_leaves htree] at hd
    obtain ⟨e, -, rfl⟩ := List.mem_map.mp hd
    exact encodeAbi_length_ne e
  obtain ⟨hlength, hat⟩ := List.forall₂_iff_get.mp hall
  refine ⟨?_, fun p hp => ?_, fun x hx proof => verifyStateSyncProof_outside hids hpc hx proof⟩
  · have heq : List.Forall₂ (· = ·) events (proofs.map (·.stateSync)) :=
      List.forall₂_map_right_iff.mpr (hall.imp fun _ _ h => h.1.symm)
    exact (List.forall₂_eq_eq_eq ▸ heq).symm
  · obtain ⟨i, hi, rfl⟩ := List.mem_iff_getElem.mp hp
    obtain ⟨hevent, hproof⟩ := hat i (hlength ▸ hi) hi
    simp only [List.get_eq_getElem] at hevent hproof
    rw [hevent]
    exact verifyStateSyncProof_of_generateProof hids hpc hlow (hlength ▸ hi) hproof

def sampleStateSyncEvent (i : Nat) : StateSyncedEvent :=
  ⟨i.toUInt64, bytesToAddress [1], bytesToAddress [2], []⟩

/-- The events of IDs 0 and 1 are proved against their commitment under keccak, which has no
collision among the three inputs of their tree. -/
theorem stateSync_proofs_verify_of_two_events :
    ∃ (pc : PendingCommitment merkleKeccak) (proofs : List StateSyncProof),
      newPendingCommitment merkleKeccak 0 [sampleStateSyncEvent 0, sampleStateSyncEvent 1] =
          .ok pc ∧
        buildProofsFor merkleKeccak [sampleStateSyncEvent 0, sampleStateSyncEvent 1] = .ok proofs ∧
        (∀ x ∈ pc.tree.inputs, ∀ y ∈ pc.tree.inputs, merkleKeccak x = merkleKeccak y → x = y) ∧
        proofs.map (·.stateSync) = [sampleStateSyncEvent 0, sampleStateSyncEvent 1] ∧
        ∀ p ∈ proofs, pc.commitment.verifyStateSyncProof merkleKeccak p.proof p.stateSync =
          .ok () := by
  obtain ⟨t, ht⟩ := createMerkleTree_ok merkleKeccak
    (show [sampleStateSyncEvent 0, sampleStateSyncEvent 1] ≠ [] by simp)
  have hpc : newPendingCommitment merkleKeccak 0 [sampleStateSyncEvent 0, sampleStateSyncEvent 1] =
      .ok ⟨⟨0, 1, t.rootHash⟩, t, 0⟩ := by
    rw [newPendingCommitment, ht, Except.ok_bind_eq]
    rfl
  obtain ⟨proofs, hproofs⟩ : ∃ proofs, buildProofsFor merkleKeccak
      [sampleStateSyncEvent 0, sampleStateSyncEvent 1] = .ok proofs := buildProofsFor_ok (by simp)
  have hleaves := createMerkleTree_leaves ht
  have hinputs : t.inputs = [(sampleStateSyncEvent 0).encodeAbi, (sampleStateSyncEvent 1).encodeAbi,
      (merkleKeccak (sampleStateSyncEvent 0).encodeAbi).bytes ++
        (merkleKeccak (sampleStateSyncEvent 1).encodeAbi).bytes] := by
    rw [ExitTree.inputs, ExitTree.levels, hleaves, MerkleTree.levels_of_one_lt_length _ (by simp),
      MerkleTree.levels_of_length_le_one _ (by simp [MerkleTree.nextLevel])]
    rfl
  have hinj : ∀ x ∈ t.inputs, ∀ y ∈ t.inputs, merkleKeccak x = merkleKeccak y → x = y := by
    rw [hinputs]
    decide +kernel
  obtain ⟨hmap, hverify, -⟩ := stateSync_proofs_verify_against_commitment (s := 0)
    (by decide) hpc hproofs hinj
  exact ⟨_, proofs, hpc, hproofs, hinj, hmap, hverify⟩

end Proofs

/-! ## The store and the manager -/

/-- The `stateSyncEvents` bucket, keyed by event ID. -/
abbrev StateSyncStore := List StateSyncedEvent

def StateSyncStore.get (s : StateSyncStore) (id : UInt64) : Option StateSyncedEvent :=
  s.find? (·.id = id)

/-- `insertStateSyncEvent`: the event is put under its ID. -/
def StateSyncStore.insertStateSyncEvent (s : StateSyncStore) (event : StateSyncedEvent) :
    StateSyncStore :=
  event :: s.filter (·.id ≠ event.id)

def StateSyncStore.readFrom (s : StateSyncStore) : Nat → UInt64 → List StateSyncedEvent × Bool
  | 0, _ => ([], true)
  | n + 1, i =>
    match s.get i with
    | none => ([], false)
    | some event =>
      let rest := s.readFrom n (i + 1)
      (event :: rest.1, rest.2)

/-- `getStateSyncEventsForCommitment`: the events from `fromIndex` to `toIndex`, and
`errNotEnoughStateSyncs` beside those read when one is missing. -/
def StateSyncStore.getStateSyncEventsForCommitment (s : StateSyncStore) (fromIndex toIndex : UInt64) :
    List StateSyncedEvent × Option String :=
  let read := s.readFrom (toIndex.toNat + 1 - fromIndex.toNat) fromIndex
  (read.1, if read.2 then none else some errNotEnoughStateSyncs)

/-- The fields of `stateSyncManager` its triggers read and write. -/
structure StateSyncManager where
  store : StateSyncStore
  proofs : List StateSyncProof
  nextCommittedIndex : UInt64
  pendingCommitments : List (PendingCommitment keccak)
  epoch : UInt64
  maxCommitmentSize : UInt64

variable {keccak}

def alreadyPending (lastStart : Option UInt64) (events : List StateSyncedEvent) : Bool :=
  match lastStart, events.getLast? with
  | some start, some last => start ≥ last.id
  | _, _ => false

/-- `buildCommitment`: the events from `nextCommittedIndex` on, at most `maxCommitmentSize` of
them, become a new pending commitment unless there are fewer than two or the guard holds. -/
def StateSyncManager.buildCommitment (s : StateSyncManager keccak) :
    Except String (StateSyncManager keccak) := do
  let fromIndex := s.nextCommittedIndex
  let events := (s.store.getStateSyncEventsForCommitment fromIndex
    (fromIndex + s.maxCommitmentSize - 1)).1
  if events.length < minCommitmentSize then return s
  if alreadyPending (s.pendingCommitments.getLast?.map (·.commitment.startID)) events then return s
  let commitment ← newPendingCommitment keccak s.epoch events
  pure { s with pendingCommitments := s.pendingCommitments ++ [commitment] }

/-- `AddLog` of a log that parsed to `event`: the event is stored and a commitment built; an
error of the build is only logged. -/
def StateSyncManager.addLog (s : StateSyncManager keccak) (event : StateSyncedEvent) :
    StateSyncManager keccak :=
  let s := { s with store := s.store.insertStateSyncEvent event }
  match s.buildCommitment with
  | .ok s' => s'
  | .error _ => s

/-- `PostEpoch`: the pending commitments are dropped, the epoch and the next index to commit
taken from the new epoch, and a commitment built. -/
def StateSyncManager.postEpoch (s : StateSyncManager keccak) (newEpoch nextCommittedIndex : UInt64) :
    StateSyncManager keccak :=
  let s := { s with
    pendingCommitments := [], epoch := newEpoch, nextCommittedIndex := nextCommittedIndex }
  match s.buildCommitment with
  | .ok s' => s'
  | .error _ => s

/-- `buildProofs` of a submitted commitment: its events must all be stored. -/
def StateSyncManager.buildProofs (s : StateSyncManager keccak) (c : StateSyncCommitment) :
    Except String (List StateSyncProof) := do
  let (events, err) := s.store.getStateSyncEventsForCommitment c.startID c.endID
  if let some e := err then
    throw ("failed to get state sync events for commitment to build proofs. Error: " ++ e)
  buildProofsFor keccak events

/-- `PostBlock` of a block that submits `commitment`: its proofs are stored, the next index to
commit moves past it and the pending commitments are dropped. -/
def StateSyncManager.postBlock (s : StateSyncManager keccak) (commitment : Option StateSyncCommitment) :
    Except String (StateSyncManager keccak) :=
  match commitment with
  | none => .ok s
  | some c => do
    let proofs ← (s.buildProofs c).mapError ("build commitment proofs error: " ++ ·)
    pure { s with
      proofs := s.proofs ++ proofs, nextCommittedIndex := c.endID + 1, pendingCommitments := [] }

/-- The triggers of the manager. -/
inductive Trigger where
  | addLog (event : StateSyncedEvent)
  | postEpoch (newEpoch nextCommittedIndex : UInt64)
  | postBlock (commitment : Option StateSyncCommitment)

def StateSyncManager.step (s : StateSyncManager keccak) : Trigger → StateSyncManager keccak
  | .addLog event => s.addLog event
  | .postEpoch newEpoch nextCommittedIndex => s.postEpoch newEpoch nextCommittedIndex
  | .postBlock commitment =>
    match s.postBlock commitment with
    | .ok s' => s'
    | .error _ => s

/-! ## The ranges of the pending commitments -/

/-- The manager without its Merkle trees: what decides which ranges become pending. -/
structure RangeView where
  store : StateSyncStore
  nextCommittedIndex : UInt64
  ranges : List (UInt64 × UInt64)
  maxCommitmentSize : UInt64
  deriving DecidableEq

def PendingCommitment.range (c : PendingCommitment keccak) : UInt64 × UInt64 :=
  (c.commitment.startID, c.commitment.endID)

def StateSyncManager.view (s : StateSyncManager keccak) : RangeView :=
  ⟨s.store, s.nextCommittedIndex, s.pendingCommitments.map PendingCommitment.range,
    s.maxCommitmentSize⟩

theorem view_ranges (s : StateSyncManager keccak) :
    s.view.ranges = s.pendingCommitments.map PendingCommitment.range := rfl

def RangeView.events (v : RangeView) : List StateSyncedEvent :=
  (v.store.getStateSyncEventsForCommitment v.nextCommittedIndex
    (v.nextCommittedIndex + v.maxCommitmentSize - 1)).1

def rangeOf (events : List StateSyncedEvent) : UInt64 × UInt64 :=
  ((events.head?.map (·.id)).getD 0, (events.getLast?.map (·.id)).getD 0)

/-- `buildCommitment` on the ranges. -/
def RangeView.buildCommitment (v : RangeView) : RangeView :=
  if v.events.length < minCommitmentSize ∨ alreadyPending (v.ranges.getLast?.map (·.1)) v.events
  then v
  else { v with ranges := v.ranges ++ [rangeOf v.events] }

def RangeView.addLog (v : RangeView) (event : StateSyncedEvent) : RangeView :=
  { v with store := v.store.insertStateSyncEvent event }.buildCommitment

theorem newPendingCommitment_ok (keccak : List UInt8 → Hash) (epoch : UInt64)
    {events : List StateSyncedEvent} (h : events ≠ []) :
    ∃ pc, newPendingCommitment keccak epoch events = .ok pc ∧ pc.range = rangeOf events := by
  obtain ⟨t, ht⟩ := createMerkleTree_ok keccak h
  cases events with
  | nil => exact absurd rfl h
  | cons first rest =>
    refine ⟨_, by simp only [newPendingCommitment, ht, Except.ok_bind_eq]; rfl, ?_⟩
    simp [PendingCommitment.range, rangeOf, List.getLast?_eq_some_getLast]

theorem buildCommitment_view (s : StateSyncManager keccak) :
    ∃ s', s.buildCommitment = .ok s' ∧ s'.view = s.view.buildCommitment := by
  have hevents : s.view.events = (s.store.getStateSyncEventsForCommitment s.nextCommittedIndex
      (s.nextCommittedIndex + s.maxCommitmentSize - 1)).1 := rfl
  have hlast : s.view.ranges.getLast?.map (·.1) =
      s.pendingCommitments.getLast?.map (·.commitment.startID) := by
    simp [StateSyncManager.view, List.getLast?_map, Option.map_map, Function.comp_def,
      PendingCommitment.range]
  simp only [StateSyncManager.buildCommitment, RangeView.buildCommitment]
  rw [← hevents, hlast]
  by_cases hshort : s.view.events.length < minCommitmentSize
  · exact ⟨s, by simp [hshort], by simp [hshort]⟩
  by_cases hguard : alreadyPending (s.pendingCommitments.getLast?.map (·.commitment.startID))
      s.view.events = true
  · exact ⟨s, by simp [hshort, hguard], by simp [hguard]⟩
  have hne : s.view.events ≠ [] := by
    intro he
    rw [he] at hshort
    exact hshort (by decide)
  obtain ⟨pc, hpc, hrange⟩ := newPendingCommitment_ok keccak s.epoch hne
  refine ⟨{ s with pendingCommitments := s.pendingCommitments ++ [pc] }, ?_, ?_⟩
  · simp [hshort, hguard, hpc]
  · rw [if_neg (not_or.mpr ⟨hshort, hguard⟩)]
    simp [StateSyncManager.view, hrange]

theorem addLog_view (s : StateSyncManager keccak) (event : StateSyncedEvent) :
    (s.addLog event).view = s.view.addLog event := by
  obtain ⟨s', hs', hview⟩ := buildCommitment_view { s with store := s.store.insertStateSyncEvent event }
  simp only [StateSyncManager.addLog, hs']
  exact hview

theorem foldl_addLog_view (s : StateSyncManager keccak) (events : List StateSyncedEvent) :
    (events.foldl StateSyncManager.addLog s).view = events.foldl RangeView.addLog s.view := by
  induction events generalizing s with
  | nil => rfl
  | cons event events ih => rw [List.foldl_cons, List.foldl_cons, ih, addLog_view]

def initialManager (keccak : List UInt8 → Hash) : StateSyncManager keccak :=
  ⟨[], [], 0, [], 0, 10⟩

theorem pending_commitments_repeat_after_size_cap (keccak : List UInt8 → Hash) :
    (((List.range 11).map sampleStateSyncEvent).foldl StateSyncManager.addLog
        (initialManager keccak)).pendingCommitments.map PendingCommitment.range =
      [(0, 1), (0, 2), (0, 3), (0, 4), (0, 5), (0, 6), (0, 7), (0, 8), (0, 9), (0, 9)] := by
  rw [← view_ranges, foldl_addLog_view,
    show (initialManager keccak).view = ⟨[], 0, [], 10⟩ from rfl]
  decide +kernel

end PolybftStateSync
