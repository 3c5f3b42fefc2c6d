import Mathlib
import MindPos.MerkleTree
import MindPos.EdgeTypes
import MindPos.Keccak

/-! # Exit events, the event root of a checkpoint, and exit proofs

`consensus/polybft/checkpoint_manager.go` and `state_store_checkpoint.go`. `PostBlock` files the
exit events of every finalized block in the checkpoint store, under the block's epoch and number
(those of an epoch-ending block under the next epoch and the next number). The fsm of a height
takes as its checkpoint's event root the Merkle root of the stored events of its epoch.
`GenerateExitProof` builds the tree of the events of the exit's epoch up to the checkpoint block
that the root chain names, and proves the exit's leaf in it. Keccak and the decoding of exit logs
are parameters. -/
namespace PolybftCheckpointManager

open EdgeTypes RlpEncoding

/-- `polybft.ExitEvent`. -/
structure ExitEvent where
  id : UInt64
  sender : Address
  receiver : Address
  data : List UInt8
  epochNumber : UInt64
  blockNumber : UInt64
  deriving DecidableEq

/-- `contractsapi.L2StateSyncedEvent`, as decoded from an exit log. -/
structure L2StateSyncedEvent where
  id : UInt64
  sender : Address
  receiver : Address
  data : List UInt8
  deriving DecidableEq

/-- `contracts.L2StateSenderContract`. -/
def l2StateSenderContract : Address := bytesToAddress (toBE 0x1002)

/-! ## The encoding of an exit and the exit tree -/

def abiWord (n : Nat) : List UInt8 := rightAlign 32 (toBE n)

/-- `L2StateSyncedEvent.Sig()`: keccak of the signature of the event. -/
def l2StateSyncedSig : Hash :=
  bytesToHash (Keccak.keccak256 "L2StateSynced(uint256,address,address,bytes)".toUTF8.toList)

def decodeAbiBytes (data : List UInt8) : Except String (List UInt8) :=
  let offset := ofBE (data.take 32)
  let len := ofBE ((data.drop offset).take 32)
  if data.length < 32 ∨ data.length < offset + 32 + len then .error "abi: cannot decode bytes"
  else .ok ((data.drop (offset + 32)).take len)

/-- `L2StateSyncedEvent.ParseLog`: a log whose first topic is not the signature is another
event; one that is must carry the three indexed arguments, the ID read as a `uint64`, and the
ABI encoding of the data. -/
def L2StateSyncedEvent.parseLog (l : Log) : Except String (Option L2StateSyncedEvent) :=
  match l.topics with
  | [] => .ok none
  | sig :: indexed =>
    if sig ≠ l2StateSyncedSig then .ok none
    else match indexed with
      | [id, sender, receiver] => do
        let data ← decodeAbiBytes l.data
        pure (some ⟨UInt64.ofNat (ofBE id.bytes), bytesToAddress sender.bytes,
          bytesToAddress receiver.bytes, data⟩)
      | _ => .error "abi: wrong number of topics"

/-- `L2StateSyncedEvent.Encode`: the ABI encoding of `(uint256 id, address sender, address
receiver, bytes data)`; the bytes follow the head, padded to whole words. -/
def encodeExitEvent (e : ExitEvent) : List UInt8 :=
  abiWord e.id.toNat ++ rightAlign 32 e.sender.bytes ++ rightAlign 32 e.receiver.bytes ++
    abiWord 128 ++ abiWord e.data.length ++ e.data ++
    List.replicate ((32 - e.data.length % 32) % 32) 0

theorem encodeExitEvent_ne_nil (e : ExitEvent) : encodeExitEvent e ≠ [] := by
  apply List.ne_nil_of_length_pos
  simp [encodeExitEvent, abiWord, rightAlign_length]

variable (keccak : List UInt8 → Hash)

/-- `newMerkleNode` of an inner node: keccak of the two child hashes. -/
def nodeHash (l r : Hash) : Hash := keccak (l.bytes ++ r.bytes)

def merkleKeccak (b : List UInt8) : Hash := bytesToHash (Keccak.keccak256 b)

/-- A `merkle.MerkleTree` with keccak: the leaf data and the root of their hashes. -/
structure ExitTree where
  leaves : List (List UInt8)
  rootHash : Hash
  root_eq : MerkleTree.root (nodeHash keccak) (leaves.map keccak) = some rootHash

/-- `createExitTree`: the encodings of the events are the leaves. -/
def createExitTree (exitEvents : List ExitEvent) : Except String (ExitTree keccak) :=
  let data := exitEvents.map encodeExitEvent
  match hr : MerkleTree.root (nodeHash keccak) (data.map keccak) with
  | none => .error "tree must contain at least one leaf"
  | some r => .ok ⟨data, r, hr⟩

variable {keccak}

def ExitTree.levels (t : ExitTree keccak) : List (List Hash) :=
  MerkleTree.levels (nodeHash keccak) (t.leaves.map keccak)

def ExitTree.inputs (t : ExitTree keccak) : List (List UInt8) :=
  t.leaves ++ t.levels.dropLast.flatMap fun ℓ =>
    (MerkleTree.pairs ℓ).map fun p => p.1.bytes ++ p.2.bytes

theorem nodeHash_input_inj {a b c d : Hash} (h : a.bytes ++ b.bytes = c.bytes ++ d.bytes) :
    (a, b) = (c, d) := by
  obtain ⟨hac, hbd⟩ := List.append_inj h (by rw [a.length_eq, c.length_eq])
  cases a
  cases b
  cases c
  cases d
  simp_all

theorem ExitTree.root_not_mem_lower (t : ExitTree keccak)
    (hinj : ∀ x ∈ t.inputs, ∀ y ∈ t.inputs, keccak x = keccak y → x = y)
    (hlen : ∀ d ∈ t.leaves, d.length ≠ 64) : ∀ ℓ ∈ t.levels.dropLast, t.rootHash ∉ ℓ := by
  have hpair : ∀ ℓ ∈ t.levels.dropLast, ∀ p ∈ MerkleTree.pairs ℓ,
      p.1.bytes ++ p.2.bytes ∈ t.inputs := fun ℓ hℓ p hp =>
    List.mem_append_right _ (List.mem_flatMap.mpr ⟨ℓ, hℓ, List.mem_map_of_mem hp⟩)
  refine MerkleTree.root_not_mem_lower (nodeHash keccak) ?_ ?_ t.root_eq
  · intro ℓ hℓ ℓ' hℓ' p hp q hq he
    have hbytes := hinj _ (hpair ℓ hℓ p hp) _ (hpair ℓ' hℓ' q hq) he
    exact nodeHash_input_inj hbytes
  · intro x hx ℓ hℓ p hp he
    obtain ⟨d, hd, rfl⟩ := List.mem_map.mp hx
    have hd' := hinj d (List.mem_append_left _ hd) _ (hpair ℓ hℓ p hp) he
    apply hlen d hd
    rw [hd', List.length_append, p.1.length_eq, p.2.length_eq]

/-- `MerkleTree.LeafIndex`: the first leaf equal to `leaf`. -/
def ExitTree.leafIndex (t : ExitTree keccak) (leaf : List UInt8) : Except String Nat :=
  match t.leaves.findIdx? (· = leaf) with
  | none => .error "leaf not found"
  | some i => .ok i

/-- `MerkleTree.GenerateProof`: from the first leaf equal to `leaf`, the siblings met on the way
up to the first node whose hash is the root's. -/
def ExitTree.generateProof (t : ExitTree keccak) (leaf : List UInt8) : Except String (List Hash) :=
  match t.leaves.findIdx? (· = leaf) with
  | none => .error "given data not in merkle tree"
  | some i => .ok (MerkleTree.proofFrom t.rootHash t.levels i)

theorem createExitTree_singleton (e : ExitEvent) :
    ∃ t : ExitTree keccak, createExitTree keccak [e] = .ok t ∧
      t.leaves = [encodeExitEvent e] ∧ t.rootHash = keccak (encodeExitEvent e) := by
  unfold createExitTree
  dsimp only
  split
  · next hr => simp at hr
  · next r hr =>
    simp only [List.map_cons, List.map_nil, MerkleTree.root_singleton, Option.some.injEq] at hr
    exact ⟨_, rfl, rfl, hr.symm⟩

theorem ExitTree.proof_of_singleton {t : ExitTree keccak} {leaf : List UInt8}
    (hleaves : t.leaves = [leaf]) :
    t.leafIndex leaf = .ok 0 ∧ t.generateProof leaf = .ok [] := by
  have hroot := t.root_eq
  simp only [hleaves, List.map_cons, List.map_nil, MerkleTree.root_singleton,
    Option.some.injEq] at hroot
  simp [ExitTree.leafIndex, ExitTree.generateProof, ExitTree.levels, hleaves,
    MerkleTree.levels_of_length_le_one, MerkleTree.proofFrom, hroot]

variable (keccak)

/-- `merkle.VerifyProof`. -/
def verifyProof (index : Nat) (leaf : List UInt8) (proof : List Hash) (root : Hash) :
    Except String Unit :=
  if leaf.length = 0 then .error "empty leaf"
  else if index ≥ 2 ^ proof.length then .error ("invalid leaf index " ++ toString index)
  else if root ≠ MerkleTree.proofHash (nodeHash keccak) (keccak leaf) index proof then
    .error ("leaf with index " ++ toString index ++
      ", not a member of merkle tree. Merkle root hash: " ++ encodeToHex root.bytes)
  else .ok ()

theorem verifyProof_generateProof {t : ExitTree keccak} {leaf : List UInt8} {i : Nat}
    {proof : List Hash} (hleaf : leaf ≠ []) (hi : t.leafIndex leaf = .ok i)
    (hp : t.generateProof leaf = .ok proof) (hlow : ∀ ℓ ∈ t.levels.dropLast, t.rootHash ∉ ℓ) :
    verifyProof keccak i leaf proof t.rootHash = .ok () := by
  unfold ExitTree.leafIndex at hi
  unfold ExitTree.generateProof at hp
  cases hf : t.leaves.findIdx? (· = leaf) with
  | none => simp [hf] at hi
  | some j =>
    simp only [hf, Except.ok.injEq] at hi hp
    subst hi hp
    obtain ⟨hlt, heq, -⟩ := List.findIdx?_eq_some_iff_getElem.mp hf
    have hlt' : j < (t.leaves.map keccak).length := by simpa using hlt
    have hnode : (t.leaves.map keccak)[j] = keccak leaf := by
      rw [List.getElem_map, of_decide_eq_true heq]
    have hroot := MerkleTree.proofHash_proofFrom (nodeHash keccak) t.root_eq hlt'
    have hbound := MerkleTree.lt_two_pow_length_proofFrom (nodeHash keccak) t.root_eq hlow hlt'
    rw [hnode] at hroot
    unfold verifyProof
    rw [if_neg (by simpa using hleaf), if_neg (by unfold ExitTree.levels at *; omega),
      if_neg (by unfold ExitTree.levels; rw [hroot]; exact not_not.mpr rfl)]

/-! ## The checkpoint store -/

/-- The store's two buckets: `exitEvent`, in the order of its keys (epoch, id, block), and
`exitIdToEpochLookup`. -/
structure CheckpointStore where
  exitEvents : List ExitEvent
  exitIdToEpoch : List (UInt64 × UInt64)
  deriving DecidableEq

def keyLe (a b : ExitEvent) : Bool :=
  a.epochNumber < b.epochNumber ||
    (a.epochNumber = b.epochNumber &&
      (a.id < b.id || (a.id = b.id && a.blockNumber ≤ b.blockNumber)))

def sameKey (a b : ExitEvent) : Bool :=
  a.epochNumber = b.epochNumber && a.id = b.id && a.blockNumber = b.blockNumber

/-- `insertExitEventToBucket`: a `Put` into each bucket, replacing an entry of the same key. -/
def CheckpointStore.insertExitEventToBucket (s : CheckpointStore) (exitEvent : ExitEvent) :
    CheckpointStore :=
  { exitEvents := (s.exitEvents.filter (!sameKey · exitEvent)).orderedInsert
      (fun a b => keyLe a b = true) exitEvent
    exitIdToEpoch := (exitEvent.id, exitEvent.epochNumber) ::
      s.exitIdToEpoch.filter (·.1 ≠ exitEvent.id) }

/-- `insertExitEvents`. -/
def CheckpointStore.insertExitEvents (s : CheckpointStore) (exitEvents : List ExitEvent) :
    CheckpointStore :=
  exitEvents.foldl CheckpointStore.insertExitEventToBucket s

/-- `getExitEvents`: the entries under the epoch's prefix that pass the filter, sorted by id. -/
def CheckpointStore.getExitEvents (s : CheckpointStore) (epoch : UInt64)
    (filter : ExitEvent → Bool) : List ExitEvent :=
  ((s.exitEvents.filter fun e => e.epochNumber = epoch && filter e)).insertionSort
    fun a b => a.id ≤ b.id

/-- `getExitEventsByEpoch`. -/
def CheckpointStore.getExitEventsByEpoch (s : CheckpointStore) (epoch : UInt64) : List ExitEvent :=
  s.getExitEvents epoch fun e => e.epochNumber = epoch

/-- `getExitEventsForProof`: the events of the epoch filed up to the checkpoint block. -/
def CheckpointStore.getExitEventsForProof (s : CheckpointStore) (epoch checkpointBlock : UInt64) :
    List ExitEvent :=
  s.getExitEvents epoch fun e => e.epochNumber = epoch && e.blockNumber ≤ checkpointBlock

/-- `getExitEvent`: the epoch from the lookup bucket, then the first entry under
`epoch ‖ id`. -/
def CheckpointStore.getExitEvent (s : CheckpointStore) (exitEventID : UInt64) :
    Except String ExitEvent :=
  match s.exitIdToEpoch.lookup exitEventID with
  | none => .error ("could not find any exit event that has an id: " ++ toString exitEventID ++
      ". Its epoch was not found in lookup table")
  | some epoch =>
    match s.exitEvents.find? fun e => e.epochNumber = epoch && e.id = exitEventID with
    | none => .error ("could not find any exit event that has an id: " ++ toString exitEventID ++
        " and epoch: " ++ toString epoch)
    | some e => .ok e

theorem sameKey_comm (a b : ExitEvent) : sameKey a b = sameKey b a := by
  simp only [sameKey, eq_comm]

@[simp] theorem sameKey_self (a : ExitEvent) : sameKey a a = true := by
  simp [sameKey]

theorem mem_insertExitEventToBucket {s : CheckpointStore} {e x : ExitEvent} :
    x ∈ (s.insertExitEventToBucket e).exitEvents ↔
      x = e ∨ (x ∈ s.exitEvents ∧ sameKey x e = false) := by
  simp [CheckpointStore.insertExitEventToBucket, List.mem_orderedInsert]

theorem mem_insertExitEvents {s : CheckpointStore} {events : List ExitEvent} {x : ExitEvent}
    (hx : x ∈ s.exitEvents ∨ x ∈ events) (hkey : ∀ y ∈ events, sameKey y x = true → y = x) :
    x ∈ (s.insertExitEvents events).exitEvents := by
  induction events generalizing s with
  | nil =>
    rcases hx with hx | hx
    · exact hx
    · simp at hx
  | cons e es ih =>
    have hmem : x ∈ (s.insertExitEventToBucket e).exitEvents ∨ x ∈ es := by
      rw [mem_insertExitEventToBucket]
      rcases hx with hs | hx
      · cases hk : sameKey e x
        · exact .inl (.inr ⟨hs, by rw [sameKey_comm]; exact hk⟩)
        · exact .inl (.inl (hkey e List.mem_cons_self hk).symm)
      · rcases List.mem_cons.mp hx with rfl | hes
        · exact .inl (.inl rfl)
        · exact .inr hes
    exact ih hmem fun y hy => hkey y (List.mem_cons_of_mem e hy)

theorem mem_getExitEvents {s : CheckpointStore} {epoch : UInt64} {filter : ExitEvent → Bool}
    {x : ExitEvent} :
    x ∈ s.getExitEvents epoch filter ↔
      x ∈ s.exitEvents ∧ x.epochNumber = epoch ∧ filter x = true := by
  rw [CheckpointStore.getExitEvents, (List.perm_insertionSort _ _).mem_iff, List.mem_filter,
    Bool.and_eq_true, decide_eq_true_eq]

/-! ## The checkpoint manager -/

/-- The part of `checkpointManager` that `PostBlock` reads and writes. -/
structure CheckpointManager where
  store : CheckpointStore
  checkpointsOffset : UInt64
  lastSentBlock : UInt64
  /-- The address of the node's own key. -/
  keyAddress : Address
  deriving DecidableEq

/-- What `PostBlock` reads of a `PostBlockRequest`. -/
structure PostBlockRequest where
  epoch : UInt64
  isEpochEndingBlock : Bool
  number : UInt64
  miner : List UInt8
  receipts : List Receipt

variable (parseLog : Log → Except String (Option L2StateSyncedEvent))

/-- `getExitEventsFromReceipts`: the exit logs of successful receipts, filed under `epoch` and
`block`, sorted by id. `parseLog` is `L2StateSyncedEvent.ParseLog`: none for another event. -/
def getExitEventsFromReceipts (epoch block : UInt64) (receipts : List Receipt) :
    Except String (List ExitEvent) := do
  let logs := (receipts.filter (·.status = some .success)).flatMap fun r =>
    r.logs.filter (·.address = l2StateSenderContract)
  let decoded ← logs.mapM parseLog
  let events := decoded.filterMap id |>.map fun l =>
    (⟨l.id, l.sender, l.receiver, l.data, epoch, block⟩ : ExitEvent)
  pure (events.insertionSort fun a b => a.id ≤ b.id)

theorem getExitEventsFromReceipts_labels {epoch block : UInt64} {receipts : List Receipt}
    {events : List ExitEvent}
    (h : getExitEventsFromReceipts parseLog epoch block receipts = .ok events) :
    ∀ x ∈ events, x.epochNumber = epoch ∧ x.blockNumber = block := by
  unfold getExitEventsFromReceipts at h
  obtain ⟨decoded, -, h⟩ := Except.bind_eq_ok_iff.mp h
  rw [Except.pure_eq_ok, Except.ok.injEq] at h
  subst h
  intro x hx
  rw [(List.perm_insertionSort _ _).mem_iff, List.mem_map] at hx
  obtain ⟨l, -, rfl⟩ := hx
  exact ⟨rfl, rfl⟩

/-- `isCheckpointBlock`. -/
def CheckpointManager.isCheckpointBlock (c : CheckpointManager) (blockNumber : UInt64)
    (isEpochEndingBlock : Bool) : Bool :=
  isEpochEndingBlock || blockNumber == c.lastSentBlock + c.checkpointsOffset

/-- `PostBlock`: the block's exits are stored (an epoch-ending block's under the next epoch and
number), and a checkpoint block mined by this node becomes the last one sent. -/
def CheckpointManager.postBlock (c : CheckpointManager) (req : PostBlockRequest) :
    Except String CheckpointManager := do
  let (epoch, block) :=
    if req.isEpochEndingBlock then (req.epoch + 1, req.number + 1) else (req.epoch, req.number)
  let events ← getExitEventsFromReceipts parseLog epoch block req.receipts
  let c := { c with store := c.store.insertExitEvents events }
  if c.isCheckpointBlock req.number req.isEpochEndingBlock && c.keyAddress.bytes == req.miner then
    pure { c with lastSentBlock := req.number }
  else pure c

theorem CheckpointManager.postBlock_store {c c' : CheckpointManager} {req : PostBlockRequest}
    (h : c.postBlock parseLog req = .ok c') :
    ∃ events, getExitEventsFromReceipts parseLog
        (if req.isEpochEndingBlock then req.epoch + 1 else req.epoch)
        (if req.isEpochEndingBlock then req.number + 1 else req.number) req.receipts = .ok events ∧
      c'.store = c.store.insertExitEvents events := by
  unfold CheckpointManager.postBlock at h
  cases hend : req.isEpochEndingBlock <;> simp only [hend] at h ⊢
  all_goals
    obtain ⟨events, hevents, h'⟩ := Except.bind_eq_ok_iff.mp h
    refine ⟨events, hevents, ?_⟩
    split_ifs at h' <;>
    · rw [Except.pure_eq_ok, Except.ok.injEq] at h'
      rw [← h']

/-- `BuildEventRoot`: zero for an epoch without exits, the root of their tree otherwise. -/
def buildEventRoot (s : CheckpointStore) (epoch : UInt64) : Except String Hash :=
  let exitEvents := s.getExitEventsByEpoch epoch
  if exitEvents.length = 0 then .ok zeroHash
  else do
    let tree ← createExitTree keccak exitEvents
    pure tree.rootHash

/-- What `GenerateExitProof` returns. -/
structure ExitProof where
  data : List Hash
  leafIndex : Nat
  exitEvent : ExitEvent
  checkpointBlock : UInt64
  deriving DecidableEq

/-- `GenerateExitProof`, with the checkpoint block the root chain gives for the exit's block. -/
def CheckpointManager.generateExitProof (c : CheckpointManager) (exitID checkpointBlock : UInt64) :
    Except String ExitProof := do
  let exitEvent ← c.store.getExitEvent exitID
  let e := encodeExitEvent exitEvent
  let exitEvents := c.store.getExitEventsForProof exitEvent.epochNumber checkpointBlock
  let tree ← createExitTree keccak exitEvents
  let leafIndex ← tree.leafIndex e
  let proof ← tree.generateProof e
  pure ⟨proof, leafIndex, exitEvent, checkpointBlock⟩

theorem generateExitProof_verifies {c : CheckpointManager} {exitID checkpointBlock : UInt64}
    {p : ExitProof} (h : c.generateExitProof keccak exitID checkpointBlock = .ok p) :
    ∃ t : ExitTree keccak,
      createExitTree keccak (c.store.getExitEventsForProof p.exitEvent.epochNumber checkpointBlock) =
        .ok t ∧
      ((∀ ℓ ∈ t.levels.dropLast, t.rootHash ∉ ℓ) →
        verifyProof keccak p.leafIndex (encodeExitEvent p.exitEvent) p.data t.rootHash = .ok ()) := by
  unfold CheckpointManager.generateExitProof at h
  obtain ⟨exitEvent, -, h₁⟩ := Except.bind_eq_ok_iff.mp h
  obtain ⟨tree, htree, h₂⟩ := Except.bind_eq_ok_iff.mp h₁
  obtain ⟨leafIndex, hindex, h₃⟩ := Except.bind_eq_ok_iff.mp h₂
  obtain ⟨proof, hproof, h₄⟩ := Except.bind_eq_ok_iff.mp h₃
  rw [Except.pure_eq_ok, Except.ok.injEq] at h₄
  subst h₄
  exact ⟨tree, htree, fun hlow =>
    verifyProof_generateProof keccak (encodeExitEvent_ne_nil exitEvent) hindex hproof hlow⟩

/-! ## Finalizing blocks -/

/-- A node's exit state over finalized blocks: the checkpoint manager, and the event root the
checkpoint of each finalized block carries. -/
structure ExitRun where
  manager : CheckpointManager
  eventRoots : List (UInt64 × Hash)
  deriving DecidableEq

def ExitRun.finalize (s : ExitRun) (req : PostBlockRequest) : Except String ExitRun := do
  let root ← buildEventRoot keccak s.manager.store req.epoch
  let manager ← s.manager.postBlock parseLog req
  pure ⟨manager, s.eventRoots ++ [(req.number, root)]⟩

theorem ExitRun.finalize_ok {s s' : ExitRun} {req : PostBlockRequest}
    (h : s.finalize keccak parseLog req = .ok s') :
    ∃ root, buildEventRoot keccak s.manager.store req.epoch = .ok root ∧
      s.manager.postBlock parseLog req = .ok s'.manager ∧
      s'.eventRoots = s.eventRoots ++ [(req.number, root)] := by
  obtain ⟨root, hroot, h₁⟩ := Except.bind_eq_ok_iff.mp h
  obtain ⟨manager, hmanager, h₂⟩ := Except.bind_eq_ok_iff.mp h₁
  rw [Except.pure_eq_ok, Except.ok.injEq] at h₂
  subst h₂
  exact ⟨root, hroot, hmanager, rfl⟩

theorem exit_outside_event_root_of_its_block {s s' : ExitRun} {req : PostBlockRequest}
    (hend : req.isEpochEndingBlock = false) {events : List ExitEvent}
    (hevents : getExitEventsFromReceipts parseLog req.epoch req.number req.receipts = .ok events)
    {x : ExitEvent} (hx : x ∈ events) (hid : ∀ y ∈ events, y.id = x.id → y = x)
    (hfresh : ∀ e ∈ s.manager.store.exitEvents, sameKey e x = false)
    (hs : s.finalize keccak parseLog req = .ok s') :
    ∃ root, s'.eventRoots = s.eventRoots ++ [(req.number, root)] ∧
      buildEventRoot keccak s.manager.store req.epoch = .ok root ∧
      x ∉ s.manager.store.getExitEventsByEpoch req.epoch ∧
      x ∈ s'.manager.store.getExitEventsForProof req.epoch req.number := by
  obtain ⟨root, hroot, hpost, hroots⟩ := ExitRun.finalize_ok keccak parseLog hs
  obtain ⟨events', hevents', hstore⟩ := CheckpointManager.postBlock_store parseLog hpost
  simp only [hend, Bool.false_eq_true, if_false, hevents, Except.ok.injEq] at hevents'
  subst hevents'
  obtain ⟨hepoch, hblock⟩ := getExitEventsFromReceipts_labels parseLog hevents x hx
  refine ⟨root, hroots, hroot, fun hmem => ?_, ?_⟩
  · have hstored := (mem_getExitEvents.mp hmem).1
    simpa using hfresh x hstored
  · have hkey : ∀ y ∈ events, sameKey y x = true → y = x := fun y hy hk =>
      hid y hy (by simp only [sameKey, Bool.and_eq_true, decide_eq_true_eq] at hk; exact hk.1.2)
    rw [CheckpointStore.getExitEventsForProof, mem_getExitEvents, hstore]
    refine ⟨mem_insertExitEvents (.inr hx) hkey, hepoch, ?_⟩
    simp [hepoch, hblock]

/-! ## An exit of the checkpoint block itself

A fresh node that sends a checkpoint for every block mines block 1 of epoch 1, which does not end
the epoch, and whose one receipt emits the exit with id 0. -/

def sampleExitLog : Log :=
  ⟨l2StateSenderContract, [l2StateSyncedSig, hashOfNat 0, hashOfNat 1, hashOfNat 2],
    abiWord 32 ++ abiWord 1 ++ 7 :: List.replicate 31 0⟩

def sampleKeyAddress : Address := bytesToAddress (toBE 5)

def sampleExitRun : ExitRun := ⟨⟨⟨[], []⟩, 1, 0, sampleKeyAddress⟩, []⟩

def sampleRequest : PostBlockRequest :=
  ⟨1, false, 1, sampleKeyAddress.bytes,
    [⟨zeroHash, 21000, [], [sampleExitLog], some .success, 21000, zeroHash, .legacyTx⟩]⟩

def sampleExit : ExitEvent := ⟨0, bytesToAddress (toBE 1), bytesToAddress (toBE 2), [7], 1, 1⟩

def sampleManagerAfter : CheckpointManager := ⟨⟨[sampleExit], [(0, 1)]⟩, 1, 1, sampleKeyAddress⟩

/-- Block 1 is the checkpoint block of its own exit, and its checkpoint carries the zero event
root, read before the block. The proof `GenerateExitProof` gives for the exit is built over the
tree of that exit alone: no siblings at index 0. It verifies against the checkpoint's root only if
keccak of the exit's encoding is the zero hash. -/
theorem exit_proof_of_checkpoint_block_checked_against_zero_root (keccak : List UInt8 → Hash) :
    sampleExitRun.finalize keccak L2StateSyncedEvent.parseLog sampleRequest =
        .ok ⟨sampleManagerAfter, [(1, zeroHash)]⟩ ∧
      sampleManagerAfter.generateExitProof keccak 0 1 = .ok ⟨[], 0, sampleExit, 1⟩ ∧
      (verifyProof keccak 0 (encodeExitEvent sampleExit) [] zeroHash = .ok () ↔
        keccak (encodeExitEvent sampleExit) = zeroHash) := by
  have hpost : sampleExitRun.manager.postBlock L2StateSyncedEvent.parseLog sampleRequest =
      .ok sampleManagerAfter := by decide +kernel
  have hexit : sampleManagerAfter.store.getExitEvent 0 = .ok sampleExit := by decide +kernel
  have hevents : sampleManagerAfter.store.getExitEventsForProof 1 1 = [sampleExit] := by
    decide +kernel
  obtain ⟨tree, htree, hleaves, hrootHash⟩ := @createExitTree_singleton keccak sampleExit
  obtain ⟨hindex, hproof⟩ := ExitTree.proof_of_singleton hleaves
  refine ⟨?_, ?_, ?_⟩
  · simp only [ExitRun.finalize, hpost, Except.ok_bind_eq, Except.pure_eq_ok]
    rfl
  · simp only [CheckpointManager.generateExitProof, hexit, Except.ok_bind_eq]
    rw [show sampleExit.epochNumber = 1 from rfl, hevents, htree, Except.ok_bind_eq, hindex,
      Except.ok_bind_eq, hproof, Except.ok_bind_eq, Except.pure_eq_ok]
  · unfold verifyProof
    rw [if_neg (by simpa using encodeExitEvent_ne_nil sampleExit), if_neg (by simp),
      MerkleTree.proofHash]
    by_cases hz : keccak (encodeExitEvent sampleExit) = zeroHash
    · simp [hz]
    · simp [hz, Ne.symm hz]

end PolybftCheckpointManager
