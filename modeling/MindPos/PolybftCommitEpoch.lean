import MindPos.PolybftExtra
import MindPos.TypesRlp
import MindPos.GoSort

/-! # The uptime of an epoch

`consensusRuntime.calculateCommitEpochInput` of `consensus/polybft/consensus_runtime.go`, which
`FSM` calls on the parent of an epoch's last block. The signatures of a block are in the extra of
the next one, so the loop over the epoch stops two blocks short of its end and a lookback of two
blocks into the previous epoch counts the two blocks the previous call could not. -/
namespace PolybftConsensusRuntime

open EdgeTypes RlpEncoding PolybftValidator PolybftExtra

variable {K : Type}

def errNoBlock : String := "no block data passed in"

def commitEpochLookbackSize : ℕ := 2

/-- `epochMetadata`. -/
structure EpochMetadata (K : Type) where
  number : UInt64
  firstBlockInEpoch : UInt64
  validators : AccountSet K

/-- The reads of the chain the runtime makes: headers by number, and `GetValidators` at a
height. The store keeps each header under its own number. -/
structure ChainView (K : Type) where
  codec : Codec
  keyCodec : KeyCodec K
  getHeaderByNumber : UInt64 → Option Header
  number_getHeaderByNumber : ∀ n h, getHeaderByNumber n = some h → h.number = n
  getValidators : UInt64 → Except String (AccountSet K)

/-- `getBlockData`: the header at a number and its extra. -/
def ChainView.getBlockData (cv : ChainView K) (blockNumber : UInt64) :
    ExceptT String Option (Header × Extra K) :=
  match cv.getHeaderByNumber blockNumber with
  | none => throw errNoBlock
  | some blockHeader => do
    let blockExtra ← (getIbftExtra cv.codec cv.keyCodec blockHeader.extraData : Except String _)
    pure (blockHeader, blockExtra)

/-- `getSealersForBlock`, less the counting: the addresses of the validators in the bitmap of the
extra's parent signatures. A nil `Parent` is dereferenced. -/
def getSealersForBlock (blockExtra : Extra K) (validators : AccountSet K) :
    ExceptT String Option (List Address) :=
  match blockExtra.parent with
  | none => ExceptT.mk none
  | some parent => do
    let signers ← (validators.getFilteredValidators parent.bitmap : Except String _)
    pure signers.getAddresses

def currentEpochLoop (cv : ChainView K) (epoch : EpochMetadata K) :
    ℕ → Header → Extra K → List Address →
      ExceptT String Option (Header × Extra K × List Address)
  | 0, blockHeader, blockExtra, uptimeCounter => pure (blockHeader, blockExtra, uptimeCounter)
  | fuel + 1, blockHeader, blockExtra, uptimeCounter =>
    if blockHeader.number > epoch.firstBlockInEpoch then do
      let signers ← getSealersForBlock blockExtra epoch.validators
      let (blockHeader, blockExtra) ← cv.getBlockData (blockHeader.number - 1)
      currentEpochLoop cv epoch fuel blockHeader blockExtra (uptimeCounter ++ signers)
    else pure (blockHeader, blockExtra, uptimeCounter)

def lookbackLoop (cv : ChainView K) :
    ℕ → Header → Extra K → List Address →
      ExceptT String Option (Header × Extra K × List Address)
  | 0, blockHeader, blockExtra, uptimeCounter => pure (blockHeader, blockExtra, uptimeCounter)
  | i + 1, blockHeader, blockExtra, uptimeCounter => do
    let validators ← (cv.getValidators (blockHeader.number - 2) : Except String _)
    let signers ← getSealersForBlock blockExtra validators
    let (blockHeader, blockExtra) ← cv.getBlockData (blockHeader.number - 1)
    lookbackLoop cv i blockHeader blockExtra (uptimeCounter ++ signers)

/-- `contractsapi.Uptime`. -/
structure Uptime where
  validator : Address
  signedBlocks : ℤ
  deriving DecidableEq

/-- `contractsapi.CommitEpochValidatorSetFn` with its `Epoch`. -/
structure CommitEpochValidatorSetFn where
  id : ℕ
  startBlock : ℕ
  endBlock : ℕ
  epochRoot : Hash
  deriving DecidableEq

/-- `contractsapi.DistributeRewardForRewardPoolFn`. -/
structure DistributeRewardForRewardPoolFn where
  epochID : ℕ
  uptime : List Uptime
  deriving DecidableEq

/-- `calculateCommitEpochInput`. The counter's keys are sorted by their bytes, greatest first. -/
def calculateCommitEpochInput (cv : ChainView K) (currentBlock : Header)
    (epoch : EpochMetadata K) :
    ExceptT String Option (CommitEpochValidatorSetFn × DistributeRewardForRewardPoolFn) := do
  let blockExtra ← (getIbftExtra cv.codec cv.keyCodec currentBlock.extraData : Except String _)
  let (blockHeader, blockExtra, uptimeCounter) ←
    currentEpochLoop cv epoch currentBlock.number.toNat currentBlock blockExtra []
  let (_, _, uptimeCounter) ←
    if blockHeader.number.toNat > commitEpochLookbackSize then
      lookbackLoop cv commitEpochLookbackSize blockHeader blockExtra uptimeCounter
    else pure (blockHeader, blockExtra, uptimeCounter)
  let addrSet := GoSort.insertionSort (fun a b => bytesCompare a.bytes b.bytes == .gt)
    uptimeCounter.dedup
  let uptime := addrSet.map fun addr => (⟨addr, uptimeCounter.count addr⟩ : Uptime)
  pure (⟨epoch.number.toNat, epoch.firstBlockInEpoch.toNat, (currentBlock.number + 1).toNat,
    zeroHash⟩, ⟨epoch.number.toNat, uptime⟩)

def DistributeRewardForRewardPoolFn.signedBlocksOf (d : DistributeRewardForRewardPoolFn)
    (addr : Address) : ℤ :=
  ((d.uptime.find? (·.validator == addr)).map (·.signedBlocks)).getD 0

/-- `isFixedSizeOfEpochMet`. -/
def isFixedSizeOfEpochMet (epochSize blockNumber : UInt64) (epoch : EpochMetadata K) : Bool :=
  epoch.firstBlockInEpoch + epochSize - 1 == blockNumber

theorem isFixedSizeOfEpochMet_iff {epoch : EpochMetadata K} {S : ℕ} {parent : UInt64}
    (hF : 1 ≤ epoch.firstBlockInEpoch.toNat) (hS : 1 ≤ S)
    (hend : epoch.firstBlockInEpoch.toNat + S - 1 < 2 ^ 64) (hparent : parent.toNat + 1 < 2 ^ 64) :
    isFixedSizeOfEpochMet (UInt64.ofNat S) (parent + 1) epoch = true ↔
      parent.toNat = epoch.firstBlockInEpoch.toNat + S - 2 := by
  have hSn : (UInt64.ofNat S).toNat = S := UInt64.toNat_ofNat_of_lt' (by simp only [UInt64.size]; omega)
  rw [isFixedSizeOfEpochMet, beq_iff_eq, ← UInt64.toNat_inj, UInt64.toNat_sub, UInt64.toNat_add,
    UInt64.toNat_add, hSn]
  simp only [UInt64.reduceToNat]
  have := epoch.firstBlockInEpoch.toNat_lt_size
  simp only [UInt64.size] at *
  omega

/-! ## Reading a stretch of the chain -/

section Chain

variable {cv : ChainView K}

theorem ChainView.getBlockData_eq_pure {n : UInt64} {h : Header} {e : Extra K} :
    cv.getBlockData n = pure (h, e) ↔
      cv.getHeaderByNumber n = some h ∧ getIbftExtra cv.codec cv.keyCodec h.extraData = .ok e := by
  unfold ChainView.getBlockData
  split
  · rename_i hn
    exact ⟨fun hd => (nomatch hd), fun ⟨hh, _⟩ => by rw [hn] at hh; cases hh⟩
  · rename_i h' hh
    rw [lift_bind_eq_pure_iff]
    constructor
    · rintro ⟨e', he', hpe⟩
      obtain ⟨rfl, rfl⟩ := Prod.mk.inj (decode_pure_inj hpe)
      exact ⟨hh, he'⟩
    · rintro ⟨hh', he⟩
      rw [hh] at hh'
      cases hh'
      exact ⟨e, he, rfl⟩

theorem ChainView.number_of_getBlockData {n : UInt64} {h : Header} {e : Extra K}
    (hd : cv.getBlockData n = pure (h, e)) : h.number = n :=
  cv.number_getHeaderByNumber n h (ChainView.getBlockData_eq_pure.mp hd).1

/-- A stretch of the chain from block `lo` to block `hi` as `ValidateParentSignatures` leaves it:
each block is stored with the extra `extraOf`, and the parent bitmap in the extra of block
`b + 1`, read against `GetValidators(b - 1)`, names the signers `signersOf b`. -/
structure SignedStretch (cv : ChainView K) (extraOf : ℕ → Extra K)
    (signersOf : ℕ → List Address) (lo hi : ℕ) : Prop where
  one_le : 1 ≤ lo
  lt : hi < 2 ^ 64
  stored : ∀ n, lo ≤ n → n ≤ hi → ∃ h, cv.getBlockData (UInt64.ofNat n) = pure (h, extraOf n)
  signed : ∀ b, lo ≤ b → b < hi → ∃ validators,
    cv.getValidators (UInt64.ofNat (b - 1)) = .ok validators ∧
      getSealersForBlock (extraOf (b + 1)) validators = pure (signersOf b)

theorem sub_eq_ofNat_of_toNat {x y : UInt64} {m : ℕ} (hx : x.toNat = m) (hy : y.toNat ≤ m) :
    x - y = UInt64.ofNat (m - y.toNat) := by
  apply UInt64.toNat_inj.mp
  rw [UInt64.toNat_sub_of_le _ _ (UInt64.le_iff_toNat_le.mpr (by omega)), hx,
    UInt64.toNat_ofNat_of_lt' (by rw [← hx]; exact lt_of_le_of_lt (Nat.sub_le _ _) x.toNat_lt_size)]

theorem toNat_ofNat_of_lt_two_pow {m : ℕ} (h : m < 2 ^ 64) : (UInt64.ofNat m).toNat = m :=
  UInt64.toNat_ofNat_of_lt' h

section Loops

variable {extraOf : ℕ → Extra K} {signersOf : ℕ → List Address} {lo hi : ℕ}

theorem currentEpochLoop_eq {F : ℕ} {epoch : EpochMetadata K}
    (hs : SignedStretch cv extraOf signersOf lo hi) (hF : epoch.firstBlockInEpoch.toNat = F)
    (hlo : lo ≤ F)
    (hsig : ∀ b, F ≤ b → b < hi →
      getSealersForBlock (extraOf (b + 1)) epoch.validators = pure (signersOf b)) :
    ∀ (k fuel : ℕ) (blockHeader : Header) (uptimeCounter : List Address), F + k ≤ hi →
      k ≤ fuel → blockHeader.number.toNat = F + k →
      ∃ header, header.number.toNat = F ∧
        currentEpochLoop cv epoch fuel blockHeader (extraOf (F + k)) uptimeCounter =
          pure (header, extraOf F,
            uptimeCounter ++ (List.range k).reverse.flatMap fun j => signersOf (F + j)) := by
  intro k
  induction k with
  | zero =>
    intro fuel blockHeader uptimeCounter _ _ hnum
    refine ⟨blockHeader, hnum, ?_⟩
    have hle : ¬ blockHeader.number > epoch.firstBlockInEpoch := by
      rw [gt_iff_lt, UInt64.lt_iff_toNat_lt, hnum, hF]
      omega
    cases fuel <;> simp [currentEpochLoop, hle]
  | succ k ih =>
    intro fuel blockHeader uptimeCounter hhi hfuel hnum
    obtain ⟨fuel, rfl⟩ : ∃ f, fuel = f + 1 := ⟨fuel - 1, by omega⟩
    have hgt : blockHeader.number > epoch.firstBlockInEpoch := by
      rw [gt_iff_lt, UInt64.lt_iff_toNat_lt, hnum, hF]
      omega
    have hprev : blockHeader.number - 1 = UInt64.ofNat (F + k) := by
      rw [sub_eq_ofNat_of_toNat hnum (by simp only [UInt64.reduceToNat]; omega)]
      simp
    obtain ⟨header, hdata⟩ := hs.stored (F + k) (by omega) (by omega)
    have hnum' : header.number.toNat = F + k := by
      rw [cv.number_of_getBlockData hdata, toNat_ofNat_of_lt_two_pow (by have := hs.lt; omega)]
    obtain ⟨header', hF', hrest⟩ :=
      ih fuel header (uptimeCounter ++ signersOf (F + k)) (by omega) (by omega) hnum'
    refine ⟨header', hF', ?_⟩
    rw [currentEpochLoop, if_pos hgt, show F + (k + 1) = F + k + 1 by omega,
      hsig (F + k) (by omega) (by omega), pure_bind, hprev, hdata, pure_bind]
    dsimp only
    rw [hrest, List.range_succ, List.reverse_append, List.reverse_singleton,
      List.singleton_append, List.flatMap_cons, List.append_assoc]

theorem lookbackLoop_eq (hs : SignedStretch cv extraOf signersOf lo hi) :
    ∀ (i m : ℕ) (blockHeader : Header) (uptimeCounter : List Address), lo + i ≤ m → m ≤ hi →
      blockHeader.number.toNat = m →
      ∃ header, lookbackLoop cv i blockHeader (extraOf m) uptimeCounter =
        pure (header, extraOf (m - i),
          uptimeCounter ++ (List.range i).flatMap fun j => signersOf (m - 1 - j)) := by
  intro i
  induction i with
  | zero =>
    intro m blockHeader uptimeCounter _ _ _
    exact ⟨blockHeader, by simp [lookbackLoop]⟩
  | succ i ih =>
    intro m blockHeader uptimeCounter hlo hhi hnum
    have hone := hs.one_le
    obtain ⟨validators, hV, hsig⟩ := hs.signed (m - 1) (by omega) (by omega)
    rw [show m - 1 + 1 = m by omega] at hsig
    have hsub₂ : blockHeader.number - 2 = UInt64.ofNat (m - 1 - 1) := by
      rw [sub_eq_ofNat_of_toNat hnum (by simp only [UInt64.reduceToNat]; omega)]
      simp only [UInt64.reduceToNat]
      congr 1
    have hsub₁ : blockHeader.number - 1 = UInt64.ofNat (m - 1) := by
      rw [sub_eq_ofNat_of_toNat hnum (by simp only [UInt64.reduceToNat]; omega)]
      simp
    obtain ⟨header, hdata⟩ := hs.stored (m - 1) (by omega) (by omega)
    have hnum' : header.number.toNat = m - 1 := by
      rw [cv.number_of_getBlockData hdata, toNat_ofNat_of_lt_two_pow (by have := hs.lt; omega)]
    obtain ⟨header', hrest⟩ :=
      ih (m - 1) header (uptimeCounter ++ signersOf (m - 1)) (by omega) (by omega) hnum'
    refine ⟨header', ?_⟩
    rw [lookbackLoop, hsub₂, hV, lift_ok_bind, hsig, pure_bind, hsub₁, hdata, pure_bind]
    dsimp only
    have hshift : (fun j => signersOf (m - 1 - (j + 1))) = fun j => signersOf (m - 1 - 1 - j) := by
      funext j
      congr 1
      omega
    rw [hrest, show m - 1 - i = m - (i + 1) by omega, List.range_succ_eq_map, List.flatMap_cons,
      List.flatMap_map, List.append_assoc, Nat.sub_zero]
    simp only [Nat.succ_eq_add_one, hshift]

/-! ## What the reward pool is given -/

theorem signedBlocksOf_uptime (epochID : ℕ) (less : Address → Address → Bool)
    (uptimeCounter : List Address) (addr : Address) :
    (⟨epochID, (GoSort.insertionSort less uptimeCounter.dedup).map fun a =>
        (⟨a, uptimeCounter.count a⟩ : Uptime)⟩ : DistributeRewardForRewardPoolFn).signedBlocksOf
      addr = uptimeCounter.count addr := by
  unfold DistributeRewardForRewardPoolFn.signedBlocksOf
  have hperm : (GoSort.insertionSort less uptimeCounter.dedup).Perm uptimeCounter.dedup :=
    GoSort.insertionSort_perm uptimeCounter.dedup
  cases hfind : ((GoSort.insertionSort less uptimeCounter.dedup).map fun a =>
      (⟨a, uptimeCounter.count a⟩ : Uptime)).find? (·.validator == addr) with
  | none =>
    have hnot : addr ∉ uptimeCounter := by
      intro hmem
      have hlisted : (⟨addr, uptimeCounter.count addr⟩ : Uptime) ∈
          (GoSort.insertionSort less uptimeCounter.dedup).map fun a =>
            (⟨a, uptimeCounter.count a⟩ : Uptime) :=
        List.mem_map.mpr ⟨addr, hperm.mem_iff.mpr (List.mem_dedup.mpr hmem), rfl⟩
      simpa using List.find?_eq_none.mp hfind _ hlisted
    simp [List.count_eq_zero_of_not_mem hnot]
  | some u =>
    obtain ⟨a, -, rfl⟩ := List.mem_map.mp (List.mem_of_find?_eq_some hfind)
    have hva : a = addr := by simpa using List.find?_some hfind
    subst hva
    rfl

def uptimeBlocks (F S : ℕ) : List ℕ :=
  if 2 < F then List.range' (F - 2) S else List.range' F (S - 2)

theorem flatMap_range_reverse_perm (F k : ℕ) (signersOf : ℕ → List Address) :
    ((List.range k).reverse.flatMap fun j => signersOf (F + j)).Perm
      ((List.range' F k).flatMap signersOf) := by
  rw [List.range'_eq_map_range, List.flatMap_map]
  exact (List.reverse_perm _).flatMap_right _

theorem counter_perm_of_lookback {F S : ℕ} (hF : 2 < F) (hS : 2 ≤ S) (signersOf : ℕ → List Address) :
    (((List.range (S - 2)).reverse.flatMap fun j => signersOf (F + j)) ++
        (List.range 2).flatMap fun j => signersOf (F - 1 - j)).Perm
      ((List.range' (F - 2) S).flatMap signersOf) := by
  have hlook : ((List.range 2).flatMap fun j => signersOf (F - 1 - j)) =
      signersOf (F - 1) ++ signersOf (F - 2) := by
    simp [List.range_succ, show F - 1 - 1 = F - 2 by omega]
  have hblocks : List.range' (F - 2) S = (F - 2) :: (F - 1) :: List.range' F (S - 2) := by
    obtain ⟨n, rfl⟩ : ∃ n, S = n + 2 := ⟨S - 2, by omega⟩
    rw [List.range'_succ, List.range'_succ, show F - 2 + 1 = F - 1 by omega,
      show F - 1 + 1 = F by omega, Nat.add_sub_cancel]
  rw [hlook, hblocks, List.flatMap_cons, List.flatMap_cons, ← List.append_assoc (signersOf (F - 2))]
  exact List.perm_append_comm.trans
    (List.perm_append_comm.append (flatMap_range_reverse_perm F _ _))

theorem calculateCommitEpochInput_eq {F S : ℕ} {epoch : EpochMetadata K} {currentBlock : Header}
    (hs : SignedStretch cv extraOf signersOf (if 2 < F then F - 2 else F) (F + S - 2))
    (hF : epoch.firstBlockInEpoch.toNat = F) (hS : 2 ≤ S)
    (hepoch : ∀ b, F ≤ b → b < F + S - 2 →
      cv.getValidators (UInt64.ofNat (b - 1)) = .ok epoch.validators)
    (hcur : cv.getHeaderByNumber (UInt64.ofNat (F + S - 2)) = some currentBlock) :
    ∃ commit, ∃ uptimeCounter : List Address,
      uptimeCounter.Perm ((uptimeBlocks F S).flatMap signersOf) ∧
      calculateCommitEpochInput cv currentBlock epoch = pure (commit,
        ⟨epoch.number.toNat, (GoSort.insertionSort (fun a b => bytesCompare a.bytes b.bytes == .gt)
          uptimeCounter.dedup).map fun a => ⟨a, uptimeCounter.count a⟩⟩) := by
  have hone := hs.one_le
  have hlo : (if 2 < F then F - 2 else F) ≤ F := by split_ifs <;> omega
  have hsig : ∀ b, F ≤ b → b < F + S - 2 →
      getSealersForBlock (extraOf (b + 1)) epoch.validators = pure (signersOf b) := by
    intro b hb hb'
    obtain ⟨validators, hV, hsealers⟩ := hs.signed b (by omega) hb'
    rw [hepoch b hb hb', Except.ok.injEq] at hV
    rwa [hV]
  obtain ⟨header, hdata⟩ := hs.stored (F + S - 2) (by omega) le_rfl
  obtain ⟨hheader, hextra⟩ := ChainView.getBlockData_eq_pure.mp hdata
  rw [hcur, Option.some.injEq] at hheader
  subst hheader
  have hnum : currentBlock.number.toNat = F + (S - 2) := by
    rw [cv.number_getHeaderByNumber _ _ hcur, toNat_ofNat_of_lt_two_pow hs.lt]
    omega
  obtain ⟨headerF, hnumF, hloop⟩ := currentEpochLoop_eq hs hF hlo hsig (S - 2)
    currentBlock.number.toNat currentBlock [] (by omega) (by omega) hnum
  rw [show F + (S - 2) = F + S - 2 by omega] at hloop
  by_cases hlook : 2 < F
  · obtain ⟨headerL, hback⟩ := lookbackLoop_eq hs 2 F headerF
      ([] ++ (List.range (S - 2)).reverse.flatMap fun j => signersOf (F + j))
      (by simp only [if_pos hlook]; omega) (by omega) hnumF
    refine ⟨⟨epoch.number.toNat, epoch.firstBlockInEpoch.toNat, (currentBlock.number + 1).toNat,
      zeroHash⟩, [] ++ ((List.range (S - 2)).reverse.flatMap fun j => signersOf (F + j)) ++
      (List.range 2).flatMap fun j => signersOf (F - 1 - j), ?_, ?_⟩
    · rw [uptimeBlocks, if_pos hlook, List.nil_append]
      exact counter_perm_of_lookback hlook hS signersOf
    · rw [calculateCommitEpochInput, hextra, lift_ok_bind, hloop, pure_bind]
      dsimp only
      rw [if_pos (by rw [commitEpochLookbackSize, hnumF]; exact hlook), commitEpochLookbackSize,
        hback, pure_bind]
  · refine ⟨⟨epoch.number.toNat, epoch.firstBlockInEpoch.toNat, (currentBlock.number + 1).toNat,
      zeroHash⟩, [] ++ (List.range (S - 2)).reverse.flatMap fun j => signersOf (F + j), ?_, ?_⟩
    · rw [uptimeBlocks, if_neg hlook, List.nil_append]
      exact flatMap_range_reverse_perm F _ _
    · rw [calculateCommitEpochInput, hextra, lift_ok_bind, hloop, pure_bind]
      dsimp only
      rw [if_neg (by rw [commitEpochLookbackSize, hnumF]; exact hlook), pure_bind]

theorem count_flatMap_of_nodup {blocks : List ℕ} {signersOf : ℕ → List Address}
    (hnodup : ∀ b ∈ blocks, (signersOf b).Nodup) (v : Address) :
    (blocks.flatMap signersOf).count v = (blocks.filter fun b => v ∈ signersOf b).length := by
  induction blocks with
  | nil => rfl
  | cons b blocks ih =>
    have ih' := ih fun b' hb' => hnodup b' (List.mem_cons_of_mem b hb')
    rw [List.flatMap_cons, List.count_append, ih']
    by_cases hv : v ∈ signersOf b
    · rw [List.count_eq_one_of_mem (hnodup b List.mem_cons_self) hv,
        List.filter_cons_of_pos (by simpa using hv), List.length_cons]
      omega
    · rw [List.count_eq_zero_of_not_mem hv, List.filter_cons_of_neg (by simpa using hv)]
      omega

theorem flatMap_uptimeBlocks {S : ℕ} (hS : 2 ≤ S) (k : ℕ) :
    (List.range (k + 1)).flatMap (fun j => uptimeBlocks (j * S + 1) S) =
      List.range' 1 ((k + 1) * S - 2) := by
  induction k with
  | zero => simp [uptimeBlocks]
  | succ k ih =>
    have hkS : 2 ≤ (k + 1) * S := le_trans hS (Nat.le_mul_of_pos_left S (by omega))
    have hnext : uptimeBlocks ((k + 1) * S + 1) S = List.range' ((k + 1) * S - 1) S := by
      rw [uptimeBlocks, if_pos (by omega)]
      congr 1
    rw [List.range_succ, List.flatMap_append, ih, List.flatMap_singleton, hnext,
      show (k + 1 + 1) * S = (k + 1) * S + S by ring]
    rw [show (k + 1) * S - 1 = 1 + 1 * ((k + 1) * S - 2) by omega, List.range'_append]
    congr 1
    omega

/-- For an epoch of `S` blocks from `F`, built on the parent of its last block, over a chain whose
blocks from two before the epoch passed `ValidateParentSignatures` and whose epoch blocks are
validated by the epoch's set: the reward pool is given, for each address, the number of times the
bitmaps of the blocks of `uptimeBlocks F S` name it, which is the number of those blocks that name
it when no bitmap names an address twice. Over consecutive epochs of `S` blocks, these blocks
follow one another from block 1. -/
theorem commit_epoch_uptime_counts_signatures (cv : ChainView K) (extraOf : ℕ → Extra K)
    (signersOf : ℕ → List Address) {F S : ℕ} {epoch : EpochMetadata K} {currentBlock : Header}
    (hs : SignedStretch cv extraOf signersOf (if 2 < F then F - 2 else F) (F + S - 2))
    (hF : epoch.firstBlockInEpoch.toNat = F) (hS : 2 ≤ S)
    (hepoch : ∀ b, F ≤ b → b < F + S - 2 →
      cv.getValidators (UInt64.ofNat (b - 1)) = .ok epoch.validators)
    (hcur : cv.getHeaderByNumber (UInt64.ofNat (F + S - 2)) = some currentBlock) :
    ∃ commit rewards, calculateCommitEpochInput cv currentBlock epoch = pure (commit, rewards) ∧
      (∀ v, rewards.signedBlocksOf v =
        (((uptimeBlocks F S).map fun b => (signersOf b).count v).sum : ℤ)) ∧
      ((∀ b ∈ uptimeBlocks F S, (signersOf b).Nodup) → ∀ v,
        rewards.signedBlocksOf v = (((uptimeBlocks F S).filter fun b => v ∈ signersOf b).length : ℤ)) ∧
      ∀ k, (List.range (k + 1)).flatMap (fun j => uptimeBlocks (j * S + 1) S) =
        List.range' 1 ((k + 1) * S - 2) := by
  obtain ⟨commit, uptimeCounter, hperm, hrun⟩ :=
    calculateCommitEpochInput_eq hs hF hS hepoch hcur
  refine ⟨commit, _, hrun, ?_, ?_, flatMap_uptimeBlocks hS⟩
  · intro v
    rw [signedBlocksOf_uptime, hperm.count_eq, List.count_flatMap]
    rfl
  · intro hnodup v
    rw [signedBlocksOf_uptime, hperm.count_eq, count_flatMap_of_nodup hnodup]

end Loops

end Chain

/-! ## A chain of two validators -/

def firstValidator : ValidatorMetadata (List UInt8) := ⟨bytesToAddress [1], none, 1, true⟩

def secondValidator : ValidatorMetadata (List UInt8) := ⟨bytesToAddress [2], none, 1, true⟩

def pairExtra (n : ℕ) : Extra (List UInt8) :=
  ⟨some .empty, some ⟨[], [if n % 2 = 0 then 3 else 1]⟩, none, none⟩

def pairSigners (b : ℕ) : List Address :=
  if (b + 1) % 2 = 0 then [firstValidator.address, secondValidator.address]
  else [firstValidator.address]

def pairHeaderAt (n : UInt64) : Header :=
  { emptyExtraHeader with
    number := n, extraData := (pairExtra n.toNat).marshalRLPTo rlp rawKeyCodec }

def pairChain : ChainView (List UInt8) where
  codec := rlp
  keyCodec := rawKeyCodec
  getHeaderByNumber n := if n ≤ 8 then some (pairHeaderAt n) else none
  number_getHeaderByNumber n h hh := by
    split at hh
    · cases hh
      rfl
    · cases hh
  getValidators _ := .ok [firstValidator, secondValidator]

def pairEpoch : EpochMetadata (List UInt8) := ⟨2, 5, [firstValidator, secondValidator]⟩

theorem getBlockData_pairChain {n : ℕ} (hn : n ≤ 8) :
    pairChain.getBlockData (UInt64.ofNat n) = pure (pairHeaderAt (UInt64.ofNat n), pairExtra n) := by
  have hlt : n < 2 ^ 64 := by omega
  have hle : UInt64.ofNat n ≤ 8 := by
    rw [UInt64.le_iff_toNat_le, toNat_ofNat_of_lt_two_pow hlt]
    simpa using hn
  refine ChainView.getBlockData_eq_pure.mpr ⟨if_pos hle, ?_⟩
  rw [pairHeaderAt, toNat_ofNat_of_lt_two_pow hlt]
  apply getIbftExtra_marshalRLPTo rawKeyCodec rlp_parsesWhatItEncodes
  intro d hd
  cases hd
  constructor <;> nofun

theorem signedStretch_pairChain : SignedStretch pairChain pairExtra pairSigners 3 7 where
  one_le := by decide
  lt := by decide
  stored n _ hn := ⟨_, getBlockData_pairChain (by omega)⟩
  signed b _ _ := by
    refine ⟨_, rfl, ?_⟩
    rw [pairExtra, pairSigners]
    split_ifs <;> rfl

/-- The second epoch: the main loop reads blocks 5 and 6 against the epoch's set and the lookback
reads blocks 3 and 4. -/
theorem commit_epoch_uptime_counts_signatures_of_pair_chain :
    ∃ commit rewards, calculateCommitEpochInput pairChain (pairHeaderAt 7) pairEpoch =
        pure (commit, rewards) ∧
      (∀ v, rewards.signedBlocksOf v =
        (((uptimeBlocks 5 4).map fun b => (pairSigners b).count v).sum : ℤ)) ∧
      ((∀ b ∈ uptimeBlocks 5 4, (pairSigners b).Nodup) → ∀ v, rewards.signedBlocksOf v =
        (((uptimeBlocks 5 4).filter fun b => v ∈ pairSigners b).length : ℤ)) ∧
      ∀ k, (List.range (k + 1)).flatMap (fun j => uptimeBlocks (j * 4 + 1) 4) =
        List.range' 1 ((k + 1) * 4 - 2) :=
  commit_epoch_uptime_counts_signatures pairChain pairExtra pairSigners signedStretch_pairChain
    rfl (by norm_num) (fun _ _ _ => rfl)
    (ChainView.getBlockData_eq_pure.mp (getBlockData_pairChain (by omega))).1

/-- The first validator signed blocks 3 to 6, the second blocks 3 and 5. -/
example : (calculateCommitEpochInput pairChain (pairHeaderAt 7) pairEpoch).run =
    some (.ok (⟨2, 5, 8, zeroHash⟩,
      ⟨2, [⟨secondValidator.address, 2⟩, ⟨firstValidator.address, 4⟩]⟩)) := by
  decide +kernel

/-! ## A chain whose validator set lists one validator twice -/

def twiceListedValidator : ValidatorMetadata (List UInt8) := ⟨bytesToAddress [1], none, 1, true⟩

def sampleExtra : Extra (List UInt8) := ⟨some .empty, some ⟨[], [3]⟩, none, none⟩

def sampleHeaderAt (n : UInt64) : Header :=
  { emptyExtraHeader with number := n, extraData := sampleExtra.marshalRLPTo rlp rawKeyCodec }

def twiceListedChain : ChainView (List UInt8) where
  codec := rlp
  keyCodec := rawKeyCodec
  getHeaderByNumber n := if n ≤ 4 then some (sampleHeaderAt n) else none
  number_getHeaderByNumber n h hh := by
    split at hh
    · cases hh
      rfl
    · cases hh
  getValidators _ := .ok [twiceListedValidator, twiceListedValidator]

def twiceListedEpoch : EpochMetadata (List UInt8) :=
  ⟨2, 3, [twiceListedValidator, twiceListedValidator]⟩

/-- Over the blocks 1 and 2, which both name the twice-listed validator, the reward pool is given
four signed blocks for its address. -/
theorem uptime_counts_twice_listed_validator_twice :
    (calculateCommitEpochInput twiceListedChain (sampleHeaderAt 3) twiceListedEpoch).run =
      some (.ok (⟨2, 3, 4, zeroHash⟩, ⟨2, [⟨twiceListedValidator.address, 4⟩]⟩)) ∧
    uptimeBlocks 3 2 = [1, 2] := by
  constructor
  · decide +kernel
  · decide

end PolybftConsensusRuntime
