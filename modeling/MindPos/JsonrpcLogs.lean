import MindPos.EdgeTypes

/-! # Log positions in the JSON-RPC endpoints

`jsonrpc/filter_manager.go` `getLogsFromBlock`, which serves `eth_getLogs` block by block, and
`jsonrpc/eth_endpoint.go` `GetTransactionReceipt`. Both number a log by its place in its
receipt; the receipt endpoint also gives that place as the log's transaction index, where its
loop variable shadows the transaction's. -/
namespace Jsonrpc

open EdgeTypes (Hash Address Block Transaction)

def errIndexOutOfRange : String := "index out of range"

def errNilPointer : String := "invalid memory address or nil pointer dereference"

/-- `jsonrpc.Log`. -/
structure Log where
  address : Address
  topics : List Hash
  data : List UInt8
  blockNumber : UInt64
  txHash : Hash
  txIndex : ℕ
  blockHash : Hash
  logIndex : ℕ
  removed : Bool
  deriving DecidableEq

/-- `jsonrpc.receipt`; the contract address is left out, as `types.Receipt` leaves it. -/
structure Receipt where
  root : Hash
  cumulativeGasUsed : UInt64
  logsBloom : List UInt8
  status : UInt64
  txHash : Hash
  txIndex : ℕ
  blockHash : Hash
  blockNumber : UInt64
  gasUsed : UInt64
  fromAddr : Address
  toAddr : Option Address
  logs : List Log
  deriving DecidableEq

/-- The fields of `LogQuery` that `Match` reads. -/
structure LogQuery where
  addresses : List Address
  topics : List (List Hash)

/-- `LogQuery.Match`: one of the addresses, if any are given, and at each position of the
topic sets one of its topics, an empty set matching any. -/
def LogQuery.matchLog (q : LogQuery) (log : EdgeTypes.Log) : Bool :=
  (q.addresses.length = 0 || q.addresses.any (· == log.address)) &&
    !(q.topics.length > log.topics.length) &&
    (q.topics.zip log.topics).all fun (sub, topic) => sub.length = 0 || sub.any (· == topic)

/-- The reads of the blockchain store the two endpoints make. -/
structure Store where
  readTxLookup : Hash → Option Hash
  getBlockByHash : Hash → Option Block
  getReceiptsByHash : Hash → Except String (List EdgeTypes.Receipt)

def appendLog (query : LogQuery) (block : Block) (idx : ℕ) (logs : List Log)
    (entry : EdgeTypes.Log × ℕ) : Except String (List Log) :=
  let (log, logIdx) := entry
  if query.matchLog log then
    match block.transactions[idx]? with
    | some tx => .ok (logs ++ [⟨log.address, log.topics, log.data, block.header.number, tx.hash,
        idx, block.header.hash, logIdx, false⟩])
    | none => .error errIndexOutOfRange
  else .ok logs

def appendReceiptLogs (query : LogQuery) (block : Block) (logs : List Log)
    (entry : EdgeTypes.Receipt × ℕ) : Except String (List Log) :=
  let (receipt, idx) := entry
  receipt.logs.zipIdx.foldlM (appendLog query block idx) logs

/-- `FilterManager.getLogsFromBlock`. -/
def getLogsFromBlock (store : Store) (query : LogQuery) (block : Block) :
    Except String (List Log) := do
  let receipts ← store.getReceiptsByHash block.header.hash
  receipts.zipIdx.foldlM (appendReceiptLogs query block) []

/-- `Eth.GetTransactionReceipt`; a nil result is `none`. -/
def getTransactionReceipt (store : Store) (hash : Hash) : Except String (Option Receipt) :=
  match store.readTxLookup hash with
  | none => .ok none
  | some blockHash =>
    match store.getBlockByHash blockHash with
    | none => .ok none
    | some block =>
      match store.getReceiptsByHash blockHash with
      | .error _ => .ok none
      | .ok receipts =>
        if receipts.length = 0 then .ok none
        else
          match block.transactions.findIdx? (·.hash == hash) with
          | none => .ok none
          | some indx =>
            match block.transactions[indx]?, receipts[indx]? with
            | some txn, some raw =>
              -- `for indx, elem := range raw.Logs` shadows the transaction's `indx`
              let logs := raw.logs.zipIdx.map fun (elem, indx) =>
                (⟨elem.address, elem.topics, elem.data, block.header.number, txn.hash, indx,
                  block.header.hash, indx, false⟩ : Log)
              match raw.status with
              | some status => .ok (some ⟨raw.root, raw.cumulativeGasUsed, raw.logsBloom,
                  status.toUInt64, txn.hash, indx, block.header.hash, block.header.number,
                  raw.gasUsed, txn.fromAddr, txn.toAddr, logs⟩)
              | none => .error errNilPointer
            | _, _ => .error errIndexOutOfRange

/-! ## What the endpoints return -/

def rpcLog (block : Block) (tx : Transaction) (txIndex logIndex : ℕ) (log : EdgeTypes.Log) : Log :=
  ⟨log.address, log.topics, log.data, block.header.number, tx.hash, txIndex, block.header.hash,
    logIndex, false⟩

def receiptLogs (query : LogQuery) (block : Block) (tx : Transaction) (idx : ℕ)
    (receipt : EdgeTypes.Receipt) : List Log :=
  (receipt.logs.zipIdx.filter fun e => query.matchLog e.1).map fun e => rpcLog block tx idx e.2 e.1

def blockLogs (query : LogQuery) (block : Block) (receipts : List EdgeTypes.Receipt) : List Log :=
  ((receipts.zip block.transactions).zipIdx).flatMap fun e => receiptLogs query block e.1.2 e.2 e.1.1

section GetLogs

variable {query : LogQuery} {block : Block}

theorem foldlM_appendLog {idx : ℕ} {tx : Transaction} (htx : block.transactions[idx]? = some tx)
    (logs : List EdgeTypes.Log) (m : ℕ) (acc : List Log) :
    (logs.zipIdx m).foldlM (appendLog query block idx) acc =
      .ok (acc ++ ((logs.zipIdx m).filter fun e => query.matchLog e.1).map fun e =>
        rpcLog block tx idx e.2 e.1) := by
  induction logs generalizing m acc with
  | nil => simp
  | cons log logs ih =>
    rw [List.zipIdx_cons, List.foldlM_cons]
    by_cases hm : query.matchLog log
    · have hstep : appendLog query block idx acc (log, m) = .ok (acc ++ [rpcLog block tx idx m log]) := by
        simp [appendLog, hm, htx, rpcLog]
      rw [hstep]
      simp [ih, hm]
    · have hstep : appendLog query block idx acc (log, m) = .ok acc := by
        simp [appendLog, hm]
      rw [hstep]
      simp [ih, hm]

theorem foldlM_appendReceiptLogs (receipts : List EdgeTypes.Receipt) (n : ℕ) (acc : List Log)
    (txs : List Transaction) (htxs : block.transactions.drop n = txs)
    (hlen : receipts.length ≤ txs.length) :
    (receipts.zipIdx n).foldlM (appendReceiptLogs query block) acc =
      .ok (acc ++ ((receipts.zip txs).zipIdx n).flatMap fun e =>
        receiptLogs query block e.1.2 e.2 e.1.1) := by
  induction receipts generalizing n acc txs with
  | nil => simp
  | cons receipt receipts ih =>
    obtain ⟨tx, txs, rfl⟩ : ∃ tx txs', txs = tx :: txs' := by
      cases txs with
      | nil => simp at hlen
      | cons tx txs => exact ⟨tx, txs, rfl⟩
    have htx : block.transactions[n]? = some tx := by
      rw [← List.head?_drop, htxs]
      rfl
    have htxs' : block.transactions.drop (n + 1) = txs := by
      rw [← List.tail_drop, htxs]
      rfl
    rw [List.zipIdx_cons, List.foldlM_cons]
    have hstep : appendReceiptLogs query block acc (receipt, n) =
        .ok (acc ++ receiptLogs query block tx n receipt) :=
      foldlM_appendLog htx receipt.logs 0 acc
    rw [hstep]
    simp only [List.zip_cons_cons, List.zipIdx_cons, List.flatMap_cons, ← List.append_assoc]
    exact ih (n + 1) _ txs htxs' (by simpa using hlen)

theorem getLogsFromBlock_eq {store : Store} {receipts : List EdgeTypes.Receipt}
    (hr : store.getReceiptsByHash block.header.hash = .ok receipts)
    (hlen : receipts.length ≤ block.transactions.length) :
    getLogsFromBlock store query block = .ok (blockLogs query block receipts) := by
  rw [getLogsFromBlock, hr]
  exact (foldlM_appendReceiptLogs receipts 0 [] block.transactions rfl hlen).trans (by simp [blockLogs])

theorem mem_blockLogs {receipts : List EdgeTypes.Receipt} {l : Log} :
    l ∈ blockLogs query block receipts ↔
      ∃ receipt tx log, receipts[l.txIndex]? = some receipt ∧
        block.transactions[l.txIndex]? = some tx ∧ receipt.logs[l.logIndex]? = some log ∧
        query.matchLog log ∧ l = rpcLog block tx l.txIndex l.logIndex log := by
  simp only [blockLogs, receiptLogs, List.mem_flatMap, List.mem_map, List.mem_filter,
    List.mem_zipIdx_iff_getElem?, List.getElem?_zip_eq_some]
  constructor
  · rintro ⟨⟨⟨receipt, tx⟩, idx⟩, ⟨hr, ht⟩, ⟨log, j⟩, ⟨hl, hm⟩, rfl⟩
    exact ⟨receipt, tx, log, hr, ht, hl, hm, rfl⟩
  · rintro ⟨receipt, tx, log, hr, ht, hl, hm, hlog⟩
    exact ⟨((receipt, tx), l.txIndex), ⟨hr, ht⟩, (log, l.logIndex), ⟨hl, hm⟩, hlog.symm⟩

theorem pairwise_ne_snd_zipIdx {α : Type} (l : List α) (n : ℕ) :
    (l.zipIdx n).Pairwise fun a b => a.2 ≠ b.2 := by
  have h := List.nodup_range' (s := n) (n := l.length)
  rw [← List.zipIdx_map_snd] at h
  exact List.pairwise_map.mp h

theorem nodup_blockLogs_indices (receipts : List EdgeTypes.Receipt) :
    ((blockLogs query block receipts).map fun l => (l.txIndex, l.logIndex)).Nodup := by
  rw [blockLogs, List.map_flatMap]
  apply List.pairwise_flatMap.mpr
  constructor
  · intro e _
    simp only [receiptLogs, List.map_map]
    apply List.pairwise_map.mpr
    refine ((pairwise_ne_snd_zipIdx e.1.1.logs 0).filter _).imp ?_
    intro a b hab heq
    exact hab (Prod.ext_iff.mp heq).2
  · refine (pairwise_ne_snd_zipIdx (receipts.zip block.transactions) 0).imp ?_
    intro a b hab x hx y hy heq
    simp only [receiptLogs, List.map_map, List.mem_map] at hx hy
    obtain ⟨_, _, rfl⟩ := hx
    obtain ⟨_, _, rfl⟩ := hy
    exact hab (Prod.ext_iff.mp heq).1

end GetLogs

theorem getTransactionReceipt_eq {store : Store} {hash blockHash : Hash} {block : Block}
    {receipts : List EdgeTypes.Receipt} {indx : ℕ} {txn : Transaction} {raw : EdgeTypes.Receipt}
    {status : EdgeTypes.ReceiptStatus}
    (hlookup : store.readTxLookup hash = some blockHash)
    (hblock : store.getBlockByHash blockHash = some block)
    (hreceipts : store.getReceiptsByHash blockHash = .ok receipts)
    (hindx : block.transactions.findIdx? (·.hash == hash) = some indx)
    (htxn : block.transactions[indx]? = some txn) (hraw : receipts[indx]? = some raw)
    (hstatus : raw.status = some status) :
    getTransactionReceipt store hash = .ok (some ⟨raw.root, raw.cumulativeGasUsed, raw.logsBloom,
      status.toUInt64, txn.hash, indx, block.header.hash, block.header.number, raw.gasUsed,
      txn.fromAddr, txn.toAddr, raw.logs.zipIdx.map fun e => rpcLog block txn e.2 e.2 e.1⟩) := by
  have hne : receipts.length ≠ 0 := by
    have := (List.getElem?_eq_some_iff.mp hraw).1
    omega
  simp only [getTransactionReceipt, hlookup, hblock, hreceipts, if_neg hne, hindx, htxn, hraw,
    hstatus]
  rfl

theorem endpoints_log_indices {store : Store} {query : LogQuery} {block : Block}
    {receipts : List EdgeTypes.Receipt} {i j : ℕ} {tx : Transaction} {receipt : EdgeTypes.Receipt}
    {log : EdgeTypes.Log} {status : EdgeTypes.ReceiptStatus}
    (hr : store.getReceiptsByHash block.header.hash = .ok receipts)
    (hlen : receipts.length ≤ block.transactions.length)
    (hlookup : store.readTxLookup tx.hash = some block.header.hash)
    (hblock : store.getBlockByHash block.header.hash = some block)
    (hindx : block.transactions.findIdx? (·.hash == tx.hash) = some i)
    (htx : block.transactions[i]? = some tx) (hi : receipts[i]? = some receipt)
    (hj : receipt.logs[j]? = some log) (hm : query.matchLog log)
    (hstatus : receipt.status = some status) :
    (∃ logs, getLogsFromBlock store query block = .ok logs ∧ rpcLog block tx i j log ∈ logs) ∧
      ∃ r, getTransactionReceipt store tx.hash = .ok (some r) ∧ r.txIndex = i ∧
        r.logs[j]? = some (rpcLog block tx j j log) := by
  constructor
  · exact ⟨_, getLogsFromBlock_eq hr hlen,
      mem_blockLogs.mpr ⟨receipt, tx, log, hi, htx, hj, hm, rfl⟩⟩
  · refine ⟨_, getTransactionReceipt_eq hlookup hblock hr hindx htx hi hstatus, rfl, ?_⟩
    simp [List.getElem?_zipIdx, hj]

section TwoLogs

open EdgeTypes (zeroHash zeroAddress hashOfNat)

def logTx (hash : Hash) : Transaction :=
  ⟨0, 0, 0, 0, 0, none, 0, [], 0, 0, 0, hash, zeroAddress, .legacyTx⟩

def oneLogReceipt (data : List UInt8) (txHash : Hash) : EdgeTypes.Receipt :=
  ⟨zeroHash, 0, [], [⟨zeroAddress, [], data⟩], some .success, 0, txHash, .legacyTx⟩

def twoLogBlock : Block :=
  ⟨⟨zeroHash, zeroHash, [], zeroHash, zeroHash, zeroHash, [], 0, 1, 0, 0, 0, [], zeroHash, [],
    zeroHash, 0⟩, [logTx (hashOfNat 1), logTx (hashOfNat 2)], []⟩

def twoLogStore : Store :=
  ⟨fun _ => some zeroHash, fun _ => some twoLogBlock,
    fun _ => .ok [oneLogReceipt [1] (hashOfNat 1), oneLogReceipt [2] (hashOfNat 2)]⟩

theorem log_indices_restart_per_receipt :
    (getLogsFromBlock twoLogStore ⟨[], []⟩ twoLogBlock).map
        (·.map fun l => (l.txIndex, l.logIndex)) = .ok [(0, 0), (1, 0)] ∧
      (getTransactionReceipt twoLogStore (hashOfNat 2)).map
          (·.map fun r => (r.txIndex, r.logs.map fun l => (l.txIndex, l.logIndex))) =
        .ok (some (1, [(0, 0)])) := by
  constructor
  · decide +kernel
  · decide +kernel

end TwoLogs

end Jsonrpc
