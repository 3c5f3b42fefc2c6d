import MindPos.GoSlices
import MindPos.StateExecutor
import MindPos.StateTxn

/-! # The journal of a block's state: snapshots, reverts and what they restore

`state/txn.go` keeps what a block has written in an immutable radix tree. A snapshot saves the
tree as it stands and a revert makes a saved tree current again. Reads hand out copies and
writes insert fresh objects, so with the tree a persistent map (here a record of functions) a
revert brings back every account, slot and the refund. Two things live outside the tree: the
code cache, keyed by address and filled by `GetCode`, and the arrays behind the log slices,
which `EmitLog` appends to in place. -/
namespace StateTxnSnapshots

open EdgeTypes GoSlices PointerCells StateTxn

/-- `emptyCodeHash`, the keccak of no bytes. -/
def emptyCodeHash : Hash :=
  hashOfNat 0xc5d2460186f7233c927e7db2dcc703c0e500b653ca82273b7bfad8045d85a470

def emptyStateHash : Hash :=
  hashOfNat 0x56e81f171bcc55a6ff8345e692c0f86e5b48e01b996cadc001622fb5e363b421

/-- `state.Account`. A balance is never negative: `Copy` and `SetBalance` go through its bytes. -/
structure Account where
  nonce : UInt64
  balance : ℕ
  root : Hash
  codeHash : Hash
  deriving DecidableEq

/-- `state.StateObject`. `txn` is the account's storage radix; a slot written with zero holds
the zero hash, which `GetState` reads the same as the source's nil. -/
structure StateObject where
  account : Account
  code : List UInt8
  suicide : Bool
  deleted : Bool
  dirtyCode : Bool
  txn : Option (Hash → Option Hash)
  withFakeStorage : Bool

def StateObject.ofAccount (account : Account) : StateObject :=
  ⟨account, [], false, false, false, none, false⟩

def newStateObject : StateObject := .ofAccount ⟨0, 0, emptyStateHash, emptyCodeHash⟩

/-- `StateObject.Empty`. -/
def StateObject.empty (o : StateObject) : Bool :=
  o.account.nonce == 0 && o.account.balance == 0 && o.account.codeHash == emptyCodeHash

/-- The radix tree of a `Txn`: objects by address, the logs under `logIndex` and the refund under
`refundIndex`. -/
structure Radix where
  objects : Address → Option StateObject
  logs : Option Slice
  refund : Option UInt64

def Radix.empty : Radix := ⟨fun _ => none, none, none⟩

def Radix.insert (r : Radix) (addr : Address) (obj : StateObject) : Radix :=
  { r with objects := fun a => if a = addr then some obj else r.objects a }

/-- `readSnapshot`, the block's pre-state; an account that cannot be read is absent. -/
structure ReadSnapshot where
  getStorage : Address → Hash → Hash → Hash
  getAccount : Address → Option Account
  getCode : Hash → Option (List UInt8)

def codeCacheSize : ℕ := 20

/-- The `lru.Cache` of codes by address, the most recently used first. -/
structure CodeCache where
  entries : List (Address × List UInt8)
  deriving DecidableEq

/-- `Get`: a hit becomes the most recently used entry. -/
def CodeCache.get (c : CodeCache) (addr : Address) : Option (List UInt8) × CodeCache :=
  match c.entries.lookup addr with
  | some code => (some code, ⟨(addr, code) :: c.entries.filter (·.1 ≠ addr)⟩)
  | none => (none, c)

/-- `Add`: the entry goes in front, and the least recently used one out when the cache is full. -/
def CodeCache.add (c : CodeCache) (addr : Address) (code : List UInt8) : CodeCache :=
  ⟨((addr, code) :: c.entries.filter (·.1 ≠ addr)).take codeCacheSize⟩

/-- `state.Txn`, with the heap the arrays of the log slices live in. -/
structure Txn where
  readSnapshot : ReadSnapshot
  snapshots : List Radix
  txn : Radix
  codeCache : CodeCache
  memory : Heap (List Log)

/-- `newTxn`. -/
def newTxn (snapshot : ReadSnapshot) : Txn := ⟨snapshot, [], .empty, ⟨[]⟩, ⟨fun _ => [], 0⟩⟩

namespace Txn

variable (t : Txn)

/-- `Snapshot`: the id is the position of the saved tree. -/
def snapshot : ℕ × Txn := (t.snapshots.length, { t with snapshots := t.snapshots ++ [t.txn] })

/-- `RevertToSnapshot`; `none` where the source panics. The saved trees stay. -/
def revertToSnapshot (id : ℕ) : Option Txn :=
  t.snapshots[id]?.map fun tree => { t with txn := tree }

def getStateObject (addr : Address) : Option StateObject :=
  match t.txn.objects addr with
  | some obj => if obj.deleted then none else some obj
  | none => (t.readSnapshot.getAccount addr).map StateObject.ofAccount

/-- `upsertAccount`: the callback sees nil, and nothing is inserted, only for an absent account
that is not to be created. -/
def upsertAccount (addr : Address) (create : Bool) (f : StateObject → StateObject) : Txn :=
  match t.getStateObject addr, create with
  | some obj, _ => { t with txn := t.txn.insert addr (f obj) }
  | none, true => { t with txn := t.txn.insert addr (f newStateObject) }
  | none, false => t

def addBalance (addr : Address) (balance : ℕ) : Txn :=
  t.upsertAccount addr true fun o => { o with account.balance := o.account.balance + balance }

def getBalance (addr : Address) : ℕ :=
  match t.getStateObject addr with
  | some o => o.account.balance
  | none => 0

def subBalance (addr : Address) (amount : ℕ) : Except String Txn :=
  if amount = 0 then .ok t
  else if t.getBalance addr < amount then .error StateExecutor.errNotEnoughFunds
  else .ok (t.upsertAccount addr true fun o => { o with account.balance := o.account.balance - amount })

def setBalance (addr : Address) (balance : ℕ) : Txn :=
  t.upsertAccount addr true fun o => { o with account.balance := balance }

/-- `EmitLog`: the slice under `logIndex`, or a new empty one, gets the log appended. -/
def emitLog (addr : Address) (topics : List Hash) (data : List UInt8) : Txn :=
  let (logs, memory) := append t.memory (t.txn.logs.getD .empty) ⟨addr, topics, data⟩
  { t with txn := { t.txn with logs := some logs }, memory := memory }

def pendingLogs : List Log :=
  match t.txn.logs with
  | some logs => logs.read t.memory
  | none => []

def setState (addr : Address) (key value : Hash) : Txn :=
  t.upsertAccount addr true fun o =>
    let storage := o.txn.getD fun _ => none
    { o with txn := some fun k => if k = key then some value else storage k }

def getState (addr : Address) (key : Hash) : Hash :=
  match t.getStateObject addr with
  | none => zeroHash
  | some o =>
    match o.txn.bind (· key) with
    | some v => v
    | none => if o.withFakeStorage then zeroHash else t.readSnapshot.getStorage addr o.account.root key

def getCommittedState (addr : Address) (key : Hash) : Hash :=
  match t.getStateObject addr with
  | none => zeroHash
  | some o => t.readSnapshot.getStorage addr o.account.root key

def getRefund : UInt64 := t.txn.refund.getD 0

def addRefund (gas : UInt64) : Txn := { t with txn := { t.txn with refund := some (t.getRefund + gas) } }

def subRefund (gas : UInt64) : Txn := { t with txn := { t.txn with refund := some (t.getRefund - gas) } }

/-- `SetStorage`. -/
def setStorage (addr : Address) (key value : Hash) (config : ForksInTime) : StorageStatus × Txn :=
  let oldValue := t.getState addr key
  if oldValue = value then (.unchanged, t)
  else
    let current := oldValue
    let original := t.getCommittedState addr key
    let t := t.setState addr key value
    let legacyGasMetering := !config.istanbul && (config.petersburg || !config.constantinople)
    if legacyGasMetering then
      if oldValue = zeroHash then (.added, t)
      else if value = zeroHash then (.deleted, t.addRefund 15000)
      else (.modified, t)
    else if original = current then
      if original = zeroHash then (.added, t)
      else if value = zeroHash then (.deleted, t.addRefund 15000)
      else (.modified, t)
    else
      let t :=
        if original ≠ zeroHash then
          if current = zeroHash then t.subRefund 15000
          else if value = zeroHash then t.addRefund 15000
          else t
        else t
      let t :=
        if original = value then
          if original = zeroHash then t.addRefund (if config.istanbul then 19200 else 19800)
          else t.addRefund (if config.istanbul then 4200 else 4800)
        else t
      (.modifiedAgain, t)

def incrNonce (addr : Address) : Txn :=
  t.upsertAccount addr true fun o => { o with account.nonce := o.account.nonce + 1 }

def setNonce (addr : Address) (nonce : UInt64) : Txn :=
  t.upsertAccount addr true fun o => { o with account.nonce := nonce }

def getNonce (addr : Address) : UInt64 :=
  match t.getStateObject addr with
  | some o => o.account.nonce
  | none => 0

def setCode (keccak : List UInt8 → Hash) (addr : Address) (code : List UInt8) : Txn :=
  t.upsertAccount addr true fun o =>
    { o with account.codeHash := keccak code, dirtyCode := true, code := code }

/-- `GetCode`: a code not set in this block is read through the cache, and a miss fills it. -/
def getCode (addr : Address) : List UInt8 × Txn :=
  match t.getStateObject addr with
  | none => ([], t)
  | some o =>
    if o.dirtyCode then (o.code, t)
    else
      match t.codeCache.get addr with
      | (some code, cache) => (code, { t with codeCache := cache })
      | (none, _) =>
        let code := (t.readSnapshot.getCode o.account.codeHash).getD []
        (code, { t with codeCache := t.codeCache.add addr code })

def getCodeHash (addr : Address) : Hash :=
  match t.getStateObject addr with
  | some o => o.account.codeHash
  | none => zeroHash

/-- `Suicide`: whether the account was marked now; its balance is cleared either way. -/
def suicide (addr : Address) : Bool × Txn :=
  (match t.getStateObject addr with
    | some o => !o.suicide
    | none => false,
   t.upsertAccount addr false fun o => { o with suicide := true, account.balance := 0 })

def hasSuicided (addr : Address) : Bool :=
  match t.getStateObject addr with
  | some o => o.suicide
  | none => false

def touchAccount (addr : Address) : Txn := t.upsertAccount addr true id

def exist (addr : Address) : Bool := (t.getStateObject addr).isSome

def empty (addr : Address) : Bool :=
  match t.getStateObject addr with
  | some o => o.empty
  | none => true

/-- `CreateAccount`: a fresh object that keeps only the balance of the one it replaces. -/
def createAccount (addr : Address) : Txn :=
  let balance := match t.getStateObject addr with
    | some prev => prev.account.balance
    | none => 0
  { t with txn := t.txn.insert addr { newStateObject with account.balance := balance } }

/-! ## What a write can change

Every write goes through `upsertAccount`, `CreateAccount` or the refund: it rewrites the tree's
objects or refund and nothing else. -/

/-- `t'` is `t` with the tree's objects or refund rewritten: the logs, the saved trees, the cache
and the heap are as they were. -/
structure TreeWrite (t t' : Txn) : Prop where
  readSnapshot : t'.readSnapshot = t.readSnapshot
  snapshots : t'.snapshots = t.snapshots
  codeCache : t'.codeCache = t.codeCache
  memory : t'.memory = t.memory
  logs : t'.txn.logs = t.txn.logs

variable {t}

theorem TreeWrite.refl : TreeWrite t t := ⟨rfl, rfl, rfl, rfl, rfl⟩

theorem TreeWrite.trans {t₁ t₂ t₃ : Txn} (h₁ : TreeWrite t₁ t₂) (h₂ : TreeWrite t₂ t₃) :
    TreeWrite t₁ t₃ :=
  ⟨h₂.1.trans h₁.1, h₂.2.trans h₁.2, h₂.3.trans h₁.3, h₂.4.trans h₁.4, h₂.5.trans h₁.5⟩

theorem upsertAccount_treeWrite (addr : Address) (create : Bool) (f : StateObject → StateObject) :
    TreeWrite t (t.upsertAccount addr create f) := by
  unfold upsertAccount
  split <;> exact ⟨rfl, rfl, rfl, rfl, rfl⟩

theorem TreeWrite.setRefund {u : Txn} (h : TreeWrite t u) (refund : Option UInt64) :
    TreeWrite t { u with txn := { u.txn with refund := refund } } :=
  h.trans ⟨rfl, rfl, rfl, rfl, rfl⟩

theorem TreeWrite.ite {c : Prop} [Decidable c] {x y : Txn} (hx : TreeWrite t x)
    (hy : TreeWrite t y) : TreeWrite t (if c then x else y) := by
  split
  · exact hx
  · exact hy

theorem setStorage_treeWrite (addr : Address) (key value : Hash) (config : ForksInTime) :
    TreeWrite t (t.setStorage addr key value config).2 := by
  have hs : TreeWrite t (t.setState addr key value) := upsertAccount_treeWrite addr true _
  unfold setStorage
  simp only [apply_ite Prod.snd]
  generalize t.setState addr key value = s at hs ⊢
  repeat' first | exact .refl | exact hs | apply TreeWrite.ite | apply TreeWrite.setRefund

@[simp] theorem getRefund_setState (addr : Address) (key value : Hash) :
    (t.setState addr key value).getRefund = t.getRefund := by
  unfold setState upsertAccount getRefund
  split <;> rfl

@[simp] theorem getRefund_addRefund (gas : UInt64) : (t.addRefund gas).getRefund = t.getRefund + gas :=
  rfl

@[simp] theorem getRefund_subRefund (gas : UInt64) : (t.subRefund gas).getRefund = t.getRefund - gas :=
  rfl

theorem setStorage_agrees (a : StateTxn.Txn) (addr : Address) (key value : Hash)
    (config : ForksInTime) (hcur : a.getState addr key = t.getState addr key)
    (horig : a.getCommittedState addr key = t.getCommittedState addr key)
    (hrefund : a.refund = t.getRefund) :
    (a.setStorage addr key value config).1 = (t.setStorage addr key value config).1 ∧
      (a.setStorage addr key value config).2.refund =
        (t.setStorage addr key value config).2.getRefund := by
  unfold StateTxn.Txn.setStorage setStorage
  rw [hcur, horig]
  generalize t.getState addr key = current
  generalize t.getCommittedState addr key = original
  dsimp only
  constructor
  · simp only [apply_ite Prod.fst]
  · simp only [apply_ite Prod.snd, apply_ite StateTxn.Txn.refund, apply_ite getRefund,
      StateTxn.Txn.refund_addRefund, StateTxn.Txn.refund_subRefund, StateTxn.Txn.refund_setState,
      getRefund_setState, getRefund_addRefund, getRefund_subRefund, hrefund]

theorem createAccount_treeWrite (addr : Address) : TreeWrite t (t.createAccount addr) :=
  ⟨rfl, rfl, rfl, rfl, rfl⟩

theorem getCode_eq (addr : Address) : ∃ c, (t.getCode addr).2 = { t with codeCache := c } := by
  unfold getCode
  split
  · exact ⟨t.codeCache, rfl⟩
  · split
    · exact ⟨t.codeCache, rfl⟩
    · split
      · exact ⟨_, rfl⟩
      · exact ⟨_, rfl⟩

end Txn

/-! ## Runs of operations -/

/-- The operations on a `Txn` that change it: the writes, `Snapshot` and `RevertToSnapshot`, and
`GetCode`, the one read that writes (to the cache). -/
inductive Op where
  | addBalance (addr : Address) (balance : ℕ)
  | subBalance (addr : Address) (amount : ℕ)
  | setBalance (addr : Address) (balance : ℕ)
  | setState (addr : Address) (key value : Hash)
  | setStorage (addr : Address) (key value : Hash) (config : ForksInTime)
  | incrNonce (addr : Address)
  | setNonce (addr : Address) (nonce : UInt64)
  | setCode (addr : Address) (code : List UInt8)
  | suicide (addr : Address)
  | createAccount (addr : Address)
  | touchAccount (addr : Address)
  | emitLog (addr : Address) (topics : List Hash) (data : List UInt8)
  | addRefund (gas : UInt64)
  | subRefund (gas : UInt64)
  | snapshot
  | revertToSnapshot (id : ℕ)
  | getCode (addr : Address)

variable (keccak : List UInt8 → Hash)

def Op.apply : Op → Txn → Option Txn
  | .addBalance addr balance, t => some (t.addBalance addr balance)
  | .subBalance addr amount, t =>
    match t.subBalance addr amount with
    | .ok t' => some t'
    | .error _ => some t
  | .setBalance addr balance, t => some (t.setBalance addr balance)
  | .setState addr key value, t => some (t.setState addr key value)
  | .setStorage addr key value config, t => some (t.setStorage addr key value config).2
  | .incrNonce addr, t => some (t.incrNonce addr)
  | .setNonce addr nonce, t => some (t.setNonce addr nonce)
  | .setCode addr code, t => some (t.setCode keccak addr code)
  | .suicide addr, t => some (t.suicide addr).2
  | .createAccount addr, t => some (t.createAccount addr)
  | .touchAccount addr, t => some (t.touchAccount addr)
  | .emitLog addr topics data, t => some (t.emitLog addr topics data)
  | .addRefund gas, t => some (t.addRefund gas)
  | .subRefund gas, t => some (t.subRefund gas)
  | .snapshot, t => some t.snapshot.2
  | .revertToSnapshot id, t => t.revertToSnapshot id
  | .getCode addr, t => some (t.getCode addr).2

def runOps : List Op → Txn → Option Txn
  | [], t => some t
  | op :: ops, t => (op.apply keccak t).bind (runOps ops)

variable {keccak} {t t' : Txn}

namespace Op

theorem apply_cases {op : Op} (h : op.apply keccak t = some t') :
    t.TreeWrite t' ∨
    (∃ addr topics data, op = .emitLog addr topics data ∧ t' = t.emitLog addr topics data) ∨
    (op = .snapshot ∧ t' = t.snapshot.2) ∨
    (∃ id r, op = .revertToSnapshot id ∧ t.snapshots[id]? = some r ∧ t' = { t with txn := r }) ∨
    ∃ addr c, op = .getCode addr ∧ t' = { t with codeCache := c } := by
  cases op with
  | subBalance addr amount =>
    left
    simp only [apply] at h
    unfold Txn.subBalance at h
    split_ifs at h <;> cases h <;> first | exact .refl | exact Txn.upsertAccount_treeWrite _ _ _
  | setStorage addr key value config =>
    cases h
    exact .inl (Txn.setStorage_treeWrite addr key value config)
  | suicide addr => cases h; exact .inl (Txn.upsertAccount_treeWrite _ _ _)
  | createAccount addr => cases h; exact .inl (Txn.createAccount_treeWrite addr)
  | emitLog addr topics data => cases h; exact .inr (.inl ⟨addr, topics, data, rfl, rfl⟩)
  | addRefund gas => cases h; exact .inl (Txn.TreeWrite.refl.setRefund _)
  | subRefund gas => cases h; exact .inl (Txn.TreeWrite.refl.setRefund _)
  | snapshot => cases h; exact .inr (.inr (.inl ⟨rfl, rfl⟩))
  | revertToSnapshot id =>
    simp only [apply, Txn.revertToSnapshot, Option.map_eq_some_iff] at h
    obtain ⟨r, hr, rfl⟩ := h
    exact .inr (.inr (.inr (.inl ⟨id, r, rfl, hr, rfl⟩)))
  | getCode addr =>
    cases h
    obtain ⟨c, hc⟩ := Txn.getCode_eq (t := t) addr
    exact .inr (.inr (.inr (.inr ⟨addr, c, rfl, hc⟩)))
  | _ => cases h; exact .inl (Txn.upsertAccount_treeWrite _ _ _)

theorem keeps_snapshots {op : Op} (h : op.apply keccak t = some t') :
    t.snapshots <+: t'.snapshots := by
  rcases apply_cases h with hw | ⟨_, _, _, -, rfl⟩ | ⟨-, rfl⟩ | ⟨_, _, -, -, rfl⟩ | ⟨_, _, -, rfl⟩
  · exact hw.snapshots ▸ List.prefix_refl _
  · exact List.prefix_refl _
  · exact List.prefix_append _ _
  · exact List.prefix_refl _
  · exact List.prefix_refl _

theorem readSnapshot_eq {op : Op} (h : op.apply keccak t = some t') :
    t'.readSnapshot = t.readSnapshot := by
  rcases apply_cases h with hw | ⟨_, _, _, -, rfl⟩ | ⟨-, rfl⟩ | ⟨_, _, -, -, rfl⟩ | ⟨_, _, -, rfl⟩
  · exact hw.readSnapshot
  all_goals rfl

theorem codeCache_eq {op : Op} (hop : ∀ addr, op ≠ .getCode addr) (h : op.apply keccak t = some t') :
    t'.codeCache = t.codeCache := by
  rcases apply_cases h with hw | ⟨_, _, _, -, rfl⟩ | ⟨-, rfl⟩ | ⟨_, _, -, -, rfl⟩ | ⟨addr, _, rfl, -⟩
  · exact hw.codeCache
  · rfl
  · rfl
  · rfl
  · exact absurd rfl (hop addr)

end Op

theorem runOps_induction {R : Txn → Txn → Prop} (hrefl : ∀ t, R t t)
    (htrans : ∀ t₁ t₂ t₃, R t₁ t₂ → R t₂ t₃ → R t₁ t₃) {ops : List Op}
    (hstep : ∀ op ∈ ops, ∀ t t', op.apply keccak t = some t' → R t t')
    (h : runOps keccak ops t = some t') : R t t' := by
  induction ops generalizing t with
  | nil =>
    cases h
    exact hrefl _
  | cons op ops ih =>
    obtain ⟨t₁, h₁, h₂⟩ := Option.bind_eq_some_iff.mp h
    exact htrans _ _ _ (hstep op (List.mem_cons_self ..) t t₁ h₁)
      (ih (fun op' hop' => hstep op' (List.mem_cons_of_mem _ hop')) h₂)

theorem runOps_keeps_snapshots {ops : List Op} (h : runOps keccak ops t = some t') :
    t.snapshots <+: t'.snapshots :=
  runOps_induction (R := fun t t' => t.snapshots <+: t'.snapshots) (fun _ => List.prefix_refl _)
    (fun _ _ _ h₁ h₂ => h₁.trans h₂) (fun _ _ _ _ => Op.keeps_snapshots) h

theorem runOps_readSnapshot {ops : List Op} (h : runOps keccak ops t = some t') :
    t'.readSnapshot = t.readSnapshot :=
  runOps_induction (R := fun t t' => t'.readSnapshot = t.readSnapshot) (fun _ => rfl)
    (fun _ _ _ h₁ h₂ => h₂.trans h₁) (fun _ _ _ _ => Op.readSnapshot_eq) h

theorem runOps_codeCache {ops : List Op} (hops : ∀ addr, Op.getCode addr ∉ ops)
    (h : runOps keccak ops t = some t') : t'.codeCache = t.codeCache :=
  runOps_induction (R := fun t t' => t'.codeCache = t.codeCache) (fun _ => rfl)
    (fun _ _ _ h₁ h₂ => h₂.trans h₁)
    (fun _ hop _ _ => Op.codeCache_eq fun addr heq => hops addr (heq ▸ hop)) h

theorem revertToSnapshot_of_saved {u : Txn} (h : t.snapshot.2.snapshots <+: u.snapshots) :
    u.revertToSnapshot t.snapshot.1 = some { u with txn := t.txn } := by
  obtain ⟨rest, hrest⟩ := h
  have hget : u.snapshots[t.snapshots.length]? = some t.txn := by
    rw [← hrest]
    simp [Txn.snapshot]
  simp [Txn.revertToSnapshot, Txn.snapshot, hget]

theorem revertToSnapshot_after_runOps {ops : List Op} (h : runOps keccak ops t.snapshot.2 = some t') :
    t'.revertToSnapshot t.snapshot.1 = some { t' with txn := t.txn } :=
  revertToSnapshot_of_saved (runOps_keeps_snapshots h)

/-! ## What a revert restores -/

/-- Two states that no read of the tree tells apart. -/
structure SameReads (t u : Txn) : Prop where
  getBalance : ∀ addr, t.getBalance addr = u.getBalance addr
  getNonce : ∀ addr, t.getNonce addr = u.getNonce addr
  getState : ∀ addr key, t.getState addr key = u.getState addr key
  getCommittedState : ∀ addr key, t.getCommittedState addr key = u.getCommittedState addr key
  getCodeHash : ∀ addr, t.getCodeHash addr = u.getCodeHash addr
  hasSuicided : ∀ addr, t.hasSuicided addr = u.hasSuicided addr
  exist : ∀ addr, t.exist addr = u.exist addr
  empty : ∀ addr, t.empty addr = u.empty addr
  getRefund : t.getRefund = u.getRefund

section Reads

variable {u : Txn} (hs : t.readSnapshot = u.readSnapshot) (ht : t.txn = u.txn)
include hs ht

theorem getStateObject_congr : t.getStateObject = u.getStateObject := by
  funext addr
  simp only [Txn.getStateObject, hs, ht]

theorem sameReads_of_eq : SameReads t u := by
  have ho := getStateObject_congr hs ht
  refine ⟨?_, ?_, ?_, ?_, ?_, ?_, ?_, ?_, ?_⟩ <;> intros <;>
    simp only [Txn.getBalance, Txn.getNonce, Txn.getState, Txn.getCommittedState, Txn.getCodeHash,
      Txn.hasSuicided, Txn.exist, Txn.empty, Txn.getRefund, ho, hs, ht]

theorem upsertAccount_txn_congr (addr : Address) (create : Bool) (f : StateObject → StateObject) :
    (t.upsertAccount addr create f).txn = (u.upsertAccount addr create f).txn := by
  unfold Txn.upsertAccount
  rw [getStateObject_congr hs ht]
  split <;> simp only [ht]

theorem getCode_congr (hc : t.codeCache = u.codeCache) (addr : Address) :
    (t.getCode addr).1 = (u.getCode addr).1 := by
  simp only [Txn.getCode, getStateObject_congr hs ht, hs, hc]
  split
  · rfl
  · split
    · rfl
    · split <;> rfl

end Reads

theorem revertToSnapshot_restores_reads {ops : List Op}
    (h : runOps keccak ops t.snapshot.2 = some t') :
    ∃ t'', t'.revertToSnapshot t.snapshot.1 = some t'' ∧ SameReads t'' t ∧
      ((∀ addr, Op.getCode addr ∉ ops) → ∀ addr, (t''.getCode addr).1 = (t.getCode addr).1) := by
  have hread : t'.readSnapshot = t.readSnapshot := (runOps_readSnapshot h).trans rfl
  refine ⟨_, revertToSnapshot_after_runOps h, sameReads_of_eq hread rfl, fun hops addr => ?_⟩
  exact getCode_congr (t := { t' with txn := t.txn }) hread rfl ((runOps_codeCache hops h).trans rfl) addr

/-! ## The log slices

A revert brings back the slice header of the logs, not the array behind it. What keeps the array
right is that the journal is used as the EVM uses it: a revert to `id` is only preceded by
reverts to snapshots taken at or after `id`. -/

/-- Every log slice the state holds, in its tree or a saved one, is backed by its heap. -/
structure LogsValid (t : Txn) : Prop where
  current : ∀ s, t.txn.logs = some s → s.Valid t.memory
  saved : ∀ r ∈ t.snapshots, ∀ s, r.logs = some s → s.Valid t.memory

theorem logsValid_newTxn (snapshot : ReadSnapshot) : LogsValid (newTxn snapshot) :=
  ⟨fun _ h => (by cases h), fun _ h => (by cases h)⟩

theorem Txn.emitLog_eq (addr : Address) (topics : List Hash) (data : List UInt8) :
    t.emitLog addr topics data =
      { t with
        txn := { t.txn with logs := some (append t.memory (t.txn.logs.getD .empty) ⟨addr, topics, data⟩).1 }
        memory := (append t.memory (t.txn.logs.getD .empty) ⟨addr, topics, data⟩).2 } := rfl

theorem LogsValid.getD (hv : LogsValid t) : (t.txn.logs.getD .empty).Valid t.memory := by
  cases hl : t.txn.logs with
  | none => exact Slice.valid_empty _
  | some s => exact hv.current s hl

theorem LogsValid.emitLog (hv : LogsValid t) (addr : Address) (topics : List Hash)
    (data : List UInt8) : LogsValid (t.emitLog addr topics data) := by
  rw [Txn.emitLog_eq]
  refine ⟨fun s hs => ?_, fun r hr s hrs => valid_append_other hv.getD (hv.saved r hr s hrs) _⟩
  cases hs
  exact valid_append hv.getD _

theorem Op.logsValid {op : Op} (h : op.apply keccak t = some t') (hv : LogsValid t) :
    LogsValid t' := by
  rcases apply_cases h with hw | ⟨addr, topics, data, -, rfl⟩ | ⟨-, rfl⟩ | ⟨_, r, -, hr, rfl⟩ |
    ⟨_, _, -, rfl⟩
  · refine ⟨fun s hs => hw.memory ▸ hv.current s (hw.logs ▸ hs), fun r hr s hs => ?_⟩
    exact hw.memory ▸ hv.saved r (hw.snapshots ▸ hr) s hs
  · exact hv.emitLog addr topics data
  · refine ⟨hv.current, fun r hr s hs => ?_⟩
    rcases List.mem_append.mp hr with hr | hr
    · exact hv.saved r hr s hs
    · exact hv.current s (List.mem_singleton.mp hr ▸ hs)
  · exact ⟨fun s hs => hv.saved r (List.mem_of_getElem? hr) s hs, hv.saved⟩
  · exact ⟨hv.current, hv.saved⟩

/-- An append through `s` cannot store below the end of `S`: it goes to another array, to or past
`S`'s length, or copies because `s` is full. -/
def Harmless (S s : Slice) : Prop := s.array = S.array → s.len < s.cap → S.len ≤ s.len

/-- What keeps the logs of a snapshot as they were: the heap still shows them, and no slice that
the state holds or a nested revert can bring back stores into them. -/
structure LogsKept (S : Slice) (L : List Log) (id : ℕ) (t : Txn) : Prop where
  valid : LogsValid t
  valid_S : S.Valid t.memory
  read_eq : S.read t.memory = L
  current : ∀ s, t.txn.logs = some s → Harmless S s
  saved : ∀ k r, id ≤ k → t.snapshots[k]? = some r → ∀ s, r.logs = some s → Harmless S s

theorem LogsKept.emitLog {S : Slice} {L : List Log} {id : ℕ} (hk : LogsKept S L id t)
    (addr : Address) (topics : List Hash) (data : List UInt8) :
    LogsKept S L id (t.emitLog addr topics data) := by
  set T := t.txn.logs.getD .empty with hT
  have hvT : T.Valid t.memory := hk.valid.getD
  have hharm : Harmless S T := by
    cases hl : t.txn.logs with
    | none =>
      intro _ hlt
      simp [hT, hl, Slice.empty] at hlt
    | some s => simpa [hT, hl] using hk.current s hl
  refine ⟨hk.valid.emitLog addr topics data, ?_, ?_, ?_, fun k r hk' hr s hs => ?_⟩
  · rw [Txn.emitLog_eq]
    exact valid_append_other hvT hk.valid_S _
  · rw [Txn.emitLog_eq]
    simp only
    rw [read_append_other hvT hk.valid_S]
    split_ifs with hstore
    · have hlen : (S.read t.memory).length ≤ T.len :=
        (List.length_take_le _ _).trans (hharm hstore.1.symm hstore.2)
      rw [List.set_eq_of_length_le hlen, hk.read_eq]
    · exact hk.read_eq
  · intro s hs
    rw [Txn.emitLog_eq] at hs
    cases hs
    by_cases hlt : T.len < T.cap
    · rw [append_of_lt hlt]
      dsimp only [Harmless]
      intro harr _
      have := hharm harr hlt
      omega
    · rw [append_of_not_lt hlt]
      dsimp only [Harmless]
      intro harr _
      rw [hk.valid_S.len_eq_zero_of_next harr.symm]
      exact Nat.zero_le _
  · exact hk.saved k r hk' hr s hs

theorem LogsKept.step {S : Slice} {L : List Log} {id : ℕ} {op : Op} (hk : LogsKept S L id t)
    (hop : ∀ j, op = .revertToSnapshot j → id ≤ j) (h : op.apply keccak t = some t') :
    LogsKept S L id t' := by
  have hv := Op.logsValid h hk.valid
  rcases Op.apply_cases h with hw | ⟨addr, topics, data, -, rfl⟩ | ⟨-, rfl⟩ | ⟨j, r, rfl, hr, rfl⟩ |
    ⟨_, _, -, rfl⟩
  · refine ⟨hv, hw.memory ▸ hk.valid_S, hw.memory ▸ hk.read_eq, fun s hs => hk.current s (hw.logs ▸ hs),
      fun k r hk' hr => hk.saved k r hk' (hw.snapshots ▸ hr)⟩
  · exact hk.emitLog addr topics data
  · refine ⟨hv, hk.valid_S, hk.read_eq, hk.current, fun k r hk' hr s hs => ?_⟩
    simp only [Txn.snapshot] at hr
    by_cases hlt : k < t.snapshots.length
    · rw [List.getElem?_append_left hlt] at hr
      exact hk.saved k r hk' hr s hs
    · rw [List.getElem?_append_right (Nat.not_lt.mp hlt)] at hr
      have hr' : [t.txn][k - t.snapshots.length]? = some r := hr
      rw [List.getElem?_singleton] at hr'
      split_ifs at hr' with hk0
      · cases hr'
        exact hk.current s hs
  · exact ⟨hv, hk.valid_S, hk.read_eq, hk.saved j r (hop j rfl) hr, hk.saved⟩
  · exact ⟨hv, hk.valid_S, hk.read_eq, hk.current, hk.saved⟩

theorem revertToSnapshot_restores_pendingLogs (hv : LogsValid t) {ops : List Op}
    (hnest : ∀ j, Op.revertToSnapshot j ∈ ops → t.snapshots.length ≤ j)
    (h : runOps keccak ops t.snapshot.2 = some t') :
    ∃ t'', t'.revertToSnapshot t.snapshot.1 = some t'' ∧ t''.pendingLogs = t.pendingLogs := by
  refine ⟨_, revertToSnapshot_after_runOps h, ?_⟩
  cases hl : t.txn.logs with
  | none => simp [Txn.pendingLogs, hl]
  | some S =>
    have hstart : LogsKept S (S.read t.memory) t.snapshots.length t.snapshot.2 := by
      refine ⟨@Op.logsValid keccak t _ .snapshot rfl hv, hv.current S hl, rfl,
        fun s hs => ?_, fun k r hk hr s hs => ?_⟩
      · cases hl.symm.trans hs
        exact fun _ _ => Nat.le_refl _
      · simp only [Txn.snapshot] at hr
        rw [List.getElem?_append_right hk, List.getElem?_singleton] at hr
        split_ifs at hr
        cases hr
        cases hl.symm.trans hs
        exact fun _ _ => Nat.le_refl _
    have hend := runOps_induction
      (R := fun a b => LogsKept S (S.read t.memory) t.snapshots.length a →
        LogsKept S (S.read t.memory) t.snapshots.length b)
      (fun _ => id) (fun _ _ _ h₁ h₂ => h₂ ∘ h₁)
      (fun op hop _ _ hstep hk => hk.step (fun j hj => hnest j (hj ▸ hop)) hstep) h hstart
    simpa [Txn.pendingLogs, hl] using hend.read_eq

/-! ## Two states a revert does not bring back -/

def sampleAddress : Address := bytesToAddress [1]

def sampleCode : List UInt8 := [0x60, 0x00]

def sampleCodeHash : Hash := hashOfNat 0xc0de

def sampleReadSnapshot : ReadSnapshot where
  getStorage _ _ _ := zeroHash
  getAccount addr := if addr = sampleAddress then some ⟨0, 0, emptyStateHash, sampleCodeHash⟩ else none
  getCode h := if h = sampleCodeHash then some sampleCode else none

def sampleLog (n : UInt8) : Log := ⟨sampleAddress, [], [n]⟩

def loggedTxn : Txn :=
  let t := (((newTxn sampleReadSnapshot).emitLog sampleAddress [] [1]).emitLog sampleAddress [] [2]).emitLog
    sampleAddress [] [3]
  t.snapshot.2.emitLog sampleAddress [] [4]

theorem revertToSnapshot_misses_code_cache_and_log_array (keccak : List UInt8 → Hash) :
    ((newTxn sampleReadSnapshot).getCode sampleAddress).1 = sampleCode ∧
    ((runOps keccak [.createAccount sampleAddress, .getCode sampleAddress]
        (newTxn sampleReadSnapshot).snapshot.2).bind
        (·.revertToSnapshot (newTxn sampleReadSnapshot).snapshot.1)).map
      (fun t => (t.getCode sampleAddress).1) = some [] ∧
    loggedTxn.pendingLogs = [sampleLog 1, sampleLog 2, sampleLog 3, sampleLog 4] ∧
    ((runOps keccak [.revertToSnapshot 0, .emitLog sampleAddress [] [5]] loggedTxn.snapshot.2).bind
        (·.revertToSnapshot loggedTxn.snapshot.1)).map Txn.pendingLogs =
      some [sampleLog 1, sampleLog 2, sampleLog 3, sampleLog 5] := by
  refine ⟨rfl, rfl, rfl, rfl⟩

end StateTxnSnapshots
