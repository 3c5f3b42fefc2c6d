import MindPos.EdgeTypes

/-! # Storage writes and the refund counter of a block's state

`state/txn.go`: a `Txn` reads storage through the writes made since the block began, and falls
back on the block's pre-state snapshot, which is also what `GetCommittedState` reads. The refund
counter is a `uint64` in the same radix tree: a reverted call frame restores it with the storage,
and `CleanDeleteObjects` deletes it after every transaction (`Transition.Write`). Accounts are
taken to exist. -/
namespace StateTxn

open EdgeTypes RlpEncoding

/-- `runtime.StorageStatus`. -/
inductive StorageStatus where
  | unchanged
  | modified
  | modifiedAgain
  | added
  | deleted
  deriving DecidableEq, Repr

/-- The forks `SetStorage` reads of `chain.ForksInTime`. -/
structure ForksInTime where
  constantinople : Bool
  petersburg : Bool
  istanbul : Bool
  deriving DecidableEq

abbrev Slot := Address × Hash

/-- A `Txn` as storage and the refund see it: the block's pre-state, the storage written since
the block began (latest value a slot), and the refund counter (0 when absent). -/
structure Txn where
  committed : Address → Hash → Hash
  dirty : List (Slot × Hash)
  refund : UInt64

/-- `GetState`. -/
def Txn.getState (t : Txn) (addr : Address) (key : Hash) : Hash :=
  (t.dirty.lookup (addr, key)).getD (t.committed addr key)

/-- `GetCommittedState`: the slot in the block's pre-state. -/
def Txn.getCommittedState (t : Txn) (addr : Address) (key : Hash) : Hash := t.committed addr key

/-- `SetState`. -/
def Txn.setState (t : Txn) (addr : Address) (key value : Hash) : Txn :=
  { t with dirty := ((addr, key), value) :: t.dirty.filter (·.1 ≠ (addr, key)) }

@[simp] theorem Txn.committed_setState (t : Txn) (addr : Address) (key value : Hash) :
    (t.setState addr key value).committed = t.committed := rfl

@[simp] theorem Txn.refund_setState (t : Txn) (addr : Address) (key value : Hash) :
    (t.setState addr key value).refund = t.refund := rfl

/-- `AddRefund`. -/
def Txn.addRefund (t : Txn) (gas : UInt64) : Txn := { t with refund := t.refund + gas }

/-- `SubRefund`: a `uint64` subtraction. -/
def Txn.subRefund (t : Txn) (gas : UInt64) : Txn := { t with refund := t.refund - gas }

@[simp] theorem Txn.refund_addRefund (t : Txn) (gas : UInt64) :
    (t.addRefund gas).refund = t.refund + gas := rfl

@[simp] theorem Txn.refund_subRefund (t : Txn) (gas : UInt64) :
    (t.subRefund gas).refund = t.refund - gas := rfl

/-- `CleanDeleteObjects`, as far as storage and the refund go: the refund is deleted. -/
def Txn.cleanDeleteObjects (t : Txn) : Txn := { t with refund := 0 }

/-- `SetStorage`. -/
def Txn.setStorage (t : Txn) (addr : Address) (key value : Hash) (config : ForksInTime) :
    StorageStatus × Txn :=
  let oldValue := t.getState addr key
  if oldValue = value then (.unchanged, t)
  else
    let current := oldValue
    let original := t.getCommittedState addr key
    let t := t.setState addr key value
    let legacyGasMetering := !config.istanbul && (config.petersburg || !config.constantinople)
    if legacyGasMetering then
      if oldValue = zeroHash then (.added, t)
      else if value = zeroHash then (.deleted, t.addRefund 15000)
      else (.modified, t)
    else if original = current then
      if original = zeroHash then (.added, t)
      else if value = zeroHash then (.deleted, t.addRefund 15000)
      else (.modified, t)
    else
      -- the slot was written before in the block
      let t :=
        if original ≠ zeroHash then
          if current = zeroHash then t.subRefund 15000
          else if value = zeroHash then t.addRefund 15000
          else t
        else t
      let t :=
        if original = value then
          if original = zeroHash then t.addRefund (if config.istanbul then 19200 else 19800)
          else t.addRefund (if config.istanbul then 4200 else 4800)
        else t
      (.modifiedAgain, t)

/-! ## EIP-2200

The status and the refund change the EIP gives an `SSTORE`, as a function of the slot's value at
the start of the transaction (`original`), its value now (`current`) and the value written. -/

def eip2200 (original current value : Hash) : StorageStatus × Int :=
  if current = value then (.unchanged, 0)
  else if original = current then
    if original = zeroHash then (.added, 0)
    else if value = zeroHash then (.deleted, 15000)
    else (.modified, 0)
  else
    let cleared : Int :=
      if original ≠ zeroHash then
        if current = zeroHash then -15000 else if value = zeroHash then 15000 else 0
      else 0
    let reset : Int :=
      if original = value then (if original = zeroHash then 19200 else 4200) else 0
    (.modifiedAgain, cleared + reset)

variable {config : ForksInTime}

theorem setStorage_status (hi : config.istanbul = true) (t : Txn) (addr : Address)
    (key value : Hash) :
    (t.setStorage addr key value config).1 =
      (eip2200 (t.getCommittedState addr key) (t.getState addr key) value).1 := by
  unfold Txn.setStorage eip2200
  simp only [hi, Bool.not_true, Bool.false_and, Bool.false_eq_true, if_false, apply_ite Prod.fst]

theorem setStorage_dirty (t : Txn) (addr : Address) (key value : Hash) :
    (t.setStorage addr key value config).2.dirty =
        (if t.getState addr key = value then t.dirty else (t.setState addr key value).dirty) ∧
      (t.setStorage addr key value config).2.committed = t.committed := by
  unfold Txn.setStorage
  simp only [apply_ite Prod.snd, apply_ite Txn.dirty, apply_ite Txn.committed, Txn.addRefund,
    Txn.subRefund, ite_self, Txn.committed_setState, and_self]

theorem setStorage_refund (hi : config.istanbul = true) (t : Txn) (addr : Address)
    (key value : Hash)
    (hsub : (eip2200 (t.getCommittedState addr key) (t.getState addr key) value).2 < 0 →
      15000 ≤ t.refund.toNat)
    (hadd : t.refund.toNat + 19200 < 2 ^ 64) :
    ((t.setStorage addr key value config).2.refund.toNat : Int) =
      t.refund.toNat + (eip2200 (t.getCommittedState addr key) (t.getState addr key) value).2 := by
  unfold eip2200 at hsub
  unfold Txn.setStorage eip2200
  simp only [hi, Bool.not_true, Bool.false_and, Bool.false_eq_true, if_false, if_true,
    apply_ite Prod.snd, apply_ite Txn.refund, Txn.refund_addRefund, Txn.refund_subRefund,
    Txn.refund_setState]
  generalize t.getState addr key = current at hsub ⊢
  generalize t.getCommittedState addr key = original at hsub ⊢
  generalize t.refund = r at hsub hadd ⊢
  generalize zeroHash = z at hsub ⊢
  by_cases hcv : current = value
  · subst hcv
    simp only [↓reduceIte]
    omega
  by_cases hoc : original = current
  · subst hoc
    simp only [hcv, ↓reduceIte]
    by_cases hoz : original = z
    · simp only [hoz, ↓reduceIte]
      omega
    by_cases hvz : value = z
    · simp only [hoz, hvz, ↓reduceIte, UInt64.toNat_add, UInt64.reduceToNat]
      omega
    · simp only [hoz, hvz, ↓reduceIte]
      omega
  simp only [hcv, hoc, ↓reduceIte, ne_eq] at hsub ⊢
  by_cases hoz : original = z
  · subst hoz
    by_cases hov : original = value
    · subst hov
      simp only [not_true_eq_false, ↓reduceIte, UInt64.toNat_add, UInt64.reduceToNat]
      omega
    · simp only [hov, not_true_eq_false, ↓reduceIte]
      omega
  by_cases hcz : current = z
  · subst hcz
    have h15 : 15000 ≤ r.toNat := hsub (by
      simp only [hoz, not_false_eq_true, ↓reduceIte]
      split_ifs <;> omega)
    by_cases hov : original = value
    · subst hov
      simp only [hoz, not_false_eq_true, ↓reduceIte, UInt64.toNat_add, UInt64.toNat_sub,
        UInt64.reduceToNat]
      omega
    · simp only [hoz, hov, not_false_eq_true, ↓reduceIte, UInt64.toNat_sub, UInt64.reduceToNat]
      omega
  by_cases hvz : value = z
  · subst hvz
    simp only [hoz, hcz, not_false_eq_true, ↓reduceIte, UInt64.toNat_add, UInt64.reduceToNat]
    omega
  by_cases hov : original = value
  · simp only [hcz, hvz, hov, not_false_eq_true, ↓reduceIte, UInt64.toNat_add,
      UInt64.reduceToNat]
    omega
  · simp only [hoz, hcz, hvz, hov, not_false_eq_true, ↓reduceIte]
    omega

/-! ## Slots cleared in the transaction

A written slot whose pre-state is non-zero and which now holds zero has had 15000 added to the
refund counter in the current transaction, when the transaction began with every slot at its
pre-state. That is what makes the counter cover the 15000 `SetStorage` takes back when such a
slot is written again. -/

def Txn.keys (t : Txn) : List Slot := t.dirty.map (·.1)

def Txn.cleared (t : Txn) (s : Slot) : Bool :=
  t.committed s.1 s.2 ≠ zeroHash && t.getState s.1 s.2 = zeroHash

def Txn.clearedCount (t : Txn) : Nat := t.keys.countP t.cleared

/-- The refund counter covers 15000 for every cleared slot; the written slots are distinct. -/
structure Txn.RefundInv (t : Txn) : Prop where
  nodup : t.keys.Nodup
  covered : 15000 * t.clearedCount ≤ t.refund.toNat

theorem Txn.keys_setState (t : Txn) (addr : Address) (key value : Hash) :
    (t.setState addr key value).keys = (addr, key) :: t.keys.filter (· ≠ (addr, key)) := by
  simp only [Txn.keys, Txn.setState, List.map_cons, List.filter_map]
  rfl

theorem lookup_filter_ne {l : List (Slot × Hash)} {s k : Slot} (hs : s ≠ k) :
    (l.filter (·.1 ≠ k)).lookup s = l.lookup s := by
  induction l with
  | nil => rfl
  | cons e l ih =>
    obtain ⟨a, b⟩ := e
    by_cases he : a = k
    · subst he
      have hb : (s == a) = false := by simpa using hs
      simpa [List.filter_cons, List.lookup, hb] using ih
    · by_cases hsa : s = a
      · subst hsa
        simp [he, List.lookup]
      · have hb : (s == a) = false := by simpa using hsa
        simpa [List.filter_cons, he, List.lookup, hb] using ih

theorem Txn.getState_setState (t : Txn) (addr : Address) (key value : Hash) (s : Slot) :
    (t.setState addr key value).getState s.1 s.2 =
      if s = (addr, key) then value else t.getState s.1 s.2 := by
  unfold Txn.getState Txn.setState
  by_cases hs : s = (addr, key)
  · subst hs
    simp [List.lookup]
  · have hb : (s == (addr, key)) = false := by simpa using hs
    simp only [if_neg hs, List.lookup, hb, Prod.mk.eta, lookup_filter_ne hs]

theorem countP_eq_filter_ne_add {l : List Slot} (hl : l.Nodup) (p : Slot → Bool) (s : Slot) :
    l.countP p = (l.filter (· ≠ s)).countP p + (if s ∈ l ∧ p s = true then 1 else 0) := by
  induction l with
  | nil => simp
  | cons a l ih =>
    obtain ⟨ha, hl⟩ := List.nodup_cons.mp hl
    by_cases has : a = s
    · subst has
      have hfilter : l.filter (· ≠ a) = l := List.filter_eq_self.mpr fun b hb => by
        simp only [ne_eq, decide_eq_true_eq]
        rintro rfl
        exact ha hb
      rw [List.filter_cons_of_neg (by simp), hfilter, List.countP_cons]
      by_cases hp : p a = true
      · rw [if_pos hp, if_pos ⟨List.mem_cons_self, hp⟩]
      · rw [if_neg hp, if_neg fun h => hp h.2]
    · have hs : s ∈ a :: l ∧ p s = true ↔ s ∈ l ∧ p s = true := by
        simp only [List.mem_cons]
        constructor
        · rintro ⟨rfl | h, hp⟩
          · exact absurd rfl has
          · exact ⟨h, hp⟩
        · rintro ⟨h, hp⟩
          exact ⟨.inr h, hp⟩
      rw [List.filter_cons_of_pos (by simpa using has), List.countP_cons, List.countP_cons, ih hl,
        if_congr hs rfl rfl]
      omega

theorem Txn.cleared_of_not_mem {t : Txn} {s : Slot} (hs : s ∉ t.keys) : t.cleared s = false := by
  have hlookup : t.dirty.lookup s = none := by
    rw [List.lookup_eq_none_iff]
    intro p hp
    have hne : p.1 ≠ s := fun he => hs (List.mem_map.mpr ⟨p, hp, he⟩)
    exact bne_iff_ne.mpr (Ne.symm hne)
  simp [Txn.cleared, Txn.getState, hlookup]

theorem Txn.clearedCount_setState {t : Txn} (hnd : t.keys.Nodup) (addr : Address)
    (key value : Hash) :
    (t.setState addr key value).clearedCount + (if t.cleared (addr, key) then 1 else 0) =
      t.clearedCount + (if t.committed addr key ≠ zeroHash ∧ value = zeroHash then 1 else 0) := by
  have hsplit := countP_eq_filter_ne_add hnd t.cleared (addr, key)
  have hrest : (t.keys.filter (· ≠ (addr, key))).countP (t.setState addr key value).cleared =
      (t.keys.filter (· ≠ (addr, key))).countP t.cleared := by
    apply List.countP_congr
    intro s hs
    have hne : s ≠ (addr, key) := of_decide_eq_true (List.mem_filter.mp hs).2
    simp only [Txn.cleared, Txn.getState_setState, if_neg hne, Txn.committed_setState]
    exact Iff.rfl
  have hself : (t.setState addr key value).cleared (addr, key) =
      decide (t.committed addr key ≠ zeroHash ∧ value = zeroHash) := by
    have hget : (t.setState addr key value).getState addr key = value := by
      simpa using t.getState_setState addr key value (addr, key)
    simp only [Txn.cleared, Txn.committed_setState, hget]
    by_cases hc : t.committed addr key = zeroHash <;> by_cases hv : value = zeroHash <;>
      simp [hc, hv]
  have hmem : (if (addr, key) ∈ t.keys ∧ t.cleared (addr, key) = true then 1 else 0) =
      if t.cleared (addr, key) then 1 else 0 := by
    by_cases hk : (addr, key) ∈ t.keys
    · simp [hk]
    · simp [hk, Txn.cleared_of_not_mem hk]
  unfold Txn.clearedCount at hsplit ⊢
  rw [Txn.keys_setState, List.countP_cons, hrest, hself, hsplit, hmem]
  simp only [decide_eq_true_eq]
  exact Nat.add_right_comm _ _ _

theorem eip2200_refund_covers {original current value : Hash} (hcv : current ≠ value) :
    15000 * (((if original ≠ zeroHash ∧ value = zeroHash then 1 else 0 : Nat)) : Int) ≤
      (eip2200 original current value).2 +
        15000 * (((if original ≠ zeroHash ∧ current = zeroHash then 1 else 0 : Nat)) : Int) := by
  unfold eip2200
  split_ifs <;> simp_all

theorem eip2200_refund_le (original current value : Hash) :
    (eip2200 original current value).2 ≤ 19200 := by
  unfold eip2200
  split_ifs <;> simp_all

theorem eip2200_refund_neg {original current value : Hash}
    (h : (eip2200 original current value).2 < 0) : original ≠ zeroHash ∧ current = zeroHash := by
  unfold eip2200 at h
  split_ifs at h <;> simp_all

def Txn.reachesSubRefund (t : Txn) (addr : Address) (key value : Hash) (config : ForksInTime) :
    Prop :=
  t.getState addr key ≠ value ∧
    (!config.istanbul && (config.petersburg || !config.constantinople)) = false ∧
    t.getCommittedState addr key ≠ t.getState addr key ∧
    t.getCommittedState addr key ≠ zeroHash ∧ t.getState addr key = zeroHash

instance (t : Txn) (addr : Address) (key value : Hash) (config : ForksInTime) :
    Decidable (t.reachesSubRefund addr key value config) :=
  inferInstanceAs (Decidable (_ ∧ _ ∧ _ ∧ _ ∧ _))

theorem Txn.RefundInv.covers_cleared {t : Txn} (hinv : t.RefundInv) {s : Slot}
    (hs : t.cleared s = true) : 15000 ≤ t.refund.toNat := by
  have hmem : s ∈ t.keys := by
    by_contra hn
    rw [Txn.cleared_of_not_mem hn] at hs
    exact Bool.false_ne_true hs
  have hpos : 0 < t.clearedCount := List.countP_pos_iff.mpr ⟨s, hmem, hs⟩
  have := hinv.covered
  omega

theorem Txn.clearedCount_setStorage {t : Txn} {addr : Address} {key value : Hash}
    (hcv : t.getState addr key ≠ value) :
    (t.setStorage addr key value config).2.keys = (t.setState addr key value).keys ∧
      (t.setStorage addr key value config).2.clearedCount =
        (t.setState addr key value).clearedCount := by
  obtain ⟨hd, hc⟩ := @setStorage_dirty config t addr key value
  rw [if_neg hcv] at hd
  have hkeys : (t.setStorage addr key value config).2.keys = (t.setState addr key value).keys := by
    simp only [Txn.keys, hd]
  refine ⟨hkeys, ?_⟩
  unfold Txn.clearedCount Txn.cleared Txn.getState
  rw [hkeys, hd, hc, Txn.committed_setState]

theorem Txn.RefundInv.setStorage (hi : config.istanbul = true) {t : Txn} (hinv : t.RefundInv)
    (hadd : t.refund.toNat + 19200 < 2 ^ 64) (addr : Address) (key value : Hash) :
    (t.reachesSubRefund addr key value config → 15000 ≤ t.refund.toNat) ∧
      (t.setStorage addr key value config).2.RefundInv ∧
      (t.setStorage addr key value config).2.refund.toNat ≤ t.refund.toNat + 19200 := by
  have hcleared : t.cleared (addr, key) =
      decide (t.committed addr key ≠ zeroHash ∧ t.getState addr key = zeroHash) := by
    simp [Txn.cleared]
  refine ⟨fun ⟨_, _, _, ho, hc⟩ => hinv.covers_cleared (s := (addr, key))
    (by rw [hcleared]; exact decide_eq_true ⟨ho, hc⟩), ?_⟩
  by_cases hcv : t.getState addr key = value
  · have heq : (t.setStorage addr key value config).2 = t := by simp [Txn.setStorage, hcv]
    rw [heq]
    exact ⟨hinv, by omega⟩
  · have hsub : (eip2200 (t.getCommittedState addr key) (t.getState addr key) value).2 < 0 →
        15000 ≤ t.refund.toNat := fun hneg => by
      obtain ⟨ho, hc⟩ := eip2200_refund_neg hneg
      exact hinv.covers_cleared (s := (addr, key)) (by simp [hcleared, hc]; exact ho)
    have hrefund : ((t.setStorage addr key value config).2.refund.toNat : Int) =
        t.refund.toNat + (eip2200 (t.committed addr key) (t.getState addr key) value).2 :=
      setStorage_refund hi t addr key value hsub hadd
    have hcovers : 15000 * ((if t.committed addr key ≠ zeroHash ∧ value = zeroHash then 1 else 0 : Nat) : Int) ≤
        (eip2200 (t.committed addr key) (t.getState addr key) value).2 +
          15000 * ((if t.committed addr key ≠ zeroHash ∧ t.getState addr key = zeroHash
            then 1 else 0 : Nat) : Int) :=
      eip2200_refund_covers hcv
    have hle : (eip2200 (t.committed addr key) (t.getState addr key) value).2 ≤ 19200 :=
      eip2200_refund_le _ _ _
    obtain ⟨hkeys, hcount⟩ := @Txn.clearedCount_setStorage config _ _ _ _ hcv
    have hcount' := Txn.clearedCount_setState hinv.nodup addr key value
    have hcs : (if t.cleared (addr, key) then 1 else 0) =
        if t.committed addr key ≠ zeroHash ∧ t.getState addr key = zeroHash then 1 else 0 := by
      simp [hcleared]
    have hcov := hinv.covered
    refine ⟨⟨?_, ?_⟩, by omega⟩
    · rw [hkeys, Txn.keys_setState]
      exact List.nodup_cons.mpr ⟨by simp, hinv.nodup.filter _⟩
    · rw [hcount]
      omega

/-! ## Transactions of `SSTORE`s -/

/-- What a transaction does to storage: `SSTORE`s, and call frames, whose writes a failed call
reverts (`applyCall` and `applyCreate` revert to the snapshot taken on entry). -/
inductive StorageOp where
  | sstore (addr : Address) (key value : Hash)
  | call (body : List StorageOp) (reverted : Bool)

def Txn.run (config : ForksInTime) : Txn → List StorageOp → Txn
  | t, [] => t
  | t, .sstore addr key value :: ops => Txn.run config (t.setStorage addr key value config).2 ops
  | t, .call body reverted :: ops =>
    Txn.run config (if reverted then t else Txn.run config t body) ops

/-- `Transition.Write` of each transaction of a block: its operations, then
`CleanDeleteObjects`. -/
def Txn.runBlock (config : ForksInTime) (t : Txn) (txs : List (List StorageOp)) : Txn :=
  txs.foldl (fun t ops => (t.run config ops).cleanDeleteObjects) t

def sstoreCount : List StorageOp → Nat
  | [] => 0
  | .sstore .. :: ops => sstoreCount ops + 1
  | .call body _ :: ops => sstoreCount body + sstoreCount ops

/-- Along the run, `SubRefund` is reached only with at least 15000 in the counter. -/
def NoUnderflow (config : ForksInTime) : Txn → List StorageOp → Prop
  | _, [] => True
  | t, .sstore addr key value :: ops =>
    (t.reachesSubRefund addr key value config → 15000 ≤ t.refund.toNat) ∧
      NoUnderflow config (t.setStorage addr key value config).2 ops
  | t, .call body reverted :: ops =>
    NoUnderflow config t body ∧
      NoUnderflow config (if reverted then t else t.run config body) ops

theorem Txn.RefundInv.run (hi : config.istanbul = true) :
    ∀ (ops : List StorageOp) (t : Txn), t.RefundInv →
      t.refund.toNat + 19200 * sstoreCount ops < 2 ^ 64 →
      NoUnderflow config t ops ∧ (t.run config ops).RefundInv ∧
        (t.run config ops).refund.toNat ≤ t.refund.toNat + 19200 * sstoreCount ops
  | [], t, hinv, _ => by
    rw [NoUnderflow, Txn.run, sstoreCount]
    exact ⟨trivial, hinv, by omega⟩
  | .sstore addr key value :: ops, t, hinv, hroom => by
    rw [sstoreCount] at hroom
    obtain ⟨hsub, hinv', hle⟩ :=
      hinv.setStorage hi (Nat.lt_of_le_of_lt (by omega) hroom) addr key value
    obtain ⟨hno, hinvRun, hleRun⟩ :=
      Txn.RefundInv.run hi ops _ hinv' (Nat.lt_of_le_of_lt (by omega) hroom)
    rw [NoUnderflow, Txn.run, sstoreCount]
    exact ⟨⟨hsub, hno⟩, hinvRun, by omega⟩
  | .call body reverted :: ops, t, hinv, hroom => by
    rw [sstoreCount] at hroom
    obtain ⟨hnoBody, hinvBody, hleBody⟩ :=
      Txn.RefundInv.run hi body t hinv (Nat.lt_of_le_of_lt (by omega) hroom)
    have hnext : (if reverted then t else t.run config body).RefundInv ∧
        (if reverted then t else t.run config body).refund.toNat ≤
          t.refund.toNat + 19200 * sstoreCount body := by
      split_ifs
      · exact ⟨hinv, by omega⟩
      · exact ⟨hinvBody, hleBody⟩
    obtain ⟨hno, hinvRun, hleRun⟩ :=
      Txn.RefundInv.run hi ops _ hnext.1 (Nat.lt_of_le_of_lt (by omega) hroom)
    rw [NoUnderflow, Txn.run, sstoreCount]
    exact ⟨⟨hnoBody, hno⟩, hinvRun, by omega⟩

theorem lookup_of_mem {l : List (Slot × Hash)} (hnd : (l.map (·.1)).Nodup) {e : Slot × Hash}
    (he : e ∈ l) : l.lookup e.1 = some e.2 := by
  induction l with
  | nil => simp at he
  | cons a l ih =>
    obtain ⟨ha, hnd⟩ := List.nodup_cons.mp hnd
    rcases List.mem_cons.mp he with rfl | he
    · simp [List.lookup]
    · have hne : e.1 ≠ a.1 := fun h => ha (List.mem_map.mpr ⟨e, he, h⟩)
      have hb : (e.1 == a.1) = false := by simpa using hne
      simp only [List.lookup, hb]
      exact ih hnd he

theorem Txn.refundInv_of_clean {t : Txn} (hnd : t.keys.Nodup)
    (hclean : ∀ e ∈ t.dirty, e.2 = t.committed e.1.1 e.1.2) (hr : t.refund = 0) : t.RefundInv := by
  refine ⟨hnd, ?_⟩
  have hzero : t.clearedCount = 0 := by
    rw [Txn.clearedCount, List.countP_eq_zero]
    intro s hs
    obtain ⟨e, he, rfl⟩ := List.mem_map.mp hs
    have hlookup : t.dirty.lookup e.1 = some e.2 := lookup_of_mem hnd he
    simp [Txn.cleared, Txn.getState, hlookup, hclean e he]
  simp [hzero, hr]

theorem noUnderflow_of_clean_start (hi : config.istanbul = true) {t : Txn} (hnd : t.keys.Nodup)
    (hclean : ∀ e ∈ t.dirty, e.2 = t.committed e.1.1 e.1.2) (hr : t.refund = 0)
    (ops : List StorageOp) (hops : 19200 * sstoreCount ops < 2 ^ 64) : NoUnderflow config t ops := by
  have hroom : t.refund.toNat + 19200 * sstoreCount ops < 2 ^ 64 := by
    rw [hr, UInt64.toNat_zero, Nat.zero_add]
    exact hops
  exact (Txn.RefundInv.run hi ops t (Txn.refundInv_of_clean hnd hclean hr) hroom).1

theorem noUnderflow_first_transaction (hi : config.istanbul = true)
    (committed : Address → Hash → Hash) (ops : List StorageOp)
    (hops : 19200 * sstoreCount ops < 2 ^ 64) : NoUnderflow config ⟨committed, [], 0⟩ ops :=
  noUnderflow_of_clean_start hi (by simp [Txn.keys]) (by simp) rfl ops hops

/-! ## A slot cleared by an earlier transaction of the block -/

def istanbulForks : ForksInTime := ⟨true, true, true⟩

def sampleAddress : Address := bytesToAddress (toBE 1)

def sampleKey : Hash := hashOfNat 1

def samplePreState : Txn :=
  ⟨fun addr key => if addr = sampleAddress ∧ key = sampleKey then hashOfNat 1 else zeroHash, [], 0⟩

def sampleAfterClearing : Txn :=
  samplePreState.runBlock istanbulForks [[.sstore sampleAddress sampleKey zeroHash]]

/-- A second transaction writes 5 to the slot the first one cleared. It starts with the slot at 0
and a zero counter, so EIP-2200 makes the write an addition without refund. `SetStorage` takes
the block's pre-state 1 as the original value, reports a modification again and subtracts 15000
from the zero counter, which wraps. -/
theorem setStorage_after_clearing_transaction_underflows :
    sampleAfterClearing.getState sampleAddress sampleKey = zeroHash ∧
      sampleAfterClearing.refund = 0 ∧
      sampleAfterClearing.reachesSubRefund sampleAddress sampleKey (hashOfNat 5) istanbulForks ∧
      (sampleAfterClearing.setStorage sampleAddress sampleKey (hashOfNat 5) istanbulForks).1 =
        .modifiedAgain ∧
      (sampleAfterClearing.setStorage sampleAddress sampleKey (hashOfNat 5)
        istanbulForks).2.refund.toNat = 2 ^ 64 - 15000 ∧
      eip2200 zeroHash zeroHash (hashOfNat 5) = (.added, 0) := by
  have hrun : sampleAfterClearing =
      (samplePreState.setStorage sampleAddress sampleKey zeroHash istanbulForks).2.cleanDeleteObjects := by
    simp only [sampleAfterClearing, Txn.runBlock, List.foldl_cons, List.foldl_nil, Txn.run]
  rw [hrun]
  decide +kernel

end StateTxn
