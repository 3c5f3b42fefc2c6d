import MindPos.TxPoolState

/-! # The slot gauge over runs of the pool

The gauge is meant to read the slots of the transactions in the accounts' queues. Each operation
moves transactions between the queues, prunes or drops them, and raises or lowers the gauge by what
joined or left; `Accounted` is that bookkeeping, with what left the queues and is not yet cleaned
up as `pending`. Every operation keeps it, and `Pop` does when it is given the head of its
account's promoted queue. Given a transaction a reset has already pruned, `Pop` lowers the gauge a
second time and it wraps. The check of `addTx` is sound for one request, but the gauge rises only
when the enqueue handler runs, so requests in flight can all pass it. -/
namespace TxpoolState

open EdgeTypes

/-! ## Slots -/

theorem foldl_slots (l : List PoolTx) (init : UInt64) :
    l.foldl (fun slots tx => slots + txSlots tx) init = init + slotsRequired l := by
  induction l generalizing init with
  | nil => exact (UInt64.add_zero init).symm
  | cons tx l ih =>
    rw [List.foldl_cons, slotsRequired, List.foldl_cons, ih, ih (0 + txSlots tx)]
    grind

@[simp] theorem slotsRequired_nil : slotsRequired [] = 0 := rfl

@[simp] theorem slotsRequired_singleton (tx : PoolTx) : slotsRequired [tx] = txSlots tx :=
  UInt64.zero_add _

theorem slotsRequired_cons (tx : PoolTx) (l : List PoolTx) :
    slotsRequired (tx :: l) = txSlots tx + slotsRequired l := by
  rw [slotsRequired, List.foldl_cons, foldl_slots, UInt64.zero_add]

@[simp] theorem slotsRequired_append (l₁ l₂ : List PoolTx) :
    slotsRequired (l₁ ++ l₂) = slotsRequired l₁ + slotsRequired l₂ := by
  rw [slotsRequired, List.foldl_append, foldl_slots]
  rfl

theorem slotsRequired_perm {l₁ l₂ : List PoolTx} (h : l₁.Perm l₂) :
    slotsRequired l₁ = slotsRequired l₂ := by
  induction h with
  | nil => rfl
  | cons tx _ ih => rw [slotsRequired_cons, ih, ← slotsRequired_cons]
  | swap x y l =>
    rw [slotsRequired_cons, slotsRequired_cons, slotsRequired_cons x, slotsRequired_cons y]
    grind
  | trans _ _ ih₁ ih₂ => exact ih₁.trans ih₂

theorem SlotGauge.increase_height (g : SlotGauge) (slots : UInt64) :
    (g.increase slots).height = g.height + slots := rfl

theorem SlotGauge.decrease_height (g : SlotGauge) (slots : UInt64) :
    (g.decrease slots).height = g.height - slots := by
  rw [SlotGauge.decrease, UInt64.not_eq_neg_sub]
  grind

/-! ## What the queues gain and lose -/

theorem accountQueue.push_perm (q : List PoolTx) (tx : PoolTx) :
    (accountQueue.push q tx).Perm (tx :: q) :=
  ContainerHeap.push_perm nonceLess q tx

theorem accountQueue.pop_perm (q : List PoolTx) :
    q.Perm ((accountQueue.pop q).1.toList ++ (accountQueue.pop q).2) := by
  unfold accountQueue.pop
  split
  · rfl
  · exact ContainerHeap.pop_perm nonceLess q

theorem accountQueue.pop_fst (q : List PoolTx) : (accountQueue.pop q).1 = q.head? := by
  unfold accountQueue.pop
  split
  · rename_i h
    rw [List.length_eq_zero_iff.mp h]
    rfl
  · exact ContainerHeap.pop_fst nonceLess q

theorem accountQueue.pruneLoop_perm (nonce : UInt64) :
    ∀ (fuel : ℕ) (q : List PoolTx), q.Perm ((accountQueue.pruneLoop nonce fuel q).1 ++
      (accountQueue.pruneLoop nonce fuel q).2)
  | 0, q => List.Perm.refl _
  | fuel + 1, q => by
    rw [accountQueue.pruneLoop]
    split
    · rfl
    · split
      · rfl
      · have h := accountQueue.pruneLoop_perm nonce fuel (accountQueue.pop q).2
        refine (accountQueue.pop_perm q).trans ?_
        rw [List.append_assoc]
        exact h.append_left _

theorem accountQueue.prune_perm (q : List PoolTx) (nonce : UInt64) :
    q.Perm ((accountQueue.prune q nonce).1 ++ (accountQueue.prune q nonce).2) :=
  accountQueue.pruneLoop_perm nonce q.length q

theorem accountQueue.clear_perm (q : List PoolTx) :
    q.Perm ((accountQueue.clear q).1 ++ (accountQueue.clear q).2) := by
  rw [accountQueue.clear, List.append_nil]

theorem Account.reset_perm (a : Account) (nonce : UInt64) :
    a.txs.Perm ((a.reset nonce).1 ++ (a.reset nonce).2.1 ++ (a.reset nonce).2.2.2.txs) ∧
      (a.reset nonce).2.2.2.address = a.address := by
  have hpromoted := accountQueue.prune_perm a.promoted nonce
  have henqueued := accountQueue.prune_perm a.enqueued nonce
  unfold Account.reset
  dsimp only
  split_ifs
  · refine ⟨List.perm_iff_count.mpr fun x => ?_, rfl⟩
    have h := hpromoted.count_eq x
    simp only [Account.txs, List.count_append, List.count_nil] at h ⊢
    omega
  · refine ⟨List.perm_iff_count.mpr fun x => ?_, rfl⟩
    have h₁ := hpromoted.count_eq x
    have h₂ := henqueued.count_eq x
    simp only [Account.txs, List.count_append] at h₁ h₂ ⊢
    omega

theorem Account.enqueue_perm {a a' : Account} {tx : PoolTx} (h : a.enqueue tx = .ok a') :
    a'.txs.Perm (tx :: a.txs) ∧ a'.address = a.address := by
  unfold Account.enqueue at h
  split_ifs at h
  cases h
  exact ⟨(accountQueue.push_perm _ _).append_right _, rfl⟩

theorem Account.promoteLoop_perm (a : Account) (nextNonce : UInt64) (fuel : ℕ) :
    a.txs.Perm ((a.promoteLoop nextNonce fuel).2.2.2 ++ (a.promoteLoop nextNonce fuel).1.txs) ∧
      (a.promoteLoop nextNonce fuel).1.address = a.address := by
  induction fuel generalizing a nextNonce with
  | zero => exact ⟨List.Perm.refl _, rfl⟩
  | succ fuel ih =>
    rw [Account.promoteLoop]
    split
    · exact ⟨List.Perm.refl _, rfl⟩
    · split
      · exact ⟨List.Perm.refl _, rfl⟩
      · split
        · exact ⟨List.Perm.refl _, rfl⟩
        · rename_i tx enqueued hpop
          have hsplit := accountQueue.pop_perm a.enqueued
          rw [hpop] at hsplit
          have hpruned := accountQueue.prune_perm enqueued (tx.nonce + 1)
          have hpush := accountQueue.push_perm a.promoted tx
          obtain ⟨hrest, haddr⟩ := ih { a with
            enqueued := (accountQueue.prune enqueued (tx.nonce + 1)).2
            promoted := accountQueue.push a.promoted tx } (tx.nonce + 1)
          refine ⟨List.perm_iff_count.mpr fun x => ?_, haddr⟩
          have h₁ := hsplit.count_eq x
          have h₂ := hpruned.count_eq x
          have h₃ := hpush.count_eq x
          have h₄ := hrest.count_eq x
          simp only [Account.txs, List.count_append, List.count_cons, Option.toList_some,
            List.count_nil] at h₁ h₂ h₃ h₄ ⊢
          omega

theorem Account.promote_perm (a : Account) :
    a.txs.Perm (a.promote.2.1 ++ a.promote.2.2.txs) ∧ a.promote.2.2.address = a.address := by
  unfold Account.promote
  split
  · exact ⟨List.Perm.refl _, rfl⟩
  · rename_i first _
    obtain ⟨hperm, haddr⟩ := a.promoteLoop_perm first.nonce a.enqueued.length
    dsimp only
    split_ifs
    · exact ⟨List.Perm.refl _, rfl⟩
    · exact ⟨hperm, haddr⟩
    · exact ⟨hperm, haddr⟩

/-! ## The accounts of the pool -/

theorem TxPool.getAccount_address {p : TxPool} {addr : Address} {a : Account}
    (ha : p.getAccount addr = some a) : a.address = addr := by
  simpa using (List.find?_eq_some_iff_append.mp ha).1

theorem TxPool.setAccount_split {p : TxPool} (hd : (p.accounts.map (·.address)).Nodup)
    {addr : Address} {a a' : Account} (ha : p.getAccount addr = some a) (haddr : a'.address = addr) :
    ∃ as bs, p.accounts = as ++ a :: bs ∧ (p.setAccount a').accounts = as ++ a' :: bs ∧
      ∀ b ∈ as, b.address ≠ addr := by
  obtain ⟨hpa, as, bs, hsplit, has⟩ := List.find?_eq_some_iff_append.mp ha
  have ha_addr : a.address = addr := by simpa using hpa
  have hbs : ∀ b ∈ bs, b.address ≠ addr := by
    rw [hsplit, List.map_append, List.map_cons] at hd
    intro b hb hbaddr
    have hcons := (List.nodup_append.mp hd).2.1
    exact (List.nodup_cons.mp hcons).1 (List.mem_map.mpr ⟨b, hb, hbaddr.trans ha_addr.symm⟩)
  have has' : ∀ b ∈ as, b.address ≠ addr := fun b hb => by simpa using has b hb
  refine ⟨as, bs, hsplit, ?_, has'⟩
  rw [TxPool.setAccount, hsplit, List.map_append, List.map_cons, haddr, if_pos ha_addr,
    List.map_congr_left (fun b hb => if_neg (has' b hb)), List.map_id',
    List.map_congr_left (fun b hb => if_neg (hbs b hb)), List.map_id']

theorem TxPool.getAccount_setAccount {p : TxPool} (hd : (p.accounts.map (·.address)).Nodup)
    {addr : Address} {a a' : Account} (ha : p.getAccount addr = some a) (haddr : a'.address = addr) :
    (p.setAccount a').getAccount addr = some a' := by
  obtain ⟨as, bs, -, hsplit', has⟩ := TxPool.setAccount_split hd ha haddr
  rw [TxPool.getAccount, hsplit', List.find?_append,
    List.find?_eq_none.mpr fun b hb => by simpa using has b hb, Option.none_or,
    List.find?_cons_of_pos (by simpa using haddr)]

theorem TxPool.addTx_eq {p p' : TxPool} {tx : PoolTx} {stateNonce : UInt64}
    (h : p.addTx tx stateNonce = .ok p') :
    ∃ index, (p.gauge.highPressure = true →
        ∀ a, p.getAccount tx.fromAddr = some a → tx.nonce ≤ a.nextNonce) ∧
      slotsRequired [tx] ≤ p.gauge.max - p.gauge.read ∧ lookupMap.add p.index tx = some index ∧
      p' = let q := { p with index := index }.createAccountOnce tx.fromAddr stateNonce
        { q with enqueueReqs := q.enqueueReqs ++ [tx] } := by
  unfold TxPool.addTx at h
  dsimp only at h
  cases hadd : lookupMap.add p.index tx with
  | none =>
    simp only [hadd] at h
    split_ifs at h <;> (try split at h) <;> (try split_ifs at h) <;> cases h
  | some index =>
    simp only [hadd] at h
    split_ifs at h <;> (try split at h) <;> (try split_ifs at h) <;> cases h
    all_goals
      refine ⟨index, fun hhigh a ha => ?_, ?_, rfl, rfl⟩ <;> grind

/-! ## The accounting -/

/-- The accounting the pool keeps: one account per address, and a gauge that reads the slots of
the queued transactions and of those taken off the queues whose `cleanup` is `pending`. -/
structure TxPool.Accounted (p : TxPool) (pending : UInt64) : Prop where
  distinct : (p.accounts.map (·.address)).Nodup
  gauge_eq : p.gauge.height = slotsHeld p + pending

theorem slotsHeld_split {p : TxPool} {as bs : List Account} {a : Account}
    (h : p.accounts = as ++ a :: bs) :
    slotsHeld p = slotsRequired (as.flatMap Account.txs) + slotsRequired a.txs +
      slotsRequired (bs.flatMap Account.txs) := by
  rw [slotsHeld, h, List.flatMap_append, List.flatMap_cons, slotsRequired_append,
    slotsRequired_append]
  grind

theorem TxPool.Accounted.replace {p q : TxPool} {pending pending' : UInt64}
    (hp : p.Accounted pending) {addr : Address} {a a' : Account} (ha : p.getAccount addr = some a)
    (haddr : a'.address = addr) (haccounts : q.accounts = (p.setAccount a').accounts)
    (hgauge : q.gauge.height + slotsRequired a.txs + pending =
      p.gauge.height + slotsRequired a'.txs + pending') :
    q.Accounted pending' := by
  obtain ⟨as, bs, hsplit, hsplit', -⟩ := TxPool.setAccount_split hp.distinct ha haddr
  have ha_addr : a.address = addr := by
    simpa using (List.find?_eq_some_iff_append.mp ha).1
  rw [hsplit'] at haccounts
  constructor
  · have hd := hp.distinct
    rw [hsplit] at hd
    rw [haccounts]
    simpa [haddr, ha_addr] using hd
  · have hheld := slotsHeld_split hsplit
    have hheld' := slotsHeld_split haccounts
    have hgp := hp.gauge_eq
    grind

theorem TxPool.Accounted.of_eq {p q : TxPool} {pending : UInt64} (hp : p.Accounted pending)
    (haccounts : q.accounts = p.accounts) (hgauge : q.gauge.height = p.gauge.height) :
    q.Accounted pending :=
  ⟨haccounts ▸ hp.distinct, by rw [hgauge, hp.gauge_eq, slotsHeld, slotsHeld, haccounts]⟩

theorem TxPool.Accounted.cleanup {p : TxPool} {pending : UInt64} {stale : List PoolTx}
    (hp : p.Accounted (pending + slotsRequired stale)) : (p.cleanup stale).Accounted pending := by
  refine ⟨hp.distinct, ?_⟩
  have hg := hp.gauge_eq
  rw [TxPool.cleanup, SlotGauge.decrease_height]
  show p.gauge.height - slotsRequired stale = slotsHeld p + pending
  grind

theorem TxPool.Accounted.createAccountOnce {p : TxPool} {pending : UInt64}
    (hp : p.Accounted pending) (addr : Address) (stateNonce : UInt64) :
    (p.createAccountOnce addr stateNonce).Accounted pending := by
  unfold TxPool.createAccountOnce
  split_ifs with hany
  · exact hp
  · have hnew : ∀ a ∈ p.accounts, a.address ≠ addr := by simpa using hany
    refine ⟨?_, ?_⟩
    · simpa [List.nodup_append] using And.intro hp.distinct hnew
    · simpa [slotsHeld, List.flatMap_append, Account.txs] using hp.gauge_eq

section Operations

variable {p : TxPool} {pending : UInt64}

theorem TxPool.Accounted.setAccount (hp : p.Accounted pending) {addr : Address}
    {a a' : Account} (ha : p.getAccount addr = some a) (haddr : a'.address = addr)
    (htxs : a'.txs = a.txs) : (p.setAccount a').Accounted pending :=
  hp.replace ha haddr rfl (by rw [htxs]; rfl)

theorem TxPool.Accounted.setAccount_cleanup (hp : p.Accounted pending) {addr : Address}
    {a a' : Account} (ha : p.getAccount addr = some a) (haddr : a'.address = addr)
    {removed : List PoolTx} (hperm : a.txs.Perm (removed ++ a'.txs)) :
    ((p.setAccount a').cleanup removed).Accounted pending := by
  refine TxPool.Accounted.cleanup (hp.replace ha haddr rfl ?_)
  show p.gauge.height + _ + _ = _
  rw [slotsRequired_perm hperm, slotsRequired_append]
  grind

theorem TxPool.Accounted.cleanup_of_pos {stale : List PoolTx}
    (hp : p.Accounted (pending + slotsRequired stale)) :
    (if stale.length > 0 then p.cleanup stale else p).Accounted pending := by
  split_ifs with hpos
  · exact hp.cleanup
  · have hnil : stale = [] := List.eq_nil_of_length_eq_zero (by omega)
    rw [hnil, slotsRequired_nil, UInt64.add_zero] at hp
    exact hp

theorem TxPool.Accounted.modifyAccount (hp : p.Accounted pending) (addr : Address)
    {f : Account → Account} (hf : ∀ a, (f a).address = a.address ∧ (f a).txs = a.txs) :
    (p.modifyAccount addr f).Accounted pending := by
  unfold TxPool.modifyAccount
  split
  · exact hp
  · rename_i a ha
    exact hp.setAccount ha ((hf a).1.trans (TxPool.getAccount_address ha)) (hf a).2

theorem TxPool.Accounted.addTx (hp : p.Accounted pending) {p' : TxPool} {tx : PoolTx}
    {stateNonce : UInt64} (h : p.addTx tx stateNonce = .ok p') : p'.Accounted pending := by
  obtain ⟨index, -, -, -, rfl⟩ := TxPool.addTx_eq h
  have hq := (hp.of_eq (q := { p with index := index }) rfl rfl).createAccountOnce tx.fromAddr
    stateNonce
  exact hq.of_eq rfl rfl

theorem TxPool.Accounted.handleEnqueueRequest (hp : p.Accounted pending) (tx : PoolTx) :
    (p.handleEnqueueRequest tx).Accounted pending := by
  unfold TxPool.handleEnqueueRequest
  split
  · exact hp
  · rename_i a ha
    split
    · exact hp.of_eq rfl rfl
    · rename_i a' henq
      obtain ⟨hperm, haddr⟩ := Account.enqueue_perm henq
      have hq : ({ p.setAccount a' with gauge := p.gauge.increase (slotsRequired [tx]) }).Accounted
          pending := by
        refine hp.replace ha (haddr.trans (TxPool.getAccount_address ha)) rfl ?_
        rw [SlotGauge.increase_height, slotsRequired_singleton, slotsRequired_perm hperm,
          slotsRequired_cons]
        grind
      dsimp only
      split_ifs
      · exact hq
      · exact hq.of_eq rfl rfl

theorem TxPool.Accounted.handlePromoteRequest (hp : p.Accounted pending) (addr : Address) :
    (p.handlePromoteRequest addr).Accounted pending := by
  unfold TxPool.handlePromoteRequest
  split
  · exact hp
  · rename_i a ha
    obtain ⟨hperm, haddr⟩ := a.promote_perm
    exact hp.setAccount_cleanup ha (haddr.trans (TxPool.getAccount_address ha)) hperm

theorem TxPool.Accounted.pruneAccountWithNonceHoles (hp : p.Accounted pending) (addr : Address) :
    (p.pruneAccountWithNonceHoles addr).Accounted pending := by
  unfold TxPool.pruneAccountWithNonceHoles
  split
  · exact hp
  · rename_i a ha
    split
    · exact hp
    · split_ifs
      · exact hp
      · have haddr := TxPool.getAccount_address ha
        have hperm : a.txs.Perm ((accountQueue.clear a.enqueued).1 ++
            ((accountQueue.clear a.enqueued).2 ++ a.promoted)) := by
          rw [← List.append_assoc]
          exact (accountQueue.clear_perm a.enqueued).append_right a.promoted
        exact hp.setAccount_cleanup ha (by exact haddr) (by exact hperm)

theorem TxPool.Accounted.pruneAccountsWithNonceHoles (hp : p.Accounted pending) :
    p.pruneAccountsWithNonceHoles.Accounted pending := by
  unfold TxPool.pruneAccountsWithNonceHoles
  generalize p.accounts.map (·.address) = addrs
  induction addrs generalizing p with
  | nil => exact hp
  | cons addr addrs ih => exact ih (hp.pruneAccountWithNonceHoles addr)

theorem TxPool.Accounted.drop (hp : p.Accounted pending) (tx : PoolTx) :
    (p.drop tx).Accounted pending := by
  unfold TxPool.drop
  split
  · exact hp
  · rename_i a ha
    have haddr := TxPool.getAccount_address ha
    simp only [accountQueue.clear]
    have h₁ : ((p.setAccount { a with nextNonce := tx.nonce, promoted := [] }).cleanup
        a.promoted).Accounted pending :=
      hp.setAccount_cleanup ha (by exact haddr) (by simpa [Account.txs] using List.perm_append_comm)
    have ha₁ : ((p.setAccount { a with nextNonce := tx.nonce, promoted := [] }).cleanup
        a.promoted).getAccount tx.fromAddr = some { a with nextNonce := tx.nonce, promoted := [] } :=
      TxPool.getAccount_setAccount hp.distinct ha haddr
    exact h₁.setAccount_cleanup ha₁ (by exact haddr) (by simp [Account.txs])

theorem TxPool.Accounted.demote (hp : p.Accounted pending) (tx : PoolTx) :
    (p.demote tx).Accounted pending := by
  unfold TxPool.demote
  split
  · exact hp
  · rename_i a ha
    have haddr := TxPool.getAccount_address ha
    split_ifs
    · exact (hp.drop tx).modifyAccount tx.fromAddr fun _ => ⟨rfl, rfl⟩
    · exact hp.setAccount ha (by exact haddr) (by rfl)

theorem TxPool.Accounted.updateAccountSkipsCount (hp : p.Accounted pending)
    (latestActiveAccounts : List Address) (addr : Address) :
    (TxPool.updateAccountSkipsCount latestActiveAccounts p addr).Accounted pending := by
  unfold TxPool.updateAccountSkipsCount
  split
  · exact hp
  · rename_i a ha
    have haddr := TxPool.getAccount_address ha
    split_ifs
    · exact hp.setAccount ha (by exact haddr) (by rfl)
    · split
      · exact hp
      · rename_i firstTx _
        have hq : (p.setAccount { a with skips := a.skips + 1 }).Accounted pending :=
          hp.setAccount ha (by exact haddr) (by rfl)
        dsimp only
        split_ifs
        · exact hq
        · exact (hq.drop firstTx).modifyAccount addr fun _ => ⟨rfl, rfl⟩

theorem TxPool.Accounted.updateAccountSkipsCounts (hp : p.Accounted pending)
    (latestActiveAccounts : List Address) :
    (p.updateAccountSkipsCounts latestActiveAccounts).Accounted pending := by
  unfold TxPool.updateAccountSkipsCounts
  generalize p.accounts.map (·.address) = addrs
  induction addrs generalizing p with
  | nil => exact hp
  | cons addr addrs ih => exact ih (hp.updateAccountSkipsCount latestActiveAccounts addr)

theorem TxPool.Accounted.resetAccount {q : TxPool} {pruned prunedEnqueued : List PoolTx}
    (hq : q.Accounted (pending + slotsRequired prunedEnqueued + slotsRequired pruned))
    (update : Address × UInt64) :
    let r := TxPool.resetAccount (q, pruned, prunedEnqueued) update
    r.1.Accounted (pending + slotsRequired r.2.2 + slotsRequired r.2.1) := by
  unfold TxPool.resetAccount
  split
  · exact hq
  · rename_i a ha
    obtain ⟨hperm, haddr⟩ := a.reset_perm update.2
    have haddr' := haddr.trans (TxPool.getAccount_address ha)
    refine TxPool.Accounted.of_eq (hq.replace ha (by exact haddr') rfl ?_) rfl rfl
    show q.gauge.height + _ + _ = q.gauge.height + _ + _
    rw [slotsRequired_perm hperm]
    simp only [Account.txs, slotsRequired_append]
    grind

theorem TxPool.Accounted.foldl_resetAccount (updates : List (Address × UInt64)) :
    ∀ {q : TxPool} {pruned prunedEnqueued : List PoolTx},
      q.Accounted (pending + slotsRequired prunedEnqueued + slotsRequired pruned) →
      let r := updates.foldl TxPool.resetAccount (q, pruned, prunedEnqueued)
      r.1.Accounted (pending + slotsRequired r.2.2 + slotsRequired r.2.1) := by
  induction updates with
  | nil => exact id
  | cons update updates ih => exact fun hq => ih (hq.resetAccount update)

theorem TxPool.Accounted.resetAccounts (hp : p.Accounted pending)
    (stateNonces : List (Address × UInt64)) : (p.resetAccounts stateNonces).Accounted pending := by
  unfold TxPool.resetAccounts
  split_ifs
  · exact hp
  · have hinit : p.Accounted (pending + slotsRequired [] + slotsRequired []) := by
      simpa only [slotsRequired_nil, UInt64.add_zero] using hp
    have hfold := TxPool.Accounted.foldl_resetAccount stateNonces hinit
    exact hfold.cleanup_of_pos.cleanup_of_pos

theorem TxPool.Accounted.processEvent (hp : p.Accounted pending) (minedTxs : List PoolTx)
    (stateNonces : List (Address × UInt64)) (sealing : Bool) :
    (p.processEvent minedTxs stateNonces sealing).Accounted pending := by
  have hq := (hp.of_eq (q := { p with index := lookupMap.remove p.index minedTxs }) rfl
    rfl).resetAccounts stateNonces
  unfold TxPool.processEvent
  cases sealing
  · exact hq.updateAccountSkipsCounts _
  · exact hq

@[simp] theorem TxPool.foldl_pushExecutable_accounts (txs : List PoolTx) (p : TxPool) :
    (txs.foldl TxPool.pushExecutable p).accounts = p.accounts := by
  induction txs generalizing p with
  | nil => rfl
  | cons tx txs ih => exact ih _

@[simp] theorem TxPool.foldl_pushExecutable_gauge (txs : List PoolTx) (p : TxPool) :
    (txs.foldl TxPool.pushExecutable p).gauge = p.gauge := by
  induction txs generalizing p with
  | nil => rfl
  | cons tx txs ih => exact ih _

theorem TxPool.Accounted.prepare (hp : p.Accounted pending) (baseFee : UInt64) :
    (p.prepare baseFee).Accounted pending := by
  unfold TxPool.prepare
  split_ifs <;> exact hp.of_eq (by simp) (by simp)

theorem TxPool.Accounted.peek (hp : p.Accounted pending) : p.peek.2.Accounted pending := by
  unfold TxPool.peek
  split_ifs
  · exact hp
  · exact hp.of_eq rfl rfl

/-- Block building pops the transaction at the head of its account's promoted queue. -/
def PopsHead (p : TxPool) (tx : PoolTx) : Prop :=
  ∃ a, p.getAccount tx.fromAddr = some a ∧ accountQueue.peek a.promoted = some tx

theorem TxPool.Accounted.pop (hp : p.Accounted pending) {tx : PoolTx} (hhead : PopsHead p tx) :
    (p.pop tx).Accounted pending := by
  obtain ⟨a, ha, hpeek⟩ := hhead
  have haddr := TxPool.getAccount_address ha
  have hperm : a.promoted.Perm (tx :: (accountQueue.pop a.promoted).2) := by
    have h := accountQueue.pop_perm a.promoted
    rwa [accountQueue.pop_fst, ← accountQueue.peek, hpeek, Option.toList_some,
      List.singleton_append] at h
  have htxs : a.txs.Perm (tx :: (a.enqueued ++ (accountQueue.pop a.promoted).2)) :=
    (hperm.append_left a.enqueued).trans List.perm_middle
  have hq : { p.setAccount { a with
      promoted := (accountQueue.pop a.promoted).2
      demotions := 0 } with
      gauge := p.gauge.decrease (slotsRequired [tx]) }.Accounted pending := by
    refine hp.replace ha (by exact haddr) rfl ?_
    rw [SlotGauge.decrease_height, slotsRequired_singleton, slotsRequired_perm htxs,
      slotsRequired_cons]
    show _ = p.gauge.height + slotsRequired (a.enqueued ++ (accountQueue.pop a.promoted).2) + _
    grind
  unfold TxPool.pop
  rw [ha]
  dsimp only
  split
  · exact hq.of_eq rfl rfl
  · exact hq

end Operations

/-! ## Runs -/

theorem Step.accounted {s s' : System} (hstep : Step PopsHead s s') {pending : UInt64}
    (hs : s.pool.Accounted pending) : s'.pool.Accounted pending := by
  cases hstep with
  | addTx tx stateNonce h => exact hs.addTx h
  | handleEnqueueRequest tx _ =>
    exact (hs.of_eq (q := { s.pool with enqueueReqs := s.pool.enqueueReqs.erase tx }) rfl
      rfl).handleEnqueueRequest tx
  | handlePromoteRequest addr _ =>
    exact (hs.of_eq (q := { s.pool with promoteReqs := s.pool.promoteReqs.erase addr }) rfl
      rfl).handlePromoteRequest addr
  | processEvent minedTxs stateNonces sealing _ _ =>
    exact hs.processEvent minedTxs stateNonces sealing
  | pruneAccountsWithNonceHoles => exact hs.pruneAccountsWithNonceHoles
  | prepare baseFee => exact hs.prepare baseFee
  | peek => exact hs.peek
  | pop _ hhead => exact hs.pop hhead
  | drop _ => exact hs.drop _
  | demote _ => exact hs.demote _

theorem Execution.accounted {s s' : System} (hrun : Execution PopsHead s s') {pending : UInt64}
    (hs : s.pool.Accounted pending) : s'.pool.Accounted pending := by
  induction hrun with
  | nil => exact hs
  | cons hstep _ ih => exact ih (hstep.accounted hs)

theorem TxPool.new_accounted (maxSlots maxAccountEnqueued : UInt64) :
    (TxPool.new maxSlots maxAccountEnqueued).Accounted 0 :=
  ⟨List.nodup_nil, rfl⟩

theorem gauge_read_eq_slotsHeld {s : System} (hs : Reachable PopsHead s) :
    s.pool.gauge.read = slotsHeld s.pool := by
  obtain ⟨maxSlots, maxAccountEnqueued, hrun⟩ := hs
  have h := (hrun.accounted (TxPool.new_accounted maxSlots maxAccountEnqueued)).gauge_eq
  rwa [UInt64.add_zero] at h

def staleTx : PoolTx := ⟨⟨bytesToAddress [1], 0, some 1, none, none⟩, zeroHash, 100⟩

theorem pool_gauge_wraps_after_stale_pop :
    ∃ s, Reachable (fun _ _ => True) s ∧ s.pool.gauge.read = 18446744073709551615 ∧
      slotsHeld s.pool = 0 := by
  have hmined : ∀ tx ∈ [staleTx], ∃ n, (tx.fromAddr, n) ∈ [(staleTx.fromAddr, (1 : UInt64))] ∧
      tx.nonce < n := by
    intro tx htx
    rw [List.mem_singleton] at htx
    subst htx
    exact ⟨1, List.mem_singleton_self _, by decide⟩
  refine ⟨_, ⟨100, 16,
    .cons (.addTx staleTx 0 rfl) <|
    .cons (.handleEnqueueRequest staleTx (by decide)) <|
    .cons (.handlePromoteRequest staleTx.fromAddr (by decide)) <|
    .cons (.prepare 0) <|
    .cons .peek <|
    .cons (.processEvent [staleTx] [(staleTx.fromAddr, 1)] true (by decide) hmined) <|
    .cons (@Step.pop _ _ staleTx ?_ trivial) <|
    .nil _⟩, ?_⟩
  · simp [TxPool.peek, TxPool.prepare, TxPool.handlePromoteRequest, TxPool.handleEnqueueRequest,
      TxPool.getAccount, TxPool.setAccount, Account.enqueue, Account.promote, Account.promoteLoop,
      accountQueue.push, accountQueue.pop, accountQueue.peek, accountQueue.prune,
      accountQueue.pruneLoop, TxPool.cleanup, getPrimaries, TxPool.pushExecutable,
      TxPool.createAccountOnce, TxPool.new, staleTx, PoolTx.nonce, PoolTx.fromAddr, txSlots,
      SlotGauge.increase, SlotGauge.decrease, lookupMap.remove]
  · simp [TxPool.peek, TxPool.prepare, TxPool.handlePromoteRequest, TxPool.handleEnqueueRequest,
      TxPool.getAccount, TxPool.setAccount, Account.enqueue, Account.promote, Account.promoteLoop,
      accountQueue.push, accountQueue.pop, accountQueue.peek, accountQueue.prune,
      accountQueue.pruneLoop, TxPool.cleanup, getPrimaries, TxPool.pushExecutable,
      TxPool.createAccountOnce, TxPool.new, staleTx, PoolTx.nonce, PoolTx.fromAddr, txSlots,
      SlotGauge.increase, SlotGauge.decrease, SlotGauge.read, Account.reset, TxPool.resetAccounts,
      TxPool.resetAccount, TxPool.processEvent, lookupMap.remove, TxPool.pop, slotsHeld,
      Account.txs, txSlotSize]
    decide

/-! ## Capacity -/

theorem TxPool.addTx_fits {p p' : TxPool} {tx : PoolTx} {stateNonce : UInt64}
    (h : p.addTx tx stateNonce = .ok p') (hle : p.gauge.read ≤ p.gauge.max) :
    p.gauge.read.toNat + (slotsRequired [tx]).toNat ≤ p.gauge.max.toNat := by
  obtain ⟨-, -, hfits, -, -⟩ := TxPool.addTx_eq h
  have hsub := UInt64.toNat_sub_of_le _ _ hle
  rw [UInt64.le_iff_toNat_le] at hfits hle
  omega

def firstTx : PoolTx := ⟨⟨bytesToAddress [1], 0, some 1, none, none⟩, bytesToHash [1], 100⟩
def secondTx : PoolTx := ⟨⟨bytesToAddress [2], 0, some 1, none, none⟩, bytesToHash [2], 100⟩

theorem pool_gauge_exceeds_max_with_requests_in_flight (popGuard : TxPool → PoolTx → Prop) :
    ∃ s, Reachable popGuard s ∧ s.pool.gauge.max < s.pool.gauge.read ∧
      s.pool.gauge.max - s.pool.gauge.read = 18446744073709551615 ∧
      ∀ tx, ¬ slotsRequired [tx] > s.pool.gauge.max - s.pool.gauge.read := by
  have hne : bytesToAddress [1] ≠ bytesToAddress [2] := by decide
  refine ⟨_, ⟨1, 16,
    .cons (.addTx firstTx 0 rfl) <|
    .cons (.addTx secondTx 0 rfl) <|
    .cons (.handleEnqueueRequest firstTx (by decide)) <|
    .cons (.handleEnqueueRequest secondTx (by decide)) <|
    .nil _⟩, ?_⟩
  simp [TxPool.handleEnqueueRequest, TxPool.getAccount, TxPool.setAccount, Account.enqueue,
    accountQueue.push, TxPool.createAccountOnce, TxPool.new, firstTx, secondTx, PoolTx.fromAddr,
    PoolTx.nonce, slotsRequired, SlotGauge.increase, SlotGauge.read, hne, hne.symm, txSlots,
    txSlotSize]
  intro tx
  grind

end TxpoolState
