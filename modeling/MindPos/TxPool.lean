import Mathlib
import MindPos.ContainerHeap
import MindPos.EdgeTypes

/-! # The order in which block building takes transactions from the pool

`txpool/txpool.go`, `queue_priced.go` and `queue_account.go`. Each account keeps its promoted
transactions in a heap ordered by nonce (`minNonceQueue`). `Prepare` pushes the head of every
account onto the executables heap (`maxPriceQueue`); `Peek` pops that heap, and `Pop` takes the
head off its account and pushes the account's next head. Both heaps are `container/heap`.

The executables queue is documented as sorted by gas price, descending, and `Peek` as returning
the best-priced transaction; its `Less` says `a` is less when `cmp` finds `a`'s fees lower, so the
root of the heap is the transaction of the least price. -/
namespace Txpool

open EdgeTypes ContainerHeap

/-- `types.Transaction` as the pool's queues read it, before `Copy`: an absent big integer is
`none`. -/
structure Transaction where
  fromAddr : Address
  nonce : UInt64
  gasPrice : Option Int
  gasTipCap : Option Int
  gasFeeCap : Option Int
  deriving DecidableEq

/-- `Transaction.GetGasPrice`. -/
def Transaction.getGasPrice (t : Transaction) (baseFee : UInt64) : Int :=
  if t.gasPrice.getD 0 ≠ 0 then t.gasPrice.getD 0
  else if baseFee = 0 then 0
  else
    let gasFeeCap := t.gasFeeCap.getD 0
    let gasTipCap := t.gasTipCap.getD 0
    if gasFeeCap ≠ 0 ∨ gasTipCap ≠ 0 then min (gasTipCap + baseFee.toNat) gasFeeCap else 0

/-- `Transaction.EffectiveTip`: with both caps set, the tip capped by what the fee cap leaves
above the base fee; otherwise the gas price. -/
def Transaction.effectiveTip (t : Transaction) (baseFee : UInt64) : Int :=
  match t.gasFeeCap, t.gasTipCap with
  | some gasFeeCap, some gasTipCap => min (gasFeeCap - baseFee.toNat) gasTipCap
  | _, _ => t.getGasPrice baseFee

/-- `maxPriceQueue.cmp`: effective tips, then fee caps, then tip caps. -/
def maxPriceQueue.cmp (baseFee : UInt64) (a b : Transaction) : Ordering :=
  (compare (a.effectiveTip baseFee) (b.effectiveTip baseFee)).then
    ((compare (a.gasFeeCap.getD 0) (b.gasFeeCap.getD 0)).then
      (compare (a.gasTipCap.getD 0) (b.gasTipCap.getD 0)))

/-- `maxPriceQueue.Less`. -/
def maxPriceQueue.less (baseFee : UInt64) (a b : Transaction) : Bool :=
  match maxPriceQueue.cmp baseFee a b with
  | .lt => true
  | .gt => false
  | .eq => a.nonce > b.nonce

/-- `minNonceQueue.Less`: the lower nonce, and at equal nonces the higher gas price. An absent gas
price, which the source would dereference, reads as zero. -/
def minNonceQueue.less (a b : Transaction) : Bool :=
  if a.nonce = b.nonce then a.gasPrice.getD 0 > b.gasPrice.getD 0 else a.nonce < b.nonce

def priceKey (baseFee : UInt64) (t : Transaction) : Lex (Int × Lex (Int × Lex (Int × Int))) :=
  toLex (t.effectiveTip baseFee,
    toLex (t.gasFeeCap.getD 0, toLex (t.gasTipCap.getD 0, -(t.nonce.toNat : Int))))

def nonceKey (t : Transaction) : Lex (ℕ × Int) := toLex (t.nonce.toNat, -(t.gasPrice.getD 0))

theorem maxPriceQueue.less_iff (baseFee : UInt64) (a b : Transaction) :
    maxPriceQueue.less baseFee a b = true ↔ priceKey baseFee a < priceKey baseFee b := by
  unfold maxPriceQueue.less priceKey
  simp only [Prod.Lex.toLex_lt_toLex]
  split
  · next h =>
    simp only [maxPriceQueue.cmp, Ordering.then_eq_lt, compare_lt_iff_lt, compare_eq_iff_eq] at h
    simp only [true_iff]
    omega
  · next h =>
    simp only [maxPriceQueue.cmp, Ordering.then_eq_gt, compare_gt_iff_gt, compare_eq_iff_eq] at h
    simp only [Bool.false_eq_true, false_iff]
    omega
  · next h =>
    simp only [maxPriceQueue.cmp, Ordering.then_eq_eq, compare_eq_iff_eq] at h
    simp only [gt_iff_lt, decide_eq_true_eq, UInt64.lt_iff_toNat_lt]
    omega

theorem minNonceQueue.less_iff (a b : Transaction) :
    minNonceQueue.less a b = true ↔ nonceKey a < nonceKey b := by
  unfold minNonceQueue.less nonceKey
  simp only [Prod.Lex.toLex_lt_toLex]
  by_cases h : a.nonce = b.nonce
  · simp only [h, if_true, gt_iff_lt, decide_eq_true_eq, lt_irrefl, false_or, true_and]
    omega
  · have h' : a.nonce.toNat ≠ b.nonce.toNat := fun e => h (UInt64.toNat_inj.mp e)
    simp only [h, if_false, decide_eq_true_eq, UInt64.lt_iff_toNat_lt, h', false_and, or_false]

theorem nonce_lt_of_nonceKey_le {a b : Transaction} (h : nonceKey a ≤ nonceKey b)
    (hne : a.nonce ≠ b.nonce) : a.nonce < b.nonce := by
  have hne' : a.nonce.toNat ≠ b.nonce.toNat := fun e => hne (UInt64.toNat_inj.mp e)
  unfold nonceKey at h
  rw [Prod.Lex.toLex_le_toLex] at h
  rw [UInt64.lt_iff_toNat_lt]
  omega

/-! ## The pool -/

/-- An account as block building sees it. -/
structure Account where
  address : Address
  promoted : List Transaction
  demotions : UInt64

/-- `accountQueue.pop`. -/
def accountQueue.pop (q : List Transaction) : Option Transaction × List Transaction :=
  if q.length = 0 then (none, q) else ContainerHeap.pop minNonceQueue.less q

/-- `accountsMap.getPrimaries`: the head of each promoted queue, in the order the map is ranged
over. -/
def getPrimaries (accounts : List Account) : List Transaction :=
  accounts.filterMap (·.promoted.head?)

/-- The fields of `TxPool` that `Prepare`, `Peek` and `Pop` read and write. -/
structure TxPool where
  accounts : List Account
  executables : List Transaction
  baseFee : UInt64

/-- `pricedQueue.push`. -/
def TxPool.pushExecutable (p : TxPool) (tx : Transaction) : TxPool :=
  { p with executables := push (maxPriceQueue.less p.baseFee) p.executables tx }

/-- `Prepare`: the executables queue is cleared, the base fee set and the primaries pushed. -/
def TxPool.prepare (p : TxPool) (baseFee : UInt64) : TxPool :=
  let p := if p.executables.length ≠ 0 then { p with executables := [] } else p
  let p := { p with baseFee := baseFee }
  (getPrimaries p.accounts).foldl TxPool.pushExecutable p

/-- `Peek`: `pricedQueue.pop` of the executables queue. -/
def TxPool.peek (p : TxPool) : Option Transaction × TxPool :=
  if p.executables.length = 0 then (none, p)
  else
    let r := ContainerHeap.pop (maxPriceQueue.less p.baseFee) p.executables
    (r.1, { p with executables := r.2 })

/-- `Pop`: the head of `tx`'s account is taken off, its demotions reset, and its next head, if
any, pushed. An account the pool does not hold, which the source would dereference, is left. -/
def TxPool.pop (p : TxPool) (tx : Transaction) : TxPool :=
  match p.accounts.find? (·.address = tx.fromAddr) with
  | none => p
  | some account =>
    let promoted := (accountQueue.pop account.promoted).2
    let p := { p with accounts := p.accounts.map fun a =>
      if a.address = tx.fromAddr then { a with promoted, demotions := 0 } else a }
    match promoted.head? with
    | some next => p.pushExecutable next
    | none => p

def TxPool.drain (p : TxPool) : ℕ → List Transaction × TxPool
  | 0 => ([], p)
  | fuel + 1 =>
    match p.peek with
    | (none, p) => ([], p)
    | (some tx, p) =>
      let r := (p.pop tx).drain fuel
      (tx :: r.1, r.2)

/-! ## Invariants -/

/-- The promoted queues of a pool: distinct addresses, every transaction under its sender, and
each queue a heap of distinct nonces. -/
structure AccountsValid (accounts : List Account) : Prop where
  nodup : (accounts.map (·.address)).Nodup
  sender : ∀ a ∈ accounts, ∀ t ∈ a.promoted, t.fromAddr = a.address
  heap : ∀ a ∈ accounts, IsHeap nonceKey a.promoted
  nonces : ∀ a ∈ accounts, (a.promoted.map (·.nonce)).Nodup

/-- A pool during block building: the executables queue is a heap of the accounts' heads. -/
structure TxPool.Valid (p : TxPool) : Prop where
  accounts : AccountsValid p.accounts
  heap : IsHeap (priceKey p.baseFee) p.executables
  heads : p.executables.Perm (getPrimaries p.accounts)

def promotedTxs (accounts : List Account) : List Transaction := accounts.flatMap (·.promoted)

theorem getPrimaries_split (L₁ L₂ : List Account) (a : Account) :
    getPrimaries (L₁ ++ a :: L₂) = getPrimaries L₁ ++ a.promoted.head?.toList ++ getPrimaries L₂ := by
  unfold getPrimaries
  cases h : a.promoted.head? <;> simp [List.filterMap_append, h]

theorem promotedTxs_split (L₁ L₂ : List Account) (a : Account) :
    promotedTxs (L₁ ++ a :: L₂) = promotedTxs L₁ ++ a.promoted ++ promotedTxs L₂ := by
  simp [promotedTxs]

theorem getPrimaries_eq_nil {accounts : List Account} (h : getPrimaries accounts = []) :
    promotedTxs accounts = [] := by
  simp only [getPrimaries, List.filterMap_eq_nil_iff, List.head?_eq_none_iff] at h
  simp only [promotedTxs, List.flatMap_eq_nil_iff]
  exact h

theorem AccountsValid.split {accounts : List Account} (h : AccountsValid accounts) {a : Account}
    (ha : a ∈ accounts) :
    ∃ L₁ L₂, accounts = L₁ ++ a :: L₂ ∧ ∀ b ∈ L₁ ++ L₂, b.address ≠ a.address := by
  obtain ⟨L₁, L₂, rfl⟩ := List.append_of_mem ha
  refine ⟨L₁, L₂, rfl, fun b hb heq => ?_⟩
  have hn := h.nodup
  rw [List.map_append, List.map_cons, List.nodup_middle, List.nodup_cons, ← List.map_append] at hn
  exact hn.1 (List.mem_map.mpr ⟨b, hb, heq⟩)

theorem AccountsValid.replace {L₁ L₂ : List Account} {a a' : Account}
    (h : AccountsValid (L₁ ++ a :: L₂)) (haddr : a'.address = a.address) {t : Transaction}
    (hperm : a.promoted.Perm (t :: a'.promoted)) (hheap : IsHeap nonceKey a'.promoted) :
    AccountsValid (L₁ ++ a' :: L₂) := by
  have hmem : ∀ b, b ∈ L₁ ++ a' :: L₂ → b = a' ∨ b ∈ L₁ ++ a :: L₂ := by
    intro b hb
    simp only [List.mem_append, List.mem_cons] at hb ⊢
    tauto
  have ha : a ∈ L₁ ++ a :: L₂ := by simp
  constructor
  · have hn := h.nodup
    simpa [haddr] using hn
  · intro b hb x hx
    rcases hmem b hb with rfl | hb
    · rw [haddr]
      exact h.sender a ha x ((hperm.symm.subset) (List.mem_cons_of_mem t hx))
    · exact h.sender b hb x hx
  · intro b hb
    rcases hmem b hb with rfl | hb
    · exact hheap
    · exact h.heap b hb
  · intro b hb
    rcases hmem b hb with rfl | hb
    · exact ((hperm.map (·.nonce)).nodup_iff.mp (h.nonces a ha)).of_cons
    · exact h.nonces b hb

/-! ## One round: `Peek`, then `Pop` -/

theorem prepare_valid {p : TxPool} (h : AccountsValid p.accounts) (baseFee : UInt64) :
    (p.prepare baseFee).Valid ∧ (p.prepare baseFee).accounts = p.accounts ∧
      (p.prepare baseFee).baseFee = baseFee := by
  have hclear : (if p.executables.length ≠ 0 then { p with executables := [] } else p) =
      { p with executables := [] } := by
    split_ifs with hlen
    · rfl
    · rw [not_not, List.length_eq_zero_iff] at hlen
      cases p
      simp_all
  have hfold : ∀ (xs : List Transaction) (q : TxPool), xs.foldl TxPool.pushExecutable q =
      { q with executables := xs.foldl (push (maxPriceQueue.less q.baseFee)) q.executables } := by
    intro xs
    induction xs with
    | nil => intro q; rfl
    | cons x xs ih => intro q; rw [List.foldl_cons, List.foldl_cons, ih]; rfl
  simp only [TxPool.prepare, hclear, hfold]
  refine ⟨⟨h, isHeap_foldl_push (maxPriceQueue.less_iff baseFee) (fun c _ hc => ?_) _, ?_⟩, ?_, ?_⟩
  · simp at hc
  · exact (foldl_push_perm _ [] _).trans (by rw [List.append_nil]; exact List.reverse_perm _)
  all_goals trivial

theorem accountQueue.pop_spec {q : List Transaction} (hq : IsHeap nonceKey q) {t : Transaction}
    (ht : q.head? = some t) :
    (accountQueue.pop q).1 = some t ∧ IsHeap nonceKey (accountQueue.pop q).2 ∧
      q.Perm (t :: (accountQueue.pop q).2) := by
  have hne : q ≠ [] := fun h => by simp [h] at ht
  have hhead : q.head hne = t := Option.some_inj.mp ((List.head?_eq_some_head hne).symm.trans ht)
  have hlen : q.length ≠ 0 := fun h => hne (List.length_eq_zero_iff.mp h)
  obtain ⟨h₁, h₂, h₃⟩ := ContainerHeap.pop_spec minNonceQueue.less_iff hq hne
  simp only [accountQueue.pop, if_neg hlen]
  exact ⟨h₁.trans ht, h₂, hhead ▸ h₃⟩

theorem peek_spec {p : TxPool} (hp : p.Valid) (hne : p.executables ≠ []) :
    ∃ t rest, p.peek = (some t, { p with executables := rest }) ∧
      IsHeap (priceKey p.baseFee) rest ∧ p.executables.Perm (t :: rest) ∧
      ∀ x ∈ p.executables, priceKey p.baseFee t ≤ priceKey p.baseFee x := by
  have hlen : p.executables.length ≠ 0 := fun h => hne (List.length_eq_zero_iff.mp h)
  obtain ⟨h₁, h₂, h₃⟩ := pop_spec (maxPriceQueue.less_iff p.baseFee) hp.heap hne
  refine ⟨p.executables.head hne, _, ?_, h₂, h₃, hp.heap.head_le hne⟩
  simp only [TxPool.peek, if_neg hlen, h₁, List.head?_eq_some_head hne]

theorem pop_of_split {p : TxPool} {L₁ L₂ : List Account} {a : Account}
    (hsplit : p.accounts = L₁ ++ a :: L₂) (hne : ∀ b ∈ L₁ ++ L₂, b.address ≠ a.address)
    {tx : Transaction} (htx : tx.fromAddr = a.address) :
    p.pop tx =
      let a' : Account := { a with promoted := (accountQueue.pop a.promoted).2, demotions := 0 }
      let p' : TxPool := { p with accounts := L₁ ++ a' :: L₂ }
      match a'.promoted.head? with
      | some next => p'.pushExecutable next
      | none => p' := by
  have hfind : p.accounts.find? (·.address = tx.fromAddr) = some a := by
    rw [hsplit, List.find?_append, List.find?_eq_none.mpr, List.find?_cons_of_pos] <;>
      simp_all
  have hmap : ∀ L : List Account, (∀ b ∈ L, b.address ≠ a.address) →
      L.map (fun b => if b.address = tx.fromAddr then
        { b with promoted := (accountQueue.pop a.promoted).2, demotions := 0 } else b) = L := by
    intro L hL
    rw [List.map_congr_left (g := id) fun b hb => by simp [htx, hL b hb], List.map_id]
  unfold TxPool.pop
  rw [hfind]
  dsimp only
  rw [hsplit, List.map_append, List.map_cons,
    hmap L₁ fun b hb => hne b (List.mem_append_left _ hb),
    hmap L₂ fun b hb => hne b (List.mem_append_right _ hb), if_pos htx.symm]

theorem round_spec {p : TxPool} (hp : p.Valid) (hne : p.executables ≠ []) :
    ∃ t, p.peek.1 = some t ∧
      (∀ h ∈ getPrimaries p.accounts, priceKey p.baseFee t ≤ priceKey p.baseFee h) ∧
      (p.peek.2.pop t).Valid ∧ (p.peek.2.pop t).baseFee = p.baseFee ∧
      (promotedTxs p.accounts).Perm (t :: promotedTxs (p.peek.2.pop t).accounts) ∧
      ∀ x ∈ promotedTxs (p.peek.2.pop t).accounts, x.fromAddr = t.fromAddr → t.nonce < x.nonce := by
  obtain ⟨t, rest, hpeek, hrest, hperm, hleast⟩ := peek_spec hp hne
  rw [hpeek]
  have ht : t ∈ getPrimaries p.accounts := hp.heads.subset (hperm.symm.subset List.mem_cons_self)
  obtain ⟨a, ha, hhead⟩ := List.mem_filterMap.mp ht
  obtain ⟨L₁, L₂, hsplit, hothers⟩ := hp.accounts.split ha
  have hsender : t.fromAddr = a.address :=
    hp.accounts.sender a ha t (List.mem_of_mem_head? hhead)
  obtain ⟨-, hrest', hperm'⟩ := accountQueue.pop_spec (hp.accounts.heap a ha) hhead
  have hheads : rest.Perm (getPrimaries L₁ ++ getPrimaries L₂) := by
    have h := hperm.symm.trans hp.heads
    rw [hsplit, getPrimaries_split, hhead, Option.toList_some, List.append_assoc,
      List.singleton_append] at h
    exact (h.trans List.perm_middle).cons_inv
  refine ⟨t, rfl, fun h hh => hleast h (hp.heads.symm.subset hh), ?_⟩
  dsimp only
  rw [pop_of_split (p := { p with executables := rest }) hsplit hothers hsender]
  dsimp only
  generalize (accountQueue.pop a.promoted).2 = rest' at hrest' hperm' ⊢
  have hvalid' : AccountsValid (L₁ ++ { a with promoted := rest', demotions := 0 } :: L₂) :=
    (hsplit ▸ hp.accounts).replace rfl hperm' hrest'
  have hpromoted : (promotedTxs p.accounts).Perm
      (t :: promotedTxs (L₁ ++ { a with promoted := rest', demotions := 0 } :: L₂)) := by
    rw [hsplit, promotedTxs_split, promotedTxs_split, List.append_assoc, List.append_assoc]
    exact ((hperm'.append_right _).append_left _).trans List.perm_middle
  have hnonce : ∀ x ∈ promotedTxs (L₁ ++ { a with promoted := rest', demotions := 0 } :: L₂),
      x.fromAddr = t.fromAddr → t.nonce < x.nonce := by
    intro x hx hfrom
    have hother : ∀ b ∈ L₁ ++ L₂, x ∈ b.promoted → False := by
      intro b hb hxb
      have hb' : b ∈ p.accounts := by
        rw [hsplit]
        rcases List.mem_append.mp hb with hb | hb <;> simp [hb]
      exact hothers b hb (by rw [← hp.accounts.sender b hb' x hxb, hfrom, hsender])
    rw [promotedTxs_split, List.mem_append, List.mem_append] at hx
    rcases hx with (hx | hx) | hx
    · obtain ⟨b, hb, hxb⟩ := List.mem_flatMap.mp hx
      exact (hother b (List.mem_append_left _ hb) hxb).elim
    · have hne : a.promoted ≠ [] := fun h => by simp [h] at hhead
      have hroot : a.promoted.head hne = t :=
        Option.some_inj.mp ((List.head?_eq_some_head hne).symm.trans hhead)
      have hle := (hp.accounts.heap a ha).head_le hne x
        (hperm'.symm.subset (List.mem_cons_of_mem t hx))
      have hdistinct := (hperm'.map (·.nonce)).nodup_iff.mp (hp.accounts.nonces a ha)
      rw [List.map_cons, List.nodup_cons] at hdistinct
      have hxne : t.nonce ≠ x.nonce := fun h => hdistinct.1 (List.mem_map.mpr ⟨x, hx, h.symm⟩)
      rw [hroot] at hle
      exact nonce_lt_of_nonceKey_le hle hxne
    · obtain ⟨b, hb, hxb⟩ := List.mem_flatMap.mp hx
      exact (hother b (List.mem_append_right _ hb) hxb).elim
  cases hnext : rest'.head? with
  | none =>
    dsimp only
    refine ⟨⟨hvalid', hrest, ?_⟩, rfl, hpromoted, hnonce⟩
    rw [getPrimaries_split]
    simpa [hnext] using hheads
  | some next =>
    dsimp only
    refine ⟨⟨hvalid', isHeap_push (maxPriceQueue.less_iff p.baseFee) hrest next, ?_⟩, rfl,
      hpromoted, hnonce⟩
    simp only [TxPool.pushExecutable]
    rw [getPrimaries_split]
    refine (push_perm _ _ _).trans ?_
    simpa [hnext] using (hheads.cons next).trans List.perm_middle.symm

theorem peek_of_nil {p : TxPool} (hp : p.Valid) (h : p.executables = []) :
    p.peek = (none, p) ∧ promotedTxs p.accounts = [] := by
  refine ⟨by simp [TxPool.peek, h], getPrimaries_eq_nil ?_⟩
  have hheads := hp.heads
  rw [h] at hheads
  exact hheads.symm.eq_nil

/-! ## Whole runs -/

/-- At each round of the run `out` from `p`, the transaction `Peek` returns has the least price
key among the heads of the accounts. -/
def LeastFirst : TxPool → List Transaction → Prop
  | _, [] => True
  | p, t :: out => (∀ h ∈ getPrimaries p.accounts, priceKey p.baseFee t ≤ priceKey p.baseFee h) ∧
      LeastFirst (p.peek.2.pop t) out

theorem drain_spec {p : TxPool} (hp : p.Valid) {fuel : ℕ}
    (hfuel : (promotedTxs p.accounts).length < fuel) :
    (p.drain fuel).1.Perm (promotedTxs p.accounts) ∧ promotedTxs (p.drain fuel).2.accounts = [] ∧
      (p.drain fuel).1.Pairwise (fun x y => x.fromAddr = y.fromAddr → x.nonce < y.nonce) ∧
      LeastFirst p (p.drain fuel).1 := by
  induction fuel generalizing p with
  | zero => omega
  | succ fuel ih =>
    by_cases hne : p.executables = []
    · obtain ⟨hpeek, hnil⟩ := peek_of_nil hp hne
      rw [TxPool.drain, hpeek]
      exact ⟨hnil ▸ List.Perm.refl _, hnil, List.Pairwise.nil, trivial⟩
    · obtain ⟨t, ht, hleast, hvalid, -, hperm, hnonce⟩ := round_spec hp hne
      have hlen : (promotedTxs (p.peek.2.pop t).accounts).length < fuel := by
        have := hperm.length_eq
        rw [List.length_cons] at this
        omega
      obtain ⟨h₁, h₂, h₃, h₄⟩ := ih hvalid hlen
      set q := p.peek.2 with hq
      have hpeek : p.peek = (some t, q) := Prod.ext ht rfl
      rw [TxPool.drain, hpeek]
      exact ⟨(h₁.cons t).trans hperm.symm, h₂,
        List.Pairwise.cons (fun y hy hfrom => hnonce y (h₁.subset hy) hfrom.symm) h₃, hleast, h₄⟩

def cheapTx : Transaction := ⟨bytesToAddress [1], 0, some 1, none, none⟩

def dearTx : Transaction := ⟨bytesToAddress [2], 0, some 10, none, none⟩

def samplePool : TxPool :=
  ⟨[⟨bytesToAddress [1], [cheapTx], 0⟩, ⟨bytesToAddress [2], [dearTx], 0⟩], [], 0⟩

theorem samplePool_accountsValid : AccountsValid samplePool.accounts := by
  refine ⟨by decide, by decide, fun a ha c hc hcn => ?_, by decide⟩
  simp only [samplePool, List.mem_cons, List.not_mem_nil, or_false] at ha
  rcases ha with rfl | rfl <;> simp at hcn <;> omega

theorem block_building_takes_lowest_price_first :
    ((samplePool.prepare 0).drain 3).1 = [cheapTx, dearTx] ∧
      maxPriceQueue.cmp 0 dearTx cheapTx = .gt := by
  obtain ⟨hvalid, haccounts, hbaseFee⟩ := prepare_valid samplePool_accountsValid 0
  have hpromoted : promotedTxs (samplePool.prepare 0).accounts = [cheapTx, dearTx] := by
    rw [haccounts]
    rfl
  have hfuel : (promotedTxs (samplePool.prepare 0).accounts).length < 3 := by
    rw [hpromoted]
    decide
  obtain ⟨hperm, -, -, hleast⟩ := drain_spec hvalid hfuel
  rw [hpromoted] at hperm
  refine ⟨?_, by decide⟩
  generalize ((samplePool.prepare 0).drain 3).1 = out at hperm hleast ⊢
  cases out with
  | nil => exact absurd hperm.length_eq (by decide)
  | cons t rest =>
    have hheads : getPrimaries (samplePool.prepare 0).accounts = [cheapTx, dearTx] := by
      rw [haccounts]
      rfl
    have hle := hleast.1
    rw [hheads, hbaseFee] at hle
    have ht : t = cheapTx := by
      rcases List.mem_pair.mp (hperm.subset List.mem_cons_self) with rfl | rfl
      · rfl
      · exact absurd (hle cheapTx (by simp)) (by decide)
    subst ht
    rw [List.perm_singleton.mp hperm.cons_inv]

end Txpool
