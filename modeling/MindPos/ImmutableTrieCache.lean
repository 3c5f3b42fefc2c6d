import MindPos.ImmutableTrie

/-! # Shared nodes and cached hashes

What the trie's operations may do to the objects that already exist, said once as a preorder on
memories for each operation and carried through every recursive step by the rules of
`StateExcept`: an insert writes only through edges, and a delete moreover clears caches. From
these follow the two ways a cache goes stale. An insert into a transaction whose root is a hashed
full node of its own epoch leaves `Txn.Hash()` at the old root, and a delete clears in place the
cached root of every trie that shares a short root. The runs at the end show what becomes of the
trie's contract: two histories that end in the same map have different roots, a committed trie's
root changes under a later transaction, and a trie loaded from the storage its batch was written
to has lost a key. -/
namespace ImmutableTrie

open EdgeTypes RlpEncoding PointerCells StateExcept

/-! ## Frames -/

section Frames

variable {R : Mem → Mem → Prop} [IsPreorder Mem R]

theorem getCell_keeps (p : Ptr) : Keeps R (getCell p) :=
  Keeps.get.bind fun _ => Keeps.pure _

variable (halloc : ∀ n, Keeps R (alloc n))
include halloc

theorem decode_keeps : (∀ v, Keeps R (decodeNode v)) ∧ (∀ items, Keeps R (decodeFullItems items)) := by
  apply decodeNode.mutual_induct
  case case1 => intro b; exact halloc _
  case case2 =>
    intro child vb ih
    rw [decodeNode.eq_2]
    refine (Keeps.lift _).bind fun k => ?_
    split
    · split
      · exact (halloc _).bind fun _ => halloc _
      · exact Keeps.throw _
    · exact ih.bind fun _ => halloc _
  case case3 =>
    intro key child hkey
    rw [decodeNode.eq_3 _ _ hkey]
    exact Keeps.throw _
  case case4 =>
    intro items hpair hlen ih
    rw [decodeNode.eq_4 _ hpair, if_pos hlen]
    exact ih.bind fun ⟨_, _⟩ => halloc _
  case case5 =>
    intro items hpair hlen
    rw [decodeNode.eq_4 _ hpair, if_neg hlen]
    exact Keeps.throw _
  case case6 => exact Keeps.pure _
  case case7 => exact Keeps.pure _
  case case8 =>
    intro b hb
    rw [decodeFullItems, if_neg hb]
    exact (halloc _).bind fun _ => Keeps.pure _
  case case9 => intro elems; exact Keeps.throw _
  case case10 =>
    intro items hb ha ih
    rw [decodeFullItems.eq_4 _ _ hb ha, if_pos rfl]
    exact (Keeps.pure _).bind fun _ => ih.bind fun ⟨_, _⟩ => Keeps.pure _
  case case11 =>
    intro item items hb ha hitem ihs ih
    rw [decodeFullItems.eq_4 _ _ hb ha, if_neg hitem]
    exact (ih.map _).bind fun _ => ihs.bind fun ⟨_, _⟩ => Keeps.pure _

theorem getNode_keeps (root : List UInt8) (storage : Storage) : Keeps R (getNode root storage) := by
  unfold getNode
  split
  · exact Keeps.pure _
  · split
    · exact Keeps.pure _
    · split
      · exact Keeps.throw _
      · exact Keeps.throw _
      · exact ((decode_keeps halloc).1 _).map _

theorem writeNode_keeps (t : Txn) (p : Ptr) : Keeps R (t.writeNode p) := by
  refine (getCell_keeps p).bind fun n => ?_
  split
  · split
    · exact Keeps.pure _
    · exact halloc _
  · exact Keeps.throw _

theorem mergeShort_keeps (key : List UInt8) (res : Option Ptr × Bool) :
    Keeps R (Txn.mergeShort key res) := by
  rcases res with ⟨_ | c, _ | _⟩
  all_goals try exact Keeps.pure _
  refine (getCell_keeps c).bind fun n => ?_
  split <;> exact (halloc _).bind fun _ => Keeps.pure _

theorem resolve_keeps (t : Txn) (nc : Ptr) : Keeps R (t.resolve nc) := by
  refine (getCell_keeps nc).bind fun _ => ?_
  split
  · exact getNode_keeps halloc _ _
  · exact Keeps.pure _

theorem collapse_keeps (t : Txn) (n : Ptr) : Keeps R (t.collapse n) := by
  refine (getCell_keeps n).bind fun node => ?_
  split
  · dsimp only
    split
    · exact Keeps.pure _
    split
    · split
      · exact Keeps.pure _
      · exact (halloc _).bind fun _ => Keeps.pure _
    · split
      · refine (resolve_keeps halloc t _).bind fun resolved => ?_
        split
        · exact Keeps.pure _
        · refine (getCell_keeps _).bind fun _ => ?_
          split <;> exact (halloc _).bind fun _ => Keeps.pure _
      · exact Keeps.throw _
  · exact Keeps.throw _

end Frames


/-- What an insert leaves: each object that exists keeps its kind, its cache, its key and its
epoch, for its writes go through edges; and the batch is as it was. -/
structure HeadersKept (m m' : Mem) : Prop where
  next_le : m.heap.next ≤ m'.heap.next
  header_eq : ∀ p < m.heap.next, (m'.heap.cells p).header = (m.heap.cells p).header
  batch_eq : m'.batch = m.batch

instance : IsPreorder Mem HeadersKept where
  refl _ := ⟨Nat.le_refl _, fun _ _ => rfl, rfl⟩
  trans _ _ _ hab hbc :=
    ⟨hab.next_le.trans hbc.next_le,
      fun p hp => (hbc.header_eq p (Nat.lt_of_lt_of_le hp hab.next_le)).trans (hab.header_eq p hp),
      hbc.batch_eq.trans hab.batch_eq⟩

theorem alloc_keeps (n : Node) : Keeps HeadersKept (alloc n) :=
  Keeps.modifyGet fun m => ⟨by simp, fun q hq => by simp [Nat.ne_of_lt hq], rfl⟩

theorem modifyCell_keeps (p : Ptr) {f : Node → Node} (hf : ∀ n, (f n).header = n.header) :
    Keeps HeadersKept (modifyCell p f) :=
  Keeps.modify fun m => ⟨Nat.le_refl _, fun q _ => by by_cases hq : q = p <;> simp [hq, hf], rfl⟩

theorem insertNode_keeps (t : Txn) (fuel : ℕ) :
    ∀ node search value, Keeps HeadersKept (t.insertNode fuel node search value) := by
  induction fuel with
  | zero => intro _ _ _; exact Keeps.throw _
  | succ fuel ih =>
    rintro (_ | p) search value
    · rw [Txn.insertNode]
      split
      · exact (alloc_keeps _).map _
      · exact (ih _ _ _).bind fun _ => (alloc_keeps _).map _
    rw [Txn.insertNode]
    refine (getCell_keeps p).bind fun n => ?_
    split
    next hash buf =>
      split
      · exact (getNode_keeps alloc_keeps _ _).bind fun r => by
          cases r
          exacts [Keeps.pure _, ih _ _ _]
      · split
        · exact (alloc_keeps _).map _
        · exact (alloc_keeps _).bind fun _ => ih _ _ _
    next key child =>
      dsimp only
      split
      · exact (ih _ _ _).bind fun _ => (alloc_keeps _).map _
      have branch : ∀ edge, Keeps HeadersKept (do
          let b ← alloc ((Node.full [] t.epoch none (List.replicate 16 none)).setEdge
            (key.getD (prefixLen search key) 0) edge)
          let c ← t.insertNode fuel (some b) (search.drop (prefixLen search key)) value
          if prefixLen search key = 0 then pure c
          else some <$> alloc (.short [] (search.take (prefixLen search key)) c)) := fun _ =>
        (alloc_keeps _).bind fun _ => (ih _ _ _).bind fun _ => by
          split
          exacts [Keeps.pure _, (alloc_keeps _).map _]
      split
      · exact ((alloc_keeps _).map _).bind branch
      · exact (Keeps.pure _).bind branch
    next =>
      refine (writeNode_keeps alloc_keeps t p).bind fun b => ?_
      split
      · exact (getCell_keeps b).bind fun _ => (ih _ _ _).bind fun _ =>
          (modifyCell_keeps b (Node.header_setEdge _ _)).bind fun _ => Keeps.pure _
      · exact (ih _ _ _).bind fun _ =>
          (modifyCell_keeps b (Node.header_setEdge _ _)).bind fun _ => Keeps.pure _

/-- What a delete leaves: each object that exists keeps its kind, its key and its epoch, and keeps
its cache or loses it; and the batch is as it was. -/
structure CachesCleared (m m' : Mem) : Prop where
  next_le : m.heap.next ≤ m'.heap.next
  header_eq : ∀ p < m.heap.next, (m'.heap.cells p).header = (m.heap.cells p).header ∨
    (m'.heap.cells p).header = (m.heap.cells p).header.clearHash
  batch_eq : m'.batch = m.batch

@[simp] theorem Node.clearHash_clearHash (n : Node) : n.clearHash.clearHash = n.clearHash := by
  cases n <;> rfl

@[simp] theorem Node.header_clearHash (n : Node) : n.clearHash.header = n.header.clearHash := by
  cases n <;> rfl

instance : IsPreorder Mem CachesCleared where
  refl _ := ⟨Nat.le_refl _, fun _ _ => .inl rfl, rfl⟩
  trans _ _ _ hab hbc := by
    refine ⟨hab.next_le.trans hbc.next_le, fun p hp => ?_, hbc.batch_eq.trans hab.batch_eq⟩
    rcases hbc.header_eq p (Nat.lt_of_lt_of_le hp hab.next_le) with h₁ | h₁ <;>
      rcases hab.header_eq p hp with h₂ | h₂ <;> simp [h₁, h₂]

theorem alloc_clears (n : Node) : Keeps CachesCleared (alloc n) :=
  Keeps.mono (fun _ _ h => ⟨h.next_le, fun p hp => .inl (h.header_eq p hp), h.batch_eq⟩)
    (alloc_keeps n)

theorem modifyCell_clears (p : Ptr) {f : Node → Node}
    (hf : ∀ n, (f n).header = n.header ∨ (f n).header = n.header.clearHash) :
    Keeps CachesCleared (modifyCell p f) :=
  Keeps.modify fun m => ⟨Nat.le_refl _, fun q _ => by by_cases hq : q = p <;> simp [hq, hf], rfl⟩

theorem deleteNode_clears (t : Txn) (fuel : ℕ) :
    ∀ node search, Keeps CachesCleared (t.deleteNode fuel node search) := by
  induction fuel with
  | zero => intro _ _; exact Keeps.throw _
  | succ fuel ih =>
    rintro (_ | p) search <;> rw [Txn.deleteNode]
    · exact Keeps.pure _
    refine (getCell_keeps p).bind fun n => ?_
    split
    · refine (modifyCell_clears p fun n => .inr (Node.header_clearHash n)).bind fun _ => ?_
      dsimp only
      split
      · exact Keeps.pure _
      split
      · exact Keeps.pure _
      · exact (ih _ _).bind (mergeShort_keeps alloc_clears _)
    · split
      · exact (getNode_keeps alloc_clears _ _).bind fun r => by
          cases r
          exacts [Keeps.pure _, ih _ _]
      · exact Keeps.pure _
    · refine (alloc_clears _).bind fun n => ?_
      split
      · exact Keeps.throw _
      · refine (getCell_keeps n).bind fun _ => (ih _ _).bind fun ⟨nc, ok⟩ => ?_
        dsimp only
        split
        · exact Keeps.pure _
        · exact (modifyCell_clears n fun _ => .inl (Node.header_setEdge _ _ _)).bind fun _ =>
            collapse_keeps alloc_clears t n


/-! ## Cached hashes -/

theorem Node.header_eq_full {n : Node} {h : List UInt8} {e : UInt32} {v : Option Ptr}
    {cs : List (Option Ptr)} (hn : n.header = (Node.full h e v cs).header) :
    ∃ v' cs', n = .full h e v' cs' := by
  cases n with
  | full h' e' v' cs' =>
    simp only [Node.header, Node.full.injEq] at hn
    obtain ⟨rfl, rfl, -⟩ := hn
    exact ⟨v', cs', rfl⟩
  | _ => simp [Node.header] at hn

theorem Node.header_eq_short {n : Node} {h k : List UInt8} {c : Option Ptr}
    (hn : n.header = (Node.short h k c).header) : ∃ c', n = .short h k c' := by
  cases n with
  | short h' k' c' =>
    simp only [Node.header, Node.short.injEq] at hn
    obtain ⟨rfl, rfl, -⟩ := hn
    exact ⟨c', rfl⟩
  | _ => simp [Node.header] at hn

theorem getCell_run (p : Ptr) (m : Mem) : (getCell p).run m = .ok (m.heap.cells p, m) := rfl

/-! ## Objects built by inserts -/

theorem Node.hash_header (n : Node) : n.header.hash = n.hash := by
  cases n <;> rfl

theorem Node.header_eq_value {n : Node} {b : Bool} {buf : List UInt8}
    (hn : n.header = .value b buf) : n = .value b buf := by
  cases n <;> simp_all [Node.header]

/-- The objects a transaction of epoch `e` builds from none: no object caches a hash, every full
node is of epoch `e`, and every value object allocated holds a value. -/
structure Fresh (e : UInt32) (m : Mem) : Prop where
  unhashed : ∀ q, (m.heap.cells q).hash.2 = false
  epoch : ∀ q hash ep v cs, m.heap.cells q = .full hash ep v cs → ep = e
  nonempty : ∀ q < m.heap.next, m.heap.cells q ≠ .value false []

theorem Fresh.empty (e : UInt32) : Fresh e Mem.empty :=
  ⟨fun _ => rfl, fun _ _ _ _ _ h => Node.noConfusion h, fun _ hq => absurd hq (Nat.not_lt_zero _)⟩

/-- A run keeps the objects fresh. -/
def FreshKept (e : UInt32) (m m' : Mem) : Prop := Fresh e m → Fresh e m'

instance (e : UInt32) : IsPreorder Mem (FreshKept e) where
  refl _ := id
  trans _ _ _ h₁ h₂ := h₂ ∘ h₁

section Fresh

variable {e : UInt32}

theorem alloc_fresh {n : Node} (hh : n.hash.2 = false) (he : ∀ hash ep v cs, n = .full hash ep v cs → ep = e)
    (hv : n ≠ .value false []) : Keeps (FreshKept e) (alloc n) := by
  refine Keeps.modifyGet fun m hm => ⟨fun q => ?_, fun q hash ep v cs hq => ?_, fun q hq => ?_⟩
  · simp only [Heap.alloc, Function.update_apply]
    split_ifs
    exacts [hh, hm.unhashed q]
  · simp only [Heap.alloc, Function.update_apply] at hq
    split_ifs at hq
    exacts [he _ _ _ _ hq, hm.epoch q _ _ _ _ hq]
  · simp only [Heap.alloc, Function.update_apply] at hq ⊢
    split_ifs with hnext
    exacts [hv, hm.nonempty q (by omega)]

theorem modifyCell_fresh (p : Ptr) {f : Node → Node} (hf : ∀ n, (f n).header = n.header) :
    Keeps (FreshKept e) (modifyCell p f) := by
  refine Keeps.modify fun m hm => ⟨fun q => ?_, fun q hash ep v cs hq => ?_, fun q hq => ?_⟩
  · simp only [Heap.set, Function.update_apply]
    split_ifs with hqp
    · rw [← Node.hash_header, hf, Node.hash_header]
      exact hm.unhashed p
    · exact hm.unhashed q
  · simp only [Heap.set, Function.update_apply] at hq
    split_ifs at hq with hqp
    · obtain ⟨v', cs', hcell⟩ := Node.header_eq_full ((hf _).symm.trans (congrArg Node.header hq))
      exact hm.epoch p _ _ _ _ hcell
    · exact hm.epoch q _ _ _ _ hq
  · simp only [Heap.set, Function.update_apply]
    split_ifs with hqp
    · intro hcell
      exact hm.nonempty q hq (hqp ▸ Node.header_eq_value ((hf _).symm.trans (congrArg Node.header hcell)))
    · exact hm.nonempty q hq

theorem getCell_bind_fresh {α : Type} {p : Ptr} {g : Node → TrieM α}
    (hg : ∀ n, n.hash.2 = false → Keeps (FreshKept e) (g n)) :
    Keeps (FreshKept e) (getCell p >>= g) := by
  intro m a m' hrun hm
  obtain ⟨n, m₁, hget, hrun⟩ := run_bind_ok.mp hrun
  rw [getCell_run] at hget
  cases hget
  exact hg _ (hm.unhashed p) m a m' hrun hm

theorem writeNode_fresh {t : Txn} (ht : t.epoch = e) (p : Ptr) : Keeps (FreshKept e) (t.writeNode p) := by
  refine (getCell_keeps p).bind fun n => ?_
  split
  · split
    · exact Keeps.pure _
    · exact alloc_fresh rfl (fun _ _ _ _ h => by cases h; exact ht) (fun h => Node.noConfusion h)
  · exact Keeps.throw _

theorem insertNode_fresh {t : Txn} (ht : t.epoch = e) {value : List UInt8} (hv : value ≠ []) (fuel : ℕ) :
    ∀ node search, Keeps (FreshKept e) (t.insertNode fuel node search value) := by
  have hval : Keeps (FreshKept e) (alloc (.value false value)) :=
    alloc_fresh rfl (fun _ _ _ _ h => Node.noConfusion h) (fun h => hv (Node.value.inj h).2)
  have hshort : ∀ k c, Keeps (FreshKept e) (alloc (.short [] k c)) := fun _ _ =>
    alloc_fresh rfl (fun _ _ _ _ h => Node.noConfusion h) (fun h => Node.noConfusion h)
  have hfull : ∀ v cs, Keeps (FreshKept e) (alloc (.full [] t.epoch v cs)) := fun _ _ =>
    alloc_fresh rfl (fun _ _ _ _ h => by cases h; exact ht) (fun h => Node.noConfusion h)
  induction fuel with
  | zero => intro _ _; exact Keeps.throw _
  | succ fuel ih =>
    rintro (_ | p) search
    · rw [Txn.insertNode]
      split
      · exact hval.map _
      · exact (ih _ _).bind fun _ => (hshort _ _).map _
    rw [Txn.insertNode]
    refine getCell_bind_fresh fun n hn => ?_
    split
    next hash buf =>
      obtain rfl : hash = false := hn
      rw [if_neg Bool.false_ne_true]
      split
      · exact hval.map _
      · exact (hfull _ _).bind fun _ => ih _ _
    next key child =>
      dsimp only
      split
      · exact (ih _ _).bind fun _ => (hshort _ _).map _
      have branch : ∀ edge, Keeps (FreshKept e) (do
          let b ← alloc ((Node.full [] t.epoch none (List.replicate 16 none)).setEdge
            (key.getD (prefixLen search key) 0) edge)
          let c ← t.insertNode fuel (some b) (search.drop (prefixLen search key)) value
          if prefixLen search key = 0 then pure c
          else some <$> alloc (.short [] (search.take (prefixLen search key)) c)) := fun _ => by
        refine Keeps.bind ?_ fun _ => (ih _ _).bind fun _ => ?_
        · unfold Node.setEdge
          split_ifs
          exacts [hfull _ _, hfull _ _]
        · split
          exacts [Keeps.pure _, (hshort _ _).map _]
      split
      · exact ((hshort _ _).map _).bind branch
      · exact (Keeps.pure _).bind branch
    next =>
      refine (writeNode_fresh ht p).bind fun b => ?_
      split
      · exact (getCell_keeps b).bind fun _ => (ih _ _).bind fun _ =>
          (modifyCell_fresh b (Node.header_setEdge _ _)).bind fun _ => Keeps.pure _
      · exact (ih _ _).bind fun _ =>
          (modifyCell_fresh b (Node.header_setEdge _ _)).bind fun _ => Keeps.pure _

theorem insertAll_fresh {kvs : List (List UInt8 × List UInt8)} (hkvs : ∀ kv ∈ kvs, kv.2 ≠ []) :
    ∀ t : Txn, t.epoch = e → Keeps (FreshKept e)
      (kvs.foldlM (fun (t : Txn) (kv : List UInt8 × List UInt8) => t.insert kv.1 kv.2) t) := by
  induction kvs with
  | nil => intro t _; exact Keeps.pure _
  | cons kv kvs ih =>
    intro t ht
    simp only [List.foldlM_cons, Txn.insert, bind_assoc, pure_bind]
    refine (insertNode_fresh ht (hkvs kv List.mem_cons_self) _ _ _).bind fun r => ?_
    exact ih (fun kv hkv => hkvs kv (List.mem_cons_of_mem _ hkv)) _ (by split <;> exact ht)

end Fresh


section Txn

variable {t : Txn} {m : Mem} {p : Ptr} {h : List UInt8} {v : Option Ptr} {cs : List (Option Ptr)}

theorem writeNode_of_epoch (hcell : m.heap.cells p = .full h t.epoch v cs) :
    (t.writeNode p).run m = .ok (p, m) := by
  simp [Txn.writeNode, getCell, hcell]

theorem insertNode_of_epoch (hcell : m.heap.cells p = .full h t.epoch v cs) {fuel : ℕ}
    {search value : List UInt8} {r : Option Ptr} {m' : Mem}
    (hins : (t.insertNode (fuel + 1) (some p) search value).run m = .ok (r, m')) : r = some p := by
  rw [Txn.insertNode] at hins
  obtain ⟨n, m₁, hget, hins⟩ := run_bind_ok.mp hins
  rw [getCell_run, hcell] at hget
  cases hget
  obtain ⟨b, m₂, hb, hins⟩ := run_bind_ok.mp hins
  rw [writeNode_of_epoch hcell] at hb
  cases hb
  cases search with
  | nil =>
    obtain ⟨_, _, -, hins⟩ := run_bind_ok.mp hins
    obtain ⟨_, _, -, hins⟩ := run_bind_ok.mp hins
    obtain ⟨_, _, -, hins⟩ := run_bind_ok.mp hins
    exact (Prod.mk.inj (Except.ok.inj hins)).1.symm
  | cons k rest =>
    obtain ⟨_, _, -, hins⟩ := run_bind_ok.mp hins
    obtain ⟨_, _, -, hins⟩ := run_bind_ok.mp hins
    exact (Prod.mk.inj (Except.ok.inj hins)).1.symm

theorem hash_of_cached (hroot : t.root = some p) (hcache : (m.heap.cells p).hash = (h, true))
    (hlen : h.length = 32) : t.hash.run m = .ok (h, m) := by
  simp [Txn.hash, hroot, Txn.hashNode, getCell, hcache, hlen]

theorem hash_after_insert_of_cached_root (hroot : t.root = some p) (hp : p < m.heap.next)
    (hcell : m.heap.cells p = .full h t.epoch v cs) (hh : h ≠ []) (hlen : h.length = 32)
    {key value : List UInt8} {t' : Txn} {m' : Mem} (hins : (t.insert key value).run m = .ok (t', m')) :
    t.hash.run m = .ok (h, m) ∧ t'.hash.run m' = .ok (h, m') := by
  have hcache : ∀ v cs, (Node.full h t.epoch v cs).hash = (h, true) := fun _ _ => by
    simp [Node.hash, hh]
  refine ⟨hash_of_cached hroot (hcell ▸ hcache v cs) hlen, ?_⟩
  obtain ⟨r, m₁, hr, hpure⟩ := run_bind_ok.mp hins
  obtain ⟨rfl, rfl⟩ := Prod.mk.inj (Except.ok.inj hpure)
  rw [hroot, walkFuel] at hr
  obtain rfl := insertNode_of_epoch hcell hr
  have hhead := (insertNode_keeps t _ _ _ _ m _ m₁ hr).header_eq p hp
  obtain ⟨v', cs', hcell'⟩ := Node.header_eq_full (hhead.trans (congrArg Node.header hcell))
  exact hash_of_cached (by simp) (hcell' ▸ hcache v' cs') hlen

theorem deleteNode_clears_short {key : List UInt8} {child : Option Ptr}
    (hcell : m.heap.cells p = .short h key child) (hp : p < m.heap.next) {fuel : ℕ}
    {search : List UInt8} {r : Option Ptr × Bool} {m' : Mem}
    (hdel : (t.deleteNode (fuel + 1) (some p) search).run m = .ok (r, m')) :
    ∃ c, m'.heap.cells p = .short [] key c := by
  rw [Txn.deleteNode] at hdel
  obtain ⟨n, m₁, hget, hdel⟩ := run_bind_ok.mp hdel
  rw [getCell_run, hcell] at hget
  cases hget
  obtain ⟨_, m₂, hclear, hrest⟩ := run_bind_ok.mp hdel
  cases hclear
  have hkeep : CachesCleared { m with heap := m.heap.set p (m.heap.cells p).clearHash } m' := by
    dsimp only at hrest
    split at hrest
    · cases hrest
      exact refl_of _ _
    split at hrest
    · cases hrest
      exact refl_of _ _
    · exact ((deleteNode_clears t fuel _ _).bind (mergeShort_keeps alloc_clears _)) _ _ _ hrest
  have hcleared : ((m.heap.set p (m.heap.cells p).clearHash).cells p).header =
      (Node.short [] key child).header := by
    simp [hcell, Node.clearHash, Node.setHash, Node.header]
  rcases hkeep.header_eq p (by simpa using hp) with hhead | hhead
  · exact Node.header_eq_short (hhead.trans hcleared)
  · rw [hcleared] at hhead
    exact Node.header_eq_short (c := child) hhead

theorem trie_hash_after_delete {T : Trie} {key : List UInt8} {child : Option Ptr}
    (hT : T.root = some p) (hp : p < m.heap.next) (hcell : m.heap.cells p = .short h key child)
    (ht : t.root = T.root) {k : List UInt8} {t' : Txn} {m' : Mem}
    (hdel : (t.delete k).run m = .ok (t', m')) : T.hash m' = zeroHash := by
  obtain ⟨r, m₁, hr, hpure⟩ := run_bind_ok.mp hdel
  obtain ⟨-, rfl⟩ := Prod.mk.inj (Except.ok.inj hpure)
  rw [ht, hT, walkFuel] at hr
  obtain ⟨c, hc⟩ := deleteNode_clears_short hcell hp hr
  simp [Trie.hash, hT, hc, Node.hash, zeroHash]

end Txn

/-! ## Runs -/

def sampleKey (b : UInt8) : List UInt8 := b :: List.replicate 31 0

def sampleKeys : List (List UInt8) := [sampleKey 0x10, sampleKey 0x20, sampleKey 0x30]

def freshTxn : Txn := { (Trie.mk none 0).txn ⟨[]⟩ with batch := true }

def insertTwo : TrieM Txn := do
  let t ← freshTxn.insert (sampleKey 0x10) [1]
  t.insert (sampleKey 0x20) [2]

def insertThree : TrieM Txn := do
  let t ← insertTwo
  t.insert (sampleKey 0x30) [3]

def insertHashInsert : TrieM Txn := do
  let t ← insertTwo
  let _ ← t.hash
  t.insert (sampleKey 0x30) [3]

def rootAndValues (history : TrieM Txn) : Except String (List UInt8 × List (Option (List UInt8))) :=
  (do
    let t ← history
    let root ← t.hash
    let values ← sampleKeys.mapM t.lookup
    pure (root, values)).run' Mem.empty

def rootsAroundDelete : Except String (Hash × Hash) :=
  (do
    let t ← freshTxn.insert (sampleKey 0x10) [1]
    let _ ← t.hash
    let trie := t.commit
    let before := trie.hash (← get)
    let _ ← (trie.txn ⟨[]⟩).delete (sampleKey 0x20)
    pure (before, trie.hash (← get))).run' Mem.empty

theorem root_depends_on_hash_calls :
    (rootAndValues insertThree).map Prod.snd = .ok [some [1], some [2], some [3]] ∧
    (rootAndValues insertHashInsert).map Prod.snd = .ok [some [1], some [2], some [3]] ∧
    (rootAndValues insertThree).map Prod.fst ≠ (rootAndValues insertHashInsert).map Prod.fst ∧
    (rootAndValues insertHashInsert).map Prod.fst = (rootAndValues insertTwo).map Prod.fst ∧
    rootsAroundDelete.map Prod.fst ≠ .ok zeroHash ∧ rootsAroundDelete.map Prod.snd = .ok zeroHash := by
  decide +kernel

def storedAndLoaded (history : TrieM Txn) :
    Except String (List (Option (List UInt8)) × Except String (List (Option (List UInt8)))) :=
  (do
    let t ← history
    let root ← t.hash
    let storage := (Storage.mk []).write (← get).batch
    let inMemory ← sampleKeys.mapM t.lookup
    match ← newTrieAt storage (bytesToHash root) with
    | .error e => pure (inMemory, Except.error e)
    | .ok trie => do
      let loaded ← sampleKeys.mapM fun k => trie.get k storage
      pure (inMemory, Except.ok loaded)).run' Mem.empty

theorem stored_trie_loses_insert_after_hash :
    storedAndLoaded insertHashInsert = .ok ([some [1], some [2], some [3]], .ok [some [1], some [2], none]) := by
  decide +kernel

/- Without the `Txn.Hash()` in between, the stored trie holds the three keys. -/
example : storedAndLoaded insertThree = .ok ([some [1], some [2], some [3]], .ok [some [1], some [2], some [3]]) := by
  decide +kernel

end ImmutableTrie
