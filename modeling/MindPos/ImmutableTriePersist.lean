import Mathlib
import MindPos.ImmutableTrieHashing

/-! # Hashing a trie into the storage

With a batch, `Txn.Hash()` puts into it the encoding of every node it hashes whose item is the
hash, under that hash, and caches the hash in the node. The items are `Tree.item`: a node is
referred to by its encoding under 32 bytes and by the hash of the encoding from 32 bytes on. A
node that caches a hash is not looked into, so the item is right only if the cache is, and the
nodes below it are in the storage only if an earlier commit put them there. `Cached` says both
of every object, and a hash keeps it. A storage that has the batch's entries and the old
storage's then holds every node of the tree that is referred to by hash (`Tree.Backed`). -/
namespace ImmutableTrie

open EdgeTypes RlpEncoding PointerCells StateExcept Keccak

/-! ## Encodings and the storage -/

def Tree.encoding : Tree → Value
  | .short key c => .array [.bytes (encodeCompact key), c.item]
  | .full cs v => .array (cs.map Tree.item ++ [v.item])
  | t => t.item

theorem Tree.item_value (buf : List UInt8) : (Tree.value buf).item = .bytes buf := by
  rw [Tree.item]

theorem Tree.item_short (key : List UInt8) (c : Tree) :
    (Tree.short key c).item = Tree.stored (Tree.short key c).encoding := by
  rw [Tree.item, Tree.encoding]

theorem Tree.item_full (cs : List Tree) (tv : Tree) :
    (Tree.full cs tv).item = Tree.stored (Tree.full cs tv).encoding := by
  rw [Tree.item, Tree.encoding]

theorem Tree.stored_of_lt {v : Value} (h : v.len < 32) : Tree.stored v = v := by
  rw [Tree.stored, if_pos h]

theorem Tree.stored_of_not_lt {v : Value} (h : ¬ v.len < 32) :
    Tree.stored v = .bytes (keccak256 (encode v)) := by
  rw [Tree.stored, if_neg h]

/-- The storage has `v` under its hash, if `v` is large enough to be referred to by it. -/
def Storage.Has (st : Storage) (v : Value) : Prop :=
  ¬ v.len < 32 → st.get (keccak256 (encode v)) = some (encode v)

/-- Every node of the tree that its parent refers to by hash is stored under the hash. -/
inductive Tree.Backed (st : Storage) : Tree → Prop
  | nil : Backed st .nil
  | value (buf : List UInt8) : Backed st (.value buf)
  | short {key : List UInt8} {c : Tree} (hc : Backed st c) (hput : st.Has (Tree.short key c).encoding) :
      Backed st (.short key c)
  | full {cs : List Tree} {tv : Tree} (hcs : ∀ c ∈ cs, Backed st c) (hv : Backed st tv)
      (hput : st.Has (Tree.full cs tv).encoding) : Backed st (.full cs tv)

/-- `st'` has every entry of the batch `B` and every entry of `st`. -/
structure Storage.Covers (st' st : Storage) (B : List (List UInt8 × List UInt8)) : Prop where
  batch : ∀ kd ∈ B, st'.get kd.1 = some kd.2
  old : ∀ k d, st.get k = some d → st'.get k = some d

variable {st st' : Storage}

theorem Storage.Has.mono {v : Value} (h : st.Has v) (hst : ∀ k d, st.get k = some d → st'.get k = some d) :
    st'.Has v :=
  fun hlen => hst _ _ (h hlen)

theorem Tree.Backed.mono {t : Tree} (h : t.Backed st)
    (hst : ∀ k d, st.get k = some d → st'.get k = some d) : t.Backed st' := by
  induction h with
  | nil => exact .nil
  | value buf => exact .value buf
  | short _ hput ih => exact .short ih (hput.mono hst)
  | full _ _ hput ihcs ihv => exact .full ihcs ihv (hput.mono hst)

theorem Storage.Covers.mono {B B' : List (List UInt8 × List UInt8)} (h : st'.Covers st B')
    (hB : B <+: B') : st'.Covers st B :=
  ⟨fun kd hkd => h.batch kd (hB.subset hkd), h.old⟩

/-! ## Cached hashes -/

/-- The hashes cached in the objects are right: an object that caches a hash holds a tree whose
item is that hash, and whose nodes are in `st` or will be once the batch `B` is written. -/
structure Cached (st : Storage) (B : List (List UInt8 × List UInt8)) (h : Heap Node) : Prop where
  item : ∀ q tr S, Holds h (some q) tr S → (h.cells q).hash.2 = true →
    tr.item = .bytes (h.cells q).hash.1
  backed : ∀ q tr S, Holds h (some q) tr S → (h.cells q).hash.2 = true →
    ∀ st', st'.Covers st B → tr.Backed st'

theorem Cached.of_unhashed {st : Storage} {B : List (List UInt8 × List UInt8)} {h : Heap Node}
    (hh : ∀ q, (h.cells q).hash.2 = false) : Cached st B h :=
  ⟨fun q _ _ _ hq => absurd (hq.symm.trans (hh q)) Bool.noConfusion,
    fun q _ _ _ hq => absurd (hq.symm.trans (hh q)) Bool.noConfusion⟩

theorem Hashes.symm {m m' : Mem} (h : Hashes m m') : Hashes m' m :=
  ⟨h.next_eq.symm, fun q => (h.clearHash_eq q).symm⟩

theorem Tree.edgeAt_inj {ts ts' : List Tree} {tv tv' : Tree} (hlen : ts.length = 16)
    (hlen' : ts'.length = 16) (h : ∀ i < 17, Tree.edgeAt ts tv i = Tree.edgeAt ts' tv' i) :
    ts = ts' ∧ tv = tv' := by
  refine ⟨List.ext_getElem (hlen.trans hlen'.symm) fun i hi hi' => ?_, ?_⟩
  · have hi16 : i ≠ 16 := by omega
    have hedge := h i (by omega)
    rwa [Tree.edgeAt, Tree.edgeAt, if_neg hi16, if_neg hi16, List.getD_eq_getElem _ _ hi,
      List.getD_eq_getElem _ _ hi'] at hedge
  · simpa [Tree.edgeAt] using h 16 (by omega)

theorem Holds.unique {h : Heap Node} {c : Option Ptr} {t t' : Tree} {S S' : List Ptr}
    (hs : Holds h c t S) (hs' : Holds h c t' S') : t = t' ∧ S = S' := by
  induction hs generalizing t' S' with
  | nil =>
    cases hs'
    exact ⟨rfl, rfl⟩
  | value hp =>
    cases hs' with
    | value hp' =>
      rw [hp] at hp'
      cases hp'
      exact ⟨rfl, rfl⟩
    | short hp' => rw [hp] at hp'; cases hp'
    | full hp' => rw [hp] at hp'; cases hp'
  | short hp _ _ ih =>
    cases hs' with
    | value hp' => rw [hp] at hp'; cases hp'
    | short hp' hc' =>
      rw [hp] at hp'
      cases hp'
      obtain ⟨rfl, rfl⟩ := ih hc'
      exact ⟨rfl, rfl⟩
    | full hp' => rw [hp] at hp'; cases hp'
  | full hp hlen htlen _ _ ih =>
    cases hs' with
    | value hp' => rw [hp] at hp'; cases hp'
    | short hp' => rw [hp] at hp'; cases hp'
    | full hp' _ htlen' hedges' =>
      rw [hp] at hp'
      cases hp'
      have hedge : ∀ i < 17, _ := fun i hi => ih i hi (hedges' i hi)
      obtain ⟨hts, htv⟩ := Tree.edgeAt_inj htlen htlen' fun i hi => (hedge i hi).1
      refine ⟨by rw [hts, htv], ?_⟩
      rw [List.flatMap_congr fun i hi => (hedge i (List.mem_range.mp hi)).2]

/-! ## A hash with a batch -/

/-- What a hash with a batch leaves: the same objects up to their caches, a longer batch, and
caches that are right. -/
structure Hashed (st : Storage) (m m' : Mem) : Prop where
  hashes : Hashes m m'
  grows : m.batch <+: m'.batch
  cached : Cached st m'.batch m'.heap

namespace Hashed

variable {m m₁ m₂ : Mem}

theorem refl (hc : Cached st m.batch m.heap) : Hashed st m m :=
  ⟨Hashes.refl m, List.prefix_refl _, hc⟩

theorem trans (h₁ : Hashed st m m₁) (h₂ : Hashed st m₁ m₂) : Hashed st m m₂ :=
  ⟨h₁.hashes.trans h₂.hashes, h₁.grows.trans h₂.grows, h₂.cached⟩

end Hashed

theorem putBatch_completes (k v : List UInt8) (m : Mem) :
    Completes (putBatch k v) m () (· = { m with batch := m.batch ++ [(k, v)] }) :=
  ⟨_, rfl, rfl⟩

theorem Node.hash_setHash {n : Node} (hn : ∀ hf buf, n ≠ .value hf buf) (b : List UInt8) :
    (n.setHash b).hash = (b, decide (b ≠ [])) := by
  cases n with
  | value hf buf => exact absurd rfl (hn hf buf)
  | short => rfl
  | full => rfl

theorem Hashes.not_value {m m' : Mem} (h : Hashes m m') {p : Ptr}
    (hp : ∀ hf buf, m.heap.cells p ≠ .value hf buf) : ∀ hf buf, m'.heap.cells p ≠ .value hf buf := by
  intro hf buf heq
  have hc := h.clearHash_eq p
  rw [heq] at hc
  generalize m.heap.cells p = n at hp hc
  cases n with
  | value hf' buf' => exact hp hf' buf' rfl
  | short => cases hc
  | full => cases hc

variable {t : Txn}

theorem Holds.store_item (hbatch : t.batch = true) {m : Mem} {p : Ptr} {tr : Tree} {S : List Ptr}
    (hs : Holds m.heap (some p) tr S) (hnv : ∀ hf buf, m.heap.cells p ≠ .value hf buf)
    (hcache : Cached st m.batch m.heap) {val : Value} (hitem : tr.item = Tree.stored val)
    (hbacked : ∀ st', st'.Covers st m.batch → st'.Has val → tr.Backed st') :
    Completes (t.store p val) m tr.item fun m' =>
      Hashed st m m' ∧ ∀ st', st'.Covers st m'.batch → tr.Backed st' := by
  unfold Txn.store
  by_cases hlen : val.len < 32
  · rw [if_pos hlen, hitem, Tree.stored_of_lt hlen]
    exact .pure ⟨Hashed.refl hcache, fun st' hst' => hbacked st' hst' fun h => absurd hlen h⟩
  rw [if_neg hlen, hitem, Tree.stored_of_not_lt hlen]
  refine (modifyCell_completes _ _ m).bind fun m₁ hm₁ => ?_
  subst hm₁
  simp only [hbatch, if_true]
  refine (putBatch_completes _ _ _).bind fun m₂ hm₂ => .pure ?_
  subst hm₂
  have hbacked' : ∀ st', st'.Covers st (m.batch ++ [(keccak256 (encode val), encode val)]) →
      tr.Backed st' := fun st' hst' =>
    hbacked st' (hst'.mono (List.prefix_append _ _)) fun _ =>
      hst'.batch _ (List.mem_append_right _ (List.mem_singleton_self _))
  have hhash := (Hashes.setHash p (keccak256 (encode val)) m).trans (Hashes.batch _
    (m.batch ++ [(keccak256 (encode val), encode val)]))
  refine ⟨⟨hhash, List.prefix_append _ _, fun q tq Sq hq hcq => ?_, fun q tq Sq hq hcq => ?_⟩,
    hbacked'⟩
  · have hq₀ := hq.of_hashes hhash.symm
    dsimp only at hcq ⊢
    rw [Heap.set_cells] at hcq ⊢
    by_cases hqp : q = p
    · subst hqp
      obtain ⟨rfl, -⟩ := hs.unique hq₀
      rw [if_pos rfl, Node.hash_setHash hnv, hitem, Tree.stored_of_not_lt hlen]
    · rw [if_neg hqp] at hcq ⊢
      exact hcache.item q tq Sq hq₀ hcq
  · have hq₀ := hq.of_hashes hhash.symm
    dsimp only at hcq
    rw [Heap.set_cells] at hcq
    by_cases hqp : q = p
    · subst hqp
      obtain ⟨rfl, -⟩ := hs.unique hq₀
      exact hbacked'
    · rw [if_neg hqp] at hcq
      exact fun st' hst' => hcache.backed q tq Sq hq₀ hcq st' (hst'.mono (List.prefix_append _ _))

theorem Holds.none_inv {h : Heap Node} {t : Tree} {S : List Ptr} (hs : Holds h none t S) :
    t = .nil ∧ S = [] := by
  cases hs
  exact ⟨rfl, rfl⟩

theorem Holds.items_eq {h : Heap Node} {v : Option Ptr} {cs : List (Option Ptr)} {tv : Tree}
    {ts : List Tree} {Se : ℕ → List Ptr} (hlen : cs.length = 16) (htlen : ts.length = 16)
    (hedges : ∀ i < 17, Holds h (fullEdge v cs i) (Tree.edgeAt ts tv i) (Se i)) {bs : List Value}
    (hbs : List.Forall₂ (fun x b => ∀ tx Sx, Holds h x tx Sx → b = tx.item) cs bs) :
    bs = ts.map Tree.item := by
  have hblen : bs.length = 16 := hbs.length_eq.symm.trans hlen
  refine List.ext_getElem (by rw [hblen, List.length_map, htlen]) fun i hi _ => ?_
  have hedge := hedges i (by omega)
  rw [fullEdge, if_neg (by omega), List.getD_eq_getElem _ _ (by omega), Tree.edgeAt,
    if_neg (by omega), List.getD_eq_getElem _ _ (by omega)] at hedge
  rw [List.getElem_map]
  exact hbs.get (by omega) hi _ _ hedge

theorem Holds.hashNode_item (hbatch : t.batch = true) :
    ∀ (fuel : ℕ) {m : Mem} {p : Ptr} {tr : Tree} {S : List Ptr}, Holds m.heap (some p) tr S →
      S.length ≤ fuel → Cached st m.batch m.heap →
      Completes (t.hashNode fuel (some p)) m tr.item fun m' =>
        Hashed st m m' ∧ ∀ st', st'.Covers st m'.batch → tr.Backed st' := by
  intro fuel
  induction fuel with
  | zero =>
    intro m p tr S hs hfuel
    cases hs <;> simp at hfuel
  | succ f ih =>
    intro m p tr S hs hfuel hcache
    rw [Txn.hashNode]
    refine (getCell_completes _ m).bind fun m₀ hm₀ => ?_
    subst m₀
    by_cases hcached : (m.heap.cells p).hash.2 = true
    · rw [if_pos hcached, ← hcache.item p tr S hs hcached]
      exact .pure ⟨Hashed.refl hcache, hcache.backed p tr S hs hcached⟩
    rw [if_neg hcached]
    cases hs with
    | value hp =>
      rw [hp, Tree.item_value]
      exact .pure ⟨Hashed.refl hcache, fun _ _ => .value _⟩
    | @short _ c hash key tc Sc hp hc hpS =>
      rw [hp]
      dsimp only
      rw [List.length_cons] at hfuel
      refine (ih hc (by omega) hcache).bind fun m₁ hm₁ => ?_
      have hs₁ := (Holds.short hp hc hpS).of_hashes hm₁.1.hashes
      have hnv : ∀ hf buf, m.heap.cells p ≠ .value hf buf := by
        rw [hp]
        exact fun _ _ h => Node.noConfusion h
      exact (hs₁.store_item hbatch (hm₁.1.hashes.not_value hnv) hm₁.1.cached (Tree.item_short key tc)
        fun st' hst' hput => .short (hm₁.2 st' hst') hput).mono fun m₂ hm₂ => ⟨hm₁.1.trans hm₂.1, hm₂.2⟩
    | @full _ hash ep v cs tv ts Se hp hlen htlen hedges hnodup =>
      have hs := Holds.full hp hlen htlen hedges hnodup
      have hlen_e : ∀ i < 17, (Se i).length ≤ f := fun i hi => by
        have := hs.length_edge rfl hi
        rw [List.length_cons] at hfuel this
        omega
      have hnv : ∀ hf buf, m.heap.cells p ≠ .value hf buf := by
        rw [hp]
        exact fun _ _ h => Node.noConfusion h
      have hchild : ∀ {c : Ptr} {tc : Tree} {Sc : List Ptr} (m₁ : Mem), Holds m.heap (some c) tc Sc →
          Sc.length ≤ f → Hashed st m m₁ → Completes (t.hashNode f (some c)) m₁ tc.item fun m₂ =>
            Hashed st m₁ m₂ ∧ ∀ st', st'.Covers st m₂.batch → tc.Backed st' := fun m₁ hc hlenc hm₁ =>
        ih (hc.of_hashes hm₁.hashes) hlenc hm₁.cached
      have hstore : ∀ m₂, Hashed st m m₂ → (∀ c ∈ ts, ∀ st', st'.Covers st m₂.batch → c.Backed st') →
          (∀ st', st'.Covers st m₂.batch → tv.Backed st') →
          Completes (t.store p (.array (ts.map Tree.item ++ [tv.item]))) m₂ (Tree.full ts tv).item
            fun m' => Hashed st m m' ∧ ∀ st', st'.Covers st m'.batch → (Tree.full ts tv).Backed st' := by
        intro m₂ hm₂ hcs hv
        exact ((hs.of_hashes hm₂.hashes).store_item hbatch (hm₂.hashes.not_value hnv) hm₂.cached
          (Tree.item_full ts tv) fun st' hst' hput => .full (fun c hc => hcs c hc st' hst')
            (hv st' hst') hput).mono fun m₃ hm₃ => ⟨hm₂.trans hm₃.1, hm₃.2⟩
      rw [hp]
      dsimp only
      refine Completes.bind (Completes.mapM_eq
        (R := fun x b => ∀ tx Sx, Holds m.heap x tx Sx → b = tx.item)
        (I := fun done m₁ => Hashed st m m₁ ∧ ∀ x ∈ done, ∀ tx Sx, Holds m.heap x tx Sx →
          ∀ st', st'.Covers st m₁.batch → tx.Backed st')
        [] (ts.map Tree.item) (fun x hx ys m₁ hm₁ => ?_)
        (fun bs hbs => Holds.items_eq hlen htlen hedges hbs)
        ⟨Hashed.refl hcache, fun _ h => absurd h List.not_mem_nil⟩) fun m₁ hm₁ => ?_
      · obtain ⟨i, hi, rfl⟩ := List.mem_iff_getElem.mp hx
        have hedge_i := hedges i (by omega)
        rw [fullEdge, if_neg (by omega), List.getD_eq_getElem _ _ hi] at hedge_i
        have hdone : ∀ m₂ : Mem, m₁.batch <+: m₂.batch → ∀ x ∈ ys, ∀ tx Sx, Holds m.heap x tx Sx →
            ∀ st', st'.Covers st m₂.batch → tx.Backed st' := fun m₂ hgrows x hx tx Sx hxs st' hst' =>
          hm₁.2 x hx tx Sx hxs st' (hst'.mono hgrows)
        generalize hci : cs[i] = ci at hedge_i ⊢
        cases ci with
        | none =>
          refine ⟨_, fun tx Sx hx' => ?_, .pure ⟨hm₁.1, fun x hx' tx Sx hxs st' hst' => ?_⟩⟩
          · rw [hx'.none_inv.1, Tree.item_nil]
          · rcases List.mem_append.mp hx' with hx' | hx'
            · exact hdone m₁ (List.prefix_refl _) x hx' tx Sx hxs st' hst'
            · rw [List.mem_singleton.mp hx'] at hxs
              rw [hxs.none_inv.1]
              exact .nil
        | some c =>
          refine ⟨_, fun tx Sx hx' => by rw [(hedge_i.unique hx').1],
            (hchild m₁ hedge_i (hlen_e i (by omega)) hm₁.1).mono fun m₂ hm₂ =>
              ⟨hm₁.1.trans hm₂.1, fun x hx' tx Sx hxs st' hst' => ?_⟩⟩
          rcases List.mem_append.mp hx' with hx' | hx'
          · exact hdone m₂ hm₂.1.grows x hx' tx Sx hxs st' hst'
          · rw [List.mem_singleton.mp hx'] at hxs
            rw [← (hedge_i.unique hxs).1]
            exact hm₂.2 st' hst'
      rw [List.nil_append] at hm₁
      have hcs : ∀ m₂ : Mem, m₁.batch <+: m₂.batch → ∀ c ∈ ts, ∀ st', st'.Covers st m₂.batch → c.Backed st' := by
        intro m₂ hgrows c hc st' hst'
        obtain ⟨i, hi, rfl⟩ := List.mem_iff_getElem.mp hc
        have hedge_i := hedges i (by omega)
        rw [fullEdge, if_neg (by omega), List.getD_eq_getElem _ _ (by omega), Tree.edgeAt,
          if_neg (by omega), List.getD_eq_getElem _ _ hi] at hedge_i
        exact hm₁.2 _ (List.getElem_mem _) _ _ hedge_i st' (hst'.mono hgrows)
      have hval := hedges 16 (by omega)
      rw [fullEdge, if_pos rfl, Tree.edgeAt, if_pos rfl] at hval
      cases v with
      | none =>
        obtain ⟨rfl, -⟩ := hval.none_inv
        rw [pure_bind]
        dsimp only
        rw [← Tree.item_nil]
        exact hstore m₁ hm₁.1 (hcs m₁ (List.prefix_refl _)) fun _ _ => .nil
      | some v =>
        refine (hchild m₁ hval (hlen_e 16 (by omega)) hm₁.1).bind fun m₂ hm₂ => ?_
        exact hstore m₂ (hm₁.1.trans hm₂.1) (hcs m₂ hm₂.1.grows) hm₂.2

theorem Tree.Fit.item_stored {tr : Tree} (hfit : tr.Fit false) (hne : tr ≠ .nil) :
    tr.item = Tree.stored tr.encoding ∧ ∃ vs, tr.encoding = .array vs := by
  cases hfit with
  | nil => exact absurd rfl hne
  | ext => exact ⟨Tree.item_short _ _, _, rfl⟩
  | leaf => exact ⟨Tree.item_short _ _, _, rfl⟩
  | full => exact ⟨Tree.item_full _ _, _, rfl⟩

theorem Tree.Backed.has {tr : Tree} (h : tr.Backed st) (hfit : tr.Fit false) (hne : tr ≠ .nil) :
    st.Has tr.encoding := by
  cases h with
  | nil => exact absurd rfl hne
  | value => cases hfit
  | short _ hput => exact hput
  | full _ _ hput => exact hput

theorem Holds.hash_root (hbatch : t.batch = true) {m : Mem} {tr : Tree} {S : List Ptr}
    (hs : Holds m.heap t.root tr S) (hbound : ∀ q ∈ S, q < m.heap.next) (hfit : tr.Fit false)
    (hcache : Cached st m.batch m.heap) :
    ∃ root, Completes t.hash m root fun m' => Hashed st m m' ∧
      ((tr = .nil ∧ root = emptyRootHash.bytes) ∨
        (tr ≠ .nil ∧ root.length = 32 ∧ ∀ st', st'.Covers st m'.batch →
          st'.get root = some (encode tr.encoding) ∧ tr.Backed st')) := by
  unfold Txn.hash
  cases hr : t.root with
  | none =>
    rw [hr] at hs
    exact ⟨_, .pure ⟨Hashed.refl hcache, .inl ⟨hs.none_inv.1, rfl⟩⟩⟩
  | some r =>
    rw [hr] at hs
    have hne : tr ≠ .nil := fun h => by
      subst h
      cases hs
    obtain ⟨hitem, vs, henc⟩ := hfit.item_stored hne
    dsimp only
    refine Completes.bind_exists (P := (· = m)) ⟨m, rfl, rfl⟩ fun m₀ hm₀ => ?_
    subst m₀
    refine (hs.hashNode_item hbatch _ (Nat.le_succ_of_le (hs.length_le_next hbound)) hcache).bind_exists
      fun m₁ hm₁ => ?_
    rw [hitem]
    by_cases hlen : tr.encoding.len < 32
    · rw [Tree.stored_of_lt hlen, henc]
      dsimp only
      simp only [hbatch, if_true]
      refine ⟨_, (putBatch_completes _ _ _).bind fun m₂ hm₂ => .pure ?_⟩
      subst hm₂
      have hgrows : m₁.batch <+: m₁.batch ++ [(keccak256 (encode (.array vs)), encode (.array vs))] :=
        List.prefix_append _ _
      refine ⟨hm₁.1.trans ⟨Hashes.batch _ _, hgrows, ?_⟩, .inr ⟨hne, length_keccak256 _,
        fun st' hst' => ⟨hst'.batch _ (List.mem_append_right _ (List.mem_singleton_self _)),
          hm₁.2 st' (hst'.mono hgrows)⟩⟩⟩
      exact ⟨hm₁.1.cached.item, fun q tq Sq hq hcq st' hst' =>
        hm₁.1.cached.backed q tq Sq hq hcq st' (hst'.mono hgrows)⟩
    · rw [Tree.stored_of_not_lt hlen]
      dsimp only
      rw [if_neg (by rw [length_keccak256]; exact not_not.mpr rfl)]
      exact ⟨_, .pure ⟨hm₁.1, .inr ⟨hne, length_keccak256 _, fun st' hst' =>
        ⟨((hm₁.2 st' hst').has hfit hne) hlen, hm₁.2 st' hst'⟩⟩⟩⟩

end ImmutableTrie
