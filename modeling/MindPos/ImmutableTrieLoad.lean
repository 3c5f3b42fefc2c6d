import Mathlib
import MindPos.ImmutableTriePersist

/-! # Loading a trie from the storage

`State.newTrieAt` reads the root node from the storage under the root hash and decodes it. A
child stored under its own hash is not read then: it becomes a value object with the hash flag,
and a walk that gets there reads it with `GetNode`. `Loads` relates such objects to the tree they
stand for. Decoding a node whose encoding is in the storage loads its tree, and a lookup through
loaded objects answers the tree's lookup. So a trie hashed with a batch, the batch written and
the trie loaded by its root answers every `Trie.Get` as before, provided no two of the encodings
written share a hash. -/
namespace ImmutableTrie

open EdgeTypes RlpEncoding PointerCells StateExcept Keccak

/-- What the stored format keeps of a tree: a short node's child is there, and a full node's
value slot does not hold the empty string, which reads back as no value. -/
inductive Tree.Decodable : Tree → Prop
  | nil : Decodable .nil
  | value (buf : List UInt8) : Decodable (.value buf)
  | short {key : List UInt8} {c : Tree} (hc : Decodable c) (hne : c ≠ .nil) :
      Decodable (.short key c)
  | full {cs : List Tree} {tv : Tree} (hcs : ∀ c ∈ cs, Decodable c) (hv : Decodable tv)
      (hval : tv ≠ .value []) : Decodable (.full cs tv)

variable {st : Storage}

/-- The objects of a trie read from the storage `st` hold a tree: as in `Holds`, except that a
value object with the hash flag stands for the node whose item is its buffer, stored in `st`.
Every object is below `next`. -/
inductive Loads (st : Storage) (h : Heap Node) : Option Ptr → Tree → Prop
  | nil : Loads st h none .nil
  | value {p : Ptr} {buf : List UInt8} (hp : h.cells p = .value false buf) (hlt : p < h.next) :
      Loads st h (some p) (.value buf)
  | ref {p : Ptr} {b : List UInt8} {t : Tree} (hp : h.cells p = .value true b) (hlt : p < h.next)
      (hb : t.item = .bytes b) (hfit : t.Fit false) (hne : t ≠ .nil) (hdec : t.Decodable)
      (hst : t.Backed st) : Loads st h (some p) t
  | short {p c : Ptr} {hash key : List UInt8} {t : Tree} (hp : h.cells p = .short hash key (some c))
      (hlt : p < h.next) (hc : Loads st h (some c) t) : Loads st h (some p) (.short key t)
  | full {p : Ptr} {hash : List UInt8} {ep : UInt32} {v : Option Ptr} {cs : List (Option Ptr)}
      {tv : Tree} {ts : List Tree} (hp : h.cells p = .full hash ep v cs) (hlt : p < h.next)
      (hlen : cs.length = 16) (htlen : ts.length = 16)
      (hedges : ∀ i < 17, Loads st h (fullEdge v cs i) (Tree.edgeAt ts tv i)) :
      Loads st h (some p) (.full ts tv)

theorem Clears.trans_nil {m₁ m₂ m₃ : Mem} (h₁₂ : Clears [] m₁ m₂) (h₂₃ : Clears [] m₂ m₃) :
    Clears [] m₁ m₃ :=
  h₁₂.trans h₂₃ (List.nil_subset _) fun _ hq => absurd hq List.not_mem_nil

theorem Loads.of_clears {m m' : Mem} {c : Option Ptr} {t : Tree} (hl : Loads st m.heap c t)
    (hc : Clears [] m m') : Loads st m'.heap c t := by
  induction hl with
  | nil => exact .nil
  | value hp hlt =>
    exact .value ((hc.cells_eq hlt List.not_mem_nil).trans hp) (hlt.trans_le hc.next_le)
  | ref hp hlt hb hfit hne hdec hst =>
    exact .ref ((hc.cells_eq hlt List.not_mem_nil).trans hp) (hlt.trans_le hc.next_le) hb hfit hne
      hdec hst
  | short hp hlt _ ih =>
    exact .short ((hc.cells_eq hlt List.not_mem_nil).trans hp) (hlt.trans_le hc.next_le) ih
  | full hp hlt hlen htlen _ ih =>
    exact .full ((hc.cells_eq hlt List.not_mem_nil).trans hp) (hlt.trans_le hc.next_le) hlen htlen ih

theorem Loads.full_of_forall₂ {h : Heap Node} {p : Ptr} {hash : List UInt8} {ep : UInt32}
    {v : Option Ptr} {cs : List (Option Ptr)} {ts : List Tree} {tv : Tree}
    (hp : h.cells p = .full hash ep v cs) (hlt : p < h.next) (htlen : ts.length = 16)
    (hcs : List.Forall₂ (Loads st h) cs ts) (hv : Loads st h v tv) : Loads st h (some p) (.full ts tv) := by
  have hlen : cs.length = 16 := hcs.length_eq.trans htlen
  refine .full hp hlt hlen htlen fun i hi => ?_
  by_cases h16 : i = 16
  · rw [fullEdge, if_pos h16, Tree.edgeAt, if_pos h16]
    exact hv
  · rw [fullEdge, if_neg h16, Tree.edgeAt, if_neg h16, List.getD_eq_getElem _ _ (by omega),
      List.getD_eq_getElem _ _ (by omega)]
    exact hcs.get (by omega) (by omega)

/-! ## Decoding -/

theorem liftM_ok_completes {α : Type} (a : α) (m : Mem) :
    Completes (liftM (Except.ok a : Except String α) : TrieM α) m a (· = m) :=
  ⟨m, rfl, rfl⟩

theorem Tree.Fit.decodeCompact_key {key : List UInt8} {c : Tree} (h : (Tree.short key c).Fit false) :
    decodeCompact (encodeCompact key) = .ok key := by
  rcases h.short_inv with ⟨-, hns, -⟩ | ⟨ns, hns, rfl, -⟩
  · simpa using decodeCompact_encodeCompact hns false
  · simpa using decodeCompact_encodeCompact hns true

theorem Tree.Fit.item_ne_empty {tr : Tree} (hfit : tr.Fit false) (hne : tr ≠ .nil) :
    tr.item ≠ .bytes [] := by
  obtain ⟨hitem, vs, henc⟩ := hfit.item_stored hne
  rw [hitem]
  by_cases hlen : tr.encoding.len < 32
  · rw [Tree.stored_of_lt hlen, henc]
    exact fun h => Value.noConfusion h
  · rw [Tree.stored_of_not_lt hlen]
    intro h
    have hk := length_keccak256 (encode tr.encoding)
    rw [Value.bytes.inj h] at hk
    cases hk

theorem decodeNode_item {tr : Tree} (hfit : tr.Fit false) (hne : tr ≠ .nil) (hdec : tr.Decodable)
    (hst : tr.Backed st) (henc : ∀ m, ∃ p, Completes (decodeNode tr.encoding) m p fun m' =>
      Clears [] m m' ∧ Loads st m'.heap (some p) tr ∧ ∀ hf b, m'.heap.cells p ≠ .value hf b)
    (m : Mem) :
    ∃ p, Completes (decodeNode tr.item) m p fun m' => Clears [] m m' ∧ Loads st m'.heap (some p) tr := by
  obtain ⟨hitem, -⟩ := hfit.item_stored hne
  by_cases hlen : tr.encoding.len < 32
  · rw [hitem, Tree.stored_of_lt hlen]
    obtain ⟨p, hp⟩ := henc m
    exact ⟨p, hp.mono fun _ h => ⟨h.1, h.2.1⟩⟩
  · have hb : tr.item = .bytes (keccak256 (encode tr.encoding)) := by
      rw [hitem, Tree.stored_of_not_lt hlen]
    rw [hb, decodeNode.eq_1]
    refine ⟨_, (alloc_completes _ m).mono fun m' hm' => ?_⟩
    subst hm'
    exact ⟨Clears.alloc [] m _, .ref (by simp) (by simp) hb hfit hne hdec hst⟩

theorem decodeFullItems_items : ∀ (cs : List Tree) {tv : Tree},
    (∀ c ∈ cs, c ≠ .nil → ∀ m, ∃ p, Completes (decodeNode c.item) m p fun m' =>
      Clears [] m m' ∧ Loads st m'.heap (some p) c) →
    (∀ c ∈ cs, c.Fit false) → tv.Fit true → tv ≠ .value [] → ∀ m, ∃ res,
      Completes (decodeFullItems (cs.map Tree.item ++ [tv.item])) m res fun m' =>
        Clears [] m m' ∧ List.Forall₂ (Loads st m'.heap) res.1 cs ∧ Loads st m'.heap res.2 tv
  | [], tv, _, _, hv, hval, m => by
    rw [List.map_nil, List.nil_append]
    cases hv with
    | nil =>
      rw [Tree.item_nil, decodeFullItems.eq_2, if_pos rfl]
      exact ⟨_, .pure ⟨Clears.refl [] m, .nil, .nil⟩⟩
    | value buf =>
      have hbuf : buf ≠ [] := fun h => hval (by rw [h])
      rw [Tree.item_value, decodeFullItems.eq_2, if_neg hbuf]
      refine ⟨_, (alloc_completes _ m).bind fun m' hm' => .pure ?_⟩
      subst hm'
      exact ⟨Clears.alloc [] m _, .nil, .value (by simp) (by simp)⟩
  | c :: cs, tv, hdec, hfit, hv, hval, m => by
    have hrest : cs.map Tree.item ++ [tv.item] ≠ [] := by simp
    rw [List.map_cons, List.cons_append, decodeFullItems.eq_4 _ _ (fun _ _ h => hrest h)
      (fun _ _ h => hrest h)]
    have ih := decodeFullItems_items cs (fun c' hc' => hdec c' (List.mem_cons_of_mem _ hc'))
      (fun c' hc' => hfit c' (List.mem_cons_of_mem _ hc')) hv hval
    by_cases hc : c = .nil
    · subst hc
      rw [Tree.item_nil, if_pos rfl]
      obtain ⟨⟨children, value⟩, hres⟩ := ih m
      refine ⟨(none :: children, value), (Completes.pure (P := (· = m)) rfl).bind fun m₁ hm₁ => ?_⟩
      subst hm₁
      exact hres.bind fun m₂ hm₂ => .pure ⟨hm₂.1, .cons .nil hm₂.2.1, hm₂.2.2⟩
    · rw [if_neg ((hfit c List.mem_cons_self).item_ne_empty hc)]
      obtain ⟨p, hp⟩ := hdec c List.mem_cons_self hc m
      obtain ⟨m₁, hrun₁, hm₁⟩ := hp
      obtain ⟨⟨children, value⟩, hres⟩ := ih m₁
      refine ⟨(some p :: children, value),
        (Completes.map some (P := (· = m₁)) ⟨m₁, hrun₁, rfl⟩).bind fun m₂ hm₂ => ?_⟩
      subst hm₂
      exact hres.bind fun m₃ hm₃ => .pure ⟨hm₁.1.trans_nil hm₃.1,
        .cons (hm₁.2.of_clears hm₃.1) hm₃.2.1, hm₃.2.2⟩

theorem Tree.Decodable.decodeNode {tr : Tree} (hdec : tr.Decodable) : tr.Fit false → tr ≠ .nil →
    tr.Backed st → ∀ m, ∃ p, Completes (decodeNode tr.encoding) m p fun m' =>
      Clears [] m m' ∧ Loads st m'.heap (some p) tr ∧ ∀ hf b, m'.heap.cells p ≠ .value hf b := by
  induction hdec with
  | nil => exact fun _ hne => absurd rfl hne
  | value buf => exact fun hfit => by cases hfit
  | @short key c hc hcne ih =>
    intro hfit _ hst m
    have hcst : c.Backed st := by
      cases hst with
      | short hc' _ => exact hc'
    rw [Tree.encoding, decodeNode.eq_2, hfit.decodeCompact_key]
    refine (liftM_ok_completes key m).bind_exists fun m₀ hm₀ => ?_
    subst m₀
    rcases hfit.short_inv with ⟨-, hns, hcfit⟩ | ⟨ns, hns, rfl, hcfit⟩
    · rw [hasTerminator_of_nibbles hns, if_neg Bool.false_ne_true]
      obtain ⟨pc, hpc⟩ := decodeNode_item hcfit hcne hc hcst (ih hcfit hcne hcst) m
      refine hpc.bind_exists fun m₁ hm₁ => ⟨_, (alloc_completes _ m₁).mono fun m₂ hm₂ => ?_⟩
      subst hm₂
      have hcell : (m₁.heap.alloc (.short [] key (some pc))).2.cells m₁.heap.next =
          .short [] key (some pc) := by simp
      refine ⟨hm₁.1.trans_nil (Clears.alloc [] m₁ _), .short hcell (by simp)
        (hm₁.2.of_clears (Clears.alloc [] m₁ _)), by simp⟩
    · cases hcfit with
      | nil => exact absurd rfl hcne
      | value buf =>
        rw [if_pos (by simp [hasTerminator]), Tree.item_value]
        dsimp only
        refine ⟨m.heap.next + 1, (alloc_completes _ m).bind fun m₁ hm₁ => ?_⟩
        subst hm₁
        refine (alloc_completes _ _).mono fun m₂ hm₂ => ?_
        subst hm₂
        have hcell : ((m.heap.alloc (.value false buf)).2.alloc
            (.short [] (ns ++ [16]) (some m.heap.next))).2.cells (m.heap.next + 1) =
            .short [] (ns ++ [16]) (some m.heap.next) := by simp
        refine ⟨(Clears.alloc [] m _).trans_nil (Clears.alloc [] _ _),
          .short hcell (by simp) (.value (by simp) (by simp)), by simp⟩
  | @full cs tv hcs hv hval ihcs ihv =>
    intro hfit _ hst m
    obtain ⟨-, hlen, hcsfit, hvfit⟩ := hfit.full_inv
    have hcsst : ∀ c ∈ cs, c.Backed st := by
      cases hst with
      | full hcs' _ _ => exact hcs'
    have hitems : (cs.map Tree.item ++ [tv.item]).length = 17 := by simp [hlen]
    rw [Tree.encoding, decodeNode.eq_4 _ (fun _ _ h => by rw [h] at hitems; cases hitems),
      if_pos hitems]
    obtain ⟨⟨children, value⟩, hres⟩ := decodeFullItems_items cs (fun c hc hcne =>
      decodeNode_item (hcsfit c hc) hcne (hcs c hc) (hcsst c hc)
        (ihcs c hc (hcsfit c hc) hcne (hcsst c hc))) hcsfit hvfit hval m
    refine hres.bind_exists fun m₁ hm₁ => ⟨_, (alloc_completes _ m₁).mono fun m₂ hm₂ => ?_⟩
    subst hm₂
    have hcell : (m₁.heap.alloc (.full [] 0 value children)).2.cells m₁.heap.next =
        .full [] 0 value children := by simp
    refine ⟨hm₁.1.trans_nil (Clears.alloc [] m₁ _), Loads.full_of_forall₂ hcell (by simp) hlen ?_
      (hm₁.2.2.of_clears (Clears.alloc [] m₁ _)), by simp⟩
    exact hm₁.2.1.imp fun _ _ h => h.of_clears (Clears.alloc [] m₁ _)

theorem getNode_loads {b : List UInt8} {tr : Tree} (hget : st.get b = some (encode tr.encoding))
    (hfit : tr.Fit false) (hne : tr ≠ .nil) (hdec : tr.Decodable) (hst : tr.Backed st) (m : Mem) :
    ∃ p, Completes (getNode b st) m (some p) fun m' =>
      Clears [] m m' ∧ Loads st m'.heap (some p) tr ∧ ∀ hf b, m'.heap.cells p ≠ .value hf b := by
  obtain ⟨-, vs, henc⟩ := hfit.item_stored hne
  have hdata : encode tr.encoding ≠ [] := List.ne_nil_of_length_pos (encode_length_pos _)
  obtain ⟨p, hp⟩ := hdec.decodeNode hfit hne hst m
  rw [getNode, hget]
  dsimp only
  rw [if_neg hdata, parse_encode, henc]
  rw [henc] at hp
  exact ⟨p, hp.map some⟩

theorem Tree.Backed.get_of_item {tr : Tree} {b : List UInt8} (h : tr.Backed st) (hfit : tr.Fit false)
    (hne : tr ≠ .nil) (hb : tr.item = .bytes b) : st.get b = some (encode tr.encoding) := by
  obtain ⟨hitem, vs, henc⟩ := hfit.item_stored hne
  rw [hitem] at hb
  by_cases hlen : tr.encoding.len < 32
  · rw [Tree.stored_of_lt hlen, henc] at hb
    cases hb
  · rw [Tree.stored_of_not_lt hlen] at hb
    rw [← Value.bytes.inj hb]
    exact h.has hfit hne hlen

/-! ## Lookups -/

theorem Tree.Fit.eq_nil_of_true {tr : Tree} (h₁ : tr.Fit true) (h₂ : tr.Fit false) : tr = .nil := by
  cases h₁ with
  | nil => rfl
  | value => cases h₂

variable {t : Txn}

theorem Loads.lookupNode_leaf {fuel : ℕ} {m : Mem} {c : Option Ptr} {tv : Tree}
    (hl : Loads st m.heap c tv) (hfit : tv.Fit true) (hfuel : 0 < fuel) (s : List UInt8) :
    Completes (t.lookupNode fuel c s) m (none, tv.lookup s) (· = m) := by
  obtain ⟨f, rfl⟩ : ∃ f, fuel = f + 1 := ⟨fuel - 1, by omega⟩
  cases hl with
  | nil =>
    rw [Txn.lookupNode, Tree.lookup_nil]
    exact .pure rfl
  | value hp _ =>
    rw [Txn.lookupNode]
    refine (getCell_completes _ m).bind fun m₀ hm₀ => ?_
    subst m₀
    rw [hp, Tree.lookup_value]
    by_cases hs : s = []
    · simp only [Bool.false_eq_true, if_false, if_pos hs]
      exact .pure rfl
    · simp only [Bool.false_eq_true, if_false, if_neg hs]
      exact .pure rfl
  | ref _ _ _ hfit' hne => exact absurd (hfit.eq_nil_of_true hfit') hne
  | short => exact absurd hfit.short_done fun h => Bool.noConfusion h
  | full => exact absurd hfit.full_inv.1 fun h => Bool.noConfusion h

theorem Loads.lookupNode_node {s : List UInt8}
    (ih : ∀ s' : List UInt8, s'.length < s.length → ∀ {fuel : ℕ} {m : Mem} {c : Option Ptr}
      {tr : Tree} {done : Bool}, Loads st m.heap c tr → tr.Fit done → Keyed done s' →
      2 * s'.length + 1 ≤ fuel → ∃ r, Completes (t.lookupNode fuel c s') m (r, tr.lookup s') fun _ => True)
    {fuel : ℕ} {m : Mem} {p : Ptr} {tr : Tree} (hl : Loads st m.heap (some p) tr)
    (hnv : ∀ hf b, m.heap.cells p ≠ .value hf b) (hfit : tr.Fit false) (hkey : Keyed false s)
    (hfuel : 2 * s.length ≤ fuel) :
    ∃ r, Completes (t.lookupNode fuel (some p) s) m (r, tr.lookup s) fun _ => True := by
  have hs0 : 0 < s.length := List.length_pos_iff.mpr hkey.ne_nil
  obtain ⟨f, rfl⟩ : ∃ f, fuel = f + 1 := ⟨fuel - 1, by omega⟩
  cases hl with
  | value hp => exact absurd hp (hnv _ _)
  | ref hp => exact absurd hp (hnv _ _)
  | @short _ c hash key tc hp _ hc =>
    rw [Txn.lookupNode]
    refine (getCell_completes _ m).bind_exists_fst fun m₀ hm₀ => ?_
    subst m₀
    rw [hp]
    dsimp only
    rw [Tree.lookup]
    by_cases hmiss : key.length > s.length ∨ s.take key.length ≠ key
    · rw [if_pos hmiss, if_pos hmiss]
      exact ⟨_, .pure trivial⟩
    rw [if_neg hmiss, if_neg hmiss]
    rw [not_or, not_lt, not_not] at hmiss
    have hpre : key <+: s := List.prefix_iff_eq_take.mpr hmiss.2.symm
    have hkey0 : 0 < key.length := List.length_pos_iff.mpr hfit.short_ne_nil
    have hlt : (s.drop key.length).length < s.length := by
      rw [List.length_drop]
      omega
    have hfuel' : 2 * (s.drop key.length).length + 1 ≤ f := by
      rw [List.length_drop]
      omega
    obtain ⟨r, hr⟩ := ih _ hlt hc hfit.short_child (hfit.keyed_drop hkey hpre) hfuel'
    refine ⟨none, hr.bind fun m₁ _ => ?_⟩
    cases r with
    | none => exact .pure trivial
    | some nc => exact (modifyCell_completes _ _ _).bind fun _ _ => .pure trivial
  | @full _ hash ep v cs tv ts hp _ hlen htlen hedges =>
    cases s with
    | nil => exact absurd rfl hkey.ne_nil
    | cons k rest =>
      obtain ⟨hk, hrest⟩ := hkey.cons
      rw [Txn.lookupNode]
      refine (getCell_completes _ m).bind_exists_fst fun m₀ hm₀ => ?_
      subst m₀
      rw [hp]
      dsimp only
      rw [Node.getEdge_full, Tree.lookup_full_cons]
      have hedge := hedges _ (Nat.lt_succ_of_le hk)
      by_cases h16 : k.toNat = 16
      · have hfit16 := hfit.edgeAt hk
        rw [decide_eq_true h16] at hfit16
        exact ⟨none, (hedge.lookupNode_leaf hfit16 (by omega) rest).bind fun _ _ => .pure trivial⟩
      · have hk16 : k < 16 := UInt8.lt_iff_toNat_lt.mpr (by simp only [UInt8.toNat_ofNat]; omega)
        have hfitk := hfit.edgeAt hk
        rw [decide_eq_false h16] at hfitk
        rw [decide_eq_false h16] at hrest
        have hfuel' : 2 * rest.length + 1 ≤ f := by
          rw [List.length_cons] at hfuel
          omega
        obtain ⟨r, hr⟩ := ih rest (by simp) hedge hfitk hrest hfuel'
        refine ⟨none, hr.bind fun m₁ _ => ?_⟩
        cases r with
        | none => exact .pure trivial
        | some nc =>
          dsimp only
          rw [if_pos hk16]
          exact (modifyCell_completes _ _ _).bind fun _ _ => .pure trivial

theorem Loads.lookupNode (hst : t.storage = st) : ∀ (n : ℕ) (s : List UInt8), s.length = n →
    ∀ {fuel : ℕ} {m : Mem} {c : Option Ptr} {tr : Tree} {done : Bool},
      Loads st m.heap c tr → tr.Fit done → Keyed done s → 2 * s.length + 1 ≤ fuel →
      ∃ r, Completes (t.lookupNode fuel c s) m (r, tr.lookup s) fun _ => True := by
  intro n
  induction n using Nat.strong_induction_on with
  | _ n ih =>
    intro s hn fuel m c tr done hl hfit hkey hfuel
    have ih' : ∀ s' : List UInt8, s'.length < s.length → ∀ {fuel : ℕ} {m : Mem} {c : Option Ptr}
        {tr : Tree} {done : Bool}, Loads st m.heap c tr → tr.Fit done → Keyed done s' →
        2 * s'.length + 1 ≤ fuel →
        ∃ r, Completes (t.lookupNode fuel c s') m (r, tr.lookup s') fun _ => True :=
      fun s' hs' => ih s'.length (hn ▸ hs') s' rfl
    cases hl with
    | nil =>
      obtain ⟨f, rfl⟩ : ∃ f, fuel = f + 1 := ⟨fuel - 1, by omega⟩
      rw [Txn.lookupNode, Tree.lookup_nil]
      exact ⟨_, .pure trivial⟩
    | value hp hlt =>
      obtain rfl := hfit.value_done
      have hl : Loads st m.heap _ _ := Loads.value hp hlt
      exact ⟨_, (hl.lookupNode_leaf hfit (by omega) s).mono fun _ _ => trivial⟩
    | @ref p b _ hp hlt hb hfit' hne hdec hbacked =>
      have hdone : done = false := by
        cases done
        · rfl
        · exact absurd (hfit.eq_nil_of_true hfit') hne
      subst hdone
      obtain ⟨f, rfl⟩ : ∃ f, fuel = f + 1 := ⟨fuel - 1, by omega⟩
      rw [Txn.lookupNode]
      refine (getCell_completes _ m).bind_exists_fst fun m₀ hm₀ => ?_
      subst m₀
      rw [hp]
      dsimp only
      rw [if_pos rfl, hst]
      obtain ⟨nc, hnc⟩ := getNode_loads (hbacked.get_of_item hfit' hne hb) hfit' hne hdec hbacked m
      refine hnc.bind_exists_fst fun m₁ hm₁ => ?_
      have hfuel' : 2 * s.length ≤ f := by omega
      obtain ⟨r, hr⟩ := Loads.lookupNode_node ih' hm₁.2.1 hm₁.2.2 hfit' hkey hfuel'
      exact ⟨some nc, hr.bind fun _ _ => .pure trivial⟩
    | short hp hlt hc =>
      obtain rfl := hfit.short_done
      exact Loads.lookupNode_node ih' (.short hp hlt hc) (by rw [hp]; exact fun _ _ h => Node.noConfusion h)
        hfit hkey (by omega)
    | full hp hlt hlen htlen hedges =>
      obtain ⟨rfl, -⟩ := hfit.full_inv
      exact Loads.lookupNode_node ih' (.full hp hlt hlen htlen hedges)
        (by rw [hp]; exact fun _ _ h => Node.noConfusion h) hfit hkey (by omega)

/-! ## The round trip -/

theorem bytes_bytesToHash {b : List UInt8} (hb : b.length = 32) : (bytesToHash b).bytes = b := by
  simp [bytesToHash, rightAlign_of_length hb]

theorem newTrieAt_loads {root : List UInt8} {tr : Tree} (hlen : root.length = 32)
    (hget : st.get root = some (encode tr.encoding)) (hempty : st.get emptyRootHash.bytes = none)
    (hfit : tr.Fit false) (hne : tr ≠ .nil) (hdec : tr.Decodable) (hst : tr.Backed st) (m : Mem) :
    ∃ p, Completes (newTrieAt st (bytesToHash root)) m (.ok ⟨some p, 0⟩) fun m' =>
      Loads st m'.heap (some p) tr := by
  have hroot : bytesToHash root ≠ emptyRootHash := fun h => by
    have hb := congrArg Hash.bytes h
    rw [bytes_bytesToHash hlen] at hb
    rw [hb, hempty] at hget
    cases hget
  obtain ⟨p, hp⟩ := getNode_loads hget hfit hne hdec hst m
  unfold newTrieAt
  rw [if_neg hroot, bytes_bytesToHash hlen]
  refine ⟨p, Completes.tryCatch (hp.bind fun m' hm' => ?_) _⟩
  exact .pure hm'.2.1

theorem Holds.decodable {h : Heap Node} {c : Option Ptr} {tr : Tree} {S : List Ptr}
    (hs : Holds h c tr S) (hvals : ∀ q ∈ S, h.cells q ≠ .value false []) : tr.Decodable := by
  induction hs with
  | nil => exact .nil
  | value => exact .value _
  | short _ hc _ ih =>
    refine .short (ih fun q hq => hvals q (List.mem_cons_of_mem _ hq)) fun hnil => ?_
    subst hnil
    cases hc
  | @full p hash ep v cs tv ts Se hp hlen htlen hedges hnodup ih =>
    have hedge : ∀ i < 17, (Tree.edgeAt ts tv i).Decodable := fun i hi =>
      ih i hi fun q hq => hvals q (Holds.mem_of_edge hi hq)
    refine .full (fun c hc => ?_) (by simpa [Tree.edgeAt] using hedge 16 (by omega)) fun hval => ?_
    · obtain ⟨i, hi, rfl⟩ := List.mem_iff_getElem.mp hc
      have hdi := hedge i (by omega)
      rwa [Tree.edgeAt, if_neg (by omega), List.getD_eq_getElem _ _ hi] at hdi
    · have hv := hedges 16 (by omega)
      rw [fullEdge, if_pos rfl, Tree.edgeAt, if_pos rfl, hval] at hv
      generalize hS16 : Se 16 = S16 at hv
      cases hv with
      | value hq =>
        exact hvals _ (Holds.mem_of_edge (i := 16) (by omega) (by rw [hS16]; exact List.mem_singleton_self _)) hq

/-- The round trip through the storage. A transaction stands for a map, caches right hashes and
holds no empty value, and `Txn.Hash()` runs with a batch. Then the batch is written over the
storage, and `State.newTrieAt` loads the trie from the result by the root hash. That trie answers
`Trie.Get` for every key as the map does. Writing the batch must keep every entry the batch puts
and every entry the storage had, and must put nothing under the empty root. That is, no two of
the encodings share a hash. -/
theorem get_after_load {t : Txn} {m : Mem} {S : List Ptr} {f : List UInt8 → Option (List UInt8)}
    (h : Stands m t.root S f) (hbatch : t.batch = true) (st : Storage)
    (hcache : Cached st m.batch m.heap) (hvals : ∀ q ∈ S, m.heap.cells q ≠ .value false []) :
    ∃ root m', t.hash.run m = .ok (root, m') ∧
      ((st.write m'.batch).Covers st m'.batch → (st.write m'.batch).get emptyRootHash.bytes = none →
        ∃ trie m'', (newTrieAt (st.write m'.batch) (bytesToHash root)).run m' = .ok (.ok trie, m'') ∧
          ∀ key, (trie.get key (st.write m'.batch)).run' m'' = .ok (f key)) := by
  obtain ⟨tr, hfit, hs, hlook⟩ := h.tree
  obtain ⟨root, m', hrun, hm'⟩ := hs.hash_root hbatch h.bound hfit hcache
  refine ⟨root, m', hrun, fun hcov hempty => ?_⟩
  rcases hm'.2 with ⟨rfl, rfl⟩ | ⟨hne, hlen, hstore⟩
  · refine ⟨⟨none, 0⟩, m', by simp [newTrieAt], fun key => ?_⟩
    rw [← hlook key, Tree.lookup_nil]
    rfl
  · obtain ⟨hget, hbacked⟩ := hstore _ hcov
    obtain ⟨p, m'', hload, hl⟩ := newTrieAt_loads hlen hget hempty hfit hne (hs.decodable hvals)
      hbacked m'
    refine ⟨⟨some p, 0⟩, m'', hload, fun key => ?_⟩
    have hfuel : 2 * (bytesToHexNibbles key).length + 1 ≤ walkFuel (bytesToHexNibbles key) := by
      rw [walkFuel]
      omega
    obtain ⟨r, hr⟩ := Loads.lookupNode (t := (Trie.mk (some p) 0).txn (st.write m'.batch)) rfl _ _ rfl
      hl hfit (Keyed.hex key) hfuel
    have hget' : Completes (Trie.get ⟨some p, 0⟩ key (st.write m'.batch)) m''
        (tr.lookup (bytesToHexNibbles key)) fun _ => True := by
      rw [Trie.get, Txn.lookup]
      exact hr.bind fun _ _ => .pure trivial
    rw [← hlook key]
    exact hget'.run'_eq

/-- After the inserts of `sampleEntries` in a transaction with a batch, `Txn.Hash()` puts the
four nodes into the batch, and the trie loaded from a storage holding only them, each read by its
hash, answers every key. -/
theorem get_after_load_of_inserts :
    ∃ (t : Txn) (m : Mem) (S : List Ptr),
      (sampleEntries.foldlM (fun (t : Txn) (kv : List UInt8 × List UInt8) => t.insert kv.1 kv.2)
          freshTxn).run Mem.empty = .ok (t, m) ∧
        S ≠ [] ∧ Stands m t.root S (putAll (fun _ => none) sampleEntries) ∧ t.batch = true ∧
        Cached ⟨[]⟩ m.batch m.heap ∧ (∀ q ∈ S, m.heap.cells q ≠ .value false []) ∧
        ∃ root m', t.hash.run m = .ok (root, m') ∧ m'.batch.length = 4 ∧
          ∃ trie m'', (newTrieAt ((Storage.mk []).write m'.batch) (bytesToHash root)).run m' =
              .ok (.ok trie, m'') ∧
            ∀ key, (trie.get key ((Storage.mk []).write m'.batch)).run' m'' =
              .ok (putAll (fun _ => none) sampleEntries key) := by
  have h₀ : Stands Mem.empty freshTxn.root [] fun _ => none := Stands.empty _
  obtain ⟨t, m, hrun, -, -, hbatch, ⟨S, hst⟩, -⟩ := h₀.insertAll sampleEntries
  have hfresh : Fresh 1 m :=
    insertAll_fresh (by decide) freshTxn rfl Mem.empty t m hrun (Fresh.empty 1)
  have hcache : Cached ⟨[]⟩ m.batch m.heap := Cached.of_unhashed hfresh.unhashed
  have hvals : ∀ q ∈ S, m.heap.cells q ≠ .value false [] :=
    fun q hq => hfresh.nonempty q (hst.bound q hq)
  obtain ⟨root, m', hhash, hload⟩ := get_after_load hst hbatch ⟨[]⟩ hcache hvals
  have hcheck := (show ((sampleEntries.foldlM
      (fun (t : Txn) (kv : List UInt8 × List UInt8) => t.insert kv.1 kv.2) freshTxn >>=
        fun t => t.hash).run Mem.empty).toOption.all (fun r => decide (r.2.batch.length = 4 ∧
          (∀ kd ∈ r.2.batch, ((Storage.mk []).write r.2.batch).get kd.1 = some kd.2) ∧
          ((Storage.mk []).write r.2.batch).get emptyRootHash.bytes = none)) = true by
    decide +kernel)
  rw [run_bind_of_ok hrun, hhash] at hcheck
  obtain ⟨hlen, hcov, hempty⟩ := of_decide_eq_true hcheck
  have hcovers : ((Storage.mk []).write m'.batch).Covers ⟨[]⟩ m'.batch :=
    ⟨hcov, fun k d hd => absurd hd (by simp [Storage.get])⟩
  exact ⟨t, m, S, hrun, hst.ne_nil [1] (by decide), hst, hbatch, hcache, hvals, root, m',
    hhash, hlen, hload hcovers hempty⟩

end ImmutableTrie
