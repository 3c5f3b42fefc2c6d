import Mathlib
import MindPos.ImmutableTrieLookup

/-! # The objects of a transaction as a map

`Holds` relates the objects behind a root to the `Tree` they stand for, as `Spells` does, but for
the objects a transaction really works on: nodes that cache their hash and full nodes of any
epoch, shared with the tries of earlier commits. `Txn.lookup` reads the tree's lookup off them,
and `Txn.insert` leaves objects that hold the tree with the value put under the key. An insert
writes in place only to full nodes of the transaction's epoch; every other object it needs to
change it copies, so a trie whose full nodes are of other epochs stands for the same map after any
run of inserts. -/
namespace ImmutableTrie

open RlpEncoding PointerCells StateExcept

/-- `getEdge` of a full node's object by the edge's number: edge 16 is the value slot. -/
def fullEdge (v : Option Ptr) (cs : List (Option Ptr)) (i : ℕ) : Option Ptr :=
  if i = 16 then v else cs.getD i none

/-- The objects behind `c` in `h` stand for `t` and occupy the pointers `S`, each once. A short
node has a child; a value node is in memory, not a reference to a stored node. The seventeen edges
of a full node, the value slot last, hold its seventeen subtrees. -/
inductive Holds (h : Heap Node) : Option Ptr → Tree → List Ptr → Prop
  | nil : Holds h none .nil []
  | value {p : Ptr} {buf : List UInt8} (hp : h.cells p = .value false buf) :
      Holds h (some p) (.value buf) [p]
  | short {p c : Ptr} {hash key : List UInt8} {t : Tree} {S : List Ptr}
      (hp : h.cells p = .short hash key (some c)) (hc : Holds h (some c) t S) (hpS : p ∉ S) :
      Holds h (some p) (.short key t) (p :: S)
  | full {p : Ptr} {hash : List UInt8} {ep : UInt32} {v : Option Ptr} {cs : List (Option Ptr)}
      {tv : Tree} {ts : List Tree} {Se : ℕ → List Ptr}
      (hp : h.cells p = .full hash ep v cs) (hlen : cs.length = 16) (htlen : ts.length = 16)
      (hedges : ∀ i < 17, Holds h (fullEdge v cs i) (Tree.edgeAt ts tv i) (Se i))
      (hnodup : (p :: (List.range 17).flatMap Se).Nodup) :
      Holds h (some p) (.full ts tv) (p :: (List.range 17).flatMap Se)

/-! ## Edges -/

theorem toNat_eq_sixteen {k : UInt8} : k.toNat = 16 ↔ k = 16 :=
  ⟨fun h => UInt8.toNat_inj.mp h, fun h => by rw [h]; rfl⟩

theorem Node.getEdge_full (hash : List UInt8) (ep : UInt32) (v : Option Ptr)
    (cs : List (Option Ptr)) (k : UInt8) :
    (Node.full hash ep v cs).getEdge k = fullEdge v cs k.toNat := by
  rw [Node.getEdge, fullEdge]
  by_cases hk : k = 16
  · rw [if_pos hk, if_pos (toNat_eq_sixteen.mpr hk)]
  · rw [if_neg hk, if_neg (mt toNat_eq_sixteen.mp hk)]

theorem Node.setEdge_full (hash : List UInt8) (ep : UInt32) (v : Option Ptr)
    (cs : List (Option Ptr)) (k : UInt8) (e : Option Ptr) :
    (Node.full hash ep v cs).setEdge k e = .full hash ep (if k.toNat = 16 then e else v)
      (if k.toNat = 16 then cs else cs.set k.toNat e) := by
  rw [Node.setEdge]
  by_cases hk : k = 16
  · rw [if_pos hk, if_pos (toNat_eq_sixteen.mpr hk), if_pos (toNat_eq_sixteen.mpr hk)]
  · rw [if_neg hk, if_neg (mt toNat_eq_sixteen.mp hk), if_neg (mt toNat_eq_sixteen.mp hk)]

theorem Tree.setEdge_full (cs : List Tree) (tv c : Tree) (i : ℕ) :
    (Tree.full cs tv).setEdge i c =
      .full (if i = 16 then cs else cs.set i c) (if i = 16 then c else tv) := by
  rw [Tree.setEdge]
  by_cases hi : i = 16
  · rw [if_pos hi, if_pos hi, if_pos hi]
  · rw [if_neg hi, if_neg hi, if_neg hi]

theorem edge_set {α : Type} {cs : List α} (hlen : cs.length = 16) (d v c : α) {i : ℕ}
    (hi : i ≤ 16) (j : ℕ) :
    (if j = 16 then (if i = 16 then c else v) else (if i = 16 then cs else cs.set i c).getD j d) =
      if j = i then c else if j = 16 then v else cs.getD j d := by
  by_cases hj16 : j = 16
  · subst hj16
    by_cases hi16 : i = 16
    · rw [if_pos rfl, if_pos hi16, if_pos hi16.symm]
    · rw [if_pos rfl, if_neg hi16, if_neg (Ne.symm hi16), if_pos rfl]
  · by_cases hji : j = i
    · subst hji
      rw [if_neg hj16, if_neg hj16, if_pos rfl, getD_set_self (by omega)]
    · rw [if_neg hj16, if_neg hji, if_neg hj16]
      by_cases hi16 : i = 16
      · rw [if_pos hi16]
      · rw [if_neg hi16, getD_set_ne (Ne.symm hji)]

theorem fullEdge_set {cs : List (Option Ptr)} (hlen : cs.length = 16) (v c : Option Ptr) {i : ℕ}
    (hi : i ≤ 16) (j : ℕ) :
    fullEdge (if i = 16 then c else v) (if i = 16 then cs else cs.set i c) j =
      if j = i then c else fullEdge v cs j :=
  edge_set hlen none v c hi j

theorem Tree.edgeAt_set {cs : List Tree} (hlen : cs.length = 16) (tv c : Tree) {i : ℕ}
    (hi : i ≤ 16) (j : ℕ) :
    Tree.edgeAt (if i = 16 then cs else cs.set i c) (if i = 16 then c else tv) j =
      if j = i then c else Tree.edgeAt cs tv j :=
  edge_set hlen .nil tv c hi j

/-! ## Holding a tree -/

namespace Holds

variable {h h' : Heap Node} {c : Option Ptr} {t : Tree} {S : List Ptr}

theorem mem_of_edge {Se : ℕ → List Ptr} {p q : Ptr} {i : ℕ} (hi : i < 17) (hq : q ∈ Se i) :
    q ∈ p :: (List.range 17).flatMap Se :=
  List.mem_cons_of_mem _ (List.mem_flatMap.mpr ⟨i, List.mem_range.mpr hi, hq⟩)

theorem nodup (hs : Holds h c t S) : S.Nodup := by
  induction hs with
  | nil => exact List.nodup_nil
  | value => exact List.nodup_singleton _
  | short _ _ hpS ih => exact ih.cons hpS
  | full _ _ _ _ hnodup => exact hnodup

theorem frame (hs : Holds h c t S) (hkeep : ∀ q ∈ S, h'.cells q = h.cells q) : Holds h' c t S := by
  induction hs with
  | nil => exact .nil
  | value hp => exact .value ((hkeep _ List.mem_cons_self).trans hp)
  | short hp _ hpS ih =>
    exact .short ((hkeep _ List.mem_cons_self).trans hp)
      (ih fun q hq => hkeep q (List.mem_cons_of_mem _ hq)) hpS
  | full hp hlen htlen _ hnodup ih =>
    exact .full ((hkeep _ List.mem_cons_self).trans hp) hlen htlen
      (fun i hi => ih i hi fun q hq => hkeep q (mem_of_edge hi hq)) hnodup

theorem of_nil (hs : Holds h c .nil S) : c = none ∧ S = [] := by
  cases hs
  exact ⟨rfl, rfl⟩

theorem exists_some (hs : Holds h c t S) (ht : t ≠ .nil) : ∃ p, c = some p := by
  cases hs with
  | nil => exact absurd rfl ht
  | value => exact ⟨_, rfl⟩
  | short => exact ⟨_, rfl⟩
  | full => exact ⟨_, rfl⟩

end Holds

/-! ## Lookups -/

variable {t : Txn}

theorem Holds.lookupNode : ∀ (fuel : ℕ) {m : Mem} {c : Option Ptr} {tr : Tree} {S : List Ptr}
    {done : Bool} {s : List UInt8}, Holds m.heap c tr S → tr.Fit done → Keyed done s →
    s.length < fuel → Completes (t.lookupNode fuel c s) m (none, tr.lookup s) (· = m) := by
  intro fuel
  induction fuel with
  | zero => intro _ _ _ _ _ _ _ _ _ hfuel; omega
  | succ f ih =>
    intro m c tr S done s hs hfit hkey hfuel
    cases hs with
    | nil =>
      rw [Txn.lookupNode, Tree.lookup_nil]
      exact .pure rfl
    | @value p buf hp =>
      rw [Txn.lookupNode]
      refine (getCell_completes _ m).bind fun m₀ hm₀ => ?_
      subst m₀
      rw [hp, Tree.lookup_value]
      by_cases hs : s = []
      · simp only [Bool.false_eq_true, if_false, if_pos hs]
        exact .pure rfl
      · simp only [Bool.false_eq_true, if_false, if_neg hs]
        exact .pure rfl
    | @short p c hash key tc Sc hp hc hpS =>
      obtain rfl := hfit.short_done
      rw [Txn.lookupNode]
      refine (getCell_completes _ m).bind fun m₀ hm₀ => ?_
      subst m₀
      rw [hp]
      dsimp only
      rw [Tree.lookup]
      by_cases hmiss : key.length > s.length ∨ s.take key.length ≠ key
      · rw [if_pos hmiss, if_pos hmiss]
        exact .pure rfl
      · rw [if_neg hmiss, if_neg hmiss]
        rw [not_or, not_lt, not_not] at hmiss
        have hpre : key <+: s := List.prefix_iff_eq_take.mpr hmiss.2.symm
        have hkey0 : 0 < key.length := List.length_pos_iff.mpr hfit.short_ne_nil
        have hfuel' : (s.drop key.length).length < f := by
          rw [List.length_drop]
          omega
        exact (ih hc hfit.short_child (hfit.keyed_drop hkey hpre) hfuel').bind
          fun m₁ hm₁ => .pure hm₁
    | @full p hash ep v cs tv ts Se hp hlen htlen hedges hnodup =>
      obtain ⟨rfl, -⟩ := hfit.full_inv
      cases s with
      | nil => exact absurd rfl hkey.ne_nil
      | cons k rest =>
        obtain ⟨hk, hrest⟩ := hkey.cons
        rw [Txn.lookupNode]
        refine (getCell_completes _ m).bind fun m₀ hm₀ => ?_
        subst m₀
        rw [hp]
        dsimp only
        rw [Node.getEdge_full, Tree.lookup_full_cons]
        have hfuel' : rest.length < f := by
          rw [List.length_cons] at hfuel
          omega
        exact (ih (hedges _ (by omega)) (hfit.edgeAt hk) hrest hfuel').bind
          fun m₁ hm₁ => .pure hm₁

/-! ## What an insert writes -/

/-- What an insert of a transaction of epoch `e` leaves of `m`: it may add objects, and of the
objects that were there it changes only full nodes of epoch `e` among `S`. -/
structure Writes (e : UInt32) (S : List Ptr) (m m' : Mem) : Prop where
  next_le : m.heap.next ≤ m'.heap.next
  changed : ∀ q < m.heap.next, m'.heap.cells q ≠ m.heap.cells q →
    q ∈ S ∧ ∃ hash v cs, m.heap.cells q = .full hash e v cs

namespace Writes

variable {e : UInt32} {S T U : List Ptr} {m m₁ m₂ m₃ : Mem}

theorem refl (e : UInt32) (S : List Ptr) (m : Mem) : Writes e S m m :=
  ⟨le_rfl, fun _ _ h => absurd rfl h⟩

theorem cells_eq (hw : Writes e S m m') {q : Ptr} (hq : q < m.heap.next) (hqS : q ∉ S) :
    m'.heap.cells q = m.heap.cells q := by
  by_contra hne
  exact hqS (hw.changed q hq hne).1

theorem trans (h₁₂ : Writes e S m₁ m₂) (h₂₃ : Writes e T m₂ m₃) (hS : S ⊆ U)
    (hT : ∀ q ∈ T, q < m₁.heap.next → q ∈ U) : Writes e U m₁ m₃ := by
  refine ⟨h₁₂.next_le.trans h₂₃.next_le, fun q hq hne => ?_⟩
  by_cases h₂ : m₂.heap.cells q = m₁.heap.cells q
  · have hq₂ : q < m₂.heap.next := hq.trans_le h₁₂.next_le
    obtain ⟨hqT, hfull⟩ := h₂₃.changed q hq₂ (by rwa [h₂])
    exact ⟨hT q hqT hq, by rwa [h₂] at hfull⟩
  · obtain ⟨hqS, hfull⟩ := h₁₂.changed q hq h₂
    exact ⟨hS hqS, hfull⟩

theorem alloc (e : UInt32) (S : List Ptr) (m : Mem) (n : Node) :
    Writes e S m { m with heap := (m.heap.alloc n).2 } := by
  refine ⟨by simp, fun q hq hne => absurd ?_ hne⟩
  simp [Nat.ne_of_lt hq]

theorem set (hw : Writes e S m m') {b : Ptr}
    (hb : m.heap.next ≤ b ∨ (b ∈ S ∧ ∃ hash v cs, m.heap.cells b = .full hash e v cs)) (n : Node) :
    Writes e S m { m' with heap := m'.heap.set b n } := by
  refine ⟨hw.next_le, fun q hq hne => ?_⟩
  by_cases hqb : q = b
  · subst hqb
    rcases hb with hb | hb
    · exact absurd hq (not_lt.mpr hb)
    · exact hb
  · rw [Heap.set_cells, if_neg hqb] at hne
    exact hw.changed q hq hne

end Writes

/-- A run from `m` left in `m'` the tree `t` held from `r`, by objects that are new or were among
`S`. -/
def Leaves (S : List Ptr) (m : Mem) (r : Option Ptr) (t : Tree) (m' : Mem) : Prop :=
  ∃ S', Holds m'.heap r t S' ∧ (∀ q ∈ S', q < m'.heap.next) ∧ ∀ q ∈ S', q ∈ S ∨ m.heap.next ≤ q

/-- An insert from `m` left in `m'` the tree `t` held from `r`, by objects that are new or were
among `S`, and wrote only to full nodes of epoch `e` among `S`. -/
structure Placed (e : UInt32) (S : List Ptr) (m : Mem) (r : Option Ptr) (t : Tree) (m' : Mem) :
    Prop where
  writes : Writes e S m m'
  holds : Leaves S m r t m'

theorem Holds.of_writes {e : UInt32} {S S₀ : List Ptr} {m m' : Mem} {c : Option Ptr} {tr : Tree}
    (hs : Holds m.heap c tr S₀) (hbound : ∀ q ∈ S₀, q < m.heap.next) (hw : Writes e S m m')
    (hdisj : ∀ q ∈ S₀, q ∉ S) : Holds m'.heap c tr S₀ :=
  hs.frame fun q hq => hw.cells_eq (hbound q hq) (hdisj q hq)

/-! ### The objects of a full node -/

section Footprint

variable {Se : ℕ → List Ptr} {n k : ℕ} {S' : List Ptr}

theorem mem_flatMap_update {q : Ptr} (hq : q ∈ (List.range n).flatMap (Function.update Se k S')) :
    q ∈ S' ∨ q ∈ (List.range n).flatMap Se := by
  obtain ⟨i, hi, hq⟩ := List.mem_flatMap.mp hq
  by_cases hik : i = k
  · subst hik
    rw [Function.update_self] at hq
    exact .inl hq
  · rw [Function.update_of_ne hik] at hq
    exact .inr (List.mem_flatMap.mpr ⟨i, hi, hq⟩)

theorem nodup_flatMap_update (hk : k < n) (h : ((List.range n).flatMap Se).Nodup)
    (hS' : S'.Nodup) (hnew : ∀ q ∈ S', q ∈ Se k ∨ q ∉ (List.range n).flatMap Se) :
    ((List.range n).flatMap (Function.update Se k S')).Nodup := by
  obtain ⟨hnd, hpair⟩ := List.nodup_flatMap.mp h
  have hold : ∀ {i j}, i < n → j < n → i ≠ j → (Se i).Disjoint (Se j) :=
    fun hi hj hij => disjoint_of_pairwise_range hpair hi hj hij
  have hout : ∀ {j}, j < n → j ≠ k → (S').Disjoint (Se j) := by
    intro j hj hjk q hq hqj
    rcases hnew q hq with hqk | hqn
    · exact hold hk hj (Ne.symm hjk) hqk hqj
    · exact hqn (List.mem_flatMap.mpr ⟨j, List.mem_range.mpr hj, hqj⟩)
  refine List.nodup_flatMap.mpr ⟨fun i hi => ?_, List.nodup_range.pairwise_of_forall_ne ?_⟩
  · by_cases hik : i = k
    · subst hik
      rwa [Function.update_self]
    · rw [Function.update_of_ne hik]
      exact hnd i hi
  · intro i hi j hj hij
    have hi' := List.mem_range.mp hi
    have hj' := List.mem_range.mp hj
    by_cases hik : i = k
    · subst hik
      rw [Function.onFun, Function.update_self, Function.update_of_ne (Ne.symm hij)]
      exact hout hj' (Ne.symm hij)
    · by_cases hjk : j = k
      · subst hjk
        rw [Function.onFun, Function.update_self, Function.update_of_ne hij]
        exact (hout hi' hij).symm
      · rw [Function.onFun, Function.update_of_ne hik, Function.update_of_ne hjk]
        exact hold hi' hj' hij

end Footprint

theorem Holds.full_set {m₁ m₂ : Mem} {b : Ptr} {hash : List UInt8} {ep : UInt32}
    {v : Option Ptr} {cs : List (Option Ptr)} {ts : List Tree} {tv : Tree} {Se : ℕ → List Ptr}
    (hb : m₁.heap.cells b = .full hash ep v cs) (hlen : cs.length = 16) (htlen : ts.length = 16)
    (hedges : ∀ i < 17, Holds m₁.heap (fullEdge v cs i) (Tree.edgeAt ts tv i) (Se i))
    (hnodup : (b :: (List.range 17).flatMap Se).Nodup)
    (hbound : ∀ q ∈ b :: (List.range 17).flatMap Se, q < m₁.heap.next)
    {k : UInt8} (hk : k.toNat ≤ 16) {nc : Option Ptr} {tk : Tree} {S' : List Ptr}
    (hkeep : ∀ q < m₁.heap.next, q ∉ Se k.toNat → m₂.heap.cells q = m₁.heap.cells q)
    (hs' : Holds m₂.heap nc tk S') (hnew : ∀ q ∈ S', q ∈ Se k.toNat ∨ m₁.heap.next ≤ q) :
    Holds (m₂.heap.set b ((m₂.heap.cells b).setEdge k nc)) (some b)
      ((Tree.full ts tv).setEdge k.toNat tk)
      (b :: (List.range 17).flatMap (Function.update Se k.toNat S')) := by
  obtain ⟨hbS, hflat⟩ := List.nodup_cons.mp hnodup
  have hpair := (List.nodup_flatMap.mp hflat).2
  have hbk : b ∉ Se k.toNat := fun h => hbS (List.mem_flatMap.mpr ⟨_, List.mem_range.mpr (by omega), h⟩)
  have hbS' : b ∉ S' := fun h => by
    rcases hnew b h with h | h
    · exact hbk h
    · exact absurd (hbound b List.mem_cons_self) (not_lt.mpr h)
  have hfresh : ∀ q ∈ S', q ∈ Se k.toNat ∨ q ∉ (List.range 17).flatMap Se := fun q hq =>
    (hnew q hq).imp_right fun hq' hold => absurd (hbound q (List.mem_cons_of_mem _ hold))
      (not_lt.mpr hq')
  rw [hkeep b (hbound b List.mem_cons_self) hbk, hb, Node.setEdge_full, Tree.setEdge_full]
  refine .full (by rw [Heap.set_cells, if_pos rfl]) ?_ ?_ (fun i hi => ?_) ?_
  · split <;> simp [hlen]
  · split <;> simp [htlen]
  · rw [fullEdge_set hlen _ _ hk, Tree.edgeAt_set htlen _ _ hk]
    by_cases hik : i = k.toNat
    · subst hik
      rw [if_pos rfl, if_pos rfl, Function.update_self]
      exact hs'.frame fun q hq => by rw [Heap.set_cells, if_neg fun h : q = b => hbS' (h ▸ hq)]
    · rw [if_neg hik, if_neg hik, Function.update_of_ne hik]
      refine (hedges i hi).frame fun q hq => ?_
      have hqb : q ≠ b := fun h => hbS (List.mem_flatMap.mpr ⟨i, List.mem_range.mpr hi, h ▸ hq⟩)
      rw [Heap.set_cells, if_neg hqb]
      exact hkeep q (hbound q (Holds.mem_of_edge hi hq))
        fun hqk => disjoint_of_pairwise_range hpair hi (by omega) hik hq hqk
  · refine List.nodup_cons.mpr ⟨fun h => ?_, nodup_flatMap_update (by omega) hflat hs'.nodup hfresh⟩
    rcases mem_flatMap_update h with h | h
    · exact hbS' h
    · exact hbS h

theorem flatMap_range_single {k n : ℕ} (hk : k < n) (S' : List Ptr) :
    (List.range n).flatMap (Function.update (fun _ => []) k S') = S' := by
  induction n with
  | zero => omega
  | succ n ih =>
    rw [List.range_succ, List.flatMap_append, List.flatMap_singleton]
    by_cases hkn : k = n
    · subst hkn
      rw [Function.update_self, List.flatMap_eq_nil_iff.mpr fun i hi =>
        Function.update_of_ne (Nat.ne_of_lt (List.mem_range.mp hi)) _ _, List.nil_append]
    · rw [ih (by omega), Function.update_of_ne (Ne.symm hkn), List.append_nil]

theorem edge_empty {α : Type} (d : α) (i : ℕ) :
    (if i = 16 then d else (List.replicate 16 d).getD i d) = d := by
  split_ifs
  · rfl
  · rw [List.getD_eq_getElem?_getD, List.getElem?_replicate]
    split_ifs <;> rfl

theorem Holds.full_single {h : Heap Node} {b : Ptr} {e : UInt32} {k : UInt8} (hk : k.toNat ≤ 16)
    {c : Option Ptr} {tc : Tree} {S : List Ptr}
    (hb : h.cells b = (Node.full [] e none (List.replicate 16 none)).setEdge k c)
    (hc : Holds h c tc S) (hbS : b ∉ S) :
    Holds h (some b) ((Tree.full (List.replicate 16 .nil) .nil).setEdge k.toNat tc) (b :: S) := by
  have hflat := flatMap_range_single (n := 17) (by omega : k.toNat < 17) S
  rw [Node.setEdge_full] at hb
  have hfull : Holds h (some b) ((Tree.full (List.replicate 16 .nil) .nil).setEdge k.toNat tc)
      (b :: (List.range 17).flatMap (Function.update (fun _ => []) k.toNat S)) := by
    rw [Tree.setEdge_full]
    refine .full hb (by split <;> simp) (by split <;> simp) (fun i hi => ?_) ?_
    · rw [fullEdge_set (by simp) _ _ hk, Tree.edgeAt_set (by simp) _ _ hk]
      by_cases hik : i = k.toNat
      · subst hik
        rw [if_pos rfl, if_pos rfl, Function.update_self]
        exact hc
      · rw [if_neg hik, if_neg hik, Function.update_of_ne hik, fullEdge, edge_empty, Tree.edgeAt_empty]
        exact .nil
    · rw [hflat]
      exact hc.nodup.cons hbS
  rwa [hflat] at hfull

namespace Leaves

variable {S : List Ptr} {m m₁ m' : Mem} {r : Option Ptr} {tr : Tree}

theorem of_holds (hs : Holds m.heap r tr S) (hbound : ∀ q ∈ S, q < m.heap.next) :
    Leaves S m r tr m :=
  ⟨S, hs, hbound, fun _ hq => .inl hq⟩

theorem after {S₁ : List Ptr} (hnext : m.heap.next ≤ m₁.heap.next) (h : Leaves S₁ m₁ r tr m')
    (hS₁ : ∀ q ∈ S₁, q ∈ S ∨ m.heap.next ≤ q) : Leaves S m r tr m' := by
  obtain ⟨S', hs', hb', hw'⟩ := h
  refine ⟨S', hs', hb', fun q hq => ?_⟩
  rcases hw' q hq with h | h
  · exact hS₁ q h
  · exact .inr (hnext.trans h)

theorem alloc_short {c : Ptr} (h : Leaves S m (some c) tr m') (hnext : m.heap.next ≤ m'.heap.next)
    (key : List UInt8) :
    Leaves S m (some m'.heap.next) (.short key tr)
      { m' with heap := (m'.heap.alloc (.short [] key (some c))).2 } := by
  obtain ⟨S', hs', hb', hw'⟩ := h
  have hfresh : m'.heap.next ∉ S' := fun h => lt_irrefl _ (hb' _ h)
  refine ⟨m'.heap.next :: S', .short (by rw [Heap.alloc_cells, if_pos rfl])
    (hs'.frame fun q hq => ?_) hfresh, fun q hq => ?_, fun q hq => ?_⟩
  · rw [Heap.alloc_cells, if_neg (Nat.ne_of_lt (hb' q hq))]
  · rcases List.mem_cons.mp hq with rfl | hq
    · simp
    · exact (hb' q hq).trans (by simp)
  · rcases List.mem_cons.mp hq with rfl | hq
    · exact .inr hnext
    · exact hw' q hq

end Leaves

namespace Placed

variable {e : UInt32} {S T : List Ptr} {m m₁ m' : Mem} {r : Option Ptr} {tr : Tree}

theorem of_holds (hs : Holds m.heap r tr S) (hbound : ∀ q ∈ S, q < m.heap.next) :
    Placed e S m r tr m :=
  ⟨Writes.refl _ _ _, Leaves.of_holds hs hbound⟩

theorem after {S₁ : List Ptr} (hw : Writes e T m m₁) (h : Placed e S₁ m₁ r tr m')
    (hT : T ⊆ S) (hS₁ : ∀ q ∈ S₁, q ∈ S ∨ m.heap.next ≤ q) : Placed e S m r tr m' :=
  ⟨hw.trans h.writes hT fun q hq hqm => (hS₁ q hq).resolve_right (not_le.mpr hqm),
    h.holds.after hw.next_le hS₁⟩

theorem mono (h : Placed e S m r tr m') (hST : S ⊆ T) : Placed e T m r tr m' :=
  after (Writes.refl e [] m) h (List.nil_subset _) fun _ hq => .inl (hST hq)

theorem alloc_short {c : Ptr} (h : Placed e S m (some c) tr m') (key : List UInt8) :
    Placed e S m (some m'.heap.next) (.short key tr)
      { m' with heap := (m'.heap.alloc (.short [] key (some c))).2 } :=
  ⟨h.writes.trans (Writes.alloc e [] m' _) (List.Subset.refl _) (fun _ hq => by simp at hq),
    h.holds.alloc_short h.writes.next_le key⟩

end Placed

theorem writeNode_full {m : Mem} {p : Ptr} {hash : List UInt8} {ep : UInt32} {v : Option Ptr}
    {cs : List (Option Ptr)} (hp : m.heap.cells p = .full hash ep v cs) (hpn : p < m.heap.next) :
    ∃ b, Completes (t.writeNode p) m b fun m₁ => Writes t.epoch [] m m₁ ∧
      (∃ hash', m₁.heap.cells b = .full hash' t.epoch v cs) ∧ b < m₁.heap.next ∧
      (b = p ∧ ep = t.epoch ∨ m.heap.next ≤ b) := by
  by_cases hep : t.epoch = ep
  · subst hep
    exact ⟨p, m, writeNode_of_epoch hp, Writes.refl _ _ _, ⟨hash, hp⟩, hpn, .inl ⟨rfl, rfl⟩⟩
  · refine ⟨m.heap.next, { m with heap := (m.heap.alloc (.full [] t.epoch v cs)).2 }, ?_,
      Writes.alloc _ _ _ _, ⟨[], by simp⟩, by simp, .inr le_rfl⟩
    simp [Txn.writeNode, getCell, hp, hep, alloc]

/-! ## Inserts -/

theorem placed_value (S : List Ptr) (m : Mem) (value : List UInt8) :
    Placed t.epoch S m (some m.heap.next) (.value value)
      { m with heap := (m.heap.alloc (.value false value)).2 } :=
  ⟨Writes.alloc _ _ _ _, [m.heap.next], .value (by simp), by simp, by simp⟩

theorem insertNode_none_value (f : ℕ) (value : List UInt8) (m : Mem) :
    Completes (t.insertNode (f + 1) none [] value) m (some m.heap.next)
      (Placed t.epoch [] m (some m.heap.next) (.value value)) := by
  rw [Txn.insertNode, if_pos rfl]
  exact ((alloc_completes _ m).map some).mono fun _ h => by
    subst h
    exact placed_value [] m value

theorem Holds.insertNode_full {fuel : ℕ} {m : Mem} {p : Ptr} {ts : List Tree} {tv : Tree}
    {S : List Ptr} (hs : Holds m.heap (some p) (.full ts tv) S) (hbound : ∀ q ∈ S, q < m.heap.next)
    {k : UInt8} (hk : k.toNat ≤ 16) {rest value : List UInt8} {P : Tree → Prop}
    (hsub : ∀ (m₁ : Mem) c S₀, Holds m₁.heap c (Tree.edgeAt ts tv k.toNat) S₀ →
      (∀ q ∈ S₀, q < m₁.heap.next) → ∃ nc, Completes (t.insertNode fuel c rest value) m₁ nc
        fun m₂ => ∃ tk, P tk ∧ Placed t.epoch S₀ m₁ nc tk m₂) :
    ∃ b, Completes (t.insertNode (fuel + 1) (some p) (k :: rest) value) m (some b)
      fun m' => ∃ tk, P tk ∧
        Placed t.epoch S m (some b) ((Tree.full ts tv).setEdge k.toNat tk) m' := by
  cases hs with
  | @full _ hash ep v cs _ _ Se hp hlen htlen hedges hnodup =>
  obtain ⟨b, m₁, hrun₁, hw₁, ⟨hash', hb⟩, hb₁, hbp⟩ :=
    writeNode_full (t := t) hp (hbound p List.mem_cons_self)
  have hold : ∀ q ∈ (List.range 17).flatMap Se, q < m.heap.next :=
    fun q hq => hbound q (List.mem_cons_of_mem _ hq)
  have hbS : b ∉ (List.range 17).flatMap Se := by
    rcases hbp with ⟨rfl, -⟩ | hfresh
    · exact (List.nodup_cons.mp hnodup).1
    · exact fun h => absurd (hold b h) (not_lt.mpr hfresh)
  have hedges₁ : ∀ i < 17, Holds m₁.heap (fullEdge v cs i) (Tree.edgeAt ts tv i) (Se i) :=
    fun i hi => (hedges i hi).of_writes
      (fun q hq => hold q (List.mem_flatMap.mpr ⟨i, List.mem_range.mpr hi, hq⟩)) hw₁
      fun _ _ => List.not_mem_nil
  have hbound₁ : ∀ q ∈ b :: (List.range 17).flatMap Se, q < m₁.heap.next := by
    intro q hq
    rcases List.mem_cons.mp hq with rfl | hq
    · exact hb₁
    · exact (hold q hq).trans_le hw₁.next_le
  obtain ⟨nc, m₂, hrun₂, tk, hP, hpl⟩ := hsub m₁ _ _ (hedges₁ _ (by omega))
    fun q hq => hbound₁ q (Holds.mem_of_edge (by omega) hq)
  obtain ⟨S', hs', hb', hw'⟩ := hpl.holds
  refine ⟨b, ?_⟩
  rw [Txn.insertNode]
  refine (getCell_completes _ m).bind fun m₀ hm₀ => ?_
  subst m₀
  rw [hp]
  dsimp only
  refine Completes.bind (P := (· = m₁)) ⟨m₁, hrun₁, rfl⟩ fun _ h => ?_
  subst h
  rw [Node.getEdge_full]
  refine Completes.bind (P := (· = m₂)) ⟨m₂, hrun₂, rfl⟩ fun _ h => ?_
  subst h
  refine (modifyCell_completes _ _ _).bind fun m₃ hm₃ => ?_
  subst m₃
  refine .pure ⟨tk, hP, ?_, b :: (List.range 17).flatMap (Function.update Se k.toNat S'), ?_, ?_, ?_⟩
  · refine (hw₁.trans hpl.writes (List.nil_subset _)
      fun q hq _ => Holds.mem_of_edge (by omega) hq).set ?_ _
    rcases hbp with ⟨rfl, rfl⟩ | hfresh
    · exact .inr ⟨List.mem_cons_self, hash, v, cs, hp⟩
    · exact .inl hfresh
  · exact Holds.full_set hb hlen htlen hedges₁
      (List.nodup_cons.mpr ⟨hbS, (List.nodup_cons.mp hnodup).2⟩) hbound₁ hk
      (fun q hq hqk => hpl.writes.cells_eq hq hqk) hs' hw'
  · intro q hq
    rw [Heap.set_next]
    rcases List.mem_cons.mp hq with rfl | hq
    · exact hb₁.trans_le hpl.writes.next_le
    · rcases mem_flatMap_update hq with h | h
      · exact hb' q h
      · exact (hbound₁ q (List.mem_cons_of_mem _ h)).trans_le hpl.writes.next_le
  · intro q hq
    rcases List.mem_cons.mp hq with rfl | hq
    · rcases hbp with ⟨rfl, -⟩ | hfresh
      · exact .inl List.mem_cons_self
      · exact .inr hfresh
    · rcases mem_flatMap_update hq with h | h
      · rcases hw' q h with h | h
        · exact .inl (Holds.mem_of_edge (by omega) h)
        · exact .inr (hw₁.next_le.trans h)
      · exact .inl (List.mem_cons_of_mem _ h)

theorem Holds.insertNode_short {fuel : ℕ} {m : Mem} {p : Ptr} {key : List UInt8} {tc : Tree}
    {S : List Ptr} (hs : Holds m.heap (some p) (.short key tc) S)
    (hbound : ∀ q ∈ S, q < m.heap.next) {s value : List UInt8}
    (hplen : prefixLen s key = key.length) {P : Tree → Prop}
    (hsub : ∀ c Sc, Holds m.heap c tc Sc → (∀ q ∈ Sc, q < m.heap.next) →
      ∃ nc, Completes (t.insertNode fuel c (s.drop key.length) value) m (some nc)
        fun m' => ∃ tc', P tc' ∧ Placed t.epoch Sc m (some nc) tc' m') :
    ∃ r, Completes (t.insertNode (fuel + 1) (some p) s value) m (some r)
      fun m' => ∃ tc', P tc' ∧ Placed t.epoch S m (some r) (.short key tc') m' := by
  cases hs with
  | @short _ c hash _ _ Sc hp hc hpS =>
  obtain ⟨nc, m₁, hrun₁, tc', hP, hpl⟩ :=
    hsub _ _ hc fun q hq => hbound q (List.mem_cons_of_mem _ hq)
  refine ⟨m₁.heap.next, ?_⟩
  rw [Txn.insertNode]
  refine (getCell_completes _ m).bind fun m₀ hm₀ => ?_
  subst m₀
  rw [hp]
  dsimp only
  rw [if_pos hplen, hplen]
  refine Completes.bind (P := (· = m₁)) ⟨m₁, hrun₁, rfl⟩ fun _ h => ?_
  subst h
  refine ((alloc_completes _ _).map some).mono fun _ h => ?_
  subst h
  exact ⟨tc', hP, (hpl.alloc_short key).mono (List.subset_cons_self _ _)⟩

theorem bind_of_ite {M : Type → Type} [Monad M] {α β : Type} (c : Prop) [Decidable c] (x y : M α)
    (f : α → M β) : (if c then x >>= f else y >>= f) = (if c then x else y) >>= f := by
  split <;> rfl

theorem Holds.insertNode_split {fuel : ℕ} {m : Mem} {p : Ptr} {key : List UInt8} {tc : Tree}
    {S : List Ptr} (hs : Holds m.heap (some p) (.short key tc) S)
    (hbound : ∀ q ∈ S, q < m.heap.next) {s value : List UInt8}
    (hlt : prefixLen s key < key.length) (hk : (key.getD (prefixLen s key) 0).toNat ≤ 16)
    {P : Tree → Prop}
    (hsub : ∀ (m₂ : Mem) b S₂, Holds m₂.heap (some b) (Tree.splitAt key tc (prefixLen s key)) S₂ →
      (∀ q ∈ S₂, q < m₂.heap.next) →
      ∃ nc, Completes (t.insertNode fuel (some b) (s.drop (prefixLen s key)) value) m₂ (some nc)
        fun m' => ∃ tb, P tb ∧ Placed t.epoch S₂ m₂ (some nc) tb m') :
    ∃ r, Completes (t.insertNode (fuel + 1) (some p) s value) m (some r) fun m' => ∃ tb, P tb ∧
      Placed t.epoch S m (some r)
        (if prefixLen s key = 0 then tb else .short (s.take (prefixLen s key)) tb) m' := by
  cases hs with
  | @short _ c hash _ _ Sc hp hc hpS =>
  have hold : ∀ q ∈ Sc, q < m.heap.next := fun q hq => hbound q (List.mem_cons_of_mem _ hq)
  obtain ⟨eptr, m₁, hrun₁, hpl₁⟩ : ∃ eptr, Completes
      (if key.length > prefixLen s key + 1 then
        some <$> alloc (.short [] (key.drop (prefixLen s key + 1)) (some c))
      else pure (some c)) m eptr
      (Placed t.epoch Sc m eptr (if key.length > prefixLen s key + 1 then
        .short (key.drop (prefixLen s key + 1)) tc else tc)) := by
    by_cases hlong : key.length > prefixLen s key + 1
    · rw [if_pos hlong, if_pos hlong]
      exact ⟨_, ((alloc_completes _ m).map some).mono fun _ h => by
        subst h
        exact (Placed.of_holds hc hold).alloc_short _⟩
    · rw [if_neg hlong, if_neg hlong]
      exact ⟨_, .pure (Placed.of_holds hc hold)⟩
  obtain ⟨Se, hse, hseb, hsew⟩ := hpl₁.holds
  have hbSe : m₁.heap.next ∉ Se := fun h => lt_irrefl _ (hseb _ h)
  have halloc := Writes.alloc t.epoch [] m₁
    ((Node.full [] t.epoch none (List.replicate 16 none)).setEdge (key.getD (prefixLen s key) 0) eptr)
  have hs₂ := Holds.full_single hk (by rw [Heap.alloc_cells, if_pos rfl])
    (hse.of_writes hseb halloc fun _ _ => List.not_mem_nil) hbSe
  obtain ⟨nc, m₃, hrun₃, tb, hP, hpl₃⟩ := hsub _ _ _ hs₂ fun q hq => by
    rcases List.mem_cons.mp hq with rfl | hq
    · simp
    · exact (hseb q hq).trans (by simp)
  have hpl : Placed t.epoch (p :: Sc) m (some nc) tb m₃ := by
    refine Placed.after (hpl₁.writes.trans halloc (List.Subset.refl _) fun _ hq => by simp at hq)
      hpl₃ (List.subset_cons_self _ _) fun q hq => ?_
    rcases List.mem_cons.mp hq with rfl | hq
    · exact .inr hpl₁.writes.next_le
    · exact (hsew q hq).imp_left (List.mem_cons_of_mem _)
  refine ⟨if prefixLen s key = 0 then nc else m₃.heap.next, ?_⟩
  rw [Txn.insertNode]
  refine (getCell_completes _ m).bind fun m₀ hm₀ => ?_
  subst m₀
  rw [hp]
  dsimp only
  rw [if_neg (Nat.ne_of_lt hlt), bind_of_ite]
  refine Completes.bind (P := (· = m₁)) ⟨m₁, hrun₁, rfl⟩ fun _ h => ?_
  subst h
  refine (alloc_completes _ _).bind fun _ h => ?_
  subst h
  refine Completes.bind (P := (· = m₃)) ⟨m₃, hrun₃, rfl⟩ fun _ h => ?_
  subst h
  by_cases h0 : prefixLen s key = 0
  · simp only [if_pos h0]
    exact .pure ⟨tb, hP, hpl⟩
  · simp only [if_neg h0]
    exact ((alloc_completes _ _).map some).mono fun _ h => by
      subst h
      exact ⟨tb, hP, hpl.alloc_short _⟩

theorem Placed.exists_map {e : UInt32} {S : List Ptr} {m m' : Mem} {r : Option Ptr}
    {P Q : Tree → Prop} {g : Tree → Tree} (hPQ : ∀ tk, P tk → Q (g tk))
    (h : ∃ tk, P tk ∧ Placed e S m r (g tk) m') : ∃ tr', Q tr' ∧ Placed e S m r tr' m' := by
  obtain ⟨tk, hP, hpl⟩ := h
  exact ⟨g tk, hPQ tk hP, hpl⟩

theorem Holds.insertNode : ∀ (fuel : ℕ) {m : Mem} {c : Option Ptr} {tr : Tree} {S : List Ptr}
    {done : Bool} {s : List UInt8} (value : List UInt8), Holds m.heap c tr S →
    (∀ q ∈ S, q < m.heap.next) → tr.Fit done → Keyed done s → 2 * s.length + 2 ≤ fuel →
    ∃ p, Completes (t.insertNode fuel c s value) m (some p)
      fun m' => ∃ tr', tr.Sets done tr' s (some value) ∧ Placed t.epoch S m (some p) tr' m' := by
  intro fuel
  induction fuel using Nat.strong_induction_on with
  | _ fuel ih =>
  intro m c tr S done s value hs hbound hfit hkey hfuel
  obtain ⟨f, rfl⟩ : ∃ f, fuel = f + 1 := ⟨fuel - 1, by omega⟩
  have hstep : ∀ f' < f + 1, ∀ {m : Mem} {b : Ptr} {ts : List Tree} {tv : Tree} {S : List Ptr}
      {k : UInt8} {rest : List UInt8}, Holds m.heap (some b) (.full ts tv) S →
      (∀ q ∈ S, q < m.heap.next) → (Tree.full ts tv).Fit false → Keyed false (k :: rest) →
      2 * rest.length + 2 ≤ f' →
      ∃ r, Completes (t.insertNode (f' + 1) (some b) (k :: rest) value) m (some r) fun m' =>
        ∃ tr', (Tree.full ts tv).Sets false tr' (k :: rest) (some value) ∧
          Placed t.epoch S m (some r) tr' m' := by
    intro f' hf' m b ts tv S k rest hs hbound hfit hkey hfuel
    obtain ⟨hk, hrest⟩ := hkey.cons
    obtain ⟨r, hr⟩ := Holds.insertNode_full hs hbound hk
      (P := fun tk => (Tree.edgeAt ts tv k.toNat).Sets (decide (k.toNat = 16)) tk rest (some value))
      fun _ _ _ hs₀ hb₀ => by
        obtain ⟨p', hp'⟩ := ih f' hf' value hs₀ hb₀ (hfit.edgeAt hk) hrest hfuel
        exact ⟨some p', hp'⟩
    exact ⟨r, hr.mono fun _ => Placed.exists_map fun _ hput => Tree.Sets.edge hfit hkey hput⟩
  cases tr with
  | nil =>
    obtain ⟨rfl, rfl⟩ := hs.of_nil
    cases done with
    | true =>
      obtain rfl : s = [] := hkey
      exact ⟨_, (insertNode_none_value f value m).mono fun _ h => ⟨_, .closed _ _, h⟩⟩
    | false =>
      have hlen : 0 < s.length := List.length_pos_iff.mpr hkey.ne_nil
      obtain ⟨f', rfl⟩ : ∃ f', f = f' + 1 := ⟨f - 1, by omega⟩
      obtain ⟨m₁, hrun₁, hm₁⟩ := insertNode_none_value (t := t) f' value m
      refine ⟨m₁.heap.next, ?_⟩
      rw [Txn.insertNode, if_neg hkey.ne_nil]
      refine Completes.bind (P := (· = m₁)) ⟨m₁, hrun₁, rfl⟩ fun _ h => ?_
      subst h
      exact ((alloc_completes _ _).map some).mono fun _ h => by
        subst h
        exact ⟨_, .leaf hkey value, hm₁.alloc_short s⟩
  | value buf =>
    obtain rfl := hfit.value_done
    obtain rfl : s = [] := hkey
    cases hs with
    | value hp =>
    refine ⟨m.heap.next, ?_⟩
    rw [Txn.insertNode]
    refine (getCell_completes _ m).bind fun m₀ hm₀ => ?_
    subst m₀
    rw [hp]
    dsimp only
    rw [if_neg Bool.false_ne_true, if_pos rfl]
    exact ((alloc_completes _ m).map some).mono fun _ h => by
      subst h
      exact ⟨_, .closed _ _, placed_value _ m value⟩
  | short key tc =>
    obtain rfl := hfit.short_done
    obtain ⟨p, rfl⟩ := hs.exists_some (by simp)
    have hkey0 : 0 < key.length := List.length_pos_iff.mpr hfit.short_ne_nil
    by_cases hplen : prefixLen s key = key.length
    · have hpre : key <+: s := prefix_of_prefixLen hplen
      have hfuel' : 2 * (s.drop key.length).length + 2 ≤ f := by
        have := hpre.length_le
        rw [List.length_drop]
        omega
      obtain ⟨r, hr⟩ := Holds.insertNode_short hs hbound hplen
        (P := fun tc' => tc.Sets (decide ((16 : UInt8) ∈ key)) tc' (s.drop key.length) (some value))
        fun _ _ hc hbc =>
          ih f (by omega) value hc hbc hfit.short_child (hfit.keyed_drop hkey hpre) hfuel'
      exact ⟨r, hr.mono fun _ => Placed.exists_map fun _ hput => Tree.Sets.short hfit hpre hput⟩
    · have hlt : prefixLen s key < key.length :=
        lt_of_le_of_ne (prefixLen_le_right s key) hplen
      have hjs := hfit.prefixLen_lt_length hkey hlt
      obtain ⟨k', rest', hdrop⟩ := List.exists_cons_of_ne_nil (hkey.drop hjs).ne_nil
      have hkeyd : Keyed false (k' :: rest') := hdrop ▸ hkey.drop hjs
      have hrest' : rest'.length + 1 = s.length - prefixLen s key := by
        rw [← List.length_drop, hdrop, List.length_cons]
      obtain ⟨ts', tv', hsplit⟩ : ∃ ts' tv', Tree.splitAt key tc (prefixLen s key) = .full ts' tv' :=
        ⟨_, _, by rw [Tree.splitAt, Tree.setEdge_full]⟩
      obtain ⟨f', rfl⟩ : ∃ f', f = f' + 1 := ⟨f - 1, by omega⟩
      obtain ⟨r, hr⟩ := Holds.insertNode_split hs hbound hlt (hfit.getD_le _)
        (P := fun tb => (Tree.splitAt key tc (prefixLen s key)).Sets false tb
          (s.drop (prefixLen s key)) (some value))
        fun _ _ _ hs₂ hb₂ => by
          rw [hsplit] at hs₂ ⊢
          rw [hdrop]
          exact hstep f' (by omega) hs₂ hb₂ (hsplit ▸ hfit.splitAt hlt) hkeyd (by omega)
      exact ⟨r, hr.mono fun _ => Placed.exists_map fun _ hput => Tree.Sets.split hfit hkey hlt hput⟩
  | full ts tv =>
    obtain ⟨rfl, -⟩ := hfit.full_inv
    obtain ⟨p, rfl⟩ := hs.exists_some (by simp)
    cases s with
    | nil => exact absurd rfl hkey.ne_nil
    | cons k rest =>
      rw [List.length_cons] at hfuel
      exact hstep f (by omega) hs hbound hfit hkey (by omega)

end ImmutableTrie
