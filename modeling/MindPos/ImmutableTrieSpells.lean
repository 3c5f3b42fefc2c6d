import MindPos.ImmutableTrieCache

/-! # The tree a transaction's objects spell

The objects a transaction allocates and has not hashed form a tree: each is reached from the root
once, none caches a hash, and every full node is of the transaction's epoch. `Spells` relates such
objects to the `Tree` they stand for and to the pointers they occupy, and a run that writes to no
object of those pointers keeps it. `Txn.hashNode` computes the item of a spelled tree; the run
lemmas of `Txn.insertNode` say what an insert through an empty edge, a full node of the epoch and
a short node split at its first nibble leaves spelled. -/
namespace ImmutableTrie

open RlpEncoding PointerCells StateExcept Keccak

/-- A trie as a value, without objects, epochs or caches. -/
inductive Tree where
  | nil
  | value (buf : List UInt8)
  | short (key : List UInt8) (child : Tree)
  | full (children : List Tree) (value : Tree)

instance : Inhabited Tree := ⟨.nil⟩

def Tree.stored (val : Value) : Value :=
  if val.len < 32 then val else .bytes (keccak256 (encode val))

def Tree.item : Tree → Value
  | .nil => .bytes []
  | .value buf => .bytes buf
  | .short key c => stored (.array [.bytes (encodeCompact key), c.item])
  | .full cs v => stored (.array (cs.map item ++ [v.item]))

@[simp] theorem Tree.item_nil : Tree.nil.item = .bytes [] := by
  rw [Tree.item]

/-- The objects behind `node` in `h` spell `t` and occupy the pointers `S`, each once. None caches
a hash, every short node has a child, and every full node is of epoch `e`, with sixteen
children. -/
inductive Spells (h : Heap Node) (e : UInt32) : Option Ptr → Tree → List Ptr → Prop
  | nil : Spells h e none .nil []
  | value {p : Ptr} {buf : List UInt8} (hp : h.cells p = .value false buf) :
      Spells h e (some p) (.value buf) [p]
  | short {p c : Ptr} {key : List UInt8} {t : Tree} {S : List Ptr}
      (hp : h.cells p = .short [] key (some c)) (hc : Spells h e (some c) t S) (hpS : p ∉ S) :
      Spells h e (some p) (.short key t) (p :: S)
  | full {p : Ptr} {v : Option Ptr} {cs : List (Option Ptr)} {tv : Tree} {ts : List Tree}
      {Sv : List Ptr} {Sc : ℕ → List Ptr}
      (hp : h.cells p = .full [] e v cs) (hlen : cs.length = 16) (htlen : ts.length = 16)
      (hcs : ∀ i < 16, Spells h e (cs.getD i none) (ts.getD i .nil) (Sc i))
      (hv : Spells h e v tv Sv) (hnodup : (p :: ((List.range 16).flatMap Sc ++ Sv)).Nodup) :
      Spells h e (some p) (.full ts tv) (p :: ((List.range 16).flatMap Sc ++ Sv))

namespace Spells

variable {h h' : Heap Node} {e : UInt32} {c : Option Ptr} {t : Tree} {S : List Ptr}

theorem nodup (hs : Spells h e c t S) : S.Nodup := by
  induction hs with
  | nil => exact List.nodup_nil
  | value => exact List.nodup_singleton _
  | short _ _ hpS ih => exact ih.cons hpS
  | full _ _ _ _ _ hnodup => exact hnodup

theorem mem_of_child {Sc : ℕ → List Ptr} {Sv : List Ptr} {p q : Ptr} {i : ℕ} (hi : i < 16)
    (hq : q ∈ Sc i) : q ∈ p :: ((List.range 16).flatMap Sc ++ Sv) :=
  List.mem_cons_of_mem _ (List.mem_append_left _ (List.mem_flatMap.mpr ⟨i, List.mem_range.mpr hi, hq⟩))

theorem frame (hs : Spells h e c t S) (hkeep : ∀ q ∈ S, h'.cells q = h.cells q) :
    Spells h' e c t S := by
  induction hs with
  | nil => exact .nil
  | value hp => exact .value ((hkeep _ (List.mem_singleton_self _)).trans hp)
  | short hp _ hpS ih =>
    exact .short ((hkeep _ List.mem_cons_self).trans hp)
      (ih fun q hq => hkeep q (List.mem_cons_of_mem _ hq)) hpS
  | full hp hlen htlen _ _ hnodup ihc ihv =>
    refine .full ((hkeep _ List.mem_cons_self).trans hp) hlen htlen
      (fun i hi => ihc i hi fun q hq => hkeep q (mem_of_child hi hq))
      (ihv fun q hq => hkeep q ?_) hnodup
    exact List.mem_cons_of_mem _ (List.mem_append_right _ hq)

theorem eq_nil_of_none (hs : Spells h e none t S) : t = .nil ∧ S = [] := by
  cases hs
  exact ⟨rfl, rfl⟩

theorem of_nil (hs : Spells h e c .nil S) : c = none ∧ S = [] := by
  cases hs
  exact ⟨rfl, rfl⟩

theorem exists_some (hs : Spells h e c t S) (ht : t ≠ .nil) : ∃ p, c = some p := by
  cases c with
  | none => exact absurd hs.eq_nil_of_none.1 ht
  | some p => exact ⟨p, rfl⟩

end Spells

/-! ## Hashing -/

/-- `m'` has the objects of `m` outside `S`, no others, and the batch of `m`: what hashing the
objects of `S` leaves. -/
def OnlyWrites (S : List Ptr) (m m' : Mem) : Prop :=
  m'.batch = m.batch ∧ m'.heap.next = m.heap.next ∧ ∀ q ∉ S, m'.heap.cells q = m.heap.cells q

theorem OnlyWrites.refl (S : List Ptr) (m : Mem) : OnlyWrites S m m :=
  ⟨rfl, rfl, fun _ _ => rfl⟩

theorem OnlyWrites.trans {S T U : List Ptr} {m₁ m₂ m₃ : Mem} (h₁₂ : OnlyWrites S m₁ m₂)
    (h₂₃ : OnlyWrites T m₂ m₃) (hS : S ⊆ U) (hT : T ⊆ U) : OnlyWrites U m₁ m₃ :=
  ⟨h₂₃.1.trans h₁₂.1, h₂₃.2.1.trans h₁₂.2.1,
    fun q hq => (h₂₃.2.2 q fun h => hq (hT h)).trans (h₁₂.2.2 q fun h => hq (hS h))⟩

theorem getCell_completes (p : Ptr) (m : Mem) : Completes (getCell p) m (m.heap.cells p) (· = m) :=
  ⟨m, rfl, rfl⟩

section Hash

variable {t : Txn} {h : Heap Node} {e : UInt32}

theorem store_completes (hbatch : t.batch = false) (p : Ptr) (val : Value) (m : Mem) :
    Completes (t.store p val) m (Tree.stored val) (OnlyWrites [p] m) := by
  unfold Txn.store Tree.stored
  by_cases hlen : val.len < 32
  · rw [if_pos hlen, if_pos hlen]
    exact Completes.pure (OnlyWrites.refl _ _)
  · rw [if_neg hlen, if_neg hlen]
    refine ⟨{ m with heap := m.heap.set p ((m.heap.cells p).setHash (keccak256 (encode val))) },
      ?_, rfl, rfl, ?_⟩
    · simp [modifyCell, hbatch]
    · intro q hq
      rw [Heap.set_cells, if_neg (List.ne_of_not_mem_cons hq)]

theorem mapM_completes {f : Option Ptr → TrieM Value} {cs : List (Option Ptr)} :
    ∀ (ts : List Tree) (Sc : ℕ → List Ptr), cs.length = ts.length →
      (∀ i < cs.length, ∀ m : Mem, (∀ q ∈ Sc i, m.heap.cells q = h.cells q) →
        Completes (f (cs.getD i none)) m (ts.getD i .nil).item (OnlyWrites (Sc i) m)) →
      (List.range cs.length).Pairwise (fun i j => (Sc i).Disjoint (Sc j)) →
      ∀ m : Mem, (∀ i < cs.length, ∀ q ∈ Sc i, m.heap.cells q = h.cells q) →
        Completes (cs.mapM f) m (ts.map Tree.item)
          (OnlyWrites ((List.range cs.length).flatMap Sc) m) := by
  induction cs with
  | nil =>
    rintro (_ | _) Sc hlen - - m -
    · exact Completes.pure (OnlyWrites.refl _ _)
    · cases hlen
  | cons c cs ih =>
    rintro (_ | ⟨t, ts⟩) Sc hlen hf hdisj m hagree
    · cases hlen
    rw [List.length_cons, List.range_succ_eq_map, List.pairwise_cons, List.pairwise_map] at hdisj
    rw [List.mapM_cons]
    refine (hf 0 (Nat.succ_pos _) m (hagree 0 (Nat.succ_pos _))).bind fun m₁ hm₁ => ?_
    have hagree₁ : ∀ i < cs.length, ∀ q ∈ Sc (i + 1), m₁.heap.cells q = h.cells q := by
      intro i hi q hq
      have hq0 : q ∉ Sc 0 := fun h0 =>
        hdisj.1 (i + 1) (List.mem_map_of_mem (List.mem_range.mpr hi)) h0 hq
      rw [hm₁.2.2 q hq0]
      exact hagree (i + 1) (Nat.succ_lt_succ hi) q hq
    refine (ih ts (fun i => Sc (i + 1)) (Nat.succ.inj hlen)
      (fun i hi m' hm' => hf (i + 1) (Nat.succ_lt_succ hi) m' hm') hdisj.2 m₁ hagree₁).bind
      fun m₂ hm₂ => Completes.pure (hm₁.trans hm₂ ?_ ?_)
    all_goals
      intro q hq
      rw [List.length_cons, List.range_succ_eq_map, List.flatMap_cons, List.flatMap_map]
    · exact List.mem_append_left _ hq
    · exact List.mem_append_right _ hq

theorem length_le_of_subset {S T : List Ptr} (hS : S.Nodup) (hST : S ⊆ T) : S.length ≤ T.length :=
  (hS.subperm hST).length_le

theorem Spells.hashNode_completes (hbatch : t.batch = false) {c : Option Ptr} {tr : Tree}
    {S : List Ptr} (hs : Spells h e c tr S) :
    ∀ p, c = some p → ∀ fuel, S.length ≤ fuel → ∀ m : Mem, (∀ q ∈ S, m.heap.cells q = h.cells q) →
      Completes (t.hashNode fuel (some p)) m tr.item (OnlyWrites S m) := by
  induction hs with
  | nil => intro p hp; cases hp
  | value hp =>
    rintro p ⟨⟩ (_ | fuel) hfuel m hagree
    · simp at hfuel
    rw [Txn.hashNode]
    refine (getCell_completes _ m).bind fun m₀ hm₀ => ?_
    subst m₀
    rw [hagree _ (List.mem_singleton_self _), hp, Tree.item]
    exact Completes.pure (OnlyWrites.refl _ _)
  | short hp hc hpS ih =>
    rintro p ⟨⟩ (_ | fuel) hfuel m hagree
    · simp at hfuel
    rw [Txn.hashNode]
    refine (getCell_completes _ m).bind fun m₀ hm₀ => ?_
    subst m₀
    rw [hagree _ List.mem_cons_self, hp, Tree.item]
    refine (ih _ rfl fuel (by simpa using hfuel) m
      fun q hq => hagree q (List.mem_cons_of_mem _ hq)).bind fun m₁ hm₁ => ?_
    exact (store_completes hbatch _ _ m₁).mono fun m₂ hm₂ =>
      hm₁.trans hm₂ (List.subset_cons_self _ _) (List.cons_subset.mpr ⟨List.mem_cons_self, List.nil_subset _⟩)
  | @full p v cs tv ts Sv Sc hp hlen htlen hcs hv hnodup ihc ihv =>
    rintro p ⟨⟩ (_ | fuel) hfuel m hagree
    · simp at hfuel
    have hfuel' : ((List.range 16).flatMap Sc ++ Sv).length ≤ fuel := by simpa using hfuel
    obtain ⟨hpS, hnd⟩ := List.nodup_cons.mp hnodup
    obtain ⟨hflat, hSv, hdisj⟩ := List.nodup_append.mp hnd
    have hsub : ∀ i < 16, Sc i ⊆ (List.range 16).flatMap Sc ++ Sv := fun i hi q hq =>
      List.mem_append_left _ (List.mem_flatMap.mpr ⟨i, List.mem_range.mpr hi, hq⟩)
    rw [Txn.hashNode]
    refine (getCell_completes _ m).bind fun m₀ hm₀ => ?_
    subst m₀
    rw [hagree _ List.mem_cons_self, hp, Tree.item]
    refine (mapM_completes ts Sc (by rw [hlen, htlen]) (fun i hi m' hm' => ?_)
      (by rw [hlen]; exact (List.nodup_flatMap.mp hflat).2) m
      (fun i hi q hq => hagree q (Spells.mem_of_child (hlen ▸ hi) hq))).bind fun m₁ hm₁ => ?_
    · rw [hlen] at hi
      have hsi := hcs i hi
      have ihi := ihc i hi
      have hlen_i : (Sc i).length ≤ fuel :=
        (length_le_of_subset hsi.nodup (hsub i hi)).trans hfuel'
      generalize cs.getD i none = ci at hsi ihi ⊢
      cases ci with
      | none =>
        rw [hsi.eq_nil_of_none.1, Tree.item_nil]
        exact Completes.pure (OnlyWrites.refl _ _)
      | some c => exact ihi c rfl fuel hlen_i m' hm'
    · rw [hlen] at hm₁
      have hagree₁ : ∀ q ∈ Sv, m₁.heap.cells q = h.cells q := fun q hq => by
        rw [hm₁.2.2 q fun hq' => hdisj q hq' q hq rfl]
        exact hagree q (List.mem_cons_of_mem _ (List.mem_append_right _ hq))
      have hstore : ∀ m₂, OnlyWrites Sv m₁ m₂ → Completes (t.store p
          (.array (ts.map Tree.item ++ [tv.item]))) m₂ (Tree.stored (.array (ts.map Tree.item ++ [tv.item])))
          (OnlyWrites (p :: ((List.range 16).flatMap Sc ++ Sv)) m) := fun m₂ hm₂ =>
         (store_completes hbatch _ _ m₂).mono fun m₃ hm₃ =>
          (hm₁.trans hm₂ (List.subset_append_left _ _) (List.subset_append_right _ _)).trans hm₃
            (List.subset_cons_self _ _) (List.cons_subset.mpr ⟨List.mem_cons_self, List.nil_subset _⟩)
      cases v with
      | none =>
        obtain ⟨rfl, rfl⟩ := hv.eq_nil_of_none
        rw [Tree.item_nil] at hstore ⊢
        exact (Completes.pure (OnlyWrites.refl [] m₁)).bind hstore
      | some v =>
        exact (ihv v rfl fuel ((length_le_of_subset hv.nodup (List.subset_append_right _ _)).trans
          hfuel') m₁ hagree₁).bind hstore

end Hash

/-! ## Inserting -/

theorem alloc_completes (n : Node) (m : Mem) :
    Completes (alloc n) m m.heap.next (· = { m with heap := (m.heap.alloc n).2 }) :=
  ⟨_, rfl, rfl⟩

theorem modifyCell_completes (p : Ptr) (f : Node → Node) (m : Mem) :
    Completes (modifyCell p f) m ()
      (· = { m with heap := m.heap.set p (f (m.heap.cells p)) }) :=
  ⟨_, rfl, rfl⟩

/-- What an insert leaves of `m`: the objects that existed outside `S` as they were, and the
batch. It may add objects. -/
structure Extends (S : List Ptr) (m m' : Mem) : Prop where
  next_le : m.heap.next ≤ m'.heap.next
  cells_eq : ∀ q < m.heap.next, q ∉ S → m'.heap.cells q = m.heap.cells q
  batch_eq : m'.batch = m.batch

theorem Extends.refl (S : List Ptr) (m : Mem) : Extends S m m :=
  ⟨le_rfl, fun _ _ _ => rfl, rfl⟩

theorem Extends.trans {S T U : List Ptr} {m₁ m₂ m₃ : Mem} (h₁₂ : Extends S m₁ m₂)
    (h₂₃ : Extends T m₂ m₃) (hS : S ⊆ U) (hT : T ⊆ U) : Extends U m₁ m₃ :=
  ⟨h₁₂.next_le.trans h₂₃.next_le,
    fun q hq hqU => (h₂₃.cells_eq q (hq.trans_le h₁₂.next_le) fun h => hqU (hT h)).trans
      (h₁₂.cells_eq q hq fun h => hqU (hS h)),
    h₂₃.batch_eq.trans h₁₂.batch_eq⟩

theorem Extends.alloc (S : List Ptr) (m : Mem) (n : Node) :
    Extends S m { m with heap := (m.heap.alloc n).2 } :=
  ⟨by simp, fun q hq _ => by simp [Nat.ne_of_lt hq], rfl⟩

theorem Extends.set {S : List Ptr} {p : Ptr} (hp : p ∈ S) (m : Mem) (n : Node) :
    Extends S m { m with heap := m.heap.set p n } :=
  ⟨le_rfl, fun q _ hq => by rw [Heap.set_cells, if_neg fun h : q = p => hq (h ▸ hp)], rfl⟩

theorem Spells.of_extends {S S₀ : List Ptr} {m m' : Mem} {e : UInt32} {c : Option Ptr} {t : Tree}
    (hs : Spells m.heap e c t S₀) (hbound : ∀ q ∈ S₀, q < m.heap.next) (hext : Extends S m m')
    (hdisj : ∀ q ∈ S₀, q ∉ S) : Spells m'.heap e c t S₀ :=
  hs.frame fun q hq => hext.cells_eq q (hbound q hq) (hdisj q hq)

/-! ### The objects of a full node -/

section Footprint

variable {Sc : ℕ → List Ptr} {k : ℕ}

theorem disjoint_of_pairwise_range {n : ℕ}
    (h : (List.range n).Pairwise fun a b => (Sc a).Disjoint (Sc b)) {i j : ℕ} (hi : i < n)
    (hj : j < n) (hij : i ≠ j) : (Sc i).Disjoint (Sc j) := by
  rw [List.pairwise_iff_getElem] at h
  rcases Nat.lt_or_gt_of_ne hij with hlt | hlt
  · have hd := h i j (by simpa) (by simpa) hlt
    rwa [List.getElem_range, List.getElem_range] at hd
  · have hd := h j i (by simpa) (by simpa) hlt
    rw [List.getElem_range, List.getElem_range] at hd
    exact hd.symm

theorem flatMap_range_split (Sc : ℕ → List Ptr) (hk : k < 16) :
    (List.range 16).flatMap Sc =
      (List.range k).flatMap Sc ++ Sc k ++ (List.range' (k + 1) (15 - k)).flatMap Sc := by
  rw [List.range_eq_range', List.range_eq_range', show 16 = k + ((15 - k) + 1) by omega,
    ← List.range'_append, List.range'_succ]
  simp [List.flatMap_append, List.append_assoc]

theorem flatMap_range_update (Sc : ℕ → List Ptr) (hk : k < 16) (S' : List Ptr) :
    (List.range 16).flatMap (Function.update Sc k S') =
      (List.range k).flatMap Sc ++ S' ++ (List.range' (k + 1) (15 - k)).flatMap Sc := by
  have hbelow : (List.range k).flatMap (Function.update Sc k S') = (List.range k).flatMap Sc :=
    List.flatMap_congr fun i hi => Function.update_of_ne (Nat.ne_of_lt (List.mem_range.mp hi)) _ _
  have habove : (List.range' (k + 1) (15 - k)).flatMap (Function.update Sc k S') =
      (List.range' (k + 1) (15 - k)).flatMap Sc := by
    refine List.flatMap_congr fun i hi => ?_
    obtain ⟨j, -, rfl⟩ := List.mem_range'.mp hi
    exact Function.update_of_ne (by omega) _ _
  rw [flatMap_range_split _ hk, Function.update_self, hbelow, habove]

theorem nodup_replace_middle {l₁ X Y l₂ : List Ptr} (h : (l₁ ++ X ++ l₂).Nodup) (hY : Y.Nodup)
    (hYX : ∀ q ∈ Y, q ∈ X ∨ q ∉ l₁ ++ l₂) : (l₁ ++ Y ++ l₂).Nodup := by
  rw [List.nodup_append, List.nodup_append] at h ⊢
  obtain ⟨⟨h₁, -, h₁X⟩, h₂, h12⟩ := h
  refine ⟨⟨h₁, hY, fun a ha b hb hab => ?_⟩, h₂, fun a ha b hb hab => ?_⟩
  · subst hab
    rcases hYX a hb with hx | hx
    · exact h₁X a ha a hx rfl
    · exact hx (List.mem_append_left _ ha)
  · subst hab
    rcases List.mem_append.mp ha with ha | ha
    · exact h12 a (List.mem_append_left _ ha) a hb rfl
    · rcases hYX a ha with hx | hx
      · exact h12 a (List.mem_append_right _ hx) a hb rfl
      · exact hx (List.mem_append_right _ hb)

theorem getD_set_self {α : Type} {l : List α} {i : ℕ} (hi : i < l.length) (x d : α) :
    (l.set i x).getD i d = x := by
  rw [List.getD_eq_getElem?_getD, List.getElem?_set_self hi, Option.getD_some]

theorem getD_set_ne {α : Type} {l : List α} {i j : ℕ} (hij : i ≠ j) (x d : α) :
    (l.set i x).getD j d = l.getD j d := by
  rw [List.getD_eq_getElem?_getD, List.getElem?_set_ne hij, ← List.getD_eq_getElem?_getD]

theorem flatMap_range_update_nil (hk : k < 16) (S' : List Ptr) :
    (List.range 16).flatMap (Function.update (fun _ => []) k S') = S' := by
  rw [flatMap_range_update _ hk, List.flatMap_eq_nil_iff.mpr fun _ _ => rfl,
    List.flatMap_eq_nil_iff.mpr fun _ _ => rfl, List.nil_append, List.append_nil]

theorem mem_update_footprint {p q : Ptr} {Sv S' : List Ptr} (hk : k < 16)
    (hq : q ∈ p :: ((List.range 16).flatMap (Function.update Sc k S') ++ Sv)) :
    q ∈ S' ∨ q ∈ p :: ((List.range 16).flatMap Sc ++ Sv) := by
  rw [flatMap_range_update Sc hk] at hq
  rw [flatMap_range_split Sc hk]
  simp only [List.mem_cons, List.mem_append] at hq ⊢
  tauto

end Footprint

theorem Spells.full_set {e : UInt32} {p : Ptr} {v : Option Ptr} {cs : List (Option Ptr)}
    {ts : List Tree} {tv : Tree} {Sv : List Ptr} {Sc : ℕ → List Ptr} {m m₂ : Mem}
    (hlen : cs.length = 16) (htlen : ts.length = 16)
    (hcs : ∀ i < 16, Spells m.heap e (cs.getD i none) (ts.getD i .nil) (Sc i))
    (hv : Spells m.heap e v tv Sv) (hnodup : (p :: ((List.range 16).flatMap Sc ++ Sv)).Nodup)
    (hbound : ∀ q ∈ p :: ((List.range 16).flatMap Sc ++ Sv), q < m.heap.next)
    {k : ℕ} (hk : k < 16) {nc : Option Ptr} {tk : Tree} {S' : List Ptr}
    (hext : Extends (Sc k) m m₂) (hs' : Spells m₂.heap e nc tk S')
    (hw' : ∀ q ∈ S', q ∈ Sc k ∨ m.heap.next ≤ q) :
    Spells (m₂.heap.set p (.full [] e v (cs.set k nc))) e (some p) (.full (ts.set k tk) tv)
      (p :: ((List.range 16).flatMap (Function.update Sc k S') ++ Sv)) := by
  obtain ⟨hpS, hnd⟩ := List.nodup_cons.mp hnodup
  obtain ⟨hflat, -, hdisj⟩ := List.nodup_append.mp hnd
  have hpair := (List.nodup_flatMap.mp hflat).2
  have hmem : ∀ {i q}, i < 16 → q ∈ Sc i → q ∈ (List.range 16).flatMap Sc := fun hi hq =>
    List.mem_flatMap.mpr ⟨_, List.mem_range.mpr hi, hq⟩
  have hkeep : ∀ q ∈ (List.range 16).flatMap Sc ++ Sv, q ∉ Sc k →
      (m₂.heap.set p (.full [] e v (cs.set k nc))).cells q = m.heap.cells q := by
    intro q hq hqk
    rw [Heap.set_cells, if_neg fun h : q = p => hpS (h ▸ hq),
      hext.cells_eq q (hbound q (List.mem_cons_of_mem _ hq)) hqk]
  have hpS' : p ∉ S' := fun h => by
    rcases hw' p h with h | h
    · exact hpS (List.mem_append_left _ (hmem hk h))
    · exact absurd (hbound p List.mem_cons_self) (not_lt.mpr h)
  refine .full (by rw [Heap.set_cells, if_pos rfl]) (by rw [List.length_set, hlen])
    (by rw [List.length_set, htlen]) (fun i hi => ?_) ?_ ?_
  · by_cases hik : i = k
    · subst hik
      rw [getD_set_self (hlen ▸ hk), getD_set_self (htlen ▸ hk), Function.update_self]
      exact hs'.frame fun q hq => by rw [Heap.set_cells, if_neg fun h : q = p => hpS' (h ▸ hq)]
    · rw [getD_set_ne (Ne.symm hik), getD_set_ne (Ne.symm hik), Function.update_of_ne hik]
      exact (hcs i hi).frame fun q hq => hkeep q (List.mem_append_left _ (hmem hi hq))
        fun hqk => disjoint_of_pairwise_range hpair hi hk hik hq hqk
  · exact hv.frame fun q hq => hkeep q (List.mem_append_right _ hq)
      fun hqk => hdisj q (hmem hk hqk) q hq rfl
  · have hsplit : ∀ X : List Ptr, p :: ((List.range k).flatMap Sc ++ X ++
        (List.range' (k + 1) (15 - k)).flatMap Sc ++ Sv) =
        (p :: (List.range k).flatMap Sc) ++ X ++ ((List.range' (k + 1) (15 - k)).flatMap Sc ++ Sv) :=
      fun X => by simp [List.append_assoc]
    rw [flatMap_range_split Sc hk, hsplit] at hnodup
    rw [flatMap_range_update Sc hk, hsplit]
    refine nodup_replace_middle hnodup hs'.nodup fun q hq => (hw' q hq).imp_right fun hnew hq' => ?_
    have hold : q ∈ p :: ((List.range 16).flatMap Sc ++ Sv) := by
      rw [flatMap_range_split Sc hk, hsplit]
      rcases List.mem_append.mp hq' with h | h
      · exact List.mem_append_left _ (List.mem_append_left _ h)
      · exact List.mem_append_right _ h
    exact absurd (hbound q hold) (not_lt.mpr hnew)

theorem Spells.full_single {h : Heap Node} {e : UInt32} {b : Ptr} {k : ℕ} (hk : k < 16)
    {c : Option Ptr} {tc : Tree} {S : List Ptr}
    (hb : h.cells b = .full [] e none ((List.replicate 16 none).set k c))
    (hc : Spells h e c tc S) (hbS : b ∉ S) :
    Spells h e (some b) (.full ((List.replicate 16 .nil).set k tc) .nil) (b :: S) := by
  have hnodup : (b :: ((List.range 16).flatMap (Function.update (fun _ => []) k S) ++ [])).Nodup := by
    rw [flatMap_range_update_nil hk, List.append_nil]
    exact hc.nodup.cons hbS
  have hfull : Spells h e (some b) (.full ((List.replicate 16 .nil).set k tc) .nil)
      (b :: ((List.range 16).flatMap (Function.update (fun _ => []) k S) ++ [])) := by
    refine .full hb (by simp) (by simp) (fun i hi => ?_) .nil hnodup
    by_cases hik : i = k
    · subst hik
      rw [getD_set_self (by simpa), getD_set_self (by simpa), Function.update_self]
      exact hc
    · rw [getD_set_ne (Ne.symm hik), getD_set_ne (Ne.symm hik), Function.update_of_ne hik,
        List.getD_replicate, List.getD_replicate]
      · exact .nil
      all_goals exact hi
  rwa [flatMap_range_update_nil hk, List.append_nil] at hfull

/-- An insert from `m` left in `m'` the tree `t` spelled from `r`, by objects that are new or were
among `S`, and wrote to no other object of `m`. -/
structure Inserted (e : UInt32) (S : List Ptr) (m : Mem) (r : Option Ptr) (t : Tree) (m' : Mem) :
    Prop where
  keeps : Extends S m m'
  spells : ∃ S', Spells m'.heap e r t S' ∧ (∀ q ∈ S', q < m'.heap.next) ∧
    ∀ q ∈ S', q ∈ S ∨ m.heap.next ≤ q

variable {t : Txn}

theorem insertNode_none (fuel : ℕ) {search : List UInt8} (hsearch : search ≠ [])
    (value : List UInt8) (m : Mem) :
    Completes (t.insertNode (fuel + 2) none search value) m (some (m.heap.next + 1))
      (Inserted t.epoch [] m (some (m.heap.next + 1)) (.short search (.value value))) := by
  rw [Txn.insertNode, if_neg hsearch]
  refine Completes.bind (a := some m.heap.next)
    (P := (· = { m with heap := (m.heap.alloc (.value false value)).2 })) ?_ fun m₁ hm₁ => ?_
  · rw [Txn.insertNode, if_pos rfl]
    exact (alloc_completes _ m).map some
  subst m₁
  refine ((alloc_completes _ _).map some).mono fun m₂ hm₂ => ?_
  subst m₂
  refine ⟨(Extends.alloc _ _ _).trans (Extends.alloc _ _ _) (List.nil_subset _) (List.nil_subset _),
    [m.heap.next + 1, m.heap.next], .short ?_ (.value ?_) ?_, ?_, ?_⟩
  · simp
  · simp
  · simp
  · intro q hq
    simp only [List.mem_cons, List.not_mem_nil, or_false] at hq
    rcases hq with rfl | rfl <;> simp
  · intro q hq
    simp only [List.mem_cons, List.not_mem_nil, or_false] at hq
    rcases hq with rfl | rfl <;> simp

theorem writeNode_completes {m : Mem} {p : Ptr} {h : List UInt8} {v : Option Ptr}
    {cs : List (Option Ptr)} (hp : m.heap.cells p = .full h t.epoch v cs) :
    Completes (t.writeNode p) m p (· = m) :=
  ⟨m, writeNode_of_epoch hp, rfl⟩

theorem Spells.insertNode_full {fuel : ℕ} {p : Ptr} {ts : List Tree} {tv : Tree} {S : List Ptr}
    {m : Mem} (hs : Spells m.heap t.epoch (some p) (.full ts tv) S)
    (hbound : ∀ q ∈ S, q < m.heap.next) {k : UInt8} (hk : k < 16) {rest value : List UInt8}
    (tk : Tree)
    (hsub : ∀ c S₀, Spells m.heap t.epoch c (ts.getD k.toNat .nil) S₀ →
      (∀ q ∈ S₀, q < m.heap.next) →
      ∃ nc, Completes (t.insertNode fuel c rest value) m nc (Inserted t.epoch S₀ m nc tk)) :
    Completes (t.insertNode (fuel + 1) (some p) (k :: rest) value) m (some p)
      (Inserted t.epoch S m (some p) (.full (ts.set k.toNat tk) tv)) := by
  cases hs with
  | @full _ v cs _ _ Sv Sc hp hlen htlen hcs hv hnodup =>
  have hk' : k.toNat < 16 := UInt8.lt_iff_toNat_lt.mp hk
  have hk16 : k ≠ 16 := fun h => by subst h; exact absurd hk (by decide)
  have hpk : p ∉ Sc k.toNat := fun h => (List.nodup_cons.mp hnodup).1
    (List.mem_append_left _ (List.mem_flatMap.mpr ⟨_, List.mem_range.mpr hk', h⟩))
  rw [Txn.insertNode]
  refine (getCell_completes _ m).bind fun m₀ hm₀ => ?_
  subst m₀
  rw [hp]
  refine (writeNode_completes hp).bind fun m₁ hm₁ => ?_
  subst m₁
  have hedge : (Node.full [] t.epoch v cs).getEdge k = cs.getD k.toNat none := by
    simp [Node.getEdge, hk16]
  dsimp only
  rw [hedge]
  obtain ⟨nc, hrun⟩ := hsub _ _ (hcs _ hk') fun q hq => hbound q (Spells.mem_of_child hk' hq)
  refine hrun.bind fun m₂ hm₂ => (modifyCell_completes _ _ _).bind fun m₃ hm₃ => ?_
  subst m₃
  obtain ⟨S', hs', hb', hw'⟩ := hm₂.spells
  have hcell : (m₂.heap.cells p).setEdge k nc = .full [] t.epoch v (cs.set k.toNat nc) := by
    rw [hm₂.keeps.cells_eq p (hbound p List.mem_cons_self) hpk, hp]
    simp [Node.setEdge, hk16]
  refine Completes.pure ⟨hm₂.keeps.trans (Extends.set List.mem_cons_self m₂ _)
    (fun q hq => Spells.mem_of_child hk' hq) (List.Subset.refl _),
    p :: ((List.range 16).flatMap (Function.update Sc k.toNat S') ++ Sv), ?_, ?_, ?_⟩
  · rw [hcell]
    exact Spells.full_set hlen htlen hcs hv hnodup hbound hk' hm₂.keeps hs' hw'
  · intro q hq
    rcases mem_update_footprint hk' hq with h | h
    · exact hb' q h
    · exact (hbound q h).trans_le hm₂.keeps.next_le
  · intro q hq
    rcases mem_update_footprint hk' hq with h | h
    · exact (hw' q h).imp_left (Spells.mem_of_child hk')
    · exact .inl h

theorem Spells.insertNode_short_split {fuel : ℕ} {p : Ptr} {k₀ : UInt8} {rest₀ : List UInt8}
    {tc : Tree} {S : List Ptr} {m : Mem} (hs : Spells m.heap t.epoch (some p) (.short (k₀ :: rest₀) tc) S)
    (hbound : ∀ q ∈ S, q < m.heap.next) {search value : List UInt8}
    (hplen : prefixLen search (k₀ :: rest₀) = 0) (hrest : rest₀ ≠ []) (hk : k₀ < 16)
    {tb : Tree}
    (hsub : ∀ (m₁ : Mem) (S₁ : List Ptr), Spells m₁.heap t.epoch (some (m.heap.next + 1))
        (.full ((List.replicate 16 .nil).set k₀.toNat (.short rest₀ tc)) .nil)
        S₁ → (∀ q ∈ S₁, q < m₁.heap.next) →
      Completes (t.insertNode fuel (some (m.heap.next + 1)) search value) m₁
        (some (m.heap.next + 1)) (Inserted t.epoch S₁ m₁ (some (m.heap.next + 1)) tb)) :
    Completes (t.insertNode (fuel + 1) (some p) search value) m (some (m.heap.next + 1))
      (Inserted t.epoch S m (some (m.heap.next + 1)) tb) := by
  cases hs with
  | @short _ c _ _ Sc hp hc hpS =>
  have hk' : k₀.toNat < 16 := UInt8.lt_iff_toNat_lt.mp hk
  have hk16 : k₀ ≠ 16 := fun h => by rw [h] at hk; exact absurd hk (by decide)
  have hlen : 0 < rest₀.length := List.length_pos_iff.mpr hrest
  have hold : ∀ q ∈ Sc, q < m.heap.next := fun q hq => hbound q (List.mem_cons_of_mem _ hq)
  rw [Txn.insertNode]
  refine (getCell_completes _ m).bind fun m₀ hm₀ => ?_
  subst m₀
  rw [hp]
  dsimp only
  rw [hplen, if_neg (show ¬0 = (k₀ :: rest₀).length by simp),
    if_pos (show (k₀ :: rest₀).length > 0 + 1 by simp only [List.length_cons]; omega),
    List.drop_zero, Nat.zero_add, List.getD_cons_zero, List.drop_one, List.tail_cons]
  refine ((alloc_completes _ m).map some).bind fun m₁ hm₁ => ?_
  subst m₁
  refine (alloc_completes _ _).bind fun m₂ hm₂ => ?_
  subst m₂
  have hext : Extends [] m { m with heap := ((m.heap.alloc (.short [] rest₀ (some c))).2.alloc
      ((Node.full [] t.epoch none (List.replicate 16 none)).setEdge k₀ (some m.heap.next))).2 } :=
    (Extends.alloc [] m _).trans (Extends.alloc [] _ _) (List.Subset.refl _) (List.Subset.refl _)
  refine (hsub _ ((m.heap.next + 1) :: m.heap.next :: Sc) (Spells.full_single hk' ?_
    (.short ?_ (hc.of_extends hold hext fun _ _ h => by simp at h) ?_) ?_) ?_).bind
    fun m₃ hm₃ => ?_
  · simp only [Heap.alloc_cells, Heap.alloc_next, ↓reduceIte, Node.setEdge, hk16]
  · simp only [Heap.alloc_cells, Heap.alloc_next, ↓reduceIte, Nat.ne_of_lt (Nat.lt_succ_self _)]
  · exact fun h => absurd (hold _ h) (lt_irrefl _)
  · simp only [List.mem_cons, not_or]
    exact ⟨Nat.succ_ne_self _, fun h => Nat.lt_irrefl _ ((Nat.lt_succ_self _).trans (hold _ h))⟩
  · intro q hq
    simp only [List.mem_cons] at hq
    rcases hq with rfl | rfl | hq
    · simp
    · simp
    · exact Nat.lt_of_lt_of_le (hold q hq) (by simp only [Heap.alloc_next]; omega)
  rw [if_pos rfl]
  obtain ⟨S₃, hs₃, hb₃, hw₃⟩ := hm₃.spells
  have hnext : m.heap.next + 1 + 1 ≤ m₃.heap.next := hm₃.keeps.next_le
  refine Completes.pure ⟨⟨by omega, fun q hq hqS => ?_, hm₃.keeps.batch_eq⟩, S₃, hs₃, hb₃,
    fun q hq => ?_⟩
  · have hqSc : q ∉ Sc := fun h => hqS (List.mem_cons_of_mem _ h)
    have hq' : (q : ℕ) < m.heap.next := hq
    rw [hm₃.keeps.cells_eq q (by simp only [Heap.alloc_next]; omega)
      (by simp only [List.mem_cons, not_or]; exact ⟨by omega, by omega, hqSc⟩)]
    simp [show q ≠ m.heap.next by omega, show q ≠ m.heap.next + 1 by omega]
  · rcases hw₃ q hq with h | h
    · simp only [List.mem_cons] at h
      rcases h with rfl | rfl | h
      · exact .inr (by omega)
      · exact .inr le_rfl
      · exact .inl (List.mem_cons_of_mem _ h)
    · exact .inr (le_trans (by simp only [Heap.alloc_next]; omega) h)

end ImmutableTrie
