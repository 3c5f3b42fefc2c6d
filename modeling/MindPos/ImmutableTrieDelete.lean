import Mathlib
import MindPos.ImmutableTrieRuns

/-! # Deleting a key

`Txn.delete` walks the key down as an insert does, but writes no node in place: it copies each
full node on the way, clears the cached hash of each short node it passes, and builds the nodes
above the key anew from the bottom. A full node left with a single edge collapses into a short
node, and a short node over a short node merges into one. `Tree.collapse` and `Tree.mergeShort`
are those two steps on trees, and both keep every lookup, so a delete sets the key to `none`
(`Tree.Sets`).

A short node hands the rest of the key on to its child as soon as the two share a first nibble,
whether or not the node's whole key matched. In a trie of keys of one length every position stands
at the length left of its keys (`Tree.Level`), and a key longer than that is found nowhere below,
so there the extra walk finds nothing and the delete removes the key alone. -/
namespace ImmutableTrie

open RlpEncoding PointerCells StateExcept

namespace Tree

def isNil : Tree → Bool
  | .nil => true
  | _ => false

/-- `mergeShort` on trees: a short node over a short node is one short node, and a short node
over nothing is nothing. -/
def mergeShort (key : List UInt8) : Tree → Tree
  | .nil => .nil
  | .short k cc => .short (key ++ k) cc
  | c => .short key c

/-- `collapse` on trees: a full node keeps two edges, or an edge and a value; a value alone
becomes a short node with the terminator, and a single edge is pulled up into a short node. -/
def collapse (cs : List Tree) (tv : Tree) : Tree :=
  let occupied := (List.range 16).filter fun i => !(cs.getD i .nil).isNil
  if 2 ≤ occupied.length ∨ (occupied ≠ [] ∧ tv.isNil = false) then .full cs tv
  else
    match occupied with
    | [] => if tv.isNil then .nil else .short [16] tv
    | i :: _ =>
      match cs.getD i .nil with
      | .short k cc => .short (UInt8.ofNat i :: k) cc
      | c => .short [UInt8.ofNat i] c

theorem isNil_iff {t : Tree} : t.isNil = true ↔ t = .nil := by
  cases t <;> simp [isNil]

theorem mergeShort_nil (key : List UInt8) : mergeShort key .nil = .nil := rfl

theorem mergeShort_short (key k : List UInt8) (cc : Tree) :
    mergeShort key (.short k cc) = .short (key ++ k) cc := rfl

/-! ## Merging short nodes -/

theorem lookup_mergeShort (key : List UInt8) (c : Tree) (s : List UInt8) :
    (mergeShort key c).lookup s = (Tree.short key c).lookup s := by
  cases c with
  | nil =>
    rw [mergeShort_nil, lookup_nil, lookup_short]
    split <;> rfl
  | short k cc =>
    rw [mergeShort_short, lookup_short, lookup_short, lookup_short]
    by_cases hpre : key <+: s
    · obtain ⟨r, rfl⟩ := hpre
      rw [if_pos (List.prefix_append key r), List.drop_left]
      by_cases hk : k <+: r
      · rw [if_pos ((List.prefix_append_right_inj key).mpr hk), if_pos hk, List.length_append,
          ← List.drop_drop, List.drop_left]
      · rw [if_neg (mt (List.prefix_append_right_inj key).mp hk), if_neg hk]
    · rw [if_neg hpre, if_neg fun h => hpre ((List.prefix_append key k).trans h)]
  | value buf => rfl
  | full cs tv => rfl

theorem Fit.mergeShort {key : List UInt8} {c : Tree} (h : (Tree.short key c).Fit false) :
    (Tree.mergeShort key c).Fit false := by
  cases c with
  | nil => exact .nil false
  | short k cc =>
    rw [mergeShort_short]
    rcases h.short_inv with ⟨hne, hns, hc⟩ | ⟨ns, -, -, hc⟩
    · rcases hc.short_inv with ⟨hne', hns', hcc⟩ | ⟨ns', hns', rfl, hcc⟩
      · exact .ext (by simp [hne]) (fun x hx => (List.mem_append.mp hx).elim (hns x) (hns' x)) hcc
      · rw [← List.append_assoc]
        exact .leaf (fun x hx => (List.mem_append.mp hx).elim (hns x) (hns' x)) hcc
    · cases hc
  | value buf => exact h
  | full cs tv => exact h

theorem Level.mergeShort {n : ℕ} {key : List UInt8} {c : Tree} (h : (Tree.short key c).Level n) :
    (Tree.mergeShort key c).Level n := by
  cases c with
  | nil => exact .nil n
  | short k cc =>
    obtain ⟨hle, hc⟩ := h.short_inv
    obtain ⟨hle', hcc⟩ := hc.short_inv
    rw [mergeShort_short]
    refine .short (by rw [List.length_append]; omega) ?_
    rwa [List.length_append, ← Nat.sub_sub]
  | value buf => exact h
  | full cs tv => exact h

/-! ## Collapsing a full node -/

theorem collapse_cases (cs : List Tree) (tv : Tree) :
    collapse cs tv = .full cs tv ∨
      ((∀ i < 16, cs.getD i .nil = .nil) ∧
        (tv = .nil ∧ collapse cs tv = .nil ∨ tv ≠ .nil ∧ collapse cs tv = .short [16] tv)) ∨
      ∃ i < 16, cs.getD i .nil ≠ .nil ∧ (∀ j < 16, j ≠ i → cs.getD j .nil = .nil) ∧ tv = .nil ∧
        collapse cs tv = mergeShort [UInt8.ofNat i] (cs.getD i .nil) := by
  have hmem : ∀ j, j ∈ (List.range 16).filter (fun i => !(cs.getD i .nil).isNil) ↔
      j < 16 ∧ cs.getD j .nil ≠ .nil := by
    intro j
    simp only [List.mem_filter, List.mem_range, Bool.not_eq_eq_eq_not, Bool.not_true,
      Bool.eq_false_iff, ne_eq, isNil_iff]
  unfold collapse
  generalize hocc : (List.range 16).filter (fun i => !(cs.getD i .nil).isNil) = occ at hmem ⊢
  by_cases hkeep : 2 ≤ occ.length ∨ (occ ≠ [] ∧ tv.isNil = false)
  · exact .inl (if_pos hkeep)
  · rw [if_neg hkeep]
    rw [not_or, not_le, not_and_or, not_not, Bool.not_eq_false, isNil_iff] at hkeep
    obtain ⟨hlen, hnil⟩ := hkeep
    cases occ with
    | nil =>
      have hall : ∀ i < 16, cs.getD i .nil = .nil := fun i hi => by
        by_contra hne
        exact List.not_mem_nil ((hmem i).mpr ⟨hi, hne⟩)
      refine .inr (.inl ⟨hall, ?_⟩)
      by_cases htv : tv = .nil
      · exact .inl ⟨htv, by simp only [htv, isNil, if_true]⟩
      · refine .inr ⟨htv, ?_⟩
        rw [if_neg (mt isNil_iff.mp htv)]
    | cons i rest =>
      have hrest : rest.length = 0 := by
        rw [List.length_cons] at hlen
        omega
      obtain rfl : rest = [] := List.eq_nil_of_length_eq_zero hrest
      obtain ⟨hi, hne⟩ := (hmem i).mp List.mem_cons_self
      have htv : tv = .nil := hnil.resolve_left (List.cons_ne_nil _ _)
      refine .inr (.inr ⟨i, hi, hne, fun j hj hji => ?_, htv, ?_⟩)
      · by_contra hj'
        exact hji (List.mem_singleton.mp ((hmem j).mpr ⟨hj, hj'⟩))
      · dsimp only
        generalize cs.getD i .nil = c at hne ⊢
        cases c with
        | nil => exact absurd rfl hne
        | short k cc => rfl
        | value buf => rfl
        | full ts' tv' => rfl

theorem edgeAt_of_empty {cs : List Tree} (hlen : cs.length = 16)
    (hall : ∀ i < 16, cs.getD i .nil = .nil) (tv : Tree) (j : ℕ) :
    edgeAt cs tv j = if j = 16 then tv else .nil := by
  rw [edgeAt]
  split
  · rfl
  · by_cases hj : j < 16
    · exact hall j hj
    · exact List.getD_eq_default _ _ (by omega)

theorem ofNat_eq_iff {i : ℕ} (hi : i < 16) {k : UInt8} : UInt8.ofNat i = k ↔ k.toNat = i := by
  have hsize : i < UInt8.size := hi.trans (by decide)
  constructor
  · rintro rfl
    exact UInt8.toNat_ofNat_of_lt' hsize
  · intro hk
    exact UInt8.toNat_inj.mp (by rw [UInt8.toNat_ofNat_of_lt' hsize, hk])

theorem lookup_collapse {cs : List Tree} {tv : Tree} (hfit : (Tree.full cs tv).Fit false)
    {s : List UInt8} (hs : Keyed false s) : (collapse cs tv).lookup s = (Tree.full cs tv).lookup s := by
  obtain ⟨-, hlen, -, -⟩ := hfit.full_inv
  obtain ⟨k, rest, rfl⟩ := List.exists_cons_of_ne_nil hs.ne_nil
  rw [lookup_full_cons]
  rcases collapse_cases cs tv with h | ⟨hall, ⟨rfl, h⟩ | ⟨-, h⟩⟩ | ⟨i, hi, -, hother, rfl, h⟩
  · rw [h, lookup_full_cons]
  · rw [h, lookup_nil, edgeAt_of_empty hlen hall]
    split <;> rw [lookup_nil]
  · rw [h, lookup_short, edgeAt_of_empty hlen hall]
    by_cases hk : k = 16
    · rw [if_pos (List.cons_prefix_cons.mpr ⟨hk.symm, List.nil_prefix⟩),
        if_pos (toNat_eq_sixteen.mpr hk)]
      rfl
    · rw [if_neg fun h => hk (List.cons_prefix_cons.mp h).1.symm,
        if_neg (mt toNat_eq_sixteen.mp hk), lookup_nil]
  · have hedge : edgeAt cs .nil k.toNat = if k.toNat = i then cs.getD i .nil else .nil := by
      rw [edgeAt]
      by_cases hki : k.toNat = i
      · rw [if_neg (by omega), if_pos hki, hki]
      · rw [if_neg hki]
        split
        · rfl
        · by_cases hk : k.toNat < 16
          · exact hother _ hk hki
          · exact List.getD_eq_default _ _ (by omega)
    rw [h, lookup_mergeShort, lookup_short, hedge]
    by_cases hki : k.toNat = i
    · rw [if_pos (List.cons_prefix_cons.mpr ⟨(ofNat_eq_iff hi).mpr hki, List.nil_prefix⟩),
        if_pos hki]
      rfl
    · rw [if_neg fun h => hki ((ofNat_eq_iff hi).mp (List.cons_prefix_cons.mp h).1), if_neg hki,
        lookup_nil]

theorem Fit.collapse {cs : List Tree} {tv : Tree} (h : (Tree.full cs tv).Fit false) :
    (Tree.collapse cs tv).Fit false := by
  obtain ⟨-, hlen, hcs, hv⟩ := h.full_inv
  rcases collapse_cases cs tv with hc | ⟨-, ⟨-, hc⟩ | ⟨-, hc⟩⟩ | ⟨i, hi, -, -, -, hc⟩
  · rw [hc]
    exact h
  · rw [hc]
    exact .nil false
  · rw [hc]
    exact (Fit.leaf (fun x hx => absurd hx List.not_mem_nil) hv : Fit false (.short ([] ++ [16]) tv))
  · rw [hc]
    have hmem : cs.getD i .nil ∈ cs := by
      rw [List.getD_eq_getElem _ _ (by omega)]
      exact List.getElem_mem _
    refine Fit.mergeShort (.ext (List.cons_ne_nil _ _) (fun x hx => ?_) (hcs _ hmem))
    rw [List.mem_singleton.mp hx, UInt8.lt_iff_toNat_lt,
      UInt8.toNat_ofNat_of_lt' (hi.trans (by decide))]
    exact hi

theorem Level.collapse {n : ℕ} {cs : List Tree} {tv : Tree} (h : (Tree.full cs tv).Level n) :
    (Tree.collapse cs tv).Level n := by
  obtain ⟨n, rfl, -, hv⟩ := h.full_inv
  rcases collapse_cases cs tv with hc | ⟨-, ⟨-, hc⟩ | ⟨-, hc⟩⟩ | ⟨i, hi, -, -, -, hc⟩
  · rw [hc]
    exact h
  · rw [hc]
    exact .nil _
  · rw [hc]
    exact .short (by simp) (by simpa using hv)
  · rw [hc]
    have hedge := h.edgeAt i
    rw [Tree.edgeAt, if_neg (by omega)] at hedge
    exact Level.mergeShort (.short (by simp) (by simpa using hedge))

end Tree

/-! ## A delete, one rule per shape of `Txn.delete` -/

namespace Tree.Sets

variable {done : Bool} {t t₁ t₂ : Tree} {s : List UInt8} {o : Option (List UInt8)}

theorem congr (h : t.Sets done t₁ s o) (hfit : t₂.Fit done)
    (hlevel : t₁.Level s.length → t₂.Level s.length)
    (hlook : ∀ s', Keyed done s' → t₂.lookup s' = t₁.lookup s') : t.Sets done t₂ s o :=
  ⟨hfit, fun hl => hlevel (h.level hl), fun s' hs' => (hlook s' hs').trans (h.lookup_eq s' hs')⟩

theorem drop_value (buf : List UInt8) : (Tree.value buf).Sets true .nil [] none := by
  refine ⟨.nil true, fun _ => .nil _, fun s' hs' => ?_⟩
  change s' = [] at hs'
  subst hs'
  rw [if_pos rfl, lookup_nil]

theorem drop_short {c : Tree} (hs : Keyed false s) : (Tree.short s c).Sets false .nil s none := by
  refine ⟨.nil false, fun _ => .nil _, fun s' hs' => ?_⟩
  rw [lookup_nil, lookup_short]
  by_cases heq : s' = s
  · rw [if_pos heq]
  · obtain ⟨ns, -, rfl⟩ := hs
    rw [if_neg heq, if_neg fun hpre => heq (hs'.eq_of_prefix hpre)]

theorem merge {key : List UInt8} {c' : Tree} (h : t.Sets false (Tree.short key c') s o) :
    t.Sets false (Tree.mergeShort key c') s o :=
  h.congr (Fit.mergeShort h.fit) (fun hl => Level.mergeShort hl)
    fun s' _ => lookup_mergeShort key c' s'

theorem collapse {cs : List Tree} {tv : Tree} (h : t.Sets false (Tree.full cs tv) s o) :
    t.Sets false (Tree.collapse cs tv) s o :=
  h.congr (Fit.collapse h.fit) (fun hl => Level.collapse hl) fun _ hs' => lookup_collapse h.fit hs'

end Tree.Sets


/-! ## What a delete writes -/

/-- What a delete leaves of `m`: it may add objects, and of the objects that were there it only
clears cached hashes, of objects among `S`. -/
structure Clears (S : List Ptr) (m m' : Mem) : Prop where
  next_le : m.heap.next ≤ m'.heap.next
  changed : ∀ q < m.heap.next, m'.heap.cells q ≠ m.heap.cells q →
    q ∈ S ∧ m'.heap.cells q = (m.heap.cells q).clearHash

namespace Clears

variable {S T U : List Ptr} {m m₁ m₂ m₃ m' : Mem}

theorem refl (S : List Ptr) (m : Mem) : Clears S m m :=
  ⟨le_rfl, fun _ _ h => absurd rfl h⟩

theorem cells_eq (hc : Clears S m m') {q : Ptr} (hq : q < m.heap.next) (hqS : q ∉ S) :
    m'.heap.cells q = m.heap.cells q := by
  by_contra hne
  exact hqS (hc.changed q hq hne).1

theorem cache (hc : Clears S m m') {q : Ptr} (hq : q < m.heap.next) :
    m'.heap.cells q = m.heap.cells q ∨ m'.heap.cells q = (m.heap.cells q).clearHash := by
  by_cases h : m'.heap.cells q = m.heap.cells q
  · exact .inl h
  · exact .inr (hc.changed q hq h).2

theorem trans (h₁₂ : Clears S m₁ m₂) (h₂₃ : Clears T m₂ m₃) (hS : S ⊆ U)
    (hT : ∀ q ∈ T, q < m₁.heap.next → q ∈ U) : Clears U m₁ m₃ := by
  refine ⟨h₁₂.next_le.trans h₂₃.next_le, fun q hq hne => ?_⟩
  have hq₂ : q < m₂.heap.next := hq.trans_le h₁₂.next_le
  by_cases h₂ : m₂.heap.cells q = m₁.heap.cells q
  · obtain ⟨hqT, hclear⟩ := h₂₃.changed q hq₂ (by rwa [h₂])
    exact ⟨hT q hqT hq, by rw [hclear, h₂]⟩
  · obtain ⟨hqS, hclear⟩ := h₁₂.changed q hq h₂
    refine ⟨hS hqS, ?_⟩
    rcases h₂₃.cache hq₂ with h | h
    · rw [h, hclear]
    · rw [h, hclear, Node.clearHash_clearHash]

theorem alloc (S : List Ptr) (m : Mem) (n : Node) :
    Clears S m { m with heap := (m.heap.alloc n).2 } :=
  ⟨by simp, fun q hq hne => absurd (by simp [Nat.ne_of_lt hq]) hne⟩

theorem clear {p : Ptr} (hp : p ∈ S) (m : Mem) :
    Clears S m { m with heap := m.heap.set p (m.heap.cells p).clearHash } := by
  refine ⟨le_rfl, fun q _ hne => ?_⟩
  by_cases hqp : q = p
  · subst hqp
    exact ⟨hp, by simp⟩
  · exact absurd (by simp [hqp]) hne

theorem set_new (hc : Clears S m m') {b : Ptr} (hb : m.heap.next ≤ b) (n : Node) :
    Clears S m { m' with heap := m'.heap.set b n } := by
  refine ⟨hc.next_le, fun q hq hne => ?_⟩
  have hqb : q ≠ b := by omega
  simp only [Heap.set_cells, if_neg hqb] at hne ⊢
  exact hc.changed q hq hne

end Clears

theorem Holds.of_cache {h h' : Heap Node} {c : Option Ptr} {tr : Tree} {S : List Ptr}
    (hs : Holds h c tr S) (hcache : ∀ q ∈ S, (h'.cells q).clearHash = (h.cells q).clearHash) :
    Holds h' c tr S := by
  induction hs with
  | nil => exact .nil
  | @value p buf hp =>
    have hq := hcache _ List.mem_cons_self
    rw [hp] at hq
    generalize hn : h'.cells p = n at hq
    cases n <;> cases hq
    exact .value hn
  | @short p cc hash key tc Sc hp _ hpS ih =>
    have hq := hcache _ List.mem_cons_self
    rw [hp] at hq
    obtain ⟨hash', hp'⟩ : ∃ hash', h'.cells p = .short hash' key (some cc) := by
      generalize h'.cells p = n at hq ⊢
      cases n <;> cases hq
      exact ⟨_, rfl⟩
    exact .short hp' (ih fun q hq => hcache q (List.mem_cons_of_mem _ hq)) hpS
  | @full p hash ep v cs tv ts Se hp hlen htlen _ hnodup ih =>
    have hq := hcache _ List.mem_cons_self
    rw [hp] at hq
    obtain ⟨hash', hp'⟩ : ∃ hash', h'.cells p = .full hash' ep v cs := by
      generalize h'.cells p = n at hq ⊢
      cases n <;> cases hq
      exact ⟨_, rfl⟩
    exact .full hp' hlen htlen (fun i hi => ih i hi fun q hq => hcache q (Holds.mem_of_edge hi hq))
      hnodup

theorem Holds.of_clears {S S₀ : List Ptr} {m m' : Mem} {c : Option Ptr} {tr : Tree}
    (hs : Holds m.heap c tr S₀) (hbound : ∀ q ∈ S₀, q < m.heap.next) (hc : Clears S m m') :
    Holds m'.heap c tr S₀ := by
  refine hs.of_cache fun q hq => ?_
  rcases hc.cache (hbound q hq) with h | h
  · rw [h]
  · rw [h, Node.clearHash_clearHash]

theorem Holds.fullEdge_any {h : Heap Node} {v : Option Ptr} {cs : List (Option Ptr)}
    {ts : List Tree} {tv : Tree} {Se : ℕ → List Ptr} (hlen : cs.length = 16) (htlen : ts.length = 16)
    (hedges : ∀ i < 17, Holds h (fullEdge v cs i) (Tree.edgeAt ts tv i) (Se i)) (i : ℕ) :
    ∃ Se' ⊆ (List.range 17).flatMap Se, Holds h (fullEdge v cs i) (Tree.edgeAt ts tv i) Se' := by
  by_cases hi : i < 17
  · exact ⟨Se i, fun q hq => List.mem_flatMap.mpr ⟨i, List.mem_range.mpr hi, hq⟩, hedges i hi⟩
  · refine ⟨[], List.nil_subset _, ?_⟩
    rw [fullEdge, Tree.edgeAt, if_neg (by omega), if_neg (by omega),
      List.getD_eq_default _ _ (by omega), List.getD_eq_default _ _ (by omega)]
    exact .nil

/-! ## Deletes -/

/-- What a delete of `s`, at a position that the objects `S` hold as `tr`, returned (the node
that replaces the position and whether it found the key) and left of `m` in `m'`: it cleared at
most cached hashes among `S`; if it found the key, the node holds the tree without it, and
otherwise the key was not there. -/
structure Deleted (done : Bool) (tr : Tree) (s : List UInt8) (S : List Ptr) (m : Mem)
    (res : Option Ptr × Bool) (m' : Mem) : Prop where
  clears : Clears S m m'
  found : res.2 = true → ∃ tr', tr.Sets done tr' s none ∧ Leaves S m res.1 tr' m'
  absent : res.2 = false → tr.lookup s = none

variable {t : Txn}

theorem Holds.deleteNode_long : ∀ (fuel : ℕ) {m : Mem} {c : Option Ptr} {tr : Tree}
    {S : List Ptr} {n : ℕ} {s : List UInt8}, Holds m.heap c tr S → (∀ q ∈ S, q < m.heap.next) →
    tr.Level n → n < s.length → s.length < fuel →
    Completes (t.deleteNode fuel c s) m (none, false) (Clears S m) := by
  intro fuel
  induction fuel with
  | zero => intro _ _ _ _ _ _ _ _ _ _ hfuel; omega
  | succ f ih =>
    intro m c tr S n s hs hbound hlevel hlong hfuel
    cases hs with
    | nil =>
      rw [Txn.deleteNode]
      exact .pure (Clears.refl _ _)
    | @value p buf hp =>
      cases hlevel
      rw [Txn.deleteNode]
      refine (getCell_completes _ m).bind fun m₀ hm₀ => ?_
      subst m₀
      rw [hp]
      simp only [Bool.false_eq_true, if_false, decide_eq_false (List.ne_nil_of_length_pos hlong)]
      exact .pure (Clears.refl _ _)
    | @short p cc hash key tc Sc hp hc hpS =>
      obtain ⟨hle, hlc⟩ := hlevel.short_inv
      rw [Txn.deleteNode]
      refine (getCell_completes _ m).bind fun m₀ hm₀ => ?_
      subst m₀
      rw [hp]
      dsimp only
      refine (modifyCell_completes _ _ _).bind fun m₁ hm₁ => ?_
      subst m₁
      have hcl := Clears.clear (S := p :: Sc) List.mem_cons_self m
      have hbc : ∀ q ∈ Sc, q < m.heap.next := fun q hq => hbound q (List.mem_cons_of_mem _ hq)
      have hplen := prefixLen_le_right s key
      rw [if_neg (by omega)]
      by_cases h0 : prefixLen s key = 0
      · rw [if_pos h0]
        exact .pure hcl
      · rw [if_neg h0]
        refine (ih (hc.of_clears hbc hcl) hbc hlc (by rw [List.length_drop]; omega)
          (by rw [List.length_drop]; omega)).bind fun m₂ hm₂ => ?_
        rw [Txn.mergeShort]
        exact .pure (hcl.trans hm₂ (List.Subset.refl _) fun q hq _ => List.mem_cons_of_mem _ hq)
    | @full p hash ep v cs tv ts Se hp hlen htlen hedges hnodup =>
      obtain ⟨n', rfl, -, -⟩ := hlevel.full_inv
      obtain ⟨k, rest, rfl⟩ := List.exists_cons_of_ne_nil (List.ne_nil_of_length_pos
        (by omega : 0 < s.length))
      rw [List.length_cons] at hlong hfuel
      obtain ⟨Se', hsub, hedge⟩ := Holds.fullEdge_any hlen htlen hedges k.toNat
      have hal := Clears.alloc (p :: (List.range 17).flatMap Se) m (.full [] 0 v cs)
      have hbe : ∀ q ∈ Se', q < m.heap.next := fun q hq =>
        hbound q (List.mem_cons_of_mem _ (hsub hq))
      rw [Txn.deleteNode]
      refine (getCell_completes _ m).bind fun m₀ hm₀ => ?_
      subst m₀
      rw [hp]
      dsimp only
      refine (alloc_completes _ m).bind fun m₁ hm₁ => ?_
      subst m₁
      refine (getCell_completes _ _).bind fun m₀ hm₀ => ?_
      subst m₀
      rw [Heap.alloc_cells, if_pos rfl, Node.getEdge_full]
      refine (ih (hedge.of_clears hbe hal) (fun q hq => (hbe q hq).trans (Nat.lt_succ_self _))
        (hlevel.edgeAt k.toNat) (by omega) (by omega)).bind fun m₂ hm₂ => ?_
      exact .pure (hal.trans hm₂ (List.Subset.refl _) fun q hq _ => List.mem_cons_of_mem _ (hsub hq))


theorem prefixLen_eq_length {a b : List UInt8} (h : b <+: a) : prefixLen a b = b.length := by
  obtain ⟨r, rfl⟩ := h
  induction b with
  | nil => cases r <;> rfl
  | cons y bs ih => rw [List.cons_append, prefixLen, if_pos rfl, ih, List.length_cons]

theorem Holds.isSome_eq {h : Heap Node} {c : Option Ptr} {tr : Tree} {S : List Ptr}
    (hs : Holds h c tr S) : c.isSome = !tr.isNil := by
  cases hs <;> rfl

theorem Holds.resolve {m : Mem} {p : Ptr} {tr : Tree} {S : List Ptr}
    (hs : Holds m.heap (some p) tr S) : Completes (t.resolve p) m (some p) (· = m) := by
  rw [Txn.resolve]
  refine (getCell_completes _ m).bind fun m₀ hm₀ => ?_
  subst m₀
  cases hs with
  | value hp => rw [hp]; exact .pure rfl
  | short hp => rw [hp]; exact .pure rfl
  | full hp => rw [hp]; exact .pure rfl

theorem Leaves.mergeShort {S : List Ptr} {m m' : Mem} {r : Option Ptr} {tc : Tree}
    (h : Leaves S m r tc m') (hnext : m.heap.next ≤ m'.heap.next) (key : List UInt8) :
    ∃ r', Completes (Txn.mergeShort key (r, true)) m' (r', true)
      fun m'' => Clears [] m' m'' ∧ Leaves S m r' (Tree.mergeShort key tc) m'' := by
  obtain ⟨S', hs', hb', hw'⟩ := h
  cases hs' with
  | nil => exact ⟨none, .pure ⟨Clears.refl _ _, [], .nil, by simp, by simp⟩⟩
  | @value c buf hc =>
    refine ⟨some m'.heap.next, ?_⟩
    rw [Txn.mergeShort]
    refine (getCell_completes _ _).bind fun m₀ hm₀ => ?_
    subst m₀
    rw [hc]
    refine (alloc_completes _ _).bind fun m₁ hm₁ => ?_
    subst m₁
    exact .pure ⟨Clears.alloc _ _ _, Leaves.alloc_short ⟨_, .value hc, hb', hw'⟩ hnext key⟩
  | @short c cc hash k tcc Scc hc hcc hcS =>
    have hleaf : Leaves S m (some cc) tcc m' := ⟨Scc, hcc,
      fun q hq => hb' q (List.mem_cons_of_mem _ hq), fun q hq => hw' q (List.mem_cons_of_mem _ hq)⟩
    refine ⟨some m'.heap.next, ?_⟩
    rw [Txn.mergeShort]
    refine (getCell_completes _ _).bind fun m₀ hm₀ => ?_
    subst m₀
    rw [hc]
    refine (alloc_completes _ _).bind fun m₁ hm₁ => ?_
    subst m₁
    exact .pure ⟨Clears.alloc _ _ _, hleaf.alloc_short hnext (key ++ k)⟩
  | @full c hash ep v cs tv ts Se hc hlen htlen hedges hnodup =>
    refine ⟨some m'.heap.next, ?_⟩
    rw [Txn.mergeShort]
    refine (getCell_completes _ _).bind fun m₀ hm₀ => ?_
    subst m₀
    rw [hc]
    refine (alloc_completes _ _).bind fun m₁ hm₁ => ?_
    subst m₁
    exact .pure ⟨Clears.alloc _ _ _,
      Leaves.alloc_short ⟨_, .full hc hlen htlen hedges hnodup, hb', hw'⟩ hnext key⟩

theorem Holds.collapse {m : Mem} {b : Ptr} {ts : List Tree} {tv : Tree} {S : List Ptr}
    (hs : Holds m.heap (some b) (.full ts tv) S) (hbound : ∀ q ∈ S, q < m.heap.next) :
    ∃ res, Completes (t.collapse b) m res fun m' =>
      res.2 = true ∧ Clears [] m m' ∧ Leaves S m res.1 (Tree.collapse ts tv) m' := by
  have hheld := Leaves.of_holds hs hbound
  cases hs with
  | @full _ hash ep v cs _ _ Se hp hlen htlen hedges hnodup =>
  have hocc : (List.range 16).filter (fun i => (cs.getD i none).isSome) =
      (List.range 16).filter fun i => !(ts.getD i .nil).isNil := by
    refine List.filter_congr fun i hi => ?_
    have hi' := List.mem_range.mp hi
    have h := (hedges i (by omega)).isSome_eq
    rwa [fullEdge, Tree.edgeAt, if_neg (by omega), if_neg (by omega)] at h
  have hv := hedges 16 (by omega)
  rw [fullEdge, Tree.edgeAt, if_pos rfl, if_pos rfl] at hv
  have hmem : ∀ j, j ∈ (List.range 16).filter (fun i => !(ts.getD i .nil).isNil) ↔
      j < 16 ∧ ts.getD j .nil ≠ .nil := by
    intro j
    simp only [List.mem_filter, List.mem_range, Bool.not_eq_eq_eq_not, Bool.not_true,
      Bool.eq_false_iff, ne_eq, Tree.isNil_iff]
  rw [Txn.collapse]
  refine (getCell_completes _ m).bind_exists fun m₀ hm₀ => ?_
  subst m₀
  rw [hp]
  dsimp only
  rw [hocc]
  unfold Tree.collapse
  generalize (List.range 16).filter (fun i => !(ts.getD i .nil).isNil) = occ at hmem ⊢
  have hcond : (occ ≠ [] ∧ v.isSome = true) ↔ (occ ≠ [] ∧ tv.isNil = false) := by
    rw [hv.isSome_eq, Bool.not_eq_eq_eq_not, Bool.not_true]
  by_cases hkeep : 2 ≤ occ.length ∨ (occ ≠ [] ∧ tv.isNil = false)
  · rw [if_pos ((or_congr_right hcond).mpr hkeep), if_pos hkeep]
    exact ⟨(some b, true), .pure ⟨rfl, Clears.refl _ _, hheld⟩⟩
  rw [if_neg (mt (or_congr_right hcond).mp hkeep), if_neg hkeep]
  rw [not_or, not_le, not_and_or, not_not, Bool.not_eq_false, Tree.isNil_iff] at hkeep
  obtain ⟨hlen₁, hnil⟩ := hkeep
  cases occ with
  | nil =>
    cases v with
    | none =>
      obtain rfl : tv = .nil := Tree.isNil_iff.mp (by simpa using hv.isSome_eq.symm)
      exact ⟨(none, true), .pure ⟨rfl, Clears.refl _ _, [], .nil, by simp, by simp⟩⟩
    | some pv =>
      have htv : tv ≠ .nil := by
        rintro rfl
        simpa [Tree.isNil] using hv.isSome_eq
      rw [if_neg (mt Tree.isNil_iff.mp htv)]
      refine (alloc_completes _ m).bind_exists fun m₁ hm₁ => ?_
      subst m₁
      have hleaf : Leaves (b :: (List.range 17).flatMap Se) m (some pv) tv m :=
        ⟨Se 16, hv, fun q hq => hbound q (Holds.mem_of_edge (by omega) hq),
          fun q hq => .inl (Holds.mem_of_edge (by omega) hq)⟩
      exact ⟨(some m.heap.next, true), .pure ⟨rfl, Clears.alloc _ _ _, hleaf.alloc_short le_rfl [16]⟩⟩
  | cons i rest =>
    have hrest : rest.length = 0 := by
      rw [List.length_cons] at hlen₁
      omega
    obtain rfl : rest = [] := List.eq_nil_of_length_eq_zero hrest
    obtain ⟨hi, hne⟩ := (hmem i).mp List.mem_cons_self
    have hei := hedges i (by omega)
    rw [fullEdge, Tree.edgeAt, if_neg (by omega), if_neg (by omega)] at hei
    obtain ⟨nc, hnc⟩ := hei.exists_some hne
    dsimp only
    rw [hnc] at hei ⊢
    dsimp only
    have hleaf : Leaves (b :: (List.range 17).flatMap Se) m (some nc) (ts.getD i .nil) m :=
      ⟨Se i, hei, fun q hq => hbound q (Holds.mem_of_edge (by omega) hq),
        fun q hq => .inl (Holds.mem_of_edge (by omega) hq)⟩
    obtain ⟨r', hms⟩ := hleaf.mergeShort le_rfl [UInt8.ofNat i]
    refine (hei.resolve).bind_exists fun m₁ hm₁ => ?_
    subst m₁
    refine ⟨(r', true), ?_⟩
    generalize ts.getD i .nil = c at hms hne
    cases c with
    | nil => exact absurd rfl hne
    | short k cc => exact hms.mono fun _ h => ⟨rfl, h⟩
    | value buf => exact hms.mono fun _ h => ⟨rfl, h⟩
    | full ts' tv' => exact hms.mono fun _ h => ⟨rfl, h⟩


theorem Holds.deleteNode_short {f : ℕ} {m : Mem} {p : Ptr} {key : List UInt8} {tc : Tree}
    {S : List Ptr} (hs : Holds m.heap (some p) (.short key tc) S)
    (hbound : ∀ q ∈ S, q < m.heap.next) (hfit : (Tree.short key tc).Fit false) {s : List UInt8}
    (hlevel : (Tree.short key tc).Level s.length) (hkey : Keyed false s) (hfuel : s.length < f + 1)
    (hsub : key <+: s → ∀ (m₁ : Mem) c Sc, Holds m₁.heap c tc Sc → (∀ q ∈ Sc, q < m₁.heap.next) →
      ∃ res, Completes (t.deleteNode f c (s.drop key.length)) m₁ res
        (Deleted (decide ((16 : UInt8) ∈ key)) tc (s.drop key.length) Sc m₁ res)) :
    ∃ res, Completes (t.deleteNode (f + 1) (some p) s) m res
      (Deleted false (.short key tc) s S m res) := by
  cases hs with
  | @short _ cc hash _ _ Sc hp hc hpS =>
  obtain ⟨hle, hlc⟩ := hlevel.short_inv
  have hbc : ∀ q ∈ Sc, q < m.heap.next := fun q hq => hbound q (List.mem_cons_of_mem _ hq)
  have hcl := Clears.clear (S := p :: Sc) List.mem_cons_self m
  have hplen := prefixLen_le_right s key
  rw [Txn.deleteNode]
  refine (getCell_completes _ m).bind_exists fun m₀ hm₀ => ?_
  subst m₀
  rw [hp]
  dsimp only
  refine (modifyCell_completes _ _ _).bind_exists fun m₁ hm₁ => ?_
  subst m₁
  by_cases hall : prefixLen s key = s.length
  · have hks : key = s := by
      have h := take_prefixLen s key
      rw [hall, List.take_length, ← (by omega : key.length = s.length), List.take_length] at h
      exact h.symm
    subst hks
    rw [if_pos hall]
    exact ⟨(none, true), .pure ⟨hcl, fun _ => ⟨.nil, Tree.Sets.drop_short hkey, [], .nil, by simp,
      by simp⟩, fun h => Bool.noConfusion h⟩⟩
  rw [if_neg hall]
  by_cases h0 : prefixLen s key = 0
  · rw [if_pos h0]
    refine ⟨(none, false), .pure ⟨hcl, fun h => absurd h Bool.false_ne_true, fun _ => ?_⟩⟩
    rw [Tree.lookup_short, if_neg fun hpre => ?_]
    rw [prefixLen_eq_length hpre] at h0
    exact hfit.short_ne_nil (List.eq_nil_of_length_eq_zero h0)
  rw [if_neg h0]
  by_cases haligned : prefixLen s key = key.length
  · have hpre := prefix_of_prefixLen haligned
    rw [haligned]
    obtain ⟨⟨r', ok'⟩, hres⟩ := hsub hpre _ _ _ (hc.of_clears hbc hcl) hbc
    refine hres.bind_exists fun m₂ hd => ?_
    have hcl₂ : Clears (p :: Sc) m m₂ :=
      hcl.trans hd.clears (List.Subset.refl _) fun q hq _ => List.mem_cons_of_mem _ hq
    cases ok' with
    | false =>
      rw [Txn.mergeShort]
      refine ⟨(none, false), .pure ⟨hcl₂, fun h => absurd h Bool.false_ne_true, fun _ => ?_⟩⟩
      rw [Tree.lookup_short, if_pos hpre]
      exact hd.absent rfl
    | true =>
      obtain ⟨tc', hsets, hleaves⟩ := hd.found rfl
      obtain ⟨r'', hms⟩ := hleaves.mergeShort hd.clears.next_le key
      refine ⟨(r'', true), hms.mono fun m₃ hm₃ => ?_⟩
      obtain ⟨hcl₃, hl₃⟩ := hm₃
      refine ⟨hcl₂.trans hcl₃ (List.Subset.refl _) fun _ hq => absurd hq List.not_mem_nil,
        fun _ => ⟨_, (Tree.Sets.short hfit hpre hsets).merge, hl₃.after le_rfl fun q hq => ?_⟩,
        fun h => Bool.noConfusion h⟩
      exact .inl (List.mem_cons_of_mem _ hq)
  · refine (Holds.deleteNode_long f (hc.of_clears hbc hcl) hbc hlc
      (by rw [List.length_drop]; omega) (by rw [List.length_drop]; omega)).bind_exists
      fun m₂ hm₂ => ?_
    rw [Txn.mergeShort]
    refine ⟨(none, false), .pure ⟨hcl.trans hm₂ (List.Subset.refl _)
      fun q hq _ => List.mem_cons_of_mem _ hq, fun h => absurd h Bool.false_ne_true, fun _ => ?_⟩⟩
    rw [Tree.lookup_short, if_neg fun hpre => haligned (prefixLen_eq_length hpre)]

theorem Holds.deleteNode_full {f : ℕ} {m : Mem} {p : Ptr} {ts : List Tree} {tv : Tree}
    {S : List Ptr} (hs : Holds m.heap (some p) (.full ts tv) S)
    (hbound : ∀ q ∈ S, q < m.heap.next) (hfit : (Tree.full ts tv).Fit false) {k : UInt8}
    {rest : List UInt8} (hkey : Keyed false (k :: rest))
    (hsub : ∀ (m₁ : Mem) c Se, Holds m₁.heap c (Tree.edgeAt ts tv k.toNat) Se →
      (∀ q ∈ Se, q < m₁.heap.next) → ∃ res, Completes (t.deleteNode f c rest) m₁ res
        (Deleted (decide (k.toNat = 16)) (Tree.edgeAt ts tv k.toNat) rest Se m₁ res)) :
    ∃ res, Completes (t.deleteNode (f + 1) (some p) (k :: rest)) m res
      (Deleted false (.full ts tv) (k :: rest) S m res) := by
  cases hs with
  | @full _ hash ep v cs _ _ Se hp hlen htlen hedges hnodup =>
  obtain ⟨hk, -⟩ := hkey.cons
  have hk17 : k.toNat < 17 := by omega
  have hold : ∀ i < 17, ∀ q ∈ Se i, q < m.heap.next := fun i hi q hq =>
    hbound q (Holds.mem_of_edge hi hq)
  rw [Txn.deleteNode]
  refine (getCell_completes _ m).bind_exists fun m₀ hm₀ => ?_
  subst m₀
  rw [hp]
  dsimp only
  refine (alloc_completes _ m).bind_exists fun m₁ hm₁ => ?_
  have hal : Clears (p :: (List.range 17).flatMap Se) m m₁ := hm₁ ▸ Clears.alloc _ m _
  have hb₁ : m₁.heap.cells m.heap.next = .full [] 0 v cs := by
    rw [hm₁, Heap.alloc_cells, if_pos rfl]
  have hnext₁ : m.heap.next < m₁.heap.next := by
    rw [hm₁, Heap.alloc_next]
    exact Nat.lt_succ_self _
  refine (getCell_completes _ m₁).bind_exists fun m₀ hm₀ => ?_
  subst m₀
  rw [hb₁, Node.getEdge_full]
  obtain ⟨⟨r', ok'⟩, hres⟩ := hsub m₁ _ _ ((hedges _ hk17).of_clears (hold _ hk17) hal)
    fun q hq => (hold _ hk17 q hq).trans hnext₁
  refine hres.bind_exists fun m₂ hd => ?_
  have hcl₂ : Clears (p :: (List.range 17).flatMap Se) m m₂ :=
    hal.trans hd.clears (List.Subset.refl _) fun q hq _ => Holds.mem_of_edge hk17 hq
  cases ok' with
  | false =>
    refine ⟨(none, false), .pure ⟨hcl₂, fun h => absurd h Bool.false_ne_true, fun _ => ?_⟩⟩
    rw [Tree.lookup_full_cons]
    exact hd.absent rfl
  | true =>
    obtain ⟨tk, hsets, S', hs', hb', hw'⟩ := hd.found rfl
    have hbound₁ : ∀ q ∈ m.heap.next :: (List.range 17).flatMap Se, q < m₁.heap.next := by
      intro q hq
      rcases List.mem_cons.mp hq with rfl | hq
      · exact hnext₁
      · exact (hbound q (List.mem_cons_of_mem _ hq)).trans hnext₁
    have hheld := Holds.full_set hb₁ hlen htlen
      (fun i hi => (hedges i hi).of_clears (hold i hi) hal)
      (List.nodup_cons.mpr ⟨fun h => lt_irrefl _ (hbound _ (List.mem_cons_of_mem _ h)),
        (List.nodup_cons.mp hnodup).2⟩)
      hbound₁ hk (fun q hq hqk => hd.clears.cells_eq hq hqk) hs' hw'
    rw [Tree.setEdge_full] at hheld
    have hnext₂ := hd.clears.next_le
    have hbound₂ : ∀ q ∈ m.heap.next :: (List.range 17).flatMap (Function.update Se k.toNat S'),
        q < m₂.heap.next := by
      intro q hq
      rcases List.mem_cons.mp hq with rfl | hq
      · exact hnext₁.trans_le hnext₂
      · rcases mem_flatMap_update hq with hq | hq
        · exact hb' q hq
        · exact ((hbound q (List.mem_cons_of_mem _ hq)).trans hnext₁).trans_le hnext₂
    refine (modifyCell_completes _ _ _).bind_exists fun m₃ hm₃ => ?_
    subst m₃
    obtain ⟨res, hcol⟩ := Holds.collapse (m := { m₂ with heap := _ }) hheld hbound₂
    refine ⟨res, hcol.mono fun m₄ hm₄ => ?_⟩
    obtain ⟨hok, hcl₄, hl₄⟩ := hm₄
    have hsets' := Tree.Sets.edge hfit hkey hsets
    rw [Tree.setEdge_full] at hsets'
    refine ⟨(hcl₂.set_new le_rfl _).trans hcl₄ (List.Subset.refl _)
      fun _ hq => absurd hq List.not_mem_nil,
      fun _ => ⟨_, hsets'.collapse, hl₄.after (hnext₁.le.trans hnext₂)
        fun q hq => ?_⟩, fun h => absurd (hok.symm.trans h) (by decide)⟩
    rcases List.mem_cons.mp hq with rfl | hq
    · exact .inr le_rfl
    · rcases mem_flatMap_update hq with hq | hq
      · rcases hw' q hq with hq | hq
        · exact .inl (Holds.mem_of_edge hk17 hq)
        · exact .inr (hnext₁.le.trans hq)
      · exact .inl (List.mem_cons_of_mem _ hq)

theorem Holds.deleteNode : ∀ (fuel : ℕ) {m : Mem} {c : Option Ptr} {tr : Tree} {S : List Ptr}
    {done : Bool} {s : List UInt8}, Holds m.heap c tr S → (∀ q ∈ S, q < m.heap.next) →
    tr.Fit done → tr.Level s.length → Keyed done s → s.length < fuel →
    ∃ res, Completes (t.deleteNode fuel c s) m res (Deleted done tr s S m res) := by
  intro fuel
  induction fuel with
  | zero => intro _ _ _ _ _ _ _ _ _ _ _ hfuel; omega
  | succ f ih =>
    intro m c tr S done s hs hbound hfit hlevel hkey hfuel
    cases tr with
    | nil =>
      obtain ⟨rfl, rfl⟩ := hs.of_nil
      rw [Txn.deleteNode]
      exact ⟨(none, false), .pure ⟨Clears.refl _ _, fun h => absurd h Bool.false_ne_true,
        fun _ => Tree.lookup_nil _⟩⟩
    | value buf =>
      obtain rfl := hfit.value_done
      obtain rfl : s = [] := hkey
      cases hs with
      | value hp =>
      rw [Txn.deleteNode]
      refine (getCell_completes _ m).bind_exists fun m₀ hm₀ => ?_
      subst m₀
      rw [hp]
      simp only [Bool.false_eq_true, if_false, decide_true]
      exact ⟨(none, true), .pure ⟨Clears.refl _ _, fun _ => ⟨.nil, Tree.Sets.drop_value buf, [],
        .nil, by simp, by simp⟩, fun h => Bool.noConfusion h⟩⟩
    | short key tc =>
      obtain rfl := hfit.short_done
      obtain ⟨p, rfl⟩ := hs.exists_some (by simp)
      have hkey0 : 0 < key.length := List.length_pos_iff.mpr hfit.short_ne_nil
      obtain ⟨-, hlc⟩ := hlevel.short_inv
      exact Holds.deleteNode_short hs hbound hfit hlevel hkey hfuel fun hpre _ _ _ hc hbc =>
        ih hc hbc hfit.short_child (by rwa [List.length_drop]) (hfit.keyed_drop hkey hpre)
          (by have := hpre.length_le; rw [List.length_drop]; omega)
    | full ts tv =>
      obtain ⟨rfl, -⟩ := hfit.full_inv
      obtain ⟨p, rfl⟩ := hs.exists_some (by simp)
      obtain ⟨k, rest, rfl⟩ := List.exists_cons_of_ne_nil hkey.ne_nil
      obtain ⟨hk, hrest⟩ := hkey.cons
      rw [List.length_cons] at hlevel hfuel
      exact Holds.deleteNode_full hs hbound hfit hkey fun _ _ _ hs₁ hb₁ =>
        ih hs₁ hb₁ (hfit.edgeAt hk) (hlevel.edgeAt _) hrest (by omega)

/-- Without keys of one length a delete of a key that is not there can remove another. The trie
holds `[0x12, 0x34, 0x56]` and `[0x12, 0x34, 0x78]` under a short node of the nibbles `1 2 3 4`.
The key `[0x12, 0x56]` shares two nibbles with that node, and the rest of it, `5 6`, walks down
the edge `5` to the leaf of the first key and deletes it. -/
example :
    ((do
      let t ← ((Trie.mk none 0).txn ⟨[]⟩).insert [0x12, 0x34, 0x56] [1]
      let t ← t.insert [0x12, 0x34, 0x78] [2]
      let before ← t.lookup [0x12, 0x56]
      let t ← t.delete [0x12, 0x56]
      let after ← t.lookup [0x12, 0x34, 0x56]
      pure (before, after)) : TrieM _).run' Mem.empty = .ok (none, none) := by
  decide +kernel

end ImmutableTrie
