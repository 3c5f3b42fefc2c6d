import Mathlib
import MindPos.ImmutableTrieSpells

/-! # The trie as a map

`Txn.lookup` walks a key of nibbles down the nodes: a short node passes on what is left of the
key after its own key, a full node what is left after the first nibble, the terminator 16 choosing
the value slot. `Tree.lookup` is that walk on a tree. The keys a trie is asked about end in the
terminator and hold no other, so a position of a trie is reached either by such keys (`Keyed
false`) or, past the terminator, only by the empty key (`Keyed true`). `Tree.Fit` says which nodes
stand where, and `Tree.Sets` states an insert or a delete as an update of the map on the keys that
reach the position: the rules below are one per shape of `Txn.insert`. -/
namespace ImmutableTrie

open RlpEncoding

mutual
/-- `Txn.lookup` on a tree. -/
def Tree.lookup : Tree → List UInt8 → Option (List UInt8)
  | .nil, _ => none
  | .value buf, key => if key = [] then some buf else none
  | .short k c, key =>
    if k.length > key.length ∨ key.take k.length ≠ k then none else c.lookup (key.drop k.length)
  | .full _ v, [] => v.lookup []
  | .full cs v, k :: rest => if k = 16 then v.lookup rest else Tree.lookupAt cs k.toNat rest
def Tree.lookupAt : List Tree → ℕ → List UInt8 → Option (List UInt8)
  | [], _, _ => none
  | c :: _, 0, key => c.lookup key
  | _ :: cs, i + 1, key => Tree.lookupAt cs i key
end

namespace Tree

/-- `getEdge` of a full node on trees, by the edge's number: edge 16 is the value slot. -/
def edgeAt (cs : List Tree) (tv : Tree) (i : ℕ) : Tree := if i = 16 then tv else cs.getD i .nil

/-- `setEdge` on trees. -/
def setEdge : Tree → ℕ → Tree → Tree
  | .full cs tv, i, c => if i = 16 then .full cs c else .full (cs.set i c) tv
  | t, _, _ => t

def splitAt (key : List UInt8) (c : Tree) (plen : ℕ) : Tree :=
  (Tree.full (List.replicate 16 .nil) .nil).setEdge (key.getD plen 0).toNat
    (if key.length > plen + 1 then .short (key.drop (plen + 1)) c else c)

end Tree

/-- The keys that reach a position: past the terminator only the empty key, before it the
nibbles of the rest of a key and the terminator. -/
def Keyed : Bool → List UInt8 → Prop
  | true, s => s = []
  | false, s => ∃ ns, (∀ x ∈ ns, x < 16) ∧ s = ns ++ [16]

/-- The nodes that stand at a position. Past the terminator a value or nothing; before it a
short node with a key of nibbles, followed by more of the key or by the terminator, or a full
node whose value slot is past the terminator. -/
inductive Tree.Fit : Bool → Tree → Prop
  | nil (done : Bool) : Fit done .nil
  | value (buf : List UInt8) : Fit true (.value buf)
  | ext {ns : List UInt8} {c : Tree} (hne : ns ≠ []) (hns : ∀ x ∈ ns, x < 16) (hc : Fit false c) :
      Fit false (.short ns c)
  | leaf {ns : List UInt8} {c : Tree} (hns : ∀ x ∈ ns, x < 16) (hc : Fit true c) :
      Fit false (.short (ns ++ [16]) c)
  | full {cs : List Tree} {tv : Tree} (hlen : cs.length = 16) (hcs : ∀ c ∈ cs, Fit false c)
      (hv : Fit true tv) : Fit false (.full cs tv)

/-- The nodes that stand where every key has `n` nibbles left: a value after the last nibble, a
short node whose key fits in them over a node that stands after it, and a full node whose edges
stand one nibble further. A trie of keys of one length stands at their length. -/
inductive Tree.Level : ℕ → Tree → Prop
  | nil (n : ℕ) : Level n .nil
  | value (buf : List UInt8) : Level 0 (.value buf)
  | short {n : ℕ} {key : List UInt8} {c : Tree} (hle : key.length ≤ n)
      (hc : Level (n - key.length) c) : Level n (.short key c)
  | full {n : ℕ} {cs : List Tree} {tv : Tree} (hcs : ∀ c ∈ cs, Level n c) (hv : Level n tv) :
      Level (n + 1) (.full cs tv)

/-- `t'` is `t` with the key `s` set to `o`, a value put or `none` for a key removed, as far as
the keys that reach the position go, and it stands where `t` did. -/
structure Tree.Sets (done : Bool) (t t' : Tree) (s : List UInt8) (o : Option (List UInt8)) :
    Prop where
  fit : t'.Fit done
  level : t.Level s.length → t'.Level s.length
  lookup_eq : ∀ s', Keyed done s' → t'.lookup s' = if s' = s then o else t.lookup s'

/-! ## Lookups, one lemma per node -/

namespace Tree

@[simp] theorem lookup_nil (s : List UInt8) : Tree.nil.lookup s = none := rfl

theorem lookup_value (buf s : List UInt8) :
    (Tree.value buf).lookup s = if s = [] then some buf else none := rfl

theorem lookup_short (key : List UInt8) (c : Tree) (s : List UInt8) :
    (Tree.short key c).lookup s = if key <+: s then c.lookup (s.drop key.length) else none := by
  rw [Tree.lookup]
  by_cases hpre : key <+: s
  · rw [if_pos hpre, if_neg]
    rw [not_or, not_lt, not_not]
    exact ⟨hpre.length_le, (List.prefix_iff_eq_take.mp hpre).symm⟩
  · rw [if_neg hpre, if_pos]
    by_contra h
    rw [not_or, not_lt, not_not] at h
    exact hpre (List.prefix_iff_eq_take.mpr h.2.symm)

theorem lookupAt_eq (cs : List Tree) (i : ℕ) (s : List UInt8) :
    Tree.lookupAt cs i s = (cs.getD i .nil).lookup s := by
  induction cs generalizing i with
  | nil => simp [Tree.lookupAt]
  | cons c cs ih =>
    cases i with
    | zero => rw [Tree.lookupAt]; rfl
    | succ i => rw [Tree.lookupAt, ih]; rfl

theorem lookup_full_nil (cs : List Tree) (tv : Tree) : (Tree.full cs tv).lookup [] = tv.lookup [] := rfl

theorem lookup_full_cons (cs : List Tree) (tv : Tree) (k : UInt8) (rest : List UInt8) :
    (Tree.full cs tv).lookup (k :: rest) = (edgeAt cs tv k.toNat).lookup rest := by
  rw [Tree.lookup, edgeAt, lookupAt_eq]
  by_cases hk : k = 16
  · rw [if_pos hk, if_pos (by rw [hk]; rfl)]
  · rw [if_neg hk, if_neg fun h => hk (UInt8.toNat_inj.mp (by rw [h]; rfl))]

theorem lookup_setEdge_cons {cs : List Tree} (hlen : cs.length = 16) (tv c : Tree) {i : ℕ}
    (hi : i ≤ 16) (x : UInt8) (r : List UInt8) :
    ((Tree.full cs tv).setEdge i c).lookup (x :: r) =
      if x.toNat = i then c.lookup r else (Tree.full cs tv).lookup (x :: r) := by
  rw [lookup_full_cons, setEdge]
  by_cases h16 : i = 16
  · subst h16
    rw [if_pos rfl, lookup_full_cons]
    by_cases hx : x.toNat = 16
    · rw [if_pos hx, edgeAt, if_pos hx]
    · rw [if_neg hx, edgeAt, edgeAt, if_neg hx, if_neg hx]
  · rw [if_neg h16, lookup_full_cons]
    by_cases hx : x.toNat = i
    · rw [if_pos hx, edgeAt, if_neg (by omega), hx, getD_set_self (by omega)]
    · rw [if_neg hx, edgeAt, edgeAt, getD_set_ne (Ne.symm hx)]

end Tree

/-! ## The keys that reach a position -/

namespace Keyed

theorem ne_nil {s : List UInt8} (hs : Keyed false s) : s ≠ [] := by
  obtain ⟨ns, -, rfl⟩ := hs
  simp

theorem cons {k : UInt8} {rest : List UInt8} (hs : Keyed false (k :: rest)) :
    k.toNat ≤ 16 ∧ Keyed (decide (k.toNat = 16)) rest := by
  obtain ⟨ns, hns, hs⟩ := hs
  cases ns with
  | nil =>
    obtain ⟨rfl, rfl⟩ := List.cons.inj hs
    exact ⟨by decide, rfl⟩
  | cons x ns =>
    obtain ⟨rfl, rfl⟩ := List.cons.inj hs
    have hk : k.toNat < 16 := UInt8.lt_iff_toNat_lt.mp (hns k List.mem_cons_self)
    rw [decide_eq_false (by omega)]
    exact ⟨by omega, ns, fun y hy => hns y (List.mem_cons_of_mem _ hy), rfl⟩

theorem drop {s : List UInt8} (hs : Keyed false s) {i : ℕ} (hi : i < s.length) :
    Keyed false (s.drop i) := by
  obtain ⟨ns, hns, rfl⟩ := hs
  rw [List.length_append, List.length_singleton] at hi
  exact ⟨ns.drop i, fun x hx => hns x (List.mem_of_mem_drop hx),
    List.drop_append_of_le_length (by omega)⟩

theorem length_lt {s p : List UInt8} (hs : Keyed false s) (hp : ∀ x ∈ p, x < 16) (hpre : p <+: s) :
    p.length < s.length := by
  obtain ⟨ns, -, rfl⟩ := hs
  by_contra hle
  have heq : p = ns ++ [16] := hpre.eq_of_length (by have := hpre.length_le; omega)
  exact absurd (hp 16 (by rw [heq]; simp)) (by decide)

theorem eq_of_prefix {s ns : List UInt8} (hs : Keyed false s) (hpre : ns ++ [16] <+: s) :
    s = ns ++ [16] := by
  obtain ⟨ms, hms, rfl⟩ := hs
  have hle := hpre.length_le
  simp only [List.length_append, List.length_singleton] at hle
  rcases Nat.lt_or_ge ns.length ms.length with hlt | hge
  · have htake := List.prefix_iff_eq_take.mp hpre
    rw [List.take_append_of_le_length (by simp only [List.length_append, List.length_singleton]; omega)]
      at htake
    have h16 : (16 : UInt8) ∈ ms := List.mem_of_mem_take (htake ▸ (by simp : (16 : UInt8) ∈ ns ++ [16]))
    exact absurd (hms 16 h16) (by decide)
  · exact (hpre.eq_of_length (by simp only [List.length_append, List.length_singleton]; omega)).symm

end Keyed

/-! ## The nodes that stand at a position -/

namespace Tree.Fit

theorem short_inv {key : List UInt8} {c : Tree} (h : (Tree.short key c).Fit false) :
    (key ≠ [] ∧ (∀ x ∈ key, x < 16) ∧ c.Fit false) ∨
      (∃ ns, (∀ x ∈ ns, x < 16) ∧ key = ns ++ [16] ∧ c.Fit true) := by
  generalize ht : Tree.short key c = t at h
  cases h with
  | ext hne hns hc =>
    cases ht
    exact .inl ⟨hne, hns, hc⟩
  | leaf hns hc =>
    cases ht
    exact .inr ⟨_, hns, rfl, hc⟩
  | nil => cases ht
  | full => cases ht

theorem value_done {buf : List UInt8} {done : Bool} (h : (Tree.value buf).Fit done) :
    done = true := by
  cases h
  rfl

theorem short_done {key : List UInt8} {c : Tree} {done : Bool} (h : (Tree.short key c).Fit done) :
    done = false := by
  cases h <;> rfl

theorem short_ne_nil {key : List UInt8} {c : Tree} (h : (Tree.short key c).Fit false) : key ≠ [] := by
  rcases short_inv h with ⟨hne, -, -⟩ | ⟨ns, -, rfl, -⟩
  · exact hne
  · simp

theorem short_child {key : List UInt8} {c : Tree} (h : (Tree.short key c).Fit false) :
    c.Fit (decide ((16 : UInt8) ∈ key)) := by
  rcases short_inv h with ⟨-, hns, hc⟩ | ⟨ns, hns, rfl, hc⟩
  · rwa [decide_eq_false fun h16 => absurd (hns 16 h16) (by decide)]
  · rwa [decide_eq_true (by simp)]

theorem short_of_child {key : List UInt8} {c c' : Tree} (h : (Tree.short key c).Fit false)
    (hc : c'.Fit (decide ((16 : UInt8) ∈ key))) : (Tree.short key c').Fit false := by
  rcases short_inv h with ⟨hne, hns, -⟩ | ⟨ns, hns, rfl, -⟩
  · rw [decide_eq_false fun h16 => absurd (hns 16 h16) (by decide)] at hc
    exact .ext hne hns hc
  · rw [decide_eq_true (by simp)] at hc
    exact .leaf hns hc

theorem take_lt {key : List UInt8} {c : Tree} (h : (Tree.short key c).Fit false) {j : ℕ}
    (hj : j < key.length) : ∀ x ∈ key.take j, x < 16 := by
  rcases short_inv h with ⟨-, hns, -⟩ | ⟨ns, hns, rfl, -⟩
  · exact fun x hx => hns x (List.mem_of_mem_take hx)
  · rw [List.length_append, List.length_singleton] at hj
    rw [List.take_append_of_le_length (by omega)]
    exact fun x hx => hns x (List.mem_of_mem_take hx)

theorem keyed_drop {key : List UInt8} {c : Tree} (h : (Tree.short key c).Fit false)
    {s : List UInt8} (hs : Keyed false s) (hpre : key <+: s) :
    Keyed (decide ((16 : UInt8) ∈ key)) (s.drop key.length) := by
  rcases short_inv h with ⟨-, hns, -⟩ | ⟨ns, -, rfl, -⟩
  · rw [decide_eq_false fun h16 => absurd (hns 16 h16) (by decide)]
    exact hs.drop (hs.length_lt hns hpre)
  · rw [decide_eq_true (by simp), hs.eq_of_prefix hpre, List.drop_length]
    rfl

theorem full_inv {cs : List Tree} {tv : Tree} {done : Bool} (h : (Tree.full cs tv).Fit done) :
    done = false ∧ cs.length = 16 ∧ (∀ c ∈ cs, c.Fit false) ∧ tv.Fit true := by
  cases h with
  | full hlen hcs hv => exact ⟨rfl, hlen, hcs, hv⟩

theorem edgeAt {cs : List Tree} {tv : Tree} (h : (Tree.full cs tv).Fit false) {i : ℕ}
    (hi : i ≤ 16) : (Tree.edgeAt cs tv i).Fit (decide (i = 16)) := by
  obtain ⟨-, hlen, hcs, hv⟩ := full_inv h
  by_cases h16 : i = 16
  · rw [Tree.edgeAt, if_pos h16, decide_eq_true h16]
    exact hv
  · rw [Tree.edgeAt, if_neg h16, decide_eq_false h16, List.getD_eq_getElem _ _ (by omega)]
    exact hcs _ (List.getElem_mem _)

theorem setEdge {cs : List Tree} {tv c : Tree} (h : (Tree.full cs tv).Fit false) {i : ℕ}
    (hc : c.Fit (decide (i = 16))) : ((Tree.full cs tv).setEdge i c).Fit false := by
  obtain ⟨-, hlen, hcs, hv⟩ := full_inv h
  rw [Tree.setEdge]
  by_cases h16 : i = 16
  · rw [if_pos h16]
    rw [decide_eq_true h16] at hc
    exact .full hlen hcs hc
  · rw [if_neg h16]
    rw [decide_eq_false h16] at hc
    refine .full (by rw [List.length_set, hlen]) (fun x hx => ?_) hv
    rcases List.mem_or_eq_of_mem_set hx with hx | rfl
    · exact hcs x hx
    · exact hc

end Tree.Fit

namespace Tree.Level

theorem short_inv {n : ℕ} {key : List UInt8} {c : Tree} (h : (Tree.short key c).Level n) :
    key.length ≤ n ∧ c.Level (n - key.length) := by
  cases h with
  | short hle hc => exact ⟨hle, hc⟩

theorem full_inv {n : ℕ} {cs : List Tree} {tv : Tree} (h : (Tree.full cs tv).Level n) :
    ∃ n', n = n' + 1 ∧ (∀ c ∈ cs, c.Level n') ∧ tv.Level n' := by
  cases h with
  | full hcs hv => exact ⟨_, rfl, hcs, hv⟩

theorem edgeAt {n : ℕ} {cs : List Tree} {tv : Tree} (h : (Tree.full cs tv).Level (n + 1)) (i : ℕ) :
    (Tree.edgeAt cs tv i).Level n := by
  obtain ⟨n', hn, hcs, hv⟩ := full_inv h
  obtain rfl : n = n' := by omega
  rw [Tree.edgeAt]
  split
  · exact hv
  · rw [List.getD_eq_getElem?_getD]
    cases hget : cs[i]? with
    | none => exact .nil n
    | some c => exact hcs c (List.mem_of_getElem? hget)

theorem setEdge {n : ℕ} {cs : List Tree} {tv c : Tree} (h : (Tree.full cs tv).Level (n + 1))
    (hc : c.Level n) (i : ℕ) : ((Tree.full cs tv).setEdge i c).Level (n + 1) := by
  obtain ⟨n', hn, hcs, hv⟩ := full_inv h
  obtain rfl : n = n' := by omega
  rw [Tree.setEdge]
  split
  · exact .full hcs hc
  · refine .full (fun x hx => ?_) hv
    rcases List.mem_or_eq_of_mem_set hx with hx | rfl
    · exact hcs x hx
    · exact hc

end Tree.Level

/-! ## Common prefixes -/

theorem take_prefixLen (a b : List UInt8) : a.take (prefixLen a b) = b.take (prefixLen a b) := by
  induction a generalizing b with
  | nil => simp [prefixLen]
  | cons x as ih =>
    cases b with
    | nil => simp [prefixLen]
    | cons y bs =>
      rw [prefixLen]
      by_cases hxy : x = y
      · rw [if_pos hxy, List.take_succ_cons, List.take_succ_cons, ih bs, hxy]
      · rw [if_neg hxy]
        rfl

theorem prefixLen_le_right (a b : List UInt8) : prefixLen a b ≤ b.length := by
  induction a generalizing b with
  | nil => simp [prefixLen]
  | cons x as ih =>
    cases b with
    | nil => simp [prefixLen]
    | cons y bs =>
      rw [prefixLen]
      split_ifs
      · exact Nat.succ_le_succ (ih bs)
      · exact Nat.zero_le _

theorem prefix_of_prefixLen {a b : List UInt8} (h : prefixLen a b = b.length) : b <+: a := by
  have htake := take_prefixLen a b
  rw [h, List.take_length] at htake
  rw [← htake]
  exact List.take_prefix _ _

theorem drop_eq_iff_of_prefix {p a b : List UInt8} (ha : p <+: a) (hb : p <+: b) :
    a.drop p.length = b.drop p.length ↔ a = b := by
  obtain ⟨a', rfl⟩ := ha
  obtain ⟨b', rfl⟩ := hb
  rw [List.drop_left, List.drop_left, List.append_cancel_left_eq]

/-! ## An insert, one rule per shape of `Txn.insert` -/

namespace Tree.Sets

variable {o : Option (List UInt8)}

theorem closed (t : Tree) (v : List UInt8) : t.Sets true (.value v) [] (some v) := by
  refine ⟨.value v, fun _ => .value v, fun s' hs' => ?_⟩
  change s' = [] at hs'
  subst hs'
  rw [Tree.lookup_value, if_pos rfl, if_pos rfl]

theorem leaf {s : List UInt8} (hs : Keyed false s) (v : List UInt8) :
    Tree.nil.Sets false (.short s (.value v)) s (some v) := by
  obtain ⟨ns, hns, rfl⟩ := hs
  refine ⟨.leaf hns (.value v), fun _ => .short le_rfl ?_, fun s' hs' => ?_⟩
  · rw [Nat.sub_self]
    exact .value v
  rw [Tree.lookup_short, Tree.lookup_nil]
  by_cases hpre : ns ++ [16] <+: s'
  · rw [if_pos hpre, hs'.eq_of_prefix hpre, if_pos rfl, List.drop_length, Tree.lookup_value,
      if_pos rfl]
  · rw [if_neg hpre, if_neg]
    rintro rfl
    exact hpre (List.prefix_refl _)

theorem short {key s : List UInt8} {c c' : Tree} (hfit : (Tree.short key c).Fit false)
    (hpre : key <+: s) (hc : c.Sets (decide ((16 : UInt8) ∈ key)) c' (s.drop key.length) o) :
    (Tree.short key c).Sets false (.short key c') s o := by
  refine ⟨hfit.short_of_child hc.fit, fun hlevel => ?_, fun s' hs' => ?_⟩
  · obtain ⟨hle, hlc⟩ := hlevel.short_inv
    rw [← List.length_drop] at hlc
    exact .short hle (by rw [← List.length_drop]; exact hc.level hlc)
  rw [Tree.lookup_short, Tree.lookup_short]
  by_cases hpre' : key <+: s'
  · rw [if_pos hpre', if_pos hpre', hc.lookup_eq _ (hfit.keyed_drop hs' hpre')]
    have hiff := drop_eq_iff_of_prefix hpre' hpre
    by_cases heq : s' = s
    · rw [if_pos (hiff.mpr heq), if_pos heq]
    · rw [if_neg (mt hiff.mp heq), if_neg heq]
  · rw [if_neg hpre', if_neg hpre', if_neg]
    rintro rfl
    exact hpre' hpre

theorem edge {cs : List Tree} {tv c' : Tree} {k : UInt8} {rest : List UInt8}
    (hfit : (Tree.full cs tv).Fit false) (hs : Keyed false (k :: rest))
    (hc : (Tree.edgeAt cs tv k.toNat).Sets (decide (k.toNat = 16)) c' rest o) :
    (Tree.full cs tv).Sets false ((Tree.full cs tv).setEdge k.toNat c') (k :: rest) o := by
  obtain ⟨-, hlen, -, -⟩ := hfit.full_inv
  refine ⟨hfit.setEdge hc.fit, fun hlevel => hlevel.setEdge (hc.level (hlevel.edgeAt _)) _,
    fun s' hs' => ?_⟩
  obtain ⟨x, r, rfl⟩ := List.exists_cons_of_ne_nil hs'.ne_nil
  rw [Tree.lookup_setEdge_cons hlen _ _ hs.cons.1]
  by_cases hx : x.toNat = k.toNat
  · obtain rfl : x = k := UInt8.toNat_inj.mp hx
    rw [if_pos rfl, hc.lookup_eq r hs'.cons.2, Tree.lookup_full_cons]
    simp only [List.cons.injEq, true_and]
  · rw [if_neg hx, if_neg fun h => hx (by rw [(List.cons.inj h).1])]

end Tree.Sets

/-! ## Splitting a short node -/

namespace Tree

theorem lookup_splitEdge (key : List UInt8) (c : Tree) (j : ℕ) (r : List UInt8) :
    (if key.length > j + 1 then Tree.short (key.drop (j + 1)) c else c).lookup r =
      if key.drop (j + 1) <+: r then c.lookup (r.drop (key.drop (j + 1)).length) else none := by
  by_cases hlong : key.length > j + 1
  · rw [if_pos hlong, lookup_short]
  · rw [if_neg hlong, List.drop_eq_nil_of_le (by omega), if_pos (List.nil_prefix), List.length_nil,
      List.drop_zero]

theorem Fit.getD_le {key : List UInt8} {c : Tree} (h : (Tree.short key c).Fit false) (j : ℕ) :
    (key.getD j 0).toNat ≤ 16 := by
  by_cases hj : j < key.length
  · have hmem : key.getD j 0 ∈ key := by
      rw [List.getD_eq_getElem _ _ hj]
      exact List.getElem_mem hj
    rcases Fit.short_inv h with ⟨-, hns, -⟩ | ⟨ns, hns, rfl, -⟩
    · exact (UInt8.lt_iff_toNat_lt.mp (hns _ hmem)).le
    · rcases List.mem_append.mp hmem with hx | hx
      · exact (UInt8.lt_iff_toNat_lt.mp (hns _ hx)).le
      · rw [List.mem_singleton.mp hx]
        decide
  · rw [List.getD_eq_default _ _ (by omega)]
    decide

theorem Fit.splitEdge {key : List UInt8} {c : Tree} (h : (Tree.short key c).Fit false) {j : ℕ}
    (hj : j < key.length) :
    (if key.length > j + 1 then Tree.short (key.drop (j + 1)) c else c).Fit
      (decide ((key.getD j 0).toNat = 16)) := by
  rcases Fit.short_inv h with ⟨-, hns, hc⟩ | ⟨ns, hns, rfl, hc⟩
  · have hnib : (key.getD j 0).toNat < 16 := by
      rw [List.getD_eq_getElem _ _ hj]
      exact UInt8.lt_iff_toNat_lt.mp (hns _ (List.getElem_mem hj))
    rw [decide_eq_false (by omega)]
    by_cases hlong : key.length > j + 1
    · rw [if_pos hlong]
      exact .ext (by simp; omega) (fun x hx => hns x (List.mem_of_mem_drop hx)) hc
    · rw [if_neg hlong]
      exact hc
  · rw [List.length_append, List.length_singleton] at hj
    by_cases hlong : j < ns.length
    · have hnib : ((ns ++ [16]).getD j 0).toNat < 16 := by
        rw [List.getD_append _ _ _ _ hlong, List.getD_eq_getElem _ _ hlong]
        exact UInt8.lt_iff_toNat_lt.mp (hns _ (List.getElem_mem hlong))
      rw [decide_eq_false (by omega), if_pos (by simp; omega),
        List.drop_append_of_le_length (by omega)]
      exact .leaf (fun x hx => hns x (List.mem_of_mem_drop hx)) hc
    · obtain rfl : j = ns.length := by omega
      have h16 : (([16] : List UInt8).getD 0 0).toNat = 16 := rfl
      rw [List.getD_append_right _ _ _ _ le_rfl, Nat.sub_self, decide_eq_true h16, if_neg (by simp)]
      exact hc

theorem edgeAt_empty (i : ℕ) : edgeAt (List.replicate 16 .nil) .nil i = .nil := by
  rw [edgeAt]
  split_ifs
  · rfl
  · rw [List.getD_eq_getElem?_getD, List.getElem?_replicate]
    split_ifs <;> rfl

theorem Fit.splitAt {key : List UInt8} {c : Tree} (h : (Tree.short key c).Fit false) {j : ℕ}
    (hj : j < key.length) : (Tree.splitAt key c j).Fit false := by
  have hempty : (Tree.full (List.replicate 16 .nil) .nil).Fit false :=
    .full (by simp) (fun x hx => by rw [List.eq_of_mem_replicate hx]; exact .nil false) (.nil true)
  exact hempty.setEdge (h.splitEdge hj)

theorem Level.splitAt {n : ℕ} {key : List UInt8} {c : Tree} (h : (Tree.short key c).Level n)
    {j : ℕ} (hj : j < key.length) : (Tree.splitAt key c j).Level (n - j) := by
  obtain ⟨hle, hc⟩ := h.short_inv
  have hempty : (Tree.full (List.replicate 16 .nil) .nil).Level (n - j - 1 + 1) :=
    .full (fun x hx => by rw [List.eq_of_mem_replicate hx]; exact .nil _) (.nil _)
  rw [Tree.splitAt, show n - j = n - j - 1 + 1 by omega]
  refine hempty.setEdge ?_ _
  by_cases hlong : key.length > j + 1
  · rw [if_pos hlong]
    refine .short (by rw [List.length_drop]; omega) ?_
    rw [List.length_drop, show n - j - 1 - (key.length - (j + 1)) = n - key.length by omega]
    exact hc
  · rw [if_neg hlong, show n - j - 1 = n - key.length by omega]
    exact hc

theorem lookup_splitAt {key : List UInt8} {c : Tree} (h : (Tree.short key c).Fit false) {j : ℕ}
    (hj : j < key.length) {s : List UInt8} (hs : Keyed false s) :
    (Tree.short key c).lookup s =
      if key.take j <+: s then (Tree.splitAt key c j).lookup (s.drop j) else none := by
  rw [lookup_short]
  by_cases hpre : key.take j <+: s
  · rw [if_pos hpre]
    have hlt : j < s.length := by
      have := hs.length_lt (h.take_lt hj) hpre
      rwa [List.length_take, min_eq_left hj.le] at this
    have hne : s.drop j ≠ [] := by
      rw [ne_eq, List.drop_eq_nil_iff, not_le]
      exact hlt
    obtain ⟨x, r, hxr⟩ := List.exists_cons_of_ne_nil hne
    have hlen : (key.take j).length = j := by rw [List.length_take, min_eq_left hj.le]
    have htake : s.take j = key.take j := by
      have := List.prefix_iff_eq_take.mp hpre
      rw [hlen] at this
      exact this.symm
    have hs' : s = key.take j ++ x :: r := by
      rw [← hxr, ← htake, List.take_append_drop]
    have hkey : key = key.take j ++ key.getD j 0 :: key.drop (j + 1) := by
      rw [List.getD_eq_getElem _ _ hj, ← List.drop_eq_getElem_cons hj, List.take_append_drop]
    have hiff : key <+: s ↔ key.getD j 0 = x ∧ key.drop (j + 1) <+: r :=
      calc key <+: s ↔ key.take j ++ key.getD j 0 :: key.drop (j + 1) <+: key.take j ++ x :: r := by
            rw [← hkey, ← hs']
        _ ↔ _ := by rw [List.prefix_append_right_inj, List.cons_prefix_cons]
    have hdrop : s.drop key.length = r.drop (key.drop (j + 1)).length := by
      rw [hs', List.drop_append, List.drop_eq_nil_of_le (by rw [hlen]; omega), List.nil_append, hlen,
        List.length_drop, show key.length - j = key.length - (j + 1) + 1 by omega, List.drop_succ_cons]
    have hempty : (Tree.full (List.replicate 16 .nil) .nil).lookup (x :: r) = none := by
      rw [lookup_full_cons, edgeAt_empty, lookup_nil]
    rw [hxr, splitAt, lookup_setEdge_cons (by simp) _ _ (h.getD_le j), lookup_splitEdge, hempty]
    by_cases hx : x.toNat = (key.getD j 0).toNat
    · have hxe : key.getD j 0 = x := (UInt8.toNat_inj.mp hx).symm
      rw [if_pos hx]
      by_cases hkd : key.drop (j + 1) <+: r
      · rw [if_pos (hiff.mpr ⟨hxe, hkd⟩), if_pos hkd, hdrop]
      · rw [if_neg fun hk => hkd (hiff.mp hk).2, if_neg hkd]
    · rw [if_neg hx, if_neg fun hk => hx (by rw [(hiff.mp hk).1])]
  · rw [if_neg hpre, if_neg]
    exact fun hk => hpre ((List.take_prefix j key).trans hk)

end Tree

theorem Tree.Fit.prefixLen_lt_length {key s : List UInt8} {c : Tree}
    (hfit : (Tree.short key c).Fit false) (hs : Keyed false s) (hlt : prefixLen s key < key.length) :
    prefixLen s key < s.length := by
  have hpre : key.take (prefixLen s key) <+: s := by
    rw [← take_prefixLen s key]
    exact List.take_prefix _ s
  have hshared := hs.length_lt (hfit.take_lt hlt) hpre
  rwa [List.length_take, min_eq_left hlt.le] at hshared

theorem Tree.Sets.split {key s : List UInt8} {o : Option (List UInt8)} {c b' : Tree}
    (hfit : (Tree.short key c).Fit false) (hs : Keyed false s) (hlt : prefixLen s key < key.length)
    (hb : (Tree.splitAt key c (prefixLen s key)).Sets false b' (s.drop (prefixLen s key)) o) :
    (Tree.short key c).Sets false
      (if prefixLen s key = 0 then b' else .short (s.take (prefixLen s key)) b') s o := by
  set j := prefixLen s key with hj
  have htake : s.take j = key.take j := take_prefixLen s key
  have hpre : key.take j <+: s := by
    rw [← htake]
    exact List.take_prefix j s
  have hlen : (key.take j).length = j := by rw [List.length_take, min_eq_left hlt.le]
  have hnew : ∀ s', (if j = 0 then b' else Tree.short (s.take j) b').lookup s' =
      if key.take j <+: s' then b'.lookup (s'.drop j) else none := by
    intro s'
    by_cases h0 : j = 0
    · rw [if_pos h0, h0, List.take_zero, if_pos List.nil_prefix, List.drop_zero]
    · rw [if_neg h0, Tree.lookup_short, htake, hlen]
  refine ⟨?_, fun hlevel => ?_, fun s' hs' => ?_⟩
  · by_cases h0 : j = 0
    · rw [if_pos h0]
      exact hb.fit
    · have hjs : j < s.length := hfit.prefixLen_lt_length hs hlt
      rw [if_neg h0]
      exact .ext (List.ne_nil_of_length_pos (by rw [List.length_take]; omega))
        (fun x hx => hfit.take_lt hlt x (htake ▸ hx)) hb.fit
  · have hb' := hb.level (by rw [List.length_drop]; exact hlevel.splitAt hlt)
    rw [List.length_drop] at hb'
    by_cases h0 : j = 0
    · rw [if_pos h0]
      rwa [h0, Nat.sub_zero] at hb'
    · have hjs : j < s.length := hfit.prefixLen_lt_length hs hlt
      rw [if_neg h0]
      exact .short (by rw [List.length_take]; omega) (by rwa [List.length_take, min_eq_left hjs.le])
  · rw [hnew, Tree.lookup_splitAt hfit hlt hs']
    by_cases hpre' : key.take j <+: s'
    · have hjs' : j < s'.length := by
        have := hs'.length_lt (hfit.take_lt hlt) hpre'
        rwa [hlen] at this
      rw [if_pos hpre', if_pos hpre', hb.lookup_eq _ (hs'.drop hjs')]
      have hiff := drop_eq_iff_of_prefix hpre' hpre
      rw [hlen] at hiff
      by_cases heq : s' = s
      · rw [if_pos (hiff.mpr heq), if_pos heq]
      · rw [if_neg (mt hiff.mp heq), if_neg heq]
    · rw [if_neg hpre', if_neg hpre', if_neg]
      rintro rfl
      exact hpre' hpre

end ImmutableTrie
