import Mathlib
import MindPos.ImmutableTrieRuns

/-! # Transactions as maps

A transaction stands for a map from keys to values: its root's objects hold a tree whose lookup
under the nibbles of each key is the key's value. `Txn.Lookup` answers that map and changes no
object, `Txn.Insert` updates it, and a run of inserts writes only to full nodes of the
transaction's epoch, so a trie committed before, whose full nodes are of other epochs, still
answers its own map. -/
namespace ImmutableTrie

open RlpEncoding PointerCells StateExcept

/-! ## Keys -/

theorem Keyed.hex (key : List UInt8) : Keyed false (bytesToHexNibbles key) := by
  refine ⟨key.flatMap fun b => [b / 16, b % 16], fun x hx => ?_, rfl⟩
  obtain ⟨b, -, hx⟩ := List.mem_flatMap.mp hx
  rcases List.mem_pair.mp hx with rfl | rfl
  · exact (nibbles_lt b).1
  · exact (nibbles_lt b).2

theorem bytesToHexNibbles_injective : Function.Injective bytesToHexNibbles := by
  intro a b hab
  have hflat : (a.flatMap fun x => [x / 16, x % 16]) = b.flatMap fun x => [x / 16, x % 16] :=
    List.append_cancel_right hab
  rw [← packNibbles_flatMap a, hflat, packNibbles_flatMap]

/-! ## Standing for a map -/

/-- The objects `S` behind the root `r` in `m` stand for the map `f`: they hold a tree of keys
that end in the terminator, whose lookup under the nibbles of each key is `f` of the key. -/
structure Stands (m : Mem) (r : Option Ptr) (S : List Ptr)
    (f : List UInt8 → Option (List UInt8)) : Prop where
  tree : ∃ tr, tr.Fit false ∧ Holds m.heap r tr S ∧ ∀ key, tr.lookup (bytesToHexNibbles key) = f key
  bound : ∀ q ∈ S, q < m.heap.next

theorem Stands.empty (m : Mem) : Stands m none [] fun _ => none :=
  ⟨⟨.nil, .nil false, .nil, fun _ => Tree.lookup_nil _⟩, fun _ h => absurd h List.not_mem_nil⟩

theorem Holds.ne_nil {h : Heap Node} {c : Option Ptr} {tr : Tree} {S : List Ptr}
    (hs : Holds h c tr S) (ht : tr ≠ .nil) : S ≠ [] := by
  cases hs with
  | nil => exact absurd rfl ht
  | value => exact List.cons_ne_nil _ _
  | short => exact List.cons_ne_nil _ _
  | full => exact List.cons_ne_nil _ _

theorem Stands.ne_nil {m : Mem} {r : Option Ptr} {S : List Ptr} {f : List UInt8 → Option (List UInt8)}
    (h : Stands m r S f) (key : List UInt8) (hkey : f key ≠ none) : S ≠ [] := by
  obtain ⟨tr, -, hs, hlook⟩ := h.tree
  refine hs.ne_nil fun htr => hkey ?_
  rw [← hlook, htr, Tree.lookup_nil]

def putAll (f : List UInt8 → Option (List UInt8)) (kvs : List (List UInt8 × List UInt8)) :
    List UInt8 → Option (List UInt8) :=
  kvs.foldl (fun f kv => Function.update f kv.1 (some kv.2)) f

@[simp] theorem putAll_nil (f : List UInt8 → Option (List UInt8)) : putAll f [] = f := rfl

theorem putAll_cons (f : List UInt8 → Option (List UInt8)) (kv : List UInt8 × List UInt8)
    (kvs : List (List UInt8 × List UInt8)) :
    putAll f (kv :: kvs) = putAll (Function.update f kv.1 (some kv.2)) kvs := rfl

theorem Tree.Sets.lookup_update {tr tr' : Tree} {key : List UInt8} {o : Option (List UInt8)}
    {f : List UInt8 → Option (List UInt8)} (h : tr.Sets false tr' (bytesToHexNibbles key) o)
    (hlook : ∀ key, tr.lookup (bytesToHexNibbles key) = f key) (key' : List UInt8) :
    tr'.lookup (bytesToHexNibbles key') = Function.update f key o key' := by
  rw [h.lookup_eq _ (Keyed.hex key'), hlook, Function.update_apply]
  by_cases hk : key' = key
  · rw [if_pos (congrArg _ hk), if_pos hk]
  · rw [if_neg (mt (@bytesToHexNibbles_injective key' key) hk), if_neg hk]

variable {t : Txn} {m : Mem} {S : List Ptr} {f : List UInt8 → Option (List UInt8)}

theorem Stands.lookup (h : Stands m t.root S f) (key : List UInt8) :
    Completes (t.lookup key) m (f key) (· = m) := by
  obtain ⟨tr, hfit, hs, hlook⟩ := h.tree
  rw [Txn.lookup]
  refine (Holds.lookupNode _ hs hfit (Keyed.hex key) (by rw [walkFuel]; omega)).bind
    fun m' hm' => ?_
  rw [hlook]
  exact .pure hm'

theorem Stands.insert (h : Stands m t.root S f) (key value : List UInt8) :
    ∃ p, Completes (t.insert key value) m { t with root := some p } fun m' =>
      ∃ S', Stands m' (some p) S' (Function.update f key (some value)) ∧ Writes t.epoch S m m' ∧
        ∀ q ∈ S', q ∈ S ∨ m.heap.next ≤ q := by
  obtain ⟨tr, hfit, hs, hlook⟩ := h.tree
  obtain ⟨p, hrun⟩ := Holds.insertNode (t := t) (walkFuel (bytesToHexNibbles key)) value hs h.bound
    hfit (Keyed.hex key) (by rw [walkFuel]; omega)
  refine ⟨p, ?_⟩
  rw [Txn.insert]
  refine hrun.bind fun m' hm' => ?_
  obtain ⟨tr', hput, hpl⟩ := hm'
  obtain ⟨S', hs', hb', hw'⟩ := hpl.holds
  exact .pure ⟨S', ⟨⟨tr', hput.fit, hs', hput.lookup_update hlook⟩, hb'⟩, hpl.writes, hw'⟩

theorem Stands.insertAll (h : Stands m t.root S f) (kvs : List (List UInt8 × List UInt8)) :
    ∃ t', Completes (kvs.foldlM (fun (t : Txn) (kv : List UInt8 × List UInt8) =>
        t.insert kv.1 kv.2) t) m t' fun m' =>
      t'.epoch = t.epoch ∧ t'.storage = t.storage ∧ t'.batch = t.batch ∧
        (∃ S', Stands m' t'.root S' (putAll f kvs)) ∧ Writes t.epoch S m m' := by
  induction kvs generalizing t m S f with
  | nil => exact ⟨t, .pure ⟨rfl, rfl, rfl, ⟨S, h⟩, Writes.refl _ _ _⟩⟩
  | cons kv kvs ih =>
    obtain ⟨p, m₁, hrun₁, S₁, hst₁, hw₁, hS₁⟩ := h.insert kv.1 kv.2
    obtain ⟨t', m', hrun', hep, hsto, hbat, hst', hw'⟩ := ih (t := { t with root := some p }) hst₁
    refine ⟨t', ?_⟩
    rw [List.foldlM_cons]
    refine Completes.bind (P := (· = m₁)) ⟨m₁, hrun₁, rfl⟩ fun _ h => ?_
    subst h
    refine ⟨m', hrun', hep, hsto, hbat, hst', hw₁.trans hw' (List.Subset.refl _) fun q hq hqm => ?_⟩
    exact (hS₁ q hq).resolve_right (not_le.mpr hqm)

/-- After any run of inserts, a lookup answers the value of the last insert of the key, or what
the transaction stood for before if the run did not insert it. -/
theorem lookup_after_inserts (h : Stands m t.root S f) (kvs : List (List UInt8 × List UInt8))
    (key : List UInt8) :
    ((kvs.foldlM (fun (t : Txn) (kv : List UInt8 × List UInt8) => t.insert kv.1 kv.2) t) >>=
      fun t' => t'.lookup key).run' m = .ok (putAll f kvs key) := by
  obtain ⟨t', hrun⟩ := h.insertAll kvs
  refine (hrun.bind (Q := fun _ => True) fun m' hm' => ?_).run'_eq
  obtain ⟨-, -, -, ⟨S', hst'⟩, -⟩ := hm'
  exact (hst'.lookup key).mono fun _ _ => trivial

theorem lookup_after_inserts_of_empty :
    Stands Mem.empty ((Trie.mk none 0).txn ⟨[]⟩).root [] (fun _ => none) ∧
      (([([1], [7]), ([2], [8]), ([1], [9])].foldlM
          (fun (t : Txn) (kv : List UInt8 × List UInt8) => t.insert kv.1 kv.2)
          ((Trie.mk none 0).txn ⟨[]⟩)) >>= fun t' => t'.lookup [1]).run' Mem.empty =
        .ok (putAll (fun _ => none) [([1], [7]), ([2], [8]), ([1], [9])] [1]) :=
  ⟨Stands.empty _, lookup_after_inserts (Stands.empty _) _ _⟩

/-- A run of inserts in a transaction leaves a trie whose full nodes are of other epochs standing
for its map: a committed trie, read after a later transaction inserted keys, answers as before. -/
theorem get_after_inserts (h : Stands m t.root S f) {T : Trie} {S₀ : List Ptr}
    {f₀ : List UInt8 → Option (List UInt8)} (h₀ : Stands m T.root S₀ f₀)
    (hep : ∀ q ∈ S₀, ∀ hash v cs, m.heap.cells q ≠ .full hash t.epoch v cs)
    (kvs : List (List UInt8 × List UInt8)) (key : List UInt8) (storage : Storage) :
    ((kvs.foldlM (fun (t : Txn) (kv : List UInt8 × List UInt8) => t.insert kv.1 kv.2) t) >>=
      fun _ => T.get key storage).run' m = .ok (f₀ key) := by
  obtain ⟨t', hrun⟩ := h.insertAll kvs
  refine (hrun.bind (Q := fun _ => True) fun m' hm' => ?_).run'_eq
  obtain ⟨-, -, -, -, hw⟩ := hm'
  obtain ⟨tr₀, hfit₀, hs₀, hlook₀⟩ := h₀.tree
  have hkeep : ∀ q ∈ S₀, m'.heap.cells q = m.heap.cells q := by
    intro q hq
    by_contra hne
    obtain ⟨-, hash, v, cs, hfull⟩ := hw.changed q (h₀.bound q hq) hne
    exact hep q hq hash v cs hfull
  have h₀' : Stands m' (T.txn storage).root S₀ f₀ :=
    ⟨⟨tr₀, hfit₀, hs₀.frame hkeep, hlook₀⟩, fun q hq => (h₀.bound q hq).trans_le hw.next_le⟩
  exact (h₀'.lookup key).mono fun _ _ => trivial

def sampleEntries : List (List UInt8 × List UInt8) :=
  [([1], List.replicate 40 1), ([2], List.replicate 40 2)]

/-- A trie committed after the inserts of `sampleEntries` in epoch 1 still answers for the key 1
after a transaction of epoch 2 inserts the key 3 below its full node, which it copies. -/
theorem get_after_inserts_of_committed :
    ∃ (t : Txn) (m : Mem) (S : List Ptr),
      (sampleEntries.foldlM (fun (t : Txn) (kv : List UInt8 × List UInt8) => t.insert kv.1 kv.2)
          ((Trie.mk none 0).txn ⟨[]⟩)).run Mem.empty = .ok (t, m) ∧
        S ≠ [] ∧ Stands m (t.commit.txn ⟨[]⟩).root S (putAll (fun _ => none) sampleEntries) ∧
        Stands m t.commit.root S (putAll (fun _ => none) sampleEntries) ∧
        (∀ q ∈ S, ∀ hash v cs, m.heap.cells q ≠ .full hash (t.commit.txn ⟨[]⟩).epoch v cs) ∧
        (([([3], List.replicate 40 3)].foldlM
            (fun (t : Txn) (kv : List UInt8 × List UInt8) => t.insert kv.1 kv.2)
            (t.commit.txn ⟨[]⟩)) >>= fun _ => t.commit.get [1] ⟨[]⟩).run' m =
          .ok (some (List.replicate 40 1)) := by
  have h₀ : Stands Mem.empty ((Trie.mk none 0).txn ⟨[]⟩).root [] fun _ => none := Stands.empty _
  obtain ⟨t, m, hrun, hepoch, -, -, ⟨S, hst⟩, -⟩ := h₀.insertAll sampleEntries
  have hfresh : Fresh 1 m :=
    insertAll_fresh (by decide) ((Trie.mk none 0).txn ⟨[]⟩) rfl Mem.empty t m hrun (Fresh.empty 1)
  have hnext : (t.commit.txn ⟨[]⟩).epoch = 2 := by
    rw [Trie.txn, Txn.commit, hepoch]
    rfl
  have hep : ∀ q ∈ S, ∀ hash v cs, m.heap.cells q ≠ .full hash (t.commit.txn ⟨[]⟩).epoch v cs := by
    intro q _ hash v cs hcell
    have h12 := hfresh.epoch q _ _ _ _ hcell
    rw [hnext] at h12
    exact absurd h12 (by decide)
  refine ⟨t, m, S, hrun, hst.ne_nil [1] (by decide), hst, hst, hep, ?_⟩
  rw [get_after_inserts (t := t.commit.txn ⟨[]⟩) (T := t.commit) hst hst hep _ _ _]
  decide

end ImmutableTrie
