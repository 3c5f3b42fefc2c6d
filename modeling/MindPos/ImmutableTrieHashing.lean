import Mathlib
import MindPos.ImmutableTrieMap
import MindPos.ImmutableTrieDelete

/-! # Hashing a transaction

`Txn.Hash()` walks the nodes below the root that cache no hash, computes each node's item from its
children's, and caches in the node the hash of every item of 32 bytes or more, putting the node's
encoding into the batch. It writes nothing else: every object keeps its kind, its key, its edges
and its epoch. On a transaction whose objects hold a tree it completes with the fuel it gives
itself, one step more than there are objects, and the transaction stands for the same map. -/
namespace ImmutableTrie

open RlpEncoding PointerCells StateExcept Keccak

@[simp] theorem Node.clearHash_setHash (b : List UInt8) (n : Node) :
    (n.setHash b).clearHash = n.clearHash := by
  cases n <;> rfl

/-- What a hash leaves of `m`: the same objects, up to their cached hashes. -/
structure Hashes (m m' : Mem) : Prop where
  next_eq : m'.heap.next = m.heap.next
  clearHash_eq : ∀ q, (m'.heap.cells q).clearHash = (m.heap.cells q).clearHash

namespace Hashes

variable {m m₁ m₂ : Mem}

theorem refl (m : Mem) : Hashes m m := ⟨rfl, fun _ => rfl⟩

theorem trans (h₁ : Hashes m m₁) (h₂ : Hashes m₁ m₂) : Hashes m m₂ :=
  ⟨h₂.next_eq.trans h₁.next_eq, fun q => (h₂.clearHash_eq q).trans (h₁.clearHash_eq q)⟩

theorem setHash (p : Ptr) (b : List UInt8) (m : Mem) :
    Hashes m { m with heap := m.heap.set p ((m.heap.cells p).setHash b) } := by
  refine ⟨rfl, fun q => ?_⟩
  by_cases hqp : q = p
  · subst hqp
    simp
  · simp [hqp]

theorem batch (m : Mem) (b : List (List UInt8 × List UInt8)) : Hashes m { m with batch := b } :=
  ⟨rfl, fun _ => rfl⟩

end Hashes

theorem Holds.of_hashes {m m' : Mem} {c : Option Ptr} {tr : Tree} {S : List Ptr}
    (hs : Holds m.heap c tr S) (h : Hashes m m') : Holds m'.heap c tr S :=
  hs.of_cache fun q _ => h.clearHash_eq q

variable {t : Txn}

theorem putBatch_hashes (k v : List UInt8) (m : Mem) : Completes (putBatch k v) m () (Hashes m) :=
  ⟨_, rfl, Hashes.batch m _⟩

theorem store_hashes (p : Ptr) (val : Value) (m : Mem) :
    ∃ v, Completes (t.store p val) m v (Hashes m) := by
  unfold Txn.store
  by_cases hlen : val.len < 32
  · rw [if_pos hlen]
    exact ⟨val, .pure (Hashes.refl m)⟩
  · rw [if_neg hlen]
    refine ⟨.bytes (keccak256 (encode val)), (modifyCell_completes _ _ m).bind fun m₁ hm₁ => ?_⟩
    subst hm₁
    cases t.batch with
    | true => exact (putBatch_hashes _ _ _).bind fun _ h => .pure ((Hashes.setHash _ _ m).trans h)
    | false => exact .pure (Hashes.setHash _ _ m)

theorem Holds.length_edge {h : Heap Node} {p : Ptr} {ts : List Tree} {tv : Tree}
    {S : List Ptr} {Se : ℕ → List Ptr} (hs : Holds h (some p) (.full ts tv) S)
    (hS : S = p :: (List.range 17).flatMap Se) {i : ℕ} (hi : i < 17) :
    (Se i).length < S.length := by
  have hnodup := hs.nodup
  rw [hS] at hnodup ⊢
  obtain ⟨-, hflat⟩ := List.nodup_cons.mp hnodup
  have hsub : Se i ⊆ (List.range 17).flatMap Se := fun q hq =>
    List.mem_flatMap.mpr ⟨i, List.mem_range.mpr hi, hq⟩
  have hle := (List.nodup_flatMap.mp hflat).1 i (List.mem_range.mpr hi) |>.subperm hsub
  rw [List.length_cons]
  exact Nat.lt_succ_of_le hle.length_le

theorem Holds.hashNode : ∀ (fuel : ℕ) {m : Mem} {p : Ptr} {tr : Tree} {S : List Ptr},
    Holds m.heap (some p) tr S → S.length ≤ fuel →
    ∃ v, Completes (t.hashNode fuel (some p)) m v (Hashes m) := by
  intro fuel
  induction fuel with
  | zero =>
    intro m p tr S hs hfuel
    cases hs <;> simp at hfuel
  | succ f ih =>
    intro m p tr S hs hfuel
    have hchild : ∀ {c : Ptr} {tc : Tree} {Sc : List Ptr} (m₁ : Mem), Holds m.heap (some c) tc Sc →
        Sc.length ≤ f → Hashes m m₁ → ∃ v, Completes (t.hashNode f (some c)) m₁ v (Hashes m) := by
      intro c tc Sc m₁ hc hlen hm₁
      obtain ⟨v, hv⟩ := ih (hc.of_hashes hm₁) hlen
      exact ⟨v, hv.mono fun _ h => hm₁.trans h⟩
    rw [Txn.hashNode]
    refine (getCell_completes _ m).bind_exists fun m₀ hm₀ => ?_
    subst m₀
    by_cases hcached : (m.heap.cells p).hash.2 = true
    · rw [if_pos hcached]
      exact ⟨_, .pure (Hashes.refl m)⟩
    rw [if_neg hcached]
    cases hs with
    | value hp =>
      rw [hp]
      exact ⟨_, .pure (Hashes.refl m)⟩
    | @short _ c hash key tc Sc hp hc hpS =>
      rw [hp]
      dsimp only
      rw [List.length_cons] at hfuel
      obtain ⟨v, hv⟩ := hchild m hc (by omega) (Hashes.refl m)
      refine hv.bind_exists fun m₁ hm₁ => ?_
      obtain ⟨w, hw⟩ := store_hashes (t := t) p (.array [.bytes (encodeCompact key), v]) m₁
      exact ⟨w, hw.mono fun _ h => hm₁.trans h⟩
    | @full _ hash ep v cs tv ts Se hp hlen htlen hedges hnodup =>
      have hs := Holds.full hp hlen htlen hedges hnodup
      have hlen_e : ∀ i < 17, (Se i).length ≤ f := fun i hi => by
        have := hs.length_edge rfl hi
        rw [List.length_cons] at hfuel this
        omega
      rw [hp]
      dsimp only
      refine Completes.exists_bind (Completes.mapM (I := Hashes m) cs (fun c hc m₁ hm₁ => ?_) m
        (Hashes.refl m)) fun vs m₁ hm₁ => ?_
      · obtain ⟨i, hi, rfl⟩ := List.mem_iff_getElem.mp hc
        have hedge := hedges i (by omega)
        rw [fullEdge, if_neg (by omega), List.getD_eq_getElem _ _ hi] at hedge
        cases hci : cs[i] with
        | none => exact ⟨_, .pure hm₁⟩
        | some c =>
          rw [hci] at hedge
          exact hchild m₁ hedge (hlen_e i (by omega)) hm₁
      have hval := hedges 16 (by omega)
      rw [fullEdge, if_pos rfl] at hval
      have hstore : ∀ w m₂, Hashes m m₂ →
          ∃ u, Completes (t.store p (.array (vs ++ [w]))) m₂ u (Hashes m) := by
        intro w m₂ hm₂
        obtain ⟨u, hu⟩ := store_hashes (t := t) p (.array (vs ++ [w])) m₂
        exact ⟨u, hu.mono fun _ h => hm₂.trans h⟩
      cases v with
      | none => exact (Completes.pure (P := Hashes m) hm₁).bind_exists fun m₂ hm₂ => hstore _ m₂ hm₂
      | some v =>
        obtain ⟨w, hw⟩ := hchild m₁ hval (hlen_e 16 (by omega)) hm₁
        exact hw.bind_exists fun m₂ hm₂ => hstore w m₂ hm₂

theorem Holds.length_le_next {m : Mem} {c : Option Ptr} {tr : Tree} {S : List Ptr}
    (hs : Holds m.heap c tr S) (hbound : ∀ q ∈ S, q < m.heap.next) : S.length ≤ m.heap.next := by
  have hsub : S.Subperm (List.range m.heap.next) :=
    hs.nodup.subperm fun q hq => List.mem_range.mpr (hbound q hq)
  simpa using hsub.length_le

theorem Stands.hash {m : Mem} {S : List Ptr} {f : List UInt8 → Option (List UInt8)}
    (h : Stands m t.root S f) :
    ∃ root, Completes t.hash m root fun m' => Stands m' t.root S f ∧ Hashes m m' := by
  obtain ⟨tr, hfit, hs, hlook⟩ := h.tree
  have hkeep : ∀ m', Hashes m m' → Stands m' t.root S f ∧ Hashes m m' := fun m' hm' =>
    ⟨⟨⟨tr, hfit, hs.of_hashes hm', hlook⟩, fun q hq => hm'.next_eq ▸ h.bound q hq⟩, hm'⟩
  unfold Txn.hash
  cases hr : t.root with
  | none => exact ⟨_, .pure (hr ▸ hkeep m (Hashes.refl m))⟩
  | some r =>
    rw [hr] at hs
    dsimp only
    refine Completes.bind_exists (P := (· = m)) ⟨m, rfl, rfl⟩ fun m₀ hm₀ => ?_
    subst m₀
    obtain ⟨v, hv⟩ := Holds.hashNode (t := t) _ hs
      (Nat.le_succ_of_le (hs.length_le_next h.bound))
    refine hv.bind_exists fun m₁ hm₁ => ?_
    have hend : ∀ k b : List UInt8, ∃ root, Completes (do
        if t.batch then putBatch k b
        pure k) m₁ root fun m' => Stands m' (some r) S f ∧ Hashes m m' := by
      intro k b
      cases t.batch with
      | true =>
        exact ⟨k, (putBatch_hashes _ _ _).bind fun _ h => .pure (hr ▸ hkeep _ (hm₁.trans h))⟩
      | false => exact ⟨k, .pure (hr ▸ hkeep _ hm₁)⟩
    cases v with
    | bytes b =>
      dsimp only
      by_cases hb : b.length ≠ 32
      · rw [if_pos hb]
        exact hend _ _
      · rw [if_neg hb]
        exact ⟨b, .pure (hr ▸ hkeep _ hm₁)⟩
    | array vs => exact hend _ _


/-- `Txn.Hash()` changes no answer: after it a lookup of any key answers the map the transaction
stood for. -/
theorem lookup_after_hash {m : Mem} {S : List Ptr} {f : List UInt8 → Option (List UInt8)}
    (h : Stands m t.root S f) (key : List UInt8) :
    (t.hash >>= fun _ => t.lookup key).run' m = .ok (f key) := by
  obtain ⟨root, hrun⟩ := h.hash
  refine (hrun.bind (Q := fun _ => True) fun m' hm' => ?_).run'_eq
  exact (hm'.1.lookup key).mono fun _ _ => trivial

/-- After the inserts of `sampleEntries`, `Txn.Hash()` walks a short node, a full node and two
leaves, and a lookup still answers the key 2. -/
theorem lookup_after_hash_of_inserts :
    ∃ (t : Txn) (m : Mem) (S : List Ptr),
      (sampleEntries.foldlM (fun (t : Txn) (kv : List UInt8 × List UInt8) => t.insert kv.1 kv.2)
          ((Trie.mk none 0).txn ⟨[]⟩)).run Mem.empty = .ok (t, m) ∧
        S ≠ [] ∧ Stands m t.root S (putAll (fun _ => none) sampleEntries) ∧
        (t.hash >>= fun _ => t.lookup [2]).run' m = .ok (some (List.replicate 40 2)) := by
  have h₀ : Stands Mem.empty ((Trie.mk none 0).txn ⟨[]⟩).root [] fun _ => none := Stands.empty _
  obtain ⟨t, m, hrun, -, -, -, ⟨S, hst⟩, -⟩ := h₀.insertAll sampleEntries
  refine ⟨t, m, S, hrun, hst.ne_nil [2] (by decide), hst, ?_⟩
  rw [lookup_after_hash hst [2]]
  decide

end ImmutableTrie
