import Mathlib
import MindPos.ImmutableTrieMap
import MindPos.ImmutableTrieDelete
import MindPos.ImmutableTrieHashing

/-! # The storage loop of `Snapshot.Commit`

`Snapshot.Commit` writes an account's storage into the account's trie with one transaction. An
entry marked deleted is deleted under the hash of its key; any other is inserted under that hash,
its value cut of its leading zero bytes and RLP-encoded. The keys are Keccak-256 hashes, all
32 bytes long, so the trie holds keys of one length (`Tree.Level`), where a delete removes exactly
its key. The transaction stands for a map, and the loop updates the map entry by entry.
`Snapshot.GetStorage` reads a slot back into a hash, the leading zeros padded back. -/
namespace ImmutableTrie

open RlpEncoding PointerCells StateExcept EdgeTypes Keccak

/-! ## Keys of one length -/

theorem length_bytesToHexNibbles (key : List UInt8) :
    (bytesToHexNibbles key).length = 2 * key.length + 1 := by
  induction key with
  | nil => rfl
  | cons b key ih =>
    rw [bytesToHexNibbles_cons, List.length_cons, List.length_cons, ih, List.length_cons]
    ring

/-- The objects `S` behind `r` stand for the map `f`, as `Stands` says, by a tree of keys of
`ℓ` bytes. -/
structure StandsAt (ℓ : ℕ) (m : Mem) (r : Option Ptr) (S : List Ptr)
    (f : List UInt8 → Option (List UInt8)) : Prop where
  tree : ∃ tr, tr.Fit false ∧ tr.Level (2 * ℓ + 1) ∧ Holds m.heap r tr S ∧
    ∀ key, tr.lookup (bytesToHexNibbles key) = f key
  bound : ∀ q ∈ S, q < m.heap.next

variable {ℓ : ℕ} {t : Txn} {m : Mem} {S : List Ptr} {f : List UInt8 → Option (List UInt8)}

namespace StandsAt

theorem stands (h : StandsAt ℓ m t.root S f) : Stands m t.root S f := by
  obtain ⟨tr, hfit, -, hs, hlook⟩ := h.tree
  exact ⟨⟨tr, hfit, hs, hlook⟩, h.bound⟩

theorem empty (ℓ : ℕ) (m : Mem) : StandsAt ℓ m none [] fun _ => none :=
  ⟨⟨.nil, .nil false, .nil _, .nil, fun _ => Tree.lookup_nil _⟩, fun _ h => absurd h List.not_mem_nil⟩

theorem insert (h : StandsAt ℓ m t.root S f) {key : List UInt8} (hkey : key.length = ℓ)
    (value : List UInt8) :
    ∃ p, Completes (t.insert key value) m { t with root := some p } fun m' =>
      ∃ S', StandsAt ℓ m' (some p) S' (Function.update f key (some value)) := by
  obtain ⟨tr, hfit, hlevel, hs, hlook⟩ := h.tree
  have hlen : (bytesToHexNibbles key).length = 2 * ℓ + 1 := by
    rw [length_bytesToHexNibbles, hkey]
  obtain ⟨p, hrun⟩ := Holds.insertNode (t := t) (walkFuel (bytesToHexNibbles key)) value hs
    h.bound hfit (Keyed.hex key) (by rw [walkFuel]; omega)
  refine ⟨p, ?_⟩
  rw [Txn.insert]
  refine hrun.bind fun m' hm' => ?_
  obtain ⟨tr', hput, hpl⟩ := hm'
  obtain ⟨S', hs', hb', -⟩ := hpl.holds
  have hlevel' := hput.level (by rwa [hlen])
  rw [hlen] at hlevel'
  exact .pure ⟨S', ⟨tr', hput.fit, hlevel', hs', hput.lookup_update hlook⟩, hb'⟩

theorem delete (h : StandsAt ℓ m t.root S f) {key : List UInt8} (hkey : key.length = ℓ) :
    ∃ t', Completes (t.delete key) m t' fun m' =>
      ∃ S', StandsAt ℓ m' t'.root S' (Function.update f key none) := by
  obtain ⟨tr, hfit, hlevel, hs, hlook⟩ := h.tree
  have hlen : (bytesToHexNibbles key).length = 2 * ℓ + 1 := by
    rw [length_bytesToHexNibbles, hkey]
  obtain ⟨⟨r, ok⟩, hres⟩ := Holds.deleteNode (t := t) (walkFuel (bytesToHexNibbles key)) hs h.bound
    hfit (by rwa [hlen]) (Keyed.hex key) (by rw [walkFuel]; omega)
  cases ok with
  | true =>
    refine ⟨{ t with root := r }, ?_⟩
    rw [Txn.delete]
    refine hres.bind fun m' hd => ?_
    obtain ⟨tr', hsets, S', hs', hb', -⟩ := hd.found rfl
    have hlevel' := hsets.level (by rwa [hlen])
    rw [hlen] at hlevel'
    exact .pure ⟨S', ⟨tr', hsets.fit, hlevel', hs', hsets.lookup_update hlook⟩, hb'⟩
  | false =>
    refine ⟨t, ?_⟩
    rw [Txn.delete]
    refine hres.bind fun m' hd => ?_
    have hf : Function.update f key none = f :=
      Function.update_eq_self_iff.mpr (by rw [← hlook key, hd.absent rfl])
    rw [hf]
    exact .pure ⟨S, ⟨tr, hfit, hlevel, hs.of_clears h.bound hd.clears, hlook⟩,
      fun q hq => (h.bound q hq).trans_le hd.clears.next_le⟩

end StandsAt

/-! ## The storage loop -/

/-- `state.StorageObject`. -/
structure StorageObject where
  deleted : Bool
  key : List UInt8
  val : List UInt8

/-- `hashit`. -/
def hashit (k : List UInt8) : List UInt8 := keccak256 k

def storageValue (val : List UInt8) : List UInt8 := encode (newBytes (val.dropWhile (· == 0)))

def Txn.commitEntry (t : Txn) (entry : StorageObject) : TrieM Txn :=
  let k := hashit entry.key
  if entry.deleted then t.delete k
  else t.insert k (storageValue entry.val)

def Txn.commitStorage (t : Txn) (entries : List StorageObject) : TrieM Txn :=
  entries.foldlM Txn.commitEntry t

def applyEntry (f : List UInt8 → Option (List UInt8)) (entry : StorageObject) :
    List UInt8 → Option (List UInt8) :=
  Function.update f (hashit entry.key)
    (if entry.deleted then none else some (storageValue entry.val))

theorem length_hashit (k : List UInt8) : (hashit k).length = 32 := length_keccak256 k

theorem StandsAt.commitEntry (h : StandsAt 32 m t.root S f) (entry : StorageObject) :
    ∃ t', Completes (t.commitEntry entry) m t' fun m' =>
      ∃ S', StandsAt 32 m' t'.root S' (applyEntry f entry) := by
  rw [Txn.commitEntry, applyEntry]
  cases entry.deleted with
  | true => exact h.delete (length_hashit _)
  | false =>
    obtain ⟨p, hrun⟩ := h.insert (length_hashit entry.key) (storageValue entry.val)
    exact ⟨_, hrun⟩

theorem StandsAt.commitStorage (h : StandsAt 32 m t.root S f) (entries : List StorageObject) :
    ∃ t', Completes (t.commitStorage entries) m t' fun m' =>
      ∃ S', StandsAt 32 m' t'.root S' (entries.foldl applyEntry f) := by
  rw [Txn.commitStorage]
  refine Completes.foldlM
    (I := fun (f : List UInt8 → Option (List UInt8)) (t : Txn) m => ∃ S, StandsAt 32 m t.root S f)
    (fun f t m entry hI => ?_) entries ⟨S, h⟩
  obtain ⟨S, hst⟩ := hI
  exact hst.commitEntry entry

/-- After the storage loop, a lookup of any key answers the map the entries made of the
account's storage: the value of the last entry whose key hashes to it, none if that entry was a
delete, and what the trie held before if no entry touched it. -/
theorem lookup_after_commitStorage (h : StandsAt 32 m t.root S f) (entries : List StorageObject)
    (key : List UInt8) :
    ((t.commitStorage entries) >>= fun t' => t'.lookup key).run' m =
      .ok (entries.foldl applyEntry f key) := by
  obtain ⟨t', hrun⟩ := h.commitStorage entries
  refine (hrun.bind (Q := fun _ => True) fun m' hm' => ?_).run'_eq
  obtain ⟨S', hst'⟩ := hm'
  exact (hst'.stands.lookup key).mono fun _ _ => trivial

theorem lookup_after_commitStorage_of_empty :
    StandsAt 32 Mem.empty ((Trie.mk none 0).txn ⟨[]⟩).root [] (fun _ => none) ∧
      ((((Trie.mk none 0).txn ⟨[]⟩).commitStorage [⟨false, [1], [0, 7]⟩, ⟨true, [1], []⟩]) >>=
          fun t' => t'.lookup (hashit [1])).run' Mem.empty =
        .ok ([⟨false, [1], [0, 7]⟩, ⟨true, [1], []⟩].foldl applyEntry (fun _ => none) (hashit [1])) :=
  ⟨StandsAt.empty _ _, lookup_after_commitStorage (StandsAt.empty _ _) _ _⟩


/-! ## The storage root and the committed trie -/

theorem StandsAt.hash (h : StandsAt ℓ m t.root S f) :
    ∃ root, Completes t.hash m root fun m' => StandsAt ℓ m' t.root S f := by
  obtain ⟨root, hrun⟩ := h.stands.hash
  obtain ⟨tr, hfit, hlevel, hs, hlook⟩ := h.tree
  exact ⟨root, hrun.mono fun m' hm' => ⟨⟨tr, hfit, hlevel, hs.of_hashes hm'.2, hlook⟩,
    fun q hq => hm'.2.next_eq ▸ h.bound q hq⟩⟩

def commitObjectStorage (trie : Trie) (storage : Storage) (entries : List StorageObject) :
    TrieM (Hash × Trie) := do
  let localTxn : Txn := { trie.txn storage with batch := true }
  let localTxn ← localTxn.commitStorage entries
  let accountStateRoot ← localTxn.hash
  pure (bytesToHash accountStateRoot, localTxn.commit)

theorem StandsAt.commitObjectStorage {T : Trie} (h : StandsAt 32 m T.root S f)
    (storage : Storage) (entries : List StorageObject) :
    ∃ res, Completes (commitObjectStorage T storage entries) m res fun m' =>
      ∃ S', StandsAt 32 m' res.2.root S' (entries.foldl applyEntry f) := by
  have h₀ : StandsAt 32 m ({ T.txn storage with batch := true } : Txn).root S f := h
  obtain ⟨t', hloop⟩ := h₀.commitStorage entries
  rw [ImmutableTrie.commitObjectStorage]
  refine hloop.bind_exists fun m₁ hm₁ => ?_
  obtain ⟨S₁, hst₁⟩ := hm₁
  obtain ⟨root, hroot⟩ := hst₁.hash
  exact ⟨_, hroot.bind fun m₂ hm₂ => .pure ⟨S₁, hm₂⟩⟩

/-! ## Reading a slot back -/

/-- `Snapshot.GetStorage` once the trie at the account's root is found: the slot under the hash
of the raw key, parsed as RLP bytes and read as a hash, or the zero hash. -/
def Trie.getStorage (trie : Trie) (storage : Storage) (rawkey : Hash) : TrieM Hash := do
  let key := keccak256 rawkey.bytes
  match ← trie.get key storage with
  | none => pure zeroHash
  | some val =>
    match parse val >>= Value.getBytes with
    | .error _ => pure zeroHash
    | .ok res => pure (bytesToHash res)

theorem rightAlign_replicate_append (n z : ℕ) (w : List UInt8) :
    rightAlign n (List.replicate z 0 ++ w) = rightAlign n w := by
  rw [rightAlign, rightAlign, List.length_append, List.length_replicate, List.drop_append,
    List.drop_replicate, List.length_replicate, ← List.append_assoc, List.replicate_append_replicate]
  rw [show n - (z + w.length) + (z - (z + w.length - n)) = n - w.length by omega,
    show z + w.length - n - z = w.length - n by omega]

theorem bytesToHash_dropWhile_zero (b : List UInt8) :
    bytesToHash (b.dropWhile (· == 0)) = bytesToHash b := by
  have htake : b.takeWhile (· == 0) = List.replicate (b.takeWhile (· == 0)).length 0 :=
    List.eq_replicate_iff.mpr ⟨rfl, fun x hx => by simpa using List.mem_takeWhile_imp hx⟩
  have hb : b.takeWhile (· == 0) ++ b.dropWhile (· == 0) = b := List.takeWhile_append_dropWhile
  rw [htake] at hb
  unfold bytesToHash
  congr 1
  conv_rhs => rw [← hb]
  rw [rightAlign_replicate_append]

theorem foldl_applyEntry_of_ne {k : List UInt8} :
    ∀ (post : List StorageObject) (f : List UInt8 → Option (List UInt8)),
      (∀ e ∈ post, hashit e.key ≠ k) → post.foldl applyEntry f k = f k := by
  intro post
  induction post with
  | nil => exact fun _ _ => rfl
  | cons e post ih =>
    intro f hpost
    rw [List.foldl_cons, ih _ fun e' he' => hpost e' (List.mem_cons_of_mem _ he'), applyEntry,
      Function.update_of_ne (hpost e List.mem_cons_self).symm]

/-- After the storage step of `Snapshot.Commit`, `GetStorage` on the committed trie reads a slot
back as the last entry for it left it: the value written, its leading zero bytes restored, or the
zero hash after a delete, whatever entries came before. -/
theorem getStorage_after_commit {T : Trie} (h : StandsAt 32 m T.root S f) (storage : Storage)
    (pre post : List StorageObject) (e : StorageObject)
    (hpost : ∀ e' ∈ post, hashit e'.key ≠ hashit e.key) (rawkey : Hash) (hraw : e.key = rawkey.bytes) :
    ((commitObjectStorage T storage (pre ++ e :: post)) >>= fun res =>
        res.2.getStorage storage rawkey).run' m =
      .ok (if e.deleted then zeroHash else bytesToHash e.val) := by
  obtain ⟨res, hres⟩ := h.commitObjectStorage storage (pre ++ e :: post)
  refine (hres.bind (Q := fun _ => True) fun m' hm' => ?_).run'_eq
  obtain ⟨S', hst⟩ := hm'
  have hlook := (hst.stands (t := res.2.txn storage)).lookup (keccak256 rawkey.bytes)
  have hslot : keccak256 rawkey.bytes = hashit e.key := by rw [hraw, hashit]
  rw [hslot, List.foldl_append, List.foldl_cons, foldl_applyEntry_of_ne _ _ hpost, applyEntry,
    Function.update_self] at hlook
  rw [Trie.getStorage, hslot]
  refine hlook.bind fun m'' _ => ?_
  cases e.deleted with
  | true => exact .pure trivial
  | false =>
    have hparse : parse (storageValue e.val) >>= Value.getBytes = .ok (e.val.dropWhile (· == 0)) := by
      rw [storageValue, newBytes, parse_encode]
      rfl
    simp only [Bool.false_eq_true, if_false]
    rw [hparse, ← bytesToHash_dropWhile_zero e.val]
    exact .pure trivial


/-- Slots 1 and 2 written, slot 1 written again with leading zeros, then slot 2 deleted and
slot 3 written. -/
theorem getStorage_after_commit_of_rewrites :
    StandsAt 32 Mem.empty (Trie.mk none 0).root [] (fun _ => none) ∧
      (∀ e' ∈ ([⟨true, (hashOfNat 2).bytes, []⟩, ⟨false, (hashOfNat 3).bytes, [3]⟩] :
          List StorageObject), hashit e'.key ≠ hashit (hashOfNat 1).bytes) ∧
      ((commitObjectStorage (Trie.mk none 0) ⟨[]⟩
          ([⟨false, (hashOfNat 1).bytes, [7]⟩, ⟨false, (hashOfNat 2).bytes, [5]⟩] ++
            ⟨false, (hashOfNat 1).bytes, [0, 0, 9]⟩ ::
              [⟨true, (hashOfNat 2).bytes, []⟩, ⟨false, (hashOfNat 3).bytes, [3]⟩])) >>=
          fun res => res.2.getStorage ⟨[]⟩ (hashOfNat 1)).run' Mem.empty =
        .ok (if false then zeroHash else bytesToHash [0, 0, 9]) := by
  have hpost : ∀ e' ∈ ([⟨true, (hashOfNat 2).bytes, []⟩, ⟨false, (hashOfNat 3).bytes, [3]⟩] :
      List StorageObject), hashit e'.key ≠ hashit (hashOfNat 1).bytes := by
    intro e' he'
    simp only [List.mem_cons, List.not_mem_nil, or_false] at he'
    rcases he' with rfl | rfl <;> decide +kernel
  exact ⟨StandsAt.empty _ _, hpost, getStorage_after_commit (StandsAt.empty _ _) _ _ _
    ⟨false, (hashOfNat 1).bytes, [0, 0, 9]⟩ hpost (hashOfNat 1) rfl⟩

end ImmutableTrie
