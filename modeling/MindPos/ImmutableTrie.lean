import MindPos.EdgeTypes
import MindPos.Keccak
import MindPos.PointerCells
import MindPos.StateExcept

/-! # The immutable Merkle-Patricia trie

`state/immutable-trie`. Nodes are objects behind pointers, shared by the tries of successive
commits. A transaction of epoch `e` copies a full node of an older epoch before it writes to it
and writes in place to one of its own epoch, and `Txn.Hash()` caches the hash of each node it
hashes in the node itself. The cells of `PointerCells` stand for the objects, so the sharing, the
in-place writes and the cached hashes are what the model computes with; a panic of the source
stops a run with an error. -/
namespace ImmutableTrie

open EdgeTypes RlpEncoding PointerCells StateExcept Keccak

/-- A pointer to a node object; `none` stands for the nil interface. -/
abbrev Ptr := ℕ

/-- The node objects. A value node is a reference to a stored node when `hash` is set; a short
node holds a key of nibbles and a child; a full node holds the epoch that wrote it, the value slot
and sixteen children. Short and full nodes carry the cache of their hash, empty when unset. -/
inductive Node where
  | value (hash : Bool) (buf : List UInt8)
  | short (hash : List UInt8) (key : List UInt8) (child : Option Ptr)
  | full (hash : List UInt8) (epoch : UInt32) (value : Option Ptr) (children : List (Option Ptr))
  deriving DecidableEq, Repr

namespace Node

/-- `Node.Hash()`: the cached hash and whether it is set; a value node answers with its buffer
and its flag. -/
def hash : Node → List UInt8 × Bool
  | .value h buf => (buf, h)
  | .short h _ _ => (h, h ≠ [])
  | .full h _ _ _ => (h, h ≠ [])

/-- `SetHash`; the source panics on a value node, which is never hashed this way. -/
def setHash (b : List UInt8) : Node → Node
  | .short _ k c => .short b k c
  | .full _ e v cs => .full b e v cs
  | n => n

/-- `n.hash = n.hash[:0]`. -/
def clearHash : Node → Node := setHash []

/-- `getEdge`: edge 16 is the value slot. -/
def getEdge (idx : UInt8) : Node → Option Ptr
  | .full _ _ v cs => if idx = 16 then v else cs.getD idx.toNat none
  | _ => none

/-- `setEdge`, a write to one field of a full node. -/
def setEdge (idx : UInt8) (e : Option Ptr) : Node → Node
  | .full h ep v cs => if idx = 16 then .full h ep e cs else .full h ep v (cs.set idx.toNat e)
  | n => n

/-- `n.child = child`. -/
def setChild (c : Ptr) : Node → Node
  | .short h k _ => .short h k (some c)
  | n => n

def header : Node → Node
  | .short h k _ => .short h k none
  | .full h e _ _ => .full h e none []
  | n => n

@[simp] theorem header_setEdge (idx : UInt8) (e : Option Ptr) (n : Node) :
    (n.setEdge idx e).header = n.header := by
  cases n with
  | full h ep v cs => by_cases hidx : idx = 16 <;> simp [setEdge, header, hidx]
  | _ => rfl

@[simp] theorem header_setChild (c : Ptr) (n : Node) : (n.setChild c).header = n.header := by
  cases n <;> rfl

end Node

/-! ## Memory and storage -/

/-- The objects, and the entries put into the one batch in play. -/
structure Mem where
  heap : Heap Node
  batch : List (List UInt8 × List UInt8)

def Mem.empty : Mem := ⟨⟨fun _ => .value false [], 0⟩, []⟩

/-- A run that may panic. -/
abbrev TrieM := StateT Mem (Except String)

def getCell (p : Ptr) : TrieM Node := do
  return (← get).heap.cells p

def alloc (n : Node) : TrieM Ptr :=
  modifyGet fun m => ((m.heap.alloc n).1, { m with heap := (m.heap.alloc n).2 })

def modifyCell (p : Ptr) (f : Node → Node) : TrieM Unit :=
  modify fun m => { m with heap := m.heap.set p (f (m.heap.cells p)) }

/-- `batch.Put(k, v)`. -/
def putBatch (k v : List UInt8) : TrieM Unit :=
  modify fun m => { m with batch := m.batch ++ [(k, v)] }

/-- A `Storage` as `memStorage` keeps nodes: the value under each key, the last put first. -/
structure Storage where
  entries : List (List UInt8 × List UInt8)

def Storage.get (s : Storage) (k : List UInt8) : Option (List UInt8) := s.entries.lookup k

/-- `Batch.Write()`: the entries of the batch, put in order. -/
def Storage.write (s : Storage) (batch : List (List UInt8 × List UInt8)) : Storage :=
  ⟨batch.reverse ++ s.entries⟩

/-! ## Keys -/

/-- `bytesToHexNibbles`: two nibbles a byte, and the terminator 16. -/
def bytesToHexNibbles (bytes : List UInt8) : List UInt8 :=
  bytes.flatMap (fun b => [b / 16, b % 16]) ++ [16]

def hasTerminator (hex : List UInt8) : Bool := hex.getLast? = some 16

def packNibbles : List UInt8 → List UInt8
  | a :: b :: rest => (a <<< 4 ||| b) :: packNibbles rest
  | _ => []

/-- `encodeCompact`: the terminator and the parity of the length go into a flag nibble in
front, padded to a whole byte when the length is even. -/
def encodeCompact (hex : List UInt8) : List UInt8 :=
  let (hex, terminator) := if hasTerminator hex then (hex.dropLast, 1) else (hex, 0)
  let oddLen := hex.length % 2
  let flag := UInt8.ofNat (2 * terminator + oddLen)
  packNibbles (if oddLen = 1 then flag :: hex else flag :: 0 :: hex)

/-- `decodeCompact`; an empty key makes the source slice out of range. -/
def decodeCompact (compact : List UInt8) : Except String (List UInt8) :=
  let base := bytesToHexNibbles compact
  let base := if base.headD 0 < 2 then base.dropLast else base
  if base.headD 0 &&& 1 = 1 then .ok base.tail
  else if base.length < 2 then .error "slice bounds out of range"
  else .ok (base.drop 2)

/-- `prefixLen`. -/
def prefixLen : List UInt8 → List UInt8 → ℕ
  | a :: as, b :: bs => if a = b then prefixLen as bs + 1 else 0
  | _, _ => 0

/-! ## Compact keys -/

theorem unpack_pack {a b : UInt8} (ha : a < 16) (hb : b < 16) :
    (a <<< 4 ||| b) / 16 = a ∧ (a <<< 4 ||| b) % 16 = b := by
  have hall : ∀ i j : Fin 16, (UInt8.ofNat i <<< 4 ||| UInt8.ofNat j) / 16 = UInt8.ofNat i ∧
      (UInt8.ofNat i <<< 4 ||| UInt8.ofNat j) % 16 = UInt8.ofNat j := by decide
  have := hall ⟨a.toNat, by simpa [UInt8.lt_iff_toNat_lt] using ha⟩
    ⟨b.toNat, by simpa [UInt8.lt_iff_toNat_lt] using hb⟩
  simpa using this

theorem bytesToHexNibbles_cons (c : UInt8) (rest : List UInt8) :
    bytesToHexNibbles (c :: rest) = c / 16 :: c % 16 :: bytesToHexNibbles rest := by
  simp [bytesToHexNibbles]

theorem bytesToHexNibbles_packNibbles {xs : List UInt8} (heven : xs.length % 2 = 0)
    (hnib : ∀ x ∈ xs, x < 16) : bytesToHexNibbles (packNibbles xs) = xs ++ [16] := by
  induction xs using packNibbles.induct with
  | case1 a b rest ih =>
    have hab := unpack_pack (hnib a (by simp)) (hnib b (by simp))
    rw [packNibbles, bytesToHexNibbles_cons, hab.1, hab.2,
      ih (by simp only [List.length_cons] at heven; omega) (fun x hx => hnib x (by simp [hx]))]
    rfl
  | case2 xs hxs =>
    match xs, hxs with
    | [], _ => rfl
    | [_], _ => simp at heven
    | _ :: _ :: _, h => exact absurd rfl (h _ _ _)

theorem hasTerminator_of_nibbles {ns : List UInt8} (hnib : ∀ x ∈ ns, x < 16) :
    hasTerminator ns = false := by
  cases hlast : ns.getLast? with
  | none => simp [hasTerminator, hlast]
  | some x =>
    have hx : x < 16 := hnib x (List.mem_of_getLast? hlast)
    have hne : x ≠ 16 := fun h => by simp [h] at hx
    simp [hasTerminator, hlast, hne]

theorem decodeCompact_encodeCompact {ns : List UInt8} (hnib : ∀ x ∈ ns, x < 16) (term : Bool) :
    decodeCompact (encodeCompact (ns ++ if term then [16] else [])) =
      .ok (ns ++ if term then [16] else []) := by
  have hsplit : (if hasTerminator (ns ++ if term then [16] else [])
      then ((ns ++ if term then [16] else []).dropLast, 1) else (ns ++ if term then [16] else [], 0)) =
      (ns, if term then 1 else 0) := by
    cases term
    · simp [hasTerminator_of_nibbles hnib]
    · simp [hasTerminator]
  simp only [encodeCompact, hsplit]
  rcases Nat.mod_two_eq_zero_or_one ns.length with hpar | hpar
  · rw [if_neg (by omega)]
    have h : bytesToHexNibbles (packNibbles (UInt8.ofNat (2 * (if term then 1 else 0) + 0) :: 0 :: ns)) =
        UInt8.ofNat (2 * (if term then 1 else 0) + 0) :: 0 :: ns ++ [16] :=
      bytesToHexNibbles_packNibbles (by simp; omega) (by cases term <;> simpa using hnib)
    rw [hpar]
    simp only [decodeCompact, h]
    cases term <;> simp +decide [List.dropLast_cons_of_ne_nil]
  · rw [if_pos hpar]
    have h : bytesToHexNibbles (packNibbles (UInt8.ofNat (2 * (if term then 1 else 0) + 1) :: ns)) =
        UInt8.ofNat (2 * (if term then 1 else 0) + 1) :: ns ++ [16] :=
      bytesToHexNibbles_packNibbles (by simp; omega) (by cases term <;> simpa using hnib)
    rw [hpar]
    simp only [decodeCompact, h]
    cases term <;> simp +decide [List.dropLast_cons_of_ne_nil]

/-- A valid compact key: a flag nibble of 0 to 3, and a zero nibble after an even flag. -/
def IsCompact : List UInt8 → Prop
  | [] => False
  | b :: _ => b / 16 < 4 ∧ (b / 16 % 2 = 0 → b % 16 = 0)

instance (c : List UInt8) : Decidable (IsCompact c) :=
  match c with
  | [] => isFalse id
  | _ :: _ => inferInstanceAs (Decidable (_ ∧ _))

theorem pack_unpack (b : UInt8) : (b / 16) <<< 4 ||| b % 16 = b := by
  have hall : ∀ i : Fin 256,
      (UInt8.ofNat i / 16) <<< 4 ||| UInt8.ofNat i % 16 = UInt8.ofNat i := by decide +kernel
  simpa using hall ⟨b.toNat, b.toNat_lt⟩

theorem nibbles_lt (b : UInt8) : b / 16 < 16 ∧ b % 16 < 16 := by
  simp only [UInt8.lt_iff_toNat_lt, UInt8.toNat_div, UInt8.toNat_mod, UInt8.reduceToNat]
  have := b.toNat_lt
  omega

theorem packNibbles_flatMap (bytes : List UInt8) :
    packNibbles (bytes.flatMap fun b => [b / 16, b % 16]) = bytes := by
  induction bytes with
  | nil => rfl
  | cons b bytes ih =>
    rw [List.flatMap_cons, List.cons_append, List.cons_append, List.nil_append, packNibbles, ih,
      pack_unpack]

theorem decodeCompact_cons (b : UInt8) (rest : List UInt8) :
    decodeCompact (b :: rest) =
      let base := if b / 16 < 2 then b / 16 :: b % 16 :: rest.flatMap (fun b => [b / 16, b % 16])
        else (b / 16 :: b % 16 :: rest.flatMap (fun b => [b / 16, b % 16])) ++ [16]
      if b / 16 &&& 1 = 1 then .ok base.tail else .ok (base.drop 2) := by
  have hbase : bytesToHexNibbles (b :: rest) =
      (b / 16 :: b % 16 :: rest.flatMap (fun b => [b / 16, b % 16])) ++ [16] := by
    rw [bytesToHexNibbles_cons]
    rfl
  unfold decodeCompact
  rw [hbase]
  by_cases hlt : b / 16 < 2
  · simp only [List.cons_append, List.headD_cons, hlt, if_true]
    rw [← List.cons_append, ← List.cons_append, List.dropLast_concat]
    simp only [List.headD_cons, List.length_cons, Nat.not_lt.mpr (Nat.le_add_left 2 _), if_false]
  · simp only [List.cons_append, List.headD_cons, hlt, if_false, List.length_cons,
      Nat.not_lt.mpr (Nat.le_add_left 2 _)]

theorem encodeCompact_decodeCompact {c : List UInt8} (hc : IsCompact c) :
    encodeCompact <$> decodeCompact c = .ok c := by
  obtain ⟨b, rest, rfl⟩ : ∃ b rest, c = b :: rest := by
    cases c with
    | nil => exact hc.elim
    | cons b rest => exact ⟨b, rest, rfl⟩
  obtain ⟨hflag, hzero⟩ := hc
  set ns := rest.flatMap fun b => [b / 16, b % 16] with hns
  have hnib : ∀ x ∈ ns, x < 16 := by
    intro x hx
    obtain ⟨a, -, hxa⟩ := List.mem_flatMap.mp hx
    rcases List.mem_pair.mp hxa with rfl | rfl
    · exact (nibbles_lt a).1
    · exact (nibbles_lt a).2
  have heven : ns.length % 2 = 0 := by
    simp [hns, List.length_flatMap]
  have hpack : packNibbles (b / 16 :: b % 16 :: ns) = b :: rest := by
    rw [packNibbles, pack_unpack, hns, packNibbles_flatMap]
  have hx := (nibbles_lt b).2
  have hterm : ∀ xs : List UInt8, (∀ x ∈ xs, x < 16) → encodeCompact xs =
      packNibbles (if xs.length % 2 = 1 then UInt8.ofNat (xs.length % 2) :: xs
        else UInt8.ofNat (xs.length % 2) :: 0 :: xs) := by
    intro xs hxs
    simp [encodeCompact, hasTerminator_of_nibbles hxs]
  have hterm16 : ∀ xs : List UInt8, encodeCompact (xs ++ [16]) =
      packNibbles (if xs.length % 2 = 1 then UInt8.ofNat (2 + xs.length % 2) :: xs
        else UInt8.ofNat (2 + xs.length % 2) :: 0 :: xs) := by
    intro xs
    simp [encodeCompact, hasTerminator]
  have hcases : b / 16 = 0 ∨ b / 16 = 1 ∨ b / 16 = 2 ∨ b / 16 = 3 := by
    simp only [UInt8.lt_iff_toNat_lt, UInt8.reduceToNat] at hflag
    simp only [← UInt8.toNat_inj, UInt8.reduceToNat]
    omega
  rw [decodeCompact_cons, ← hns]
  rcases hcases with hf | hf | hf | hf
  · have hx0 : b % 16 = 0 := hzero (by rw [hf]; rfl)
    simp only [hf, hx0, if_pos (show (0 : UInt8) < 2 by decide),
      if_neg (show ¬(0 : UInt8) &&& 1 = 1 by decide), List.drop_succ_cons, List.drop_zero,
      Except.map_ok]
    rw [hterm ns hnib, if_neg (by omega), heven, ← hpack, hf, hx0]
    rfl
  · simp only [hf, if_pos (show (1 : UInt8) < 2 by decide),
      if_pos (show (1 : UInt8) &&& 1 = 1 by decide), List.tail_cons, Except.map_ok]
    rw [hterm _ (by simpa using ⟨hx, hnib⟩), List.length_cons, if_pos (by omega),
      show (ns.length + 1) % 2 = 1 by omega, ← hpack, hf]
    rfl
  · have hx0 : b % 16 = 0 := hzero (by rw [hf]; rfl)
    simp only [hf, hx0, if_neg (show ¬(2 : UInt8) < 2 by decide),
      if_neg (show ¬(2 : UInt8) &&& 1 = 1 by decide), List.cons_append, List.drop_succ_cons,
      List.drop_zero, Except.map_ok]
    rw [hterm16, if_neg (by omega), heven, ← hpack, hf, hx0]
    rfl
  · simp only [hf, if_neg (show ¬(3 : UInt8) < 2 by decide),
      if_pos (show (3 : UInt8) &&& 1 = 1 by decide), List.cons_append, List.tail_cons,
      Except.map_ok]
    rw [← List.cons_append, hterm16, List.length_cons, if_pos (by omega),
      show (ns.length + 1) % 2 = 1 by omega, ← hpack, hf]
    rfl

theorem compact_encoding_round_trip :
    (∀ ns : List UInt8, (∀ x ∈ ns, x < 16) → ∀ term : Bool,
      decodeCompact (encodeCompact (ns ++ if term then [16] else [])) =
        .ok (ns ++ if term then [16] else [])) ∧
    ∀ c : List UInt8, IsCompact c → encodeCompact <$> decodeCompact c = .ok c :=
  ⟨fun _ hnib term => decodeCompact_encodeCompact hnib term,
    fun _ hc => encodeCompact_decodeCompact hc⟩

theorem compact_encoding_round_trip_of_sample :
    ((∀ x ∈ ([1, 2, 3] : List UInt8), x < 16) ∧
      decodeCompact (encodeCompact (([1, 2, 3] : List UInt8) ++ if true then [16] else [])) =
        .ok (([1, 2, 3] : List UInt8) ++ if true then [16] else [])) ∧
    (IsCompact [0x20, 0x12] ∧ encodeCompact <$> decodeCompact [0x20, 0x12] = .ok [0x20, 0x12]) := by
  have hnib : ∀ x ∈ ([1, 2, 3] : List UInt8), x < 16 := by
    intro x hx
    simp only [List.mem_cons, List.not_mem_nil, or_false] at hx
    rcases hx with rfl | rfl | rfl <;> decide
  have hc : IsCompact [0x20, 0x12] := by decide
  exact ⟨⟨hnib, compact_encoding_round_trip.1 _ hnib true⟩, ⟨hc, compact_encoding_round_trip.2 _ hc⟩⟩

/-! ## Stored nodes -/

mutual
/-- `decodeNode`: the objects of a stored node, allocated. A string is a reference to another
stored node. -/
def decodeNode : Value → TrieM Ptr
  | .bytes b => alloc (.value true b)
  | .array [key, child] => do
    let .bytes kb := key | throw "short key expected to be bytes"
    let k ← liftM (decodeCompact kb)
    if hasTerminator k then
      -- a leaf: the child is the value itself
      let .bytes vb := child | throw "short leaf value expected to be bytes"
      let c ← alloc (.value false vb)
      alloc (.short [] k (some c))
    else
      let c ← decodeNode child
      alloc (.short [] k (some c))
  | .array items =>
    if items.length = 17 then do
      let (children, value) ← decodeFullItems items
      alloc (.full [] 0 value children)
    else throw "node has incorrect number of leafs"
def decodeFullItems : List Value → TrieM (List (Option Ptr) × Option Ptr)
  | [] => pure ([], none)
  | [.bytes b] =>
    if b = [] then pure ([], none) else do
      let v ← alloc (.value false b)
      pure ([], some v)
  | [.array _] => throw "full node value expected to be bytes"
  | item :: items => do
    let c ← if item = .bytes [] then pure none else some <$> decodeNode item
    let (children, value) ← decodeFullItems items
    pure (c :: children, value)
end

/-- `GetNode`: the stored node under `root`, decoded, or `none` if nothing is stored there. -/
def getNode (root : List UInt8) (storage : Storage) : TrieM (Option Ptr) :=
  match storage.get root with
  | none => pure none
  | some data =>
    if data = [] then pure none
    else match parse data with
      | .error e => throw e
      | .ok (.bytes _) => throw "storage item should be an array"
      | .ok v => some <$> decodeNode v

/-! ## Tries and transactions -/

structure Trie where
  root : Option Ptr
  epoch : UInt32

structure Txn where
  root : Option Ptr
  epoch : UInt32
  storage : Storage
  /-- whether `Txn.Hash()` puts the nodes it hashes into the batch -/
  batch : Bool

/-- `Trie.Txn`: a transaction of the next epoch, with no batch. -/
def Trie.txn (t : Trie) (storage : Storage) : Txn := ⟨t.root, t.epoch + 1, storage, false⟩

def Txn.commit (t : Txn) : Trie := ⟨t.root, t.epoch⟩

def outOfFuel : String := "walk did not end"

def walkFuel (search : List UInt8) : ℕ := 4 * search.length + 4

namespace Txn

variable (t : Txn)

/-- `Txn.lookup`: the node a stored reference was resolved to, if this call resolved one, and
the value under `key`. The parent of a resolved reference keeps the resolved node in its place. -/
def lookupNode : ℕ → Option Ptr → List UInt8 → TrieM (Option Ptr × Option (List UInt8))
  | 0, _, _ => throw outOfFuel
  | _ + 1, none, _ => pure (none, none)
  | fuel + 1, some p, key => do
    let n ← getCell p
    match n with
    | .value hash buf =>
      if hash then
        match ← getNode buf t.storage with
        | none => pure (none, none)
        | some nc => do
          let (_, res) ← lookupNode fuel (some nc) key
          pure (some nc, res)
      else if key = [] then pure (none, some buf) else pure (none, none)
    | .short _ k child =>
      if k.length > key.length ∨ key.take k.length ≠ k then pure (none, none)
      else do
        let (c, res) ← lookupNode fuel child (key.drop k.length)
        if let some c := c then modifyCell p (Node.setChild c)
        pure (none, res)
    | .full _ _ value _ =>
      match key with
      | [] => lookupNode fuel value []
      | k :: rest => do
        let (c, res) ← lookupNode fuel (n.getEdge k) rest
        if let some c := c then
          -- `n.children[key[0]]`, out of range for the terminator
          if k < 16 then modifyCell p (Node.setEdge k (some c)) else throw "index out of range"
        pure (none, res)

/-- `Txn.writeNode`: a full node of this transaction's epoch is written in place, one of an
older epoch is copied first. -/
def writeNode (p : Ptr) : TrieM Ptr := do
  match ← getCell p with
  | .full _ epoch value children =>
    if t.epoch = epoch then pure p else alloc (.full [] t.epoch value children)
  | _ => throw "writeNode of a node that is not full"

/-- `Txn.insert`. -/
def insertNode : ℕ → Option Ptr → List UInt8 → List UInt8 → TrieM (Option Ptr)
  | 0, _, _, _ => throw outOfFuel
  | fuel + 1, none, search, value =>
    if search = [] then some <$> alloc (.value false value)
    else do
      let c ← insertNode fuel none [] value
      some <$> alloc (.short [] search c)
  | fuel + 1, some p, search, value => do
    let n ← getCell p
    match n with
    | .value hash buf =>
      if hash then
        match ← getNode buf t.storage with
        | none => pure none
        | some nc => insertNode fuel (some nc) search value
      else if search = [] then some <$> alloc (.value false value)
      else do
        let b ← alloc (.full [] t.epoch (some p) (List.replicate 16 none))
        insertNode fuel (some b) search value
    | .short _ key child =>
      let plen := prefixLen search key
      if plen = key.length then do
        let c ← insertNode fuel child (search.drop plen) value
        some <$> alloc (.short [] key c)
      else do
        -- a new branch, with the rest of this node under nibble `key[plen]`
        let edge ← if key.length > plen + 1 then some <$> alloc (.short [] (key.drop (plen + 1)) child)
          else pure child
        let b ← alloc ((Node.full [] t.epoch none (List.replicate 16 none)).setEdge
          (key.getD plen 0) edge)
        let c ← insertNode fuel (some b) (search.drop plen) value
        if plen = 0 then pure c else some <$> alloc (.short [] (search.take plen) c)
    | .full .. => do
      let b ← t.writeNode p
      match search with
      | [] => do
        let v ← insertNode fuel ((← getCell b).getEdge 16) [] value
        modifyCell b (Node.setEdge 16 v)
        pure (some b)
      | k :: rest => do
        let nc ← insertNode fuel (n.getEdge k) rest value
        modifyCell b (Node.setEdge k nc)
        pure (some b)

def resolve (nc : Ptr) : TrieM (Option Ptr) := do
  match ← getCell nc with
  | .value true buf => getNode buf t.storage
  | _ => pure (some nc)

def collapse (n : Ptr) : TrieM (Option Ptr × Bool) := do
  let .full _ _ value children ← getCell n | throw "it should not happen"
  let occupied := (List.range 16).filter fun i => (children.getD i none).isSome
  if 2 ≤ occupied.length ∨ (occupied ≠ [] ∧ value.isSome) then pure (some n, true)
  else match occupied with
    | [] =>
      match value with
      | none => pure (none, true)
      | some v => do
        let s ← alloc (.short [] [16] (some v))
        pure (some s, true)
    | indx :: _ => do
      let some nc := children.getD indx none | throw "it should not happen"
      match ← t.resolve nc with
      | none => pure (none, false)
      | some nc =>
        match ← getCell nc with
        | .short _ k cc => do
          let s ← alloc (.short [] (UInt8.ofNat indx :: k) cc)
          pure (some s, true)
        | _ => do
          let s ← alloc (.short [] [UInt8.ofNat indx] (some nc))
          pure (some s, true)

def mergeShort (key : List UInt8) : Option Ptr × Bool → TrieM (Option Ptr × Bool)
  | (_, false) => pure (none, false)
  | (none, true) => pure (none, true)
  | (some c, true) => do
    match ← getCell c with
    | .short _ k cc => do
      let s ← alloc (.short [] (key ++ k) cc)
      pure (some s, true)
    | _ => do
      let s ← alloc (.short [] key (some c))
      pure (some s, true)

/-- `Txn.delete`: the node that replaces this one and whether the key was found. -/
def deleteNode : ℕ → Option Ptr → List UInt8 → TrieM (Option Ptr × Bool)
  | 0, _, _ => throw outOfFuel
  | _ + 1, none, _ => pure (none, false)
  | fuel + 1, some p, search => do
    match ← getCell p with
    | .short _ key child =>
      -- the cache is cleared in place, in every trie that shares the node
      modifyCell p Node.clearHash
      let plen := prefixLen search key
      if plen = search.length then pure (none, true)
      else if plen = 0 then pure (none, false)
      else deleteNode fuel child (search.drop plen) >>= mergeShort key
    | .value hash buf =>
      if hash then
        match ← getNode buf t.storage with
        | none => pure (none, false)
        | some nc => deleteNode fuel (some nc) search
      else pure (none, search = [])
    | .full _ _ value children =>
      -- `n.copy()`: a fresh node of epoch zero with an empty cache
      let n ← alloc (.full [] 0 value children)
      match search with
      | [] => throw "index out of range"
      | k :: rest => do
        let (nc, ok) ← deleteNode fuel ((← getCell n).getEdge k) rest
        if !ok then pure (none, false)
        else do
          modifyCell n (Node.setEdge k nc)
          t.collapse n

def store (p : Ptr) (val : Value) : TrieM Value :=
  if val.len < 32 then pure val
  else do
    let enc := encode val
    let tmp := keccak256 enc
    modifyCell p (Node.setHash tmp)
    if t.batch then putBatch tmp enc
    pure (.bytes tmp)

/-- `Txn.hash`: the item that stands for a node in its parent. A node with a cached hash is not
looked into. -/
def hashNode : ℕ → Option Ptr → TrieM Value
  | 0, _ => throw outOfFuel
  | _ + 1, none => throw "unknown node type <nil>"
  | fuel + 1, some p => do
    let n ← getCell p
    if n.hash.2 then pure (.bytes n.hash.1)
    else
      match n with
      | .value _ buf => pure (.bytes buf)
      | .short _ key child => do
        let c ← hashNode fuel child
        t.store p (.array [.bytes (encodeCompact key), c])
      | .full _ _ value children => do
        let cs ← children.mapM fun c =>
          match c with
          | none => pure (.bytes [])
          | some c => hashNode fuel (some c)
        let v ← match value with
          | none => pure (.bytes [])
          | some v => hashNode fuel (some v)
        t.store p (.array (cs ++ [v]))

/-- `Txn.Lookup`. -/
def lookup (key : List UInt8) : TrieM (Option (List UInt8)) := do
  let search := bytesToHexNibbles key
  let (_, res) ← t.lookupNode (walkFuel search) t.root search
  pure res

/-- `Txn.Insert`: a failed insert leaves the root as it is. -/
def insert (key value : List UInt8) : TrieM Txn := do
  let search := bytesToHexNibbles key
  let root ← t.insertNode (walkFuel search) t.root search value
  pure (if root.isSome then { t with root := root } else t)

/-- `Txn.Delete`: the root changes only if the key was found. -/
def delete (key : List UInt8) : TrieM Txn := do
  let search := bytesToHexNibbles key
  let (root, ok) ← t.deleteNode (walkFuel search) t.root search
  pure (if ok then { t with root := root } else t)

/-- `Txn.Hash()`. The walk visits each object of a path once, so it needs no more steps than
there are objects. -/
def hash : TrieM (List UInt8) :=
  match t.root with
  | none => pure emptyRootHash.bytes
  | some r => do
    let val ← t.hashNode ((← get).heap.next + 1) (some r)
    match val with
    | .bytes b =>
      if b.length ≠ 32 then do
        let root := keccak256 b
        if t.batch then putBatch root b
        pure root
      else pure b
    | .array _ => do
      let tmp := encode val
      let root := keccak256 tmp
      if t.batch then putBatch root tmp
      pure root

end Txn

/-- `Trie.Hash()`: the hash cached in the root, read without hashing. -/
def Trie.hash (t : Trie) (m : Mem) : Hash :=
  match t.root with
  | none => emptyRootHash
  | some r => bytesToHash (m.heap.cells r).hash.1

/-- `Trie.Get`. -/
def Trie.get (t : Trie) (key : List UInt8) (storage : Storage) : TrieM (Option (List UInt8)) :=
  (t.txn storage).lookup key

/-- `State.newTrieAt` with an empty cache. -/
def newTrieAt (storage : Storage) (root : Hash) : TrieM (Except String Trie) :=
  if root = emptyRootHash then pure (.ok ⟨none, 0⟩)
  else
    tryCatch
      (do
        match ← getNode root.bytes storage with
        | none => pure (.error ("state not found at hash " ++ encodeToHex root.bytes))
        | some n => pure (.ok ⟨some n, 0⟩))
      fun e => pure (.error ("failed to get storage root " ++ encodeToHex root.bytes ++ ": " ++ e))

end ImmutableTrie
