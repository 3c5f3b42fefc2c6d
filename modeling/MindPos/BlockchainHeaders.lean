import MindPos.EdgeTypes

/-! # Writing headers: the head, the canonical index and reorganisations

`blockchain/blockchain.go`, `writeHeaderImpl` and what it calls. A header whose parent is the
head becomes the head. Any other header is stored with its total difficulty; it becomes the head
through `handleReorg` when its total difficulty exceeds the head's, and is recorded as a fork
otherwise. `handleReorg` walks both branches down to their common ancestor, reports the headers
of each branch in the event and writes the canonical hashes of the new branch.

The header and difficulty caches hold what the database holds and are left out. -/
namespace BlockchainHeaders

open EdgeTypes

/-- `blockchain.EventType`. -/
inductive EventType where
  | head
  | reorg
  | fork
  deriving DecidableEq, Repr

/-- `blockchain.Event`; its zero value is a head event with no headers. -/
structure Event where
  oldChain : List Header
  newChain : List Header
  difficulty : Option Nat
  type : EventType
  deriving DecidableEq

def Event.empty : Event := ⟨[], [], none, .head⟩

/-- The fields of `Blockchain` and of its database that writing headers reads and writes. -/
structure Blockchain where
  genesis : Hash
  headers : Hash → Option Header
  totalDifficulty : Hash → Option Nat
  canonical : UInt64 → Option Hash
  headHash : Option Hash
  headNumber : Option UInt64
  forks : List Hash
  currentHeader : Header
  currentDifficulty : Nat

namespace Blockchain

def writeHeader (b : Blockchain) (h : Header) : Blockchain :=
  { b with headers := fun x => if x = h.hash then some h else b.headers x }

def writeTotalDifficulty (b : Blockchain) (hash : Hash) (td : Nat) : Blockchain :=
  { b with totalDifficulty := fun x => if x = hash then some td else b.totalDifficulty x }

def writeCanonicalHash (b : Blockchain) (number : UInt64) (hash : Hash) : Blockchain :=
  { b with canonical := fun n => if n = number then some hash else b.canonical n }

def setCurrentHeader (b : Blockchain) (h : Header) (td : Nat) : Blockchain :=
  { b with currentHeader := h, currentDifficulty := td }

/-- `advanceHead`: the head hash and number, the canonical hash of its height and its total
difficulty are written, and the header made current. -/
def advanceHead (b : Blockchain) (newHeader : Header) : Except String (Nat × Blockchain) := do
  let b := { b with headHash := some newHeader.hash, headNumber := some newHeader.number }
  let b := b.writeCanonicalHash newHeader.number newHeader.hash
  let parentTD ← if newHeader.parentHash ≠ zeroHash then
      match b.totalDifficulty newHeader.parentHash with
      | some td => pure td
      | none => throw "parent difficulty not found"
    else pure 0
  let newTD := parentTD + newHeader.difficulty.toNat
  let b := b.writeTotalDifficulty newHeader.hash newTD
  pure (newTD, b.setCurrentHeader newHeader newTD)

/-- `writeCanonicalHeader`: the fast path of a header whose parent is the head. -/
def writeCanonicalHeader (b : Blockchain) (event : Event) (h : Header) :
    Except String (Blockchain × Event) := do
  let some parentTD := b.totalDifficulty h.parentHash | throw "parent difficulty not found"
  let newTD := parentTD + h.difficulty.toNat
  -- `WriteCanonicalHeader`
  let b := b.writeHeader h
  let b := { b with headHash := some h.hash, headNumber := some h.number }
  let b := (b.writeCanonicalHash h.number h.hash).writeTotalDifficulty h.hash newTD
  let event := { event with
    type := .head, newChain := event.newChain ++ [h], difficulty := some newTD }
  pure (b.setCurrentHeader h newTD, event)

/-- `writeFork`: the header replaces its parent among the forks. -/
def writeFork (b : Blockchain) (header : Header) : Blockchain :=
  { b with forks := b.forks.filter (· ≠ header.parentHash) ++ [header.hash] }

def errHeaderNotFound (hash : Hash) : String := "header '" ++ encodeToHex hash.bytes ++ "' not found"

def walkTo (b : Blockchain) (height : UInt64) : ℕ → Header → List Header →
    Except String (Header × List Header)
  | 0, _, _ => throw "out of fuel"
  | fuel + 1, h, acc =>
    if h.number > height then
      match b.headers h.parentHash with
      | some p => b.walkTo height fuel p (acc ++ [p])
      | none => throw (errHeaderNotFound h.parentHash)
    else pure (h, acc)

def walkToCommon (b : Blockchain) : ℕ → Header → Header → List Header →
    Except String (Header × Header × List Header)
  | 0, _, _, _ => throw "out of fuel"
  | fuel + 1, old, new, oldChain =>
    if old.hash ≠ new.hash then
      match b.headers old.parentHash, b.headers new.parentHash with
      | some old', some new' => b.walkToCommon fuel old' new' (oldChain ++ [old'])
      | none, _ => throw (errHeaderNotFound old.parentHash)
      | _, none => throw (errHeaderNotFound new.parentHash)
    else pure (old, new, oldChain)

/-- `handleReorg`. The loops are given fuel for one step a block of the two heights; the
source's slice of an empty old chain panics. -/
def handleReorg (b : Blockchain) (evnt : Event) (oldHeader newHeader : Header) :
    Except String (Blockchain × Event) := do
  let fuel := oldHeader.number.toNat + newHeader.number.toNat + 1
  let (oldAt, oldChain) ← b.walkTo newHeader.number fuel oldHeader []
  let (newAt, newChain) ← b.walkTo oldAt.number fuel newHeader []
  let (_, _, oldChain) ← b.walkToCommon fuel oldAt newAt oldChain
  if oldChain = [] then throw "slice bounds out of range"
  let evnt := { evnt with
    oldChain := evnt.oldChain ++ oldChain.dropLast ++ [oldHeader],
    newChain := evnt.newChain ++ [newHeader] ++ newChain }
  let b := b.writeFork oldHeader
  -- only the headers the second loop collected are made canonical
  let b := newChain.foldl (fun b h => b.writeCanonicalHash h.number h.hash) b
  let (diff, b) ← b.advanceHead newHeader
  pure (b, { evnt with type := .reorg, difficulty := some diff })

/-- `writeHeaderImpl`. -/
def writeHeaderImpl (b : Blockchain) (evnt : Event) (header : Header) :
    Except String (Blockchain × Event) := do
  let currentHeader := b.currentHeader
  if header.parentHash = currentHeader.hash then
    return ← b.writeCanonicalHeader evnt header
  let b := b.writeHeader header
  let some currentTD := b.totalDifficulty currentHeader.hash
    | throw "failed to get header difficulty"
  let some parentTD := b.totalDifficulty header.parentHash
    | throw ("parent of " ++ encodeToHex header.hash.bytes ++ " (" ++ toString header.number ++
        ") not found")
  let incomingTD := parentTD + header.difficulty.toNat
  let b := b.writeTotalDifficulty header.hash incomingTD
  if incomingTD > currentTD then b.handleReorg evnt currentHeader header
  else
    let evnt := { evnt with oldChain := evnt.oldChain ++ [header], type := .fork }
    pure (b.writeFork header, evnt)

/-- `writeGenesisImpl`. -/
def writeGenesisImpl (b : Blockchain) (header : Header) : Except String (Blockchain × Event) := do
  let b := { b with genesis := header.hash }
  let b := b.writeHeader header
  let (_, b) ← b.advanceHead header
  pure (b, { Event.empty with newChain := [header] })

def writeHeaders (b : Blockchain) : List Header → Except String (Blockchain × List Event)
  | [] => pure (b, [])
  | h :: hs => do
    let (b, e) ← b.writeHeaderImpl Event.empty h
    let (b, es) ← b.writeHeaders hs
    pure (b, e :: es)

end Blockchain

def emptyChain (header : Header) : Blockchain :=
  ⟨zeroHash, fun _ => none, fun _ => none, fun _ => none, none, none, [], header, 0⟩

def chainOf (g : Header) (headers : List Header) : Except String (Blockchain × List Event) := do
  let (b, _) ← (emptyChain g).writeGenesisImpl g
  b.writeHeaders headers

/-! ## A reorganisation two blocks deep -/

def sampleHeader (hash parentHash : Hash) (number difficulty : UInt64) : Header :=
  ⟨parentHash, zeroHash, [], zeroHash, zeroHash, zeroHash, [], difficulty, number, 0, 0, 0, [],
    zeroHash, [], hash, 0⟩

def headerG : Header := sampleHeader (bytesToHash [1]) zeroHash 0 1
def headerA1 : Header := sampleHeader (bytesToHash [2]) headerG.hash 1 1
def headerA2 : Header := sampleHeader (bytesToHash [3]) headerA1.hash 2 1
def headerB1 : Header := sampleHeader (bytesToHash [4]) headerG.hash 1 1
def headerB2 : Header := sampleHeader (bytesToHash [5]) headerB1.hash 2 5

/-- After `A1`, `A2`, the fork `B1` and the heavier `B2` are written on genesis `G`, `B2` is the
head but height 1 still indexes `A1`, and the reorganisation reports `B2` alone as new. -/
theorem reorg_leaves_abandoned_branch_canonical :
    (chainOf headerG [headerA1, headerA2, headerB1, headerB2]).map
        (fun r => (r.1.currentHeader, r.1.canonical 1, r.2.getLast?)) =
      .ok (headerB2, some headerA1.hash,
        some ⟨[headerA1, headerA2], [headerB2], some 7, .reorg⟩) ∧
      headerB2.parentHash = headerB1.hash ∧ headerB1.number = 1 := by
  refine ⟨by decide +kernel, rfl, rfl⟩

/-! ## What a reorganisation writes in the canonical index

When every stored header is one block above its stored parent, the walks of `handleReorg` stay
at or above the lower of the two heads' heights, so the reorganisation leaves the canonical index
below that height as it was, whatever the branch the new head descends from there. -/

namespace Blockchain

/-- `h` is one block above its parent, when the parent is stored. -/
def ParentBelow (b : Blockchain) (h : Header) : Prop :=
  ∀ p, b.headers h.parentHash = some p → p.number.toNat + 1 = h.number.toNat

/-- Every stored header is one block above its stored parent. -/
def NumbersConsistent (b : Blockchain) : Prop := ∀ x h, b.headers x = some h → b.ParentBelow h

theorem walkTo_spec {b : Blockchain} (hb : b.NumbersConsistent) {height : UInt64} :
    ∀ {fuel : ℕ} {h h' : Header} {acc acc' : List Header}, b.ParentBelow h →
      b.walkTo height fuel h acc = .ok (h', acc') →
      min h.number.toNat height.toNat ≤ h'.number.toNat ∧
        ∀ p ∈ acc', p ∈ acc ∨ height.toNat ≤ p.number.toNat
  | 0, _, _, _, _, _, hwalk => by simp [walkTo] at hwalk
  | fuel + 1, h, h', acc, acc', hh, hwalk => by
    unfold walkTo at hwalk
    by_cases habove : h.number > height
    · rw [if_pos habove] at hwalk
      cases hp : b.headers h.parentHash with
      | none => simp [hp] at hwalk
      | some p =>
        rw [hp] at hwalk
        have hpn := hh p hp
        have hgt := UInt64.lt_iff_toNat_lt.mp habove
        obtain ⟨hmin, hacc⟩ := walkTo_spec hb (hb _ p hp) hwalk
        refine ⟨by omega, fun q hq => ?_⟩
        rcases hacc q hq with hq | hq
        · rcases List.mem_append.mp hq with hq | hq
          · exact Or.inl hq
          · rw [List.mem_singleton.mp hq]
            exact Or.inr (by omega)
        · exact Or.inr hq
    · rw [if_neg habove] at hwalk
      cases hwalk
      exact ⟨Nat.min_le_left _ _, fun q hq => Or.inl hq⟩

theorem canonical_foldl_writeCanonicalHash (b : Blockchain) (l : List Header) {n : UInt64}
    (hn : ∀ h ∈ l, h.number ≠ n) :
    (l.foldl (fun b h => b.writeCanonicalHash h.number h.hash) b).canonical n = b.canonical n := by
  induction l generalizing b with
  | nil => rfl
  | cons h l ih =>
    rw [List.foldl_cons, ih _ fun h' hh' => hn h' (List.mem_cons_of_mem h hh')]
    simp [writeCanonicalHash, Ne.symm (hn h List.mem_cons_self)]

theorem canonical_advanceHead {b b' : Blockchain} {h : Header} {td : Nat}
    (hadv : b.advanceHead h = .ok (td, b')) {n : UInt64} (hn : n ≠ h.number) :
    b'.canonical n = b.canonical n := by
  unfold advanceHead at hadv
  split_ifs at hadv with hparent
  · cases htd : b.totalDifficulty h.parentHash with
    | none => simp [writeCanonicalHash, htd] at hadv
    | some ptd =>
      simp only [writeCanonicalHash, htd, bind, Except.bind, pure, Except.pure,
        Except.ok.injEq, Prod.mk.injEq] at hadv
      rw [← hadv.2]
      simp [setCurrentHeader, writeTotalDifficulty, hn]
  · simp only [writeCanonicalHash, bind, Except.bind, pure, Except.pure, Except.ok.injEq,
      Prod.mk.injEq] at hadv
    rw [← hadv.2]
    simp [setCurrentHeader, writeTotalDifficulty, hn]

theorem handleReorg_canonical_below {b b' : Blockchain} {evnt evnt' : Event}
    {oldHeader newHeader : Header} (hb : b.NumbersConsistent) (hold : b.ParentBelow oldHeader)
    (hnew : b.ParentBelow newHeader)
    (hreorg : b.handleReorg evnt oldHeader newHeader = .ok (b', evnt')) {n : UInt64}
    (hn : n.toNat < min oldHeader.number.toNat newHeader.number.toNat) :
    b'.canonical n = b.canonical n := by
  unfold handleReorg at hreorg
  obtain ⟨⟨oldAt, oldChain⟩, hw₁, h₁⟩ := Except.bind_eq_ok_iff.mp hreorg
  dsimp only at h₁
  obtain ⟨⟨newAt, newChain⟩, hw₂, h₂⟩ := Except.bind_eq_ok_iff.mp h₁
  dsimp only at h₂
  obtain ⟨⟨_, _, oldChain'⟩, -, h₃⟩ := Except.bind_eq_ok_iff.mp h₂
  dsimp only at h₃
  by_cases hnil : oldChain' = []
  · rw [if_pos hnil] at h₃
    cases h₃
  rw [if_neg hnil] at h₃
  obtain ⟨⟨diff, b₂⟩, hadv, h₄⟩ := Except.bind_eq_ok_iff.mp h₃
  dsimp only at h₄
  rw [Except.pure_eq_ok, Except.ok.injEq, Prod.mk.injEq] at h₄
  rw [← h₄.1]
  obtain ⟨hmin₁, -⟩ := walkTo_spec hb hold hw₁
  obtain ⟨-, hacc₂⟩ := walkTo_spec hb hnew hw₂
  have hchain : ∀ h ∈ newChain, h.number ≠ n := by
    intro h hh heq
    rcases hacc₂ h hh with hh | hh
    · simp at hh
    · rw [heq] at hh
      omega
  rw [canonical_advanceHead hadv (fun heq => by rw [heq] at hn; omega),
    canonical_foldl_writeCanonicalHash _ _ hchain]
  rfl

end Blockchain

end BlockchainHeaders
