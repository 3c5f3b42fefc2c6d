import MindPos.PolybftValidator
import MindPos.WeightedRoundRobin
import MindPos.PointerCells

/-! # The proposer calculator

`consensus/polybft/proposer_calculator.go`. A priority is a `*big.Int`: a validator holds a
pointer into a heap of integer cells, and the in-place `Quo` and `Sub` of the source update
the cell behind every pointer they are applied through, aliases included. Big integer `Div`
is Euclidean (`/`), `Quo` truncates (`Int.tdiv`). -/
namespace PolybftProposerCalculator

open EdgeTypes PolybftValidator PointerCells

variable {K : Type}

abbrev Heap := PointerCells.Heap ℤ

/-- `PrioritizedValidator`; `proposerPriority` is the pointer. -/
structure PrioritizedValidator (K : Type) where
  metadata : ValidatorMetadata K
  proposerPriority : ℕ

/-- `ProposerSnapshot`. `Proposer` points into `Validators` in the source; only its address is
ever read, so a copy of the validator stands for it. -/
structure ProposerSnapshot (K : Type) where
  height : UInt64
  round : UInt64
  proposer : Option (PrioritizedValidator K)
  validators : List (PrioritizedValidator K)

def priorityWindowSizeFactor : ℤ := 2

def ProposerSnapshot.pointers (s : ProposerSnapshot K) : List ℕ :=
  s.validators.map (·.proposerPriority)

def ProposerSnapshot.priorities (s : ProposerSnapshot K) (h : Heap) : List ℤ :=
  s.validators.map (h.cells ·.proposerPriority)

def prioritizeAll : AccountSet K → Heap → List (PrioritizedValidator K) × Heap
  | [], h => ([], h)
  | x :: xs, h =>
    let (c, h) := h.alloc 0
    let (rest, h) := prioritizeAll xs h
    (⟨x, c⟩ :: rest, h)

def newProposerSnapshot (height : UInt64) (validators : AccountSet K) (h : Heap) :
    ProposerSnapshot K × Heap :=
  let (validatorsSnap, h) := prioritizeAll validators h
  (⟨height, 0, none, validatorsSnap⟩, h)

def ProposerSnapshot.getTotalVotingPower (s : ProposerSnapshot K) : ℤ :=
  (s.validators.map (·.metadata.votingPower)).sum

/-- `toMap`: a later validator of an address overwrites an earlier one. -/
def ProposerSnapshot.toMap (s : ProposerSnapshot K) (addr : Address) :
    Option (PrioritizedValidator K) :=
  s.validators.reverse.find? (·.metadata.address = addr)

/-- `Copy`: new validator records that share the priority pointers of the original. -/
def ProposerSnapshot.copy (s : ProposerSnapshot K) : ProposerSnapshot K :=
  { s with proposer := s.proposer.bind fun p => s.toMap p.metadata.address }

/-! ## The algorithm functions -/

/-- `isBetterProposer` for a non-nil `b`: a greater priority, or the same pointer and an
address that is not greater. The source compares the pointers `a.ProposerPriority ==
b.ProposerPriority`, not the values, so equal priorities in distinct cells keep `b`. -/
def isBetterProposer (h : Heap) (a b : PrioritizedValidator K) : Bool :=
  if h.cells a.proposerPriority > h.cells b.proposerPriority then true
  else if a.proposerPriority = b.proposerPriority then
    bytesCompare a.metadata.address.bytes b.metadata.address.bytes != .gt
  else false

/-- `getValWithMostPriority`. The first validator is always taken, since any validator is
better than nil. -/
def getValWithMostPriority (s : ProposerSnapshot K) (h : Heap) :
    Except String (PrioritizedValidator K) :=
  match s.validators with
  | [] => .error "validators cannot be nil or empty"
  | v :: vs => .ok (vs.foldl (fun result curr => if isBetterProposer h curr result then curr else result) v)

def minMaxPriority : ℤ × ℤ → List ℤ → ℤ × ℤ
  | minMax, [] => minMax
  | (mn, mx), q :: qs => minMaxPriority (if q < mn then q else mn, if q > mx then q else mx) qs

/-- `computeMaxMinPriorityDiff`. The source indexes `validators[0]`; every caller has checked
that the set is not empty. -/
def computeMaxMinPriorityDiff (h : Heap) (validators : List (PrioritizedValidator K)) : ℤ :=
  match validators.map (h.cells ·.proposerPriority) with
  | [] => 0
  | p :: ps =>
    let minMax := minMaxPriority (p, p) ps
    let diff := minMax.2 - minMax.1
    if diff < 0 then -diff else diff

def rescalePriorities (s : ProposerSnapshot K) (totalVotingPower : ℤ) (h : Heap) :
    Except String Heap :=
  if s.validators.length = 0 then .error "validator set cannot be nul or empty"
  else
    let diffMax := priorityWindowSizeFactor * totalVotingPower
    let diff := computeMaxMinPriorityDiff h s.validators
    let ratio := bigIntDivCeil diff diffMax
    if diff > diffMax then .ok (h.updateEach (·.tdiv ratio) s.pointers) else .ok h

def computeAvgProposerPriority (s : ProposerSnapshot K) (h : Heap) : Except String ℤ :=
  if s.validators.length = 0 then .error "validator set cannot be nul or empty"
  else .ok ((s.priorities h).sum / s.validators.length)

def shiftByAvgProposerPriority (s : ProposerSnapshot K) (h : Heap) : Except String Heap := do
  let avgProposerPriority ← (computeAvgProposerPriority s h).mapError
    ("cannot compute proposer priority: " ++ ·)
  pure (h.updateEach (· - avgProposerPriority) s.pointers)

def updateWithChangeSet (s : ProposerSnapshot K) (totalVotingPower : ℤ) (h : Heap) :
    Except String Heap := do
  let h ← (rescalePriorities s totalVotingPower h).mapError ("cannot rescale priorities: " ++ ·)
  (shiftByAvgProposerPriority s h).mapError ("cannot shift proposer priorities: " ++ ·)

def addVotingPower : List (PrioritizedValidator K) → Heap → List (PrioritizedValidator K) × Heap
  | [], h => ([], h)
  | v :: vs, h =>
    let (newPrio, h) := h.alloc (h.cells v.proposerPriority + v.metadata.votingPower)
    let (rest, h) := addVotingPower vs h
    ({ v with proposerPriority := newPrio } :: rest, h)

def incrementProposerPriority (s : ProposerSnapshot K) (totalVotingPower : ℤ) (h : Heap) :
    Except String (PrioritizedValidator K × ProposerSnapshot K × Heap) := do
  let (validators, h) := addVotingPower s.validators h
  let s := { s with validators }
  let mostest ← (getValWithMostPriority s h).mapError
    ("cannot get validator with most priority: " ++ ·)
  pure (mostest, s, h.set mostest.proposerPriority (h.cells mostest.proposerPriority - totalVotingPower))

def incrementProposerPriorityLoop (tvp : ℤ) :
    ℕ → ProposerSnapshot K → Heap →
      Except String (List (PrioritizedValidator K) × ProposerSnapshot K × Heap)
  | 0, s, h => .ok ([], s, h)
  | n + 1, s, h => do
    let (proposer, s, h) ← (incrementProposerPriority s tvp h).mapError
      ("cannot increment proposer priority: " ++ ·)
    let (proposers, s, h) ← incrementProposerPriorityLoop tvp n s h
    pure (proposer :: proposers, s, h)

def incrementProposerPriorityNTimes (s : ProposerSnapshot K) (times : UInt64) (h : Heap) :
    Except String (Option (PrioritizedValidator K) × ProposerSnapshot K × Heap) :=
  if s.validators.length = 0 then .error "validator set cannot be nul or empty"
  else if times = 0 then .error "cannot call IncrementProposerPriority with non-positive times"
  else do
    let tvp := s.getTotalVotingPower
    let h ← updateWithChangeSet s tvp h
    let (proposers, s, h) ← incrementProposerPriorityLoop tvp times.toNat s h
    pure (proposers.getLast?, { s with proposer := proposers.getLast?, round := times - 1 }, h)

def prioritizeNewValidators (snapshotValidators : Address → Option (PrioritizedValidator K)) :
    AccountSet K → ℤ → Heap → List (PrioritizedValidator K) × Heap
  | [], _, h => ([], h)
  | v :: vs, tvp, h =>
    match snapshotValidators v.address with
    | some val =>
      let (rest, h) := prioritizeNewValidators snapshotValidators vs tvp h
      (⟨v, val.proposerPriority⟩ :: rest, h)
    | none =>
      let coefficient := tvp / 8
      let tvp := tvp + coefficient
      let (c, h) := h.alloc (-tvp)
      let (rest, h) := prioritizeNewValidators snapshotValidators vs tvp h
      (⟨v, c⟩ :: rest, h)

def removedValidatorsVotingPower (s : ProposerSnapshot K) (newValidatorSet : AccountSet K) : ℤ :=
  (((s.validators.map (·.metadata.address)).dedup.filter
    fun a => !newValidatorSet.containsAddress a).map
      fun a => ((s.toMap a).map (·.metadata.votingPower)).getD 0).sum

def updateValidators (s : ProposerSnapshot K) (newValidatorSet : AccountSet K) (h : Heap) :
    Except String (ProposerSnapshot K × Heap) :=
  if newValidatorSet.length = 0 then .ok (s, h)
  else do
    let newValidatorsVotingPower := (newValidatorSet.map (·.votingPower)).sum
    let tvpAfterUpdatesBeforeRemovals :=
      newValidatorsVotingPower + removedValidatorsVotingPower s newValidatorSet
    let (newValidators, h) :=
      prioritizeNewValidators s.toMap newValidatorSet tvpAfterUpdatesBeforeRemovals h
    let s := { s with validators := newValidators }
    let h ← (updateWithChangeSet s s.getTotalVotingPower h).mapError
      ("cannot update validator changeset: " ++ ·)
    pure (s, h)

/-! ## Per block and per round -/

def blockValidatorSet (blockNumber : UInt64) (delta : Option (ValidatorSetDelta K))
    (getValidators : Except String (AccountSet K)) : Except String (AccountSet K) :=
  match delta with
  | some d =>
    if !d.isEmpty then
      getValidators.mapError ("cannot get validators for block " ++ toString blockNumber ++ ": " ++ ·)
    else pure []
  | none => pure []

/-- `updatePerBlock` for the block `blockNumber`, given the validator set delta of its extra,
the round of its checkpoint and what `GetValidators` returns for it. -/
def updatePerBlock (s : ProposerSnapshot K) (h : Heap) (blockNumber : UInt64)
    (delta : Option (ValidatorSetDelta K)) (blockRound : UInt64)
    (getValidators : Except String (AccountSet K)) : Except String (ProposerSnapshot K × Heap) :=
  if s.height ≠ blockNumber then
    .error ("proposers snapshot update called for wrong block. block number=" ++
      toString blockNumber ++ ", snapshot block number=" ++ toString s.height)
  else do
    let newValidatorSet ← blockValidatorSet blockNumber delta getValidators
    let (_, s, h) ← (incrementProposerPriorityNTimes s (blockRound + 1) h).mapError
      ("failed to update proposers snapshot for block " ++ toString blockNumber ++ ": " ++ ·)
    let (s, h) ← (updateValidators s newValidatorSet h).mapError ("cannot update validators: " ++ ·)
    pure ({ s with height := blockNumber + 1, round := 0, proposer := none }, h)

/-- `CalcProposer`: the proposer of `round`, computed on a copy that shares the priority
cells of the snapshot. -/
def ProposerSnapshot.calcProposer (s : ProposerSnapshot K) (round height : UInt64) (h : Heap) :
    Except String (Address × ProposerSnapshot K × Heap) :=
  if height ≠ s.height then
    .error ("invalid height - expected " ++ toString s.height ++ ", got " ++ toString height)
  else match s.proposer with
    | some p =>
      if s.round = round then .ok (p.metadata.address, s, h) else recompute
    | none => recompute
where
  recompute := do
    let (proposer, _, h) ← incrementProposerPriorityNTimes s.copy (round + 1) h
    match proposer with
    | some p => pure (p.metadata.address, { s with proposer := some p, round }, h)
    -- a nil dereference in the source; the loop runs at least once, so it is never reached
    | none => .error "nil proposer"

/-! ## What each function does -/

/-- Validators whose priority pointers are distinct and allocated: no two of them alias. -/
structure Separate (vs : List (PrioritizedValidator K)) (h : Heap) : Prop where
  nodup : (vs.map (·.proposerPriority)).Nodup
  allocated : ∀ v ∈ vs, v.proposerPriority < h.next

/-- The priorities sum to a number in `[0, n)`, so their floored mean is zero. -/
def Centred (s : ProposerSnapshot K) (h : Heap) : Prop :=
  0 ≤ (s.priorities h).sum ∧ (s.priorities h).sum < s.validators.length

/-- No two priorities are more than the window `2 · T` apart. -/
def Windowed (s : ProposerSnapshot K) (h : Heap) (totalVotingPower : ℤ) : Prop :=
  ∀ x ∈ s.priorities h, ∀ y ∈ s.priorities h, x - y ≤ priorityWindowSizeFactor * totalVotingPower

@[simp] theorem ProposerSnapshot.length_priorities (s : ProposerSnapshot K) (h : Heap) :
    (s.priorities h).length = s.validators.length := by
  simp [ProposerSnapshot.priorities]

theorem priorities_updateEach (s : ProposerSnapshot K) (h : Heap) (f : ℤ → ℤ)
    (hs : s.pointers.Nodup) : s.priorities (h.updateEach f s.pointers) = (s.priorities h).map f := by
  simp only [ProposerSnapshot.priorities, List.map_map]
  refine List.map_congr_left fun v hv => ?_
  have hmem : v.proposerPriority ∈ s.pointers := List.mem_map_of_mem hv
  simp only [Function.comp_apply, Heap.updateEach_cells_of_nodup _ _ hs, if_pos hmem]

section AddVotingPower

variable (vs : List (PrioritizedValidator K)) (h : Heap)

theorem addVotingPower_cons (v : PrioritizedValidator K) :
    addVotingPower (v :: vs) h =
      let h₁ := (h.alloc (h.cells v.proposerPriority + v.metadata.votingPower)).2
      ({ v with proposerPriority := h.next } :: (addVotingPower vs h₁).1, (addVotingPower vs h₁).2) :=
  rfl

theorem addVotingPower_metadata :
    (addVotingPower vs h).1.map (·.metadata) = vs.map (·.metadata) := by
  induction vs generalizing h with
  | nil => rfl
  | cons v vs ih => simp [addVotingPower_cons, ih]

theorem addVotingPower_next : (addVotingPower vs h).2.next = h.next + vs.length := by
  induction vs generalizing h with
  | nil => rfl
  | cons v vs ih =>
    simp only [addVotingPower_cons, ih, Heap.alloc_next, List.length_cons]
    omega

theorem addVotingPower_pointers :
    (addVotingPower vs h).1.map (·.proposerPriority) = List.range' h.next vs.length := by
  induction vs generalizing h with
  | nil => rfl
  | cons v vs ih => simp [addVotingPower_cons, ih, List.range'_succ]

theorem addVotingPower_cells_of_lt {c : ℕ} (hc : c < h.next) :
    (addVotingPower vs h).2.cells c = h.cells c := by
  induction vs generalizing h with
  | nil => rfl
  | cons v vs ih =>
    simp only [addVotingPower_cons]
    rw [ih _ (by simp; omega), Heap.alloc_cells, if_neg (by omega)]

theorem addVotingPower_priorities (hvs : ∀ v ∈ vs, v.proposerPriority < h.next) :
    (addVotingPower vs h).1.map ((addVotingPower vs h).2.cells ·.proposerPriority) =
      vs.map fun v => h.cells v.proposerPriority + v.metadata.votingPower := by
  induction vs generalizing h with
  | nil => rfl
  | cons v vs ih =>
    simp only [List.mem_cons, forall_eq_or_imp] at hvs
    simp only [addVotingPower_cons, List.map_cons, List.cons.injEq]
    constructor
    · rw [addVotingPower_cells_of_lt _ _ (by simp), Heap.alloc_cells, if_pos rfl]
    · rw [ih _ fun w hw => by simp; have := hvs.2 w hw; omega]
      refine List.map_congr_left fun w hw => ?_
      rw [Heap.alloc_cells, if_neg (by have := hvs.2 w hw; omega)]

theorem addVotingPower_separate : Separate (addVotingPower vs h).1 (addVotingPower vs h).2 := by
  refine ⟨by rw [addVotingPower_pointers]; exact List.nodup_range', fun v hv => ?_⟩
  have hmem : v.proposerPriority ∈ List.range' h.next vs.length := by
    rw [← addVotingPower_pointers]
    exact List.mem_map_of_mem hv
  rw [List.mem_range'] at hmem
  rw [addVotingPower_next]
  omega

end AddVotingPower

theorem foldl_isBetterProposer (h : Heap) (vs : List (PrioritizedValidator K))
    (r : PrioritizedValidator K) :
    let m := vs.foldl (fun result curr => if isBetterProposer h curr result then curr else result) r
    (m = r ∨ m ∈ vs) ∧ h.cells r.proposerPriority ≤ h.cells m.proposerPriority ∧
      ∀ v ∈ vs, h.cells v.proposerPriority ≤ h.cells m.proposerPriority := by
  induction vs generalizing r with
  | nil => simp
  | cons c vs ih =>
    simp only [List.foldl_cons, List.mem_cons, forall_eq_or_imp]
    have hstep : h.cells r.proposerPriority ≤
          h.cells (if isBetterProposer h c r then c else r).proposerPriority ∧
        h.cells c.proposerPriority ≤
          h.cells (if isBetterProposer h c r then c else r).proposerPriority := by
      unfold isBetterProposer
      by_cases h1 : h.cells c.proposerPriority > h.cells r.proposerPriority
      · simp only [h1, if_true]
        omega
      · by_cases h2 : c.proposerPriority = r.proposerPriority
        · have hval : h.cells c.proposerPriority = h.cells r.proposerPriority := by rw [h2]
          split_ifs <;> simp [hval]
        · simp only [h1, h2, if_false, Bool.false_eq_true]
          omega
    have hcases : (if isBetterProposer h c r then c else r) = c ∨
        (if isBetterProposer h c r then c else r) = r := by
      split_ifs <;> simp
    generalize (if isBetterProposer h c r then c else r) = r' at hstep hcases ⊢
    obtain ⟨hm, hr, hvs⟩ := ih r'
    refine ⟨?_, hstep.1.trans hr, hstep.2.trans hr, hvs⟩
    rcases hm with hm | hm
    · rcases hcases with rfl | rfl <;> simp [hm]
    · exact Or.inr (Or.inr hm)

theorem getValWithMostPriority_spec {s : ProposerSnapshot K} (h : Heap)
    (hne : s.validators ≠ []) :
    ∃ m, getValWithMostPriority s h = .ok m ∧ m ∈ s.validators ∧
      ∀ v ∈ s.validators, h.cells v.proposerPriority ≤ h.cells m.proposerPriority := by
  unfold getValWithMostPriority
  split
  · contradiction
  · rename_i v vs hvs
    obtain ⟨hm, hv, hall⟩ := foldl_isBetterProposer h vs v
    refine ⟨_, rfl, ?_, ?_⟩
    · rw [hvs]
      rcases hm with hm | hm
      · rw [hm]; exact List.mem_cons_self
      · exact List.mem_cons_of_mem _ hm
    · rw [hvs]
      simp only [List.mem_cons, forall_eq_or_imp]
      exact ⟨hv, hall⟩

theorem isBetterProposer_of_ne {h : Heap} {a b : PrioritizedValidator K}
    (hne : a.proposerPriority ≠ b.proposerPriority) :
    isBetterProposer h a b = decide (h.cells b.proposerPriority < h.cells a.proposerPriority) := by
  unfold isBetterProposer
  split_ifs <;> simp_all

theorem foldl_isBetterProposer_eq_argAux (h : Heap) (vs : List (PrioritizedValidator K))
    (r : PrioritizedValidator K) (hnodup : ((r :: vs).map (·.proposerPriority)).Nodup) :
    some (vs.foldl (fun result curr => if isBetterProposer h curr result then curr else result) r) =
      vs.foldl (List.argAux fun b c => h.cells c.proposerPriority < h.cells b.proposerPriority)
        (some r) := by
  induction vs generalizing r with
  | nil => rfl
  | cons c vs ih =>
    have hrc : c.proposerPriority ≠ r.proposerPriority := by
      intro hcr
      simp [hcr] at hnodup
    have hstep : List.argAux (fun b c => h.cells c.proposerPriority < h.cells b.proposerPriority)
        (some r) c = some (if isBetterProposer h c r then c else r) := by
      rw [isBetterProposer_of_ne hrc]
      by_cases hlt : h.cells r.proposerPriority < h.cells c.proposerPriority <;>
        simp [List.argAux, hlt]
    rw [List.foldl_cons, List.foldl_cons, hstep]
    apply ih
    have hsub : ((r :: vs).map (·.proposerPriority)).Sublist
        ((r :: c :: vs).map (·.proposerPriority)) := by simp
    split_ifs
    · exact (List.nodup_cons.mp hnodup).2
    · exact hnodup.sublist hsub

theorem getValWithMostPriority_eq_argmax {s : ProposerSnapshot K} (h : Heap)
    (hnodup : s.pointers.Nodup) :
    (getValWithMostPriority s h).toOption = s.validators.argmax (h.cells ·.proposerPriority) := by
  unfold getValWithMostPriority
  split
  · next hvs =>
    rw [hvs, List.argmax_nil]
    rfl
  · next v vs hvs =>
    rw [hvs, List.argmax, List.foldl_cons]
    rw [ProposerSnapshot.pointers, hvs] at hnodup
    exact foldl_isBetterProposer_eq_argAux h vs v hnodup

theorem minMaxPriority_spec (qs : List ℤ) (mn mx : ℤ) :
    let r := minMaxPriority (mn, mx) qs
    r.1 ≤ mn ∧ mx ≤ r.2 ∧ (∀ q ∈ qs, r.1 ≤ q ∧ q ≤ r.2) ∧ (r.1 = mn ∨ r.1 ∈ qs) ∧
      (r.2 = mx ∨ r.2 ∈ qs) := by
  induction qs generalizing mn mx with
  | nil => simp [minMaxPriority]
  | cons q qs ih =>
    simp only [minMaxPriority, List.mem_cons, forall_eq_or_imp]
    have hmn : (if q < mn then q else mn) ≤ mn ∧ (if q < mn then q else mn) ≤ q ∧
        ((if q < mn then q else mn) = mn ∨ (if q < mn then q else mn) = q) := by
      split_ifs <;> omega
    have hmx : mx ≤ (if q > mx then q else mx) ∧ q ≤ (if q > mx then q else mx) ∧
        ((if q > mx then q else mx) = mx ∨ (if q > mx then q else mx) = q) := by
      split_ifs <;> omega
    generalize (if q < mn then q else mn) = mn' at hmn ⊢
    generalize (if q > mx then q else mx) = mx' at hmx ⊢
    obtain ⟨h1, h2, h3, h4, h5⟩ := ih mn' mx'
    refine ⟨by omega, by omega, ⟨⟨by omega, by omega⟩, h3⟩, ?_, ?_⟩
    · rcases h4 with h4 | h4
      · rw [h4]
        rcases hmn.2.2 with h | h
        exacts [Or.inl h, Or.inr (Or.inl h)]
      · exact Or.inr (Or.inr h4)
    · rcases h5 with h5 | h5
      · rw [h5]
        rcases hmx.2.2 with h | h
        exacts [Or.inl h, Or.inr (Or.inl h)]
      · exact Or.inr (Or.inr h5)

theorem sub_le_computeMaxMinPriorityDiff (h : Heap) (vs : List (PrioritizedValidator K)) :
    ∀ x ∈ vs.map (h.cells ·.proposerPriority), ∀ y ∈ vs.map (h.cells ·.proposerPriority),
      x - y ≤ computeMaxMinPriorityDiff h vs := by
  unfold computeMaxMinPriorityDiff
  generalize vs.map (h.cells ·.proposerPriority) = l
  cases l with
  | nil => simp
  | cons p ps =>
    obtain ⟨h1, h2, h3, -, -⟩ := minMaxPriority_spec ps p p
    simp only [List.mem_cons]
    have hbound : ∀ x, x = p ∨ x ∈ ps →
        (minMaxPriority (p, p) ps).1 ≤ x ∧ x ≤ (minMaxPriority (p, p) ps).2 := by
      rintro x (rfl | hx)
      · exact ⟨h1, h2⟩
      · exact h3 x hx
    intro x hx y hy
    have := hbound x hx
    have := hbound y hy
    split_ifs <;> omega

theorem computeMaxMinPriorityDiff_le (h : Heap) (vs : List (PrioritizedValidator K)) {W : ℤ}
    (hW : 0 ≤ W) (hl : ∀ x ∈ vs.map (h.cells ·.proposerPriority),
      ∀ y ∈ vs.map (h.cells ·.proposerPriority), x - y ≤ W) :
    computeMaxMinPriorityDiff h vs ≤ W := by
  unfold computeMaxMinPriorityDiff
  generalize vs.map (h.cells ·.proposerPriority) = l at hl
  cases l with
  | nil => exact hW
  | cons p ps =>
    obtain ⟨-, -, -, h4, h5⟩ := minMaxPriority_spec ps p p
    have hmin : (minMaxPriority (p, p) ps).1 ∈ p :: ps := by
      rcases h4 with h4 | h4 <;> simp [h4]
    have hmax : (minMaxPriority (p, p) ps).2 ∈ p :: ps := by
      rcases h5 with h5 | h5 <;> simp [h5]
    have := hl _ hmin _ hmax
    have := hl _ hmax _ hmin
    dsimp only
    split_ifs <;> omega

section ChangeSet

variable {s : ProposerSnapshot K} {h : Heap} {totalVotingPower : ℤ}

theorem rescalePriorities_spec (hs : s.pointers.Nodup) (hne : s.validators ≠ [])
    (hT : 0 < totalVotingPower) :
    ∃ h', rescalePriorities s totalVotingPower h = .ok h' ∧ h'.next = h.next ∧
      Windowed s h' totalVotingPower := by
  have hlen : s.validators.length ≠ 0 := by simpa using hne
  have hspread := sub_le_computeMaxMinPriorityDiff h s.validators
  unfold rescalePriorities
  rw [if_neg hlen]
  dsimp only
  split_ifs with hdiff
  · have hW : 0 < priorityWindowSizeFactor * totalVotingPower := by
      unfold priorityWindowSizeFactor; omega
    refine ⟨_, rfl, Heap.updateEach_next _ _ _, ?_⟩
    unfold Windowed
    rw [priorities_updateEach _ _ _ hs]
    exact WeightedRoundRobin.tdiv_spread_le (bigIntDivCeil_pos hW (by omega))
      (le_mul_bigIntDivCeil hW) hspread
  · exact ⟨h, rfl, rfl, fun x hx y hy => (hspread x hx y hy).trans (not_lt.mp hdiff)⟩

theorem shiftByAvgProposerPriority_spec (hs : s.pointers.Nodup) (hne : s.validators ≠ []) :
    ∃ h', shiftByAvgProposerPriority s h = .ok h' ∧ h'.next = h.next ∧
      s.priorities h' = (s.priorities h).map (· - (s.priorities h).sum / s.validators.length) := by
  have hlen : s.validators.length ≠ 0 := by simpa using hne
  refine ⟨_, ?_, Heap.updateEach_next _ _ _, priorities_updateEach _ _ _ hs⟩
  simp [shiftByAvgProposerPriority, computeAvgProposerPriority, hlen]

theorem updateWithChangeSet_spec (hs : s.pointers.Nodup) (hne : s.validators ≠ [])
    (hT : 0 < totalVotingPower) :
    ∃ h', updateWithChangeSet s totalVotingPower h = .ok h' ∧ h'.next = h.next ∧
      Centred s h' ∧ Windowed s h' totalVotingPower := by
  obtain ⟨h₁, hr, hnext₁, hwin⟩ := rescalePriorities_spec (h := h) hs hne hT
  obtain ⟨h₂, hsh, hnext₂, hprio⟩ := shiftByAvgProposerPriority_spec (h := h₁) hs hne
  refine ⟨h₂, by simp [updateWithChangeSet, hr, hsh], hnext₂.trans hnext₁, ?_, ?_⟩
  · have hne' : s.priorities h₁ ≠ [] := by simpa [ProposerSnapshot.priorities] using hne
    have := WeightedRoundRobin.sum_sub_mean_mem hne'
    rw [ProposerSnapshot.length_priorities] at this
    unfold Centred
    rw [hprio]
    exact this
  · unfold Windowed
    rw [hprio]
    exact WeightedRoundRobin.spread_map_sub_const _ hwin

theorem updateWithChangeSet_map (hs : s.pointers.Nodup) {h' : Heap}
    (hup : updateWithChangeSet s totalVotingPower h = .ok h') :
    ∃ g : ℤ → ℤ, s.priorities h' = (s.priorities h).map g := by
  obtain ⟨h₁, hr, hsh⟩ := Except.bind_eq_ok_iff.mp hup
  have hrescale : ∃ g : ℤ → ℤ, s.priorities h₁ = (s.priorities h).map g := by
    replace hr := Except.mapError_eq_ok.mp hr
    unfold rescalePriorities at hr
    dsimp only at hr
    split_ifs at hr
    · obtain rfl := Except.ok.inj hr
      exact ⟨_, priorities_updateEach _ _ _ hs⟩
    · obtain rfl := Except.ok.inj hr
      exact ⟨id, by simp⟩
  obtain ⟨g, hg⟩ := hrescale
  obtain ⟨avg, -, hshift⟩ := Except.bind_eq_ok_iff.mp (Except.mapError_eq_ok.mp hsh)
  obtain rfl := Except.ok.inj hshift
  refine ⟨fun x => g x - avg, ?_⟩
  rw [priorities_updateEach _ _ _ hs, hg, List.map_map]
  rfl

theorem updateWithChangeSet_of_centred (hne : s.validators ≠ []) (hT : 0 ≤ totalVotingPower)
    (hc : Centred s h) (hw : Windowed s h totalVotingPower) :
    updateWithChangeSet s totalVotingPower h = .ok h := by
  have hlen : s.validators.length ≠ 0 := by simpa using hne
  have hdiff : ¬ computeMaxMinPriorityDiff h s.validators > priorityWindowSizeFactor * totalVotingPower :=
    not_lt.mpr (computeMaxMinPriorityDiff_le h s.validators
      (by unfold priorityWindowSizeFactor; omega) hw)
  have havg : (s.priorities h).sum / s.validators.length = 0 := Int.ediv_eq_zero_of_lt hc.1 hc.2
  simp [updateWithChangeSet, rescalePriorities, hlen, hdiff, shiftByAvgProposerPriority,
    computeAvgProposerPriority, havg, Heap.updateEach_id]

end ChangeSet

section NewSnapshot

variable (vals : AccountSet K) (h : Heap)

theorem prioritizeAll_cons (x : ValidatorMetadata K) :
    prioritizeAll (x :: vals) h =
      (⟨x, h.next⟩ :: (prioritizeAll vals (h.alloc 0).2).1, (prioritizeAll vals (h.alloc 0).2).2) :=
  rfl

theorem prioritizeAll_metadata : (prioritizeAll vals h).1.map (·.metadata) = vals := by
  induction vals generalizing h with
  | nil => rfl
  | cons x vals ih => simp [prioritizeAll_cons, ih]

theorem prioritizeAll_pointers :
    (prioritizeAll vals h).1.map (·.proposerPriority) = List.range' h.next vals.length := by
  induction vals generalizing h with
  | nil => rfl
  | cons x vals ih => simp [prioritizeAll_cons, ih, List.range'_succ]

theorem prioritizeAll_next : (prioritizeAll vals h).2.next = h.next + vals.length := by
  induction vals generalizing h with
  | nil => rfl
  | cons x vals ih =>
    simp only [prioritizeAll_cons, ih, Heap.alloc_next, List.length_cons]
    omega

theorem prioritizeAll_cells_of_lt {c : ℕ} (hc : c < h.next) :
    (prioritizeAll vals h).2.cells c = h.cells c := by
  induction vals generalizing h with
  | nil => rfl
  | cons x vals ih =>
    rw [prioritizeAll_cons, ih _ (by simp; omega), Heap.alloc_cells, if_neg (by omega)]

theorem prioritizeAll_priorities :
    (prioritizeAll vals h).1.map ((prioritizeAll vals h).2.cells ·.proposerPriority) =
      vals.map fun _ => 0 := by
  induction vals generalizing h with
  | nil => rfl
  | cons x vals ih =>
    simp only [prioritizeAll_cons, List.map_cons, ih]
    rw [prioritizeAll_cells_of_lt _ _ (by simp), Heap.alloc_cells, if_pos rfl]

theorem newProposerSnapshot_spec (height : UInt64) :
    (newProposerSnapshot height vals h).1.validators.map (·.metadata) = vals ∧
      Separate (newProposerSnapshot height vals h).1.validators (newProposerSnapshot height vals h).2 ∧
      (newProposerSnapshot height vals h).1.priorities (newProposerSnapshot height vals h).2 =
        vals.map fun _ => 0 := by
  refine ⟨prioritizeAll_metadata vals h, ⟨?_, fun v hv => ?_⟩, prioritizeAll_priorities vals h⟩
  · simp only [newProposerSnapshot]
    rw [prioritizeAll_pointers]
    exact List.nodup_range'
  · have hmem : v.proposerPriority ∈ List.range' h.next vals.length := by
      rw [← prioritizeAll_pointers]
      exact List.mem_map_of_mem hv
    rw [List.mem_range'] at hmem
    simp only [newProposerSnapshot, prioritizeAll_next]
    omega

end NewSnapshot

theorem ProposerSnapshot.toMap_some {s : ProposerSnapshot K} {a : Address}
    {val : PrioritizedValidator K} (h : s.toMap a = some val) :
    val ∈ s.validators ∧ val.metadata.address = a := by
  refine ⟨List.mem_reverse.mp (List.mem_of_find?_eq_some h), ?_⟩
  simpa using List.find?_some h

theorem Separate.toMap_lt {s : ProposerSnapshot K} {h : Heap} (hs : Separate s.validators h) :
    ∀ a val, s.toMap a = some val → val.proposerPriority < h.next :=
  fun _ _ hv => hs.allocated _ (ProposerSnapshot.toMap_some hv).1

theorem Separate.toMap_inj {s : ProposerSnapshot K} {h : Heap} (hs : Separate s.validators h) :
    ∀ a b x y, s.toMap a = some x → s.toMap b = some y →
      x.proposerPriority = y.proposerPriority → a = b := by
  intro a b x y hx hy hxy
  obtain ⟨hxm, rfl⟩ := ProposerSnapshot.toMap_some hx
  obtain ⟨hym, rfl⟩ := ProposerSnapshot.toMap_some hy
  rw [List.inj_on_of_nodup_map hs.nodup hxm hym hxy]

section NewValidators

variable (m : Address → Option (PrioritizedValidator K))

theorem prioritizeNewValidators_nil (tvp : ℤ) (h : Heap) : prioritizeNewValidators m [] tvp h = ([], h) :=
  rfl

theorem prioritizeNewValidators_cons (v : ValidatorMetadata K) (vs : AccountSet K) (tvp : ℤ)
    (h : Heap) :
    prioritizeNewValidators m (v :: vs) tvp h =
      match m v.address with
      | some val =>
        (⟨v, val.proposerPriority⟩ :: (prioritizeNewValidators m vs tvp h).1,
          (prioritizeNewValidators m vs tvp h).2)
      | none =>
        (⟨v, h.next⟩ :: (prioritizeNewValidators m vs (tvp + tvp / 8) (h.alloc (-(tvp + tvp / 8))).2).1,
          (prioritizeNewValidators m vs (tvp + tvp / 8) (h.alloc (-(tvp + tvp / 8))).2).2) := by
  simp only [prioritizeNewValidators]
  split <;> rfl

theorem prioritizeNewValidators_spec (S : AccountSet K) (tvp : ℤ) (h : Heap)
    (hm : ∀ a val, m a = some val → val.proposerPriority < h.next) :
    let r := prioritizeNewValidators m S tvp h
    r.1.map (·.metadata) = S ∧ h.next ≤ r.2.next ∧
      ∀ v ∈ r.1, v.proposerPriority < r.2.next ∧ (v.proposerPriority < h.next →
        ∃ val, m v.metadata.address = some val ∧ val.proposerPriority = v.proposerPriority) := by
  induction S generalizing tvp h with
  | nil => simp [prioritizeNewValidators_nil]
  | cons v vs ih =>
    rw [prioritizeNewValidators_cons]
    split
    · rename_i val hval
      obtain ⟨hmeta, hnext, hptr⟩ := ih tvp h hm
      refine ⟨by simp [hmeta], hnext, ?_⟩
      simp only [List.mem_cons, forall_eq_or_imp]
      exact ⟨⟨by have := hm _ _ hval; omega, fun _ => ⟨val, hval, rfl⟩⟩, hptr⟩
    · rename_i hnone
      have hm₁ : ∀ a val, m a = some val →
          val.proposerPriority < (h.alloc (-(tvp + tvp / 8))).2.next := by
        intro a val hv
        have := hm a val hv
        simp only [Heap.alloc_next]
        omega
      obtain ⟨hmeta, hnext, hptr⟩ := ih (tvp + tvp / 8) _ hm₁
      simp only [Heap.alloc_next] at hnext
      refine ⟨by simp only [List.map_cons, hmeta], by dsimp only; omega, ?_⟩
      simp only [List.mem_cons, forall_eq_or_imp]
      refine ⟨⟨by omega, fun hlt => absurd hlt (lt_irrefl _)⟩, fun w hw => ?_⟩
      obtain ⟨hlt, hfrom⟩ := hptr w hw
      exact ⟨hlt, fun hw' => hfrom (by simp only [Heap.alloc_next]; omega)⟩

theorem prioritizeNewValidators_cells_of_lt (S : AccountSet K) (tvp : ℤ) (h : Heap) {c : ℕ}
    (hc : c < h.next) : (prioritizeNewValidators m S tvp h).2.cells c = h.cells c := by
  induction S generalizing tvp h with
  | nil => rfl
  | cons v vs ih =>
    rw [prioritizeNewValidators_cons]
    split
    · exact ih tvp h hc
    · rw [ih _ _ (by simp only [Heap.alloc_next]; omega), Heap.alloc_cells, if_neg (by omega)]

theorem prioritizeNewValidators_known (S : AccountSet K) (tvp : ℤ) (h : Heap)
    {v val : PrioritizedValidator K} (hv : v ∈ (prioritizeNewValidators m S tvp h).1)
    (hval : m v.metadata.address = some val) : v.proposerPriority = val.proposerPriority := by
  induction S generalizing tvp h with
  | nil => simp [prioritizeNewValidators_nil] at hv
  | cons w ws ih =>
    rw [prioritizeNewValidators_cons] at hv
    split at hv
    · next val' hval' =>
      rcases List.mem_cons.mp hv with rfl | hv
      · rw [hval] at hval'
        obtain rfl := Option.some.inj hval'
        rfl
      · exact ih tvp h hv
    · next hnone =>
      rcases List.mem_cons.mp hv with rfl | hv
      · rw [hval] at hnone
        cases hnone
      · exact ih _ _ hv

theorem prioritizeNewValidators_penalties (S : AccountSet K) (tvp : ℤ) (h : Heap) :
    ((prioritizeNewValidators m S tvp h).1.filter fun v => (m v.metadata.address).isNone).map
        ((prioritizeNewValidators m S tvp h).2.cells ·.proposerPriority) =
      (List.range (S.countP fun v => (m v.address).isNone)).map
        fun k => -((fun t => t + t / 8)^[k + 1] tvp) := by
  induction S generalizing tvp h with
  | nil => simp [prioritizeNewValidators_nil]
  | cons v vs ih =>
    rw [prioritizeNewValidators_cons]
    split
    · next val hval =>
      simpa [hval] using ih tvp h
    · next hnone =>
      have hcell := prioritizeNewValidators_cells_of_lt m vs (tvp + tvp / 8)
        (h.alloc (-(tvp + tvp / 8))).2 (c := h.next) (by simp)
      simp only [List.filter_cons, hnone, Option.isNone_none, if_true, List.map_cons, hcell,
        Heap.alloc_cells, ih, List.countP_cons, List.range_succ_eq_map, List.map_map]
      simp [Function.comp_def, Function.iterate_succ_apply]

theorem prioritizeNewValidators_nodup (S : AccountSet K) (tvp : ℤ) (h : Heap)
    (hm : ∀ a val, m a = some val → val.proposerPriority < h.next)
    (hinj : ∀ a b x y, m a = some x → m b = some y → x.proposerPriority = y.proposerPriority → a = b)
    (hS : (S.map (·.address)).Nodup) :
    ((prioritizeNewValidators m S tvp h).1.map (·.proposerPriority)).Nodup := by
  induction S generalizing tvp h with
  | nil => simp [prioritizeNewValidators_nil]
  | cons v vs ih =>
    simp only [List.map_cons, List.nodup_cons, List.mem_map] at hS
    rw [prioritizeNewValidators_cons]
    split
    · rename_i val hval
      obtain ⟨hmeta, -, hptr⟩ := prioritizeNewValidators_spec m vs tvp h hm
      refine List.nodup_cons.mpr ⟨?_, ih tvp h hm hS.2⟩
      rintro hmem
      obtain ⟨w, hw, hweq⟩ := List.mem_map.mp hmem
      simp only at hweq
      obtain ⟨val', hval', hpp⟩ := (hptr w hw).2 (hweq ▸ hm _ _ hval)
      have hab := hinj _ _ _ _ hval' hval (hpp.trans hweq)
      apply hS.1
      refine ⟨w.metadata, ?_, hab⟩
      rw [← hmeta]
      exact List.mem_map_of_mem hw
    · rename_i hnone
      have hm₁ : ∀ a val, m a = some val →
          val.proposerPriority < (h.alloc (-(tvp + tvp / 8))).2.next := by
        intro a val hv
        have := hm a val hv
        simp only [Heap.alloc_next]
        omega
      obtain ⟨-, -, hptr⟩ := prioritizeNewValidators_spec m vs (tvp + tvp / 8) _ hm₁
      refine List.nodup_cons.mpr ⟨?_, ih _ _ hm₁ hS.2⟩
      rintro hmem
      obtain ⟨w, hw, hweq⟩ := List.mem_map.mp hmem
      obtain ⟨val', hval', hpp⟩ := (hptr w hw).2 (by simp [hweq])
      have := hm _ _ hval'
      simp only at hweq
      omega

end NewValidators

theorem updateValidators_spec {s : ProposerSnapshot K} {h : Heap} {S : AccountSet K}
    (hs : Separate s.validators h) (hne : S ≠ []) (hpos : ∀ v ∈ S, 0 < v.votingPower)
    (hdistinct : (S.map (·.address)).Nodup) :
    ∃ s' h', updateValidators s S h = .ok (s', h') ∧ s'.validators.map (·.metadata) = S ∧
      Separate s'.validators h' ∧ Centred s' h' ∧ Windowed s' h' s'.getTotalVotingPower := by
  have hlen : S.length ≠ 0 := by simpa using hne
  have hm := hs.toMap_lt
  have hinj := hs.toMap_inj
  set tvp := (S.map (·.votingPower)).sum + removedValidatorsVotingPower s S
  obtain ⟨hmeta, -, hptr⟩ := prioritizeNewValidators_spec s.toMap S tvp h hm
  have hnodup := prioritizeNewValidators_nodup s.toMap S tvp h hm hinj hdistinct
  set r := prioritizeNewValidators s.toMap S tvp h
  set s₁ : ProposerSnapshot K := { s with validators := r.1 }
  have hne₁ : s₁.validators ≠ [] := by
    intro hnil
    apply hne
    rw [← hmeta]
    simp [s₁] at hnil
    simp [hnil]
  have htotal : s₁.getTotalVotingPower = (S.map (·.votingPower)).sum := by
    rw [← hmeta]
    simp [s₁, ProposerSnapshot.getTotalVotingPower, List.map_map, Function.comp_def]
  have hT : 0 < s₁.getTotalVotingPower := by
    rw [htotal]
    exact List.sum_pos _ (by simpa using hpos) (by simpa using hne)
  obtain ⟨h', hup, hnext, hcentred, hwindow⟩ := updateWithChangeSet_spec (s := s₁) (h := r.2) hnodup hne₁ hT
  refine ⟨s₁, h', ?_, hmeta, ⟨hnodup, fun v hv => hnext ▸ (hptr v hv).1⟩, hcentred, hwindow⟩
  simp only [updateValidators, hlen, if_false]
  rw [hup]
  rfl

theorem updateValidators_priorities {s : ProposerSnapshot K} {h : Heap} {S : AccountSet K}
    (hs : Separate s.validators h) (hne : S ≠ []) (hdistinct : (S.map (·.address)).Nodup)
    {s' : ProposerSnapshot K} {h' : Heap} (hup : updateValidators s S h = .ok (s', h')) :
    s'.validators.map (·.metadata) = S ∧ ∃ g : ℤ → ℤ,
      (∀ v ∈ s'.validators, ∀ val, s.toMap v.metadata.address = some val →
        h'.cells v.proposerPriority = g (h.cells val.proposerPriority)) ∧
      (s'.validators.filter fun v => (s.toMap v.metadata.address).isNone).map
          (h'.cells ·.proposerPriority) =
        (List.range (S.countP fun v => (s.toMap v.address).isNone)).map
          fun k => g (-((fun t => t + t / 8)^[k + 1]
            ((S.map (·.votingPower)).sum + removedValidatorsVotingPower s S))) := by
  have hlen : S.length ≠ 0 := by simpa using hne
  set tvp := (S.map (·.votingPower)).sum + removedValidatorsVotingPower s S
  set r := prioritizeNewValidators s.toMap S tvp h with hr
  have hnodup := prioritizeNewValidators_nodup s.toMap S tvp h hs.toMap_lt hs.toMap_inj hdistinct
  simp only [updateValidators, hlen, if_false] at hup
  obtain ⟨h₁, hchange, hpair⟩ := Except.bind_eq_ok_iff.mp hup
  obtain ⟨rfl, rfl⟩ := Prod.mk.inj (Except.ok.inj hpair)
  obtain ⟨g, hg⟩ := updateWithChangeSet_map (s := { s with validators := r.1 }) hnodup
    (Except.mapError_eq_ok.mp hchange)
  have hcell : ∀ v ∈ r.1, h₁.cells v.proposerPriority = g (r.2.cells v.proposerPriority) := by
    simp only [ProposerSnapshot.priorities, List.map_map] at hg
    exact fun v hv => List.map_inj_left.mp hg v hv
  refine ⟨(prioritizeNewValidators_spec s.toMap S tvp h hs.toMap_lt).1, g, ?_, ?_⟩
  · intro v hv val hval
    rw [hcell v hv, prioritizeNewValidators_known s.toMap S tvp h hv hval,
      prioritizeNewValidators_cells_of_lt s.toMap S tvp h (hs.toMap_lt _ _ hval)]
  · have hpen := prioritizeNewValidators_penalties s.toMap S tvp h
    rw [← hr] at hpen
    calc (r.1.filter fun v => (s.toMap v.metadata.address).isNone).map (h₁.cells ·.proposerPriority)
        = ((r.1.filter fun v => (s.toMap v.metadata.address).isNone).map
            (r.2.cells ·.proposerPriority)).map g := by
          rw [List.map_map]
          exact List.map_congr_left fun v hv => hcell v (List.mem_of_mem_filter hv)
      _ = _ := by rw [hpen, List.map_map]; rfl

end PolybftProposerCalculator
