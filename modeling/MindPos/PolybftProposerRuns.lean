import MindPos.PolybftProposerCalculator

/-! # Runs of the proposer calculator

A run starts from `NewProposerSnapshot` and applies `incrementProposerPriorityNTimes` and
`updateValidators` in any order. On validators whose priority pointers do not alias, one call
of `incrementProposerPriority` is a round of smooth weighted round robin over the positions of
the validator set, so the round-robin bounds hold for the proposers it picks. The validator
sets a run may install are a parameter: with distinct addresses no two validators ever share a
priority cell, and the priorities stay centred at every reachable state. -/
namespace PolybftProposerRuns

open EdgeTypes PolybftValidator PointerCells PolybftProposerCalculator WeightedRoundRobin

variable {K : Type}

/-! ## Snapshots as vectors -/

def priorityVector (s : ProposerSnapshot K) (h : Heap) (n : ℕ) : Fin n → ℤ :=
  fun j => (s.priorities h).getD j 0

def weightVector (vals : AccountSet K) : Fin vals.length → ℤ :=
  fun j => (vals.map (·.votingPower)).getD j 0

theorem total_weightVector (vals : AccountSet K) :
    total (weightVector vals) = (vals.map (·.votingPower)).sum :=
  sum_getD_of_length (by simp)

theorem sum_priorityVector {s : ProposerSnapshot K} {h : Heap} {n : ℕ}
    (hn : s.validators.length = n) : ∑ j, priorityVector s h n j = (s.priorities h).sum :=
  sum_getD_of_length (by simp [hn])

theorem weightVector_apply (vals : AccountSet K) (j : Fin vals.length) :
    weightVector vals j = vals[j].votingPower := by
  simp [weightVector]

theorem priorityVector_apply {s : ProposerSnapshot K} {h : Heap} {n : ℕ}
    (hn : s.validators.length = n) (j : Fin n) :
    priorityVector s h n j =
      h.cells (s.validators.get ⟨j, j.isLt.trans_eq hn.symm⟩).proposerPriority := by
  simp [priorityVector, ProposerSnapshot.priorities, List.getElem?_eq_getElem (j.isLt.trans_eq hn.symm)]

/-! ## One increment is one round -/

section Refinement

variable {vals : AccountSet K} {s : ProposerSnapshot K} {h : Heap}

theorem length_eq_of_metadata {vs : List (PrioritizedValidator K)}
    (hv : vs.map (·.metadata) = vals) : vs.length = vals.length := by
  rw [← hv, List.length_map]

theorem metadata_getElem {vs : List (PrioritizedValidator K)} (hv : vs.map (·.metadata) = vals)
    (j : Fin vals.length) :
    (vs.get ⟨j, j.isLt.trans_eq (length_eq_of_metadata hv).symm⟩).metadata = vals[j] := by
  subst hv
  simp

theorem incrementProposerPriority_refines (hv : s.validators.map (·.metadata) = vals)
    (hs : Separate s.validators h) (hne : vals ≠ []) :
    ∃ (m : PrioritizedValidator K) (s' : ProposerSnapshot K) (h' : Heap) (i : Fin vals.length),
      incrementProposerPriority s (vals.map (·.votingPower)).sum h = .ok (m, s', h') ∧
      s'.validators.map (·.metadata) = vals ∧ Separate s'.validators h' ∧
      m.metadata = vals[i] ∧ IsChoice (weightVector vals) (priorityVector s h vals.length) i ∧
      priorityVector s' h' vals.length =
        step (weightVector vals) (priorityVector s h vals.length) i := by
  have hlen : s.validators.length = vals.length := length_eq_of_metadata hv
  have hmeta₀ := addVotingPower_metadata s.validators h
  have hsep₀ := addVotingPower_separate s.validators h
  have hprio := addVotingPower_priorities s.validators h hs.allocated
  rcases hadd : addVotingPower s.validators h with ⟨vs', h₁⟩
  rw [hadd] at hmeta₀ hsep₀ hprio
  dsimp only at hmeta₀ hsep₀ hprio
  have hmeta : vs'.map (·.metadata) = vals := hmeta₀.trans hv
  have hlen' : vs'.length = vals.length := length_eq_of_metadata hmeta
  have hsep : Separate vs' h₁ := hsep₀
  obtain ⟨m, hm, hmem, hmax⟩ := getValWithMostPriority_spec (s := { s with validators := vs' }) h₁
    (by intro hnil; apply hne; rw [← hmeta]; simp only at hnil; simp [hnil])
  obtain ⟨i, hi, rfl⟩ := List.mem_iff_getElem.mp hmem
  simp only at hi hmax
  let i' : Fin vals.length := ⟨i, hi.trans_eq hlen'⟩
  have hnew : ∀ j : Fin vals.length,
      h₁.cells (vs'.get ⟨j, j.isLt.trans_eq hlen'.symm⟩).proposerPriority =
      priorityVector s h vals.length j + weightVector vals j := by
    intro j
    have := List.getElem_of_eq hprio (by simpa using j.isLt.trans_eq hlen'.symm)
    simp only [List.getElem_map] at this
    rw [List.get_eq_getElem, this, priorityVector_apply hlen, weightVector_apply, ← metadata_getElem hv j]
    rfl
  have hiff : ∀ j : Fin vals.length,
      (vs'.get ⟨j, j.isLt.trans_eq hlen'.symm⟩).proposerPriority = vs'[i].proposerPriority ↔
        j = i' := by
    intro j
    have hnd : vs'.Nodup := List.Nodup.of_map _ hsep.nodup
    constructor
    · intro heq
      have hvj := List.inj_on_of_nodup_map hsep.nodup (List.getElem_mem _) (List.getElem_mem _) heq
      exact Fin.ext (hnd.getElem_inj_iff.mp hvj)
    · rintro rfl
      rfl
  refine ⟨vs'[i], { s with validators := vs' },
    h₁.set vs'[i].proposerPriority (h₁.cells vs'[i].proposerPriority - (vals.map (·.votingPower)).sum),
    i', ?_, hmeta,
    ⟨hsep.nodup, fun v hv => by simpa using hsep.allocated v hv⟩,
    metadata_getElem hmeta i', ?_, ?_⟩
  · simp only [incrementProposerPriority, hadd]
    rw [hm]
    rfl
  · intro j
    rw [← hnew j, ← hnew i']
    exact hmax _ (List.getElem_mem _)
  · funext j
    rw [priorityVector_apply (by simpa using hlen'), step, ← hnew j, total_weightVector]
    simp only [Heap.set_cells]
    by_cases hj : j = i'
    · simp only [hj, if_true, (hiff i').mpr rfl]
    · simp only [hj, if_false, mt (hiff j).mp hj, sub_zero]

theorem incrementProposerPriorityLoop_refines (hv : s.validators.map (·.metadata) = vals)
    (hs : Separate s.validators h) (hne : vals ≠ []) (k : ℕ) :
    ∃ (proposers : List (PrioritizedValidator K)) (s' : ProposerSnapshot K) (h' : Heap)
      (is : List (Fin vals.length)),
      incrementProposerPriorityLoop (vals.map (·.votingPower)).sum k s h = .ok (proposers, s', h') ∧
      s'.validators.map (·.metadata) = vals ∧ Separate s'.validators h' ∧
      proposers.map (·.metadata) = is.map (vals[·]) ∧ is.length = k ∧
      ValidRun (weightVector vals) (priorityVector s h vals.length) is ∧
      priorityVector s' h' vals.length = run (weightVector vals) (priorityVector s h vals.length) is := by
  induction k generalizing s h with
  | zero => exact ⟨[], s, h, [], rfl, hv, hs, rfl, rfl, trivial, rfl⟩
  | succ k ih =>
    obtain ⟨m, s₁, h₁, i, hinc, hv₁, hs₁, hm, hchoice, hstep⟩ :=
      incrementProposerPriority_refines hv hs hne
    obtain ⟨proposers, s', h', is, hloop, hv', hs', hprop, hlen, hvalid, hrun⟩ := ih hv₁ hs₁
    refine ⟨m :: proposers, s', h', i :: is, ?_, hv', hs', ?_, by simp [hlen],
      ⟨hchoice, hstep ▸ hvalid⟩, by rw [hrun, hstep, run_cons]⟩
    · simp [incrementProposerPriorityLoop, hinc, hloop]
    · simp [hprop, hm]

end Refinement

/-! ## Runs -/

/-- Validator sets as `updatePerBlock` installs them: not empty, with positive voting powers. -/
def ValidSet (S : AccountSet K) : Prop := S ≠ [] ∧ ∀ v ∈ S, 0 < v.votingPower

def DistinctValidSet (S : AccountSet K) : Prop := ValidSet S ∧ (S.map (·.address)).Nodup

instance (S : AccountSet K) : Decidable (ValidSet S) :=
  inferInstanceAs (Decidable (_ ∧ _))

instance (S : AccountSet K) : Decidable (DistinctValidSet S) :=
  inferInstanceAs (Decidable (_ ∧ _))

inductive Event (K : Type) where
  | incrementNTimes (times : UInt64)
  | update (newValidatorSet : AccountSet K)

/-- A call that succeeds; `admits` says which validator sets a call may install. -/
inductive Step (admits : AccountSet K → Prop) :
    ProposerSnapshot K × Heap → Event K → ProposerSnapshot K × Heap → Prop where
  | incrementNTimes {s h times proposer s' h'} :
    incrementProposerPriorityNTimes s times h = .ok (proposer, s', h') →
      Step admits (s, h) (.incrementNTimes times) (s', h')
  | update {s h S s' h'} : admits S → updateValidators s S h = .ok (s', h') →
      Step admits (s, h) (.update S) (s', h')

inductive Execution (admits : AccountSet K → Prop) :
    ProposerSnapshot K × Heap → ProposerSnapshot K × Heap → Prop where
  | nil (st) : Execution admits st st
  | cons {st st' st'' e} : Step admits st e st' → Execution admits st' st'' →
      Execution admits st st''

def Reachable (admits : AccountSet K → Prop) (st : ProposerSnapshot K × Heap) : Prop :=
  ∃ height vals h, admits vals ∧ Execution admits (newProposerSnapshot height vals h) st

/-- What holds at every state of a run that installs distinct addresses only. -/
structure Invariant (s : ProposerSnapshot K) (h : Heap) : Prop where
  separate : Separate s.validators h
  nonempty : s.validators ≠ []
  positive : ∀ v ∈ s.validators, 0 < v.metadata.votingPower
  centred : Centred s h

theorem getTotalVotingPower_pos {s : ProposerSnapshot K} {h : Heap} (hinv : Invariant s h) :
    0 < s.getTotalVotingPower :=
  List.sum_pos _ (by simpa using hinv.positive) (by simpa using hinv.nonempty)

theorem invariant_init (height : UInt64) {vals : AccountSet K} (hvals : ValidSet vals) (h : Heap) :
    Invariant (newProposerSnapshot height vals h).1 (newProposerSnapshot height vals h).2 := by
  obtain ⟨hmeta, hsep, hprio⟩ := newProposerSnapshot_spec vals h height
  have hlen : (newProposerSnapshot height vals h).1.validators.length = vals.length :=
    length_eq_of_metadata hmeta
  refine ⟨hsep, fun hnil => hvals.1 (by rw [← hmeta, hnil, List.map_nil]), fun v hv => ?_, ?_⟩
  · exact hvals.2 _ (hmeta ▸ List.mem_map_of_mem hv)
  · unfold Centred
    rw [hprio, hlen]
    have hpos : 0 < vals.length := List.length_pos_of_ne_nil hvals.1
    have hzero : (vals.map fun _ => (0 : ℤ)).sum = 0 := by simp
    rw [hzero]
    omega

theorem invariant_incrementNTimes {s s' : ProposerSnapshot K} {h h' : Heap} {times : UInt64}
    {proposer : Option (PrioritizedValidator K)} (hinv : Invariant s h)
    (hrun : incrementProposerPriorityNTimes s times h = .ok (proposer, s', h')) :
    Invariant s' h' := by
  have hlen : s.validators.length ≠ 0 := by simpa using hinv.nonempty
  unfold incrementProposerPriorityNTimes at hrun
  rw [if_neg hlen] at hrun
  split_ifs at hrun with htimes
  obtain ⟨h₁, hup, hnext, hcentred, -⟩ :=
    updateWithChangeSet_spec (h := h) hinv.separate.nodup hinv.nonempty (getTotalVotingPower_pos hinv)
  have hsep₁ : Separate s.validators h₁ := ⟨hinv.separate.nodup, fun v hv => hnext ▸ hinv.separate.allocated v hv⟩
  have hne : s.validators.map (·.metadata) ≠ [] := by simpa using hinv.nonempty
  obtain ⟨proposers, s₂, h₂, is, hloop, hv₂, hs₂, -, -, -, hrun₂⟩ :=
    incrementProposerPriorityLoop_refines rfl hsep₁ hne times.toNat
  have htvp : s.getTotalVotingPower = ((s.validators.map (·.metadata)).map (·.votingPower)).sum := by
    simp [ProposerSnapshot.getTotalVotingPower, List.map_map, Function.comp_def]
  rw [← htvp] at hloop
  simp only [hup, hloop, Except.ok_bind_eq, Except.pure_eq_ok, Except.ok.injEq,
    Prod.mk.injEq] at hrun
  obtain ⟨-, rfl, rfl⟩ := hrun
  have hlen₂ : s₂.validators.length = (s.validators.map (·.metadata)).length :=
    length_eq_of_metadata hv₂
  have hsum : (s₂.priorities h₂).sum = (s.priorities h₁).sum := by
    rw [← sum_priorityVector hlen₂, hrun₂, sum_run, sum_priorityVector (by simp)]
  have hmeta : ∀ v ∈ s₂.validators, ∃ u ∈ s.validators, u.metadata = v.metadata := by
    intro v hv
    have : v.metadata ∈ s.validators.map (·.metadata) := hv₂ ▸ List.mem_map_of_mem hv
    simpa using this
  refine ⟨hs₂, fun hnil => hne (by rw [← hv₂]; simp only at hnil; simp [hnil]), fun v hv => ?_, ?_⟩
  · obtain ⟨u, hu, hmeta⟩ := hmeta v hv
    exact hmeta ▸ hinv.positive u hu
  · have hlt : (s₂.priorities h₂).sum < s₂.validators.length := by
      rw [hsum, hlen₂, List.length_map]
      exact hcentred.2
    exact ⟨hsum ▸ hcentred.1, hlt⟩

theorem invariant_update {s s' : ProposerSnapshot K} {h h' : Heap} {S : AccountSet K}
    (hinv : Invariant s h) (hS : DistinctValidSet S)
    (hup : updateValidators s S h = .ok (s', h')) : Invariant s' h' := by
  obtain ⟨s₁, h₁, hup₁, hmeta, hsep, hcentred, -⟩ :=
    updateValidators_spec hinv.separate hS.1.1 hS.1.2 hS.2
  rw [hup₁, Except.ok.injEq, Prod.mk.injEq] at hup
  obtain ⟨rfl, rfl⟩ := hup
  refine ⟨hsep, fun hnil => hS.1.1 (by rw [← hmeta, hnil, List.map_nil]), fun v hv => ?_, hcentred⟩
  exact hS.1.2 _ (hmeta ▸ List.mem_map_of_mem hv)

theorem step_preserves_invariant {st st' : ProposerSnapshot K × Heap} {e : Event K}
    (hstep : Step DistinctValidSet st e st') (hinv : Invariant st.1 st.2) : Invariant st'.1 st'.2 := by
  cases hstep with
  | incrementNTimes hrun => exact invariant_incrementNTimes hinv hrun
  | update hS hup => exact invariant_update hinv hS hup

theorem execution_preserves_invariant {st st' : ProposerSnapshot K × Heap}
    (hexec : Execution DistinctValidSet st st') (hinv : Invariant st.1 st.2) :
    Invariant st'.1 st'.2 := by
  induction hexec with
  | nil => exact hinv
  | cons hstep _ ih => exact ih (step_preserves_invariant hstep hinv)

theorem reachable_invariant {s : ProposerSnapshot K} {h : Heap}
    (hr : Reachable DistinctValidSet (s, h)) : Invariant s h := by
  obtain ⟨height, vals, h₀, hvals, hexec⟩ := hr
  exact execution_preserves_invariant hexec (invariant_init height hvals.1 h₀)

theorem invariant_updatePerBlock {s s' : ProposerSnapshot K} {h h' : Heap} {blockNumber : UInt64}
    {delta : Option (ValidatorSetDelta K)} {blockRound : UInt64}
    {getValidators : Except String (AccountSet K)} (hinv : Invariant s h)
    (hget : ∀ S, getValidators = .ok S → DistinctValidSet S)
    (hup : updatePerBlock s h blockNumber delta blockRound getValidators = .ok (s', h')) :
    Invariant s' h' := by
  unfold updatePerBlock at hup
  split at hup
  · cases hup
  simp only [Except.bind_eq_ok_iff, Except.mapError_eq_ok, Except.pure_eq_ok] at hup
  obtain ⟨S, hS, ⟨proposer, s₁, h₁⟩, hrun, ⟨s₂, h₂⟩, hupd, hfinal⟩ := hup
  simp only [Except.ok.injEq, Prod.mk.injEq] at hfinal
  obtain ⟨rfl, rfl⟩ := hfinal
  have hinv₁ := invariant_incrementNTimes hinv hrun
  have hnone : S = [] → s₂ = s₁ ∧ h₂ = h₁ := by
    rintro rfl
    simp only [updateValidators, List.length_nil, if_true, Except.ok.injEq, Prod.mk.injEq] at hupd
    exact ⟨hupd.1.symm, hupd.2.symm⟩
  have hinv₂ : Invariant s₂ h₂ := by
    unfold blockValidatorSet at hS
    split at hS
    · split at hS
      · exact invariant_update hinv₁ (hget S (Except.mapError_eq_ok.mp hS)) hupd
      · obtain ⟨rfl, rfl⟩ := hnone (Except.ok.inj hS).symm
        exact hinv₁
    · obtain ⟨rfl, rfl⟩ := hnone (Except.ok.inj hS).symm
      exact hinv₁
  exact ⟨hinv₂.separate, hinv₂.nonempty, hinv₂.positive, hinv₂.centred⟩

/-! ## Concrete validator sets

The validator sets the witnesses below run on. -/

def sampleValidator (b : UInt8) (votingPower : ℤ) : ValidatorMetadata Unit :=
  ⟨bytesToAddress [b], none, votingPower, true⟩

def emptyHeap : Heap := ⟨fun _ => 0, 0⟩

/-- At every state of a run that installs sets of distinct addresses, the priorities sum to a
number in `[0, n)`, so that their floored mean is zero; and the next `updateWithChangeSet`,
the prelude of `incrementProposerPriorityNTimes` or the end of `updateValidators`, leaves no
two priorities more than twice the total it is given apart. -/
theorem proposer_priorities_centred_in_runs {s : ProposerSnapshot K} {h : Heap}
    (hr : Reachable DistinctValidSet (s, h)) :
    (0 ≤ (s.priorities h).sum ∧ (s.priorities h).sum < s.validators.length) ∧
    computeAvgProposerPriority s h = .ok 0 ∧
    (∀ h', updateWithChangeSet s s.getTotalVotingPower h = .ok h' →
      Windowed s h' s.getTotalVotingPower) ∧
    (∀ S s' h', DistinctValidSet S → updateValidators s S h = .ok (s', h') →
      Windowed s' h' s'.getTotalVotingPower) := by
  have hinv := reachable_invariant hr
  refine ⟨hinv.centred, ?_, ?_, ?_⟩
  · have hlen : s.validators.length ≠ 0 := by simpa using hinv.nonempty
    simp [computeAvgProposerPriority, hlen, Int.ediv_eq_zero_of_lt hinv.centred.1 hinv.centred.2]
  · intro h' hup
    obtain ⟨h₁, hup₁, -, -, hwin⟩ := updateWithChangeSet_spec (h := h) hinv.separate.nodup
      hinv.nonempty (getTotalVotingPower_pos hinv)
    rw [hup₁, Except.ok.injEq] at hup
    exact hup ▸ hwin
  · intro S s' h' hS hup
    obtain ⟨s₁, h₁, hup₁, -, -, -, hwin⟩ := updateValidators_spec hinv.separate hS.1.1 hS.1.2 hS.2
    rw [hup₁, Except.ok.injEq, Prod.mk.injEq] at hup
    obtain ⟨rfl, rfl⟩ := hup
    exact hwin

/-- Two rounds over voting powers `1` and `2` reach a state whose priorities are centred. -/
theorem proposer_priorities_centred_after_two_rounds :
    ∃ (s : ProposerSnapshot Unit) (h : Heap), Reachable DistinctValidSet (s, h) ∧ s.round = 1 ∧
      (0 ≤ (s.priorities h).sum ∧ (s.priorities h).sum < s.validators.length) ∧
      computeAvgProposerPriority s h = .ok 0 := by
  obtain ⟨s, h, hr, hround⟩ : ∃ (s : ProposerSnapshot Unit) (h : Heap),
      Reachable DistinctValidSet (s, h) ∧ s.round = 1 :=
    ⟨_, _, ⟨1, [sampleValidator 1 1, sampleValidator 2 2], emptyHeap, by decide,
      .cons (@Step.incrementNTimes Unit DistinctValidSet _ _ 2 _ _ _ rfl) (.nil _)⟩, rfl⟩
  have hthm := proposer_priorities_centred_in_runs hr
  exact ⟨s, h, hr, hround, hthm.1, hthm.2.1⟩

/-- Installing a set that lists an address twice makes both entries share the validator's
priority cell, which the centring then shifts twice: from `[1, 1]` at equal weights, after one
round, the set `[B, B]` leaves priorities summing to `-2`. -/
theorem proposer_priorities_not_centred_with_repeated_address :
    ∃ (s : ProposerSnapshot Unit) (h : Heap), Reachable ValidSet (s, h) ∧ (s.priorities h).sum < 0 := by
  refine ⟨_, _, ⟨1, [sampleValidator 1 1, sampleValidator 2 1], emptyHeap, by decide,
    .cons (@Step.incrementNTimes Unit ValidSet _ _ 1 _ _ _ rfl)
      (.cons (.update (S := [sampleValidator 2 1, sampleValidator 2 1]) (by decide) rfl) (.nil _))⟩,
    by decide⟩

/-! ## Ties -/

theorem getValWithMostPriority_reachable {s : ProposerSnapshot K} {h : Heap}
    (hr : Reachable DistinctValidSet (s, h)) :
    (getValWithMostPriority s h).toOption = s.validators.argmax (h.cells ·.proposerPriority) :=
  getValWithMostPriority_eq_argmax h (reachable_invariant hr).separate.nodup

theorem proposer_tie_broken_by_list_order :
    (∃ (s : ProposerSnapshot Unit) (h : Heap), Reachable DistinctValidSet (s, h) ∧
      s.priorities h = [0, 0] ∧
      s.validators.map (·.metadata.address) = [bytesToAddress [2], bytesToAddress [1]] ∧
      (getValWithMostPriority s h).map (·.metadata.address) = .ok (bytesToAddress [2])) ∧
    ∃ (s : ProposerSnapshot Unit) (h : Heap), Reachable DistinctValidSet (s, h) ∧
      s.priorities h = [0, 0] ∧
      s.validators.map (·.metadata.address) = [bytesToAddress [1], bytesToAddress [2]] ∧
      (getValWithMostPriority s h).map (·.metadata.address) = .ok (bytesToAddress [1]) :=
  ⟨⟨_, _, ⟨0, [sampleValidator 2 1, sampleValidator 1 1], emptyHeap, by decide, .nil _⟩,
      by decide, by decide, by decide⟩,
    ⟨_, _, ⟨0, [sampleValidator 1 1, sampleValidator 2 1], emptyHeap, by decide, .nil _⟩,
      by decide, by decide, by decide⟩⟩

/-! ## Validators added together -/

/-- Adding two validators of voting power 8 next to one: the total `24` gets an eighth added for
each, so they start from `-27` and `-30`, and the centring on the mean `-19` keeps them apart. -/
theorem validators_added_together_get_unequal_priorities :
    ∃ (s : ProposerSnapshot Unit) (h : Heap), Reachable DistinctValidSet (s, h) ∧
      s.validators.map (·.metadata) = [sampleValidator 1 8] ∧
      ∃ s' h', updateValidators s [sampleValidator 1 8, sampleValidator 2 8, sampleValidator 3 8] h =
          .ok (s', h') ∧ s'.priorities h' = [19, -8, -11] :=
  ⟨_, _, ⟨0, [sampleValidator 1 8], emptyHeap, by decide, .nil _⟩, by decide, _, _, rfl, by decide⟩

/-! ## Fairness of the proposer choice -/

def votingPowerGcd (vals : AccountSet K) : ℕ := (vals.map (·.votingPower.natAbs)).foldr Nat.gcd 0

theorem votingPowerGcd_dvd {vals : AccountSet K} {v : ValidatorMetadata K} (hv : v ∈ vals) :
    (votingPowerGcd vals : ℤ) ∣ v.votingPower := by
  rw [Int.natCast_dvd]
  induction vals with
  | nil => cases hv
  | cons u vals ih =>
    simp only [votingPowerGcd, List.map_cons, List.foldr_cons] at ih ⊢
    rcases List.mem_cons.mp hv with rfl | hv
    · exact Nat.gcd_dvd_left _ _
    · exact (Nat.gcd_dvd_right _ _).trans (ih hv)

theorem total_dvd_of_gcd {vals : AccountSet K} {m : ℤ}
    (hm : ((vals.map (·.votingPower)).sum / votingPowerGcd vals) ∣ m) {v : ValidatorMetadata K}
    (hv : v ∈ vals) : (vals.map (·.votingPower)).sum ∣ m * v.votingPower := by
  have hg : (votingPowerGcd vals : ℤ) ∣ (vals.map (·.votingPower)).sum :=
    List.dvd_sum fun x hx => by
      obtain ⟨u, hu, rfl⟩ := List.mem_map.mp hx
      exact votingPowerGcd_dvd hu
  obtain ⟨c, hc⟩ := hm
  obtain ⟨d, hd⟩ := votingPowerGcd_dvd hv
  refine ⟨c * d, ?_⟩
  rw [hc, hd]
  have hcancel := Int.ediv_mul_cancel hg
  calc (vals.map (·.votingPower)).sum / votingPowerGcd vals * c * (votingPowerGcd vals * d)
      = (vals.map (·.votingPower)).sum / votingPowerGcd vals * votingPowerGcd vals * (c * d) := by
        ring
    _ = (vals.map (·.votingPower)).sum * (c * d) := by rw [hcancel]

theorem weightVector_pos {vals : AccountSet K} (hvals : ValidSet vals) (j : Fin vals.length) :
    0 < weightVector vals j := by
  rw [weightVector_apply]
  exact hvals.2 _ (List.getElem_mem _)

theorem priorityVector_eq_zero {s : ProposerSnapshot K} {h : Heap} {n : ℕ}
    (hn : s.validators.length = n) :
    priorityVector s h n = 0 ↔ ∀ p ∈ s.priorities h, p = 0 := by
  constructor
  · intro hz p hp
    obtain ⟨k, hk, rfl⟩ := List.mem_iff_getElem.mp hp
    have := congrFun hz ⟨k, by simpa [hn] using hk⟩
    simpa [priorityVector, List.getElem?_eq_getElem hk] using this
  · intro hz
    funext j
    have hj : (j : ℕ) < (s.priorities h).length := by simp [hn]
    simp only [priorityVector, Pi.zero_apply, List.getD_eq_getElem?_getD,
      List.getElem?_eq_getElem hj, Option.getD_some]
    exact hz _ (List.getElem_mem hj)

theorem count_proposer_address {vals : AccountSet K} (hnodup : (vals.map (·.address)).Nodup)
    {proposers : List (PrioritizedValidator K)} {is : List (Fin vals.length)}
    (hprop : proposers.map (·.metadata) = is.map (vals[·])) (j : Fin vals.length) :
    (proposers.map (·.metadata.address)).count (vals.get j).address = is.count j := by
  have haddr : proposers.map (·.metadata.address) = is.map fun i => vals[i].address := by
    have := congrArg (List.map (·.address)) hprop
    simpa [List.map_map, Function.comp_def] using this
  have hinj : Function.Injective fun i : Fin vals.length => vals[i].address := by
    intro a b hab
    have ha : (a : ℕ) < (vals.map (·.address)).length := by simp
    have hb : (b : ℕ) < (vals.map (·.address)).length := by simp
    have hab' : (vals.map (·.address))[(a : ℕ)] = (vals.map (·.address))[(b : ℕ)] := by
      simpa using hab
    exact Fin.ext (hnodup.getElem_inj_iff.mp hab')
  rw [haddr]
  exact List.count_map_of_injective _ _ hinj j

/-- Smooth weighted round robin from `NewProposerSnapshot`: the prelude of
`incrementProposerPriorityNTimes` changes nothing, and `m` calls of
`incrementProposerPriority` choose each validator at most `⌈m · VP / T⌉` times, exactly
`m · VP / T` times and with every priority back to zero when `T / gcd` divides `m`. -/
theorem proposer_selection_fair (height : UInt64) {vals : AccountSet K}
    (hvals : DistinctValidSet vals) {h h₀ : Heap} {s : ProposerSnapshot K}
    (hnew : newProposerSnapshot height vals h = (s, h₀)) (m : ℕ) :
    updateWithChangeSet s s.getTotalVotingPower h₀ = .ok h₀ ∧
    ∃ (proposers : List (PrioritizedValidator K)) (s' : ProposerSnapshot K) (h' : Heap),
      incrementProposerPriorityLoop s.getTotalVotingPower m s h₀ = .ok (proposers, s', h') ∧
      (0 < m → m < 2 ^ 64 → incrementProposerPriorityNTimes s (UInt64.ofNat m) h₀ =
        .ok (proposers.getLast?,
          { s' with proposer := proposers.getLast?, round := UInt64.ofNat m - 1 }, h')) ∧
      (∀ v ∈ vals, ((proposers.map (·.metadata.address)).count v.address : ℤ) ≤
        bigIntDivCeil (m * v.votingPower) s.getTotalVotingPower) ∧
      ((s.getTotalVotingPower / votingPowerGcd vals) ∣ (m : ℤ) →
        (∀ v ∈ vals, s.getTotalVotingPower * (proposers.map (·.metadata.address)).count v.address =
          m * v.votingPower) ∧
        ∀ p ∈ s'.priorities h', p = 0) := by
  obtain ⟨hmeta, hsep, hprio⟩ := newProposerSnapshot_spec vals h height
  rw [hnew] at hmeta hsep hprio
  dsimp only at hmeta hsep hprio
  have hlen : s.validators.length = vals.length := length_eq_of_metadata hmeta
  have hne : vals ≠ [] := hvals.1.1
  have htvp : s.getTotalVotingPower = (vals.map (·.votingPower)).sum := by
    simp [ProposerSnapshot.getTotalVotingPower, ← hmeta, List.map_map, Function.comp_def]
  have hzero : ∀ p ∈ s.priorities h₀, p = 0 := by
    intro p hp
    rw [hprio] at hp
    obtain ⟨_, -, rfl⟩ := List.mem_map.mp hp
    rfl
  have hprelude : updateWithChangeSet s s.getTotalVotingPower h₀ = .ok h₀ := by
    have hsum : (s.priorities h₀).sum = 0 := by rw [hprio]; simp
    refine updateWithChangeSet_of_centred (fun hnil => hne (by rw [← hmeta, hnil, List.map_nil]))
      ?_ ?_ ?_
    · rw [htvp]
      exact List.sum_nonneg fun x hx => by
        obtain ⟨v, hv, rfl⟩ := List.mem_map.mp hx
        exact (hvals.1.2 v hv).le
    · unfold Centred
      rw [hsum, hlen]
      exact ⟨le_refl _, by simpa using List.length_pos_of_ne_nil hne⟩
    · intro x hx y hy
      rw [hzero x hx, hzero y hy, sub_zero]
      unfold priorityWindowSizeFactor
      rw [htvp]
      have := List.sum_nonneg fun x (hx : x ∈ vals.map (·.votingPower)) => by
        obtain ⟨v, hv, rfl⟩ := List.mem_map.mp hx
        exact (hvals.1.2 v hv).le
      omega
  obtain ⟨proposers, s', h', is, hloop, hv', -, hprop, hlenis, hvalid, hrun⟩ :=
    incrementProposerPriorityLoop_refines hmeta hsep hne m
  have hstart : priorityVector s h₀ vals.length = 0 := (priorityVector_eq_zero hlen).mpr hzero
  rw [hstart] at hvalid hrun
  rw [← htvp] at hloop
  have hw := weightVector_pos hvals.1
  refine ⟨hprelude, proposers, s', h', hloop, ?_, ?_, ?_⟩
  · intro hm hm64
    have hto : (UInt64.ofNat m).toNat = m := by
      rw [UInt64.toNat_ofNat', Nat.mod_eq_of_lt hm64]
    have hne64 : UInt64.ofNat m ≠ 0 := by
      intro h0
      rw [h0] at hto
      simp at hto
      omega
    have hlen0 : s.validators.length ≠ 0 := by rw [hlen]; simpa using hne
    simp [incrementProposerPriorityNTimes, hlen0, hne64, hprelude, hto, hloop]
  · intro v hv
    obtain ⟨j, hj, rfl⟩ := List.mem_iff_getElem.mp hv
    have hbound := count_le_ceil hw hvalid ⟨j, hj⟩
    have hcount := count_proposer_address hvals.2 hprop ⟨j, hj⟩
    simp only [List.get_eq_getElem] at hcount
    rw [hcount, htvp, bigIntDivCeil, ← total_weightVector]
    rw [hlenis, weightVector_apply] at hbound
    exact hbound
  · intro hdvd
    have hdvd' : ∀ j, total (weightVector vals) ∣ is.length * weightVector vals j := by
      intro j
      rw [total_weightVector, hlenis, weightVector_apply]
      rw [htvp] at hdvd
      exact total_dvd_of_gcd hdvd (List.getElem_mem _)
    refine ⟨fun v hv => ?_, ?_⟩
    · obtain ⟨j, hj, rfl⟩ := List.mem_iff_getElem.mp hv
      have hexact := count_eq_of_dvd hw hvalid hdvd' ⟨j, hj⟩
      have hcount := count_proposer_address hvals.2 hprop ⟨j, hj⟩
      simp only [List.get_eq_getElem] at hcount
      rw [hcount, htvp, ← total_weightVector]
      rw [hlenis, weightVector_apply] at hexact
      exact hexact
    · have hfinal : priorityVector s' h' vals.length = 0 := by
        rw [hrun]
        funext j
        exact run_eq_zero_of_dvd hw hvalid hdvd' j
      exact (priorityVector_eq_zero (length_eq_of_metadata hv')).mp hfinal


def sampleSet : AccountSet Unit := [sampleValidator 1 1, sampleValidator 2 2]

/-- Three rounds over voting powers `1` and `2`: the total `3` divides `3`, so the second
validator proposes exactly twice and every priority is back to zero. -/
theorem proposer_selection_fair_over_three_rounds :
    ∃ (proposers : List (PrioritizedValidator Unit)) (s' : ProposerSnapshot Unit) (h' : Heap),
      incrementProposerPriorityLoop 3 3 (newProposerSnapshot 1 sampleSet emptyHeap).1
          (newProposerSnapshot 1 sampleSet emptyHeap).2 = .ok (proposers, s', h') ∧
        (proposers.map (·.metadata.address)).count (sampleValidator 2 2).address = 2 ∧
        ∀ p ∈ s'.priorities h', p = 0 := by
  obtain ⟨s, h₀, hnew⟩ : ∃ s h₀, newProposerSnapshot 1 sampleSet emptyHeap = (s, h₀) :=
    ⟨_, _, rfl⟩
  have hT : s.getTotalVotingPower = 3 := by
    have hs : s = (newProposerSnapshot 1 sampleSet emptyHeap).1 := by rw [hnew]
    rw [hs]
    decide
  obtain ⟨-, proposers, s', h', hloop, -, -, hexact⟩ :=
    proposer_selection_fair 1 (by decide : DistinctValidSet sampleSet) hnew 3
  rw [hT] at hloop hexact
  obtain ⟨hcount, hzero⟩ := hexact (by decide)
  have h2 := hcount (sampleValidator 2 2) (by decide)
  have hvp : (sampleValidator 2 2).votingPower = 2 := rfl
  rw [hvp] at h2
  refine ⟨proposers, s', h', by rw [hnew]; exact hloop, ?_, hzero⟩
  push_cast at h2
  omega

end PolybftProposerRuns
