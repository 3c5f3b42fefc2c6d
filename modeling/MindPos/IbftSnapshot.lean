import MindPos.EdgeTypes

/-! # IBFT validators, votes and snapshots

The `validators` package and the snapshot of `validators/store/snapshot`. A validator is an
ECDSA address or a BLS address with its public key; `Equal` compares every field, while a set
finds its members by address. `processVote` casts the vote a header carries and changes the set
once more than half of the set has voted for the candidate: the tally goes by `Equal`, the set
change by address. -/
namespace IbftSnapshot

open RlpEncoding EdgeTypes

inductive ValidatorType
  | ecdsa
  | bls
  deriving DecidableEq, Repr

inductive Validator
  | ecdsa (address : Address)
  | bls (address : Address) (blsPublicKey : List UInt8)
  deriving DecidableEq

def Validator.type : Validator → ValidatorType
  | .ecdsa _ => .ecdsa
  | .bls _ _ => .bls

def Validator.addr : Validator → Address
  | .ecdsa address => address
  | .bls address _ => address

/-- `ECDSAValidator.Equal` and `BLSValidator.Equal`: a validator of the other type never is. -/
def Validator.equal : Validator → Validator → Bool
  | .ecdsa a, .ecdsa b => a == b
  | .bls a k, .bls b k' => a == b && k == k'
  | _, _ => false

@[simp] theorem Validator.equal_eq (v w : Validator) : v.equal w = decide (v = w) := by
  cases v <;> cases w <;> rw [Bool.eq_iff_iff] <;> simp [Validator.equal]

/-- `validators.Set`. -/
structure Validators where
  validatorType : ValidatorType
  validators : List Validator
  deriving DecidableEq

def Validators.len (s : Validators) : ℕ := s.validators.length

def Validators.index (s : Validators) (addr : Address) : Option ℕ :=
  s.validators.findIdx? (·.addr = addr)

def Validators.includes (s : Validators) (addr : Address) : Bool := (s.index addr).isSome

def Validators.add (s : Validators) (val : Validator) : Except String Validators :=
  if s.validatorType ≠ val.type then .error "mismatch between validator and validators"
  else if s.includes val.addr then .error "validator already exists in validators"
  else .ok { s with validators := s.validators ++ [val] }

def Validators.del (s : Validators) (val : Validator) : Except String Validators :=
  if s.validatorType ≠ val.type then .error "mismatch between validator and validators"
  else
    match s.index val.addr with
    | none => .error "validator not found in validators"
    | some index => .ok { s with validators := s.validators.eraseIdx index }

def Validators.equal (s ss : Validators) : Bool :=
  s.validatorType == ss.validatorType && s.len == ss.len &&
    (s.validators.zip ss.validators).all fun (v, w) => v.equal w

/-- `store.Vote`: `validator` is the voter. -/
structure Vote where
  validator : Address
  candidate : Validator
  authorize : Bool
  deriving DecidableEq

def Vote.equal (v vv : Vote) : Bool :=
  v.validator == vv.validator && v.candidate.equal vv.candidate && v.authorize == vv.authorize

structure Snapshot where
  number : UInt64
  hash : Hash
  votes : List Vote
  set : Validators
  deriving DecidableEq

/-- `Snapshot.Equal` looks at the votes and the set only: number and hash index the snapshot. -/
def Snapshot.equal (s ss : Snapshot) : Bool :=
  s.votes.length == ss.votes.length &&
    (s.votes.zip ss.votes).all (fun (v, w) => v.equal w) && s.set.equal ss.set

def Snapshot.count (s : Snapshot) (h : Vote → Bool) : ℕ := s.votes.countP h

def Snapshot.addVote (s : Snapshot) (voter : Address) (candidate : Validator) (authorize : Bool) :
    Snapshot :=
  { s with votes := s.votes ++ [⟨voter, candidate, authorize⟩] }

def Snapshot.countByVoterAndCandidate (s : Snapshot) (voter : Address) (candidate : Validator) : ℕ :=
  s.count fun v => v.validator == voter && v.candidate.equal candidate

def Snapshot.countByCandidate (s : Snapshot) (candidate : Validator) : ℕ :=
  s.count fun v => v.candidate.equal candidate

def Snapshot.removeVotes (s : Snapshot) (shouldRemoveFn : Vote → Bool) : Snapshot :=
  { s with votes := s.votes.filter fun v => !shouldRemoveFn v }

def Snapshot.removeVotesByVoter (s : Snapshot) (address : Address) : Snapshot :=
  s.removeVotes fun v => v.validator == address

def Snapshot.removeVotesByCandidate (s : Snapshot) (candidate : Validator) : Snapshot :=
  s.removeVotes fun v => v.candidate.equal candidate

def nonceAuthVote : List UInt8 := List.replicate 8 0xff

def nonceDropVote : List UInt8 := List.replicate 8 0x00

def isAuthorize (nonce : List UInt8) : Except String Bool :=
  if nonce = nonceAuthVote then .ok true
  else if nonce = nonceDropVote then .ok false
  else .error "incorrect vote nonce"

def shouldProcessVote (validators : Validators) (candidate : Address) (voteAction : Bool) : Bool :=
  voteAction != validators.includes candidate

def addsOrDelsCandidate (validators : Validators) (candidate : Validator) (updateAction : Bool) :
    Except String Validators :=
  if updateAction then validators.add candidate else validators.del candidate

/-- `BLSValidator.SetFromBytes`: the RLP list of address and public key. -/
def blsValidatorFromBytes (input : List UInt8) : Except String Validator := do
  let v ← parse input
  let elems ← v.getElems
  match elems with
  | addressV :: blsPublicKeyV :: _ =>
    let address ← (Value.getAddr addressV).mapError ("failed to decode Address: " ++ ·)
    let blsPublicKey ← blsPublicKeyV.getBytes.mapError ("failed to decode BLSPublicKey: " ++ ·)
    pure (.bls address blsPublicKey)
  | _ => .error ("incorrect number of elements to decode BLSValidator, expected 2 but found " ++
      toString elems.length)

def minerToValidator (validatorType : ValidatorType) (miner : List UInt8) :
    Except String Validator :=
  match validatorType with
  | .ecdsa => .ok (.ecdsa (bytesToAddress miner))
  | .bls => blsValidatorFromBytes miner

/-- `validatorToMiner`: an ECDSA candidate is its address, a BLS one its RLP bytes. -/
def validatorToMiner : Validator → List UInt8
  | .ecdsa address => address.bytes
  | .bls address blsPublicKey => encode (.array [.bytes address.bytes, .bytes blsPublicKey])

theorem minerToValidator_validatorToMiner (v : Validator) :
    minerToValidator v.type (validatorToMiner v) = .ok v := by
  cases v with
  | ecdsa address => simp [minerToValidator, validatorToMiner, Validator.type]
  | bls address blsPublicKey =>
    simp [minerToValidator, validatorToMiner, Validator.type, blsValidatorFromBytes, parse_encode,
      Value.getElems, Value.getAddr, Value.getBytes, address.length_eq, Except.mapError]

def applyTally (snapshot : Snapshot) (candidate : Validator) (authorize : Bool) :
    Except String Snapshot := do
  if snapshot.countByCandidate candidate > snapshot.set.len / 2 then
    let set ← addsOrDelsCandidate snapshot.set candidate authorize
    let snapshot := { snapshot with set := set }
    let snapshot := if !authorize then snapshot.removeVotesByVoter candidate.addr else snapshot
    return snapshot.removeVotesByCandidate candidate
  return snapshot

def castVote (snapshot : Snapshot) (proposer : Address) (candidate : Validator)
    (authorize : Bool) : Except String Snapshot :=
  let voteCount := snapshot.countByVoterAndCandidate proposer candidate
  if voteCount > 1 then .error "more than one proposal per validator per address found"
  else
    applyTally (if voteCount = 0 then snapshot.addVote proposer candidate authorize else snapshot)
      candidate authorize

def processVote (snapshot : Snapshot) (header : Header) (candidateType : ValidatorType)
    (proposer : Address) : Except String Snapshot := do
  let authorize ← isAuthorize header.nonce
  let candidate ← minerToValidator candidateType header.miner
  if !shouldProcessVote snapshot.set candidate.addr authorize then return snapshot
  castVote snapshot proposer candidate authorize

/-! ## Votes of current validators, one per voter and candidate -/

theorem Validators.includes_iff (s : Validators) (a : Address) :
    s.includes a = true ↔ ∃ v ∈ s.validators, v.addr = a := by
  simp [Validators.includes, Validators.index, List.findIdx?_isSome]

theorem Validators.includes_of_add {s s' : Validators} {val : Validator} (h : s.add val = .ok s')
    {a : Address} (ha : s.includes a = true) : s'.includes a = true := by
  unfold Validators.add at h
  split_ifs at h
  cases h
  obtain ⟨v, hv, rfl⟩ := (s.includes_iff a).mp ha
  exact (Validators.includes_iff _ _).mpr ⟨v, List.mem_append_left _ hv, rfl⟩

theorem Validators.includes_of_del {s s' : Validators} {val : Validator} (h : s.del val = .ok s')
    {a : Address} (hne : a ≠ val.addr) (ha : s.includes a = true) : s'.includes a = true := by
  unfold Validators.del at h
  split_ifs at h
  split at h
  · cases h
  · rename_i index hindex
    cases h
    obtain ⟨v, hv, rfl⟩ := (s.includes_iff _).mp ha
    obtain ⟨j, hj, rfl⟩ := List.mem_iff_getElem.mp hv
    obtain ⟨hlt, hat, -⟩ := List.findIdx?_eq_some_iff_getElem.mp hindex
    have hji : j ≠ index := by
      rintro rfl
      exact hne (by simpa using hat)
    exact (Validators.includes_iff _ _).mpr
      ⟨_, List.mem_eraseIdx_iff_getElem.mpr ⟨j, hj, hji, rfl⟩, rfl⟩

structure VotesWellFormed (s : Snapshot) : Prop where
  voter_in_set : ∀ v ∈ s.votes, s.set.includes v.validator = true
  one_vote : ∀ voter candidate, s.countByVoterAndCandidate voter candidate ≤ 1

theorem VotesWellFormed.of_sublist {s s' : Snapshot} (hwf : VotesWellFormed s)
    (hsub : s'.votes.Sublist s.votes) (hset : ∀ v ∈ s'.votes, s'.set.includes v.validator = true) :
    VotesWellFormed s' :=
  ⟨hset, fun voter candidate => (hsub.countP_le).trans (hwf.one_vote voter candidate)⟩

theorem VotesWellFormed.addVote {s : Snapshot} (hwf : VotesWellFormed s) {voter : Address}
    (hvoter : s.set.includes voter = true) {candidate : Validator}
    (hnew : s.countByVoterAndCandidate voter candidate = 0) (authorize : Bool) :
    VotesWellFormed (s.addVote voter candidate authorize) := by
  constructor
  · intro v hv
    rcases List.mem_append.mp hv with hv | hv
    · exact hwf.voter_in_set v hv
    · rw [List.mem_singleton.mp hv]
      exact hvoter
  · intro voter' candidate'
    have hold := hwf.one_vote voter' candidate'
    simp only [Snapshot.countByVoterAndCandidate, Snapshot.count, Snapshot.addVote,
      List.countP_append, List.countP_singleton] at hold hnew ⊢
    by_cases hsame : voter = voter' ∧ candidate = candidate'
    · obtain ⟨rfl, rfl⟩ := hsame
      rw [hnew]
      simp
    · rw [if_neg (by simpa using hsame)]
      exact hold

theorem applyTally_wellFormed {s s' : Snapshot} (hwf : VotesWellFormed s) {candidate : Validator}
    {authorize : Bool} (h : applyTally s candidate authorize = .ok s') : VotesWellFormed s' := by
  unfold applyTally at h
  split_ifs at h with htally hdrop
  · obtain ⟨set, hset, h⟩ := Except.bind_eq_ok_iff.mp h
    obtain rfl := Except.ok.inj h
    dsimp only [Snapshot.removeVotesByCandidate, Snapshot.removeVotesByVoter, Snapshot.removeVotes]
    refine hwf.of_sublist (List.filter_sublist.trans List.filter_sublist) fun v hv => ?_
    have hv' := List.mem_of_mem_filter hv
    have hne : v.validator ≠ candidate.addr := by simpa using (List.mem_filter.mp hv').2
    obtain rfl : authorize = false := by simpa using hdrop
    exact Validators.includes_of_del hset hne (hwf.voter_in_set v (List.mem_of_mem_filter hv'))
  · obtain ⟨set, hset, h⟩ := Except.bind_eq_ok_iff.mp h
    obtain rfl := Except.ok.inj h
    dsimp only [Snapshot.removeVotesByCandidate, Snapshot.removeVotes]
    refine hwf.of_sublist List.filter_sublist fun v hv => ?_
    obtain rfl : authorize = true := by simpa using hdrop
    exact Validators.includes_of_add hset (hwf.voter_in_set v (List.mem_of_mem_filter hv))
  · obtain rfl := Except.ok.inj h
    exact hwf

theorem castVote_wellFormed {s s' : Snapshot} (hwf : VotesWellFormed s) {proposer : Address}
    (hproposer : s.set.includes proposer = true) {candidate : Validator} {authorize : Bool}
    (h : castVote s proposer candidate authorize = .ok s') : VotesWellFormed s' := by
  unfold castVote at h
  dsimp only at h
  split_ifs at h with hmany hzero
  · exact applyTally_wellFormed (hwf.addVote hproposer hzero authorize) h
  · exact applyTally_wellFormed hwf h

theorem processVote_wellFormed {snap snap' : Snapshot} (hwf : VotesWellFormed snap)
    {header : Header} {candidateType : ValidatorType} {proposer : Address}
    (hproposer : snap.set.includes proposer = true)
    (h : processVote snap header candidateType proposer = .ok snap') : VotesWellFormed snap' := by
  obtain ⟨authorize, -, h⟩ := Except.bind_eq_ok_iff.mp h
  obtain ⟨candidate, -, h⟩ := Except.bind_eq_ok_iff.mp h
  split_ifs at h
  · obtain rfl := Except.ok.inj h
    exact hwf
  · exact castVote_wellFormed hwf hproposer h

end IbftSnapshot
