import MindPos.TypesRlp

/-! # Reading a backup back

`archive/restore.go` `blockStream` reads the RLP lists of a backup file one at a time: a prefix
byte, for a long list the bytes of its length, then the payload, all into one buffer that
`reserveCap` grows or re-slices. `archive/backup.go` writes a backup as the `Metadata` followed by
the blocks. The file is read as a regular file reads: each `Read` fills as much of its slice as
the file has left. -/
namespace Archive

open RlpEncoding EdgeTypes

def errEOF : String := "EOF"

def errExpectedArray : String := "expected array but got bytes"

def sliceOutOfRange {α : Type} : ExceptT String Option α := ExceptT.mk none

/-- `archive.Metadata`. -/
structure Metadata where
  latest : UInt64
  latestHash : Hash
  deriving DecidableEq

def Metadata.marshalRLPWith (m : Metadata) : Value :=
  .array [newUint m.latest, newBytes m.latestHash.bytes]

def Metadata.marshalRLP (m : Metadata) : List UInt8 := encode m.marshalRLPWith

def Metadata.unmarshalRLPFrom (v : Value) : Except String Metadata := do
  let elems ← v.getElems
  match elems with
  | e0 :: e1 :: _ =>
    let latest ← e0.getUint64
    let latestHash ← e1.getHash
    pure ⟨latest, latestHash⟩
  | _ => throw ("incorrect number of elements to decode Metadata, expected 2 but found " ++
      toString elems.length)

def Metadata.unmarshalRLP (input : List UInt8) : Except String Metadata := do
  let v ← parse input
  Metadata.unmarshalRLPFrom v

/-- `Read` of a regular file with the bytes `rest` left, into a slice of length `n`: the first
`min n rest.length` bytes, and `io.EOF` when nothing is left for a non-empty slice. -/
def readFile (rest : List UInt8) (n : ℕ) : Except String (List UInt8 × List UInt8) :=
  if n = 0 then .ok ([], rest)
  else if rest = [] then .error errEOF
  else .ok (rest.take n, rest.drop n)

def writeAt (buffer : List UInt8) (offset : ℕ) (bytes : List UInt8) : List UInt8 :=
  buffer.take offset ++ bytes ++ buffer.drop (offset + bytes.length)

/-- `blockStream`: the bytes of the file not read yet, and the array under `buffer`, whose length
is the buffer's capacity. -/
structure BlockStream where
  input : List UInt8
  buffer : List UInt8

def newBlockStream (input : List UInt8) : BlockStream := ⟨input, List.replicate 1024 0⟩

theorem length_buffer_newBlockStream (input : List UInt8) :
    (newBlockStream input).buffer.length = 1024 :=
  List.length_replicate ..

/-- `b.input.Read(b.buffer[lo:hi])`: the number of bytes read, which land in the array from
`lo`. -/
def BlockStream.readInto (b : BlockStream) (lo hi : ℕ) : ExceptT String Option (ℕ × BlockStream) :=
  if lo ≤ hi ∧ hi ≤ b.buffer.length then do
    let (bytes, rest) ← (readFile b.input (hi - lo) : Except String _)
    pure (bytes.length, ⟨rest, writeAt b.buffer lo bytes⟩)
  else sliceOutOfRange

/-- `reserveCap`: `append` grows the array to `size`; otherwise the buffer is re-sliced within
it. From `2^63` on, `int64(size)` is negative, and the re-slice or the `make` of the wrapped
difference panics. -/
def BlockStream.reserveCap (b : BlockStream) (size : UInt64) : ExceptT String Option BlockStream :=
  if size.toNat < 2 ^ 63 ∧ b.buffer.length < size.toNat then
    pure ⟨b.input, b.buffer ++ List.replicate (size.toNat - b.buffer.length) 0⟩
  else if size.toNat ≤ b.buffer.length then pure b
  else sliceOutOfRange

def BlockStream.loadRLPPrefix (b : BlockStream) : ExceptT String Option (UInt8 × BlockStream) := do
  let (_, b) ← b.readInto 0 1
  pure (b.buffer.getD 0 0, b)

/-- `loadPrefixSize`: the header size and the payload size of a list. -/
def BlockStream.loadPrefixSize (b : BlockStream) (offset : UInt64) (lead : UInt8) :
    ExceptT String Option (UInt64 × UInt64 × BlockStream) :=
  if 0xc0 ≤ lead ∧ lead ≤ 0xf7 then pure (1, (lead - 0xc0).toUInt64, b)
  else if 0xf8 ≤ lead then do
    let payloadSizeSize := (lead - 0xf7).toUInt64
    let b ← b.reserveCap (offset + payloadSizeSize)
    let (n, b) ← b.readInto offset.toNat (offset + payloadSizeSize).toNat
    if n < payloadSizeSize.toNat then throw errEOF
    else
      -- `big.Int.Int64` keeps the low 64 bits, which `uint64` reads back
      let payloadSizeBytes := (b.buffer.drop offset.toNat).take payloadSizeSize.toNat
      pure (payloadSizeSize + 1, UInt64.ofNat (ofBE payloadSizeBytes), b)
  else throw errExpectedArray

def BlockStream.loadPayload (b : BlockStream) (offset size : UInt64) :
    ExceptT String Option BlockStream := do
  let b ← b.reserveCap (offset + size)
  let (_, b) ← b.readInto offset.toNat (offset + size).toNat
  pure b

/-- `loadRLPArray`: the size of the list loaded at the front of the buffer, zero at the end of
the file. -/
def BlockStream.loadRLPArray (b : BlockStream) : ExceptT String Option (UInt64 × BlockStream) := do
  let loaded ← tryCatch (some <$> b.loadRLPPrefix) fun e =>
    if e = errEOF then pure none else throw e
  match loaded with
  | none => pure (0, b)
  | some (lead, b) =>
    let (headerSize, payloadSize, b) ← b.loadPrefixSize 1 lead
    let b ← b.loadPayload headerSize payloadSize
    pure (headerSize + payloadSize, b)

def BlockStream.parseMetadata (b : BlockStream) (size : UInt64) : ExceptT String Option Metadata :=
  if size.toNat ≤ b.buffer.length then
    (Metadata.unmarshalRLP (b.buffer.take size.toNat) : Except String _)
  else sliceOutOfRange

def BlockStream.parseBlock (headerHash : Header → Hash) (b : BlockStream) (size : UInt64) :
    ExceptT String Option Block :=
  if size.toNat ≤ b.buffer.length then Block.unmarshalRLP headerHash (b.buffer.take size.toNat)
  else sliceOutOfRange

def BlockStream.getMetadata (b : BlockStream) :
    ExceptT String Option (Option Metadata × BlockStream) := do
  let (size, b) ← b.loadRLPArray
  if size = 0 then pure (none, b)
  else
    let m ← b.parseMetadata size
    pure (some m, b)

def BlockStream.nextBlock (headerHash : Header → Hash) (b : BlockStream) :
    ExceptT String Option (Option Block × BlockStream) := do
  let (size, b) ← b.loadRLPArray
  if size = 0 then pure (none, b)
  else
    let block ← b.parseBlock headerHash size
    pure (some block, b)

/-! ## One list through the stream -/

theorem readFile_append (bytes rest : List UInt8) :
    readFile (bytes ++ rest) bytes.length = .ok (bytes, rest) := by
  cases bytes with
  | nil => rfl
  | cons x xs => simp [readFile]

theorem prefix_writeAt {data buffer : List UInt8} (bytes : List UInt8) (hdata : data <+: buffer) :
    data ++ bytes <+: writeAt buffer data.length bytes := by
  rw [writeAt, ← List.prefix_iff_eq_take.mp hdata]
  exact List.prefix_append _ _

theorem take_drop_writeAt {buffer : List UInt8} {offset : ℕ} (bytes : List UInt8)
    (h : offset ≤ buffer.length) :
    ((writeAt buffer offset bytes).drop offset).take bytes.length = bytes := by
  have htake : (buffer.take offset).length = offset := by simp [h]
  rw [writeAt, List.append_assoc, List.drop_append_of_le_length (by omega),
    List.drop_of_length_le (by omega), List.nil_append, List.take_left']
  rfl

section Stream

variable {b : BlockStream}

theorem readInto_append (lo : ℕ) {bytes rest : List UInt8} (hin : b.input = bytes ++ rest)
    (hcap : lo + bytes.length ≤ b.buffer.length) :
    b.readInto lo (lo + bytes.length) = pure (bytes.length, ⟨rest, writeAt b.buffer lo bytes⟩) := by
  rw [BlockStream.readInto, if_pos ⟨by omega, hcap⟩, hin, Nat.add_sub_cancel_left,
    readFile_append, lift_ok_bind]

theorem reserveCap_of_lt {size : UInt64} (h : size.toNat < 2 ^ 63) :
    ∃ buffer, b.reserveCap size = pure ⟨b.input, buffer⟩ ∧ b.buffer <+: buffer ∧
      size.toNat ≤ buffer.length := by
  unfold BlockStream.reserveCap
  split_ifs with hgrow hfit
  · refine ⟨_, rfl, List.prefix_append _ _, ?_⟩
    simp only [List.length_append, List.length_replicate]
    omega
  · exact ⟨b.buffer, rfl, List.prefix_refl _, hfit⟩
  · omega

theorem loadRLPPrefix_cons {x : UInt8} {rest : List UInt8} (hin : b.input = x :: rest)
    (hcap : 1 ≤ b.buffer.length) :
    b.loadRLPPrefix = pure (x, ⟨rest, writeAt b.buffer 0 [x]⟩) := by
  have hread := readInto_append 0 (show b.input = [x] ++ rest from hin) (by simpa using hcap)
  rw [BlockStream.loadRLPPrefix, Nat.zero_add, List.length_singleton] at *
  rw [hread, pure_bind]
  simp [writeAt]

theorem loadRLPPrefix_nil (hin : b.input = []) (hcap : 1 ≤ b.buffer.length) :
    b.loadRLPPrefix = throw errEOF := by
  simp [BlockStream.loadRLPPrefix, BlockStream.readInto, hcap, hin, readFile]

theorem loadPrefixSize_short {L : ℕ} (hL : L < 56) :
    b.loadPrefixSize 1 (UInt8.ofNat (192 + L)) = pure (1, UInt64.ofNat L, b) := by
  have hlead := UInt8.toNat_ofNat_of_lt' (show 192 + L < 256 by omega)
  have hshort : 0xc0 ≤ UInt8.ofNat (192 + L) ∧ UInt8.ofNat (192 + L) ≤ 0xf7 := by
    simp only [UInt8.le_iff_toNat_le, hlead, UInt8.reduceToNat]
    omega
  have hsize : (UInt8.ofNat (192 + L) - 0xc0).toUInt64 = UInt64.ofNat L := by
    have hL64 : (UInt64.ofNat L).toNat = L := UInt64.toNat_ofNat_of_lt' (hL.trans (by decide))
    apply UInt64.toNat_inj.mp
    rw [UInt8.toNat_toUInt64, UInt8.toNat_sub_of_le _ _ hshort.1, hlead, hL64]
    simp
  rw [BlockStream.loadPrefixSize, if_pos hshort, hsize]

theorem loadPrefixSize_long {data rest : List UInt8} {L : ℕ} (hL : 56 ≤ L)
    (hk : (toBE L).length ≤ 8) (hin : b.input = toBE L ++ rest) (hdata : data <+: b.buffer)
    (hone : data.length = 1) :
    ∃ buffer, b.loadPrefixSize 1 (UInt8.ofNat (192 + 55 + (toBE L).length)) =
        pure (UInt64.ofNat ((toBE L).length + 1), UInt64.ofNat L, ⟨rest, buffer⟩) ∧
      data ++ toBE L <+: buffer := by
  have hk1 : 1 ≤ (toBE L).length := List.length_pos_iff.mpr (toBE_ne_nil (by omega))
  have hlead := UInt8.toNat_ofNat_of_lt' (show 192 + 55 + (toBE L).length < 256 by omega)
  have hnshort : ¬ (0xc0 ≤ UInt8.ofNat (192 + 55 + (toBE L).length) ∧
      UInt8.ofNat (192 + 55 + (toBE L).length) ≤ 0xf7) := by
    simp only [UInt8.le_iff_toNat_le, hlead, UInt8.reduceToNat]
    omega
  have hlong : 0xf8 ≤ UInt8.ofNat (192 + 55 + (toBE L).length) := by
    simp only [UInt8.le_iff_toNat_le, hlead, UInt8.reduceToNat]
    omega
  have hsub : 0xf7 ≤ UInt8.ofNat (192 + 55 + (toBE L).length) := by
    simp only [UInt8.le_iff_toNat_le, hlead, UInt8.reduceToNat]
    omega
  have hsizeSize : ((UInt8.ofNat (192 + 55 + (toBE L).length) - 0xf7).toUInt64).toNat =
      (toBE L).length := by
    rw [UInt8.toNat_toUInt64, UInt8.toNat_sub_of_le _ _ hsub, hlead]
    simp
  have hend : (1 + (UInt8.ofNat (192 + 55 + (toBE L).length) - 0xf7).toUInt64).toNat =
      1 + (toBE L).length := by
    rw [UInt64.toNat_add, hsizeSize]
    simp only [UInt64.reduceToNat]
    omega
  obtain ⟨buffer, hres, hpre, hcap⟩ := reserveCap_of_lt (b := b) (by rw [hend]; omega)
  have hread := readInto_append (b := ⟨b.input, buffer⟩) 1 hin (by rw [hend] at hcap; exact hcap)
  refine ⟨_, ?_, hone ▸ prefix_writeAt (toBE L) (hdata.trans hpre)⟩
  rw [BlockStream.loadPrefixSize, if_neg hnshort, if_pos hlong]
  have hsz : (UInt8.ofNat (192 + 55 + (toBE L).length) - 0xf7).toUInt64 =
      UInt64.ofNat (toBE L).length := by
    apply UInt64.toNat_inj.mp
    rw [hsizeSize, UInt64.toNat_ofNat_of_lt' (lt_of_le_of_lt hk (by decide))]
  simp only [hres, pure_bind, hend, UInt64.reduceToNat, hread, hsizeSize, Nat.lt_irrefl, if_false]
  rw [take_drop_writeAt _ (by omega), ofBE_toBE, hsz, UInt64.ofNat_add]
  rfl

theorem loadPayload_append {data payload rest : List UInt8} (offset size : UInt64)
    (hin : b.input = payload ++ rest) (hdata : data <+: b.buffer)
    (hoff : offset.toNat = data.length) (hsize : size.toNat = payload.length)
    (hlen : data.length + payload.length < 2 ^ 63) :
    ∃ buffer, b.loadPayload offset size = pure ⟨rest, buffer⟩ ∧ data ++ payload <+: buffer := by
  have hend : (offset + size).toNat = data.length + payload.length := by
    rw [UInt64.toNat_add, hoff, hsize]
    exact Nat.mod_eq_of_lt (by omega)
  obtain ⟨buffer, hres, hpre, hcap⟩ := reserveCap_of_lt (b := b) (by rw [hend]; exact hlen)
  have hread := readInto_append (b := ⟨b.input, buffer⟩) data.length hin
    (by rw [hend] at hcap; exact hcap)
  refine ⟨_, ?_, prefix_writeAt payload (hdata.trans hpre)⟩
  rw [BlockStream.loadPayload, hres, pure_bind, hoff, hend, hread, pure_bind]

theorem loadRLPArray_of_loadRLPPrefix {lead : UInt8} {b' : BlockStream}
    (h : b.loadRLPPrefix = pure (lead, b')) :
    b.loadRLPArray = (do
      let (headerSize, payloadSize, b) ← b'.loadPrefixSize 1 lead
      let b ← b.loadPayload headerSize payloadSize
      pure (headerSize + payloadSize, b)) := by
  rw [BlockStream.loadRLPArray, h]
  rfl

theorem loadRLPArray_of_input_nil (hin : b.input = []) (hcap : 1 ≤ b.buffer.length) :
    b.loadRLPArray = pure (0, b) := by
  rw [BlockStream.loadRLPArray, loadRLPPrefix_nil hin hcap]
  rfl

theorem loadRLPArray_short {payload rest : List UInt8} (hL : payload.length < 56)
    (hin : b.input = UInt8.ofNat (192 + payload.length) :: (payload ++ rest))
    (hcap : 1 ≤ b.buffer.length) :
    ∃ buffer, b.loadRLPArray = pure (1 + UInt64.ofNat payload.length, ⟨rest, buffer⟩) ∧
      UInt8.ofNat (192 + payload.length) :: payload <+: buffer := by
  obtain ⟨buffer, hload, hpre⟩ := loadPayload_append
    (b := ⟨payload ++ rest, writeAt b.buffer 0 [UInt8.ofNat (192 + payload.length)]⟩)
    1 (UInt64.ofNat payload.length) rfl (prefix_writeAt _ List.nil_prefix) rfl
    (UInt64.toNat_ofNat_of_lt' (by simp only [UInt64.size]; omega)) (by simp; omega)
  refine ⟨buffer, ?_, hpre⟩
  rw [loadRLPArray_of_loadRLPPrefix (loadRLPPrefix_cons hin hcap), loadPrefixSize_short hL,
    pure_bind]
  dsimp only
  rw [hload, pure_bind]

theorem loadRLPArray_long {payload rest : List UInt8} (hL : 56 ≤ payload.length)
    (hk : (toBE payload.length).length ≤ 8)
    (hin : b.input = UInt8.ofNat (192 + 55 + (toBE payload.length).length) ::
      (toBE payload.length ++ payload ++ rest))
    (hcap : 1 ≤ b.buffer.length) (hlen : 1 + (toBE payload.length).length + payload.length < 2 ^ 63) :
    ∃ buffer, b.loadRLPArray = pure (UInt64.ofNat ((toBE payload.length).length + 1) +
        UInt64.ofNat payload.length, ⟨rest, buffer⟩) ∧
      UInt8.ofNat (192 + 55 + (toBE payload.length).length) :: (toBE payload.length ++ payload) <+:
        buffer := by
  obtain ⟨buffer₁, hsize, hpre₁⟩ := loadPrefixSize_long
    (b := ⟨toBE payload.length ++ (payload ++ rest),
      writeAt b.buffer 0 [UInt8.ofNat (192 + 55 + (toBE payload.length).length)]⟩)
    hL hk rfl (prefix_writeAt _ List.nil_prefix) rfl
  obtain ⟨buffer, hload, hpre⟩ := loadPayload_append
    (b := ⟨payload ++ rest, buffer₁⟩) (UInt64.ofNat ((toBE payload.length).length + 1))
    (UInt64.ofNat payload.length) rfl hpre₁
    (by rw [UInt64.toNat_ofNat_of_lt' (by simp only [UInt64.size]; omega)]; simp [Nat.add_comm])
    (UInt64.toNat_ofNat_of_lt' (by simp only [UInt64.size]; omega)) (by simp; omega)
  refine ⟨buffer, ?_, by simpa using hpre⟩
  rw [loadRLPArray_of_loadRLPPrefix (loadRLPPrefix_cons (by rw [hin, List.append_assoc]) hcap),
    hsize, pure_bind]
  dsimp only
  rw [hload, pure_bind]

theorem loadRLPArray_encode {vs : List Value} {rest : List UInt8}
    (hin : b.input = encode (.array vs) ++ rest) (hcap : 1 ≤ b.buffer.length)
    (hlen : (encode (.array vs)).length < 2 ^ 63) :
    ∃ buffer, b.loadRLPArray = pure (UInt64.ofNat (encode (.array vs)).length, ⟨rest, buffer⟩) ∧
      encode (.array vs) <+: buffer := by
  have henc : encode (.array vs) = encodeLength 192 (encodeList vs).length ++ encodeList vs := by
    rw [encode]
  rw [henc] at hin hlen ⊢
  have hL : (encodeList vs).length < 2 ^ 63 := by
    rw [List.length_append] at hlen
    omega
  by_cases hshort : (encodeList vs).length < 56
  · rw [encodeLength, if_pos hshort] at hin hlen ⊢
    obtain ⟨buffer, hload, hpre⟩ := loadRLPArray_short hshort (by rw [hin]; rfl) hcap
    refine ⟨buffer, ?_, hpre⟩
    rw [hload]
    simp [UInt64.ofNat_add, Nat.add_comm]
  · have hk : (toBE (encodeList vs).length).length ≤ 8 :=
      toBE_length_le (lt_of_lt_of_le hL (by decide))
    rw [encodeLength, if_neg hshort, if_pos hk] at hin hlen ⊢
    obtain ⟨buffer, hload, hpre⟩ := @loadRLPArray_long b (encodeList vs) rest (by omega) hk
      (by rw [hin]; simp) hcap (by simp at hlen; omega)
    refine ⟨buffer, ?_, by simpa using hpre⟩
    rw [hload]
    simp only [List.length_cons, List.length_append, UInt64.ofNat_add]

end Stream

theorem Metadata.unmarshalRLP_marshalRLP (m : Metadata) :
    Metadata.unmarshalRLP m.marshalRLP = .ok m := by
  simp [Metadata.unmarshalRLP, Metadata.marshalRLP, Metadata.marshalRLPWith, parse_encode,
    Metadata.unmarshalRLPFrom, newBytes]

/-! ## A backup file through the stream -/

section Read

variable {b : BlockStream} (headerHash : Header → Hash)

theorem loadRLPArray_encode_parse {vs : List Value} {rest : List UInt8}
    (hin : b.input = encode (.array vs) ++ rest) (hcap : 1 ≤ b.buffer.length)
    (hlen : (encode (.array vs)).length < 2 ^ 63) :
    ∃ buffer, 1 ≤ buffer.length ∧
      b.loadRLPArray = pure (UInt64.ofNat (encode (.array vs)).length, ⟨rest, buffer⟩) ∧
      UInt64.ofNat (encode (.array vs)).length ≠ 0 ∧
      (UInt64.ofNat (encode (.array vs)).length).toNat ≤ buffer.length ∧
      buffer.take (UInt64.ofNat (encode (.array vs)).length).toNat = encode (.array vs) := by
  obtain ⟨buffer, hload, hpre⟩ := loadRLPArray_encode hin hcap hlen
  have hsize : (UInt64.ofNat (encode (.array vs)).length).toNat = (encode (.array vs)).length :=
    UInt64.toNat_ofNat_of_lt' (by simp only [UInt64.size]; omega)
  have hpos := encode_length_pos (.array vs)
  refine ⟨buffer, by have := hpre.length_le; omega, hload, ?_, by rw [hsize]; exact hpre.length_le,
    by rw [hsize]; exact (List.prefix_iff_eq_take.mp hpre).symm⟩
  intro h0
  rw [h0] at hsize
  simp at hsize
  omega

theorem getMetadata_marshalRLP {m : Metadata} {rest : List UInt8}
    (hin : b.input = m.marshalRLP ++ rest) (hcap : 1 ≤ b.buffer.length)
    (hlen : m.marshalRLP.length < 2 ^ 63) :
    ∃ buffer, 1 ≤ buffer.length ∧ b.getMetadata = pure (some m, ⟨rest, buffer⟩) := by
  obtain ⟨buffer, hcap', hload, hne, hle, htake⟩ := loadRLPArray_encode_parse hin hcap hlen
  refine ⟨buffer, hcap', ?_⟩
  rw [BlockStream.getMetadata, hload, pure_bind]
  simp only [hne, if_false, BlockStream.parseMetadata, if_pos hle, htake]
  have hm := Metadata.unmarshalRLP_marshalRLP m
  rw [Metadata.marshalRLP, Metadata.marshalRLPWith] at hm
  rw [hm]
  rfl

theorem nextBlock_marshalRLP {block : Block} {rest : List UInt8}
    (hin : b.input = block.marshalRLP ++ rest) (hcap : 1 ≤ b.buffer.length)
    (hlen : block.marshalRLP.length < 2 ^ 63) :
    ∃ buffer, 1 ≤ buffer.length ∧ b.nextBlock headerHash =
      (fun block => (some block, ⟨rest, buffer⟩)) <$> Block.unmarshalRLP headerHash block.marshalRLP := by
  rw [Block.marshalRLP, Block.marshalRLPWith_eq] at hin hlen ⊢
  obtain ⟨buffer, hcap', hload, hne, hle, htake⟩ := loadRLPArray_encode_parse hin hcap hlen
  refine ⟨buffer, hcap', ?_⟩
  rw [BlockStream.nextBlock, hload, pure_bind]
  simp only [hne, if_false, BlockStream.parseBlock, if_pos hle, htake, bind_pure_comp]

theorem nextBlock_of_input_nil (hin : b.input = []) (hcap : 1 ≤ b.buffer.length) :
    b.nextBlock headerHash = pure (none, b) := by
  rw [BlockStream.nextBlock, loadRLPArray_of_input_nil hin hcap, pure_bind]
  rfl

theorem nextBlock_flatMap_marshalRLP (blocks : List Block) {buffer : List UInt8}
    (hcap : 1 ≤ buffer.length) (hlen : (blocks.flatMap Block.marshalRLP).length < 2 ^ 63) :
    ∃ buffers : ℕ → List UInt8, buffers 0 = buffer ∧
      (∀ i (hi : i < blocks.length),
        BlockStream.nextBlock headerHash ⟨(blocks.drop i).flatMap Block.marshalRLP, buffers i⟩ =
          (fun block => (some block,
            ⟨(blocks.drop (i + 1)).flatMap Block.marshalRLP, buffers (i + 1)⟩)) <$>
            Block.unmarshalRLP headerHash blocks[i].marshalRLP) ∧
      BlockStream.nextBlock headerHash ⟨[], buffers blocks.length⟩ =
        pure (none, ⟨[], buffers blocks.length⟩) := by
  induction blocks generalizing buffer with
  | nil =>
    exact ⟨fun _ => buffer, rfl, fun i hi => absurd hi (Nat.not_lt_zero i),
      nextBlock_of_input_nil headerHash rfl hcap⟩
  | cons block blocks ih =>
    rw [List.flatMap_cons, List.length_append] at hlen
    obtain ⟨buffer₁, hcap₁, hstep⟩ :=
      nextBlock_marshalRLP headerHash
        (b := ⟨block.marshalRLP ++ blocks.flatMap Block.marshalRLP, buffer⟩) rfl hcap (by omega)
    obtain ⟨buffers, h0, hsteps, hend⟩ := ih hcap₁ (by omega)
    refine ⟨Stream'.cons buffer buffers, rfl, ?_, hend⟩
    intro i hi
    cases i with
    | zero =>
      dsimp only [Stream'.cons]
      rw [h0]
      simpa using hstep
    | succ i => exact hsteps i (by simpa using hi)

/-- A backup file, the metadata followed by the blocks, reads back through `newBlockStream`: the
metadata, then each block as its encoding parses, then the end of the file. The file is shorter
than `2^63` bytes, as a file's `int64` offsets make it. -/
theorem archive_stream_round_trip (m : Metadata) (blocks : List Block)
    (hfile : (m.marshalRLP ++ blocks.flatMap Block.marshalRLP).length < 2 ^ 63) :
    ∃ buffers : ℕ → List UInt8,
      (newBlockStream (m.marshalRLP ++ blocks.flatMap Block.marshalRLP)).getMetadata =
        pure (some m, ⟨blocks.flatMap Block.marshalRLP, buffers 0⟩) ∧
      (∀ i (hi : i < blocks.length),
        BlockStream.nextBlock headerHash ⟨(blocks.drop i).flatMap Block.marshalRLP, buffers i⟩ =
          (fun block => (some block,
            ⟨(blocks.drop (i + 1)).flatMap Block.marshalRLP, buffers (i + 1)⟩)) <$>
            Block.unmarshalRLP headerHash blocks[i].marshalRLP) ∧
      BlockStream.nextBlock headerHash ⟨[], buffers blocks.length⟩ =
        pure (none, ⟨[], buffers blocks.length⟩) := by
  rw [List.length_append] at hfile
  obtain ⟨buffer, hcap, hmeta⟩ := getMetadata_marshalRLP
    (b := newBlockStream (m.marshalRLP ++ blocks.flatMap Block.marshalRLP)) rfl
    (by rw [length_buffer_newBlockStream]; decide) (by omega)
  obtain ⟨buffers, h0, hsteps, hend⟩ :=
    nextBlock_flatMap_marshalRLP headerHash blocks hcap (by omega)
  exact ⟨buffers, h0 ▸ hmeta, hsteps, hend⟩

end Read

def sampleMetadata : Metadata := ⟨1, zeroHash⟩

def sampleBlock : Block := ⟨sampleHeader, [sampleTx], []⟩

theorem archive_stream_round_trip_of_sample :
    ∃ buffers : ℕ → List UInt8,
      (newBlockStream (sampleMetadata.marshalRLP ++ [sampleBlock].flatMap Block.marshalRLP)).getMetadata =
        pure (some sampleMetadata, ⟨[sampleBlock].flatMap Block.marshalRLP, buffers 0⟩) ∧
      (∀ i (hi : i < [sampleBlock].length),
        BlockStream.nextBlock (fun _ => zeroHash)
            ⟨([sampleBlock].drop i).flatMap Block.marshalRLP, buffers i⟩ =
          (fun block => (some block,
            ⟨([sampleBlock].drop (i + 1)).flatMap Block.marshalRLP, buffers (i + 1)⟩)) <$>
            Block.unmarshalRLP (fun _ => zeroHash) [sampleBlock][i].marshalRLP) ∧
      BlockStream.nextBlock (fun _ => zeroHash) ⟨[], buffers [sampleBlock].length⟩ =
        pure (none, ⟨[], buffers [sampleBlock].length⟩) :=
  archive_stream_round_trip (fun _ => zeroHash) sampleMetadata [sampleBlock] (by decide +kernel)

end Archive
