import MindPos.PointerCells

/-! # Go slices over shared backing arrays

A slice is a header (backing array, length, capacity) over an array that lives in a heap.
The builtin append writes in place while the length is below the capacity and otherwise copies
into a fresh array, so two headers over one array can see each other's appends: the one frame
lemma `read_append_other` says exactly when. -/
namespace GoSlices

open PointerCells

variable {α : Type*}

/-- A slice header; `array` is the cell of the backing array in the heap. -/
structure Slice where
  array : ℕ
  len : ℕ
  cap : ℕ
  deriving DecidableEq, Repr

def Slice.empty : Slice := ⟨0, 0, 0⟩

def Slice.read (h : Heap (List α)) (s : Slice) : List α := (h.cells s.array).take s.len

def growCap (cap : ℕ) : ℕ :=
  if cap = 0 then 1 else if cap < 256 then 2 * cap else cap + (cap + 3 * 256) / 4

def writeAt (xs : List α) (i : ℕ) (x : α) : List α := xs.take i ++ x :: xs.drop (i + 1)

def append (h : Heap (List α)) (s : Slice) (x : α) : Slice × Heap (List α) :=
  if s.len < s.cap then
    (⟨s.array, s.len + 1, s.cap⟩, h.set s.array (writeAt (h.cells s.array) s.len x))
  else
    let (a, h') := h.alloc (s.read h ++ [x])
    (⟨a, s.len + 1, growCap s.cap⟩, h')

/-- A header the heap can back: its elements are stored, and an array it shows anything of has
been allocated. -/
structure Slice.Valid (h : Heap (List α)) (s : Slice) : Prop where
  len_le_cap : s.len ≤ s.cap
  len_le_length : s.len ≤ (h.cells s.array).length
  allocated : 0 < s.cap → s.array < h.next

theorem Slice.valid_empty (h : Heap (List α)) : Slice.empty.Valid h :=
  ⟨Nat.le_refl 0, Nat.zero_le _, fun h0 => absurd h0 (Nat.lt_irrefl 0)⟩

@[simp] theorem Slice.read_empty (h : Heap (List α)) : Slice.empty.read h = [] := rfl

theorem writeAt_eq_set {xs : List α} {i : ℕ} (hi : i < xs.length) (x : α) :
    writeAt xs i x = xs.set i x := by
  rw [writeAt, List.set_eq_take_append_cons_drop, if_pos hi]

theorem growCap_pos (cap : ℕ) : cap < growCap cap := by
  unfold growCap
  split_ifs <;> omega

theorem length_writeAt {xs : List α} {i : ℕ} (hi : i ≤ xs.length) (x : α) :
    (writeAt xs i x).length = max xs.length (i + 1) := by
  simp only [writeAt, List.length_append, List.length_take, List.length_cons, List.length_drop]
  omega

theorem writeAt_length (xs : List α) (x : α) : writeAt xs xs.length x = xs ++ [x] := by
  simp [writeAt]

theorem take_writeAt {xs : List α} {i n : ℕ} (hi : i ≤ xs.length) (hn : n ≤ xs.length) (x : α) :
    (writeAt xs i x).take n = (xs.take n).set i x := by
  rcases Nat.lt_or_eq_of_le hi with hi | rfl
  · rw [writeAt_eq_set hi, List.take_set]
  · rw [writeAt_length, List.take_append_of_le_length hn,
      List.set_eq_of_length_le (by simp only [List.length_take]; omega)]

section Append

variable {h : Heap (List α)} {s : Slice}

theorem append_of_lt (hlt : s.len < s.cap) (x : α) :
    append h s x = (⟨s.array, s.len + 1, s.cap⟩, h.set s.array (writeAt (h.cells s.array) s.len x)) :=
  if_pos hlt

theorem append_of_not_lt (hlt : ¬ s.len < s.cap) (x : α) :
    append h s x = (⟨h.next, s.len + 1, growCap s.cap⟩, (h.alloc (s.read h ++ [x])).2) :=
  if_neg hlt

theorem read_append (hs : s.Valid h) (x : α) :
    (append h s x).1.read (append h s x).2 = s.read h ++ [x] := by
  by_cases hlt : s.len < s.cap
  · rw [append_of_lt hlt]
    have hlen := List.length_take_of_le hs.len_le_length
    simp only [Slice.read, Heap.set_cells, reduceIte, writeAt]
    rw [List.take_append, hlen, Nat.add_sub_cancel_left, List.take_take,
      Nat.min_eq_right (Nat.le_succ _)]
    rfl
  · rw [append_of_not_lt hlt]
    simp only [Slice.read, Heap.alloc_cells, reduceIte]
    exact List.take_of_length_le (by
      simp only [List.length_append, List.length_take, List.length_singleton]; omega)

theorem Slice.Valid.len_eq_zero_of_next {t : Slice} (ht : t.Valid h) (hnext : t.array = h.next) :
    t.len = 0 := by
  have hcap : t.cap = 0 := by
    by_contra hcap
    exact Nat.lt_irrefl _ (hnext ▸ ht.allocated (Nat.pos_of_ne_zero hcap))
  have := ht.len_le_cap
  omega

theorem valid_append (hs : s.Valid h) (x : α) : (append h s x).1.Valid (append h s x).2 := by
  by_cases hlt : s.len < s.cap
  · rw [append_of_lt hlt]
    refine ⟨hlt, ?_, fun hcap => by simpa using hs.allocated hcap⟩
    simp only [Heap.set_cells, reduceIte]
    rw [length_writeAt hs.len_le_length]
    omega
  · rw [append_of_not_lt hlt]
    have hcap : s.len = s.cap := Nat.le_antisymm hs.len_le_cap (Nat.not_lt.mp hlt)
    refine ⟨?_, ?_, fun _ => by simp⟩
    · rw [hcap]
      exact growCap_pos s.cap
    · simp [Slice.read, hs.len_le_length]

theorem read_append_other {t : Slice} (hs : s.Valid h) (ht : t.Valid h) (x : α) :
    t.read (append h s x).2 =
      if t.array = s.array ∧ s.len < s.cap then (t.read h).set s.len x else t.read h := by
  by_cases hlt : s.len < s.cap
  · rw [append_of_lt hlt]
    by_cases harr : t.array = s.array
    · simp only [Slice.read, Heap.set_cells, harr, reduceIte, and_self, hlt]
      exact take_writeAt hs.len_le_length (harr ▸ ht.len_le_length) x
    · simp [Slice.read, harr]
  · rw [append_of_not_lt hlt]
    by_cases hnext : t.array = h.next
    · simp [Slice.read, hlt, ht.len_eq_zero_of_next hnext]
    · simp [Slice.read, hlt, hnext]

theorem valid_append_other {t : Slice} (hs : s.Valid h) (ht : t.Valid h) (x : α) :
    t.Valid (append h s x).2 := by
  by_cases hlt : s.len < s.cap
  · rw [append_of_lt hlt]
    refine ⟨ht.len_le_cap, ?_, fun hcap => by simpa using ht.allocated hcap⟩
    by_cases harr : t.array = s.array
    · simp only [Heap.set_cells, harr, reduceIte]
      rw [length_writeAt hs.len_le_length]
      exact Nat.le_trans (harr ▸ ht.len_le_length) (Nat.le_max_left _ _)
    · simpa [harr] using ht.len_le_length
  · rw [append_of_not_lt hlt]
    refine ⟨ht.len_le_cap, ?_, fun hcap => Nat.lt_succ_of_lt (by simpa using ht.allocated hcap)⟩
    by_cases hnext : t.array = h.next
    · simp [ht.len_eq_zero_of_next hnext]
    · simpa [hnext] using ht.len_le_length

end Append

end GoSlices
