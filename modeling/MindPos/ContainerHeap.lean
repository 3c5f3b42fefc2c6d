import Mathlib

/-! # Go's `container/heap` over a slice

`heap.Push` appends and moves the new element up; `heap.Pop` swaps the root with the last
element, moves the new root down over the others and takes the last element off. The order is
the `Less` of the slice's type. When `Less` compares keys of a linear order, every element is at
or after its parent after each operation, so the root is a least element. -/
namespace ContainerHeap

variable {α : Type*}

/-- `Swap(i, j)`; a swap off the slice leaves it as it is. -/
def swap (l : List α) (i j : ℕ) : List α :=
  match l[i]?, l[j]? with
  | some a, some b => (l.set i b).set j a
  | _, _ => l

/-- `Less(i, j)`; false off the slice. -/
def lessAt (less : α → α → Bool) (l : List α) (i j : ℕ) : Bool :=
  match l[i]?, l[j]? with
  | some a, some b => less a b
  | _, _ => false

def parent (j : ℕ) : ℕ := (j - 1) / 2

variable (less : α → α → Bool)

/-- `up`: the element at `j` moves towards the root while it is less than its parent. -/
def up (l : List α) (j : ℕ) : List α :=
  if parent j = j then l
  else if lessAt less l j (parent j) then up (swap l (parent j) j) (parent j) else l
termination_by j
decreasing_by unfold parent at *; omega

def lesserChild (l : List α) (i n : ℕ) : ℕ :=
  let j1 := 2 * i + 1
  if j1 + 1 < n ∧ lessAt less l (j1 + 1) j1 then j1 + 1 else j1

/-- `down` from `i` over the first `n` elements: the element at `i` moves towards the leaves while
its lesser child is less than it. Whether it moved, which `down` also returns, is not kept. -/
def down (l : List α) (i n : ℕ) : List α :=
  if n ≤ 2 * i + 1 then l
  else
    let j := lesserChild less l i n
    if lessAt less l j i then down (swap l i j) j n else l
termination_by n - i
decreasing_by unfold lesserChild; dsimp only; split <;> omega

/-- `heap.Push`: `Push(x)` appends, then `up` from the last position. -/
def push (l : List α) (x : α) : List α := up less (l ++ [x]) l.length

/-- `heap.Pop`: the root swapped with the last element, `down` from the root over the others,
and the last element taken off by `Pop()`. Callers check the slice is not empty. -/
def pop (l : List α) : Option α × List α :=
  let n := l.length - 1
  let l := down less (swap l 0 n) 0 n
  (l.getLast?, l.dropLast)

/-! ## Swaps -/

theorem getElem?_swap {l : List α} {i j : ℕ} (hi : i < l.length) (hj : j < l.length) (k : ℕ) :
    (swap l i j)[k]? = l[Equiv.swap i j k]? := by
  unfold swap
  rw [List.getElem?_eq_getElem hi, List.getElem?_eq_getElem hj]
  simp only [List.getElem?_set, List.length_set, Equiv.swap_apply_def]
  by_cases hkj : k = j
  · subst hkj
    by_cases hki : k = i
    · subst hki
      simp [hi]
    · simp [hki, hi, hj]
  · by_cases hki : k = i
    · subst hki
      simp [Ne.symm hkj, hi, hj]
    · simp [hkj, hki, Ne.symm hkj, Ne.symm hki]

theorem getElem?_swap_of_ne {l : List α} {i j k : ℕ} (hki : k ≠ i) (hkj : k ≠ j) :
    (swap l i j)[k]? = l[k]? := by
  unfold swap
  split
  · simp [Ne.symm hki, Ne.symm hkj]
  · rfl

@[simp] theorem length_swap (l : List α) (i j : ℕ) : (swap l i j).length = l.length := by
  unfold swap
  split <;> simp

theorem swap_perm (l : List α) (i j : ℕ) : (swap l i j).Perm l := by
  by_cases h : i < l.length ∧ j < l.length
  · obtain ⟨hi, hj⟩ := h
    have heq : swap l i j = List.ofFn (l.get ∘ Equiv.swap ⟨i, hi⟩ ⟨j, hj⟩) := by
      apply List.ext_getElem?
      intro k
      rw [getElem?_swap hi hj, List.getElem?_ofFn]
      by_cases hk : k < l.length
      · simp [hk, Equiv.swap_apply_def, Fin.ext_iff]
        split_ifs <;> simp_all
      · have : Equiv.swap i j k = k := Equiv.swap_apply_of_ne_of_ne (by omega) (by omega)
        simp [hk, this]
    rw [heq]
    conv_rhs => rw [← List.ofFn_get l]
    exact Equiv.Perm.ofFn_comp_perm _ _
  · unfold swap
    split
    · next a b ha hb =>
      exact absurd ⟨(List.getElem?_eq_some_iff.mp ha).1, (List.getElem?_eq_some_iff.mp hb).1⟩ h
    · exact List.Perm.refl l

/-! ## Positions -/

theorem parent_lt {c : ℕ} (hc : 0 < c) : parent c < c := by
  unfold parent
  omega

theorem parent_eq_iff {c i : ℕ} (hc : 0 < c) : parent c = i ↔ c = 2 * i + 1 ∨ c = 2 * i + 2 := by
  unfold parent
  omega

theorem lesserChild_spec (l : List α) {i n : ℕ} (h : ¬n ≤ 2 * i + 1) :
    parent (lesserChild less l i n) = i ∧ lesserChild less l i n < n ∧
      2 * i + 1 ≤ lesserChild less l i n := by
  unfold lesserChild parent
  dsimp only
  split <;> omega

/-! ## The order of a heap -/

section Order

variable {less} {κ : Type*} [LinearOrder κ] (key : α → κ)

/-- The element at `p` is at or before the one at `c`, where both exist. -/
def LeAt (l : List α) (p c : ℕ) : Prop :=
  ∀ a b, l[p]? = some a → l[c]? = some b → key a ≤ key b

/-- Every element among the first `n` is at or after its parent. -/
def Ordered (l : List α) (n : ℕ) : Prop := ∀ c, 0 < c → c < n → LeAt key l (parent c) c

def IsHeap (l : List α) : Prop := Ordered key l l.length

/-- What `up` from `j` needs: every pair but `j` and its parent is in order, and `j`'s parent is
at or before `j`'s children. -/
structure UpOrder (l : List α) (j : ℕ) : Prop where
  except : ∀ c, 0 < c → c < l.length → c ≠ j → LeAt key l (parent c) c
  grand : 0 < j → ∀ c, 0 < c → c < l.length → parent c = j → LeAt key l (parent j) c

/-- What `down` from `i` over the first `n` needs: every pair but `i` and its children is in
order, and `i`'s parent is at or before `i`'s children. -/
structure DownOrder (l : List α) (i n : ℕ) : Prop where
  except : ∀ c, 0 < c → c < n → parent c ≠ i → LeAt key l (parent c) c
  grand : 0 < i → ∀ c, 0 < c → c < n → parent c = i → LeAt key l (parent i) c

variable {key}

theorem LeAt.rfl {l : List α} {p : ℕ} : LeAt key l p p := by
  intro a b ha hb
  rw [ha, Option.some.injEq] at hb
  rw [hb]

theorem LeAt.trans {l : List α} {a b c : ℕ} (hab : LeAt key l a b) (hbc : LeAt key l b c)
    (hb : b < l.length) : LeAt key l a c := by
  intro x z hx hz
  have hy := List.getElem?_eq_getElem hb
  exact (hab x _ hx hy).trans (hbc _ z hy hz)

theorem leAt_swap {l : List α} {i j : ℕ} (hi : i < l.length) (hj : j < l.length) (p c : ℕ) :
    LeAt key (swap l i j) p c ↔ LeAt key l (Equiv.swap i j p) (Equiv.swap i j c) := by
  simp only [LeAt, getElem?_swap hi hj]

variable (hless : ∀ a b, less a b = true ↔ key a < key b)
include hless

theorem leAt_of_lessAt {l : List α} {i j : ℕ} (h : lessAt less l i j = true) : LeAt key l i j := by
  intro a b ha hb
  unfold lessAt at h
  rw [ha, hb] at h
  exact ((hless a b).mp h).le

theorem leAt_of_not_lessAt {l : List α} {i j : ℕ} (h : ¬lessAt less l i j = true) :
    LeAt key l j i := by
  intro b a hb ha
  unfold lessAt at h
  rw [ha, hb] at h
  exact not_lt.mp (fun hlt => h ((hless a b).mpr hlt))

theorem lesserChild_le {l : List α} {i n : ℕ} (c : ℕ) (hc : 0 < c)
    (hcn : c < n) (hpc : parent c = i) : LeAt key l (lesserChild less l i n) c := by
  rcases (parent_eq_iff hc).mp hpc with rfl | rfl
  · unfold lesserChild
    dsimp only
    split
    · next h => exact leAt_of_lessAt hless h.2
    · exact LeAt.rfl
  · unfold lesserChild
    dsimp only
    split
    · exact LeAt.rfl
    · next h => exact leAt_of_not_lessAt hless (fun hlt => h ⟨by omega, hlt⟩)

theorem DownOrder.move {l : List α} {i n : ℕ} (o : DownOrder key l i n) (hn : n ≤ l.length)
    (h : ¬n ≤ 2 * i + 1) (hlt : lessAt less l (lesserChild less l i n) i = true) :
    DownOrder key (swap l i (lesserChild less l i n)) (lesserChild less l i n) n := by
  obtain ⟨hpj, hjn, hij⟩ := lesserChild_spec less l h
  set j := lesserChild less l i n with hj
  have hji : LeAt key l j i := leAt_of_lessAt hless hlt
  constructor
  · intro c hc hcn hpc
    rw [leAt_swap (by omega) (by omega)]
    by_cases hcj : c = j
    · subst hcj
      rw [hpj, Equiv.swap_apply_left, Equiv.swap_apply_right]
      exact hji
    by_cases hci : c = i
    · subst hci
      have hpi := parent_lt hc
      rw [Equiv.swap_apply_of_ne_of_ne (by omega) (by omega), Equiv.swap_apply_left]
      exact o.grand hc j (by omega) hjn hpj
    rw [Equiv.swap_apply_of_ne_of_ne hci hcj]
    by_cases hpci : parent c = i
    · rw [hpci, Equiv.swap_apply_left]
      exact lesserChild_le hless c hc hcn hpci
    · rw [Equiv.swap_apply_of_ne_of_ne hpci hpc]
      exact o.except c hc hcn hpci
  · intro _ c hc hcn hpc
    have hjc : j < c := by rw [← hpc]; exact parent_lt hc
    rw [leAt_swap (by omega) (by omega), hpj, Equiv.swap_apply_left,
      Equiv.swap_apply_of_ne_of_ne (by omega) (by omega)]
    have hold := o.except c hc hcn (by omega)
    rwa [hpc] at hold

theorem DownOrder.ordered_of_not_lessAt {l : List α} {i n : ℕ} (o : DownOrder key l i n)
    (hn : n ≤ l.length) (h : ¬n ≤ 2 * i + 1)
    (hstop : ¬lessAt less l (lesserChild less l i n) i = true) : Ordered key l n := by
  intro c hc hcn
  by_cases hpc : parent c = i
  · rw [hpc]
    exact (leAt_of_not_lessAt hless hstop).trans (lesserChild_le hless c hc hcn hpc)
      (by have := (lesserChild_spec less l h).2; omega)
  · exact o.except c hc hcn hpc

theorem ordered_down {l : List α} {i n : ℕ} (hn : n ≤ l.length) (o : DownOrder key l i n) :
    Ordered key (down less l i n) n := by
  induction l, i using down.induct less n with
  | case1 l i h =>
    rw [down, if_pos h]
    exact fun c hc hcn => o.except c hc hcn (by unfold parent; omega)
  | case2 l i h j hlt ih =>
    rw [down, if_neg h, if_pos hlt]
    exact ih (by rw [length_swap]; exact hn) (o.move hless hn h hlt)
  | case3 l i h j hstop =>
    rw [down, if_neg h, if_neg hstop]
    exact o.ordered_of_not_lessAt hless hn h hstop

theorem UpOrder.move {l : List α} {j : ℕ} (o : UpOrder key l j) (hj : j < l.length)
    (h : ¬parent j = j) (hlt : lessAt less l j (parent j) = true) :
    UpOrder key (swap l (parent j) j) (parent j) := by
  set p := parent j with hp
  have hj0 : 0 < j := by unfold parent at hp; omega
  have hpj : p < j := parent_lt hj0
  have hjp : LeAt key l j p := leAt_of_lessAt hless hlt
  constructor
  · intro c hc hcn hcp
    rw [length_swap] at hcn
    rw [leAt_swap (by omega) hj]
    by_cases hcj : c = j
    · subst hcj
      rw [Equiv.swap_apply_left, Equiv.swap_apply_right]
      exact hjp
    rw [Equiv.swap_apply_of_ne_of_ne hcp hcj]
    by_cases hpcj : parent c = j
    · rw [hpcj, Equiv.swap_apply_right]
      exact o.grand hj0 c hc hcn hpcj
    by_cases hpcp : parent c = p
    · rw [hpcp, Equiv.swap_apply_left]
      have hold := o.except c hc hcn hcj
      rw [hpcp] at hold
      exact hjp.trans hold (by omega)
    · rw [Equiv.swap_apply_of_ne_of_ne hpcp hpcj]
      exact o.except c hc hcn hcj
  · intro hp0 c hc hcn hpc
    rw [length_swap] at hcn
    have hpp := parent_lt hp0
    have hpc' : p < c := by rw [← hpc]; exact parent_lt hc
    have hup : LeAt key l (parent p) p := o.except p hp0 (by omega) (by omega)
    rw [leAt_swap (by omega) hj, Equiv.swap_apply_of_ne_of_ne (by omega) (by omega)]
    by_cases hcj : c = j
    · subst hcj
      rw [Equiv.swap_apply_right]
      exact hup
    · rw [Equiv.swap_apply_of_ne_of_ne (by omega) hcj]
      have hold := o.except c hc hcn hcj
      rw [hpc] at hold
      exact hup.trans hold (by omega)

theorem isHeap_up {l : List α} {j : ℕ} (hj : j < l.length) (o : UpOrder key l j) :
    IsHeap key (up less l j) := by
  induction l, j using up.induct less with
  | case1 l j h =>
    rw [up, if_pos h]
    exact fun c hc hcn => o.except c hc hcn (by unfold parent at h; omega)
  | case2 l j h hlt ih =>
    rw [up, if_neg h, if_pos hlt]
    exact ih (by rw [length_swap]; exact lt_of_le_of_lt (parent_lt (by unfold parent at h; omega)).le hj)
      (o.move hless hj h hlt)
  | case3 l j h hstop =>
    rw [up, if_neg h, if_neg hstop]
    intro c hc hcn
    by_cases hcj : c = j
    · subst hcj
      exact leAt_of_not_lessAt hless hstop
    · exact o.except c hc hcn hcj

omit hless in
theorem IsHeap.leAt_zero {l : List α} (hl : IsHeap key l) : ∀ k, k < l.length → LeAt key l 0 k := by
  intro k
  induction k using Nat.strong_induction_on with
  | _ k ih =>
    intro hk
    rcases Nat.eq_zero_or_pos k with rfl | hk0
    · exact LeAt.rfl
    · have hpk := parent_lt hk0
      exact (ih _ hpk (by omega)).trans (hl k hk0 hk) (by omega)

omit hless in
theorem IsHeap.head_le {l : List α} (hl : IsHeap key l) (hne : l ≠ []) :
    ∀ x ∈ l, key (l.head hne) ≤ key x := by
  intro x hx
  obtain ⟨k, hk, rfl⟩ := List.mem_iff_getElem.mp hx
  have h0 : l[0]? = some (l.head hne) := by
    rw [← List.head?_eq_getElem?, List.head?_eq_some_head hne]
  exact hl.leAt_zero k hk _ _ h0 (List.getElem?_eq_getElem hk)

end Order

/-! ## Push and pop -/

theorem length_up (l : List α) (j : ℕ) : (up less l j).length = l.length := by
  induction l, j using up.induct less with
  | case1 l j h => rw [up, if_pos h]
  | case2 l j h hlt ih => rw [up, if_neg h, if_pos hlt, ih, length_swap]
  | case3 l j h hstop => rw [up, if_neg h, if_neg hstop]

theorem up_perm (l : List α) (j : ℕ) : (up less l j).Perm l := by
  induction l, j using up.induct less with
  | case1 l j h => rw [up, if_pos h]
  | case2 l j h hlt ih =>
    rw [up, if_neg h, if_pos hlt]
    exact ih.trans (swap_perm l _ _)
  | case3 l j h hstop => rw [up, if_neg h, if_neg hstop]

theorem length_down (l : List α) (i n : ℕ) : (down less l i n).length = l.length := by
  induction l, i using down.induct less n with
  | case1 l i h => rw [down, if_pos h]
  | case2 l i h j hlt ih => rw [down, if_neg h, if_pos hlt, ih, length_swap]
  | case3 l i h j hstop => rw [down, if_neg h, if_neg hstop]

theorem down_perm (l : List α) (i n : ℕ) : (down less l i n).Perm l := by
  induction l, i using down.induct less n with
  | case1 l i h => rw [down, if_pos h]
  | case2 l i h j hlt ih =>
    rw [down, if_neg h, if_pos hlt]
    exact ih.trans (swap_perm l _ _)
  | case3 l i h j hstop => rw [down, if_neg h, if_neg hstop]

theorem getElem?_down_of_le (l : List α) (i n : ℕ) {k : ℕ} (hk : n ≤ k) :
    (down less l i n)[k]? = l[k]? := by
  induction l, i using down.induct less n with
  | case1 l i h => rw [down, if_pos h]
  | case2 l i h j hlt ih =>
    rw [down, if_neg h, if_pos hlt, ih]
    have hj := (lesserChild_spec less l h).2
    exact getElem?_swap_of_ne (by omega) (by omega)
  | case3 l i h j hstop => rw [down, if_neg h, if_neg hstop]

theorem push_perm (l : List α) (x : α) : (push less l x).Perm (x :: l) :=
  (up_perm less _ _).trans (List.perm_append_singleton x l)

@[simp] theorem push_nil (x : α) : push less [] x = [x] := by
  rw [push, up]
  simp [parent]

@[simp] theorem pop_singleton (x : α) : pop less [x] = (some x, []) := by
  simp [pop, swap, down]

theorem pop_perm (l : List α) : l.Perm ((pop less l).1.toList ++ (pop less l).2) := by
  set l₂ := down less (swap l 0 (l.length - 1)) 0 (l.length - 1) with hl₂
  have hperm : l₂.Perm l := (down_perm less _ _ _).trans (swap_perm l _ _)
  have hsplit : l₂.Perm (l₂.getLast?.toList ++ l₂.dropLast) := by
    rcases List.eq_nil_or_concat l₂ with h | ⟨init, last, h⟩
    · rw [h]
      rfl
    · rw [h, List.concat_eq_append, List.getLast?_concat, List.dropLast_concat]
      exact List.perm_append_comm
  exact hperm.symm.trans hsplit

theorem pop_fst (l : List α) : (pop less l).1 = l.head? := by
  rcases List.eq_nil_or_concat l with rfl | ⟨init, last, rfl⟩
  · simp [pop, swap, down]
  · have hpos : 0 < (init.concat last).length := by simp
    set n := (init.concat last).length - 1 with hn
    set l₂ := down less (swap (init.concat last) 0 n) 0 n with hl₂
    have hlen : l₂.length = n + 1 := by rw [hl₂, length_down, length_swap]; omega
    have hlast : l₂[n]? = (init.concat last).head? := by
      rw [hl₂, getElem?_down_of_le less _ 0 n le_rfl, getElem?_swap hpos (by omega),
        Equiv.swap_apply_right, List.head?_eq_getElem?]
    show l₂.getLast? = _
    rw [List.getLast?_eq_getElem?, hlen, Nat.add_sub_cancel, hlast]

theorem foldl_push_perm (l xs : List α) : (xs.foldl (push less) l).Perm (xs.reverse ++ l) := by
  induction xs generalizing l with
  | nil => exact List.Perm.refl l
  | cons x xs ih =>
    rw [List.foldl_cons, List.reverse_cons, List.append_assoc, List.singleton_append]
    exact (ih _).trans ((push_perm less l x).append_left _)

section Order

variable {less} {κ : Type*} [LinearOrder κ] {key : α → κ}
  (hless : ∀ a b, less a b = true ↔ key a < key b)
include hless

theorem isHeap_push {l : List α} (hl : IsHeap key l) (x : α) : IsHeap key (push less l x) := by
  apply isHeap_up hless (by simp)
  constructor
  · intro c hc hcn hcl
    simp only [List.length_append, List.length_singleton] at hcn
    have hpc := parent_lt hc
    intro a b ha hb
    rw [List.getElem?_append_left (by omega)] at ha hb
    exact hl c hc (by omega) a b ha hb
  · intro _ c hc hcn hpc
    simp only [List.length_append, List.length_singleton] at hcn
    rw [parent_eq_iff hc] at hpc
    omega

theorem isHeap_foldl_push {l : List α} (hl : IsHeap key l) (xs : List α) :
    IsHeap key (xs.foldl (push less) l) := by
  induction xs generalizing l with
  | nil => exact hl
  | cons x xs ih => exact ih (isHeap_push hless hl x)

theorem pop_spec {l : List α} (hl : IsHeap key l) (hne : l ≠ []) :
    (pop less l).1 = l.head? ∧ IsHeap key (pop less l).2 ∧
      l.Perm (l.head hne :: (pop less l).2) := by
  have hpos : 0 < l.length := List.length_pos_iff.mpr hne
  set n := l.length - 1 with hn
  set l₂ := down less (swap l 0 n) 0 n with hl₂
  have hlen : l₂.length = n + 1 := by rw [hl₂, length_down, length_swap]; omega
  have hdown : DownOrder key (swap l 0 n) 0 n := by
    refine ⟨fun c hc hcn hpc => ?_, fun h => absurd h (Nat.lt_irrefl 0)⟩
    have hpcn := parent_lt hc
    rw [leAt_swap hpos (by omega), Equiv.swap_apply_of_ne_of_ne hpc (by omega),
      Equiv.swap_apply_of_ne_of_ne (by omega) (by omega)]
    exact hl c hc (by omega)
  have hord : Ordered key l₂ n := ordered_down hless (by rw [length_swap]; omega) hdown
  have hroot : (pop less l).1 = some (l.head hne) := by
    rw [pop_fst, List.head?_eq_some_head]
  refine ⟨pop_fst less l, ?_, ?_⟩
  · show IsHeap key l₂.dropLast
    intro c hc hcn
    simp only [List.length_dropLast, hlen, Nat.add_sub_cancel] at hcn
    have hpc := parent_lt hc
    intro a b ha hb
    rw [List.getElem?_dropLast, if_pos (by omega)] at ha hb
    exact hord c hc hcn a b ha hb
  · have hperm := pop_perm less l
    rwa [hroot, Option.toList_some, List.singleton_append] at hperm

end Order

/-! ## A `Less` that may panic

Where `Less` dereferences a pointer that may be `nil`, a comparison may panic, `none` here, and the
walk stops at it. Where `Less` panics on no two elements of the slice, `Push` is the one above. -/

section Partial

variable {less} (lessM : α → α → Option Bool)

/-- `Less(i, j)` when it may panic; false off the slice. -/
def lessAtM (l : List α) (i j : ℕ) : Option Bool :=
  match l[i]?, l[j]? with
  | some a, some b => lessM a b
  | _, _ => some false

/-- `up` with a `Less` that may panic. -/
def upM (l : List α) (j : ℕ) : Option (List α) :=
  if parent j = j then some l
  else
    match lessAtM lessM l j (parent j) with
    | some true => upM (swap l (parent j) j) (parent j)
    | some false => some l
    | none => none
termination_by j
decreasing_by unfold parent at *; omega

/-- `heap.Push` with a `Less` that may panic. -/
def pushM (l : List α) (x : α) : Option (List α) := upM lessM (l ++ [x]) l.length

@[simp] theorem pushM_nil (x : α) : pushM lessM [] x = some [x] := by
  rw [pushM, upM]
  simp [parent]

theorem pushM_singleton (a b : α) :
    pushM lessM [b] a = (lessM a b).map fun lt => if lt then [a, b] else [b, a] := by
  rw [pushM, upM]
  cases h : lessM a b with
  | none => simp [parent, lessAtM, h]
  | some lt =>
    cases lt
    · simp [parent, lessAtM, h]
    · simp [parent, lessAtM, h, upM, swap]

variable {lessM}

theorem lessAtM_eq {l : List α} (hagree : ∀ a ∈ l, ∀ b ∈ l, lessM a b = some (less a b))
    (i j : ℕ) : lessAtM lessM l i j = some (lessAt less l i j) := by
  unfold lessAtM lessAt
  split
  · next a b ha hb => exact hagree a (List.mem_of_getElem? ha) b (List.mem_of_getElem? hb)
  · rfl

theorem upM_eq_some {l : List α} {j : ℕ}
    (hagree : ∀ a ∈ l, ∀ b ∈ l, lessM a b = some (less a b)) :
    upM lessM l j = some (up less l j) := by
  induction l, j using up.induct less with
  | case1 l j h => rw [upM, if_pos h, up, if_pos h]
  | case2 l j h hlt ih =>
    rw [upM, if_neg h, lessAtM_eq hagree, hlt, up, if_neg h, if_pos hlt]
    have hmem := fun x => (swap_perm l (parent j) j).mem_iff (a := x)
    exact ih fun a ha b hb => hagree a ((hmem a).mp ha) b ((hmem b).mp hb)
  | case3 l j h hstop =>
    rw [upM, if_neg h, lessAtM_eq hagree, up, if_neg h, if_neg hstop, Bool.eq_false_iff.mpr hstop]

theorem pushM_eq_some {l : List α} {x : α}
    (hagree : ∀ a ∈ x :: l, ∀ b ∈ x :: l, lessM a b = some (less a b)) :
    pushM lessM l x = some (push less l x) := by
  have hmem : ∀ y, y ∈ l ++ [x] ↔ y ∈ x :: l := fun y => List.perm_append_singleton x l |>.mem_iff
  exact upM_eq_some fun a ha b hb => hagree a ((hmem a).mp ha) b ((hmem b).mp hb)

end Partial

end ContainerHeap
