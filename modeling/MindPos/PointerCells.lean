import Mathlib

/-! # Mutable cells behind pointers

A heap of cells addressed by natural numbers, with a bump allocator. A loop that updates in
place the cell behind each pointer of a list applies the update to a cell once per pointer to
it, so pointers that alias make the update happen more than once. -/
namespace PointerCells

variable {α : Type*}

@[ext] structure Heap (α : Type*) where
  cells : ℕ → α
  next : ℕ

def Heap.alloc (h : Heap α) (x : α) : ℕ × Heap α :=
  (h.next, ⟨Function.update h.cells h.next x, h.next + 1⟩)

def Heap.set (h : Heap α) (c : ℕ) (x : α) : Heap α := { h with cells := Function.update h.cells c x }

def Heap.updateEach (h : Heap α) (f : α → α) (ptrs : List ℕ) : Heap α :=
  ptrs.foldl (fun h c => h.set c (f (h.cells c))) h

@[simp] theorem Heap.alloc_fst (h : Heap α) (x : α) : (h.alloc x).1 = h.next := rfl

@[simp] theorem Heap.alloc_next (h : Heap α) (x : α) : (h.alloc x).2.next = h.next + 1 := rfl

@[simp] theorem Heap.alloc_cells (h : Heap α) (x : α) (c : ℕ) :
    (h.alloc x).2.cells c = if c = h.next then x else h.cells c := by
  simp [alloc, Function.update_apply]

@[simp] theorem Heap.set_next (h : Heap α) (c : ℕ) (x : α) : (h.set c x).next = h.next := rfl

@[simp] theorem Heap.set_cells (h : Heap α) (c : ℕ) (x : α) (d : ℕ) :
    (h.set c x).cells d = if d = c then x else h.cells d := by
  simp [set, Function.update_apply]

@[simp] theorem Heap.updateEach_nil (h : Heap α) (f : α → α) : h.updateEach f [] = h := rfl

@[simp] theorem Heap.updateEach_next (h : Heap α) (f : α → α) (ptrs : List ℕ) :
    (h.updateEach f ptrs).next = h.next := by
  induction ptrs generalizing h with
  | nil => rfl
  | cons c ptrs ih => exact (ih _).trans (Heap.set_next h c _)

theorem Heap.updateEach_cells (h : Heap α) (f : α → α) (ptrs : List ℕ) (c : ℕ) :
    (h.updateEach f ptrs).cells c = f^[ptrs.count c] (h.cells c) := by
  induction ptrs generalizing h with
  | nil => rfl
  | cons d ptrs ih =>
    simp only [updateEach, List.foldl_cons] at ih ⊢
    rw [ih, List.count_cons, Heap.set_cells]
    by_cases hcd : c = d
    · subst hcd
      simp [Function.iterate_succ_apply]
    · simp [hcd, Ne.symm hcd]

theorem Heap.updateEach_cells_of_nodup (h : Heap α) (f : α → α) {ptrs : List ℕ}
    (hp : ptrs.Nodup) (c : ℕ) :
    (h.updateEach f ptrs).cells c = if c ∈ ptrs then f (h.cells c) else h.cells c := by
  rw [Heap.updateEach_cells]
  split_ifs with hc
  · rw [List.count_eq_one_of_mem hp hc, Function.iterate_one]
  · rw [List.count_eq_zero_of_not_mem hc, Function.iterate_zero, id]

theorem Heap.updateEach_id (h : Heap α) {f : α → α} (hf : ∀ x, f x = x) (ptrs : List ℕ) :
    h.updateEach f ptrs = h := by
  have hid : f = id := funext hf
  ext c
  · rw [Heap.updateEach_cells, hid, Function.iterate_id, id]
  · exact Heap.updateEach_next h f ptrs

end PointerCells
