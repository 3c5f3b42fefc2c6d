import Mathlib

/-! # Go's sort.Search and the insertion sort of sort.Sort

`search n f` is the loop of sort.Search. Its bounds keep `f (i - 1) = false` and `f j = true`,
so the result is a place where `f` turns true whether or not `f` is monotone; only for a
monotone `f` is it the first index where `f` holds. `insertionSort` is the sort sort.Sort runs
on at most twelve elements: each element moves left past the elements it is less than, so
elements that are not less than one another keep their order. -/
namespace GoSort

variable {α : Type*}

def searchLoop (f : ℕ → Bool) : ℕ → ℕ → ℕ → ℕ
  | 0, i, _ => i
  | fuel + 1, i, j =>
    if i < j then
      let h := (i + j) / 2
      if !f h then searchLoop f fuel (h + 1) j else searchLoop f fuel i h
    else i

def search (n : ℕ) (f : ℕ → Bool) : ℕ := searchLoop f n 0 n

structure SearchInv (n : ℕ) (f : ℕ → Bool) (i j : ℕ) : Prop where
  le : i ≤ j
  le_n : j ≤ n
  below : 0 < i → f (i - 1) = false
  above : j < n → f j = true

theorem searchInv_init (n : ℕ) (f : ℕ → Bool) : SearchInv n f 0 n :=
  ⟨Nat.zero_le n, le_rfl, by omega, by omega⟩

theorem searchInv_right {n : ℕ} {f : ℕ → Bool} {i j : ℕ} (hinv : SearchInv n f i j)
    (hf : f ((i + j) / 2) = false) (hij : i < j) : SearchInv n f ((i + j) / 2 + 1) j :=
  ⟨by omega, hinv.le_n, fun _ => by simpa using hf, hinv.above⟩

theorem searchInv_left {n : ℕ} {f : ℕ → Bool} {i j : ℕ} (hinv : SearchInv n f i j)
    (hf : f ((i + j) / 2) = true) : SearchInv n f i ((i + j) / 2) := by
  have := hinv.le
  have := hinv.le_n
  exact ⟨by omega, by omega, hinv.below, fun _ => hf⟩

theorem searchLoop_inv {n : ℕ} {f : ℕ → Bool} :
    ∀ (fuel i j : ℕ), SearchInv n f i j → j - i ≤ fuel →
      SearchInv n f (searchLoop f fuel i j) (searchLoop f fuel i j)
  | 0, i, j, hinv, hfuel => by
    obtain rfl : i = j := by have := hinv.le; omega
    exact hinv
  | fuel + 1, i, j, hinv, hfuel => by
    rw [searchLoop]
    by_cases hij : i < j
    · rw [if_pos hij]
      dsimp only
      cases hf : f ((i + j) / 2)
      · rw [Bool.not_false, if_pos rfl]
        exact searchLoop_inv fuel _ _ (searchInv_right hinv hf hij) (by omega)
      · rw [Bool.not_true, if_neg Bool.false_ne_true]
        exact searchLoop_inv fuel _ _ (searchInv_left hinv hf) (by omega)
    · rw [if_neg hij]
      obtain rfl : i = j := by have := hinv.le; omega
      exact hinv

theorem search_spec (n : ℕ) (f : ℕ → Bool) :
    search n f ≤ n ∧ (0 < search n f → f (search n f - 1) = false) ∧
      (search n f < n → f (search n f) = true) := by
  have hinv := searchLoop_inv n 0 n (searchInv_init n f) (by omega)
  exact ⟨hinv.le_n, hinv.below, hinv.above⟩

theorem lt_search_iff {n : ℕ} {f : ℕ → Bool}
    (hmono : ∀ a b, a ≤ b → b < n → f a = true → f b = true) {k : ℕ} (hk : k < n) :
    k < search n f ↔ f k = false := by
  obtain ⟨hle, hbelow, habove⟩ := search_spec n f
  constructor
  · intro hlt
    cases hfk : f k
    · rfl
    · have := hmono k (search n f - 1) (by omega) (by omega) hfk
      rw [hbelow (by omega)] at this
      exact absurd this Bool.false_ne_true
  · intro hfk
    by_contra hge
    have := hmono (search n f) k (by omega) hk (habove (by omega))
    rw [hfk] at this
    exact Bool.false_ne_true this

def bubbleLeft (less : α → α → Bool) (x : α) : List α → List α
  | [] => [x]
  | y :: ys => if less x y then y :: bubbleLeft less x ys else x :: y :: ys

def insertionSort (less : α → α → Bool) (xs : List α) : List α :=
  (xs.foldl (fun acc x => bubbleLeft less x acc) []).reverse

variable {less : α → α → Bool}

theorem bubbleLeft_eq (x : α) (ys : List α) :
    bubbleLeft less x ys = ys.takeWhile (less x ·) ++ x :: ys.dropWhile (less x ·) := by
  induction ys with
  | nil => rfl
  | cons y ys ih =>
    by_cases hxy : less x y = true
    · simp [bubbleLeft, hxy, ih]
    · simp [bubbleLeft, hxy]

theorem insertionSort_append_singleton (xs : List α) (x : α) :
    insertionSort less (xs ++ [x]) = (bubbleLeft less x (insertionSort less xs).reverse).reverse := by
  simp [insertionSort, List.foldl_append]

theorem bubbleLeft_perm (x : α) (ys : List α) : (bubbleLeft less x ys).Perm (x :: ys) := by
  rw [bubbleLeft_eq]
  conv_rhs => rw [← List.takeWhile_append_dropWhile (p := (less x ·)) (l := ys)]
  exact List.perm_middle

theorem insertionSort_perm (xs : List α) : (insertionSort less xs).Perm xs := by
  induction xs using List.reverseRecOn with
  | nil => rfl
  | append_singleton xs x ih =>
    rw [insertionSort_append_singleton]
    have hbubble := (List.reverse_perm _).trans (@bubbleLeft_perm α less x
      (insertionSort less xs).reverse)
    have hsorted : (x :: (insertionSort less xs).reverse).Perm (x :: xs) :=
      ((List.reverse_perm _).trans ih).cons x
    exact (hbubble.trans hsorted).trans (List.perm_append_singleton x xs).symm

theorem insertionSort_of_pairwise {xs : List α} (hs : xs.Pairwise fun a b => less b a = false) :
    insertionSort less xs = xs := by
  induction xs using List.reverseRecOn with
  | nil => rfl
  | append_singleton xs x ih =>
    rw [List.pairwise_append] at hs
    obtain ⟨hxs, -, hlast⟩ := hs
    rw [insertionSort_append_singleton, ih hxs]
    cases hr : xs.reverse with
    | nil =>
      rw [List.reverse_eq_nil_iff] at hr
      subst hr
      rfl
    | cons y ys =>
      have hy : less x y = false := hlast y (List.mem_reverse.mp (hr ▸ List.mem_cons_self)) x
        (List.mem_singleton_self x)
      rw [bubbleLeft, if_neg (by simp [hy]), ← hr]
      simp

theorem insertionSort_append_of_pairwise {xs : List α}
    (hs : xs.Pairwise fun a b => less b a = false) (x : α) :
    insertionSort less (xs ++ [x]) =
      (xs.reverse.dropWhile (less x ·)).reverse ++ x :: (xs.reverse.takeWhile (less x ·)).reverse := by
  rw [insertionSort_append_singleton, insertionSort_of_pairwise hs, bubbleLeft_eq]
  simp

end GoSort
