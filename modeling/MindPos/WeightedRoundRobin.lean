import Mathlib

/-! # Smooth weighted round robin

Each round, every participant's priority grows by its weight, and one participant of greatest
priority is chosen and pays the total weight. From zero priorities, a participant of weight `w`
is chosen at most `⌈m·w/T⌉` times in `m` rounds, and exactly `m·w/T` times when the total `T`
divides every `m·w`. Ties may be broken in any way.

The last two sections hold the arithmetic of the two corrections applied between rounds:
dividing every priority by a ceiling ratio brings their spread into a window, and subtracting
the floored mean leaves a sum between zero and the number of participants. -/
namespace WeightedRoundRobin

open Finset

variable {ι : Type*} [Fintype ι] [DecidableEq ι]

def total (w : ι → ℤ) : ℤ := ∑ i, w i

def step (w p : ι → ℤ) (i : ι) : ι → ℤ := fun j => p j + w j - if j = i then total w else 0

/-- `i` has a greatest priority once the weights are added. -/
def IsChoice (w p : ι → ℤ) (i : ι) : Prop := ∀ j, p j + w j ≤ p i + w i

def run (w : ι → ℤ) : (ι → ℤ) → List ι → ι → ℤ
  | p, [] => p
  | p, i :: is => run w (step w p i) is

/-- Every choice of the run is a greatest priority when it is made. -/
def ValidRun (w : ι → ℤ) : (ι → ℤ) → List ι → Prop
  | _, [] => True
  | p, i :: is => IsChoice w p i ∧ ValidRun w (step w p i) is

@[simp] theorem run_nil (w p : ι → ℤ) : run w p [] = p := rfl

@[simp] theorem run_cons (w p : ι → ℤ) (i : ι) (is : List ι) :
    run w p (i :: is) = run w (step w p i) is := rfl

@[simp] theorem validRun_nil (w p : ι → ℤ) : ValidRun w p [] := trivial

@[simp] theorem validRun_cons (w p : ι → ℤ) (i : ι) (is : List ι) :
    ValidRun w p (i :: is) ↔ IsChoice w p i ∧ ValidRun w (step w p i) is := Iff.rfl

variable {w p : ι → ℤ} {i : ι}

/-! ## Rounds keep the sum and move each priority by weight and count -/

theorem sum_step : ∑ j, step w p i j = ∑ j, p j := by
  simp only [step, Finset.sum_sub_distrib, Finset.sum_add_distrib, Finset.sum_ite_eq',
    Finset.mem_univ, if_true, total]
  ring

theorem sum_run (p : ι → ℤ) (is : List ι) : ∑ j, run w p is j = ∑ j, p j := by
  induction is generalizing p with
  | nil => rfl
  | cons i is ih => rw [run_cons, ih, sum_step]

theorem run_apply (p : ι → ℤ) (is : List ι) (j : ι) :
    run w p is j = p j + is.length * w j - total w * is.count j := by
  induction is generalizing p with
  | nil => simp
  | cons i is ih =>
    rw [run_cons, ih, List.count_cons, step]
    by_cases hij : i = j
    · subst hij
      simp only [if_true, beq_self_eq_true, List.length_cons]
      push_cast
      ring
    · simp only [Ne.symm hij, if_false, beq_iff_eq, hij, List.length_cons]
      push_cast
      ring

/-! ## The invariant of runs with positive weights -/

/-- Priorities that do not sum below zero, none of them a whole total below zero. -/
structure Bounded (w p : ι → ℤ) : Prop where
  sum_nonneg : 0 ≤ ∑ j, p j
  gt_neg_total : ∀ j, -total w < p j

section Positive

variable (hw : ∀ j, 0 < w j)
include hw

omit [DecidableEq ι] in
theorem total_pos (i : ι) : 0 < total w :=
  lt_of_lt_of_le (hw i) (Finset.single_le_sum (fun j _ => (hw j).le) (Finset.mem_univ i))

omit [DecidableEq ι] in
theorem chosen_pos (hb : Bounded w p) (hi : IsChoice w p i) : 0 < p i + w i := by
  by_contra hpos
  have hle := not_lt.mp hpos
  have hsum : ∑ j, (p j + w j) ≤ 0 := Finset.sum_nonpos fun j _ => (hi j).trans hle
  have hsplit : ∑ j, (p j + w j) = ∑ j, p j + total w := Finset.sum_add_distrib
  linarith [hb.sum_nonneg, total_pos hw i]

theorem bounded_step (hb : Bounded w p) (hi : IsChoice w p i) : Bounded w (step w p i) := by
  refine ⟨by rw [sum_step]; exact hb.sum_nonneg, fun j => ?_⟩
  simp only [step]
  by_cases hji : j = i
  · subst hji
    simp only [if_true]
    linarith [chosen_pos hw hb hi]
  · simp only [hji, if_false]
    linarith [hb.gt_neg_total j, hw j]

theorem bounded_run {is : List ι} : ∀ {p}, Bounded w p → ValidRun w p is → Bounded w (run w p is) := by
  induction is with
  | nil => intro p hb _; exact hb
  | cons i is ih =>
    intro p hb hv
    rw [validRun_cons] at hv
    exact ih (bounded_step hw hb hv.1) hv.2

omit [DecidableEq ι] in
theorem bounded_zero [Nonempty ι] : Bounded w 0 :=
  ⟨by simp, fun j => by simpa using total_pos hw j⟩

variable {is : List ι} (hv : ValidRun w 0 is)
include hv

theorem count_lt (j : ι) : total w * is.count j < is.length * w j + total w := by
  have : Nonempty ι := ⟨j⟩
  have hgt := (bounded_run hw (bounded_zero hw) hv).gt_neg_total j
  rw [run_apply] at hgt
  simp only [Pi.zero_apply, zero_add] at hgt
  linarith

theorem count_le_ceil (j : ι) : (is.count j : ℤ) ≤ (is.length * w j + total w - 1) / total w := by
  rw [Int.le_ediv_iff_mul_le (total_pos hw j)]
  have := count_lt hw hv j
  rw [Int.lt_iff_add_one_le] at this
  linarith

theorem run_eq_zero_of_dvd (hdvd : ∀ j, total w ∣ is.length * w j) (j : ι) : run w 0 is j = 0 := by
  have hnonneg : ∀ k, 0 ≤ run w 0 is k := by
    intro k
    have : Nonempty ι := ⟨k⟩
    have hT := total_pos hw k
    have hgt := (bounded_run hw (bounded_zero hw) hv).gt_neg_total k
    have hmul : total w ∣ run w 0 is k := by
      rw [run_apply]
      simpa using (hdvd k).sub (dvd_mul_right (total w) (is.count k : ℤ))
    obtain ⟨c, hc⟩ := hmul
    rw [hc] at hgt ⊢
    have hc1 : 0 < c + 1 := pos_of_mul_pos_right (by linarith : 0 < total w * (c + 1)) hT.le
    exact mul_nonneg hT.le (by omega)
  have hsum : ∑ k, run w 0 is k = 0 := by rw [sum_run]; simp
  exact (Finset.sum_eq_zero_iff_of_nonneg fun k _ => hnonneg k).mp hsum j (Finset.mem_univ j)

theorem count_eq_of_dvd (hdvd : ∀ j, total w ∣ is.length * w j) (j : ι) :
    total w * is.count j = is.length * w j := by
  have hzero := run_eq_zero_of_dvd hw hv hdvd j
  rw [run_apply] at hzero
  simp only [Pi.zero_apply, zero_add] at hzero
  linarith

end Positive

/-! ## Rescaling into a window -/

theorem tdiv_sub_tdiv_lt {r x y : ℤ} (hr : 0 < r) (hxy : y ≤ x) :
    r * (x.tdiv r - y.tdiv r) < x - y + r := by
  have hx := Int.tmod_def x r
  have hy := Int.tmod_def y r
  rw [mul_sub]
  rcases le_or_gt 0 x with hx0 | hx0
  · have := Int.tmod_nonneg r hx0
    linarith [Int.tmod_lt_of_pos y hr]
  · have hyle : y.tmod r ≤ 0 := by
      have := Int.tmod_nonneg r (by linarith : 0 ≤ -y)
      rw [Int.neg_tmod] at this
      linarith
    linarith [Int.lt_tmod_of_pos x hr]

theorem tdiv_spread_le {r W d : ℤ} (hr : 0 < r) (hd : d ≤ W * r) {l : List ℤ}
    (hl : ∀ x ∈ l, ∀ y ∈ l, x - y ≤ d) :
    ∀ x ∈ l.map (·.tdiv r), ∀ y ∈ l.map (·.tdiv r), x - y ≤ W := by
  simp only [List.mem_map]
  rintro _ ⟨a, ha, rfl⟩ _ ⟨b, hb, rfl⟩
  have hW : 0 ≤ W := by
    have := hl a ha a ha
    rw [sub_self] at this
    exact nonneg_of_mul_nonneg_left (this.trans hd) hr
  rcases le_or_gt b a with hba | hab
  · have hlt := tdiv_sub_tdiv_lt hr hba
    have hlt' : r * (a.tdiv r - b.tdiv r) < r * (W + 1) := by linarith [hl a ha b hb]
    have := lt_of_mul_lt_mul_left hlt' hr.le
    omega
  · have := Int.tdiv_le_tdiv hr hab.le
    omega

/-! ## Centring by the floored mean -/

theorem sum_map_sub_const (l : List ℤ) (c : ℤ) : (l.map (· - c)).sum = l.sum - l.length * c := by
  induction l with
  | nil => simp
  | cons x l ih =>
    simp only [List.map_cons, List.sum_cons, ih, List.length_cons]
    push_cast
    ring

theorem sum_sub_mean (l : List ℤ) : (l.map (· - l.sum / l.length)).sum = l.sum % l.length := by
  rw [sum_map_sub_const, Int.emod_def]

theorem sum_sub_mean_mem {l : List ℤ} (hl : l ≠ []) :
    0 ≤ (l.map (· - l.sum / l.length)).sum ∧ (l.map (· - l.sum / l.length)).sum < l.length := by
  have hlen : (0 : ℤ) < l.length := by
    have := List.length_pos_of_ne_nil hl
    omega
  rw [sum_sub_mean]
  exact ⟨Int.emod_nonneg _ hlen.ne', Int.emod_lt_of_pos _ hlen⟩

theorem spread_map_sub_const {l : List ℤ} {W : ℤ} (c : ℤ) (hl : ∀ x ∈ l, ∀ y ∈ l, x - y ≤ W) :
    ∀ x ∈ l.map (· - c), ∀ y ∈ l.map (· - c), x - y ≤ W := by
  simp only [List.mem_map]
  rintro _ ⟨a, ha, rfl⟩ _ ⟨b, hb, rfl⟩
  linarith [hl a ha b hb]

/-! ## Lists as vectors -/

theorem sum_getD_of_length {l : List ℤ} {n : ℕ} (hn : l.length = n) :
    ∑ i : Fin n, l.getD i 0 = l.sum := by
  subst hn
  rw [← Fin.sum_univ_getElem]
  exact Finset.sum_congr rfl fun i _ => by simp

end WeightedRoundRobin
