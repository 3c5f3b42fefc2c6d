import Mathlib

/-! # Stateful computations that may panic

A computation of `StateT σ (Except ε)` either stops with an error, as a panic of the program
does, or completes with a value and a new state. `Keeps R x` says that whenever `x` completes
it has moved the state along `R`. The rules below build that up from the primitive steps, so a
recursive procedure keeps a preorder as soon as each of its steps does, whatever the branches
between them. `Completes x s a P` runs a computation forward: from `s` it completes with `a` in a
state `P` holds of, and its rules chain the steps of a `do` block. -/
namespace StateExcept

universe u

variable {σ ε α β : Type u}

theorem run_bind_ok {x : StateT σ (Except ε) α} {f : α → StateT σ (Except ε) β} {s s'' : σ}
    {b : β} :
    (x >>= f).run s = .ok (b, s'') ↔ ∃ a s', x.run s = .ok (a, s') ∧ (f a).run s' = .ok (b, s'') := by
  rw [StateT.run_bind]
  cases hx : x.run s with
  | error e =>
    constructor
    · intro h
      cases h
    · rintro ⟨a, s', h, -⟩
      cases h
  | ok p =>
    constructor
    · intro h
      exact ⟨p.1, p.2, rfl, h⟩
    · rintro ⟨a, s', h, h'⟩
      cases h
      exact h'

theorem run_bind_of_ok {x : StateT σ (Except ε) α} {f : α → StateT σ (Except ε) β} {s s' : σ}
    {a : α} (hx : x.run s = .ok (a, s')) : (x >>= f).run s = (f a).run s' := by
  rw [StateT.run_bind, hx]
  rfl

/-- Whenever `x` completes, the state it completes in is related to the one it started in. -/
def Keeps (R : σ → σ → Prop) (x : StateT σ (Except ε) α) : Prop :=
  ∀ s a s', x.run s = .ok (a, s') → R s s'

section Rules

variable {R : σ → σ → Prop}

theorem Keeps.pure [IsPreorder σ R] (a : α) : Keeps R (Pure.pure a : StateT σ (Except ε) α) := by
  rintro s _ s' h
  cases h
  exact refl_of R s

theorem Keeps.bind [IsPreorder σ R] {x : StateT σ (Except ε) α} {f : α → StateT σ (Except ε) β}
    (hx : Keeps R x) (hf : ∀ a, Keeps R (f a)) : Keeps R (x >>= f) := by
  intro s b s'' h
  obtain ⟨a, s', h₁, h₂⟩ := run_bind_ok.mp h
  exact trans_of R (hx s a s' h₁) (hf a s' b s'' h₂)

theorem Keeps.get [IsPreorder σ R] : Keeps R (MonadState.get : StateT σ (Except ε) σ) := by
  rintro s _ s' h
  cases h
  exact refl_of R s

theorem Keeps.modifyGet {f : σ → α × σ} (hf : ∀ s, R s (f s).2) :
    Keeps R (MonadStateOf.modifyGet f : StateT σ (Except ε) α) := by
  intro s a s' h
  have hs : (f s).2 = s' := congrArg Prod.snd (Except.ok.inj h)
  exact hs ▸ hf s

theorem Keeps.modify {f : σ → σ} (hf : ∀ s, R s (f s)) :
    Keeps R (modify f : StateT σ (Except ε) PUnit) :=
  Keeps.modifyGet hf

theorem Keeps.map [IsPreorder σ R] {x : StateT σ (Except ε) α} (f : α → β) (hx : Keeps R x) :
    Keeps R (f <$> x) := by
  intro s b s' h
  rw [StateT.run_map] at h
  cases hx' : x.run s with
  | error e => rw [hx'] at h; cases h
  | ok p =>
    rw [hx'] at h
    cases h
    exact hx s p.1 p.2 hx'

theorem Keeps.throw (e : ε) : Keeps R (MonadExcept.throw e : StateT σ (Except ε) α) := by
  rintro s _ s' h
  cases h

theorem Keeps.lift [IsPreorder σ R] (x : Except ε α) : Keeps R (liftM x : StateT σ (Except ε) α) := by
  rintro s a s' h
  cases x with
  | error e => cases h
  | ok b => cases h; exact refl_of R s

theorem Keeps.mono {S : σ → σ → Prop} {x : StateT σ (Except ε) α} (hRS : ∀ s s', R s s' → S s s')
    (hx : Keeps R x) : Keeps S x :=
  fun s a s' h => hRS s s' (hx s a s' h)

end Rules

/-! ## Completed runs -/

/-- `x` run from `s` completes with the value `a`, in a state `P` holds of. -/
def Completes (x : StateT σ (Except ε) α) (s : σ) (a : α) (P : σ → Prop) : Prop :=
  ∃ s', x.run s = .ok (a, s') ∧ P s'

namespace Completes

variable {x : StateT σ (Except ε) α} {f : α → StateT σ (Except ε) β} {s : σ} {a : α} {b : β}
  {P Q : σ → Prop}

theorem pure (hs : P s) : Completes (Pure.pure a : StateT σ (Except ε) α) s a P := ⟨s, rfl, hs⟩

theorem bind (hx : Completes x s a P) (hf : ∀ s', P s' → Completes (f a) s' b Q) :
    Completes (x >>= f) s b Q := by
  obtain ⟨s', hrun, hs'⟩ := hx
  obtain ⟨s'', hrun', hs''⟩ := hf s' hs'
  exact ⟨s'', (run_bind_of_ok hrun).trans hrun', hs''⟩

theorem mono (hx : Completes x s a P) (hPQ : ∀ s', P s' → Q s') : Completes x s a Q := by
  obtain ⟨s', hrun, hs'⟩ := hx
  exact ⟨s', hrun, hPQ s' hs'⟩

theorem map (g : α → β) (hx : Completes x s a P) : Completes (g <$> x) s (g a) P := by
  obtain ⟨s', hrun, hs'⟩ := hx
  refine ⟨s', ?_, hs'⟩
  rw [StateT.run_map, hrun]
  rfl

theorem bind_exists {R : β → σ → Prop} (hx : Completes x s a P)
    (hf : ∀ s', P s' → ∃ b, Completes (f a) s' b (R b)) : ∃ b, Completes (x >>= f) s b (R b) := by
  obtain ⟨s', hrun, hs'⟩ := hx
  obtain ⟨b, hb⟩ := hf s' hs'
  exact ⟨b, Completes.bind (P := (· = s')) ⟨s', hrun, rfl⟩ fun s'' h => h ▸ hb⟩

theorem bind_exists_fst {γ δ : Type u} {f : α → StateT σ (Except ε) (γ × δ)} {d : δ}
    {Q : σ → Prop} (hx : Completes x s a P) (hf : ∀ s', P s' → ∃ c, Completes (f a) s' (c, d) Q) :
    ∃ c, Completes (x >>= f) s (c, d) Q := by
  obtain ⟨s', hrun, hs'⟩ := hx
  obtain ⟨c, hc⟩ := hf s' hs'
  exact ⟨c, Completes.bind (P := (· = s')) ⟨s', hrun, rfl⟩ fun _ h => h ▸ hc⟩

theorem foldlM {γ : Type u} {δ : Type*} {f : α → γ → StateT σ (Except ε) α} {g : δ → γ → δ}
    {I : δ → α → σ → Prop} (hstep : ∀ d a s x, I d a s → ∃ a', Completes (f a x) s a' (I (g d x) a'))
    (xs : List γ) {d : δ} {a : α} {s : σ} (h : I d a s) :
    ∃ a', Completes (xs.foldlM f a) s a' (I (xs.foldl g d) a') := by
  induction xs generalizing d a s with
  | nil => exact ⟨a, .pure h⟩
  | cons x xs ih =>
    obtain ⟨a₁, hx⟩ := hstep d a s x h
    rw [List.foldlM_cons, List.foldl_cons]
    exact hx.bind_exists fun s₁ h₁ => ih h₁

theorem exists_bind {R : β → σ → Prop} (hx : ∃ a, Completes x s a P)
    (hf : ∀ a s', P s' → ∃ b, Completes (f a) s' b (R b)) : ∃ b, Completes (x >>= f) s b (R b) := by
  obtain ⟨a, hx⟩ := hx
  exact hx.bind_exists (hf a)

theorem mapM {γ : Type*} {g : γ → StateT σ (Except ε) β} {I : σ → Prop} :
    ∀ (xs : List γ), (∀ x ∈ xs, ∀ s, I s → ∃ b, Completes (g x) s b I) →
      ∀ s, I s → ∃ bs, Completes (xs.mapM g) s bs I := by
  intro xs
  induction xs with
  | nil => exact fun _ s hs => ⟨[], .pure hs⟩
  | cons x xs ih =>
    intro hg s hs
    obtain ⟨b, hb⟩ := hg x List.mem_cons_self s hs
    obtain ⟨s₁, hrun₁, hs₁⟩ := hb
    obtain ⟨bs, hbs⟩ := ih (fun y hy => hg y (List.mem_cons_of_mem _ hy)) s₁ hs₁
    rw [List.mapM_cons]
    exact ⟨b :: bs, Completes.bind (P := (· = s₁)) ⟨s₁, hrun₁, rfl⟩ fun _ h => h ▸
      hbs.bind fun _ h' => .pure h'⟩

theorem mapM_forall₂ {γ : Type*} {g : γ → StateT σ (Except ε) β} {R : γ → β → Prop}
    {I : List γ → σ → Prop} :
    ∀ (xs done : List γ), (∀ x ∈ xs, ∀ ys s, I ys s → ∃ b, R x b ∧ Completes (g x) s b (I (ys ++ [x]))) →
      ∀ s, I done s → ∃ bs, List.Forall₂ R xs bs ∧ Completes (xs.mapM g) s bs (I (done ++ xs)) := by
  intro xs
  induction xs with
  | nil =>
    intro done _ s hs
    rw [List.append_nil]
    exact ⟨[], .nil, .pure hs⟩
  | cons x xs ih =>
    intro done hg s hs
    obtain ⟨b, hb, s₁, hrun₁, hs₁⟩ := hg x List.mem_cons_self done s hs
    obtain ⟨bs, hbs, hrun⟩ := ih (done ++ [x]) (fun y hy => hg y (List.mem_cons_of_mem _ hy)) s₁ hs₁
    rw [List.append_assoc, List.singleton_append] at hrun
    rw [List.mapM_cons]
    exact ⟨b :: bs, .cons hb hbs, Completes.bind (P := (· = s₁)) ⟨s₁, hrun₁, rfl⟩ fun _ h => h ▸
      hrun.bind fun _ h' => .pure h'⟩

theorem mapM_eq {γ : Type*} {g : γ → StateT σ (Except ε) β} {R : γ → β → Prop}
    {I : List γ → σ → Prop} {xs : List γ} (done : List γ) (bs : List β)
    (hg : ∀ x ∈ xs, ∀ ys s, I ys s → ∃ b, R x b ∧ Completes (g x) s b (I (ys ++ [x])))
    (hbs : ∀ bs', List.Forall₂ R xs bs' → bs' = bs) (hs : I done s) :
    Completes (xs.mapM g) s bs (I (done ++ xs)) := by
  obtain ⟨bs', hR, hrun⟩ := mapM_forall₂ xs done hg s hs
  exact hbs bs' hR ▸ hrun

theorem tryCatch (hx : Completes x s a P) (handle : ε → StateT σ (Except ε) α) :
    Completes (tryCatch x handle) s a P := by
  obtain ⟨s', hrun, hs'⟩ := hx
  refine ⟨s', ?_, hs'⟩
  simp only [StateT.run] at hrun ⊢
  simp only [MonadExcept.tryCatch, tryCatchThe, MonadExceptOf.tryCatch, hrun]
  rfl

theorem run'_eq (hx : Completes x s a P) : x.run' s = .ok a := by
  obtain ⟨s', hrun, -⟩ := hx
  rw [StateT.run'_eq, hrun]
  rfl

end Completes

end StateExcept
