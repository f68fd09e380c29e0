import Mathlib.Data.List.Basic

/-!
# Outcomes of computations that may fail

When a computation in `Except` succeeds, the state that a computation in `EStateM` leaves, and what
such a computation cannot tell apart.
-/

/-- The outcome of a computation that answers `r` and leaves a state. -/
def Except.leaving {ε σ α : Type} (r : Except ε α) (s : σ) : EStateM.Result ε σ α :=
  match r with
  | .ok a => .ok a s
  | .error e => .error e s

theorem Except.eq_of_leaving {ε σ α : Type} {r r' : Except ε α} {s s' : σ}
    (h : r.leaving s = r'.leaving s') : r = r' := by
  cases r <;> cases r' <;> cases h <;> rfl

namespace Option

variable {α β : Type} {f : α → Option β} {l : List α} {r : List β}

theorem mapM_eq_some_iff : l.mapM f = some r ↔ List.Forall₂ (fun a b => f a = some b) l r := by
  induction l generalizing r with
  | nil =>
    rw [List.mapM_nil]
    exact ⟨fun h => Option.some.inj h ▸ .nil, fun h => by cases h; rfl⟩
  | cons a l ih =>
    rw [List.mapM_cons]
    constructor
    · intro h
      obtain ⟨b, hb, h⟩ := Option.bind_eq_some_iff.mp h
      obtain ⟨s, hs, h⟩ := Option.bind_eq_some_iff.mp h
      cases h
      exact .cons hb (ih.mp hs)
    · rintro (_ | ⟨hb, hs⟩)
      exact Option.bind_eq_some_iff.mpr ⟨_, hb, Option.bind_eq_some_iff.mpr ⟨_, ih.mpr hs, rfl⟩⟩

theorem exists_of_mem_mapM {b : β} (h : l.mapM f = some r) (hb : b ∈ r) :
    ∃ a ∈ l, f a = some b := by
  rw [mapM_eq_some_iff] at h
  induction h with
  | nil => cases hb
  | cons ha _ ih =>
    rcases List.mem_cons.mp hb with rfl | hb
    · exact ⟨_, List.mem_cons_self, ha⟩
    · obtain ⟨a, hmem, ha⟩ := ih hb
      exact ⟨a, List.mem_cons_of_mem _ hmem, ha⟩

theorem exists_of_mapM_eq_some (h : l.mapM f = some r) {a : α} (ha : a ∈ l) :
    ∃ b, f a = some b := by
  rw [mapM_eq_some_iff] at h
  induction h with
  | nil => cases ha
  | cons hb _ ih =>
    rcases List.mem_cons.mp ha with rfl | ha
    · exact ⟨_, hb⟩
    · exact ih ha

/-- What every step of a loop keeps, the loop keeps. -/
theorem foldlM_keeps {σ : Type} {f : σ → α → Option σ} {P : σ → Prop} {s s' : σ}
    (step : ∀ a ∈ l, ∀ s s', P s → f s a = some s' → P s') (start : P s)
    (h : l.foldlM f s = some s') : P s' := by
  induction l generalizing s with
  | nil => exact Option.some.inj h ▸ start
  | cons a l ih =>
    rw [List.foldlM_cons] at h
    obtain ⟨t, ht, h⟩ := Option.bind_eq_some_iff.mp h
    rw [List.forall_mem_cons] at step
    exact ih step.2 (step.1 s t start ht) h

end Option

namespace EStateM

variable {ε σ α β : Type} {s : σ} {P : σ → Prop}

/-- The answer of a computation, whatever state it leaves. -/
def answer (x : EStateM ε σ α) (s : σ) : Except ε α :=
  match x s with
  | .ok a _ => .ok a
  | .error e _ => .error e

theorem answer_of_leaving {x : EStateM ε σ α} {r : Except ε α} {s' : σ} (h : x s = r.leaving s') :
    x.answer s = r := by
  rw [answer, h]
  cases r <;> rfl

theorem answer_eq_ok_iff {x : EStateM ε σ α} {a : α} :
    x.answer s = .ok a ↔ ∃ s', x s = .ok a s' := by
  rw [answer]
  cases x s <;> simp

/-- The state that a computation leaves, whether it succeeds or not. -/
def after (x : EStateM ε σ α) (s : σ) : σ :=
  match x s with
  | .ok _ s' => s'
  | .error _ s' => s'

theorem after_of_ok {x : EStateM ε σ α} {a : α} {s' : σ} (h : x s = .ok a s') : x.after s = s' := by
  rw [after, h]

theorem bind_of_ok {x : EStateM ε σ α} {f : α → EStateM ε σ β} {a : α} {s' : σ}
    (h : x s = .ok a s') : (x >>= f) s = f a s' := by
  simp only [bind, EStateM.bind, h]

theorem bind_of_error {x : EStateM ε σ α} {f : α → EStateM ε σ β} {e : ε} {s' : σ}
    (h : x s = .error e s') : (x >>= f) s = .error e s' := by
  simp only [bind, EStateM.bind, h]

theorem bind_eq_ok_iff {x : EStateM ε σ α} {f : α → EStateM ε σ β} {b : β} {s'' : σ} :
    (x >>= f) s = .ok b s'' ↔ ∃ a s', x s = .ok a s' ∧ f a s' = .ok b s'' := by
  simp only [bind, EStateM.bind]
  cases x s <;> simp

/-- What the first step leaves counts when it fails, else what the second one leaves. -/
theorem after_bind {x : EStateM ε σ α} {f : α → EStateM ε σ β} (hx : P (x.after s))
    (hf : ∀ a s', x s = .ok a s' → P ((f a).after s')) : P ((x >>= f).after s) := by
  cases h : x s with
  | ok a s' =>
    rw [after, bind_of_ok h]
    exact hf a s' h
  | error e s' =>
    rw [after, h] at hx
    rw [after, bind_of_error h]
    exact hx

theorem after_bind_of_ok {x : EStateM ε σ α} {f : α → EStateM ε σ β} {a : α} {s' : σ}
    (h : x s = .ok a s') : (x >>= f).after s = (f a).after s' := by
  rw [after, bind_of_ok h, after]

theorem after_bind_of_error {x : EStateM ε σ α} {f : α → EStateM ε σ β} {e : ε} {s' : σ}
    (h : x s = .error e s') : (x >>= f).after s = s' := by
  rw [after, bind_of_error h]

/-- What holds after the first step, and is kept by the second one. -/
theorem after_bind_keeps {x : EStateM ε σ α} {f : α → EStateM ε σ β} (hx : P (x.after s))
    (hf : ∀ a s', P s' → P ((f a).after s')) : P ((x >>= f).after s) :=
  after_bind hx fun a s' h => hf a s' (after_of_ok h ▸ hx)

theorem after_bind_pure (x : EStateM ε σ α) (f : α → β) :
    (x >>= fun a => pure (f a)).after s = x.after s := by
  simp only [after, bind, EStateM.bind]
  cases x s <;> rfl

theorem after_map (x : EStateM ε σ α) (f : α → β) : (f <$> x).after s = x.after s := by
  simp only [after, Functor.map, EStateM.map]
  cases x s <;> rfl

/-- What every step of a loop keeps, whether it fails or not, the loop keeps. -/
theorem after_forM {f : α → EStateM ε σ PUnit} (step : ∀ a s, P s → P ((f a).after s))
    (l : List α) (h : P s) : P ((l.forM f).after s) := by
  induction l generalizing s with
  | nil => exact h
  | cons a l ih => exact after_bind_keeps (step a s h) fun _ _ hs => ih hs

/-- A loop without failures, with an invariant that knows what is still to be done. -/
theorem forM_of_ok {f : α → EStateM ε σ PUnit} {P : List α → σ → Prop} {l : List α} {s : σ}
    (step : ∀ a rest s, P (a :: rest) s → ∃ s', f a s = .ok ⟨⟩ s' ∧ P rest s') (start : P l s) :
    ∃ s', l.forM f s = .ok ⟨⟩ s' ∧ P [] s' := by
  induction l generalizing s with
  | nil => exact ⟨s, rfl, start⟩
  | cons a l ih =>
    obtain ⟨s', h, hs'⟩ := step a l s start
    obtain ⟨s'', h', hs''⟩ := ih hs'
    exact ⟨s'', (bind_of_ok h).trans h', hs''⟩

/-- The results are the same, up to states that are related. -/
inductive Like (R : σ → σ → Prop) : Result ε σ α → Result ε σ α → Prop where
  | ok (a : α) {s s' : σ} (related : R s s') : Like R (.ok a s) (.ok a s')
  | error (e : ε) {s s' : σ} (related : R s s') : Like R (.error e s) (.error e s')

/-- Related states lead to like results. -/
def Blind (R : σ → σ → Prop) (x : EStateM ε σ α) : Prop := ∀ s s', R s s' → Like R (x s) (x s')

namespace Blind

variable {R : σ → σ → Prop} {x : EStateM ε σ α} {f : α → EStateM ε σ β}

theorem pure (a : α) : Blind R (Pure.pure a : EStateM ε σ α) := fun _ _ g => .ok a g

theorem throw (e : ε) : Blind R (throw e : EStateM ε σ α) := fun _ _ g => .error e g

theorem bind (hx : Blind R x) (hf : ∀ a, Blind R (f a)) : Blind R (x >>= f) := by
  intro s s' g
  have first := hx s s' g
  generalize hr : x s = r, hr' : x s' = r' at first
  cases first with
  | ok a g' =>
    rw [bind_of_ok hr, bind_of_ok hr']
    exact hf a _ _ g'
  | error e g' =>
    rw [bind_of_error hr, bind_of_error hr']
    exact .error e g'

theorem modify {f : σ → σ} (hf : ∀ s s', R s s' → R (f s) (f s')) :
    Blind R (modify f : EStateM ε σ PUnit) := fun s s' g => .ok () (hf s s' g)

/-- Only what is the same in related states is read. -/
theorem get_bind {f : σ → EStateM ε σ β} (same : ∀ s s', R s s' → f s = f s')
    (hf : ∀ s, Blind R (f s)) : Blind R (get >>= f) := by
  intro s s' g
  rw [bind_of_ok (x := get) rfl, bind_of_ok (x := get) rfl, same s s' g]
  exact hf s' s s' g

theorem forM {f : α → EStateM ε σ PUnit} (hf : ∀ a, Blind R (f a)) (l : List α) :
    Blind R (l.forM f) := by
  induction l with
  | nil => exact pure PUnit.unit
  | cons a l ih => exact bind (hf a) fun _ => ih

end Blind

end EStateM

namespace AnnotatedCircuit

variable {ε α β : Type}

namespace Checked

theorem bind_eq_ok_iff {x : Except ε α} {f : α → Except ε β} {b : β} :
    (x >>= f) = .ok b ↔ ∃ a, x = .ok a ∧ f a = .ok b := by
  cases x <;> simp [bind, Except.bind]

theorem seq_eq_ok_iff {x : Except ε PUnit} {y : Except ε β} {b : β} :
    (x >>= fun _ => y) = .ok b ↔ x = .ok () ∧ y = .ok b := by
  cases x <;> simp [bind, Except.bind]

@[simp] theorem pure_eq_ok_iff {a b : α} : (pure a : Except ε α) = .ok b ↔ a = b := by
  simp [pure, Except.pure]

theorem forM_eq_ok_iff {f : α → Except ε PUnit} {l : List α} :
    forM l f = .ok () ↔ ∀ a ∈ l, f a = .ok () := by
  induction l with
  | nil => simp
  | cons a l ih =>
    rw [List.forM_cons, seq_eq_ok_iff, List.forall_mem_cons, ih]

theorem mapM_eq_ok_iff {f : α → Except ε β} {l : List α} {r : List β} :
    l.mapM f = .ok r ↔ List.Forall₂ (fun a b => f a = .ok b) l r := by
  induction l generalizing r with
  | nil =>
    rw [List.mapM_nil, pure_eq_ok_iff]
    exact ⟨fun h => h ▸ .nil, fun h => by cases h; rfl⟩
  | cons a l ih =>
    simp only [List.mapM_cons, bind_eq_ok_iff, ih, pure_eq_ok_iff]
    constructor
    · rintro ⟨b, hb, s, hs, rfl⟩
      exact .cons hb hs
    · rintro (_ | ⟨hb, hs⟩)
      exact ⟨_, hb, _, hs, rfl⟩

theorem exists_of_mem_mapM {f : α → Except ε β} {l : List α} {r : List β} {b : β}
    (h : l.mapM f = .ok r) (hb : b ∈ r) : ∃ a ∈ l, f a = .ok b := by
  rw [mapM_eq_ok_iff] at h
  induction h with
  | nil => cases hb
  | cons ha _ ih =>
    rcases List.mem_cons.mp hb with rfl | hb
    · exact ⟨_, List.mem_cons_self, ha⟩
    · obtain ⟨a, hmem, ha⟩ := ih hb
      exact ⟨a, List.mem_cons_of_mem _ hmem, ha⟩

/-- When the results are known beforehand, only failures are left to be ruled out. -/
theorem filterMapM_eq_ok_iff {f : α → Except ε (Option β)} {g : α → Option β} {l : List α}
    {r : List β} (known : ∀ a b, f a = .ok b → b = g a) :
    l.filterMapM f = .ok r ↔ (∀ a ∈ l, ∃ b, f a = .ok b) ∧ r = l.filterMap g := by
  induction l generalizing r with
  | nil =>
    rw [List.filterMapM_nil, pure_eq_ok_iff]
    simp [eq_comm]
  | cons a l ih =>
    rw [List.filterMapM_cons, bind_eq_ok_iff, List.forall_mem_cons, and_assoc]
    constructor
    · rintro ⟨b, hb, hr⟩
      obtain rfl := known a b hb
      refine ⟨⟨_, hb⟩, ?_⟩
      cases hg : g a with
      | none =>
        rw [hg] at hr
        rw [List.filterMap_cons_none hg]
        exact ih.mp hr
      | some c =>
        rw [hg] at hr
        obtain ⟨s, hs, e⟩ := bind_eq_ok_iff.mp hr
        obtain ⟨hl, rfl⟩ := ih.mp hs
        rw [List.filterMap_cons_some hg]
        exact ⟨hl, (pure_eq_ok_iff.mp e).symm⟩
    · rintro ⟨⟨b, hb⟩, hl, rfl⟩
      obtain rfl := known a b hb
      refine ⟨_, hb, ?_⟩
      cases hg : g a with
      | none =>
        rw [List.filterMap_cons_none hg]
        exact ih.mpr ⟨hl, rfl⟩
      | some c =>
        rw [List.filterMap_cons_some hg]
        exact bind_eq_ok_iff.mpr ⟨_, ih.mpr ⟨hl, rfl⟩, rfl⟩

theorem exists_mapM_eq_ok {f : α → Except ε β} {l : List α} (h : ∀ a ∈ l, ∃ b, f a = .ok b) :
    ∃ r, l.mapM f = .ok r := by
  simp only [mapM_eq_ok_iff]
  induction l with
  | nil => exact ⟨[], .nil⟩
  | cons a l ih =>
    obtain ⟨⟨b, hb⟩, h⟩ := List.forall_mem_cons.mp h
    obtain ⟨r, hr⟩ := ih h
    exact ⟨b :: r, .cons hb hr⟩

end Checked

end AnnotatedCircuit
