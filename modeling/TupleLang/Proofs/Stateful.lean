import Mathlib.Data.List.Forall2
import TupleLang.Error

/-!
# Computations with a state that may fail

The interpreter, the type checker and the stages of the compiler are all computations in
`StateT σ (Except ε)`.  A proof about one of them follows it step by step: `Stateful.bind_eq_ok`
takes a sequence that succeeded apart, and `Stateful.bind_of_ok` runs the first step of a sequence.
The lemmas about `Except` do the same for computations without a state, and `Except.FailsWith` says
with what they may fail.
-/

namespace TupleLang

namespace Stateful

variable {σ ε α β : Type}

/-- Returning a value succeeds with that value and leaves the state as it is. -/
theorem pure_eq_ok {a b : α} {s s' : σ} :
    (pure a : StateT σ (Except ε) α) s = .ok (b, s') ↔ a = b ∧ s = s' := by
  constructor
  · intro h
    cases h
    exact ⟨rfl, rfl⟩
  · rintro ⟨rfl, rfl⟩
    rfl

/-- A sequence of two computations succeeds exactly when both do, one after the other. -/
theorem bind_eq_ok {x : StateT σ (Except ε) α} {f : α → StateT σ (Except ε) β} {s : σ}
    {r : β × σ} : (x >>= f) s = .ok r ↔ ∃ a s₁, x s = .ok (a, s₁) ∧ f a s₁ = .ok r := by
  change (x s >>= fun p => f p.1 p.2) = .ok r ↔ _
  cases x s with
  | error error => simp [bind, Except.bind]
  | ok p => exact ⟨fun h => ⟨p.1, p.2, rfl, h⟩, fun ⟨a, s₁, ha, h⟩ => by cases ha; exact h⟩

/-- The first computation of a sequence, once it has succeeded, only leaves its value and state. -/
theorem bind_of_ok {x : StateT σ (Except ε) α} {f : α → StateT σ (Except ε) β} {s s₁ : σ} {a : α}
    (h : x s = .ok (a, s₁)) : (x >>= f) s = f a s₁ := by
  change (x s >>= fun p => f p.1 p.2) = f a s₁
  rw [h]
  rfl

/-- A step, and a value made of what it gives. -/
theorem bind_pure_eq_ok {x : StateT σ (Except ε) α} {f : α → β} {s s' : σ} {b : β} :
    (x >>= fun a => pure (f a)) s = .ok (b, s') ↔ ∃ a, x s = .ok (a, s') ∧ f a = b := by
  rw [bind_eq_ok]
  constructor
  · rintro ⟨a, s₁, ha, h⟩
    cases h
    exact ⟨a, ha, rfl⟩
  · rintro ⟨a, ha, rfl⟩
    exact ⟨a, s', ha, rfl⟩

/-- Two steps, and a value made of what they give. -/
theorem bind₂_eq_ok {γ : Type} {x : StateT σ (Except ε) α}
    {y : α → StateT σ (Except ε) β} {f : α → β → γ} {s s' : σ} {c : γ} :
    (x >>= fun a => y a >>= fun b => pure (f a b)) s = .ok (c, s') ↔
      ∃ a s₁ b, x s = .ok (a, s₁) ∧ y a s₁ = .ok (b, s') ∧ f a b = c := by
  rw [bind_eq_ok]
  constructor
  · rintro ⟨a, s₁, ha, h⟩
    obtain ⟨b, hb, rfl⟩ := bind_pure_eq_ok.mp h
    exact ⟨a, s₁, b, ha, hb, rfl⟩
  · rintro ⟨a, s₁, b, ha, hb, rfl⟩
    exact ⟨a, s₁, ha, bind_pure_eq_ok.mpr ⟨b, hb, rfl⟩⟩

/-- If a computation succeeds for each member of a list, in every state, so does the list of
them. -/
theorem exists_mapM {f : α → StateT σ (Except ε) β} {p : β → Prop} {as : List α}
    (h : ∀ a ∈ as, ∀ s, ∃ b s', f a s = .ok (b, s') ∧ p b) (s : σ) :
    ∃ bs s', as.mapM f s = .ok (bs, s') ∧ ∀ b ∈ bs, p b := by
  induction as generalizing s with
  | nil => exact ⟨[], s, rfl, List.forall_mem_nil _⟩
  | cons a as ih =>
    obtain ⟨ha, has⟩ := List.forall_mem_cons.mp h
    obtain ⟨b, s₁, hb, hp⟩ := ha s
    obtain ⟨bs, s₂, hbs, hps⟩ := ih has s₁
    refine ⟨b :: bs, s₂, ?_, List.forall_mem_cons.mpr ⟨hp, hps⟩⟩
    rw [List.mapM_cons, bind_of_ok hb, bind_of_ok hbs]
    rfl

/-- What a list of computations gives, one by one. -/
theorem forall₂_of_mapM {f : α → StateT σ (Except ε) β} {as : List α} {bs : List β} {s s' : σ}
    (h : as.mapM f s = .ok (bs, s')) :
    List.Forall₂ (fun a b => ∃ s s', f a s = .ok (b, s')) as bs := by
  induction as generalizing bs s with
  | nil =>
    cases h
    exact .nil
  | cons a as ih =>
    rw [List.mapM_cons, bind₂_eq_ok] at h
    obtain ⟨b, s₁, rest, hb, hrest, rfl⟩ := h
    exact .cons ⟨_, _, hb⟩ (ih hrest)

/-- What holds of everything that the computations give holds of the members of the result. -/
theorem forall_mem_of_mapM {f : α → StateT σ (Except ε) β} {p : β → Prop} {as : List α}
    (hp : ∀ a ∈ as, ∀ s b s', f a s = .ok (b, s') → p b) {bs : List β} {s s' : σ}
    (h : as.mapM f s = .ok (bs, s')) : ∀ b ∈ bs, p b := by
  induction as generalizing bs s with
  | nil =>
    cases h
    exact List.forall_mem_nil _
  | cons a as ih =>
    obtain ⟨ha, has⟩ := List.forall_mem_cons.mp hp
    rw [List.mapM_cons, bind₂_eq_ok] at h
    obtain ⟨b, s₁, rest, hb, hrest, rfl⟩ := h
    exact List.forall_mem_cons.mpr ⟨ha _ _ _ hb, ih has hrest⟩

/-- Computations that give images of what others give do so for lists as well. -/
theorem mapM_map {γ : Type} {f : α → StateT σ (Except ε) β} {g : α → StateT σ (Except ε) γ}
    {r : β → γ} {as : List α}
    (hr : ∀ a ∈ as, ∀ s b s', f a s = .ok (b, s') → g a s = .ok (r b, s')) {bs : List β}
    {s s' : σ} (h : as.mapM f s = .ok (bs, s')) : as.mapM g s = .ok (bs.map r, s') := by
  induction as generalizing bs s with
  | nil =>
    cases h
    rfl
  | cons a as ih =>
    obtain ⟨ha, has⟩ := List.forall_mem_cons.mp hr
    rw [List.mapM_cons, bind₂_eq_ok] at h
    obtain ⟨b, s₁, rest, hb, hrest, rfl⟩ := h
    rw [List.mapM_cons, bind_of_ok (ha _ _ _ hb), bind_of_ok (ih has hrest)]
    rfl

/-- Looking at the state always succeeds. -/
theorem get_eq_ok (s : σ) : (get : StateT σ (Except ε) σ) s = .ok (s, s) :=
  rfl

/-- Changing the state always succeeds. -/
theorem modify_eq_ok (f : σ → σ) (s : σ) :
    (modify f : StateT σ (Except ε) Unit) s = .ok ((), f s) :=
  rfl

/-- A computation without a state succeeds exactly when it does so beside one. -/
theorem liftM_eq_ok {x : Except ε α} {s : σ} {r : α × σ} :
    (liftM x : StateT σ (Except ε) α) s = .ok r ↔ x = .ok r.1 ∧ r.2 = s := by
  cases x with
  | error error => exact ⟨nofun, nofun⟩
  | ok a =>
    refine ⟨fun h => ?_, fun ⟨ha, hs⟩ => ?_⟩
    · cases h
      exact ⟨rfl, rfl⟩
    · cases ha
      rw [← hs]
      rfl

/-- A computation without a state that succeeds leaves the state as it is. -/
theorem liftM_of_ok {x : Except ε α} {a : α} (h : x = .ok a) (s : σ) :
    (liftM x : StateT σ (Except ε) α) s = .ok (a, s) :=
  liftM_eq_ok.mpr ⟨h, rfl⟩

end Stateful

variable {ε α β : Type}

/-- A sequence of two computations succeeds exactly when both do, one after the other. -/
theorem Except.bind_eq_ok {x : Except ε α} {f : α → Except ε β} {r : β} :
    (x >>= f) = .ok r ↔ ∃ a, x = .ok a ∧ f a = .ok r := by
  cases x with
  | error error => exact ⟨nofun, nofun⟩
  | ok a => exact ⟨fun h => ⟨a, rfl, h⟩, fun ⟨b, hb, h⟩ => by cases hb; exact h⟩

/-- What succeeds has a result. -/
theorem Except.toOption_eq_some {x : Except ε α} {a : α} : x.toOption = some a ↔ x = .ok a := by
  constructor
  · intro h
    cases x with
    | error error => cases h
    | ok b => cases h; rfl
  · rintro rfl
    rfl

/-- If the value of a computation passes a test, the computation succeeds. -/
theorem Except.exists_ok_of_any {x : Except ε α} {p : α → Bool} (h : x.toOption.any p = true) :
    ∃ a, x = .ok a ∧ p a = true := by
  obtain ⟨a, ha, hp⟩ := (Option.any_eq_true _ _).mp h
  exact ⟨a, Except.toOption_eq_some.mp ha, hp⟩

theorem Except.exists_ok_of_isSome {x : Except ε α} (h : x.toOption.isSome = true) :
    ∃ a, x = .ok a := by
  obtain ⟨a, ha⟩ := Option.isSome_iff_exists.mp h
  exact ⟨a, Except.toOption_eq_some.mp ha⟩

/-- A computation without a state that fails only with errors of which `p` holds. -/
def Except.FailsWith {ε α : Type} (p : ε → Prop) (x : Except ε α) : Prop :=
  ∀ error, x = .error error → p error

namespace Except.FailsWith

variable {ε α β : Type} {p : ε → Prop}

theorem ok (a : α) : FailsWith p (.ok a) := by
  intro error h
  cases h

theorem error {reason : ε} (h : p reason) : FailsWith p (.error reason : Except ε α) := by
  intro error herror
  cases herror
  exact h

/-- Errors of two steps are errors of one of them. -/
theorem bind {x : Except ε α} {f : α → Except ε β} (hx : FailsWith p x)
    (hf : ∀ a, FailsWith p (f a)) : FailsWith p (x >>= f) := by
  rcases x with reason | a
  · exact .error (hx reason rfl)
  · exact hf a

/-- Errors of a loop are errors of one of its turns. -/
theorem foldlM {f : β → α → Except ε β} (hf : ∀ b a, FailsWith p (f b a)) (as : List α) (b : β) :
    FailsWith p (as.foldlM f b) := by
  induction as generalizing b with
  | nil => exact .ok b
  | cons a as ih =>
    rw [List.foldlM_cons]
    exact (hf b a).bind ih

end Except.FailsWith

/-- Taking a name always succeeds. -/
theorem Lowering.fresh_eq_ok (base : String) (supply : NameSupply) :
    Lowering.fresh base supply =
      .ok (NameSupply.nameAt base (supply.issued + 1), ⟨supply.issued + 1⟩) :=
  rfl

/-! ## Stages that take names -/

/-- A stage that never gives names back to the supply. -/
def Lowering.Grows {α : Type} (stage : Lowering α) : Prop :=
  ∀ s a s', stage s = .ok (a, s') → s.issued ≤ s'.issued

namespace Lowering.Grows

variable {α β : Type}

theorem pure (a : α) : Lowering.Grows (Pure.pure a) := by
  intro s b s' h
  cases h
  exact Nat.le_refl _

/-- Names taken by two steps. -/
theorem bind {x : Lowering α} {f : α → Lowering β} (hx : Lowering.Grows x)
    (hf : ∀ a, Lowering.Grows (f a)) : Lowering.Grows (x >>= f) := by
  intro s b s' h
  obtain ⟨a, s₁, ha, hb⟩ := Stateful.bind_eq_ok.mp h
  exact Nat.le_trans (hx _ _ _ ha) (hf a _ _ _ hb)

/-- A new name takes one. -/
theorem fresh (base : String) : Lowering.Grows (Lowering.fresh base) := by
  intro s a s' h
  rw [fresh_eq_ok] at h
  cases h
  exact Nat.le_succ _

end Lowering.Grows

/-! ## Lists related one by one -/

/-- What is related to the members of a list one by one comes from one of them. -/
theorem exists_of_forall₂ {r : α → β → Prop} {as : List α} {bs : List β} (h : List.Forall₂ r as bs)
    {b : β} (hb : b ∈ bs) : ∃ a ∈ as, r a b := by
  induction h with
  | nil => cases hb
  | cons hfirst _ ih =>
    rcases List.mem_cons.mp hb with rfl | hb
    · exact ⟨_, List.mem_cons_self, hfirst⟩
    · obtain ⟨a, ha, hr⟩ := ih hb
      exact ⟨a, List.mem_cons_of_mem _ ha, hr⟩

/-- Lists whose members have equal images one by one have equal images. -/
theorem map_eq_of_forall₂ {γ : Type} {f : α → γ} {g : β → γ} {as : List α} {bs : List β}
    (h : List.Forall₂ (fun a b => g b = f a) as bs) : bs.map g = as.map f := by
  induction h with
  | nil => rfl
  | cons hfirst _ ih => rw [List.map_cons, List.map_cons, hfirst, ih]

end TupleLang
