import Mathlib.Data.List.Forall2
import Mathlib.Tactic.SplitIfs

/-! # Steps that may fail

When a chain of steps comes to an end, and when it fails: `bind_eq_ok` and `bind_eq_error` for two
steps, `mapM_eq_ok` and `mapM_eq_error` for one step for each item of a list. `FailsOnly`: a chain
fails in certain ways only if each of its steps does. -/

namespace DraftHeads

variable {ε ε' β γ : Type}

theorem bind_eq_ok {x : Except ε β} {f : β → Except ε γ} {z : γ} :
    (x >>= f) = .ok z ↔ ∃ y, x = .ok y ∧ f y = .ok z := by
  cases x with
  | error e => simp [bind, Except.bind]
  | ok y => simp [bind, Except.bind]

@[simp] theorem mapError_eq_ok {h : ε → ε'} {x : Except ε β} {y : β} :
    x.mapError h = .ok y ↔ x = .ok y := by
  cases x <;> simp [Except.mapError]

theorem bind_eq_error {x : Except ε β} {f : β → Except ε γ} {e : ε} :
    (x >>= f) = .error e ↔ x = .error e ∨ ∃ y, x = .ok y ∧ f y = .error e := by
  cases x with
  | error e => simp [bind, Except.bind]
  | ok y => simp [bind, Except.bind]

@[simp] theorem mapError_eq_error {h : ε → ε'} {x : Except ε β} {e' : ε'} :
    x.mapError h = .error e' ↔ ∃ e, x = .error e ∧ h e = e' := by
  cases x <;> simp [Except.mapError]

@[simp] theorem map_eq_ok {f : β → γ} {x : Except ε β} {z : γ} :
    x.map f = .ok z ↔ ∃ y, x = .ok y ∧ f y = z := by
  cases x <;> simp [Except.map]

@[simp] theorem map_eq_error {f : β → γ} {x : Except ε β} {e : ε} :
    x.map f = .error e ↔ x = .error e := by
  cases x <;> simp [Except.map]

@[simp] theorem pure_eq_ok {x y : β} : (pure x : Except ε β) = .ok y ↔ x = y := by
  simp [pure, Except.pure]

theorem throw_bind (e : ε) (f : β → Except ε γ) : (throw e >>= f) = .error e := rfl

theorem ite_error_eq_ok {p : Prop} [Decidable p] {e : ε} {x : Except ε β} {y : β} :
    (if p then .error e else x) = .ok y ↔ ¬p ∧ x = .ok y := by
  split_ifs with h <;> simp [h]

theorem mapM_eq_ok {f : β → Except ε γ} : ∀ {l : List β} {ys : List γ},
    l.mapM f = .ok ys ↔ List.Forall₂ (fun x y => f x = .ok y) l ys
  | [], ys => by
    rw [List.mapM_nil, pure_eq_ok, List.forall₂_nil_left_iff]
    exact eq_comm
  | x :: l, ys => by
    rw [List.mapM_cons, bind_eq_ok]
    constructor
    · rintro ⟨y, hy, hrest⟩
      obtain ⟨zs, hzs, hcons⟩ := bind_eq_ok.mp hrest
      rw [pure_eq_ok] at hcons
      exact hcons ▸ .cons hy (mapM_eq_ok.mp hzs)
    · intro h
      obtain ⟨y, zs, hy, hzs, rfl⟩ := List.forall₂_cons_left_iff.mp h
      exact ⟨y, hy, bind_eq_ok.mpr ⟨zs, mapM_eq_ok.mpr hzs, rfl⟩⟩

theorem mapM_eq_error {f : β → Except ε γ} : ∀ {l : List β} {e : ε},
    l.mapM f = .error e → ∃ x ∈ l, f x = .error e
  | [], e, h => by cases h
  | x :: l, e, h => by
    rw [List.mapM_cons, bind_eq_error] at h
    rcases h with h | ⟨y, -, h⟩
    · exact ⟨x, List.mem_cons_self, h⟩
    · rcases bind_eq_error.mp h with h | ⟨ys, -, h⟩
      · obtain ⟨z, hz, hze⟩ := mapM_eq_error h
        exact ⟨z, List.mem_cons_of_mem x hz, hze⟩
      · cases h

/-- A step that comes to an end or fails in one of certain ways. -/
def FailsOnly (P : ε → Prop) (x : Except ε β) : Prop := ∀ e, x = .error e → P e

namespace FailsOnly

variable {P : ε → Prop} {Q : ε' → Prop}

theorem ok (y : β) : FailsOnly P (.ok y) := fun _ h => by cases h

theorem bind {x : Except ε β} {f : β → Except ε γ} (hx : FailsOnly P x)
    (hf : ∀ y, FailsOnly P (f y)) : FailsOnly P (x >>= f) := fun e h => by
  rcases bind_eq_error.mp h with h | ⟨y, -, h⟩
  · exact hx e h
  · exact hf y e h

theorem mapM {f : β → Except ε γ} {l : List β} (h : ∀ x ∈ l, FailsOnly P (f x)) :
    FailsOnly P (l.mapM f) := fun e herror => by
  obtain ⟨x, hx, hfail⟩ := mapM_eq_error herror
  exact h x hx e hfail

theorem mapError {h : ε → ε'} {x : Except ε β} (hx : FailsOnly P x) (hPQ : ∀ e, P e → Q (h e)) :
    FailsOnly Q (x.mapError h) := fun e' herror => by
  obtain ⟨e, he, rfl⟩ := mapError_eq_error.mp herror
  exact hPQ e (hx e he)

end FailsOnly

theorem mapM_congr {f f' : β → Except ε γ} : ∀ {l : List β},
    (∀ x ∈ l, f x = f' x) → l.mapM f = l.mapM f'
  | [], _ => rfl
  | x :: l, h => by
    rw [List.mapM_cons, List.mapM_cons, h x List.mem_cons_self,
      mapM_congr fun y hy => h y (List.mem_cons_of_mem x hy)]

theorem exists_forall₂ {R : β → γ → Prop} : ∀ {l : List β}, (∀ x ∈ l, ∃ y, R x y) →
    ∃ ys, List.Forall₂ R l ys
  | [], _ => ⟨[], .nil⟩
  | x :: l, h => by
    obtain ⟨y, hy⟩ := h x (by simp)
    obtain ⟨ys, hys⟩ := exists_forall₂ fun z hz => h z (List.mem_cons_of_mem x hz)
    exact ⟨y :: ys, .cons hy hys⟩

theorem forall₂_eq_map_iff {p : β → Prop} {f : β → γ} {l : List β} {ys : List γ} :
    List.Forall₂ (fun x y => p x ∧ y = f x) l ys ↔ (∀ x ∈ l, p x) ∧ ys = l.map f := by
  have heq : List.Forall₂ (fun x y => y = f x) l ys ↔ ys = l.map f := by
    simp only [eq_comm (b := f _)]
    rw [← List.forall₂_map_left_iff (R := fun a b => a = b), List.forall₂_eq_eq_eq, eq_comm]
  rw [List.forall₂_and_left, heq]

theorem forall₂_zip {δ : Type} {R : β → γ → Prop} : ∀ {xs : List β} {ys : List γ}
    {zs : List δ}, List.Forall₂ R xs ys →
      List.Forall₂ (fun p q => R p.1 q.1 ∧ p.2 = q.2) (xs.zip zs) (ys.zip zs)
  | [], _, zs, .nil => by simp
  | _ :: _, _, [], .cons _ _ => by simp
  | x :: xs, _, z :: zs, .cons h hrest => .cons ⟨h, rfl⟩ (forall₂_zip hrest)

end DraftHeads
