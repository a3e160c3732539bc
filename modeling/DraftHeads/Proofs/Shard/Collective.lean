import DraftHeads.Proofs.Outcome
import DraftHeads.Shard.Group

/-! # Programs one after the other

The outcome of a program in a group that repeats the worker's own tensors, by the parts of the
program: `simulate_bind` for one program after the other, `simulate_mapFault` for faults in other
words, `simulate_ofExcept` for local work. -/

namespace DraftHeads.Collective

variable {α ε ε' β γ : Type}

@[simp] theorem done_bind (x : β) (f : β → Collective α ε γ) : done x >>= f = f x := rfl

@[simp] theorem ofExcept_ok (x : β) : (ofExcept (.ok x) : Collective α ε β) = done x := rfl

@[simp] theorem simulate_ofExcept (g : Group) (r : Except ε β) :
    (ofExcept r : Collective α ε β).simulate g = r := by
  cases r <;> rfl

theorem simulate_bind (g : Group) (p : Collective α ε β) (f : β → Collective α ε γ) :
    (p >>= f).simulate g = p.simulate g >>= fun x => (f x).simulate g := by
  change (p.bind f).simulate g = _
  induction p with
  | done x => rfl
  | fail e => rfl
  | allReduce t next ih => exact ih (.ok t)
  | allGather t axis next ih => exact ih (gatherCopies g axis t)

theorem simulate_mapFault (g : Group) (h : ε → ε') (p : Collective α ε β) :
    (p.mapFault h).simulate g = (p.simulate g).mapError h := by
  induction p with
  | done x => rfl
  | fail e => rfl
  | allReduce t next ih => exact ih (.ok t)
  | allGather t axis next ih => exact ih (gatherCopies g axis t)

theorem simulate_bind_eq_ok {g : Group} {p : Collective α ε β} {f : β → Collective α ε γ} {z : γ} :
    (p >>= f).simulate g = .ok z ↔ ∃ y, p.simulate g = .ok y ∧ (f y).simulate g = .ok z := by
  rw [simulate_bind, bind_eq_ok]

theorem simulate_bind_error {g : Group} {p : Collective α ε β} {f : β → Collective α ε γ} {e : ε}
    (h : p.simulate g = .error e) : (p >>= f).simulate g = .error e := by
  rw [simulate_bind, h]
  rfl

@[simp] theorem simulate_mapFault_eq_ok {g : Group} {h : ε → ε'} {p : Collective α ε β} {y : β} :
    (p.mapFault h).simulate g = .ok y ↔ p.simulate g = .ok y := by
  rw [simulate_mapFault, mapError_eq_ok]

end DraftHeads.Collective
