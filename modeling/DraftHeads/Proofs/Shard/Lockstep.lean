import DraftHeads.Proofs.Shard.Collective

/-! # Workers in lockstep

All workers of a group run their programs side by side. At a collective operation each of them hands
in a tensor, and all get the same result: the sum of the tensors, or the tensors laid end to end in
the order of the ranks.

* `Lockstep`: the programs of all workers with the outcomes that they come to; `lockstep_unique`:
  there is only one outcome for each worker.
* `AllYield`: every worker comes to one and the same result; `AllYield.bind`,
  `AllYield.mapFault`. -/

namespace DraftHeads

variable {α ε ε' β γ : Type} {n : Nat}

/-- Tensors added entry by entry, one after the other. -/
def Tensor.addAll [Add α] : List (Tensor α) → Except TensorFault (Tensor α)
  | [] => .error .shapes
  | t :: ts => ts.foldlM (Tensor.zipWith (· + ·)) t

namespace Collective

theorem ofExcept_ne_allReduce (r : Except ε β) (t : Tensor α)
    (next : Except TensorFault (Tensor α) → Collective α ε β) :
    (ofExcept r : Collective α ε β) ≠ allReduce t next := by
  cases r <;> simp [ofExcept]

theorem ofExcept_ne_allGather (r : Except ε β) (t : Tensor α) (axis : Nat)
    (next : Except TensorFault (Tensor α) → Collective α ε β) :
    (ofExcept r : Collective α ε β) ≠ allGather t axis next := by
  cases r <;> simp [ofExcept]

theorem ofExcept_injective {r s : Except ε β}
    (h : (ofExcept r : Collective α ε β) = ofExcept s) : r = s := by
  cases r <;> cases s <;> simp_all [ofExcept]

variable [Add α]

/-- The programs of the workers `0, …, n - 1` come to these outcomes. -/
inductive Lockstep : (Fin n → Collective α ε β) → (Fin n → Except ε β) → Prop
  | ended (out : Fin n → Except ε β) : Lockstep (fun r => ofExcept (out r)) out
  | allReduce (t : Fin n → Tensor α)
    (next : Fin n → Except TensorFault (Tensor α) → Collective α ε β) {out : Fin n → Except ε β}
    (rest : Lockstep (fun r => next r (Tensor.addAll (List.ofFn t))) out) :
    Lockstep (fun r => allReduce (t r) (next r)) out
  | allGather (t : Fin n → Tensor α) (axis : Nat)
    (next : Fin n → Except TensorFault (Tensor α) → Collective α ε β) {out : Fin n → Except ε β}
    (rest : Lockstep (fun r => next r (Tensor.concat axis (List.ofFn t))) out) :
    Lockstep (fun r => allGather (t r) axis (next r)) out

theorem lockstep_unique {ps : Fin n → Collective α ε β} {out out' : Fin n → Except ε β}
    (h : Lockstep ps out) (h' : Lockstep ps out') : out = out' := by
  induction h generalizing out' with
  | ended out =>
    generalize hps : (fun r => ofExcept (out r) : Fin n → Collective α ε β) = ps at h'
    funext r
    cases h' with
    | ended out' => exact ofExcept_injective (congrFun hps r)
    | allReduce t next rest => exact absurd (congrFun hps r) (ofExcept_ne_allReduce _ _ _)
    | allGather t axis next rest => exact absurd (congrFun hps r) (ofExcept_ne_allGather _ _ _ _)
  | @allReduce t next out rest ih =>
    generalize hps : (fun r => allReduce (t r) (next r) : Fin n → Collective α ε β) = ps at h'
    cases h' with
    | ended out' =>
      funext r
      exact absurd (congrFun hps r).symm (ofExcept_ne_allReduce _ _ _)
    | allReduce t' next' rest' =>
      obtain rfl : t = t' := funext fun r => (allReduce.inj (congrFun hps r)).1
      obtain rfl : next = next' := funext fun r => (allReduce.inj (congrFun hps r)).2
      exact ih rest'
    | allGather t' axis' next' rest' =>
      funext r
      cases congrFun hps r
  | @allGather t axis next out rest ih =>
    generalize hps : (fun r => allGather (t r) axis (next r) : Fin n → Collective α ε β) = ps at h'
    cases h' with
    | ended out' =>
      funext r
      exact absurd (congrFun hps r).symm (ofExcept_ne_allGather _ _ _ _)
    | allReduce t' next' rest' =>
      funext r
      cases congrFun hps r
    | allGather t' axis' next' rest' =>
      obtain rfl : t = t' := funext fun r => (allGather.inj (congrFun hps r)).1
      obtain rfl : next = next' := funext fun r => (allGather.inj (congrFun hps r)).2.2
      rcases Nat.eq_zero_or_pos n with rfl | hn
      · exact funext fun r => r.elim0
      · obtain rfl : axis = axis' := (allGather.inj (congrFun hps ⟨0, hn⟩)).2.1
        exact ih rest'

/-- Every worker comes to the same result. -/
def AllYield (ps : Fin n → Collective α ε β) (y : β) : Prop := Lockstep ps fun _ => .ok y

theorem AllYield.done (y : β) : AllYield (fun _ : Fin n => (done y : Collective α ε β)) y :=
  .ended fun _ => .ok y

theorem AllYield.ofExcept {r : Except ε β} {y : β} (h : r = .ok y) :
    AllYield (fun _ : Fin n => (ofExcept r : Collective α ε β)) y :=
  h ▸ .ended fun _ => .ok y

theorem AllYield.bind {ps : Fin n → Collective α ε β} {y : β} (h : AllYield ps y)
    {f : Fin n → β → Collective α ε γ} {z : γ} (h' : AllYield (fun r => f r y) z) :
    AllYield (fun r => ps r >>= f r) z := by
  unfold AllYield at h
  generalize hout : (fun _ : Fin n => (Except.ok y : Except ε β)) = out at h
  induction h with
  | ended out =>
    subst hout
    exact h'
  | allReduce t next rest ih => exact .allReduce t (fun r x => (next r x).bind (f r)) (ih hout)
  | allGather t axis next rest ih =>
    exact .allGather t axis (fun r x => (next r x).bind (f r)) (ih hout)

theorem AllYield.mapFault {ps : Fin n → Collective α ε β} {y : β} (h : AllYield ps y)
    (f : ε → ε') : AllYield (fun r => (ps r).mapFault f) y := by
  unfold AllYield at h
  generalize hout : (fun _ : Fin n => (Except.ok y : Except ε β)) = out at h
  induction h with
  | ended out =>
    subst hout
    exact .ended fun _ => .ok y
  | allReduce t next rest ih => exact .allReduce t (fun r x => (next r x).mapFault f) (ih hout)
  | allGather t axis next rest ih =>
    exact .allGather t axis (fun r x => (next r x).mapFault f) (ih hout)

end Collective

end DraftHeads
