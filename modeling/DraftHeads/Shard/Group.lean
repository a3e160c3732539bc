import DraftHeads.Tensor.Basic

/-! # Groups of workers and their collective operations

A *group* is one worker's place among `world` workers. A worker's *program* does local work and
stops now and then at a collective operation, in which all workers of the group hand in a tensor and
all get the same result back:

* `allReduce`: the tensors are added entry by entry;
* `allGather`: the tensors are laid end to end along an axis, in the order of the ranks.

`Collective.simulate` runs the program of one worker without the others: a sum is the worker's own
tensor, and a gathering repeats its tensor once for every worker, so that shapes come out as they
would in the whole group. -/

namespace DraftHeads

/-- Why a sharded layer or a collective operation fails. -/
inductive ShardFault where
  | invalidRank (rank world : Nat)
  /-- The output features cannot be split evenly. -/
  | indivisible (size world : Nat)
  | shape (expected actual : List Nat)
  | tensor (cause : TensorFault)
  /-- A table cannot be split among no workers. -/
  | emptyWorld
deriving Repr, DecidableEq

/-- One worker of a group. -/
structure Group where
  rank : Nat
  world : Nat
  rank_lt : rank < world
deriving Repr, DecidableEq

namespace Group

/-- A worker on its own. -/
def single : Group := ⟨0, 1, Nat.zero_lt_one⟩

/-- The worker of the given rank. -/
def ofRank (rank world : Nat) : Except ShardFault Group :=
  if h : rank < world then .ok ⟨rank, world, h⟩ else .error (.invalidRank rank world)

/-- Is there no other worker? -/
def isSingle (g : Group) : Bool := g.world == 1

end Group

/-- The program of one worker: a result, a failure, or a collective operation and what is done with
its outcome. -/
inductive Collective (α ε β : Type) where
  | done (result : β)
  | fail (fault : ε)
  | allReduce (t : Tensor α) (next : Except TensorFault (Tensor α) → Collective α ε β)
  | allGather (t : Tensor α) (axis : Nat)
      (next : Except TensorFault (Tensor α) → Collective α ε β)

namespace Collective

variable {α ε ε' β γ : Type}

/-- One program after the other. -/
def bind : Collective α ε β → (β → Collective α ε γ) → Collective α ε γ
  | done x, f => f x
  | fail e, _ => fail e
  | allReduce t next, f => allReduce t fun r => (next r).bind f
  | allGather t axis next, f => allGather t axis fun r => (next r).bind f

instance : Monad (Collective α ε) where
  pure := done
  bind := bind

/-- Local work that may fail. -/
def ofExcept : Except ε β → Collective α ε β
  | .ok x => done x
  | .error e => fail e

/-- The same program with its faults put into other words. -/
def mapFault (f : ε → ε') : Collective α ε β → Collective α ε' β
  | done x => done x
  | fail e => fail (f e)
  | allReduce t next => allReduce t fun r => (next r).mapFault f
  | allGather t axis next => allGather t axis fun r => (next r).mapFault f

/-- The number of bytes of a reference to a tensor. -/
def referenceSize : Nat := 8

/-- What a gathering gives to a worker whose group only repeats its own tensor. -/
def gatherCopies (g : Group) (axis : Nat) (t : Tensor α) : Except TensorFault (Tensor α) :=
  if g.isSingle then .ok t
  else do
    checkBytes g.world referenceSize
    Tensor.concat axis (List.replicate g.world t)

/-- The outcome of a program in a group that repeats the worker's own tensors. -/
def simulate (g : Group) : Collective α ε β → Except ε β
  | done x => .ok x
  | fail e => .error e
  | allReduce t next => (next (.ok t)).simulate g
  | allGather t axis next => (next (gatherCopies g axis t)).simulate g

end Collective

end DraftHeads
