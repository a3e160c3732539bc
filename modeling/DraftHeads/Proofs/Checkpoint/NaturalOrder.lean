import DraftHeads.Checkpoint.NaturalOrder
import Mathlib.Data.List.Lex
import Mathlib.Data.String.Basic
import Mathlib.Data.Sum.Order

/-! # The natural order is an order

Keys are compared in the lexicographic order of their chunks, in which numbers come before texts.

* `Chunk.before_iff_lt`, `keyBefore_iff_lt`: the comparisons are those of linear orders.
* `naturalSort_perm`, `naturalSort_pairwise`: sorted items are the same items, with ascending keys.
* `filter_naturalSort`, `sublist_naturalSort_iff`: items with equal keys stay in their order. -/

namespace DraftHeads

namespace Chunk

/-- A chunk among the numbers and the texts, numbers first. -/
def place : Chunk → Lex (ℕ ⊕ String)
  | number n => Sum.inlₗ n
  | text s => Sum.inrₗ s

theorem place_injective : Function.Injective place := by
  intro a b h
  cases a <;> cases b <;> cases h <;> rfl

instance : LinearOrder Chunk := LinearOrder.lift' place place_injective

theorem before_iff_lt (a b : Chunk) : a.before b = true ↔ a < b := by
  change _ ↔ a.place < b.place
  cases a <;> cases b <;> simp [before, place]

end Chunk

theorem keyBefore_iff_lt : ∀ as bs : List Chunk, keyBefore as bs = true ↔ as < bs
  | as, [] => by cases as <;> simp [keyBefore]
  | [], b :: bs => by simp [keyBefore]
  | a :: as, b :: bs => by
    rw [keyBefore, List.cons_lt_cons_iff, Bool.or_eq_true, Bool.and_eq_true, beq_iff_eq,
      Chunk.before_iff_lt, keyBefore_iff_lt]

variable {α : Type} {path : α → Path} {items : List α}

/-- Does an item come before another one, or have an equal key? -/
def keyLE (path : α → Path) (x y : α) : Bool :=
  decide (naturalKey (path x) ≤ naturalKey (path y))

theorem keyLE_iff {x y : α} : keyLE path x y = true ↔ naturalKey (path x) ≤ naturalKey (path y) :=
  decide_eq_true_iff

theorem keyLE_trans (x y z : α) (hxy : keyLE path x y = true) (hyz : keyLE path y z = true) :
    keyLE path x z = true :=
  keyLE_iff.mpr ((keyLE_iff.mp hxy).trans (keyLE_iff.mp hyz))

theorem keyLE_total (x y : α) : (keyLE path x y || keyLE path y x) = true := by
  rw [Bool.or_eq_true, keyLE_iff, keyLE_iff]
  exact le_total _ _

theorem naturalSort_eq : naturalSort path items = items.mergeSort (keyLE path) := by
  have hle : ∀ x y, keyLE path x y = !keyBefore (naturalKey (path y)) (naturalKey (path x)) := by
    intro x y
    rw [Bool.eq_iff_iff, Bool.not_eq_true', ← Bool.not_eq_true, keyBefore_iff_lt, not_lt, keyLE_iff]
  rw [naturalSort, ← List.map_mergeSort (r := keyLE path) fun x _ y _ => hle x y, List.map_map]
  exact List.map_id _

theorem naturalSort_perm : (naturalSort path items).Perm items := by
  rw [naturalSort_eq]
  exact List.mergeSort_perm items _

theorem mem_naturalSort {x : α} : x ∈ naturalSort path items ↔ x ∈ items :=
  naturalSort_perm.mem_iff

theorem naturalSort_pairwise : (naturalSort path items).Pairwise fun x y =>
    naturalKey (path x) ≤ naturalKey (path y) := by
  rw [naturalSort_eq]
  exact (List.pairwise_mergeSort keyLE_trans keyLE_total items).imp keyLE_iff.mp

theorem naturalSort_of_pairwise
    (h : items.Pairwise fun x y => naturalKey (path x) ≤ naturalKey (path y)) :
    naturalSort path items = items := by
  rw [naturalSort_eq]
  exact List.mergeSort_of_pairwise (h.imp keyLE_iff.mpr)

theorem filter_naturalSort (key : List Chunk) :
    (naturalSort path items).filter (fun x => naturalKey (path x) = key) =
      items.filter fun x => naturalKey (path x) = key := by
  have hequal : (items.filter fun x => naturalKey (path x) = key).Pairwise fun x y =>
      keyLE path x y = true := by
    refine List.pairwise_of_forall_mem_list fun x hx y hy => keyLE_iff.mpr ?_
    have hxkey := of_decide_eq_true (List.mem_filter.mp hx).2
    have hykey := of_decide_eq_true (List.mem_filter.mp hy).2
    rw [hxkey, hykey]
  have hsub :
      (items.filter fun x => naturalKey (path x) = key).Sublist (naturalSort path items) := by
    rw [naturalSort_eq]
    exact List.sublist_mergeSort keyLE_trans keyLE_total hequal List.filter_sublist
  have hfilter := hsub.filter fun x => naturalKey (path x) = key
  rw [List.filter_filter] at hfilter
  simp only [Bool.and_self] at hfilter
  exact (hfilter.eq_of_length (naturalSort_perm.filter _).length_eq.symm).symm

theorem sublist_naturalSort_iff {sub : List α} {key : List Chunk}
    (h : ∀ x ∈ sub, naturalKey (path x) = key) :
    sub.Sublist (naturalSort path items) ↔ sub.Sublist items := by
  have hself : sub.filter (fun x => naturalKey (path x) = key) = sub :=
    List.filter_eq_self.mpr fun x hx => decide_eq_true (h x hx)
  constructor
  · intro hsub
    have hfilter := hsub.filter fun x => naturalKey (path x) = key
    rw [hself, filter_naturalSort] at hfilter
    exact hfilter.trans List.filter_sublist
  · intro hsub
    have hfilter := hsub.filter fun x => naturalKey (path x) = key
    rw [hself, ← filter_naturalSort] at hfilter
    exact hfilter.trans List.filter_sublist

end DraftHeads
