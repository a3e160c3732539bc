import DraftHeads.Checkpoint.FileTree
import Mathlib.Data.List.Induction

/-! # Spellings of a path

* `Path.same_refl`, `Path.same_symm`, `Path.same_trans`: to be the same path is an equivalence of
  spellings.
* `mem_eraseDupsBy_iff`: of the spellings of one path in a list the first one is kept.
* `FileTree.walk_eq_some`: a walk that comes to an end is at the place that the parts that count
  lead to; so all spellings of a path that can be read lead to the same bytes
  (`FileTree.readBytes?_of_same`). -/

namespace DraftHeads

namespace Path

variable {p q r : Path}

theorem same_iff : p.same q = true ↔ p.isAbsolute = q.isAbsolute ∧ p.parts = q.parts := by
  rw [same, Bool.and_eq_true, beq_iff_eq, beq_iff_eq]

@[simp] theorem same_refl (p : Path) : p.same p = true := same_iff.mpr ⟨rfl, rfl⟩

theorem same_symm (h : p.same q = true) : q.same p = true := by
  obtain ⟨habsolute, hparts⟩ := same_iff.mp h
  exact same_iff.mpr ⟨habsolute.symm, hparts.symm⟩

theorem same_trans (h : p.same q = true) (h' : q.same r = true) : p.same r = true := by
  obtain ⟨habsolute, hparts⟩ := same_iff.mp h
  obtain ⟨habsolute', hparts'⟩ := same_iff.mp h'
  exact same_iff.mpr ⟨habsolute.trans habsolute', hparts.trans hparts'⟩

theorem same_comm (p q : Path) : p.same q = q.same p :=
  Bool.eq_iff_iff.mpr ⟨same_symm, same_symm⟩

theorem same_congr (h : p.same q = true) (r : Path) : r.same p = r.same q :=
  Bool.eq_iff_iff.mpr ⟨fun h' => same_trans h' h, fun h' => same_trans h' (same_symm h)⟩

/-- The parts that move on: not empty and not a point. -/
def moves (parts : List String) : List String := parts.filter fun s => s ≠ "" ∧ s ≠ "."

theorem moves_of_same (h : p.same q = true) : moves p.spelledParts = moves q.spelledParts := by
  have hpoint : ∀ parts, "." ∉ moves parts := fun parts hmem => by
    simp [moves] at hmem
  have hparts : p.parts = q.parts := (same_iff.mp h).2
  unfold parts at hparts
  change (if _ then "." :: moves p.spelledParts else moves p.spelledParts) =
    if _ then "." :: moves q.spelledParts else moves q.spelledParts at hparts
  split_ifs at hparts
  · exact (List.cons.inj hparts).2
  · exact absurd (hparts ▸ List.mem_cons_self) (hpoint q.spelledParts)
  · exact absurd (hparts ▸ List.mem_cons_self) (hpoint p.spelledParts)
  · exact hparts

/-! ### Lists without respellings -/

theorem eraseDupsBy_loop_cons {α : Type} (same : α → α → Bool) (x : α) (xs seen : List α) :
    List.eraseDupsBy.loop same (x :: xs) seen =
      if seen.any (same x) then List.eraseDupsBy.loop same xs seen
      else List.eraseDupsBy.loop same xs (x :: seen) := by
  rw [List.eraseDupsBy.loop.eq_def]
  dsimp only
  cases seen.any (same x) <;> rfl

theorem eraseDupsBy_loop_concat {α : Type} (same : α → α → Bool) (x : α) :
    ∀ (xs seen : List α), List.eraseDupsBy.loop same (xs ++ [x]) seen =
      if (List.eraseDupsBy.loop same xs seen).any (same x) then List.eraseDupsBy.loop same xs seen
      else List.eraseDupsBy.loop same xs seen ++ [x]
  | [], seen => by
    rw [List.nil_append, eraseDupsBy_loop_cons]
    simp only [List.eraseDupsBy.loop, List.any_reverse, List.reverse_cons]
  | y :: xs, seen => by
    rw [List.cons_append, eraseDupsBy_loop_cons, eraseDupsBy_loop_cons]
    by_cases hseen : seen.any (same y) = true
    · simpa only [if_pos hseen] using eraseDupsBy_loop_concat same x xs seen
    · simpa only [if_neg hseen] using eraseDupsBy_loop_concat same x xs (y :: seen)

theorem eraseDupsBy_concat (paths : List Path) (p : Path) :
    (paths ++ [p]).eraseDupsBy same =
      if (paths.eraseDupsBy same).any (fun f => f.same p) then paths.eraseDupsBy same
      else paths.eraseDupsBy same ++ [p] := by
  have hcomm : (fun f : Path => f.same p) = p.same := funext fun f => same_comm f p
  rw [hcomm]
  exact eraseDupsBy_loop_concat same p paths []

/-- **The paths that are kept** are those that are not the same as one before them. -/
theorem mem_eraseDupsBy_iff {f : Path} (paths : List Path) :
    f ∈ paths.eraseDupsBy same ↔ paths.find? (fun q => q.same f) = some f := by
  induction paths using List.reverseRecOn generalizing f with
  | nil => simp [List.eraseDupsBy, List.eraseDupsBy.loop]
  | append_singleton paths p ih =>
    have hlast : [p].find? (fun q => q.same f) = some f ↔ f = p := by
      rw [List.find?_singleton]
      split_ifs with hsame
      · exact ⟨fun h => (Option.some.inj h).symm, fun h => congrArg some h.symm⟩
      · exact ⟨(fun h => nomatch h), fun h => absurd (h ▸ same_refl p) hsame⟩
    rw [eraseDupsBy_concat, List.find?_append, Option.or_eq_some_iff, hlast]
    split_ifs with hkept
    · obtain ⟨q, hq, hsame⟩ := List.any_eq_true.mp hkept
      have hmem := List.mem_of_find?_eq_some (ih.mp hq)
      refine ih.trans ⟨Or.inl, ?_⟩
      rintro (h | ⟨hnone, rfl⟩)
      · exact h
      · exact absurd hsame (List.find?_eq_none.mp hnone q hmem)
    · rw [List.mem_append, List.mem_singleton, ih]
      refine or_congr_right ⟨?_, And.right⟩
      rintro rfl
      refine ⟨?_, rfl⟩
      by_contra hsome
      obtain ⟨q, hq⟩ := Option.ne_none_iff_exists'.mp hsome
      have hsame := List.find?_some hq
      refine hkept (List.any_eq_true.mpr ⟨q, ih.mpr ?_, hsame⟩)
      simpa only [same_congr hsame] using hq

theorem pairwise_eraseDupsBy (paths : List Path) :
    (paths.eraseDupsBy same).Pairwise fun p q => p.same q = false := by
  induction paths using List.reverseRecOn with
  | nil => simp [List.eraseDupsBy, List.eraseDupsBy.loop]
  | append_singleton paths p ih =>
    rw [eraseDupsBy_concat]
    split_ifs with hkept
    · exact ih
    · refine List.pairwise_append.mpr ⟨ih, List.pairwise_singleton _ _, fun f hf q hq => ?_⟩
      obtain rfl := List.mem_singleton.mp hq
      exact Bool.eq_false_iff.mpr fun hsame => hkept (List.any_eq_true.mpr ⟨f, hf, hsame⟩)

end Path

namespace FileTree

variable {t : FileTree}

/-- The place that parts that move on lead to. -/
def destination (place parts : List String) : List String :=
  parts.foldl (fun place part => if part = ".." then place.dropLast else place ++ [part]) place

/-- **A walk that comes to an end** is at the place that the parts that count lead to. -/
theorem walk_eq_some : ∀ {parts place r : List String}, t.walk place parts = some r →
    r = destination place (Path.moves parts)
  | [], place, r, h => (Option.some.inj h).symm
  | part :: rest, place, r, h => by
    rw [walk] at h
    split_ifs at h with hdir hstay hup
    · have hmoves : Path.moves (part :: rest) = Path.moves rest := by
        rcases hstay with rfl | rfl <;> simp [Path.moves]
      rw [hmoves]
      exact walk_eq_some h
    · have hmoves : Path.moves (part :: rest) = ".." :: Path.moves rest := by
        simp [Path.moves, hup]
      rw [hmoves]
      exact walk_eq_some h
    · have hmoves : Path.moves (part :: rest) = part :: Path.moves rest := by
        rw [not_or] at hstay
        simp [Path.moves, hstay]
      have hstep : destination place (part :: Path.moves rest) =
          destination (place ++ [part]) (Path.moves rest) := by
        rw [destination, List.foldl_cons, if_neg hup]
        rfl
      rw [hmoves, hstep]
      exact walk_eq_some h

theorem find?_eq_some {p : Path} {node : FileNode} (h : t.find? p = some node) :
    t.node? (destination [] (Path.moves p.spelledParts)) = some node := by
  unfold find? at h
  split_ifs at h
  obtain ⟨place, hwalk, hnode⟩ := Option.bind_eq_some_iff.mp h
  rwa [← walk_eq_some hwalk]

theorem readBytes?_eq_some {p : Path} {bytes : List UInt8} :
    t.readBytes? p = some bytes ↔ t.find? p = some (.file bytes) := by
  unfold readBytes?
  split
  · next h => rw [h]; simp
  · next h => simpa using h bytes

theorem readBytes?_of_same {p q : Path} {bytes bytes' : List UInt8} (h : p.same q = true)
    (hp : t.readBytes? p = some bytes) (hq : t.readBytes? q = some bytes') : bytes = bytes' := by
  have hp' := find?_eq_some (readBytes?_eq_some.mp hp)
  have hq' := find?_eq_some (readBytes?_eq_some.mp hq)
  rw [Path.moves_of_same h, hq'] at hp'
  exact (FileNode.file.inj (Option.some.inj hp')).symm

end FileTree

end DraftHeads
