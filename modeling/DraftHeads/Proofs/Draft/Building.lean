import DraftHeads.Proofs.Draft.Row

/-! # Models that were built

Which parameters the heads of a built model use, and that they fit the sizes of its configuration.

* `Parameters.Loaded`: a head's parameters are the ones that its slot numbers in the checkpoint.
* `Parameters.load_ok`: the slots of the parameters that were read select them;
  `Parameters.exists_load`: parameters are read if those of every slot are.
* `Model.build_eq_ok_iff`: when a model is built, and which one.
* `Model.Wired`: every slot selects parameters that fit; `Model.build_wired`: a model that was built
  is wired. -/

namespace DraftHeads

variable {α π : Type}

namespace Parameters

variable {sizes : Sizes} {eps : π} {read : Reader α} {g : Group}

/-- The parameters of a head are those that its slot numbers in the checkpoint. -/
structure Loaded (sizes : Sizes) (eps : π) (read : Reader α) (g : Group) (slot : Slot)
    (h : Single α π) : Prop where
  embedding : loadEmbedding sizes read g slot.embedding = .ok h.embedding
  stateProjection : loadStateProjection sizes read g slot.stateProjection = .ok h.stateProjection
  outputProjection :
    loadOutputProjection sizes read g slot.outputProjection = .ok h.outputProjection
  norm : loadNorm sizes eps read slot.norm = .ok h.norm

theorem Loaded.unique {slot : Slot} {h h' : Single α π} (hl : Loaded sizes eps read g slot h)
    (hl' : Loaded sizes eps read g slot h') : h = h' := by
  obtain ⟨e, s, o, n⟩ := h
  obtain ⟨e', s', o', n'⟩ := h'
  obtain rfl : e = e' := Except.ok.inj (hl.embedding.symm.trans hl'.embedding)
  obtain rfl : s = s' := Except.ok.inj (hl.stateProjection.symm.trans hl'.stateProjection)
  obtain rfl : o = o' := Except.ok.inj (hl.outputProjection.symm.trans hl'.outputProjection)
  obtain rfl : n = n' := Except.ok.inj (hl.norm.symm.trans hl'.norm)
  rfl

/-- The slots of a number of heads. -/
def slotsOf (tied : Bool) (heads : Nat) : List Slot :=
  if tied then tiedSlots heads else untiedSlots heads

@[simp] theorem length_slotsOf (tied : Bool) (heads : Nat) :
    (slotsOf tied heads).length = heads := by
  cases tied <;> simp [slotsOf, tiedSlots, untiedSlots]

theorem getElem?_tiedSlots {heads i : Nat} (h : i < heads) :
    (tiedSlots heads)[i]? = some ⟨0, min i 1, 0, 0⟩ := by
  simp [tiedSlots, h]

theorem getElem?_untiedSlots {heads i : Nat} (h : i < heads) :
    (untiedSlots heads)[i]? = some ⟨i, i, i, i⟩ := by
  simp [untiedSlots, h]

theorem loadSingles_eq_mapM (count : Nat) : ∀ i : Nat,
    loadSingles sizes eps read g count i =
      (List.range' i count).mapM (loadSingle sizes eps read g) := by
  induction count with
  | zero => intro i; rfl
  | succ count ih =>
    intro i
    rw [List.range'_succ, List.mapM_cons, loadSingles, ih (i + 1)]

theorem loadSingle_ok_iff {i : Nat} {h : Single α π} :
    loadSingle sizes eps read g i = .ok h ↔ Loaded sizes eps read g ⟨i, i, i, i⟩ h := by
  obtain ⟨e, s, o, n⟩ := h
  simp only [loadSingle, bind_eq_ok, pure_eq_ok]
  constructor
  · rintro ⟨e', he, s', hs, o', ho, n', hn, heq⟩
    cases heq
    exact ⟨he, hs, ho, hn⟩
  · rintro ⟨he, hs, ho, hn⟩
    exact ⟨e, he, s, hs, o, ho, n, hn, rfl⟩

theorem checkSlots_eq_ok_iff {heads : Nat} {u : Unit} :
    checkSlots heads = .ok u ↔ heads * slotSize ≤ maxBytes := by
  rw [checkSlots, mapError_eq_ok, checkBytes_eq_ok_iff]

/-- The list of slots takes as many bytes as the largest list of parameters. -/
theorem checkSingles_eq_ok_iff {heads : Nat} {u : Unit} :
    checkSingles heads = .ok u ↔ heads * slotSize ≤ maxBytes := by
  simp only [checkSingles, List.forM_eq_forM, List.forM_cons, List.forM_nil, bind_eq_ok,
    mapError_eq_ok, checkBytes_eq_ok_iff, pure_eq_ok, embeddingSize, projectionSize, normSize,
    slotSize]
  constructor
  · rintro ⟨_, h, -⟩
    exact h
  · intro h
    exact ⟨(), h, (), by omega, (), by omega, (), by omega, trivial⟩

/-- **When the parameters of heads with weights of their own are read**, and which ones. -/
theorem loadUntied_eq_ok_iff {heads : Nat} {p : Parameters α π} :
    loadUntied heads sizes eps read g = .ok p ↔
      heads * slotSize ≤ maxBytes ∧ ∃ singles : List (Single α π),
        List.Forall₂ (fun i s => loadSingle sizes eps read g i = .ok s) (List.range heads)
          singles ∧
        p = ⟨singles.map (·.embedding), singles.map (·.stateProjection),
          singles.map (·.outputProjection), singles.map (·.norm), untiedSlots heads⟩ := by
  simp only [loadUntied, bind_eq_ok, pure_eq_ok, checkSingles_eq_ok_iff, checkSlots_eq_ok_iff,
    loadSingles_eq_mapM, mapM_eq_ok, ← List.range_eq_range']
  constructor
  · rintro ⟨_, hbytes, singles, hsingles, _, -, rfl⟩
    exact ⟨hbytes, singles, hsingles, rfl⟩
  · rintro ⟨hbytes, singles, hsingles, rfl⟩
    exact ⟨(), hbytes, singles, hsingles, (), hbytes, rfl⟩

/-- **When the parameters of heads that share their weights are read**, and which ones. -/
theorem loadTied_eq_ok_iff {heads : Nat} {p : Parameters α π} :
    loadTied heads sizes eps read g = .ok p ↔
      heads * slotSize ≤ maxBytes ∧ ∃ e projections o n,
        loadEmbedding sizes read g 0 = .ok e ∧
        List.Forall₂ (fun i q => loadStateProjection sizes read g i = .ok q)
          (List.range (min heads 2)) projections ∧
        loadOutputProjection sizes read g 0 = .ok o ∧ loadNorm sizes eps read 0 = .ok n ∧
        p = ⟨[e], projections, [o], [n], tiedSlots heads⟩ := by
  simp only [loadTied, bind_eq_ok, pure_eq_ok, checkSlots_eq_ok_iff, mapM_eq_ok]
  constructor
  · rintro ⟨e, he, projections, hprojections, o, ho, n, hn, _, hbytes, rfl⟩
    exact ⟨hbytes, e, projections, o, n, he, hprojections, ho, hn, rfl⟩
  · rintro ⟨hbytes, e, projections, o, n, he, hprojections, ho, hn, rfl⟩
    exact ⟨e, he, projections, hprojections, o, ho, n, hn, (), hbytes, rfl⟩

theorem loadUntied_ok {heads : Nat} {p : Parameters α π}
    (h : loadUntied heads sizes eps read g = .ok p) : p.slots = untiedSlots heads ∧
      ∀ slot ∈ p.slots, ∃ s, Loaded sizes eps read g slot s ∧ p.single? slot = some s := by
  obtain ⟨-, singles, hsingles, rfl⟩ := loadUntied_eq_ok_iff.mp h
  refine ⟨rfl, fun slot hslot => ?_⟩
  obtain ⟨i, hi, rfl⟩ := List.mem_map.mp hslot
  have hlen : i < singles.length := by
    rw [← hsingles.length_eq, List.length_range]; exact List.mem_range.mp hi
  have hload : loadSingle sizes eps read g i = .ok singles[i] := by
    have := hsingles.get (i := i) (by simpa using List.mem_range.mp hi) hlen
    simpa using this
  exact ⟨singles[i], loadSingle_ok_iff.mp hload, single?_eq_some.mpr (by simp [hlen])⟩

theorem exists_loadUntied {heads : Nat} (hbytes : heads * slotSize ≤ maxBytes)
    (h : ∀ slot ∈ untiedSlots heads, ∃ s : Single α π, Loaded sizes eps read g slot s) :
    ∃ p : Parameters α π, loadUntied heads sizes eps read g = .ok p := by
  have hload : ∀ i ∈ List.range heads, ∃ s : Single α π, loadSingle sizes eps read g i = .ok s :=
    fun i hi => by
      obtain ⟨s, hs⟩ := h ⟨i, i, i, i⟩ (List.mem_map_of_mem hi)
      exact ⟨s, loadSingle_ok_iff.mpr hs⟩
  obtain ⟨singles, hsingles⟩ := exists_forall₂ hload
  exact ⟨_, loadUntied_eq_ok_iff.mpr ⟨hbytes, singles, hsingles, rfl⟩⟩

theorem loadTied_ok {heads : Nat} {p : Parameters α π}
    (h : loadTied heads sizes eps read g = .ok p) : p.slots = tiedSlots heads ∧
      ∀ slot ∈ p.slots, ∃ s, Loaded sizes eps read g slot s ∧ p.single? slot = some s := by
  obtain ⟨-, e, projections, o, n, he, hprojections, ho, hn, rfl⟩ := loadTied_eq_ok_iff.mp h
  refine ⟨rfl, fun slot hslot => ?_⟩
  obtain ⟨i, hi, rfl⟩ := List.mem_map.mp hslot
  have hi := List.mem_range.mp hi
  have hlen : min i 1 < projections.length := by
    rw [← hprojections.length_eq, List.length_range]; omega
  have hload : loadStateProjection sizes read g (min i 1) = .ok projections[min i 1] := by
    have := hprojections.get (i := min i 1) (by rw [List.length_range]; omega) hlen
    simpa using this
  exact ⟨⟨e, projections[min i 1], o, n⟩, ⟨he, hload, ho, hn⟩, single?_eq_some.mpr (by simp [hlen])⟩

theorem exists_tied {heads : Nat} (hpos : 0 < heads)
    (h : ∀ slot ∈ tiedSlots heads, ∃ s : Single α π, Loaded sizes eps read g slot s) :
    ∃ e projections o n, loadEmbedding sizes read g 0 = .ok e ∧
      List.Forall₂ (fun i q => loadStateProjection sizes read g i = .ok q)
        (List.range (min heads 2)) projections ∧
      loadOutputProjection sizes read g 0 = .ok o ∧ loadNorm sizes eps read 0 = .ok n := by
  obtain ⟨s, hs⟩ := h ⟨0, 0, 0, 0⟩ (List.mem_map.mpr ⟨0, List.mem_range.mpr hpos, rfl⟩)
  have hload : ∀ i ∈ List.range (min heads 2), ∃ q, loadStateProjection sizes read g i = .ok q :=
    fun i hi => by
      have hi := List.mem_range.mp hi
      obtain ⟨s', hs'⟩ := h ⟨0, min i 1, 0, 0⟩ (List.mem_map.mpr ⟨i, by simp; omega, rfl⟩)
      have hmin : min i 1 = i := by omega
      exact ⟨s'.stateProjection, hmin ▸ hs'.stateProjection⟩
  obtain ⟨projections, hprojections⟩ := exists_forall₂ hload
  exact ⟨s.embedding, projections, s.outputProjection, s.norm, hs.embedding, hprojections,
    hs.outputProjection, hs.norm⟩

theorem exists_loadTied {heads : Nat} (hpos : 0 < heads) (hbytes : heads * slotSize ≤ maxBytes)
    (h : ∀ slot ∈ tiedSlots heads, ∃ s : Single α π, Loaded sizes eps read g slot s) :
    ∃ p : Parameters α π, loadTied heads sizes eps read g = .ok p := by
  obtain ⟨e, projections, o, n, he, hprojections, ho, hn⟩ := exists_tied hpos h
  exact ⟨_, loadTied_eq_ok_iff.mpr ⟨hbytes, e, projections, o, n, he, hprojections, ho, hn, rfl⟩⟩

/-- Too many heads with weights of their own are refused before a weight is read. -/
theorem loadUntied_tooLarge {heads : Nat} (hlarge : maxBytes < heads * slotSize) :
    (loadUntied heads sizes eps read g : Except _ (Parameters α π)) =
      .error (.whole .tooLarge) := by
  have hfirst : checkBytes heads embeddingSize = .error .tooLarge := checkBytes_of_lt hlarge
  simp only [loadUntied, checkSingles, List.forM_eq_forM, List.forM_cons, hfirst]
  rfl

/-- Too many heads that share their weights are refused after the weights were read. -/
theorem loadTied_tooLarge {heads : Nat} (hpos : 0 < heads) (hlarge : maxBytes < heads * slotSize)
    (h : ∀ slot ∈ tiedSlots heads, ∃ s : Single α π, Loaded sizes eps read g slot s) :
    (loadTied heads sizes eps read g : Except _ (Parameters α π)) = .error (.whole .tooLarge) := by
  obtain ⟨e, projections, o, n, he, hprojections, ho, hn⟩ := exists_tied hpos h
  rw [loadTied, he, mapM_eq_ok.mpr hprojections, ho, hn, checkSlots, checkBytes_of_lt hlarge]
  rfl

/-- **The slots of parameters that were read** select what they number in the checkpoint. -/
theorem load_ok {tied : Bool} {heads : Nat} {p : Parameters α π}
    (h : load tied heads sizes eps read g = .ok p) : p.slots = slotsOf tied heads ∧
      ∀ slot ∈ p.slots, ∃ s, Loaded sizes eps read g slot s ∧ p.single? slot = some s := by
  cases tied with
  | false => exact loadUntied_ok h
  | true => exact loadTied_ok h

theorem slots_le_of_load {tied : Bool} {heads : Nat} {p : Parameters α π}
    (h : load tied heads sizes eps read g = .ok p) : heads * slotSize ≤ maxBytes := by
  cases tied with
  | false => exact (loadUntied_eq_ok_iff.mp h).1
  | true => exact (loadTied_eq_ok_iff.mp h).1

theorem exists_load {tied : Bool} {heads : Nat} (hpos : 0 < heads)
    (hbytes : heads * slotSize ≤ maxBytes)
    (h : ∀ slot ∈ slotsOf tied heads, ∃ s : Single α π, Loaded sizes eps read g slot s) :
    ∃ p : Parameters α π, load tied heads sizes eps read g = .ok p := by
  cases tied with
  | false => exact exists_loadUntied hbytes h
  | true => exact exists_loadTied hpos hbytes h

theorem inputWidth_min (sizes : Sizes) (i : Nat) :
    inputWidth sizes (min i 1) = inputWidth sizes i := by
  unfold inputWidth
  by_cases h : i = 0
  · simp [h]
  · have : min i 1 ≠ 0 := by omega
    simp [h, this]

theorem Loaded.fits {slot : Slot} {h : Single α π} (loaded : Loaded sizes eps read g slot h)
    (lawful : read.Lawful) {head : Nat}
    (hwidth : inputWidth sizes slot.stateProjection = inputWidth sizes head) :
    h.Fits g sizes head where
  embedding := Embedding.load_fits ((lawful.below _).below _) loaded.embedding
  stateProjection := hwidth ▸ Projection.load_fits ((lawful.below _).below _) loaded.stateProjection
  outputProjection := Projection.load_fits ((lawful.below _).below _) loaded.outputProjection
  norm := Norm.load_fits ((lawful.below _).below _) (mapError_eq_ok.mp loaded.norm)

theorem inputWidth_slotsOf {tied : Bool} {heads i : Nat} {slot : Slot}
    (h : (slotsOf tied heads)[i]? = some slot) :
    inputWidth sizes slot.stateProjection = inputWidth sizes i := by
  have hi : i < heads := by
    have := (List.getElem?_eq_some_iff.mp h).1
    rwa [length_slotsOf] at this
  cases tied with
  | false =>
    obtain rfl := Option.some.inj ((getElem?_untiedSlots hi).symm.trans h)
    rfl
  | true =>
    obtain rfl := Option.some.inj ((getElem?_tiedSlots hi).symm.trans h)
    exact inputWidth_min sizes i

end Parameters

namespace Model

variable {g : Group} {m : Model α π}

/-- The parameters of the heads, one after the other. -/
def singles (m : Model α π) : List (Parameters.Single α π) :=
  m.parameters.slots.filterMap m.parameters.single?

/-- Every slot selects parameters, and they fit the sizes. -/
structure Wired (g : Group) (m : Model α π) : Prop where
  heads_pos : 0 < m.heads
  positive : Positive m.sizes
  inputNorm : ∀ norm, m.inputNorm = some norm → norm.Fits m.sizes.emb
  count : m.parameters.slots.length = m.heads
  selects : m.parameters.slots.map m.parameters.single? = m.singles.map some
  fits : ∀ (i : Nat) (h : Parameters.Single α π), m.singles[i]? = some h → h.Fits g m.sizes i

theorem Wired.length_singles (wired : m.Wired g) : m.singles.length = m.heads := by
  have := congrArg List.length wired.selects
  rw [List.length_map, List.length_map, wired.count] at this
  exact this.symm

/-- The group splits the vocabulary evenly, since it splits the output projections. -/
theorem Wired.splits (wired : m.Wired g) (hword : m.sizes.vocab < wordCount) :
    g.Splits m.sizes.vocab := by
  have hlen : 0 < m.singles.length := wired.length_singles ▸ wired.heads_pos
  have fits := (wired.fits 0 _ (List.getElem?_eq_getElem hlen)).outputProjection
  exact ⟨wired.positive.vocab, hword, fits.world_dvd⟩

theorem Wired.selected (wired : m.Wired g) :
    List.Forall₂ (fun s h => m.parameters.single? s = some h) m.parameters.slots m.singles := by
  have h := wired.selects
  rw [← List.forall₂_eq_eq_eq, List.forall₂_map_left_iff, List.forall₂_map_right_iff] at h
  exact h

theorem Wired.exists_single (wired : m.Wired g) {slot : Slot} (h : slot ∈ m.parameters.slots) :
    ∃ s, m.parameters.single? slot = some s := by
  have hmem : m.parameters.single? slot ∈ m.singles.map some :=
    wired.selects ▸ List.mem_map_of_mem h
  obtain ⟨s, -, hs⟩ := List.mem_map.mp hmem
  exact ⟨s, hs.symm⟩

section Build

variable [Analytic π] {c : Config} {policy : Policy π} {read : Reader α}

/-- The sizes that a configuration gives. -/
def sizesOf (c : Config) : Sizes := ⟨c.vocabSize, c.embDim, c.innerDim⟩

theorem checkPlan_ok {heads : Nat} {branching? : Option (List Nat)}
    (h : checkPlan c heads branching? = .ok ()) : 0 < heads ∧ Positive (sizesOf c) := by
  obtain ⟨_, hvalid, h⟩ := bind_eq_ok.mp h
  have hheads : 0 < heads := by
    by_contra hzero
    have : heads = 0 := by omega
    subst this
    cases h
  unfold Config.validate at hvalid
  split_ifs at hvalid with hcount hvocab hemb
  refine ⟨hheads, Nat.pos_of_ne_zero hvocab, Nat.pos_of_ne_zero hemb, ?_⟩
  change 0 < c.innerDim
  unfold Config.innerDim
  split_ifs with hinner
  · exact Nat.pos_of_ne_zero hemb
  · exact Nat.pos_of_ne_zero hinner

/-- **When a model is built**, and which one. -/
theorem build_eq_ok_iff : build c policy read g = .ok m ↔
    checkPlan c (policy.headCount c) policy.branching? = .ok () ∧
    checkBytes (policy.headCount c) factorSize = .ok () ∧
    ∃ p, Parameters.load c.tieWeights (policy.headCount c) (sizesOf c) policy.normEps read g =
        .ok p ∧
      m = ⟨p, if c.scaleInput then some (.plain policy.normEps) else none,
        .forHeads (policy.headCount c),
        (MixingWeights.forHeads (policy.headCount c)).embedScale c.innerDim,
        policy.branching (policy.headCount c), policy.headCount c, sizesOf c, g⟩ := by
  simp only [build, bind_eq_ok, mapError_eq_ok, pure_eq_ok, sizesOf]
  constructor
  · rintro ⟨_, hplan, _, hbytes, p, hp, rfl⟩
    exact ⟨hplan, hbytes, p, hp, rfl⟩
  · rintro ⟨hplan, hbytes, p, hp, rfl⟩
    exact ⟨(), hplan, (), hbytes, p, hp, rfl⟩

theorem checkFactors_of_slots {heads : Nat} (h : heads * Parameters.slotSize ≤ maxBytes) :
    checkBytes heads factorSize = .ok () := by
  rw [checkBytes_eq_ok_iff]
  unfold factorSize
  unfold Parameters.slotSize at h
  omega

theorem sizes_of_build (h : build c policy read g = .ok m) : m.sizes = sizesOf c := by
  obtain ⟨-, -, p, -, rfl⟩ := build_eq_ok_iff.mp h
  rfl

theorem heads_of_build (h : build c policy read g = .ok m) : m.heads = policy.headCount c := by
  obtain ⟨-, -, p, -, rfl⟩ := build_eq_ok_iff.mp h
  rfl

theorem group_of_build (h : build c policy read g = .ok m) : m.group = g := by
  obtain ⟨-, -, p, -, rfl⟩ := build_eq_ok_iff.mp h
  rfl

theorem exists_build_iff : (∃ m, build c policy read g = .ok m) ↔
    checkPlan c (policy.headCount c) policy.branching? = .ok () ∧
    policy.headCount c * Parameters.slotSize ≤ maxBytes ∧
    ∀ slot ∈ Parameters.slotsOf c.tieWeights (policy.headCount c),
      ∃ s : Parameters.Single α π, Parameters.Loaded (sizesOf c) policy.normEps read g slot s := by
  simp only [build_eq_ok_iff]
  constructor
  · rintro ⟨m, hplan, -, p, hp, -⟩
    obtain ⟨hslots, hall⟩ := Parameters.load_ok hp
    refine ⟨hplan, Parameters.slots_le_of_load hp, fun slot hslot => ?_⟩
    obtain ⟨s, hs, -⟩ := hall slot (hslots ▸ hslot)
    exact ⟨s, hs⟩
  · rintro ⟨hplan, hbytes, hall⟩
    obtain ⟨p, hp⟩ := Parameters.exists_load (checkPlan_ok hplan).1 hbytes hall
    exact ⟨_, hplan, checkFactors_of_slots hbytes, p, hp, rfl⟩

theorem map_eq_map_filterMap {β γ : Type} {f : β → Option γ} : ∀ {l : List β},
    (∀ x ∈ l, ∃ y, f x = some y) → l.map f = (l.filterMap f).map some
  | [], _ => rfl
  | x :: l, h => by
    obtain ⟨y, hy⟩ := h x (by simp)
    rw [List.map_cons, List.filterMap_cons_some hy, List.map_cons, hy,
      map_eq_map_filterMap fun z hz => h z (List.mem_cons_of_mem x hz)]

/-- **A model that was built is wired.** -/
theorem build_wired (lawful : read.Lawful) (h : build c policy read g = .ok m) : m.Wired g := by
  obtain ⟨hplan, -, p, hp, rfl⟩ := build_eq_ok_iff.mp h
  obtain ⟨hslots, hall⟩ := Parameters.load_ok hp
  have hselects : p.slots.map p.single? = (p.slots.filterMap p.single?).map some :=
    map_eq_map_filterMap fun slot hslot => by
      obtain ⟨s, -, hs⟩ := hall slot hslot
      exact ⟨s, hs⟩
  refine ⟨(checkPlan_ok hplan).1, (checkPlan_ok hplan).2, fun norm hnorm => ?_, ?_, hselects,
    fun i s hs => ?_⟩
  · simp only at hnorm
    split_ifs at hnorm
    cases hnorm
    exact Norm.fits_plain _ _
  · simp only [hslots, Parameters.length_slotsOf]
  · have hget := congrArg (·[i]?) hselects
    simp only [List.getElem?_map] at hget
    change (p.slots.filterMap p.single?)[i]? = some s at hs
    rw [hs] at hget
    obtain ⟨slot, hslot, hs'⟩ := Option.map_eq_some_iff.mp hget
    obtain ⟨s', hloaded, hs''⟩ := hall slot (List.mem_of_getElem? hslot)
    obtain rfl : s' = s := Option.some.inj (hs''.symm.trans hs')
    exact hloaded.fits lawful (Parameters.inputWidth_slotsOf (hslots ▸ hslot))

end Build

end Model

end DraftHeads
