import DraftHeads.Cli.Defaults
import DraftHeads.Proofs.Toml.Documents

/-! # Defaults that are written and read

* `Defaults.Same`: equality of values, all that is not a number being the same.
* `Defaults.Writable`: the values that have a text, those without integers beyond sixty-three bits;
  `text?_isSome_iff`.
* `Defaults.parse?_text?`: the text of some values reads back as them.
* `Defaults.latest`: the last values that some changes set, field by field; `foldl_merge`: merging
  the changes one by one gives them. -/

namespace DraftHeads.Defaults

open Number

variable {d d' : Defaults}

/-! ### Equality -/

/-- The fields are equal, all that is not a number being the same. -/
structure Same (d d' : Defaults) : Prop where
  dtype : d.dtype = d'.dtype
  device : d.device = d'.device
  tokens : d.tokens = d'.tokens
  branching : d.branching = d'.branching
  maxBatch : d.maxBatch = d'.maxBatch
  normEps : Option.Rel Double.Same d.normEps d'.normEps
  seed : d.seed = d'.seed
  logLevel : d.logLevel = d'.logLevel

/-- The values as they read back. -/
def settled (d : Defaults) : Defaults := { d with normEps := d.normEps.map Double.settled }

theorem same_iff_settled : d.Same d' ↔ d.settled = d'.settled := by
  have heps : Option.Rel Double.Same d.normEps d'.normEps ↔
      d.normEps.map Double.settled = d'.normEps.map Double.settled := by
    cases d.normEps <;> cases d'.normEps <;> simp [Double.same_iff_settled]
  rw [settled, settled, Defaults.mk.injEq, ← heps]
  exact ⟨fun ⟨h1, h2, h3, h4, h5, h6, h7, h8⟩ => ⟨h1, h2, h3, h4, h5, h6, h7, h8⟩,
    fun ⟨h1, h2, h3, h4, h5, h6, h7, h8⟩ => ⟨h1, h2, h3, h4, h5, h6, h7, h8⟩⟩

theorem settled_same (d : Defaults) : d.settled.Same d := by
  refine ⟨rfl, rfl, rfl, rfl, rfl, ?_, rfl, rfl⟩
  rw [settled]
  cases d.normEps with
  | none => exact .none
  | some x => exact .some x.settled_same

theorem Same.refl (d : Defaults) : d.Same d := same_iff_settled.mpr rfl

theorem Same.trans {d'' : Defaults} (h : d.Same d') (h' : d'.Same d'') : d.Same d'' :=
  same_iff_settled.mpr ((same_iff_settled.mp h).trans (same_iff_settled.mp h'))

theorem Same.merge (h : d.Same d') (flags : Defaults) : (d.merge flags).Same (d'.merge flags) := by
  obtain ⟨h1, h2, h3, h4, h5, h6, h7, h8⟩ := h
  refine ⟨?_, ?_, ?_, ?_, ?_, ?_, ?_, ?_⟩ <;> simp only [Defaults.merge, h1, h2, h3, h4, h5, h7, h8]
  cases flags.normEps with
  | none => exact h6
  | some x => exact .some (Or.inl rfl)

theorem Same.foldl (h : d.Same d') (changes : List Defaults) :
    (changes.foldl Defaults.merge d).Same (changes.foldl Defaults.merge d') := by
  induction changes generalizing d d' with
  | nil => exact h
  | cons flags changes ih => exact ih (h.merge flags)

/-! ### Texts -/

/-- The integers among the values. -/
def numbers (d : Defaults) : List Nat :=
  d.tokens.toList ++ d.branching.getD [] ++ d.maxBatch.toList ++ d.seed.toList

/-- No integer is beyond sixty-three bits. -/
def Writable (d : Defaults) : Prop := ∀ n ∈ d.numbers, n < UInt64.size / 2

instance (d : Defaults) : Decidable d.Writable := inferInstanceAs (Decidable (∀ n ∈ _, _))

theorem forall_mem_entry {α : Type} {key : String} {write : α → Toml.Value} {x : Option α}
    {P : String × Toml.Value → Prop} :
    (∀ e ∈ entry key write x, P e) ↔ ∀ a ∈ x, P (key, write a) := by
  cases x <;> simp [entry]

theorem forall_mem_toEntries {P : String × Toml.Value → Prop} : (∀ e ∈ d.toEntries, P e) ↔
    (∀ s ∈ d.dtype, P ("dtype", .string s)) ∧ (∀ s ∈ d.device, P ("device", .string s)) ∧
      (∀ n ∈ d.tokens, P ("num_speculative_tokens", naturalValue n)) ∧
      (∀ ks ∈ d.branching, P ("top_k_per_head", .array (ks.map naturalValue))) ∧
      (∀ n ∈ d.maxBatch, P ("max_batch_for_speculation", naturalValue n)) ∧
      (∀ x ∈ d.normEps, P ("norm_eps", .double x)) ∧ (∀ n ∈ d.seed, P ("seed", naturalValue n)) ∧
      ∀ s ∈ d.logLevel, P ("log_level", .string s) := by
  simp only [toEntries, List.forall_mem_append, forall_mem_entry, and_assoc]

theorem integerText?_naturalValue (n : Nat) :
    (Toml.integerText? (naturalValue n)).isSome ↔ n < UInt64.size / 2 := by
  rw [naturalValue, Toml.integerText?]
  split_ifs with h <;> simp <;> omega

theorem text?_isSome_iff : d.text?.isSome ↔ d.Writable := by
  have harray : ∀ ks : List Nat, (Toml.valueText? (.array (ks.map naturalValue))).isSome ↔
      ∀ k ∈ ks, k < UInt64.size / 2 := fun ks => by
    rw [Toml.valueText?_array_isSome]
    simp [integerText?_naturalValue]
  have hnatural : ∀ n, (Toml.valueText? (naturalValue n)).isSome ↔ n < UInt64.size / 2 :=
    integerText?_naturalValue
  have hstring : ∀ s, (Toml.valueText? (.string s)).isSome := fun _ => rfl
  have hdouble : ∀ x, (Toml.valueText? (.double x)).isSome := fun _ => rfl
  have hbranching : (∀ ks, d.branching = some ks → ∀ k ∈ ks, k < UInt64.size / 2) ↔
      ∀ k ∈ d.branching.getD [], k < UInt64.size / 2 := by
    cases d.branching <;> simp
  rw [text?, Toml.document?, Option.isSome_map, Toml.documentText?_isSome, forall_mem_toEntries]
  simp only [harray, hnatural, hstring, hdouble, hbranching, Writable, numbers,
    List.forall_mem_append, Option.mem_toList, Option.mem_def, implies_true, true_and, and_true,
    and_assoc]

/-! ### Reading -/

theorem lookup?_append (key : String) (a b : List (String × Toml.Value)) :
    Toml.lookup? key (a ++ b) = (Toml.lookup? key a).or (Toml.lookup? key b) := by
  rw [Toml.lookup?, List.find?_append, Option.map_or]
  rfl

theorem lookup?_entry {α : Type} (key key' : String) (write : α → Toml.Value) (x : Option α) :
    Toml.lookup? key (entry key' write x) = if key' = key then x.map write else none := by
  cases x with
  | none => simp [entry, Toml.lookup?]
  | some a =>
    by_cases h : key' = key <;> simp [entry, Toml.lookup?, h]

theorem field_eq {α : Type} {key : String} {read : Toml.Value → Option α}
    {write : α → Toml.Value} {x : Option α} {entries : List (String × Toml.Value)}
    (hread : ∀ a, read (write a) = some a) (h : Toml.lookup? key entries = x.map write) :
    field key read entries = some x := by
  rw [field, h]
  cases x with
  | none => rfl
  | some a => exact congrArg (Option.map some) (hread a)

theorem natural?_naturalValue (n : Nat) : (naturalValue n).natural? = some n := by
  rw [naturalValue, Toml.Value.natural?, if_pos (Int.natCast_nonneg n), Int.toNat_natCast]

theorem naturals?_map (ks : List Nat) :
    (Toml.Value.array (ks.map naturalValue)).naturals? = some ks := by
  rw [Toml.Value.naturals?]
  induction ks with
  | nil => rfl
  | cons k ks ih => rw [List.map_cons, List.mapM_cons, natural?_naturalValue, ih]; rfl

theorem ofEntries?_toEntries (d : Defaults) : ofEntries? d.toEntries = some d := by
  have hstring : ∀ s, (Toml.Value.string s).string? = some s := fun _ => rfl
  have hdouble : ∀ x, (Toml.Value.double x).double? = some x := fun _ => rfl
  have hdtype : field "dtype" Toml.Value.string? d.toEntries = some d.dtype :=
    field_eq hstring (by simp [toEntries, lookup?_append, lookup?_entry])
  have hdevice : field "device" Toml.Value.string? d.toEntries = some d.device :=
    field_eq hstring (by simp [toEntries, lookup?_append, lookup?_entry])
  have htokens : field "num_speculative_tokens" Toml.Value.natural? d.toEntries = some d.tokens :=
    field_eq natural?_naturalValue (by simp [toEntries, lookup?_append, lookup?_entry])
  have hbranching : field "top_k_per_head" Toml.Value.naturals? d.toEntries = some d.branching :=
    field_eq naturals?_map (by simp [toEntries, lookup?_append, lookup?_entry])
  have hbatch :
      field "max_batch_for_speculation" Toml.Value.natural? d.toEntries = some d.maxBatch :=
    field_eq natural?_naturalValue (by simp [toEntries, lookup?_append, lookup?_entry])
  have heps : field "norm_eps" Toml.Value.double? d.toEntries = some d.normEps :=
    field_eq hdouble (by simp [toEntries, lookup?_append, lookup?_entry])
  have hseed : field "seed" Toml.Value.natural? d.toEntries = some d.seed :=
    field_eq natural?_naturalValue (by simp [toEntries, lookup?_append, lookup?_entry])
  have hlevel : field "log_level" Toml.Value.string? d.toEntries = some d.logLevel :=
    field_eq hstring (by simp [toEntries, lookup?_append, lookup?_entry])
  simp only [ofEntries?, hdtype, hdevice, htokens, hbranching, hbatch, heps, hseed, hlevel]
  rfl

theorem map_entry {α : Type} {write : α → Toml.Value} {f : α → α}
    (h : ∀ a, (write a).settled = write (f a)) (key : String) (x : Option α) :
    (entry key write x).map (fun e => (e.1, e.2.settled)) = entry key write (x.map f) := by
  cases x with
  | none => rfl
  | some a => exact congrArg (fun v => [(key, v)]) (h a)

/-- Only doubles change when they are read back. -/
theorem map_toEntries (d : Defaults) :
    d.toEntries.map (fun e => (e.1, e.2.settled)) = d.settled.toEntries := by
  have hkeep : ∀ {α : Type} {write : α → Toml.Value} (_ : ∀ a, (write a).settled = write a)
      (key : String) (x : Option α),
      (entry key write x).map (fun e => (e.1, e.2.settled)) = entry key write x :=
    fun {_ write} h key x => by rw [@map_entry _ write id h, Option.map_id]; rfl
  have hdouble := @map_entry _ Toml.Value.double Double.settled fun _ => rfl
  have hstring := @hkeep _ Toml.Value.string fun _ => rfl
  have hnatural := @hkeep _ naturalValue fun _ => rfl
  have harray := @hkeep (List Nat) (fun ks => .array (ks.map naturalValue)) fun _ => rfl
  simp only [toEntries, List.map_append, hdouble, hstring, hnatural, harray, settled]

/-- The keys of a document. -/
def keyNames : List String :=
  ["dtype"] ++ ["device"] ++ ["num_speculative_tokens"] ++ ["top_k_per_head"] ++
    ["max_batch_for_speculation"] ++ ["norm_eps"] ++ ["seed"] ++ ["log_level"]

theorem keys_toEntries (d : Defaults) : (d.toEntries.map Prod.fst).Sublist keyNames := by
  have hkey : ∀ {α : Type} (key : String) (write : α → Toml.Value) (x : Option α),
      ((entry key write x).map Prod.fst).Sublist [key] := fun key write x => by
    cases x with
    | none => exact List.nil_sublist _
    | some a => exact List.Sublist.refl _
  simp only [toEntries, List.map_append, keyNames]
  repeat refine List.Sublist.append ?_ (hkey _ _ _)
  exact hkey _ _ _

theorem bareKey_toEntries (d : Defaults) : ∀ e ∈ d.toEntries, Toml.BareKey e.1 := by
  have hnames : keyNames.all fun name => !name.toList.isEmpty && name.toList.all Toml.isBare := by
    decide
  intro e he
  have hname := List.all_eq_true.mp hnames e.1 ((keys_toEntries d).subset (List.mem_map_of_mem he))
  rw [Bool.and_eq_true, Bool.not_eq_true', List.isEmpty_eq_false_iff, List.all_eq_true] at hname
  exact ⟨hname.1, hname.2⟩

theorem inRange_toEntries (d : Defaults) : ∀ e ∈ d.toEntries, e.2.InRange := by
  have hnatural : ∀ n, (naturalValue n).NotBelow := fun n => by
    change -((UInt64.size / 2 : Nat) : Int) ≤ n
    omega
  rw [forall_mem_toEntries]
  refine ⟨fun _ _ => trivial, fun _ _ => trivial, fun n _ => hnatural n, fun ks _ v hv => ?_,
    fun n _ => hnatural n, fun _ _ => trivial, fun n _ => hnatural n, fun _ _ => trivial⟩
  obtain ⟨k, -, rfl⟩ := List.mem_map.mp hv
  exact hnatural k

/-- **The text of some values** reads back as them. -/
theorem parse?_text? {text : String} (h : d.text? = some text) : parse? text = some d.settled := by
  have hkeys : keyNames.Nodup := by decide
  rw [parse?, Toml.parse?_document? h (bareKey_toEntries d) (inRange_toEntries d)
    (hkeys.sublist (keys_toEntries d)), map_toEntries]
  exact ofEntries?_toEntries d.settled

/-! ### Changes in a row -/

/-- The last value that is set. -/
def lastSet {α : Type} (read : Defaults → Option α) (ds : List Defaults) : Option α :=
  ds.reverse.findSome? read

/-- The last values that are set, field by field. -/
def latest (ds : List Defaults) : Defaults where
  dtype := lastSet dtype ds
  device := lastSet device ds
  tokens := lastSet tokens ds
  branching := lastSet branching ds
  maxBatch := lastSet maxBatch ds
  normEps := lastSet normEps ds
  seed := lastSet seed ds
  logLevel := lastSet logLevel ds

theorem lastSet_singleton {α : Type} (read : Defaults → Option α) (d : Defaults) :
    lastSet read [d] = read d := by
  rw [lastSet, List.reverse_singleton, List.findSome?_cons]
  cases read d <;> rfl

theorem lastSet_concat {α : Type} (read : Defaults → Option α) (ds : List Defaults)
    (flags : Defaults) : lastSet read (ds ++ [flags]) = (read flags <|> lastSet read ds) := by
  rw [lastSet, List.reverse_append, List.reverse_singleton, List.singleton_append,
    List.findSome?_cons]
  cases read flags <;> rfl

/-- **Merging changes one by one** gives the last values that they set. -/
theorem foldl_merge (d : Defaults) (ds : List Defaults) :
    ds.foldl merge d = latest (d :: ds) := by
  induction ds using List.reverseRecOn with
  | nil =>
    simp only [latest, lastSet_singleton]
    rfl
  | append_singleton ds flags ih =>
    rw [List.foldl_append, List.foldl_cons, List.foldl_nil, ih, ← List.cons_append]
    simp only [latest, lastSet_concat, merge]

end DraftHeads.Defaults
