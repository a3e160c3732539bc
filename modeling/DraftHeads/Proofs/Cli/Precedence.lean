import DraftHeads.Proofs.Cli.Saves
import Mathlib.Tactic.SplitIfs

/-! # Flags, stored defaults and built-in values

A run takes each of its settings from the flag, else from the stored defaults, else it is built in;
and no setting has a part in another one.

* `Defaults.value?`: the value of one setting; `Defaults.ext_value?`: values are known by those of
  all settings, and `Defaults.value?_merge` says what merging does to each of them.
* `Defaults.merge_assoc`, `unset_merge`, `merge_unset`, `merge_self`: the laws of merging.
* `Command.draft`: a run with everything that it uses given; `Command.run_eq_draft`.
* `Gathered.Gives`: the flags that the options of a run stand for; `Invocation.exists_gives`.
* `Command.flags_before_stored`: the laws, and which values a run of the program uses. -/

namespace DraftHeads

open Number

deriving instance DecidableEq for Action, Invocation

/-! ### Settings -/

/-- A setting, which is one field of the values that may be set. -/
inductive Setting where
  | dtype
  | device
  | tokens
  | branching
  | maxBatch
  | normEps
  | seed
  | logLevel
deriving DecidableEq

/-- What the value of a setting is. -/
def Setting.Value : Setting → Type
  | dtype | device | logLevel => String
  | tokens | maxBatch | seed => Nat
  | branching => List Nat
  | normEps => Double

namespace Defaults

variable {a b c : Defaults}

/-- The value of a setting, if it is set. -/
def value? (d : Defaults) : (s : Setting) → Option s.Value
  | .dtype => d.dtype
  | .device => d.device
  | .tokens => d.tokens
  | .branching => d.branching
  | .maxBatch => d.maxBatch
  | .normEps => d.normEps
  | .seed => d.seed
  | .logLevel => d.logLevel

theorem ext_value? (h : ∀ s, a.value? s = b.value? s) : a = b := by
  obtain ⟨a1, a2, a3, a4, a5, a6, a7, a8⟩ := a
  obtain ⟨b1, b2, b3, b4, b5, b6, b7, b8⟩ := b
  rw [Defaults.mk.injEq]
  exact ⟨h .dtype, h .device, h .tokens, h .branching, h .maxBatch, h .normEps, h .seed,
    h .logLevel⟩

@[simp] theorem value?_unset (s : Setting) : unset.value? s = none := by
  cases s <;> rfl

@[simp] theorem value?_merge (a b : Defaults) (s : Setting) :
    (a.merge b).value? s = (b.value? s).or (a.value? s) := by
  cases s <;> exact Option.or_eq_orElse.symm

theorem merge_assoc (a b c : Defaults) : (a.merge b).merge c = a.merge (b.merge c) :=
  ext_value? fun s => by simp only [value?_merge, Option.or_assoc]

theorem unset_merge (a : Defaults) : unset.merge a = a :=
  ext_value? fun s => by rw [value?_merge, value?_unset, Option.or_none]

theorem merge_unset (a : Defaults) : a.merge unset = a :=
  ext_value? fun s => by rw [value?_merge, value?_unset, Option.none_or]

theorem merge_self (a : Defaults) : a.merge a = a :=
  ext_value? fun s => by rw [value?_merge, Option.or_self]

theorem merge_merge_self (a b : Defaults) : (a.merge b).merge b = a.merge b := by
  rw [merge_assoc, merge_self]

theorem value?_merge_congr {a' b' : Defaults} {s : Setting} (ha : a.value? s = a'.value? s)
    (hb : b.value? s = b'.value? s) : (a.merge b).value? s = (a'.merge b').value? s := by
  rw [value?_merge, value?_merge, ha, hb]

end Defaults

/-! ### Runs -/

/-- The value of a flag, else the stored one. -/
def flagOrStored {α : Type} : (flag stored : Option α) → Option α
  | some x, _ => some x
  | none, stored => stored

/-- The value of a flag, else the stored one, else the built-in one. -/
def chosen {α : Type} : (flag stored : Option α) → (builtIn : α) → α
  | some x, _, _ => x
  | none, some y, _ => y
  | none, none, z => z

/-- Everything that a run uses besides the checkpoint and its first tokens. -/
structure RunSettings where
  dtype : String
  device : String
  seed : Nat
  policy : Policy Double

namespace RunSettings

/-- The settings of a run: the flags come before the stored defaults, and these before what is built
in. All heads run with one candidate each if nothing else is said. -/
def choose (stored flags : Defaults) : RunSettings where
  dtype := chosen flags.dtype stored.dtype "f32"
  device := chosen flags.device stored.device "cpu"
  seed := chosen flags.seed stored.seed 0
  policy :=
    { tokens? := flagOrStored flags.tokens stored.tokens
      branching? := flagOrStored flags.branching stored.branching
      maxBatch := chosen flags.maxBatch stored.maxBatch 128
      normEps := chosen flags.normEps stored.normEps (.ofDecimal false ⟨1, -6⟩) }

end RunSettings

namespace Command

/-- Drafts from seeded hidden states with the given settings. -/
def draft (around : Surroundings) (source : String) (batch token : Nat) (s : RunSettings) :
    Except CommandFault (List LogRecord) := do
  let .cpu ← (chooseDevice (some s.device)).mapError .choice
  let format ← (chooseFormat (some s.dtype)).mapError .choice
  let files ← (Located.locate around.tree around.hub source).mapError .library
  if files.config.vocabSize ≤ token then throw (.tokenOutside token files.config.vocabSize)
  let m ← (loadSpeculator around.tree files s.policy format .single).mapError .library
  let width := m.model.sizes.emb
  (checkBytes (batch * max width 1) entrySize).mapError fun e => .library (.layer (.whole e))
  let noise := Noise.samples (UInt64.ofNat s.seed) (batch * width)
  let trace ← (do
    let hidden ← (Tensor.ofData [batch, width] noise).mapError fun e => Fault.layer (.whole e)
    m.trace ⟨format, (AnyTensor.mk .f32 hidden).cast format⟩
      ⟨.u32, Tensor.fill [batch] (UInt32.ofNat token)⟩ : Except Fault (Trace Float32)).mapError
      .library
  return recordsOf batch m.model.heads trace

theorem run_eq_draft (around : Surroundings) (source : String) (batch token : Nat) (d : Defaults) :
    run around source batch token d = draft around source batch token
      ⟨d.dtype.getD "f32", d.device.getD "cpu", d.seed.getD 0, d.policy⟩ := by
  have hdevice : chooseDevice d.device = chooseDevice (some (d.device.getD "cpu")) := by
    cases d.device <;> rfl
  have hformat : chooseFormat d.dtype = chooseFormat (some (d.dtype.getD "f32")) := by
    cases d.dtype <;> rfl
  unfold run draft
  rw [hdevice, hformat]

theorem orElse_eq {α : Type} (flag stored : Option α) :
    (flag <|> stored) = flagOrStored flag stored := by
  cases flag <;> rfl

theorem getD_flagOrStored {α : Type} (flag stored : Option α) (builtIn : α) :
    (flagOrStored flag stored).getD builtIn = chosen flag stored builtIn := by
  cases flag <;> cases stored <;> rfl

theorem policy_merge (stored flags : Defaults) :
    (stored.merge flags).policy = (RunSettings.choose stored flags).policy := by
  simp only [Defaults.policy, Defaults.merge, orElse_eq, getD_flagOrStored]
  rfl

/-- **A run of merged values** has the settings that are chosen from both. -/
theorem run_merge (around : Surroundings) (source : String) (batch token : Nat)
    (stored flags : Defaults) : run around source batch token (stored.merge flags) =
      draft around source batch token (.choose stored flags) := by
  rw [run_eq_draft, policy_merge]
  simp only [Defaults.merge, orElse_eq, getD_flagOrStored]
  rfl

end Command

/-! ### The flags of a command line -/

namespace Gathered

variable {g : Gathered} {names : List String}

theorem mem_names_of_gather {subcommands : List String} {escaped : Bool} {words : List String}
    (h : gather names subcommands escaped words = some g) : ∀ o ∈ g.options, o.1 ∈ names := by
  fun_induction gather names subcommands escaped words generalizing g
  case case1 | case5 | case13 =>
    cases h
    exact fun o ho => absurd ho List.not_mem_nil
  case case3 | case6 | case8 | case10 | case11 | case14 => cases h
  case case4 ih => exact ih h
  case case2 ih | case12 ih =>
    -- a positional word
    obtain ⟨g', hg', rfl⟩ := Option.map_eq_some_iff.mp h
    have hrest : ∀ o ∈ g'.options, o.1 ∈ names := ih hg'
    exact hrest
  case case7 hname _ _ _ ih | case9 hname _ _ _ _ ih =>
    -- an option with its value
    obtain ⟨g', hg', rfl⟩ := Option.map_eq_some_iff.mp h
    rw [Bool.not_eq_true, Bool.not_eq_false', List.contains_iff_mem] at hname
    exact List.forall_mem_cons.mpr ⟨hname, ih hg'⟩

theorem values_eq_nil (h : ∀ o ∈ g.options, o.1 ∈ names) {name : String} (hname : name ∉ names) :
    g.values name = [] := by
  rw [values, List.map_eq_nil_iff, List.filter_eq_nil_iff]
  intro o ho heq
  exact hname (beq_iff_eq.mp heq ▸ h o ho)

/-- The flags of a run are what its options say, each of them for itself; a run has no options for
the other settings. -/
structure Gives (g : Gathered) (flags : Defaults) : Prop where
  dtype : g.value? "dtype" = some flags.dtype
  device : g.value? "device" = some flags.device
  seed : g.read? "seed" readWord = some flags.seed
  tokens : g.read? "num-speculative-tokens" readWord = some flags.tokens
  branching : ∃ lists, (g.values "top-k").mapM readWords = some lists ∧
    flags.branching = if lists.isEmpty then none else some lists.flatten
  others : flags.maxBatch = none ∧ flags.normEps = none ∧ flags.logLevel = none

end Gathered

namespace Invocation

/-- The options of a run, besides the level of the log. -/
def runNames : List String := ["batch", "token", "seed", "dtype", "device"] ++ speculationNames

theorem gives_of_flags? {g : Gathered} {flags : Defaults}
    (hnames : ∀ o ∈ g.options, o.1 ∈ globalName :: runNames) (h : flags? g = some flags) :
    g.Gives flags := by
  have hbatch : g.values "max-batch-for-speculation" = [] :=
    Gathered.values_eq_nil hnames (by decide)
  have heps : g.values "norm-eps" = [] := Gathered.values_eq_nil hnames (by decide)
  simp only [flags?, Option.bind_eq_bind, Option.bind_eq_some_iff, Option.pure_def,
    Option.some.injEq] at h
  obtain ⟨lists, hlists, dtype, hdtype, device, hdevice, tokens, htokens, maxBatch, hmaxBatch,
    normEps, hnormEps, seed, hseed, rfl⟩ := h
  simp only [Gathered.read?, Gathered.value?, hbatch, heps] at hmaxBatch hnormEps
  cases hmaxBatch
  cases hnormEps
  exact ⟨hdtype, hdevice, hseed, htokens, ⟨lists, hlists, rfl⟩, rfl, rfl, rfl⟩

theorem finish_eq_some {level level' : Option String} {g : Gathered} {n : Nat} {a? : Option Action}
    {a : Action} (h : finish level g n a? = some ⟨level', a⟩) : a = .help ∨ a? = some a := by
  unfold finish at h
  split_ifs at h
  · cases h
    exact Or.inl rfl
  · obtain ⟨_, rfl, heq⟩ := Option.map_eq_some_iff.mp h
    cases heq
    exact Or.inr rfl

theorem helpOn_eq_some {topics : List (List String)} {level level' : Option String}
    {words : List String} {a : Action} (h : helpOn topics level words = some ⟨level', a⟩) :
    a = .help := by
  unfold helpOn at h
  split_ifs at h
  cases h
  rfl

theorem configAction?_ne_run {level level' : Option String} {name source : String}
    {rest : List String} {batch token : Nat} {flags : Defaults} :
    configAction? level name rest ≠ some ⟨level', .run source batch token flags⟩ := by
  intro h
  unfold configAction? at h
  split_ifs at h with hhelp hshow
  · cases helpOn_eq_some h
  · obtain ⟨_, -, h⟩ := Option.bind_eq_some_iff.mp h
    obtain heq | heq := finish_eq_some h
    · cases heq
    · split_ifs at heq
      cases heq
  · obtain ⟨_, -, h⟩ := Option.bind_eq_some_iff.mp h
    obtain ⟨_, -, h⟩ := Option.bind_eq_some_iff.mp h
    obtain heq | heq := finish_eq_some h
    · cases heq
    · split_ifs at heq
      cases heq

theorem flags?_of_action? {level level' : Option String} {command source : String}
    {rest : List String} {batch token : Nat} {flags : Defaults}
    (h : action? level command rest = some ⟨level', .run source batch token flags⟩) :
    command = "run" ∧ ∃ g, Gathered.gather (globalName :: runNames) [] false rest = some g ∧
      flags? g = some flags := by
  unfold action? at h
  split_ifs at h with hinspect hrun hhelp
  · obtain ⟨_, -, h⟩ := Option.bind_eq_some_iff.mp h
    obtain ⟨_, -, h⟩ := Option.bind_eq_some_iff.mp h
    obtain heq | heq := finish_eq_some h
    · cases heq
    · obtain ⟨_, -, heq⟩ := Option.map_eq_some_iff.mp heq
      cases heq
  · obtain ⟨_, henter, h⟩ := Option.bind_eq_some_iff.mp h
    obtain ⟨g, hg, henter⟩ := Option.bind_eq_some_iff.mp henter
    obtain ⟨_, -, henter⟩ := Option.bind_eq_some_iff.mp henter
    cases henter
    obtain ⟨_, -, h⟩ := Option.bind_eq_some_iff.mp h
    obtain ⟨_, -, h⟩ := Option.bind_eq_some_iff.mp h
    obtain ⟨_, hflags, h⟩ := Option.bind_eq_some_iff.mp h
    obtain heq | heq := finish_eq_some h
    · cases heq
    · obtain ⟨_, -, heq⟩ := Option.map_eq_some_iff.mp heq
      cases heq
      exact ⟨hrun, g, hg, hflags⟩
  · cases helpOn_eq_some h
  · obtain ⟨⟨g, _⟩, -, h⟩ := Option.bind_eq_some_iff.mp h
    dsimp only at h
    split_ifs at h
    · cases h
    · obtain ⟨_, -, h⟩ := Option.bind_eq_some_iff.mp h
      exact absurd h configAction?_ne_run

/-- **The flags of a run** are what the options after its name say. -/
theorem exists_gives {words : List String} {level : Option String} {source : String}
    {batch token : Nat} {flags : Defaults}
    (h : parse? words = some ⟨level, .run source batch token flags⟩) :
    ∃ top rest g, Gathered.gather [globalName] ["inspect", "run", "config"] false words = some top ∧
      top.subcommand = some ("run", rest) ∧
      Gathered.gather (globalName :: runNames) [] false rest = some g ∧ g.Gives flags := by
  obtain ⟨_, henter, h⟩ := Option.bind_eq_some_iff.mp h
  obtain ⟨top, htop, henter⟩ := Option.bind_eq_some_iff.mp henter
  obtain ⟨_, -, henter⟩ := Option.bind_eq_some_iff.mp henter
  cases henter
  dsimp only at h
  split_ifs at h
  · cases h
  obtain ⟨⟨command, rest⟩, hcommand, h⟩ := Option.bind_eq_some_iff.mp h
  obtain ⟨rfl, g, hg, hflags⟩ := flags?_of_action? h
  exact ⟨top, rest, g, htop, hcommand, hg, gives_of_flags? (Gathered.mem_names_of_gather hg) hflags⟩

end Invocation

namespace Command

/-- The outcome of a run with the given settings, under a log filter. -/
def draftOutcome (around : Surroundings) (source : String) (batch token : Nat) (s : RunSettings)
    (filter : LogFilter) : Outcome :=
  match draft around source batch token s with
  | .ok records => ⟨0, "", records.filter (LogRecord.passes filter), none, around.stored⟩
  | .error e => failure around e

theorem execute_run {around : Surroundings} {words : List String} {level : Option String}
    {source : String} {batch token : Nat} {flags : Defaults}
    (h : Invocation.parse? words = some ⟨level, .run source batch token flags⟩) :
    execute around words =
      match chooseFilter around level (storedDefaults around.stored).logLevel with
      | .ok filter => draftOutcome around source batch token
          (.choose (storedDefaults around.stored) flags) filter
      | .error _ => abortion around := by
  rw [execute, h]
  dsimp only [perform, act]
  rw [run_merge]
  rfl

/-- **Flags come before stored defaults, and these before what is built in**, setting by setting.
Merging is associative and idempotent, values without anything set are neutral, and a setting of
merged values depends on that setting alone. A run of the program uses the format, the device, the
seed and the policy that are chosen in this way from the flags that its options give and from the
stored defaults. -/
theorem flags_before_stored :
    (∀ a b c : Defaults, (a.merge b).merge c = a.merge (b.merge c)) ∧
    (∀ a : Defaults, Defaults.unset.merge a = a ∧ a.merge .unset = a ∧ a.merge a = a) ∧
    (∀ a b : Defaults, (a.merge b).merge b = a.merge b) ∧
    (∀ (a b a' b' : Defaults) (s : Setting), a.value? s = a'.value? s → b.value? s = b'.value? s →
      (a.merge b).value? s = (a'.merge b').value? s) ∧
    Defaults.unset.policy = .standard ∧
    (∀ (stored flags : Defaults) (s : Setting),
      (stored.merge flags).value? s = flagOrStored (flags.value? s) (stored.value? s)) ∧
    (∀ stored flags : Defaults,
      (stored.merge flags).policy = (RunSettings.choose stored flags).policy) ∧
    ∀ (around : Surroundings) (words : List String) (level : Option String) (source : String)
      (batch token : Nat) (flags : Defaults),
      Invocation.parse? words = some ⟨level, .run source batch token flags⟩ →
        (∃ top rest g,
          Gathered.gather [Invocation.globalName] ["inspect", "run", "config"] false words =
            some top ∧ top.subcommand = some ("run", rest) ∧
          Gathered.gather (Invocation.globalName :: Invocation.runNames) [] false rest = some g ∧
          g.Gives flags) ∧
        ∀ filter,
          chooseFilter around level (storedDefaults around.stored).logLevel = .ok filter →
            execute around words = draftOutcome around source batch token
              (.choose (storedDefaults around.stored) flags) filter := by
  refine ⟨Defaults.merge_assoc, fun a => ⟨a.unset_merge, a.merge_unset, a.merge_self⟩,
    Defaults.merge_merge_self, fun _ _ _ _ _ => Defaults.value?_merge_congr, rfl,
    fun stored flags s => ?_, policy_merge, ?_⟩
  · rw [Defaults.value?_merge]
    cases flags.value? s <;> rfl
  · intro around words level source batch token flags h
    refine ⟨Invocation.exists_gives h, fun filter hfilter => ?_⟩
    rw [execute_run h, hfilter]

/-- Surroundings with a stored seed and stored numbers of candidates. -/
def seededSurroundings : Surroundings :=
  ⟨⟨[]⟩, .none, none, some "seed = 5\ntop_k_per_head = [2, 1]\n", none⟩

/-- A seed of the command line comes before the stored one, and the stored numbers of candidates
before the built-in ones; the stored level of the log has no part in this. -/
theorem flags_before_stored_seed :
    ((Defaults.unset.merge { Defaults.unset with seed := some 7 }).value? .seed =
      (Defaults.merge { Defaults.unset with logLevel := some "warn" }
        { Defaults.unset with seed := some 7 }).value? .seed) ∧
    execute seededSurroundings ["run", "m", "--seed", "7"] =
      draftOutcome seededSurroundings "m" 1 0
        ⟨"f32", "cpu", 7, { Policy.standard with branching? := some [2, 1] }⟩
        ⟨[⟨none, none, 3⟩]⟩ := by
  obtain ⟨-, -, -, hcongr, -, -, -, hrun⟩ := flags_before_stored
  have hparse : Invocation.parse? ["run", "m", "--seed", "7"] =
      some ⟨none, .run "m" 1 0 { Defaults.unset with seed := some 7 }⟩ := by decide +kernel
  have hstored : storedDefaults seededSurroundings.stored =
      { Defaults.unset with seed := some 5, branching := some [2, 1] } := by decide +kernel
  have hinfo : LogFilter.wellFormed "info" = .ok (some (some ⟨none, none, 3⟩)) := by
    decide +kernel
  have hfilter : chooseFilter seededSurroundings none
      (storedDefaults seededSurroundings.stored).logLevel = .ok ⟨[⟨none, none, 3⟩]⟩ := by
    rw [hstored]
    change LogFilter.parseLenient "info" = _
    rw [LogFilter.parseLenient_of_not_mem (by decide) (by decide), hinfo]
    rfl
  refine ⟨hcongr _ _ _ _ .seed rfl rfl, ?_⟩
  rw [(hrun _ _ none "m" 1 0 _ hparse).2 _ hfilter, hstored]
  rfl

end Command

end DraftHeads
