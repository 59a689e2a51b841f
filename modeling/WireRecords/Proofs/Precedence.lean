import WireRecords.Inspect.Program
import WireRecords.Proofs.Arguments

/-!
# Where a setting comes from

The inspector takes a setting from the command line, then from the environment, then from its
settings file and at last from the defaults. The command line is read twice, once to find the file;
only the second reading stays.
-/

namespace WireRecords.Inspect.Program

open Settings (Given Ungiven fileMembers?)
open Log (Hub)

theorem get?_commandLine_eq_some_iff {arguments : List String} {key : String} {value : Setting} :
    (commandLine arguments).get? key = some value ↔ Given arguments key value := by
  rw [commandLine, Settings.get?_loadArguments, Given, ← Settings.find?_arguments_eq_some_iff]
  exact iff_of_eq (congrArg (· = some value) Option.or_none)

theorem get?_commandLine_eq_none_iff {arguments : List String} {key : String} :
    (commandLine arguments).get? key = none ↔ Ungiven arguments key := by
  rw [commandLine, Settings.get?_loadArguments, Ungiven, ← Settings.find?_arguments_eq_none_iff]
  exact iff_of_eq (congrArg (· = none) Option.or_none)

/-- The command line names a file for settings: a text as it is, a flag as the word for true. -/
def Names (arguments : List String) (path : String) : Prop :=
  ∃ value, Given arguments "config" value ∧ value.string? = some path

/-- What the settings file has to say. -/
inductive FileGives (arguments : List String) (files : FileSystem) :
    List (String × Setting) → Prop where
  | unnamed (none : Ungiven arguments "config") : FileGives arguments files []
  | loaded {path : String} {members : List (String × Json)} (named : Names arguments path)
      (content : fileMembers? files path .byName = some members) :
      FileGives arguments files (flattenMembers "" members)

theorem settingsPath?_eq (arguments : List String) : settingsPath? arguments =
    ((commandLine arguments).get? "config").map fun value => value.string?.getD "" := by
  show (if ((commandLine arguments).get? "config").isSome then
    some ((((commandLine arguments).get? "config").bind Setting.string?).getD "") else none) = _
  cases (commandLine arguments).get? "config" <;> rfl

theorem settingsPath?_eq_none_iff {arguments : List String} :
    settingsPath? arguments = none ↔ Ungiven arguments "config" := by
  rw [settingsPath?_eq, Option.map_eq_none_iff, get?_commandLine_eq_none_iff]

theorem exists_string?_of_given {arguments : List String} {key : String} {value : Setting}
    (given : Given arguments key value) : ∃ text, value.string? = some text := by
  obtain ⟨before, argument, after, split, gives, spared⟩ := given
  cases gives with
  | flag => exact ⟨_, rfl⟩
  | assignment => exact ⟨_, rfl⟩

theorem settingsPath?_eq_some_iff {arguments : List String} {path : String} :
    settingsPath? arguments = some path ↔ Names arguments path := by
  rw [settingsPath?_eq, Option.map_eq_some_iff]
  constructor
  · rintro ⟨value, found, rfl⟩
    have given := get?_commandLine_eq_some_iff.mp found
    obtain ⟨text, string⟩ := exists_string?_of_given given
    exact ⟨value, given, by rw [string, Option.getD_some]⟩
  · rintro ⟨value, given, string⟩
    exact ⟨value, get?_commandLine_eq_some_iff.mpr given, by rw [string, Option.getD_some]⟩

def withFile (file : List (String × Setting)) : Settings :=
  (Settings.empty.setAll defaults).setAll file

def withAll (arguments : List String) (env : Environment) (file : List (String × Setting)) :
    Settings :=
  (((withFile file).loadEnvironment env variableStart environmentKeys).1.loadArguments
    arguments).1

theorem settings?_of_unnamed {arguments : List String} (env : Environment) (files : FileSystem)
    (unnamed : Ungiven arguments "config") :
    settings? arguments env files = some (withAll arguments env []) := by
  simp only [settings?, settingsPath?_eq_none_iff.mpr unnamed]
  rfl

theorem settings?_of_named {arguments : List String} {path : String} (env : Environment)
    (files : FileSystem) (named : Names arguments path) :
    settings? arguments env files = (fileMembers? files path .byName).map fun members =>
      withAll arguments env (flattenMembers "" members) := by
  simp only [settings?, settingsPath?_eq_some_iff.mpr named, Settings.loadFile?_eq]
  cases fileMembers? files path .byName <;> rfl

theorem settings?_eq_none_iff {arguments : List String} {env : Environment} {files : FileSystem} :
    settings? arguments env files = none ↔
      ∃ path, Names arguments path ∧ fileMembers? files path .byName = none := by
  constructor
  · intro failed
    cases path : settingsPath? arguments with
    | none =>
      rw [settings?_of_unnamed env files (settingsPath?_eq_none_iff.mp path)] at failed
      cases failed
    | some path' =>
      have named := settingsPath?_eq_some_iff.mp path
      rw [settings?_of_named env files named, Option.map_eq_none_iff] at failed
      exact ⟨path', named, failed⟩
  · rintro ⟨path, named, failed⟩
    rw [settings?_of_named env files named, failed, Option.map_none]

theorem settings?_eq_some_iff {arguments : List String} {env : Environment} {files : FileSystem}
    {cfg : Settings} : settings? arguments env files = some cfg ↔
      ∃ file, FileGives arguments files file ∧ cfg = withAll arguments env file := by
  constructor
  · intro settled
    cases path : settingsPath? arguments with
    | none =>
      have unnamed := settingsPath?_eq_none_iff.mp path
      rw [settings?_of_unnamed env files unnamed] at settled
      exact ⟨[], .unnamed unnamed, (Option.some.inj settled).symm⟩
    | some path' =>
      have named := settingsPath?_eq_some_iff.mp path
      rw [settings?_of_named env files named, Option.map_eq_some_iff] at settled
      obtain ⟨members, content, rfl⟩ := settled
      exact ⟨_, .loaded named content, rfl⟩
  · rintro ⟨file, unnamed | ⟨named, content⟩, rfl⟩
    · exact settings?_of_unnamed env files unnamed
    · rw [settings?_of_named env files named, content, Option.map_some]

section

variable (arguments : List String) (env : Environment) (file : List (String × Setting))

/-- What the environment says about a key that it is asked for. -/
def fromEnvironment? (key : String) : Option String :=
  if key ∈ ["log.level", "log.file", "format"] then
    env.get? (Environment.variableOf "STRUCTWIRE_" key)
  else none

theorem written?_environment (key : String) :
    (Settings.Operation.loadEnvironment env variableStart environmentKeys).written? key =
      (fromEnvironment? env key).map Setting.text := by
  apply Option.ext
  intro value
  rw [Settings.written?_loadEnvironment, Option.map_eq_some_iff, fromEnvironment?]
  by_cases listed : key ∈ ["log.level", "log.file", "format"]
  · rw [if_pos listed]
    constructor
    · rintro ⟨-, text, set, rfl⟩
      exact ⟨text, set, rfl⟩
    · rintro ⟨text, set, rfl⟩
      exact ⟨listed, text, set, rfl⟩
  · rw [if_neg listed]
    constructor
    · rintro ⟨member, -⟩
      exact absurd member listed
    · rintro ⟨text, set, -⟩
      cases set

/-- The four sources, one after the other. -/
theorem get?_withAll (key : String) : (withAll arguments env file).get? key =
    (Entries.find? ((arguments.drop 1).filterMap Settings.ofArgument?).reverse key).or
      (((fromEnvironment? env key).map Setting.text).or
        ((Entries.find? file.reverse key).or (Entries.find? defaults key))) := by
  have distinct : (defaults.reverse.map Prod.fst).Nodup := by decide
  have once : Entries.find? defaults.reverse key = Entries.find? defaults key :=
    Entries.find?_perm distinct (List.reverse_perm defaults) key
  have base : (withFile file).get? key =
      (Entries.find? file.reverse key).or (Entries.find? defaults key) := by
    rw [withFile, Settings.get?_setAll, Settings.get?_setAll, once]
    exact congrArg _ Option.or_none
  rw [withAll, Settings.get?_loadArguments, ← base, ← written?_environment]
  exact congrArg _ (Settings.get?_setAll _ _ key)

theorem positional_withAll : (withAll arguments env file).positional =
    (arguments.drop 1).filter fun argument => !"--".toList.isPrefixOf argument.toList := by
  rw [withAll, Settings.positional_loadArguments]
  rfl

end

/-- The program ends with 2 before any command exactly if the command line names a settings file
that cannot be loaded. Otherwise it sets up logging with settings that come, key by key, from the
last argument for the key, or else from its variable, or else from the file, or else from the
defaults. -/
theorem run_settings (arguments : List String) (env : Environment) (h : Hub) :
    (settings? arguments env h.files = none ↔
      ∃ path, Names arguments path ∧ fileMembers? h.files path .byName = none) ∧
    (∀ path, Names arguments path → fileMembers? h.files path .byName = none →
      (run arguments env h).exit.code = 2 ∧ (run arguments env h).out = "" ∧
        (run arguments env h).err = "failed to load config file " ++ path ++ "\n" ∧
        (run arguments env h).hub = h) ∧
    ∀ cfg, settings? arguments env h.files = some cfg →
      run arguments env h = perform cfg (setupLogging cfg h) ∧
      cfg.positional = (arguments.drop 1).filter
        (fun argument => !"--".toList.isPrefixOf argument.toList) ∧
      (∃ file, FileGives arguments h.files file) ∧
      ∀ file, FileGives arguments h.files file → ∀ key,
        (∀ value, Given arguments key value → cfg.get? key = some value) ∧
        (Ungiven arguments key →
          (∀ text, fromEnvironment? env key = some text → cfg.get? key = some (.text text)) ∧
          (fromEnvironment? env key = none →
            (∀ value, Entries.find? file.reverse key = some value → cfg.get? key = some value) ∧
            (Entries.find? file.reverse key = none →
              cfg.get? key = Entries.find? defaults key))) := by
  refine ⟨settings?_eq_none_iff, ?_, ?_⟩
  · intro path named unreadable
    have failed : settings? arguments env h.files = none :=
      settings?_eq_none_iff.mpr ⟨path, named, unreadable⟩
    simp only [run, failed, settingsPath?_eq_some_iff.mpr named, Option.getD_some]
    exact ⟨rfl, trivial, trivial, trivial⟩
  · intro cfg settled
    obtain ⟨file, gives, same⟩ := settings?_eq_some_iff.mp settled
    refine ⟨?_, same ▸ positional_withAll arguments env file, ⟨file, gives⟩, ?_⟩
    · simp only [run, settled]
    · intro file gives key
      have settled' : settings? arguments env h.files = some (withAll arguments env file) :=
        settings?_eq_some_iff.mpr ⟨file, gives, rfl⟩
      rw [Option.some.inj (settled.symm.trans settled'), get?_withAll]
      constructor
      · intro value given
        rw [Settings.find?_arguments_eq_some_iff.mpr given, Option.some_or]
      · intro ungiven
        rw [Settings.find?_arguments_eq_none_iff.mpr ungiven, Option.none_or]
        constructor
        · intro text set
          rw [set, Option.map_some, Option.some_or]
        · intro unset
          rw [unset, Option.map_none, Option.none_or]
          constructor
          · intro value found
            rw [found, Option.some_or]
          · intro absent
            rw [absent, Option.none_or]

/-- The last of two settings files counts, a flag beats the file and the environment, and a variable
set to the empty text beats the file. -/
theorem run_settings_sources :
    let content := "\x7b\"log\":\x7b\"file\":\"a.log\",\"level\":\"debug\"\x7d,\"record\":7\x7d"
    let files : FileSystem :=
      { nodes := [(["app.JSON"], .file 0)], contents := [content.toUTF8.toList], current := [] }
    let arguments := ["inspect", "in", "--config=missing.json", "--log.level=off", "--", "out",
      "--config=app.JSON", "--log.level", "in", "--x=y=z"]
    let env : Environment :=
      { assignments := ["STRUCTWIRE_LOG_FILE=", "STRUCTWIRE_LOG_LEVEL=info"] }
    ∃ cfg, settings? arguments env files = some cfg ∧
      cfg.positional = ["in", "out", "in"] ∧
      cfg.get? "log.level" = some (.bool true) ∧ cfg.get? "x" = some (.text "y=z") ∧
      cfg.get? "" = some (.bool true) ∧ cfg.get? "log.file" = some (.text "") ∧
      cfg.get? "record" = some (.int 7) ∧ cfg.get? "format" = some (.text "text") ∧
      cfg.get? "output" = none := by
  intro content files arguments env
  let h : Hub := { files }
  have named : Names arguments "app.JSON" :=
    ⟨.text "app.JSON", get?_commandLine_eq_some_iff.mp (by decide +kernel), rfl⟩
  have flat : (fileMembers? files "app.JSON" .byName).map (flattenMembers "") =
      some [("log.file", .text "a.log"), ("log.level", .text "debug"), ("record", .int 7)] := by
    decide +kernel
  obtain ⟨members, read, flattened⟩ := Option.map_eq_some_iff.mp flat
  have gives : FileGives arguments files
      [("log.file", .text "a.log"), ("log.level", .text "debug"), ("record", .int 7)] :=
    flattened ▸ .loaded named read
  have given (key : String) (value : Setting)
      (found : (commandLine arguments).get? key = some value) : Given arguments key value :=
    get?_commandLine_eq_some_iff.mp found
  have ungiven (key : String) (absent : (commandLine arguments).get? key = none) :
      Ungiven arguments key := get?_commandLine_eq_none_iff.mp absent
  have settled : settings? arguments env files = some (withAll arguments env _) :=
    settings?_eq_some_iff.mpr ⟨_, gives, rfl⟩
  obtain ⟨-, -, reached⟩ := run_settings arguments env h
  obtain ⟨-, positional, -, effective⟩ := reached _ settled
  have per := effective _ gives
  refine ⟨_, settled, positional, (per _).1 _ (given _ _ (by decide +kernel)),
    (per _).1 _ (given _ _ (by decide +kernel)), (per _).1 _ (given _ _ (by decide +kernel)),
    ((per _).2 (ungiven _ (by decide +kernel))).1 _ (by decide +kernel), ?_, ?_, ?_⟩
  · exact (((per _).2 (ungiven _ (by decide +kernel))).2 (by decide +kernel)).1 _ rfl
  · exact (((per _).2 (ungiven _ (by decide +kernel))).2 (by decide +kernel)).2 rfl
  · exact (((per _).2 (ungiven _ (by decide +kernel))).2 (by decide +kernel)).2 rfl

end WireRecords.Inspect.Program
